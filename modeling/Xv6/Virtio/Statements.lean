import Xv6.Virtio.Driver

/-!
# The statements of the driver

The statements of `virtio_disk_rw` and `virtio_disk_intr` that change more than the place of their
thread, one lemma each: they keep the invariant, and none of them fails.
-/

namespace Xv6.Virtio

open Mutex Function State List

variable {ι β : Type} [DecidableEq ι] [DecidableEq β] {s s' : State ι β} {p : ι} {c : Call β}
  {idx : Idx}

namespace Inv

/-! ## Allocation -/

omit [DecidableEq ι] [DecidableEq β] in
/-- Nobody has a free descriptor, so none is the head of a request on its way. -/
theorem place_of_free (h : Inv s) {i : ℕ} (hi : s.free i = true) : s.place i = .away := by
  rw [place_eq_away]
  intro hmem
  obtain ⟨q, hq⟩ := h.heads i hmem
  exact h.share.notMem_of_free hi (mem_of_mem_head? hq)

omit [DecidableEq β] in
theorem allocated (h : Inv s) (hp : s.pc p = .rwAlloc c) (hnodup : idx.list.Nodup)
    (hidx : ∀ i ∈ idx.list, i < NUM ∧ s.free i = true) :
    Inv ((s.taking idx.list).goto p (.rwOwn c idx .format)) where
  healthy := h.healthy
  excl := h.excl.stay (by rw [hp]; rfl)
  share := by
    rw [chain_goto]
    refine h.share.give ?_ hnodup hidx fun _ => rfl
    rw [hp]
    rfl
  calls := by
    refine h.calls.congr (read_goto (s := s.taking idx.list) ?_) rfl rfl (fun _ _ _ => rfl)
      fun _ _ => rfl
    change _ = (s.pc p).call
    rw [hp]
    rfl
  bounded := ⟨h.bounded.avail, h.bounded.seen, h.bounded.used, h.bounded.usedIdx⟩
  nodup := h.nodup
  reporting := h.reporting
  heads i hi := by
    obtain ⟨q, hq⟩ := h.heads i hi
    have hqp : q ≠ p := by
      rintro rfl
      simp [hp, Pc.chain] at hq
    refine ⟨q, ?_⟩
    rw [goto_pc, if_neg hqp]
    exact hq
  pcs q := by
    rw [goto_pc]
    split
    · have hevents : s.events c.req = [] := by
        have hok := h.pcs p
        rwa [hp] at hok
      exact ⟨⟨h.place_of_free (hidx idx.i0 (by simp [Idx.list])).2, hevents⟩, by simp⟩
    · exact (h.pcs q).frame (fun _ _ => rfl) (fun _ _ _ _ => rfl) (fun _ _ _ => rfl) fun _ => id

omit [DecidableEq ι] [DecidableEq β] in
/-- Descriptors that are free may change, and threads may wake. -/
theorem loosen {desc : ℕ → Desc β} {pc : ι → Pc β} (h : Inv s)
    (hdesc : ∀ i, s.free i = false → desc i = s.desc i)
    (hsame : ∀ q, Pc.Same ι (s.pc q) (pc q)) : Inv { s with desc := desc, pc := pc } where
  healthy := h.healthy
  excl q := by
    rw [(hsame q).holds]
    exact h.excl q
  share := by
    rw [show (fun q => (pc q).chain) = fun q => (s.pc q).chain from
      funext fun q => (hsame q).chain]
    exact h.share
  calls := h.calls.congr (fun q => (hsame q).call) rfl rfl (fun _ _ _ => rfl) fun _ _ => rfl
  bounded := ⟨h.bounded.avail, h.bounded.seen, h.bounded.used, h.bounded.usedIdx⟩
  nodup := h.nodup
  reporting := h.reporting
  heads i hi := by
    obtain ⟨q, hq⟩ := h.heads i hi
    exact ⟨q, by rw [(hsame q).chain, hq]⟩
  pcs q := by
    refine ((hsame q).ok (h.pcs q)).frame (fun _ _ => rfl) (fun c idx o hq => ?_)
      (fun _ _ _ => rfl) fun _ => id
    refine view_congr (fun i hi => hdesc i ?_) rfl rfl rfl rfl rfl rfl
    refine h.share.not_free (p := q) ?_
    rw [← (hsame q).chain, hq]
    exact hi

/-- **`alloc3_desc`** never fails, whether it finds three descriptors or rolls back. -/
theorem alloc (h : Inv s) (hp : s.pc p = .rwAlloc c) (hs : s.exec p = some s') : Inv s' := by
  simp only [exec, hp, Option.some.injEq] at hs
  subst hs
  rcases s.alloc3Desc_spec with ⟨idx, hok, hnodup, hidx⟩ | ⟨l, t, hok, hl, hfreed⟩
  · rw [hok]
    exact h.allocated hp hnodup hidx
  rw [hok]
  change Inv (t.release p (.rwSleep c))
  obtain ⟨desc, free, pc, rfl, hfree, hdesc, hsame⟩ := hfreed.cases
  have hfree' : free = s.free := by
    funext i
    rw [hfree]
    by_cases hi : i ∈ l
    · simp [hi, hl i hi]
    · simp [taking, hi]
  subst hfree'
  have hloose : Inv { s with desc := desc, pc := pc } := by
    refine h.loosen (fun i hi => hdesc i fun hil => ?_) hsame
    rw [hl i hil] at hi
    cases hi
  have hsamep : Pc.Same ι (.rwAlloc c) (pc p) := hp ▸ hsame p
  refine hloose.release hsamep.holds rfl hsamep.chain.symm hsamep.call.symm ?_
  have hpok := h.pcs p
  rw [hp] at hpok
  exact hpok

/-! ## Handing over a request -/

theorem format (h : Inv s) (hp : s.pc p = .rwOwn c idx .format) :
    Inv ((s.format c idx).goto p (.rwOwn c idx .avail)) := by
  have hok := h.pcs p
  have hnodup := h.share.nodup p
  simp only [hp, Pc.chain, Idx.list, List.nodup_cons, List.mem_cons, List.not_mem_nil, or_false,
    not_or] at hok hnodup
  obtain ⟨⟨h01, h02⟩, h12, -⟩ := hnodup
  have hlocal : Local s c idx (s.format c idx) := by
    refine ⟨rfl, fun i hi => ?_, fun i hi => update_of_ne hi .., fun i hi =>
      update_of_ne hi .., fun i hi => update_of_ne hi .., fun b hb =>
      update_of_ne hb .., fun _ _ => rfl, fun _ _ => rfl⟩
    simp only [Idx.list, List.mem_cons, List.not_mem_nil, or_false, not_or] at hi
    simp [State.format, hi]
  refine h.caller hp rfl rfl hlocal rfl rfl rfl (h.calls.congr (fun _ => rfl) rfl rfl
    (fun _ _ _ => rfl) fun _ _ => rfl) ⟨h.bounded.avail, h.bounded.seen, h.bounded.used,
    h.bounded.usedIdx⟩ h.nodup h.reporting ⟨⟨?_, ?_, ⟨hok.1.place, hok.1.events⟩⟩, by simp⟩
  · constructor <;> simp [State.view, State.format, h01, h02, h12]
  · simp [State.view, State.format]

omit [DecidableEq ι] [DecidableEq β] in
theorem avail_room (h : Inv s) {i : ℕ} (hi : i < NUM) (haway : i ∉ s.transit) :
    Window.dist M16 s.seen s.avail.idx < NUM := by
  have hlen := length_le_num (nodup_cons.2 ⟨haway, h.nodup⟩) fun j hj => by
    rcases mem_cons.1 hj with rfl | hj
    · exact hi
    · exact h.transit_lt hj
  have hqueued : s.queued.length = Window.dist M16 s.seen s.avail.idx := Window.length_entries _
  simp only [transit, length_cons, length_append] at hlen
  omega

theorem num_dvd : NUM ∣ M16 := by decide

omit [DecidableEq ι] [DecidableEq β] in
theorem head_lt (h : Inv s) {o : Own} (hp : s.pc p = .rwOwn c idx o) : idx.i0 < NUM :=
  h.share.lt p _ (mem_chain hp)

omit [DecidableEq β] in
/-- The caller writes its request to the avail ring. -/
theorem putAvail (h : Inv s) (hp : s.pc p = .rwOwn c idx .avail) :
    Inv ((s.putAvail idx).goto p (.rwOwn c idx .bump)) := by
  have hok := h.pcs p
  simp only [hp] at hok
  obtain ⟨⟨hformatted, hdisk, hunpub⟩, -⟩ := hok
  have hroom := h.avail_room (h.head_lt hp) ((s.place_eq_away _).1 hunpub.place)
  have hqueued : (s.putAvail idx).queued = s.queued :=
    Window.entries_update num_dvd h.bounded.seen h.bounded.avail hroom _ _
  have htransit : (s.putAvail idx).transit = s.transit := by
    rw [transit, hqueued]
    rfl
  have hplace : ∀ i, (s.putAvail idx).place i = s.place i := by
    intro i
    rw [place, hqueued]
    rfl
  have hview : (s.putAvail idx).view c idx = s.view c idx :=
    view_congr (fun _ _ => rfl) rfl rfl rfl rfl (hplace _) rfl
  refine h.caller hp rfl rfl ⟨rfl, fun _ _ => rfl, fun _ _ => rfl, fun _ _ => rfl, fun _ _ => rfl,
    fun _ _ => rfl, fun i _ => hplace i, fun _ _ => rfl⟩ rfl rfl rfl (h.calls.congr (fun _ => rfl)
    rfl rfl (fun _ _ _ => rfl) fun _ _ => rfl) ⟨h.bounded.avail, h.bounded.seen, h.bounded.used,
    h.bounded.usedIdx⟩ (htransit ▸ h.nodup) h.reporting ⟨?_, fun _ => ?_⟩
  · rw [hview]
    exact ⟨hformatted, hdisk, hunpub⟩
  · exact update_self ..

omit [DecidableEq β] in
/-- The caller makes its request available. -/
theorem bumpAvail (h : Inv s) (hp : s.pc p = .rwOwn c idx .bump) :
    Inv (s.bumpAvail.goto p (.rwOwn c idx .test)) := by
  have hok := h.pcs p
  simp only [hp] at hok
  obtain ⟨⟨hformatted, hdisk, hunpub⟩, hring⟩ := hok
  have haway := (s.place_eq_away _).1 hunpub.place
  have hroom := h.avail_room (h.head_lt hp) haway
  have hqueued : s.bumpAvail.queued = s.queued ++ [idx.i0] := by
    rw [← hring rfl]
    exact Window.entries_push h.bounded.seen h.bounded.avail
      (by simp only [NUM, M16] at hroom ⊢; omega) _
  have hperm : s.bumpAvail.transit.Perm (idx.i0 :: s.transit) := by
    rw [transit, hqueued, transit, append_assoc]
    exact perm_middle
  have hplace : ∀ i ≠ idx.i0, s.bumpAvail.place i = s.place i := by
    intro i hi
    simp only [place, hqueued, mem_append, mem_singleton, hi, or_false]
    rfl
  have hplace0 : s.bumpAvail.place idx.i0 = .queued := by
    rw [place, hqueued, if_pos (.inl (by simp))]
  refine h.caller hp rfl rfl ⟨rfl, fun _ _ => rfl, fun _ _ => rfl, fun _ _ => rfl, fun _ _ => rfl,
    fun _ _ => rfl, hplace, fun _ _ => rfl⟩ rfl rfl rfl (h.calls.congr (fun _ => rfl) rfl rfl
    (fun _ _ _ => rfl) fun _ _ => rfl) ⟨Nat.mod_lt _ (by decide), h.bounded.seen, h.bounded.used,
    h.bounded.usedIdx⟩ (hperm.nodup_iff.2 (nodup_cons.2 ⟨haway, h.nodup⟩)) h.reporting
    ⟨⟨?_, ?_⟩, by simp⟩
  · exact ⟨hformatted.desc0, hformatted.desc1, hformatted.desc2, hformatted.op, hformatted.b,
      hformatted.req⟩
  have hdisk' : (s.bumpAvail.view c idx).disk = true := hdisk
  have hplace' : (s.bumpAvail.view c idx).place = .queued := hplace0
  refine ⟨by simp [hdisk', hplace'], ?_, by simp [hplace']⟩
  rw [hplace']
  exact hunpub.events

/-! ## Getting it back -/

/-- **`free_chain`** never fails: the caller gives its descriptors back. -/
theorem reclaim (h : Inv s) (hp : s.pc p = .rwOwn c idx .reclaim) (hs : s.exec p = some s') :
    Inv s' := by
  simp only [exec, hp, Option.some.injEq] at hs
  subst hs
  have hok := h.pcs p
  simp only [hp] at hok
  obtain ⟨⟨hformatted, haway, hevents⟩, -⟩ := hok
  have hchain : (s.pc p).chain = idx.list := by rw [hp]; rfl
  have hidx : ∀ i ∈ idx.list, i < NUM ∧ s.free i = false := fun i hi =>
    ⟨h.share.lt p i (hchain ▸ hi), h.share.not_free (p := p) (hchain ▸ hi)⟩
  obtain ⟨hnext0, hnext1, hnext2, -⟩ := hformatted.flags
  obtain ⟨t, ht, hfreed⟩ := freeChain_spec (s := s.clearInfo idx) (hchain ▸ h.share.nodup p)
    hidx ⟨hnext0, congrArg Desc.next hformatted.desc0⟩
    ⟨hnext1, congrArg Desc.next hformatted.desc1⟩ hnext2
  rw [ht]
  change Inv (t.goto p (.rwUnlock c))
  obtain ⟨desc, free, pc, rfl, hfree, hdesc, hsame⟩ := hfreed.cases
  have hsame' : ∀ q, Pc.Same ι (s.pc q) (pc q) := hsame
  have hsamep : Pc.Same ι (.rwOwn c idx .reclaim) (pc p) := hp ▸ hsame' p
  refine ⟨h.healthy, ?_, ?_, ?_, ?_, h.nodup, h.reporting, fun i hi => ?_, fun q => ?_⟩
  · refine Held.stay (f := pc) (fun q => ?_) ?_
    · rw [(hsame' q).holds]
      exact h.excl q
    · exact hsamep.holds.symm
  · rw [chain_goto]
    have hchains : (fun q => (pc q).chain) = fun q => (s.pc q).chain :=
      funext fun q => (hsame' q).chain
    change Allotment NUM free (update (fun q => (pc q).chain) p [])
    rw [hchains]
    refine h.share.back fun i => ?_
    rw [hfree, hchain]
    rfl
  · refine Calls.congr h.calls (fun q => ?_) rfl rfl (fun _ _ _ => rfl) fun _ _ => rfl
    rw [goto_pc]
    split
    case isTrue hq =>
      rw [hq, hp]
      rfl
    case isFalse => exact (hsame' q).call
  · exact ⟨h.bounded.avail, h.bounded.seen, h.bounded.used, h.bounded.usedIdx⟩
  · obtain ⟨q, hq⟩ := h.heads i hi
    have hqp : q ≠ p := by
      rintro rfl
      rw [hchain] at hq
      have hi0 : idx.i0 = i := Option.some.inj hq
      exact (s.place_eq_away _).1 haway (hi0 ▸ hi)
    refine ⟨q, ?_⟩
    rw [goto_pc, if_neg hqp]
    exact (congrArg head? (hsame' q).chain).trans hq
  rw [goto_pc]
  split
  · exact hevents
  case isFalse hq =>
    refine ((hsame' q).ok (h.pcs q)).frame (fun _ _ => rfl) (fun c' idx' o' hq' => ?_)
      (fun _ _ _ => rfl) fun _ => id
    have hdisj : ∀ i ∈ idx'.list, i ∉ idx.list := by
      intro i hi hi'
      refine hq (h.share.disjoint q p i ?_ (hchain ▸ hi'))
      rw [← (hsame' q).chain, hq']
      exact hi
    have hhead : idx'.i0 ≠ idx.i0 := by
      intro heq
      exact hdisj idx'.i0 (by simp [Idx.list]) (by simp [Idx.list, heq])
    exact view_congr (fun i hi => hdesc i (hdisj i hi)) rfl
      (update_of_ne hhead ..) rfl rfl rfl rfl

end Inv

end Xv6.Virtio

import Xv6.Virtio.Statements

/-!
# The device and the interrupt handler

The device takes requests from the avail ring, performs them and reports them in the used ring, in
any order; `virtio_disk_intr` takes them from there.
-/

namespace Xv6.Virtio

open Mutex Function State List Option Window

variable {ι β : Type} {s s' : State ι β} {p : ι} {c : Call β} {idx : Idx} {i : ℕ}

theorem Formatted.decode (h : Formatted c idx (s.view c idx)) :
    s.decode idx.i0 = some (c.op, idx.i0) := by
  obtain ⟨hnext0, hnext1, hnext2, hwrites1, hwrites2⟩ := h.flags
  have hd0 : s.desc idx.i0 = _ := h.desc0
  have hd1 : s.desc idx.i1 = _ := h.desc1
  have hd2 : s.desc idx.i2 = _ := h.desc2
  have hop : s.ops idx.i0 = _ := h.op
  simp only [State.view] at hnext0 hnext1 hnext2 hwrites1 hwrites2
  have hwrite : decide ((s.ops idx.i0).type = VIRTIO_BLK_T_OUT) = c.write := by
    rw [hop]
    cases c.write <;> rfl
  have hnext : (s.desc idx.i0).next = idx.i1 ∧ (s.desc idx.i1).next = idx.i2 := by
    rw [hd0, hd1]
    exact ⟨rfl, rfl⟩
  have haddr : (s.desc idx.i0).addr = .ops idx.i0 ∧ (s.desc idx.i1).addr = .data c.b ∧
      (s.desc idx.i2).addr = .status idx.i0 := by
    rw [hd0, hd1, hd2]
    exact ⟨rfl, rfl, rfl⟩
  simp only [State.decode, hnext.1, hnext.2, haddr.1, haddr.2.1, haddr.2.2, hwrite]
  rw [if_pos ⟨hnext0, hnext1, by simp [hnext2], hwrites1, hwrites2⟩, hop]
  rfl

namespace Inv

variable (h : Inv s)

include h

theorem device {o : Own} (hp : s.pc p = .rwOwn c idx o)
    (ho : o = .test ∨ o = .sleep ∨ o = .woken) (hpc : s'.pc = s.pc)
    (hlock : s'.vdiskLock = s.vdiskLock) (havail : s'.avail = s.avail)
    (hlocal : Local s c idx s') (hfault : s'.fault = s.fault) (hcalls : Calls s')
    (hbounded : s'.Bounded) (hnodup : s'.transit.Nodup)
    (hreporting : ∀ i, s'.pushing = some i → s'.used.ring (s'.used.idx % NUM) = i)
    (hformatted : Formatted c idx (s'.view c idx)) (hpublished : Published c (s'.view c idx))
    (hbody : s.usedIdx ≠ s.used.idx → s'.usedIdx ≠ s'.used.idx) : Inv s' := by
  have hp' : s'.pc p = .rwOwn c idx o := by rw [hpc, hp]
  refine h.request hp hp' (fun q _ => by rw [hpc]; exact .refl _) hlocal
    (hfault.trans h.healthy) (by rw [hlock, hpc]; exact h.excl) hcalls hbounded hnodup hreporting
    ⟨?_, ?_⟩ (fun _ _ _ _ _ => by rw [havail]) fun _ _ _ => hbody
  · rcases ho with rfl | rfl | rfl <;> exact ⟨hformatted, hpublished⟩
  · rintro rfl
    simp at ho

theorem devFetch (hs : s.devFetch = some s') : Inv s' := by
  rw [State.devFetch] at hs
  split at hs
  case isFalse => cases hs
  case isTrue hne =>
    rw [← Option.some.inj hs]
    have hqueued : s.queued = s.avail.ring (s.seen % NUM) :: s.fetch.queued :=
      Window.entries_pop h.bounded.seen h.bounded.avail hne s.avail.ring
    have hworking : s.fetch.working = s.working ++ [s.avail.ring (s.seen % NUM)] := rfl
    generalize s.avail.ring (s.seen % NUM) = i at hqueued hworking
    obtain ⟨p, c, idx, o, hp, rfl, ho, hformatted, hpublished⟩ := h.owner (i := i)
      (by simp [State.transit, hqueued])
    have hplace : ∀ a, s.fetch.place a = s.place a := by
      intro a
      refine State.place_congr ?_ Iff.rfl Iff.rfl
      simp only [hqueued, hworking, List.mem_cons, List.mem_append, List.not_mem_nil, or_false]
      tauto
    have hperm : s.fetch.transit.Perm s.transit := by
      refine List.perm_iff_count.2 fun a => ?_
      have hrest : s.fetch.performed = s.performed ∧ s.fetch.pushing = s.pushing ∧
          s.fetch.completed = s.completed := ⟨rfl, rfl, rfl⟩
      simp only [State.count_transit, hqueued, hworking, hrest, List.count_append, List.count_cons,
        List.count_nil]
      omega
    have hview : s.fetch.view c idx = s.view c idx := by
      rw [State.view, hplace]
      rfl
    exact h.device hp ho rfl rfl rfl ⟨rfl, fun _ _ => rfl, fun _ _ => rfl, fun _ _ => rfl,
      fun _ _ => rfl, fun _ _ => rfl, fun a _ => hplace a, fun _ _ => rfl⟩ rfl
      (h.calls.congr (fun _ => rfl) rfl rfl (fun _ _ _ => rfl) fun _ _ => rfl)
      ⟨h.bounded.avail, Nat.mod_lt _ (by decide), h.bounded.used, h.bounded.usedIdx⟩
      (hperm.nodup_iff.2 h.nodup) h.reporting (hview ▸ hformatted) (hview ▸ hpublished) id

theorem devPerform (hs : s.devPerform i = some s') : Inv s' := by
  rw [State.devPerform] at hs
  split at hs
  case isFalse => cases hs
  case isTrue hi =>
    obtain ⟨p, c, idx, o, hp, rfl, ho, hformatted, hpublished⟩ := h.owner (i := i)
      (by simp [State.transit, hi])
    rw [hformatted.decode] at hs
    rw [← Option.some.inj hs]
    have hreq : s.reqAt idx.i0 = c.req := hformatted.req
    have hold : s.place idx.i0 = .queued := if_pos (.inr hi)
    have hlists : (s.perform idx.i0 c.op idx.i0).queued = s.queued ∧
        (s.perform idx.i0 c.op idx.i0).working = s.working.erase idx.i0 ∧
        (s.perform idx.i0 c.op idx.i0).performed = s.performed ++ [idx.i0] ∧
        (s.perform idx.i0 c.op idx.i0).pushing = s.pushing ∧
        (s.perform idx.i0 c.op idx.i0).completed = s.completed := ⟨rfl, rfl, rfl, rfl, rfl⟩
    have hperm : (s.perform idx.i0 c.op idx.i0).transit.Perm s.transit := by
      refine List.perm_iff_count.2 fun a => ?_
      have hcount := (List.perm_cons_erase hi).count_eq a
      simp only [State.count_transit, hlists, List.count_append, List.count_cons,
        List.count_nil] at hcount ⊢
      omega
    have hnodup' := hperm.nodup_iff.2 h.nodup
    have hplace : ∀ a ≠ idx.i0, (s.perform idx.i0 c.op idx.i0).place a = s.place a := by
      intro a ha
      refine State.place_congr ?_ ?_ Iff.rfl
      · rw [hlists.1, hlists.2.1, List.mem_erase_of_ne ha]
      · rw [hlists.2.2.1, hlists.2.2.2.1, List.mem_append, List.mem_singleton]
        simp [ha]
    have hplace0 : (s.perform idx.i0 c.op idx.i0).place idx.i0 = .performed :=
      State.place_performed hnodup' (.inl (by simp [hlists]))
    have hlog : (s.perform idx.i0 c.op idx.i0).log = s.log ++ [(c.req, .performed c.op)] := by
      rw [← hreq]
      rfl
    have hevents := State.events_append hlog
    have hinfo : (s.perform idx.i0 c.op idx.i0).info idx.i0 = ⟨(s.info idx.i0).b, 0⟩ :=
      update_self ..
    refine h.device hp ho rfl rfl rfl ⟨rfl, fun _ _ => rfl, fun _ _ => rfl, fun a ha =>
      update_of_ne ha .., fun _ _ => rfl, fun _ _ => rfl, hplace, fun r hr => ?_⟩ rfl
      (h.calls.event (p := p) (by rw [hp]; rfl) (fun _ => rfl) rfl rfl hlog)
      ⟨h.bounded.avail, h.bounded.seen, h.bounded.used, h.bounded.usedIdx⟩ hnodup' h.reporting ?_ ?_
      id
    · rw [hevents, if_neg hr, List.append_nil]
    · exact ⟨hformatted.desc0, hformatted.desc1, hformatted.desc2, hformatted.op,
        (congrArg Info.b hinfo).trans hformatted.b, hformatted.req⟩
    have hplace' : ((s.perform idx.i0 c.op idx.i0).view c idx).place = .performed := hplace0
    have hold' : (s.view c idx).place = .queued := hold
    refine ⟨?_, ?_, fun _ => ?_⟩
    · rw [hplace']
      refine Iff.trans hpublished.disk ?_
      rw [hold']
      simp
    · rw [hplace']
      change (s.perform idx.i0 c.op idx.i0).events c.req = _
      have hev : s.events c.req = _ := hpublished.events
      rw [hevents, hev, hold', if_pos rfl]
      rfl
    · exact congrArg Info.status hinfo

theorem used_room (hi : i ∈ s.transit) (hnot : i ∉ s.completed) :
    dist M16 s.usedIdx s.used.idx < NUM := by
  have hnodup := (nodup_transit.1 h.nodup).2.2.2.1
  have hlen := length_le_num (nodup_cons.2 ⟨hnot, hnodup⟩) fun j hj => by
    rcases mem_cons.1 hj with rfl | hj
    · exact h.transit_lt hi
    · exact h.transit_lt (by simp [transit, hj])
  have hcompleted : s.completed.length = dist M16 s.usedIdx s.used.idx := length_entries _
  rw [length_cons] at hlen
  omega

theorem devPush (hs : s.devPush i = some s') : Inv s' := by
  rw [State.devPush] at hs
  split at hs
  case isFalse => cases hs
  case isTrue hcond =>
    obtain ⟨hi, hpush⟩ := hcond
    rw [← Option.some.inj hs]
    have hmem : i ∈ s.transit := by simp [State.transit, hi]
    have hnodup := State.nodup_transit.1 h.nodup
    have hnot : i ∉ s.completed := (hnodup.2.2.2.2.2.2.1 i hi).2
    obtain ⟨p, c, idx, o, hp, rfl, ho, hformatted, hpublished⟩ := h.owner hmem
    have hcompleted : (s.push idx.i0).completed = s.completed :=
      Window.entries_update num_dvd h.bounded.usedIdx h.bounded.used (h.used_room hmem hnot) _ _
    have hlists : (s.push idx.i0).queued = s.queued ∧ (s.push idx.i0).working = s.working ∧
        (s.push idx.i0).performed = s.performed.erase idx.i0 ∧
        (s.push idx.i0).pushing = some idx.i0 := ⟨rfl, rfl, rfl, rfl⟩
    have hperm : (s.push idx.i0).transit.Perm s.transit := by
      refine List.perm_iff_count.2 fun a => ?_
      have hcount := (List.perm_cons_erase hi).count_eq a
      simp only [State.count_transit, hlists, hcompleted, hpush, Option.toList, List.count_cons,
        List.count_nil] at hcount ⊢
      omega
    have hnodup' := hperm.nodup_iff.2 h.nodup
    have hplace : ∀ a, (s.push idx.i0).place a = s.place a := by
      intro a
      by_cases ha : a = idx.i0
      · rw [ha, State.place_performed hnodup' (.inr rfl), State.place_performed h.nodup (.inl hi)]
      · refine State.place_congr Iff.rfl ?_ (by rw [hcompleted])
        rw [hlists.2.2.1, hlists.2.2.2, hpush, List.mem_erase_of_ne ha]
        simp [Ne.symm ha]
    have hview : (s.push idx.i0).view c idx = s.view c idx := by
      rw [State.view, hplace]
      rfl
    refine h.device hp ho rfl rfl rfl ⟨rfl, fun _ _ => rfl, fun _ _ => rfl, fun _ _ => rfl,
      fun _ _ => rfl, fun _ _ => rfl, fun a _ => hplace a, fun _ _ => rfl⟩ rfl
      (h.calls.congr (fun _ => rfl) rfl rfl (fun _ _ _ => rfl) fun _ _ => rfl)
      ⟨h.bounded.avail, h.bounded.seen, h.bounded.used, h.bounded.usedIdx⟩ hnodup' (fun a ha => ?_)
      (hview ▸ hformatted) (hview ▸ hpublished) id
    rw [hlists.2.2.2, Option.some.injEq] at ha
    rw [← ha]
    exact update_self ..

theorem devBump (hs : s.devBump = some s') : Inv s' := by
  rw [State.devBump, Option.map_eq_some_iff] at hs
  obtain ⟨i, hpush, rfl⟩ := hs
  have hmem : i ∈ s.transit := by simp [State.transit, hpush]
  have hnot : i ∉ s.completed := (State.nodup_transit.1 h.nodup).2.2.2.2.2.2.2 i hpush
  obtain ⟨p, c, idx, o, hp, rfl, ho, hformatted, hpublished⟩ := h.owner hmem
  have hroom := h.used_room hmem hnot
  have hcompleted : (s.report idx.i0).completed = s.completed ++ [idx.i0] := by
    rw [← h.reporting _ hpush]
    exact Window.entries_push h.bounded.usedIdx h.bounded.used
      (by simp only [NUM, M16] at hroom ⊢; omega) _
  have hlists : (s.report idx.i0).queued = s.queued ∧ (s.report idx.i0).working = s.working ∧
      (s.report idx.i0).performed = s.performed ∧ (s.report idx.i0).pushing = none :=
    ⟨rfl, rfl, rfl, rfl⟩
  have hperm : (s.report idx.i0).transit.Perm s.transit := by
    refine List.perm_iff_count.2 fun a => ?_
    simp only [State.count_transit, hlists, hcompleted, hpush, Option.toList, List.count_append,
      List.count_cons, List.count_nil]
    omega
  have hnodup' := hperm.nodup_iff.2 h.nodup
  have hplace : ∀ a ≠ idx.i0, (s.report idx.i0).place a = s.place a := by
    intro a ha
    refine State.place_congr Iff.rfl ?_ ?_
    · rw [hlists.2.2.1, hlists.2.2.2, hpush]
      simp [Ne.symm ha]
    · rw [hcompleted, List.mem_append, List.mem_singleton]
      simp [ha]
  have hplace0 : (s.report idx.i0).place idx.i0 = .completed :=
    State.place_completed hnodup' (by simp [hcompleted])
  have hold : s.place idx.i0 = .performed := State.place_performed h.nodup (.inr hpush)
  have hreq : s.reqAt idx.i0 = c.req := hformatted.req
  have hlog : (s.report idx.i0).log = s.log ++ [(c.req, .used)] := by
    rw [← hreq]
    rfl
  have hevents := State.events_append hlog
  have hbounded : (s.report idx.i0).Bounded :=
    ⟨h.bounded.avail, h.bounded.seen, Nat.mod_lt _ (by decide), h.bounded.usedIdx⟩
  refine h.device hp ho rfl rfl rfl ⟨rfl, fun _ _ => rfl, fun _ _ => rfl, fun _ _ => rfl,
    fun _ _ => rfl, fun _ _ => rfl, hplace, fun r hr => ?_⟩ rfl
    (h.calls.event (p := p) (by rw [hp]; rfl) (fun _ => rfl) rfl rfl hlog) hbounded hnodup'
    (fun a ha => by cases ha) ?_ ?_ fun _ => ?_
  · rw [hevents, if_neg hr, List.append_nil]
  · exact ⟨hformatted.desc0, hformatted.desc1, hformatted.desc2, hformatted.op, hformatted.b,
      hformatted.req⟩
  · have hplace' : ((s.report idx.i0).view c idx).place = .completed := hplace0
    have hold' : (s.view c idx).place = .performed := hold
    refine ⟨?_, ?_, fun _ => hpublished.status (.inl hold')⟩
    · rw [hplace']
      refine Iff.trans hpublished.disk ?_
      rw [hold']
      simp
    rw [hplace']
    change (s.report idx.i0).events c.req = _
    have hev : s.events c.req = _ := hpublished.events
    rw [hevents, hev, hold', if_pos rfl]
    rfl
  · rw [ne_eq, ← hbounded.completed_eq_nil, hcompleted]
    simp

omit h

/-! ## The interrupt handler -/

variable [DecidableEq β]

theorem wake_waiting (c : Call β) (idx : Idx) {o : Own}
    (ho : o = .test ∨ o = .sleep ∨ o = .woken) (ch : Chan β) :
    ∃ o', (Pc.rwOwn c idx o).wake ch = .rwOwn c idx o' ∧
      (o' = .test ∨ o' = .sleep ∨ o' = .woken) := by
  rcases ho with rfl | rfl | rfl
  · exact ⟨.test, by cases ch <;> rfl, .inl rfl⟩
  · cases ch with
    | free => exact ⟨.sleep, rfl, .inr (.inl rfl)⟩
    | buf b =>
      by_cases hb : c.b = b
      · exact ⟨.woken, by simp [Pc.wake, hb], .inr (.inr rfl)⟩
      · exact ⟨.sleep, by simp [Pc.wake, hb], .inr (.inl rfl)⟩
  · exact ⟨.woken, by cases ch <;> rfl, .inr (.inr rfl)⟩

theorem cleared [DecidableEq ι] {q : ι} {o : Own} (h : Inv s) (hp : s.pc p = .intrBody)
    (hq : s.pc q = .rwOwn c idx o) (ho : o = .test ∨ o = .sleep ∨ o = .woken)
    (hformatted : Formatted c idx (s.view c idx)) (hpublished : Published c (s.view c idx))
    (hcompleted : s.completed = idx.i0 :: (s.clear idx.i0 c.b).completed) :
    Inv ((s.clear idx.i0 c.b).goto p .intrTest) := by
  set t := (s.clear idx.i0 c.b).goto p .intrTest with ht
  have hqp : q ≠ p := by
    rintro rfl
    rw [hp] at hq
    cases hq
  have hpc : ∀ r, t.pc r = if r = p then .intrTest else (s.pc r).wake (.buf c.b) := fun r =>
    goto_pc ..
  have hsame : ∀ r, Pc.Same ι (s.pc r) (t.pc r) := by
    intro r
    rw [hpc]
    split
    case isTrue hr =>
      rw [hr, hp]
      exact .intrBody_intrTest
    case isFalse => exact .wake _ _
  obtain ⟨o', ho', hwait⟩ := wake_waiting c idx ho (.buf c.b)
  have hcompleted' : s.completed = idx.i0 :: t.completed := hcompleted
  have hlists : t.queued = s.queued ∧ t.working = s.working ∧ t.performed = s.performed ∧
      t.pushing = s.pushing := ⟨rfl, rfl, rfl, rfl⟩
  have hperm : s.transit.Perm (idx.i0 :: t.transit) := by
    refine perm_iff_count.2 fun a => ?_
    simp only [count_transit, count_cons, hlists, hcompleted']
    omega
  obtain ⟨hnot, hnodup'⟩ := nodup_cons.1 (hperm.nodup_iff.1 h.nodup)
  have hplace : ∀ a ≠ idx.i0, t.place a = s.place a := by
    intro a ha
    refine place_congr Iff.rfl Iff.rfl ?_
    rw [hcompleted', mem_cons]
    simp [ha]
  have hplace0 : t.place idx.i0 = .away := (t.place_eq_away _).2 hnot
  have hold : s.place idx.i0 = .completed :=
    place_completed h.nodup (by rw [hcompleted']; exact mem_cons_self ..)
  have hreq : s.reqAt idx.i0 = c.req := hformatted.req
  have hlog : t.log = s.log ++ [(c.req, .cleared c.b)] := by
    rw [← hreq]
    rfl
  have hevents := events_append hlog
  have hdisk : t.disk c.b = false := update_self ..
  have hlocal : Local s c idx t := by
    refine ⟨rfl, fun _ _ => rfl, fun _ _ => rfl, fun _ _ => rfl, fun _ _ => rfl, fun b hb =>
      update_of_ne hb .., hplace, fun r hr => ?_⟩
    rw [hevents, if_neg hr, append_nil]
  have hpublished' : Published c (t.view c idx) := by
    have hplace' : (t.view c idx).place = .away := hplace0
    have hold' : (s.view c idx).place = .completed := hold
    have hev : s.events c.req = _ := hpublished.events
    refine ⟨?_, ?_, by simp [hplace']⟩
    · rw [hplace']
      change t.disk c.b = true ↔ _
      simp [hdisk]
    rw [hplace']
    change t.events c.req = _
    rw [hevents, hev, hold', if_pos rfl]
    rfl
  have hformatted' : Formatted c idx (t.view c idx) := ⟨hformatted.desc0, hformatted.desc1,
    hformatted.desc2, hformatted.op, hformatted.b, hformatted.req⟩
  have hq' : t.pc q = .rwOwn c idx o' := by rw [hpc, if_neg hqp, hq, ho']
  refine h.request hq hq' (fun r _ => hsame r) hlocal
    h.healthy (fun r => ?_) (h.calls.event (p := q) (by rw [hq]; rfl) (fun r => (hsame r).call) rfl
    rfl hlog) ⟨h.bounded.avail, h.bounded.seen, h.bounded.used, Nat.mod_lt _ (by decide)⟩ hnodup'
    h.reporting ⟨?_, ?_⟩ (fun _ _ _ _ _ => rfl) fun r _ hr => ?_
  · rw [(hsame r).holds]
    exact h.excl r
  · rcases hwait with rfl | rfl | rfl <;> exact ⟨hformatted', hpublished'⟩
  · rintro rfl
    simp at hwait
  -- another handler would hold the lock too
  have hrp : r = p := by
    refine h.excl.unique ?_ (by rw [hp]; rfl)
    rw [← (hsame r).holds, hr]
    rfl
  rw [hpc, if_pos hrp] at hr
  cases hr

/-- **`virtio_disk_intr`** never fails: it finds a performed request with its buffer, and gives it
back to its caller. -/
theorem intrBody [DecidableEq ι] (h : Inv s) (hp : s.pc p = .intrBody)
    (hs : s.exec p = some s') : Inv s' := by
  simp only [exec, hp, some.injEq] at hs
  subst hs
  have hne : s.usedIdx ≠ s.used.idx := by
    have hok := h.pcs p
    rwa [hp] at hok
  have hpop : s.completed = _ :: _ := entries_pop h.bounded.usedIdx h.bounded.used hne s.used.ring
  have hi : s.used.ring (s.usedIdx % NUM) ∈ s.completed := by
    rw [hpop]
    exact mem_cons_self ..
  obtain ⟨q, c, idx, o, hq, hhead, ho, hformatted, hpublished⟩ := h.owner
    (i := s.used.ring (s.usedIdx % NUM)) (by simp [transit, hi])
  have hplace : (s.view c idx).place = .completed := by
    refine place_completed h.nodup ?_
    rw [hhead]
    exact hi
  have hstatus : (s.info idx.i0).status = 0 := hpublished.status (.inr hplace)
  have hb : (s.info idx.i0).b = some c.b := hformatted.b
  rw [← hhead] at hpop
  simp only [intrBody, ← hhead, hstatus, hb, ne_eq, not_true_eq_false, if_false]
  exact h.cleared hp hq ho hformatted hpublished hpop

end Inv

end Xv6.Virtio

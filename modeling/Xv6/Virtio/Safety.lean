import Xv6.Virtio.Completion

/-!
# Request safety

The invariant holds in every state that any number of callers, interrupt handlers and the device can
reach, over runs of any length: the indices of the rings wrap.

## Main results

* `request_safety`: every request gets its own descriptors and its own answer
-/

namespace Xv6.Virtio

open Mutex Transition Option State List

variable {ι β : Type} [DecidableEq ι] [DecidableEq β] {s s' : State ι β} {p : ι} {c : Call β}
  {b : β}

/-! ## Calls begin and return -/

namespace Inv

omit [DecidableEq β] in
theorem enter (h : Inv s) (hp : s.pc p = .idle) (hb : s.bufLock c.b = some p)
    (hreq : c.req = s.called.length) :
    Inv ({ s with called := s.called ++ [c] }.goto p (.rwLock c)) := by
  have hlt : ∀ c' ∈ s.called, c'.req < s.called.length := fun c' hc' => h.calls.req_lt hc'
  have hcallp : (s.pc p).call = none := by rw [hp]; rfl
  refine ⟨h.healthy, h.excl.stay (by rw [hp]; rfl), ?_, ⟨fun q c' hq => ?_, fun q c' hq => ?_,
    fun c' hc' => ?_, fun c' hc' hnone => ?_, fun r hr => ?_⟩, ?_, h.nodup, h.reporting,
    fun i hi => ?_, fun q => ?_⟩
  · have hshare := h.share
    have hchain : (Pc.rwLock c).chain = (s.pc p).chain := by rw [hp]; rfl
    rwa [← funext (read_goto (f := Pc.chain) hchain)] at hshare
  · rw [goto_pc] at hq
    split at hq
    case isTrue hqp =>
      rw [hqp, ← some.inj hq]
      exact hb
    case isFalse => exact h.calls.held q c' hq
  · rw [goto_pc] at hq
    split at hq
    · rw [← some.inj hq]
      exact mem_append_right _ (mem_singleton_self _)
    · exact mem_append_left _ (h.calls.mem q c' hq)
  · change (s.called ++ [c])[c'.req]? = some c'
    rcases mem_append.1 hc' with hc' | hc'
    · rw [getElem?_append_left (hlt c' hc')]
      exact h.calls.numbered c' hc'
    · rw [mem_singleton.1 hc', hreq]
      simp
  · rcases mem_append.1 hc' with hc' | hc'
    · refine h.calls.finished c' hc' fun q hq => ?_
      have hqp : q ≠ p := by
        rintro rfl
        rw [hcallp] at hq
        cases hq
      refine hnone q ?_
      rw [goto_pc, if_neg hqp]
      exact hq
    rw [mem_singleton.1 hc'] at hnone
    refine absurd ?_ (hnone p)
    rw [goto_pc, if_pos rfl]
    rfl
  · refine h.calls.fresh r (le_trans ?_ hr)
    simp [goto]
  · exact ⟨h.bounded.avail, h.bounded.seen, h.bounded.used, h.bounded.usedIdx⟩
  · obtain ⟨q, hq⟩ := h.heads i hi
    have hqp : q ≠ p := by
      rintro rfl
      rw [hp] at hq
      cases hq
    refine ⟨q, ?_⟩
    rw [goto_pc, if_neg hqp]
    exact hq
  rw [goto_pc]
  split
  · exact h.calls.fresh c.req hreq.ge
  · exact (h.pcs q).frame (fun _ _ => rfl) (fun _ _ _ _ => rfl) (fun _ _ _ => rfl) fun _ => id

omit [DecidableEq β] in
theorem leave (h : Inv s) (hp : s.pc p = .rwUnlock c) :
    Inv ((s.record c.req .returned).release p .idle) := by
  have hcallp : (s.pc p).call = some c := by rw [hp]; rfl
  have hok := h.pcs p
  rw [hp] at hok
  have hevents : ∀ r, ((s.record c.req .returned).release p .idle).events r =
      s.events r ++ if r = c.req then [.returned] else [] := events_append rfl
  have hpc : ∀ q, ((s.record c.req .returned).release p .idle).pc q =
      if q = p then .idle else s.pc q := fun q => goto_pc ..
  have hother : ∀ q, q ≠ p → ∀ c', (s.pc q).call = some c' → c'.req ≠ c.req :=
    fun q hq c' hc' => h.req_ne hcallp hc' hq
  refine ⟨h.healthy, h.excl.release ((h.excl p).2 (by rw [hp]; rfl)) rfl, ?_, ⟨fun q c' hq => ?_,
    fun q c' hq => ?_, h.calls.numbered, fun c' hc' hnone => ?_, fun r hr => ?_⟩, ?_, h.nodup,
    h.reporting, fun i hi => ?_, fun q => ?_⟩
  · have hshare := h.share
    have hchain : (Pc.idle : Pc β).chain = (s.pc p).chain := by rw [hp]; rfl
    rwa [← funext (read_goto (f := Pc.chain) hchain)] at hshare
  · rw [hpc] at hq
    split at hq
    · cases hq
    · exact h.calls.held q c' hq
  · rw [hpc] at hq
    split at hq
    · cases hq
    · exact h.calls.mem q c' hq
  · rw [hevents]
    by_cases hcc : c' = c
    · subst hcc
      rw [if_pos rfl, hok]
      rfl
    have hne : c'.req ≠ c.req := fun hreq =>
      hcc (h.calls.eq_of_req (h.calls.mem p c hcallp) hc' hreq)
    rw [if_neg hne, append_nil]
    refine h.calls.finished c' hc' fun q hq => ?_
    by_cases hqp : q = p
    · rw [hqp, hcallp] at hq
      exact hcc (some.inj hq).symm
    · refine hnone q ?_
      rw [hpc, if_neg hqp]
      exact hq
  · have hlt := h.calls.req_lt (h.calls.mem p c hcallp)
    have hr' : s.called.length ≤ r := hr
    rw [hevents, if_neg (by omega), append_nil]
    exact h.calls.fresh r hr'
  · exact ⟨h.bounded.avail, h.bounded.seen, h.bounded.used, h.bounded.usedIdx⟩
  · obtain ⟨q, hq⟩ := h.heads i hi
    have hqp : q ≠ p := by
      rintro rfl
      rw [hp] at hq
      cases hq
    refine ⟨q, ?_⟩
    rw [hpc, if_neg hqp]
    exact hq
  rw [hpc]
  split
  · trivial
  case isFalse hqp =>
    have hsame : ∀ c', (s.pc q).call = some c' →
        ((s.record c.req .returned).release p .idle).events c'.req = s.events c'.req := by
      intro c' hc'
      rw [hevents, if_neg (hother q hqp c' hc'), append_nil]
    refine (h.pcs q).frame hsame (fun c' idx' o' hq => ?_) (fun _ _ _ => rfl) fun _ => id
    exact view_congr (fun _ _ => rfl) rfl rfl rfl rfl rfl (hsame c' (by rw [hq]; rfl))

omit [DecidableEq ι] in
/-- The lock of a buffer is taken or given up. -/
theorem bufLock {lock : Option ι} (h : Inv s)
    (hb : ∀ q c, (s.pc q).call = some c → c.b ≠ b) :
    Inv { s with bufLock := Function.update s.bufLock b lock } :=
  { h with
    calls := { h.calls with
      held := fun q c hq => (Function.update_of_ne (hb q c hq) ..).trans (h.calls.held q c hq) }
    bounded := ⟨h.bounded.avail, h.bounded.seen, h.bounded.used, h.bounded.usedIdx⟩
    pcs := fun q => (h.pcs q).frame (fun _ _ => rfl) (fun _ _ _ _ => rfl) (fun _ _ _ => rfl)
      fun _ => id }

/-! ## Every step -/

theorem exec (h : Inv s) (hs : s.exec p = some s') : Inv s' := by
  have hok := h.pcs p
  cases hp : s.pc p with
  | idle | rwSleep c => simp [State.exec, hp] at hs
  | rwLock c | rwWoken c =>
    rw [hp] at hok
    simp only [State.exec, hp] at hs
    exact h.acquire hs rfl (by rw [hp]; rfl) (by rw [hp]; rfl) hok
  | rwAlloc c => exact h.alloc hp hs
  | rwOwn c idx o =>
    rw [hp] at hok
    cases o with
    | format =>
      simp only [State.exec, hp, Option.some.injEq] at hs
      exact hs ▸ h.format hp
    | avail =>
      simp only [State.exec, hp, Option.some.injEq] at hs
      exact hs ▸ h.putAvail hp
    | bump =>
      simp only [State.exec, hp, Option.some.injEq] at hs
      exact hs ▸ h.bumpAvail hp
    | test =>
      simp only [State.exec, hp] at hs
      split at hs
      · rw [← Option.some.inj hs]
        exact h.release (by rw [hp]; rfl) rfl (by rw [hp]; rfl) (by rw [hp]; rfl) ⟨hok.1, by simp⟩
      case isFalse hdisk =>
        rw [← Option.some.inj hs]
        -- the request is back, so all of it has happened
        have haway : (s.view c idx).place = .away := by
          by_contra hne
          exact hdisk (hok.1.2.disk.2 hne)
        refine h.stay (by rw [hp]; rfl) (by rw [hp]; rfl) (by rw [hp]; rfl)
          ⟨⟨hok.1.1, haway, ?_⟩, by simp⟩
        rw [hok.1.2.events, haway]
        rfl
    | sleep => simp [State.exec, hp] at hs
    | woken =>
      simp only [State.exec, hp] at hs
      exact h.acquire hs rfl (by rw [hp]; rfl) (by rw [hp]; rfl) ⟨hok.1, by simp⟩
    | reclaim => exact h.reclaim hp hs
  | rwUnlock c =>
    simp only [State.exec, hp, Option.some.injEq] at hs
    exact hs ▸ h.leave hp
  | intrLock =>
    simp only [State.exec, hp] at hs
    exact h.acquire hs rfl (by rw [hp]; rfl) (by rw [hp]; rfl) trivial
  | intrTest =>
    simp only [State.exec, hp] at hs
    split at hs
    case isTrue hne =>
      rw [← Option.some.inj hs]
      exact h.stay (by rw [hp]; rfl) (by rw [hp]; rfl) (by rw [hp]; rfl) hne
    case isFalse =>
      rw [← Option.some.inj hs]
      exact h.stay (by rw [hp]; rfl) (by rw [hp]; rfl) (by rw [hp]; rfl) trivial
  | intrBody => exact h.intrBody hp hs
  | intrUnlock =>
    simp only [State.exec, hp, Option.some.injEq] at hs
    rw [← hs]
    exact h.release (by rw [hp]; rfl) rfl (by rw [hp]; rfl) (by rw [hp]; rfl) trivial

theorem step {a : Act ι β} (h : Inv s) (hs : step s a = some s') : Inv s' := by
  unfold Virtio.step at hs
  rw [if_neg (not_not.2 h.healthy)] at hs
  cases a with
  | lockBuf p b =>
    dsimp only at hs
    split at hs
    case isFalse => cases hs
    case isTrue hcond =>
      rw [← some.inj hs]
      refine h.bufLock fun q c hq hb => ?_
      have hheld := h.calls.held q c hq
      rw [hb, hcond.2] at hheld
      cases hheld
  | unlockBuf p b =>
    dsimp only at hs
    split at hs
    case isFalse => cases hs
    case isTrue hcond =>
      rw [← some.inj hs]
      refine h.bufLock fun q c hq hb => ?_
      have hheld := h.calls.held q c hq
      rw [hb, hcond.2] at hheld
      rw [← some.inj hheld, hcond.1] at hq
      cases hq
  | call p b write blockno =>
    dsimp only at hs
    split at hs
    case isFalse => cases hs
    case isTrue hcond => exact some.inj hs ▸ h.enter hcond.1 hcond.2 rfl
  | intr p =>
    dsimp only at hs
    split at hs
    case isFalse => cases hs
    case isTrue hcond =>
      rw [← some.inj hs]
      exact h.stay (by rw [hcond]; rfl) (by rw [hcond]; rfl) (by rw [hcond]; rfl) trivial
  | step p => exact h.exec hs
  | kkill p => exact some.inj hs ▸ h.kkill p
  | devFetch => exact h.devFetch hs
  | devPerform i => exact h.devPerform hs
  | devPush i => exact h.devPush hs
  | devBump => exact h.devBump hs

end Inv

omit [DecidableEq ι] [DecidableEq β] in
theorem bounded_boot : (boot : State ι β).Bounded := by
  have hpos : 0 < M16 := by decide
  exact ⟨hpos, hpos, hpos, hpos⟩

omit [DecidableEq ι] [DecidableEq β] in
theorem transit_boot : (boot : State ι β).transit = [] := by
  have hqueued : (boot : State ι β).queued = [] :=
    (Window.entries_eq_nil bounded_boot.seen bounded_boot.avail _).2 rfl
  rw [transit, hqueued, bounded_boot.completed_eq_nil.2 rfl]
  rfl

omit [DecidableEq ι] [DecidableEq β] in
theorem inv_boot : Inv (boot : State ι β) where
  healthy := rfl
  excl p := by simp [boot, Pc.holds]
  share := by
    refine ⟨fun _ => nodup_nil, fun p i hi => ?_, fun p q i hi => ?_, fun i hi => ?_⟩
    · cases hi
    · cases hi
    · simp [boot, hi, Pc.chain]
  calls := by
    refine ⟨fun p c hc => ?_, fun p c hc => ?_, fun c hc => ?_, fun c hc => ?_, fun r _ => rfl⟩
    · cases hc
    · cases hc
    · cases hc
    · cases hc
  bounded := bounded_boot
  nodup := by
    rw [transit_boot]
    exact nodup_nil
  reporting i hi := by cases hi
  heads i hi := by
    rw [transit_boot] at hi
    cases hi
  pcs p := trivial

theorem inv_of_reach (h : Reach step (fun _ _ => True) boot s) : Inv s :=
  h.invariant inv_boot fun _ _ _ hinv _ hs => hinv.step hs

/-! ## What it promises -/

def State.walk (s : State ι β) : ℕ → ℕ → List ℕ
  | 0, _ => []
  | n + 1, i => i :: if (s.desc i).hasNext then s.walk n (s.desc i).next else []

omit [DecidableEq ι] [DecidableEq β] in
theorem Formatted.walk {idx : Idx} (h : Formatted c idx (s.view c idx)) :
    s.walk NUM idx.i0 = idx.list := by
  obtain ⟨hnext0, hnext1, hnext2, -⟩ := h.flags
  have hd0 : (s.desc idx.i0).next = idx.i1 := congrArg Desc.next h.desc0
  have hd1 : (s.desc idx.i1).next = idx.i2 := congrArg Desc.next h.desc1
  simp only [State.view] at hnext0 hnext1 hnext2
  simp [NUM, State.walk, hnext0, hd0, hnext1, hd1, hnext2, Idx.list]

omit [DecidableEq ι] [DecidableEq β] in
/-- The device walks the descriptors of the caller. -/
theorem Inv.walk (h : Inv s) {i : ℕ} (hi : i ∈ s.transit) :
    ∃ p, (s.pc p).chain.head? = some i ∧ s.walk NUM i = (s.pc p).chain := by
  obtain ⟨p, c, idx, o, hp, rfl, -, hformatted, -⟩ := h.owner hi
  refine ⟨p, ?_, ?_⟩
  · rw [hp]
    rfl
  · rw [hformatted.walk, hp]
    rfl

/-- The places of the avail ring that hold entries the device has not consumed. -/
def State.unconsumed (s : State ι β) : List ℕ :=
  (List.range (Window.dist M16 s.seen s.avail.idx)).map fun k => (s.seen + k) % M16 % NUM

omit [DecidableEq ι] [DecidableEq β] in
/-- The three descriptors of every request, and none of the other threads. -/
theorem sum_chain [Fintype ι] (s : State ι β) : ∑ p, (s.pc p).chain.length =
    3 * (Finset.univ.filter fun p => (s.pc p).chain ≠ []).card := by
  rw [Finset.card_filter, Finset.mul_sum]
  refine Finset.sum_congr rfl fun p _ => ?_
  cases s.pc p <;> simp [Pc.chain, Idx.list]

omit [DecidableEq ι] [DecidableEq β] in
/-- What has happened to a request is always a beginning of what has to happen to it. -/
theorem Inv.events_life (h : Inv s) (hc : c ∈ s.called) : s.events c.req <+: c.life := by
  by_cases hnone : ∀ p, (s.pc p).call ≠ some c
  · rw [h.calls.finished c hc hnone]
  push Not at hnone
  obtain ⟨p, hp⟩ := hnone
  have hok := h.pcs p
  have hnil : s.events c.req = [] → s.events c.req <+: c.life := fun hev => hev ▸ nil_prefix
  have htake : ∀ k, s.events c.req = c.life.take k → s.events c.req <+: c.life := fun k hev =>
    hev ▸ take_prefix k _
  cases hpc : s.pc p with
  | idle | intrLock | intrTest | intrBody | intrUnlock => simp [hpc, Pc.call] at hp
  | rwLock c' | rwAlloc c' | rwSleep c' | rwWoken c' =>
    rw [hpc] at hp hok
    obtain rfl := some.inj hp
    exact hnil hok
  | rwUnlock c' =>
    rw [hpc] at hp hok
    obtain rfl := some.inj hp
    exact htake 3 hok
  | rwOwn c' idx o =>
    rw [hpc] at hp hok
    obtain rfl := some.inj hp
    cases o with
    | format => exact hnil hok.1.events
    | avail | bump => exact hnil hok.1.2.2.events
    | test | sleep | woken => exact htake _ hok.1.2.events
    | reclaim => exact htake 3 hok.1.2.2

/-- **Request safety of the disk driver.** -/
theorem request_safety [Fintype ι] (h : Reach step (fun _ _ => True) boot s) :
    (∀ p q, p ≠ q → (s.pc p).chain.Disjoint (s.pc q).chain) ∧
    (∀ i ∈ s.transit, ∀ j ∈ s.transit, i ≠ j → (s.walk NUM i).Disjoint (s.walk NUM j)) ∧
    ((Finset.range NUM).filter fun i => s.free i = true).card +
      3 * (Finset.univ.filter fun p => (s.pc p).chain ≠ []).card = NUM ∧
    s.fault = none ∧
    (∀ c ∈ s.called, s.called[c.req]? = some c ∧ s.events c.req <+: c.life ∧
      ((∀ p, (s.pc p).call ≠ some c) → s.events c.req = c.life)) ∧
    ∀ p c idx, s.pc p = .rwOwn c idx .avail → s.avail.idx % NUM ∉ s.unconsumed := by
  have hinv := inv_of_reach h
  have hdisjoint : ∀ p q, p ≠ q → (s.pc p).chain.Disjoint (s.pc q).chain := fun p q hne i hp hq =>
    hne (hinv.share.disjoint p q i hp hq)
  refine ⟨hdisjoint, fun i hi j hj hne => ?_, ?_, hinv.healthy, fun c hc =>
    ⟨hinv.calls.numbered c hc, hinv.events_life hc, hinv.calls.finished c hc⟩,
    fun p c idx hp hmem => ?_⟩
  · obtain ⟨p, hpi, hp⟩ := hinv.walk hi
    obtain ⟨q, hqj, hq⟩ := hinv.walk hj
    have hpq : p ≠ q := by
      rintro rfl
      exact hne (Option.some.inj (hpi.symm.trans hqj))
    rw [hp, hq]
    exact hdisjoint p q hpq
  · rw [← sum_chain]
    exact hinv.share.card_free
  have hok := hinv.pcs p
  rw [hp] at hok
  have haway := (s.place_eq_away _).1 hok.1.2.2.place
  have hroom := hinv.avail_room (hinv.head_lt hp) haway
  obtain ⟨k, hk, hkeq⟩ := List.mem_map.1 hmem
  exact Window.place_ne Inv.num_dvd hinv.bounded.seen hinv.bounded.avail hroom
    (List.mem_range.1 hk) hkeq

/-- Three callers. The first two have all the descriptors they need and the third one sleeps; the
device completes the second request first, its caller returns, and the third caller goes on. -/
theorem request_safety_three : ∃ s : State (Fin 4) (Fin 3),
    Reach step (fun _ _ => True) boot s ∧
    s.events 1 = (⟨1, false, 7, 1⟩ : Call (Fin 3)).life ∧ s.transit = [0] ∧
    s.pc 2 = .rwOwn ⟨2, true, 9, 2⟩ ⟨3, 4, 5⟩ .avail ∧ s.avail.idx % NUM ∉ s.unconsumed ∧
    s.fault = none := by
  obtain ⟨s, hrun, hf⟩ := exists_reach (step : State (Fin 4) (Fin 3) → _) (fun _ _ => true) boot
    (List.flatten [[.lockBuf 0 0, .lockBuf 1 1, .lockBuf 2 2, .call 0 0 true 5, .call 1 1 false 7,
      .call 2 2 true 9], List.replicate 6 (.step 0), List.replicate 6 (.step 1),
      List.replicate 2 (.step 2), [.devFetch, .devFetch, .devPerform 3, .devPush 3, .devBump,
      .devPerform 0, .intr 3], List.replicate 5 (.step 3), List.replicate 4 (.step 1),
      List.replicate 3 (.step 2)])
    (fun s => (s.events 1, s.transit, s.pc 2)) ((⟨1, false, 7, 1⟩ : Call (Fin 3)).life, [0],
      .rwOwn ⟨2, true, 9, 2⟩ ⟨3, 4, 5⟩ .avail) (by decide +kernel)
  simp only [Prod.mk.injEq] at hf
  have hreach : Reach step (fun _ _ => True) boot s := hrun.mono fun _ _ _ => trivial
  obtain ⟨-, -, -, hfault, -, havail⟩ := request_safety hreach
  exact ⟨s, hreach, hf.1, hf.2.1, hf.2.2, havail 2 _ _ hf.2.2, hfault⟩

end Xv6.Virtio

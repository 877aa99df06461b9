import Xv6.Semaphore.Simulation

/-!
# Closing a slot

`sem_free` wakes the sleepers of the slot and then clears `active`, under `sem_table_lock` only.

## Main results

* `sleepers_eq_empty_of_closed`: when closing a semaphore strands nobody
-/

namespace Xv6.Semaphore

open Thread Machine Transition Function Phase View

namespace Phase

/-- `sys_sem_wait` passed its check and has not committed to sleep yet. -/
def window : Phase → Bool
  | waitCall _ | waitIn _ | blocking _ => true
  | _ => false

/-- A `sys_sem_wait` that may still go to sleep on the slot, or sleeps on it. -/
def engaged (x : Phase) : Bool := x.window || x.sleeps

/-- A `sem_free` whose scan has passed entry `q`, and which has not cleared `active` yet. -/
def passed (q : Slot) : Phase → Bool
  | closeWake _ i => q.val < i
  | closeActive _ => true
  | _ => false

end Phase

/-- The transitions in which the scan of `sem_free` misses no waiter: it does not pass a process on
its way to sleep, and no process sets out on that way behind it. -/
def Prompt (v : View) : SlotEvent → Prop
  | .closePassed q => (v.phase q).window = false
  | .waitChecked p => ∀ c, (v.phase c).passed p = false
  | _ => True

instance (v : View) : DecidablePred (Prompt v)
  | .closePassed _ => inferInstanceAs (Decidable (_ = _))
  | .waitChecked _ => inferInstanceAs (Decidable (∀ _, _))
  | .silent | .waitLocked _ | .waitCounted _ _ | .waitReturned _ | .signalChecked _
  | .signalLocked _ | .signalCounted _ | .woke _ _ | .signalReturned _ | .closeWoke _ | .killed _
  | .deactivated | .freed | .taken | .opened _ => inferInstanceAs (Decidable True)

def noteClosed (closed : Bool) : SlotEvent → Bool
  | .freed => true
  | .taken => false
  | _ => closed

/-- Nobody is on the way to a slot that was scanned or closed. -/
structure Closing (v : View) (closed : Bool) : Prop where
  locking : Locking v
  scanned : ∀ c q, (v.phase c).passed q = true → (v.phase q).engaged = false
  inactive : v.active = false → ∀ q, (v.phase q).engaged = false
  closed : closed = true → v.active = false

variable {v v' : View} {closed : Bool} {p : Slot} {ph : Phase}

variable (hc : Closing v closed)

include hc

theorem Closing.shrink (hl : Locking v') (hact : v'.active = v.active)
    (hphase : v'.phase = update v.phase p ph)
    (heng : ph.engaged = true → (v.phase p).engaged = true) (hpass : ∀ q, ph.passed q = true →
      (v.phase p).passed q = true ∨ (v.phase q).engaged = false) : Closing v' closed := by
  have hmono : ∀ q, (v.phase q).engaged = false → (v'.phase q).engaged = false := by
    intro q hq
    rw [hphase]
    by_cases hqp : q = p
    · subst hqp
      rw [update_self, ← Bool.not_eq_true]
      exact fun h => by simp [heng h] at hq
    · rwa [update_of_ne hqp]
  refine ⟨hl, fun c q hcq => hmono q ?_, fun h q => hmono q (hc.inactive (hact ▸ h) q),
    fun h => hact.trans (hc.closed h)⟩
  rw [hphase] at hcq
  by_cases hcp : c = p
  · subst hcp
    rw [update_self] at hcq
    rcases hpass q hcq with h | h
    · exact hc.scanned c q h
    · exact h
  · rw [update_of_ne hcp] at hcq
    exact hc.scanned c q hcq

theorem Closing.waitCheck (hact : v.active = true)
    (hok : ∀ c, (v.phase c).passed p = false) (hl : Locking (v.to p (.waitCall v.inc))) :
    Closing (v.to p (.waitCall v.inc)) closed := by
  refine ⟨hl, fun c q hcq => ?_, fun h => by simp [View.to, hact] at h, hc.closed⟩
  by_cases hcp : c = p
  · subst hcp
    simp [View.to, Phase.passed] at hcq
  simp only [View.to, update_of_ne hcp] at hcq
  have hqp : q ≠ p := by
    rintro rfl
    simp [hok c] at hcq
  simpa [View.to, hqp] using hc.scanned c q hcq

theorem Closing.wake {q : Slot} {k : ℕ} (hq : v.phase q = .asleep k) :
    Closing (v.to q (.woken k)) closed :=
  hc.shrink (hc.locking.stay (by rw [hq]; rfl) (by rw [hq]; rfl) rfl) rfl rfl
    (by simp [engaged, window, sleeps]) (by simp [passed])

theorem Closing.scan {k i : ℕ} (hp : v.phase p = .closeWake k i)
    (hi : i < NPROC) (hfree : (v.phase ⟨i, hi⟩).engaged = false)
    (hl : Locking (v.to p (.closeWake k (i + 1)))) :
    Closing (v.to p (.closeWake k (i + 1))) closed := by
  refine hc.shrink hl rfl rfl (by simp [engaged, window, sleeps]) fun q hq => ?_
  simp only [passed, decide_eq_true_eq] at hq
  rcases Nat.lt_succ_iff_lt_or_eq.mp hq with hlt | heq
  · left
    simp [hp, passed, hlt]
  · right
    obtain rfl : q = ⟨i, hi⟩ := Fin.ext heq
    exact hfree

omit hc

attribute [local simp] Phase.engaged Phase.window Phase.sleeps

include hc

/-- **Every transition that meets `Prompt` keeps the scanned part of the table free.** -/
theorem Closing.step {e : SlotEvent} (hs : SlotStep v e v')
    (hok : Prompt v e) : Closing v' (noteClosed closed e) := by
  have hl := hc.locking.step hs
  cases hs with
  | stutter => exact hc
  | waitAcquire hp _ | waitBlock hp _ | waitGrant hp _ | commit hp | unlock hp _ | fall hp
  | relock hp _ | record hp | waitReturn hp _ | signalCheck hp _ | signalAcquire hp _
  | signalWakes hp _ | signalFree hp _ | signalSkip hp _ _ | signalEnd hp _ | signalReturn hp _
  | closeCheck hp _ | closeAcquire hp _ | tableAcquire hp _ | tableRelease hp _ | allocSet hp
  | ganttCheck hp _ | ganttDone hp =>
    exact hc.shrink hl rfl rfl (by simp [hp]) (by simp [Phase.passed])
  | waitCheck _ hact => exact hc.waitCheck hact hok hl
  | kill hq => exact hc.wake hq
  | @signalHit p q k k' hp hne hq =>
    exact (hc.wake hq).shrink hl rfl rfl (by simp) (by simp [Phase.passed])
  | @closeSkip p k i hp hi hskip =>
    refine hc.scan hp hi ?_ hl
    rw [Phase.engaged, hskip, Bool.or_false]
    exact hok
  | @closeHit p q k k' hp hne hq =>
    refine (hc.wake hq).scan (by simpa [View.to, hne.symm] using hp) q.isLt ?_ hl
    simp [View.to]
  | @closeEnd p k i hp hi =>
    refine hc.shrink hl rfl rfl (by simp) fun q _ => ?_
    left
    simp [hp, Phase.passed, lt_of_lt_of_le q.isLt hi]
  | @closeOff p k hp =>
    have hfree : ∀ q, (v.phase q).engaged = false :=
      fun q => hc.scanned p q (by simp [hp, Phase.passed])
    have hfree' : ∀ q, ((v.to p (.closeOut k)).phase q).engaged = false := by
      intro q
      by_cases hqp : q = p
      · subst hqp
        simp [View.to]
      · simpa [View.to, hqp] using hfree q
    exact ⟨hl, fun _ q _ => hfree' q, fun _ => hfree', fun _ => rfl⟩
  | @closeReturn p k hp _ =>
    have hact : v.active = false := hc.locking.active p false (by rw [hp]; rfl)
    have hnow : Closing v true := ⟨hc.locking, hc.scanned, hc.inactive, fun _ => hact⟩
    exact hnow.shrink hl rfl rfl (by simp) (by simp [Phase.passed])
  | @allocTake p x hp hact =>
    have hfree := hc.inactive hact
    refine ⟨hl, fun c q _ => ?_, (by rintro ⟨⟩), (by rintro ⟨⟩)⟩
    by_cases hqp : q = p
    · subst hqp
      simp [View.to]
    · simpa [View.to, hqp] using hfree q

omit hc

/-! ## Runs of the machine -/

/-- The machine with a note whether slot `id` was closed and not taken since. -/
def closedStep (id : SemId) : State × Bool → Act Label → Option (State × Bool) :=
  withHistory step fun closed m a => noteClosed closed (event id m a)

theorem closing_boot (id : SemId) : Closing (view id boot) false where
  locking := locking_boot id
  scanned _ _ h := nomatch h
  inactive _ _ := rfl
  closed h := nomatch h

/-- **Where the scan of `sem_free` misses nobody, closing strands nobody.** -/
theorem sleepers_eq_empty_of_closed {id : SemId} {m : State}
    (hrun : Reach (closedStep id) (fun s a => Prompt (view id s.1) (event id s.1 a))
      (boot, false) (m, true)) : m.sleepers id = ∅ := by
  obtain ⟨hwf, hc⟩ := hrun.invariant (I := fun s => Wf code s.1 ∧ Closing (view id s.1) s.2)
    ⟨wf_boot, closing_boot id⟩ (by
      rintro s a s' ⟨hwf, hc⟩ hok hs
      obtain ⟨hstep, hhist⟩ := withHistory_eq_some.mp hs
      rw [hhist]
      exact ⟨hwf.stepCase (.of_step hstep), hc.step (slotStep_of_step hwf hstep) hok⟩)
  have hfree := hc.inactive (hc.closed rfl)
  rw [← view_sleepers hwf, Finset.eq_empty_iff_forall_notMem]
  intro q hq
  have heng := hfree q
  rw [Phase.engaged, View.mem_sleepers.mp hq, Bool.or_true] at heng
  cases heng

/-- Two processes, of which the first opens the first slot without a unit. -/
def openedEmpty : List (Act Label) :=
  List.flatten [spawn 0 1, spawn 1 2, calls 0 (.sysSemOpen 0 []) 6]

/-- The second process sleeps on the slot, the first one closes it, and the second one runs on. -/
theorem sleepers_eq_empty_of_closed_sleeper : ∃ m,
    Reach (closedStep 0) (fun s a => Prompt (view 0 s.1) (event 0 s.1 a)) (boot, false) (m, true) ∧
    (m.proc 1).state = .runnable ∧ m.sleepers 0 = ∅ := by
  obtain ⟨⟨m, c⟩, hrun, hf⟩ := exists_reach (closedStep 0)
    (fun s a => decide (Prompt (view 0 s.1) (event 0 s.1 a))) (boot, false)
    (List.flatten [openedEmpty, calls 1 (.sysSemWait 0) 8, calls 0 (.sysSemClose 0) 71])
    (fun s => (s.2, (s.1.proc 1).state)) (true, .runnable) (by decide +kernel)
  simp only [Prod.mk.injEq] at hf
  obtain ⟨rfl, hst⟩ := hf
  have hrun' := hrun.mono fun _ _ h => of_decide_eq_true h
  exact ⟨m, hrun', hst, sleepers_eq_empty_of_closed hrun'⟩

/-- **A waiter behind the scan is stranded.** The second process passes the check of `sys_sem_wait`,
the first one closes the slot, and then the second one goes to sleep on it. -/
theorem close_strands_waiter : ∃ m,
    Reach (closedStep 0) (fun _ _ => True) (boot, false) (m, true) ∧
    m.SleepingOn 0 1 ∧ (m.shared.semTable 0).active = false := by
  obtain ⟨⟨m, c⟩, hrun, hf⟩ := exists_reach (closedStep 0) (fun _ _ => true) (boot, false)
    (List.flatten [openedEmpty, calls 1 (.sysSemWait 0) 1, calls 0 (.sysSemClose 0) 71, steps 1 7])
    (fun s => (s.2, decide (s.1.SleepingOn 0 1), (s.1.shared.semTable 0).active))
    (true, true, false) (by decide +kernel)
  simp only [Prod.mk.injEq, decide_eq_true_eq] at hf
  obtain ⟨rfl, hsleep, hact⟩ := hf
  exact ⟨m, hrun.mono fun _ _ _ => trivial, hsleep, hact⟩

end Xv6.Semaphore

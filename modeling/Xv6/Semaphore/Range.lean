import Xv6.Semaphore.CountingLaw

/-!
# The range of the count

`sys_sem_open` stores any `int` as the count, and `sem_signal` increments it without a check.

## Main results

* `count_meaningful`: what the count is, and that a wait with a unit left does not block
-/

namespace Xv6.Semaphore

open Thread Machine Tally Transition

variable {value : ℤ} {v : View} {h : Ledger} {p : Slot}

def neverFreed (id : SemId) (m : State) : Act Label → Bool
  | .step p =>
    match m.ctl p with
    | .run (.semFree o) | .run (.semFreeWake o) | .wakeupAt _ _ _ (.semFreeActive o)
    | .run (.semFreeActive o) | .run (.semFreeRelease o) => o.id ≠ id
    | _ => true
  | _ => true

theorem Counting.units_of_waitIn {k : ℕ} (hc : Counting value v h) (hp : v.phase p = .waitIn k) :
    value + h.signals - h.granted = max 0 v.count ∧ int32 (v.count - 1) = v.count - 1 := by
  have hlocks : (v.phase p).locks = true := by simp [hp, Phase.locks]
  have hw := hc.wakes_eq_zero hlocks (by simp [hp, Phase.wakes])
  have hs := hc.locking.tally_eq_zero Phase.locks_of_signalled hlocks (by simp [hp, Phase.signalled])
  obtain ⟨hcount, hgranted, hblocked⟩ := hc.sums
  refine ⟨?_, hc.sums.int32_pred hc.le_max⟩
  rw [hw] at hblocked
  rw [hs] at hcount
  omega

/-- **The count is meaningful from 0 to `INT_MAX`.** Take a slot opened with `value ≥ 0` and any
interleaving of calls without `kkill` and `sem_free` in which no `sem_signal` finds the count at
`INT_MAX`. -/
theorem count_meaningful {id : SemId} {m₀ m : State} (hv : 0 ≤ value) (hint : value ≤ INT_MAX)
    (ho : Opened id value m₀)
    (hrun : Reach (ledgerStep id) (fun s a => (keptOpen id s.1 a && killsNobody s.1 a) = true)
      (m₀, .empty) (m, h)) :
    (m.lock (.sem id) = none →
      (m.shared.semTable id).count = value + h.signals - h.waits ∧
      (h.granted : ℤ) ≤ max 0 (value + h.signals)) ∧
    ∀ p o, m.ctl p = .run (.semWaitCount o) → o.id = id → 0 < value + h.signals - h.granted →
      0 ≤ int32 ((m.shared.semTable id).count - 1) := by
  obtain ⟨hwf, hc⟩ := counting_of_reach (fun _ _ hok => uncut_of_keptOpen
    (Bool.and_eq_true_iff.mp hok).1 (sparesWaiters_of_killsNobody (Bool.and_eq_true_iff.mp hok).2))
    hv hint ho hrun
  refine ⟨fun hfree => ?_, fun p o hctl hid hunits => ?_⟩
  · obtain ⟨hcount, hsleep, hgranted⟩ := hc.of_free hfree
    simp only [view_count] at hcount hsleep
    refine ⟨hcount, ?_⟩
    omega
  have hp : (view id m).phase p = .waitIn o.inc := by
    rw [view_phase, hctl, ← hid]
    simp [labelPhase]
  obtain ⟨hmax, hpred⟩ := hc.units_of_waitIn hp
  simp only [view_count] at hmax hpred
  omega

/-- The second process is about to take the unit of a slot that was opened with one. -/
theorem count_meaningful_wait : ∃ m h,
    Reach (ledgerStep 0) (fun s a => (keptOpen 0 s.1 a && killsNobody s.1 a) = true)
      (openedOne, .empty) (m, h) ∧
    m.ctl 1 = .run (.semWaitCount ⟨0, 1⟩) ∧ 0 ≤ int32 ((m.shared.semTable 0).count - 1) := by
  obtain ⟨⟨m, h⟩, hrun, hf⟩ := exists_reach (ledgerStep 0)
    (fun s a => keptOpen 0 s.1 a && killsNobody s.1 a) (openedOne, .empty)
    (List.flatten [steps 0 3, calls 1 (.sysSemWait 0) 2])
    (fun s => (labelOf (s.1.ctl 1), s.2.signals, s.2.granted))
    (some (.semWaitCount ⟨0, 1⟩), 0, 0) (by decide +kernel)
  simp only [Prod.mk.injEq] at hf
  have hctl : m.ctl 1 = .run (.semWaitCount ⟨0, 1⟩) := eq_run_of_labelOf hf.1
  refine ⟨m, h, hrun, hctl, (count_meaningful (by decide) (by decide) opened_openedOne hrun).2 1 _
    hctl rfl ?_⟩
  rw [hf.2.1, hf.2.2]
  decide

/-- The first slot has just been opened with `x`, and there are two processes. -/
def openedWith (x : ℤ) : State :=
  result step boot (List.flatten [spawn 0 1, spawn 1 2, calls 0 (.sysSemOpen x []) 2] ++ [.step 0])

theorem opened_openedWith_neg : Opened 0 (-1) (openedWith (-1)) where
  alloc := ⟨_, _, reach_result (by decide +kernel), by decide +kernel,
    step_result (by decide +kernel)⟩
  idle := by decide +kernel

theorem opened_openedWith_max : Opened 0 INT_MAX (openedWith INT_MAX) where
  alloc := ⟨_, _, reach_result (by decide +kernel), by decide +kernel,
    step_result (by decide +kernel)⟩
  idle := by decide +kernel

/-- **The count loses its meaning at both ends.** Opened with -1, the slot has no unit after one
`sem_signal`, but that signal grants the waiting `sem_wait`. Opened with `INT_MAX`, two signals wrap
the count to a negative number, and the next `sem_wait` blocks. -/
theorem count_meaningless :
    (∃ m h, Opened 0 (-1) (openedWith (-1)) ∧
      Reach (ledgerStep 0) (fun s a => (neverFreed 0 s.1 a && killsNobody s.1 a) = true)
        (openedWith (-1), .empty) (m, h) ∧
      m.lock (.sem 0) = none ∧ h.signals = 1 ∧ h.granted = 1 ∧
      ¬ (h.granted : ℤ) ≤ max 0 (-1 + (h.signals : ℤ))) ∧
    ∃ m h, Opened 0 INT_MAX (openedWith INT_MAX) ∧
      Reach (ledgerStep 0) (fun s a => (neverFreed 0 s.1 a && killsNobody s.1 a) = true)
        (openedWith INT_MAX, .empty) (m, h) ∧
      m.ctl 1 = .run (.semWaitCount ⟨0, 1⟩) ∧ 0 < INT_MAX + h.signals - h.granted ∧
      (m.shared.semTable 0).count = INT_MIN + 1 ∧ int32 ((m.shared.semTable 0).count - 1) < 0 := by
  constructor
  · obtain ⟨⟨m, h⟩, hrun, hf⟩ := exists_reach (ledgerStep 0)
      (fun s a => neverFreed 0 s.1 a && killsNobody s.1 a) (openedWith (-1), .empty)
      (List.flatten [steps 0 3, calls 1 (.sysSemWait 0) 8, calls 0 (.sysSemSignal 0) 8])
      (fun s => (s.1.lock (.sem 0), s.2.signals, s.2.granted)) (none, 1, 1) (by decide +kernel)
    simp only [Prod.mk.injEq] at hf
    obtain ⟨hlock, hsignals, hgranted⟩ := hf
    refine ⟨m, h, opened_openedWith_neg, hrun, hlock, hsignals, hgranted, ?_⟩
    rw [hgranted, hsignals]
    decide
  obtain ⟨⟨m, h⟩, hrun, hf⟩ := exists_reach (ledgerStep 0)
    (fun s a => neverFreed 0 s.1 a && killsNobody s.1 a) (openedWith INT_MAX, .empty)
    (List.flatten [steps 0 3, calls 0 (.sysSemSignal 0) 72, calls 0 (.sysSemSignal 0) 72,
      calls 1 (.sysSemWait 0) 2])
    (fun s => (labelOf (s.1.ctl 1), s.2.signals, s.2.granted, (s.1.shared.semTable 0).count))
    (some (.semWaitCount ⟨0, 1⟩), 2, 0, INT_MIN + 1) (by decide +kernel)
  simp only [Prod.mk.injEq] at hf
  obtain ⟨hctl, hsignals, hgranted, hcount⟩ := hf
  refine ⟨m, h, opened_openedWith_max, hrun, eq_run_of_labelOf hctl, ?_, hcount, ?_⟩
  · rw [hsignals, hgranted]
    decide
  · rw [hcount]
    decide

end Xv6.Semaphore

import Xv6.Semaphore.Simulation
import Xv6.Semaphore.Counting

/-!
# The counting law over runs of the machine

The runs start when `sem_alloc` has stored the count of a slot. `counting_law` is about runs without
`kkill` and `sem_free`.

## Main results

* `counting_law`: value, waits and signals add up
* `waiters_of_spared`: when no unit is lost
-/

namespace Xv6.Semaphore

open Thread Machine Tally Transition Phase

variable {value : ℤ} {v v' : View} {h : Ledger}

/-! ## Runs of the machine -/

def ledgerStep (id : SemId) : State × Ledger → Act Label → Option (State × Ledger) :=
  withHistory step fun h m a => h.observe (m.sleepers id) (event id m a)

def Phase.idle : Phase → Bool
  | out | waitCall _ | signalCall _ | closeCall _ | otherTable | gantt _ => true
  | _ => false

/-- `sem_alloc` has just stored `value` as the count of slot `id`, and nobody is in the middle of an
operation on the slot. -/
structure Opened (id : SemId) (value : ℤ) (m : State) : Prop where
  alloc : ∃ m₀ a, Reach step (fun _ _ => True) boot m₀ ∧ event id m₀ a = .opened value ∧
    step m₀ a = some m
  idle : ∀ p, ((view id m).phase p).idle = true

def keptOpen (id : SemId) (m : State) : Act Label → Bool
  | .step p =>
    match m.ctl p with
    | .run (.semFree o) | .run (.semFreeWake o) | .wakeupAt _ _ _ (.semFreeActive o)
    | .run (.semFreeActive o) | .run (.semFreeRelease o) => o.id ≠ id
    | .run (.semSignalCount o) => o.id = id → (m.shared.semTable id).count < INT_MAX
    | _ => true
  | _ => true

def sparesWaiters (id : SemId) (m : State) : Act Label → Bool
  | .step p =>
    match m.ctl p with
    | .kkillAt pid i _ _ =>
      if h : i < NPROC then (m.proc ⟨i, h⟩).pid = pid → ¬ m.SleepingOn id ⟨i, h⟩ else true
    | _ => true
  | _ => true

variable {id : SemId} {m : State}

theorem sparesWaiters_of_killsNobody {a : Act Label}
    (h : killsNobody m a = true) : sparesWaiters id m a = true := by
  cases a with
  | step p =>
    simp only [killsNobody, sparesWaiters] at h ⊢
    generalize m.ctl p = c at h
    cases c with
    | kkillAt => cases h
    | _ => rfl
  | _ => rfl

theorem uncut_of_keptOpen {a : Act Label} (h : keptOpen id m a = true)
    (hk : sparesWaiters id m a = true) : Uncut (view id m) (event id m a) := by
  cases a with
  | step p =>
    simp only [event]
    simp only [keptOpen, sparesWaiters] at h hk
    generalize m.ctl p = c at h hk
    cases c with
    | run l =>
      cases l with
      | semWaitCount o =>
        dsimp only [labelEvent]
        split <;> trivial
      | semSignalCount o =>
        dsimp only [labelEvent]
        split
        · rename_i ho
          exact of_decide_eq_true h ho
        · trivial
      | semFreeActive o => simp [labelEvent, of_decide_eq_true h, Uncut]
      | sysSemWait i | sysSemSignal i =>
        dsimp only [labelEvent]
        split
        · split <;> trivial
        · trivial
      | semAlloc | semAllocCount | semWait | semWaitRelease | semSignal | semSignalRelease
      | semFreeRelease =>
        dsimp only [labelEvent]
        split <;> trivial
      | _ => trivial
    | wakeupAt chan one i next =>
      cases next with
      | semFreeActive o => simp [of_decide_eq_true h, Uncut]
      | semSignalRelease o =>
        dsimp only [roundEvent]
        split
        · split
          · split <;> trivial
          · trivial
        · trivial
      | _ => trivial
    | kkillAt pid i found notFound =>
      dsimp only [roundEvent] at hk ⊢
      split
      · rename_i hi
        simp only [hi, ↓reduceDIte, decide_eq_true_eq] at hk
        split
        · rename_i hsleep
          rw [if_neg fun hpid => hk hpid hsleep]
          trivial
        · trivial
      · trivial
    | _ => trivial
  | _ => trivial

theorem Phase.profile_of_idle {x : Phase} (h : x.idle = true) :
    x.profile = (false, false, false, false, false) ∧ x.signals = false ∧
      ∀ n, x ≠ .allocCount n := by
  cases x <;> simp_all [idle, profile, blocked, wakes, entering, signalled, sleeps, signals]

theorem Sums.of_idle {phase : Slot → Phase} (hidle : ∀ p, (phase p).idle = true)
    (hv : 0 ≤ value) : Sums value value phase .empty := by
  have hprof := fun p => (profile_of_idle (hidle p)).1
  simp only [profile, Prod.mk.injEq] at hprof
  have hb := tally_eq_zero_iff.mpr fun p => (hprof p).1
  have hw := tally_eq_zero_iff.mpr fun p => (hprof p).2.1
  have he := tally_eq_zero_iff.mpr fun p => (hprof p).2.2.1
  have hs := tally_eq_zero_iff.mpr fun p => (hprof p).2.2.2.1
  refine ⟨by simp [hs, he, Ledger.empty], by simp [hb, he, Ledger.empty], ?_⟩
  rw [hb, hw]
  omega

theorem SlotStep.of_opened {x : ℤ} (hs : SlotStep v (.opened x) v') :
    v'.count = x ∧ v'.active = v.active ∧ ∃ p, v.phase p = .allocCount x := by
  cases hs with
  | allocSet hp => exact ⟨rfl, rfl, _, hp⟩

theorem Opened.counting (ho : Opened id value m) (hv : 0 ≤ value)
    (hint : value ≤ INT_MAX) : Wf code m ∧ Counting value (view id m) .empty := by
  obtain ⟨m0, a, hreach, hev, hs⟩ := ho.alloc
  obtain ⟨hwf, hl⟩ := wf_and_locking_of_reach id hreach
  have hstep : SlotStep (view id m0) _ (view id m) := slotStep_of_step hwf hs
  have hl' := hl.step hstep
  rw [hev] at hstep
  obtain ⟨hcount, hact, p, hp⟩ := hstep.of_opened
  have hprof := fun p => profile_of_idle (ho.idle p)
  refine ⟨hwf.stepCase (.of_step hs), hl', ?_, hcount.le.trans hint, fun p => (hprof p).2.2, ?_,
    fun p => signalOk_of_not_signals (hprof p).2.1⟩
  · exact hact.trans (hl.active p true (by rw [hp]; rfl))
  · rw [hcount]
    exact .of_idle ho.idle hv

theorem counting_of_reach {m0 m : State} {h : Ledger} {ok : Guard (State × Ledger) (Act Label)}
    (hok : ∀ s a, ok s a → Uncut (view id s.1) (event id s.1 a)) (hv : 0 ≤ value)
    (hint : value ≤ INT_MAX) (ho : Opened id value m0)
    (hrun : Reach (ledgerStep id) ok (m0, .empty) (m, h)) :
    Wf code m ∧ Counting value (view id m) h := by
  refine hrun.invariant (I := fun s => Wf code s.1 ∧ Counting value (view id s.1) s.2)
    (ho.counting hv hint) ?_
  rintro s a s' ⟨hwf, hc⟩ hsa hs
  obtain ⟨hstep, hhist⟩ := withHistory_eq_some.mp hs
  rw [hhist, ← view_sleepers hwf]
  exact ⟨hwf.stepCase (.of_step hstep), hc.step (slotStep_of_step hwf hstep) (hok s a hsa)⟩

theorem Counting.of_free (hc : Counting value v h) (hfree : v.lock = none) :
    v.count = value + h.signals - h.waits ∧ (v.sleepers.card : ℤ) = max 0 (-v.count) ∧
      (h.granted + v.sleepers.card = h.waits) := by
  have hw := hc.locking.tally_eq_zero_of_free locks_of_wakes hfree
  have he := hc.locking.tally_eq_zero_of_free locks_of_entering hfree
  have hs := hc.locking.tally_eq_zero_of_free locks_of_signalled hfree
  have hb : v.sleepers.card = tally blocked v.phase := by
    refine congrArg Finset.card (Finset.filter_congr fun q _ => ?_)
    have hout := hc.locking.lock.outside hfree q
    exact ⟨blocked_of_sleeps, fun hq => sleeps_of_blocked hq hout⟩
  obtain ⟨h1, h2, h3⟩ := hc.sums
  rw [hb]
  refine ⟨?_, ?_, ?_⟩ <;> omega

theorem Counting.woken_of_signalRelease {p : Slot} {o : Op}
    (hc : Counting value (view id m) h) (hctl : m.ctl p = .run (.semSignalRelease o))
    (hid : o.id = id) (howed : (m.shared.semTable id).count ≤ 0 ∨ (h.found p).Nonempty) :
    ∃ q ∈ h.found p, h.woken p = [q] := by
  have hsig := hc.signal p
  have hp : (view id m).phase p = .signalOut o.inc := by
    rw [view_phase, hctl, ← hid]
    simp [labelPhase]
  simp only [SignalOk, hp] at hsig
  exact hsig howed

/-- **The counting law.** Take a slot opened with `value`, and any interleaving of calls without
`kkill`, `sem_free` and overflow. -/
theorem counting_law {id : SemId} {m₀ m : State} {h : Ledger} (hv : 0 ≤ value)
    (hint : value ≤ INT_MAX) (ho : Opened id value m₀)
    (hrun : Reach (ledgerStep id) (fun s a => (keptOpen id s.1 a && killsNobody s.1 a) = true)
      (m₀, .empty) (m, h)) :
    (m.lock (.sem id) = none →
      (m.shared.semTable id).count = value + h.signals - h.waits ∧
      ((m.sleepers id).card : ℤ) = max 0 (-(m.shared.semTable id).count) ∧
      (h.granted : ℤ) ≤ value + h.signals) ∧
    ∀ p o, m.ctl p = .run (.semSignalRelease o) → o.id = id → (h.found p).Nonempty →
      ∃ q ∈ h.found p, h.woken p = [q] := by
  obtain ⟨hwf, hc⟩ := counting_of_reach (fun _ _ hok => uncut_of_keptOpen
    (Bool.and_eq_true_iff.mp hok).1 (sparesWaiters_of_killsNobody (Bool.and_eq_true_iff.mp hok).2))
    hv hint ho hrun
  refine ⟨fun hfree => ?_, fun p o hctl hid hne => hc.woken_of_signalRelease hctl hid (.inr hne)⟩
  obtain ⟨hcount, hsleep, hgranted⟩ := hc.of_free hfree
  rw [view_sleepers hwf] at hsleep hgranted
  simp only [view_count] at hcount hsleep
  refine ⟨hcount, hsleep, ?_⟩
  omega

/-- Three processes, of which the first is about to store the count 1 of the first slot. -/
def opening : List (Act Label) :=
  List.flatten [spawn 0 1, spawn 1 2, spawn 2 3, calls 0 (.sysSemOpen 1 []) 2]

def openedOne : State := result step boot (opening ++ [.step 0])

theorem opened_openedOne : Opened 0 1 openedOne where
  alloc := ⟨_, _, reach_result (by decide +kernel), by decide +kernel,
    step_result (by decide +kernel)⟩
  idle := by decide +kernel

/-- One process holds the unit and another one sleeps when the first signals. -/
theorem counting_law_signal : ∃ m h,
    Reach (ledgerStep 0) (fun s a => (keptOpen 0 s.1 a && killsNobody s.1 a) = true)
      (openedOne, .empty) (m, h) ∧
    m.ctl 0 = .run (.semSignalRelease ⟨0, 1⟩) ∧ ∃ q ∈ h.found 0, h.woken 0 = [q] := by
  obtain ⟨⟨m, h⟩, hrun, hf⟩ := exists_reach (ledgerStep 0)
    (fun s a => keptOpen 0 s.1 a && killsNobody s.1 a) (openedOne, .empty)
    (List.flatten [steps 0 3, calls 0 (.sysSemWait 0) 6, calls 1 (.sysSemWait 0) 8,
      calls 0 (.sysSemSignal 0) 7])
    (fun s => (labelOf (s.1.ctl 0), s.2.found 0))
    (some (.semSignalRelease ⟨0, 1⟩), {1}) (by decide +kernel)
  simp only [Prod.mk.injEq] at hf
  have hctl : m.ctl 0 = .run (.semSignalRelease ⟨0, 1⟩) := eq_run_of_labelOf hf.1
  exact ⟨m, h, hrun, hctl, (counting_law (by decide) (by decide) opened_openedOne hrun).2 0 _ hctl
    rfl (by simp [hf.2])⟩

/-! ## Killing a waiter -/

/-- The first process takes the only unit, the second one waits for it, and the third one kills the
second. -/
def killedWaiter : List (Act Label) :=
  List.flatten [steps 0 3, calls 0 (.sysSemWait 0) 6, calls 1 (.sysSemWait 0) 8,
    calls 2 (.kkill 2) 3]

/-- **`kkill` of a waiter loses its unit.** The semaphore is opened with one unit. The first process
takes it, the second one waits and is killed: now the count is -1 and nobody waits. -/
theorem kill_loses_unit :
    (∃ m h, Reach (ledgerStep 0) (fun s a => keptOpen 0 s.1 a = true) (openedOne, .empty) (m, h) ∧
      m.lock (.sem 0) = none ∧ (m.shared.semTable 0).count = -1 ∧ m.sleepers 0 = ∅) ∧
    (∃ m h, Reach (ledgerStep 0) (fun s a => keptOpen 0 s.1 a = true) (openedOne, .empty) (m, h) ∧
      m.ctl 0 = .run (.semSignalRelease ⟨0, 1⟩) ∧ (m.shared.semTable 0).count = 0 ∧
      h.woken 0 = []) ∧
    ∃ m h, Reach (ledgerStep 0) (fun s a => keptOpen 0 s.1 a = true) (openedOne, .empty) (m, h) ∧
      m.lock (.sem 0) = none ∧ m.sleepers 0 = ∅ ∧ h.granted ≤ h.signals ∧
      int32 ((m.shared.semTable 0).count - 1) < 0 := by
  refine ⟨?_, ?_, ?_⟩
  · obtain ⟨⟨m, h⟩, hrun, hf⟩ := exists_reach (ledgerStep 0) (fun s a => keptOpen 0 s.1 a)
      (openedOne, .empty) killedWaiter
      (fun s => (s.1.lock (.sem 0), (s.1.shared.semTable 0).count, s.1.sleepers 0))
      (none, -1, ∅) (by decide +kernel)
    simp only [Prod.mk.injEq] at hf
    exact ⟨m, h, hrun, hf⟩
  · obtain ⟨⟨m, h⟩, hrun, hf⟩ := exists_reach (ledgerStep 0) (fun s a => keptOpen 0 s.1 a)
      (openedOne, .empty)
      (List.flatten [killedWaiter, calls 0 (.sysSemSignal 0) 70])
      (fun s => (labelOf (s.1.ctl 0), (s.1.shared.semTable 0).count, s.2.woken 0))
      (some (.semSignalRelease ⟨0, 1⟩), 0, []) (by decide +kernel)
    simp only [Prod.mk.injEq] at hf
    exact ⟨m, h, hrun, eq_run_of_labelOf hf.1, hf.2⟩
  obtain ⟨⟨m, h⟩, hrun, hf⟩ := exists_reach (ledgerStep 0) (fun s a => keptOpen 0 s.1 a)
    (openedOne, .empty)
    (List.flatten [killedWaiter, calls 0 (.sysSemSignal 0) 71])
    (fun s => (s.1.lock (.sem 0), s.1.sleepers 0, s.2.granted, s.2.signals,
      (s.1.shared.semTable 0).count)) (none, ∅, 1, 1, 0) (by decide +kernel)
  simp only [Prod.mk.injEq] at hf
  obtain ⟨hlock, hsleep, hgranted, hsignals, hcount⟩ := hf
  exact ⟨m, h, hrun, hlock, hsleep, by omega, by rw [hcount]; decide⟩

/-- **Where no waiter is killed, no unit is lost.** -/
theorem waiters_of_spared {id : SemId} {m₀ m : State} {h : Ledger} (hv : 0 ≤ value)
    (hint : value ≤ INT_MAX) (ho : Opened id value m₀)
    (hrun : Reach (ledgerStep id) (fun s a => (keptOpen id s.1 a && sparesWaiters id s.1 a) = true)
      (m₀, .empty) (m, h)) :
    (m.lock (.sem id) = none →
      ((m.sleepers id).card : ℤ) = max 0 (-(m.shared.semTable id).count) ∧
      (1 ≤ value → m.sleepers id = ∅ → h.granted ≤ h.signals →
        0 ≤ int32 ((m.shared.semTable id).count - 1))) ∧
    ∀ p o, m.ctl p = .run (.semSignalRelease o) → o.id = id →
      (m.shared.semTable id).count ≤ 0 → ∃ q ∈ h.found p, h.woken p = [q] := by
  obtain ⟨hwf, hc⟩ := counting_of_reach (fun _ _ hok => uncut_of_keptOpen
    (Bool.and_eq_true_iff.mp hok).1 (Bool.and_eq_true_iff.mp hok).2) hv hint ho hrun
  refine ⟨fun hfree => ?_, fun p o hctl hid hle => hc.woken_of_signalRelease hctl hid (.inl hle)⟩
  obtain ⟨hcount, hsleep, hgranted⟩ := hc.of_free hfree
  have hpred := hc.sums.int32_pred hc.le_max
  rw [view_sleepers hwf] at hsleep hgranted
  simp only [view_count] at hcount hsleep hpred
  refine ⟨hsleep, fun hone hempty hback => ?_⟩
  rw [hempty, Finset.card_empty] at hgranted
  omega

/-- A third process kills itself while the second one sleeps, and the first one signals. -/
theorem waiters_of_spared_signal : ∃ m h,
    Reach (ledgerStep 0) (fun s a => (keptOpen 0 s.1 a && sparesWaiters 0 s.1 a) = true)
      (openedOne, .empty) (m, h) ∧
    (m.proc 2).killed = true ∧ m.ctl 0 = .run (.semSignalRelease ⟨0, 1⟩) ∧
    ∃ q ∈ h.found 0, h.woken 0 = [q] := by
  obtain ⟨⟨m, h⟩, hrun, hf⟩ := exists_reach (ledgerStep 0)
    (fun s a => keptOpen 0 s.1 a && sparesWaiters 0 s.1 a) (openedOne, .empty)
    (List.flatten [steps 0 3, calls 0 (.sysSemWait 0) 6, calls 1 (.sysSemWait 0) 8,
      calls 2 (.kkill 3) 4, calls 0 (.sysSemSignal 0) 7])
    (fun s => ((s.1.proc 2).killed, labelOf (s.1.ctl 0), (s.1.shared.semTable 0).count))
    (true, some (.semSignalRelease ⟨0, 1⟩), 0) (by decide +kernel)
  simp only [Prod.mk.injEq] at hf
  have hctl : m.ctl 0 = .run (.semSignalRelease ⟨0, 1⟩) := eq_run_of_labelOf hf.2.1
  exact ⟨m, h, hrun, hf.1, hctl, (waiters_of_spared (by decide) (by decide) opened_openedOne
    hrun).2 0 _ hctl rfl hf.2.2.le⟩

end Xv6.Semaphore

import Xv6.Proc.Cpus

/-!
# The steps of the CPUs

What is true at each control point of a CPU (`Inv`), and the transitions of the machine in the form
in which the invariant is proved: one constructor of `StepCase` for each kind of effect on the
locks, the process states and the contexts.
-/

namespace Xv6.Cpus

open Thread Transition Function Machine Option

variable {K : Type*} [DecidableEq K]

def PCtl.lock (p : Slot) : PCtl → Option Slot
  | .free _ => none
  | .wakeupHeld _ _ i | .kkillHeld _ i | .visited i _ => some i
  | .yieldLocked _ | .sleepLocked _ | .exitLocked | .sched _ | .resumed _ | .forkret => some p

def Resume.state : Resume → ProcState
  | .yield _ => .runnable
  | .sleep => .sleeping
  | .exit => .zombie

def PCtl.state : PCtl → ProcState
  | .sched r => r.state
  | _ => .running

def PCtl.parked : PCtl → Bool
  | .resumed _ | .forkret => true
  | _ => false

theorem PCtl.lock_of_parked {c : PCtl} (h : c.parked = true) (p : Slot) : c.lock p = some p := by
  cases c <;> first | rfl | cases h

theorem PCtl.state_of_parked {c : PCtl} (h : c.parked = true) : c.state = .running := by
  cases c <;> first | rfl | cases h

def Mode.slot : Mode → Option Slot
  | .found i | .enter i | .exec i | .back i => some i
  | .scan _ | .locked _ | .unlock _ => none

/-- The `p->lock` a CPU holds, given the control points of the processes. -/
def Mode.held (pctl : Slot → PCtl) : Mode → Option Slot
  | .scan _ => none
  | .locked i | .found i | .enter i | .back i | .unlock i => some i
  | .exec p => (pctl p).lock p

def CpuOk (m : Machine K) (k : K) : Mode → Prop
  | .scan _ | .locked _ | .unlock _ => m.proc k = none
  | .found i => m.proc k = none ∧ m.state i = .running
  | .enter i => m.proc k = some i ∧ m.state i = .running
  | .exec p => m.proc k = some p ∧ m.ctx k = p ∧ m.saved p = false ∧ m.state p = (m.pctl p).state
  | .back i => m.proc k = some i ∧ (m.state i = .runnable ∨ m.state i = .sleeping ∨
      m.state i = .zombie)

structure Inv (m : Machine K) : Prop where
  lock : ∀ k p, m.lock p = some k ↔ (m.mode k).held m.pctl = some p
  cpu : ∀ k, CpuOk m k (m.mode k)
  sole : ∀ k k' p, (m.mode k).slot = some p → (m.mode k').slot = some p → k = k'
  off : ∀ p, (∀ k, (m.mode k).slot ≠ some p) → m.state p ≠ .running
  parked : ∀ p, (∀ k, m.mode k ≠ .exec p) → m.saved p = true ∧ (m.pctl p).parked = true
  exited : ∀ p, m.pctl p = .resumed .exit → m.state p = .zombie ∨ m.state p = .unused

/-! ## What a step does -/

inductive StepCase (m : Machine K) : Machine K → Prop
  | wrap {k : K} {i : ℕ} (hk : m.mode k = .scan i) : StepCase m (m.goto k (.scan 0))
  | lockEntry {k : K} {i : Slot} (hk : m.mode k = .scan i) (hl : m.lock i = none) :
    StepCase m ({ m with lock := update m.lock i (some k) }.goto k (.locked i))
  | skip {k : K} {i : Slot} (hk : m.mode k = .locked i) : StepCase m (m.goto k (.unlock i))
  | pick {k : K} {i : Slot} (hk : m.mode k = .locked i) (hs : m.state i = .runnable) :
    StepCase m ((m.setState i .running).goto k (.found i))
  | assign {k : K} {i : Slot} (hk : m.mode k = .found i) :
    StepCase m ({ m with proc := update m.proc k (some i) }.goto k (.enter i))
  | enter {k : K} {i : Slot} (hk : m.mode k = .enter i) :
    StepCase m ({ m with
      ctx := update m.ctx k i
      saved := update m.saved i false }.goto k (.exec i))
  | clear {k : K} {i : Slot} (hk : m.mode k = .back i) :
    StepCase m ({ m with proc := update m.proc k none }.goto k (.unlock i))
  | unlockEntry {k : K} {i : Slot} (hk : m.mode k = .unlock i) :
    StepCase m ({ m with lock := update m.lock i none }.goto k (.scan (i + 1)))
  | move {k : K} {p : Slot} {c c' : Point} (hk : m.mode k = .exec p) (hc : m.pctl p = .free c) :
    StepCase m (m.jump p (.free c'))
  | take {k : K} {p q : Slot} {c : Point} {c' : PCtl} (hk : m.mode k = .exec p)
      (hc : m.pctl p = .free c) (hl : m.lock q = none) (hc' : c'.lock p = some q)
      (hs : c'.state = .running) (hp : c'.parked = false) :
    StepCase m ({ m with lock := update m.lock q (some k) }.jump p c')
  | drop {k : K} {p q : Slot} {c : Point} {chan : Slot → Option ℕ} (hk : m.mode k = .exec p)
      (hc : (m.pctl p).lock p = some q) (hs : (m.pctl p).state = .running) :
    StepCase m ({ m with
      lock := update m.lock q none
      chan := chan }.jump p (.free c))
  | visit {k : K} {p q : Slot} {c : Point} {s : ProcState} {killed : Slot → Bool}
      (hk : m.mode k = .exec p) (hc : (m.pctl p).lock p = some q)
      (hr : (m.pctl p).state = .running)
      (hs : s = m.state q ∨ m.state q = .sleeping ∧ s = .runnable) :
    StepCase m ({ m with state := update m.state q s, killed := killed }.jump p
      (.visited q c))
  | store {k : K} {p : Slot} {r : Resume} {chan : Slot → Option ℕ} (hk : m.mode k = .exec p)
      (hc : (m.pctl p).lock p = some p) (hr : (m.pctl p).state = .running) :
    StepCase m ({ m with state := update m.state p r.state, chan := chan }.jump p
      (.sched r))
  | leave {k : K} {p : Slot} {r : Resume} (hk : m.mode k = .exec p) (hc : m.pctl p = .sched r) :
    StepCase m (({ m with saved := update m.saved p true }.jump p (.resumed r)).goto k
      (.back p))
  | fork {p : Slot} {pid : Slot → ℤ} (hs : m.state p = .unused) (hl : m.lock p = none) :
    StepCase m { m with
      state := update m.state p .runnable
      pid := pid
      saved := update m.saved p true
      pctl := update m.pctl p .forkret }
  | reap {p : Slot} {pid : Slot → ℤ} {chan : Slot → Option ℕ} {killed : Slot → Bool}
      (hs : m.state p = .zombie) (hl : m.lock p = none) :
    StepCase m { m with
      state := update m.state p .unused
      pid := pid
      chan := chan
      killed := killed }

omit [DecidableEq K] in
@[simp]
theorem Machine.setState_self (m : Machine K) (p : Slot) : m.setState p (m.state p) = m := by
  simp [setState]

theorem StepCase.of_stepProc {m m' : Machine K} {k : K} {p : Slot} (hk : m.mode k = .exec p)
    (hctx : m.ctx k = p) (hstep : m.stepProc k p p (m.pctl p) = some m') : StepCase m m' := by
  cases hc : m.pctl p with
  | free c =>
    rw [hc] at hstep
    cases c with
    | user => cases hstep
    | wakeupAt one chan i =>
      simp only [Machine.stepProc, Machine.acquire] at hstep
      split_ifs at hstep with hi hme hl
      · exact Option.some.inj hstep ▸ .move hk hc
      · exact Option.some.inj hstep ▸ .take hk hc hl rfl rfl rfl
      · cases hstep
      · exact Option.some.inj hstep ▸ .move hk hc
    | kkillAt pid i =>
      simp only [Machine.stepProc, Machine.acquire] at hstep
      split_ifs at hstep with hi hl
      · exact Option.some.inj hstep ▸ .take hk hc hl rfl rfl rfl
      · cases hstep
      · exact Option.some.inj hstep ▸ .move hk hc
  | wakeupHeld one chan i =>
    rw [hc] at hstep
    obtain rfl := Option.some.inj hstep
    have hvisit : m.wake chan i = { m.setState i (m.wake chan i |>.state i) with
        killed := m.killed } ∧ (((m.wake chan i).state i = m.state i) ∨
          m.state i = .sleeping ∧ (m.wake chan i).state i = .runnable) := by
      unfold Machine.wake
      split_ifs with hs
      · simp [Machine.setState, hs.1]
      · simp [Machine.setState]
    rw [hvisit.1]
    exact .visit hk (by rw [hc]; rfl) (by rw [hc]; rfl) hvisit.2
  | kkillHeld pid i =>
    rw [hc] at hstep
    simp only [Machine.stepProc] at hstep
    split_ifs at hstep with hpid
    · obtain rfl := Option.some.inj hstep
      unfold Machine.kill
      split_ifs with hs
      · exact .visit hk (by rw [hc]; rfl) (by rw [hc]; rfl) (.inr ⟨hs, rfl⟩)
      have hvisit : StepCase m ({ m.setState i (m.state i) with
          killed := update m.killed i true }.jump p (.visited i .user)) :=
        .visit hk (by rw [hc]; rfl) (by rw [hc]; rfl) (.inl rfl)
      simpa using hvisit
    obtain rfl := Option.some.inj hstep
    have hvisit : StepCase m ({ m.setState i (m.state i) with killed := m.killed }.jump p
        (.visited i (.kkillAt pid (i + 1)))) :=
      .visit hk (by rw [hc]; rfl) (by rw [hc]; rfl) (.inl rfl)
    simpa using hvisit
  | visited i c =>
    rw [hc] at hstep
    simp only [Machine.stepProc, Machine.release] at hstep
    split_ifs at hstep
    · exact Option.some.inj hstep ▸ .drop hk (by rw [hc]; rfl) (by rw [hc]; rfl)
    · cases hstep
  | yieldLocked c =>
    rw [hc] at hstep
    exact Option.some.inj hstep ▸ .store (r := .yield c) hk (by rw [hc]; rfl) (by rw [hc]; rfl)
  | sleepLocked chan =>
    rw [hc] at hstep
    exact Option.some.inj hstep ▸ .store (r := .sleep) hk (by rw [hc]; rfl) (by rw [hc]; rfl)
  | exitLocked =>
    rw [hc] at hstep
    exact Option.some.inj hstep ▸ .store (r := .exit) hk (by rw [hc]; rfl) (by rw [hc]; rfl)
  | sched r =>
    rw [hc] at hstep
    simp only [Machine.stepProc, Option.ite_none_right_eq_some, Option.some.injEq] at hstep
    rw [← hstep.2, hctx]
    exact .leave hk hc
  | resumed r =>
    rw [hc] at hstep
    cases r with
    | yield c =>
      simp only [Machine.stepProc, Machine.release] at hstep
      split_ifs at hstep
      · exact Option.some.inj hstep ▸ .drop hk (by rw [hc]; rfl) (by rw [hc]; rfl)
      · cases hstep
    | sleep =>
      simp only [Machine.stepProc, Machine.release] at hstep
      split_ifs at hstep
      · exact Option.some.inj hstep ▸ .drop hk (by rw [hc]; rfl) (by rw [hc]; rfl)
      · cases hstep
    | exit => cases hstep
  | forkret =>
    rw [hc] at hstep
    simp only [Machine.stepProc, Machine.release] at hstep
    split_ifs at hstep
    · exact Option.some.inj hstep ▸ .drop hk (by rw [hc]; rfl) (by rw [hc]; rfl)
    · cases hstep

theorem StepCase.of_step {m m' : Machine K} {a : Act K} (h : Inv m) (hstep : step m a = some m') :
    StepCase m m' := by
  cases a with
  | step k =>
    have hcpu := h.cpu k
    cases hk : m.mode k with
    | exec p =>
      rw [hk] at hcpu
      simp only [step, hk, hcpu.1] at hstep
      exact .of_stepProc hk hcpu.2.1 hstep
    | scan i =>
      simp only [step, hk, stepSched, acquire] at hstep
      split_ifs at hstep with hi hl
      · obtain rfl := some.inj hstep
        exact .lockEntry (i := ⟨i, hi⟩) hk hl
      · cases hstep
      · obtain rfl := some.inj hstep
        exact .wrap hk
    | locked i =>
      simp only [step, hk, stepSched] at hstep
      split_ifs at hstep with hs
      · exact some.inj hstep ▸ .pick hk hs
      · exact some.inj hstep ▸ .skip hk
    | found i =>
      simp only [step, hk, stepSched, some.injEq] at hstep
      exact hstep ▸ .assign hk
    | enter i =>
      simp only [step, hk, stepSched, some.injEq] at hstep
      exact hstep ▸ .enter hk
    | back i =>
      simp only [step, hk, stepSched, some.injEq] at hstep
      exact hstep ▸ .clear hk
    | unlock i =>
      simp only [step, hk, stepSched, release] at hstep
      split_ifs at hstep
      · obtain rfl := some.inj hstep
        exact .unlockEntry hk
      · cases hstep
  | call k c =>
    have hcpu := h.cpu k
    cases hk : m.mode k with
    | exec p =>
      rw [hk] at hcpu
      simp only [step, hk, hcpu.1, ite_none_right_eq_some] at hstep
      obtain ⟨hc, hstep⟩ := hstep
      cases c with
      | sleep chan =>
        simp only [stepCall, acquire] at hstep
        split_ifs at hstep with hl
        · exact some.inj hstep ▸ .take hk hc hl rfl rfl rfl
        · cases hstep
      | kexit =>
        simp only [stepCall, acquire] at hstep
        split_ifs at hstep with hl
        · exact some.inj hstep ▸ .take hk hc hl rfl rfl rfl
        · cases hstep
      | wakeup one chan => exact some.inj hstep ▸ .move hk hc
      | kkill pid => exact some.inj hstep ▸ .move hk hc
    | _ => simp [step, hk] at hstep
  | yield k =>
    have hcpu := h.cpu k
    cases hk : m.mode k with
    | exec p =>
      rw [hk] at hcpu
      simp only [step, hk, hcpu.1] at hstep
      cases hc : m.pctl p with
      | free c =>
        simp only [hc, stepYield, acquire] at hstep
        split_ifs at hstep with hl
        · exact some.inj hstep ▸ .take hk hc hl rfl rfl rfl
        · cases hstep
      | _ => simp [hc, stepYield] at hstep
    | _ => simp [step, hk] at hstep
  | fork p pid =>
    simp only [step, ite_none_right_eq_some, some.injEq] at hstep
    obtain ⟨⟨hs, hl⟩, rfl⟩ := hstep
    exact .fork hs hl
  | reap p =>
    simp only [step, ite_none_right_eq_some, some.injEq] at hstep
    obtain ⟨⟨hs, hl⟩, rfl⟩ := hstep
    exact .reap hs hl

end Xv6.Cpus

import Xv6.Proc.Machine

/-!
# What one move of the machine can do

`StepCase` lists every effect a move can have, guards included, and `StepCase.of_step` says that the
list is complete.
-/

namespace Xv6.Thread

open Function Option

namespace Machine

variable {L C σ ℓ : Type} [DecidableEq L] (code : Code L C σ ℓ)

inductive StepCase (m : Machine L C σ ℓ) : Act ℓ → Machine L C σ ℓ → Prop
  | exec {p l f} (hrun : (m.proc p).state = .running) (hctl : m.ctl p = .run l)
      (hinstr : code.instr l = .exec f) :
      StepCase m (.step p) ({ m with shared := (f (m.proc p) m.shared).1 }.goto p
        (.run (f (m.proc p) m.shared).2))
  | acquire {p l lk next} (hrun : (m.proc p).state = .running) (hctl : m.ctl p = .run l)
      (hinstr : code.instr l = .acquire lk next) (hfree : m.lock lk = none) :
      StepCase m (.step p) ((m.setLock lk (some p)).goto p (.run next))
  | release {p l lk next} (hrun : (m.proc p).state = .running) (hctl : m.ctl p = .run l)
      (hinstr : code.instr l = .release lk next) (hheld : m.lock lk = some p) :
      StepCase m (.step p) ((m.setLock lk none).goto p (.run next))
  | sleep {p l chan lk next} (hrun : (m.proc p).state = .running) (hctl : m.ctl p = .run l)
      (hinstr : code.instr l = .sleep chan lk next) :
      StepCase m (.step p) (m.goto p (.sleepEnter chan lk next))
  | wakeup {p l chan next} (hrun : (m.proc p).state = .running) (hctl : m.ctl p = .run l)
      (hinstr : code.instr l = .wakeup chan next) :
      StepCase m (.step p) (m.goto p (.wakeupAt chan false 0 next))
  | wakeupOne {p l chan next} (hrun : (m.proc p).state = .running) (hctl : m.ctl p = .run l)
      (hinstr : code.instr l = .wakeupOne chan next) :
      StepCase m (.step p) (m.goto p (.wakeupAt chan true 0 next))
  | kkill {p l pid found notFound} (hrun : (m.proc p).state = .running) (hctl : m.ctl p = .run l)
      (hinstr : code.instr l = .kkill pid found notFound) :
      StepCase m (.step p) (m.goto p (.kkillAt pid 0 found notFound))
  | sleepEnter {p chan lk next} (hrun : (m.proc p).state = .running)
      (hctl : m.ctl p = .sleepEnter chan lk next) (hfree : (m.proc p).locked = false) :
      StepCase m (.step p)
        ((m.setProc p { m.proc p with locked := true }).goto p (.sleepLocked chan lk next))
  | sleepLocked {p chan lk next} (hrun : (m.proc p).state = .running)
      (hctl : m.ctl p = .sleepLocked chan lk next) (hheld : m.lock lk = some p) :
      StepCase m (.step p) ((m.setLock lk none).goto p (.sleepReleased chan lk next))
  | sleepReleased {p chan lk next} (hrun : (m.proc p).state = .running)
      (hctl : m.ctl p = .sleepReleased chan lk next) :
      StepCase m (.step p) ((m.setProc p { m.proc p with
        chan := some chan, state := .sleeping, locked := false }).goto p (.sched chan lk next))
  | sleepReturn {p lk next} (hrun : (m.proc p).state = .running)
      (hctl : m.ctl p = .sleepReturn lk next) (hfree : m.lock lk = none) :
      StepCase m (.step p) ((m.setLock lk (some p)).goto p (.run next))
  | wakeupSkip {p chan one next} {i : ℕ} (hrun : (m.proc p).state = .running)
      (hctl : m.ctl p = .wakeupAt chan one i next) (hi : i < NPROC)
      (hskip : (⟨i, hi⟩ : Slot) = p ∨
        (m.proc ⟨i, hi⟩).locked = false ∧ ¬ m.SleepingOn chan ⟨i, hi⟩) :
      StepCase m (.step p) (m.goto p (.wakeupAt chan one (i + 1) next))
  | wakeupHit {p q chan one next} (hrun : (m.proc p).state = .running)
      (hctl : m.ctl p = .wakeupAt chan one q.val next) (hne : q ≠ p)
      (hfree : (m.proc q).locked = false) (hsleep : m.SleepingOn chan q) :
      StepCase m (.step p) ((m.setState q .runnable).goto p
        (if one then .run next else .wakeupAt chan one (q.val + 1) next))
  | wakeupEnd {p chan one next} {i : ℕ} (hrun : (m.proc p).state = .running)
      (hctl : m.ctl p = .wakeupAt chan one i next) (hi : NPROC ≤ i) :
      StepCase m (.step p) (m.goto p (.run next))
  | kkillSkip {p pid found notFound} {i : ℕ} (hrun : (m.proc p).state = .running)
      (hctl : m.ctl p = .kkillAt pid i found notFound) (hi : i < NPROC)
      (hfree : (m.proc ⟨i, hi⟩).locked = false) (hpid : (m.proc ⟨i, hi⟩).pid ≠ pid) :
      StepCase m (.step p) (m.goto p (.kkillAt pid (i + 1) found notFound))
  | kkillHit {p q found notFound} (hrun : (m.proc p).state = .running)
      (hctl : m.ctl p = .kkillAt (m.proc q).pid q.val found notFound)
      (hfree : (m.proc q).locked = false) :
      StepCase m (.step p) ((m.setProc q { m.proc q with
        killed := true
        state := if (m.proc q).state = .sleeping then .runnable
          else (m.proc q).state }).goto p (.run found))
  | kkillEnd {p pid found notFound} {i : ℕ} (hrun : (m.proc p).state = .running)
      (hctl : m.ctl p = .kkillAt pid i found notFound) (hi : NPROC ≤ i) :
      StepCase m (.step p) (m.goto p (.run notFound))
  | call {p cur l} (hrun : (m.proc p).state = .running) (hctl : m.ctl p = .run cur)
      (hinstr : code.instr cur = .choose) (hentry : code.entry cur l = true)
      (hkilled : cur = code.user → (m.proc p).killed = false) :
      StepCase m (.call p l) (m.goto p (.run l))
  | dispatchSleep {p chan lk next} (hst : (m.proc p).state = .runnable)
      (hfree : (m.proc p).locked = false) (hctl : m.ctl p = .sched chan lk next) :
      StepCase m (.dispatch p) ((m.setProc p { m.proc p with
        chan := none, state := .running }).goto p (.sleepReturn lk next))
  | dispatch {p} (hst : (m.proc p).state = .runnable) (hfree : (m.proc p).locked = false)
      (hctl : ∀ chan lk next, m.ctl p ≠ .sched chan lk next) :
      StepCase m (.dispatch p) (m.setState p .running)
  | preempt {p} (hrun : (m.proc p).state = .running) (hintr : intrOn code (m.ctl p) = true) :
      StepCase m (.preempt p) (m.setState p .runnable)
  | exit {p} (hrun : (m.proc p).state = .running) (hctl : m.ctl p = .run code.user) :
      StepCase m (.exit p) (m.setState p .zombie)
  | reap {p} (hst : (m.proc p).state = .zombie) : StepCase m (.reap p) (m.setProc p .free)
  | fork {p pid name} (hst : (m.proc p).state = .unused) :
      StepCase m (.fork p pid name) (m.setProc p (.forked pid name))
  | tick : StepCase m .tick { m with shared := code.tick m.shared }

variable {code} {m m' : Machine L C σ ℓ} {p : Slot}

theorem StepCase.of_stepInstr {l : ℓ} (hrun : (m.proc p).state = .running)
    (hctl : m.ctl p = .run l) (h : m.stepInstr p (code.instr l) = some m') :
    StepCase code m (.step p) m' := by
  cases hi : code.instr l with
  | choose | panic msg => simp [stepInstr, hi] at h
  | exec f =>
    obtain rfl := some.inj (by simpa [stepInstr, hi] using h)
    exact .exec hrun hctl hi
  | acquire lk next =>
    simp only [stepInstr, hi, ite_none_right_eq_some, some.injEq] at h
    obtain ⟨hfree, rfl⟩ := h
    exact .acquire hrun hctl hi hfree
  | release lk next =>
    simp only [stepInstr, hi, ite_none_right_eq_some, some.injEq] at h
    obtain ⟨hheld, rfl⟩ := h
    exact .release hrun hctl hi hheld
  | sleep chan lk next =>
    obtain rfl := some.inj (by simpa [stepInstr, hi] using h)
    exact .sleep hrun hctl hi
  | wakeup chan next =>
    obtain rfl := some.inj (by simpa [stepInstr, hi] using h)
    exact .wakeup hrun hctl hi
  | wakeupOne chan next =>
    obtain rfl := some.inj (by simpa [stepInstr, hi] using h)
    exact .wakeupOne hrun hctl hi
  | kkill pid found notFound =>
    obtain rfl := some.inj (by simpa [stepInstr, hi] using h)
    exact .kkill hrun hctl hi

theorem StepCase.of_stepKkill {pid : ℤ} {i : ℕ} {found notFound : ℓ}
    (hrun : (m.proc p).state = .running) (hctl : m.ctl p = .kkillAt pid i found notFound)
    (h : m.stepKkill p pid i found notFound = some m') : StepCase code m (.step p) m' := by
  unfold stepKkill at h
  split at h
  · rename_i hi
    split at h
    · cases h
    rename_i hfree
    have hfree : (m.proc ⟨i, hi⟩).locked = false := by simpa using hfree
    split at h
    · rename_i hpid
      obtain rfl := some.inj h
      subst hpid
      exact .kkillHit (q := ⟨i, hi⟩) hrun hctl hfree
    · rename_i hpid
      obtain rfl := some.inj h
      exact .kkillSkip hrun hctl hi hfree hpid
  · rename_i hi
    obtain rfl := some.inj h
    exact .kkillEnd hrun hctl (not_lt.mp hi)

theorem StepCase.of_stepDispatch (h : m.stepDispatch p = some m') :
    StepCase code m (.dispatch p) m' := by
  unfold stepDispatch at h
  split at h
  · rename_i hst
    split at h
    · rename_i hctl
      obtain rfl := some.inj h
      exact .dispatchSleep hst.1 hst.2 hctl
    · rename_i hctl
      obtain rfl := some.inj h
      exact .dispatch hst.1 hst.2 hctl
  · cases h

variable [DecidableEq C]

theorem StepCase.of_stepWakeup {chan : C} {one : Bool} {i : ℕ} {next : ℓ}
    (hrun : (m.proc p).state = .running) (hctl : m.ctl p = .wakeupAt chan one i next)
    (h : m.stepWakeup p chan one i next = some m') : StepCase code m (.step p) m' := by
  unfold stepWakeup at h
  split at h
  · rename_i hi
    split at h
    · rename_i hself
      obtain rfl := some.inj h
      exact .wakeupSkip hrun hctl hi (.inl hself)
    rename_i hne
    split at h
    · cases h
    rename_i hfree
    have hfree : (m.proc ⟨i, hi⟩).locked = false := by simpa using hfree
    split at h
    · rename_i hsleep
      obtain rfl := some.inj h
      exact .wakeupHit (q := ⟨i, hi⟩) hrun hctl hne hfree hsleep
    · rename_i hsleep
      obtain rfl := some.inj h
      exact .wakeupSkip hrun hctl hi (.inr ⟨hfree, hsleep⟩)
  · rename_i hi
    obtain rfl := some.inj h
    exact .wakeupEnd hrun hctl (not_lt.mp hi)

theorem StepCase.of_stepProc (hrun : (m.proc p).state = .running)
    (h : m.stepProc code p = some m') : StepCase code m (.step p) m' := by
  cases hctl : m.ctl p with
  | run l => exact .of_stepInstr hrun hctl (by simpa [stepProc, hctl] using h)
  | sleepEnter chan lk next =>
    simp only [stepProc, hctl, ite_none_left_eq_some, some.injEq, Bool.not_eq_true] at h
    obtain ⟨hfree, rfl⟩ := h
    exact .sleepEnter hrun hctl hfree
  | sleepLocked chan lk next =>
    simp only [stepProc, hctl, ite_none_right_eq_some, some.injEq] at h
    obtain ⟨hheld, rfl⟩ := h
    exact .sleepLocked hrun hctl hheld
  | sleepReleased chan lk next =>
    simp only [stepProc, hctl, some.injEq] at h
    obtain rfl := h
    exact .sleepReleased hrun hctl
  | sched chan lk next => simp [stepProc, hctl] at h
  | sleepReturn lk next =>
    simp only [stepProc, hctl, ite_none_right_eq_some, some.injEq] at h
    obtain ⟨hfree, rfl⟩ := h
    exact .sleepReturn hrun hctl hfree
  | wakeupAt chan one i next => exact .of_stepWakeup hrun hctl (by simpa [stepProc, hctl] using h)
  | kkillAt pid i found notFound =>
    exact .of_stepKkill hrun hctl (by simpa [stepProc, hctl] using h)

variable [DecidableEq ℓ]

theorem StepCase.of_stepCall {l : ℓ} (h : m.step code (.call p l) = some m') :
    StepCase code m (.call p l) m' := by
  simp only [step] at h
  split at h
  · rename_i cur hctl
    split at h
    · rename_i hok
      split at h
      · rename_i hinstr
        obtain rfl := some.inj h
        exact .call hok.1 hctl hinstr hok.2.1 hok.2.2
      · cases h
    · cases h
  · cases h

theorem StepCase.of_step {a : Act ℓ} (h : m.step code a = some m') : StepCase code m a m' := by
  cases a with
  | step p =>
    simp only [step, ite_none_right_eq_some] at h
    exact .of_stepProc h.1 h.2
  | call p l => exact .of_stepCall h
  | dispatch p => exact .of_stepDispatch h
  | preempt p =>
    simp only [step, ite_none_right_eq_some, some.injEq] at h
    obtain ⟨⟨hrun, hintr⟩, rfl⟩ := h
    exact .preempt hrun hintr
  | exit p =>
    simp only [step, ite_none_right_eq_some, some.injEq] at h
    obtain ⟨⟨hrun, hlabel⟩, rfl⟩ := h
    exact .exit hrun (eq_run_of_labelOf hlabel)
  | reap p =>
    simp only [step, ite_none_right_eq_some, some.injEq] at h
    obtain ⟨hst, rfl⟩ := h
    exact .reap hst
  | fork p pid name =>
    simp only [step, ite_none_right_eq_some, some.injEq] at h
    obtain ⟨hst, rfl⟩ := h
    exact .fork hst
  | tick =>
    obtain rfl := some.inj (by simpa [step] using h)
    exact .tick

/-! ## What the machine maintains -/

def ProcOk (code : Code L C σ ℓ) (r : Proc C) : Ctl L C ℓ → Prop
  | .run l => r.locked = false ∧ r.state ≠ .sleeping ∧
      (r.state = .zombie ∨ r.state = .unused → l = code.user)
  | .sleepEnter _ _ _ => r.locked = false ∧ r.state = .running
  | .sleepLocked _ _ _ => r.locked = true ∧ r.state = .running
  | .sleepReleased _ _ _ => r.locked = true ∧ r.state = .running
  | .sched chan _ _ => r.locked = false ∧ r.chan = some chan ∧
      (r.state = .sleeping ∨ r.state = .runnable)
  | .sleepReturn _ _ => r.locked = false ∧ (r.state = .running ∨ r.state = .runnable)
  | .wakeupAt _ _ _ _ => r.locked = false ∧ (r.state = .running ∨ r.state = .runnable)
  | .kkillAt _ _ _ _ => r.locked = false ∧ (r.state = .running ∨ r.state = .runnable)

/-- A process inside a function of `proc.c` got there through a call in the code. -/
def CtlOk (code : Code L C σ ℓ) : Ctl L C ℓ → Prop
  | .run _ => True
  | .sleepEnter chan lk next => ∃ l, code.instr l = .sleep chan lk next
  | .sleepLocked chan lk next => ∃ l, code.instr l = .sleep chan lk next
  | .sleepReleased chan lk next => ∃ l, code.instr l = .sleep chan lk next
  | .sched chan lk next => ∃ l, code.instr l = .sleep chan lk next
  | .sleepReturn lk next => ∃ l chan, code.instr l = .sleep chan lk next
  | .wakeupAt chan one _ next =>
    ∃ l, code.instr l = if one then .wakeupOne chan next else .wakeup chan next
  | .kkillAt pid _ found notFound => ∃ l, code.instr l = .kkill pid found notFound

/-- Every table entry agrees with where its process stands. -/
structure Wf (code : Code L C σ ℓ) (m : Machine L C σ ℓ) : Prop where
  procOk : ∀ p, ProcOk code (m.proc p) (m.ctl p)
  ctlOk : ∀ p, CtlOk code (m.ctl p)

omit [DecidableEq L] [DecidableEq C] [DecidableEq ℓ]

variable {c : Ctl L C ℓ} {r : Proc C}

theorem ProcOk.wake (h : ProcOk code r c)
    (hsleep : r.state = .sleeping) : ProcOk code { r with state := .runnable } c := by
  cases c <;> simp_all [ProcOk]

theorem ProcOk.kill (h : ProcOk code r c) :
    ProcOk code { r with
      killed := true, state := if r.state = .sleeping then .runnable else r.state } c := by
  split
  · rename_i hsleep
    cases c <;> simp_all [ProcOk]
  · cases c <;> simp_all [ProcOk]

theorem ProcOk.run_of_ready
    (h : r.locked = false ∧ (r.state = .running ∨ r.state = .runnable)) (l : ℓ) :
    ProcOk code r (.run l : Ctl L C ℓ) := by
  obtain ⟨hfree, hst⟩ := h
  rcases hst with hst | hst <;> simp [ProcOk, hfree, hst]

theorem ProcOk.sched_of_sleeping (h : ProcOk code r c)
    (hsleep : r.state = .sleeping) : ∃ chan lk next, c = .sched chan lk next := by
  cases c <;> simp_all [ProcOk]

theorem Wf.setProc_goto {p : Slot} (h : Wf code m)
    (hrc : ProcOk code r c) (hc : CtlOk code c) : Wf code ((m.setProc p r).goto p c) := by
  refine ⟨fun q => ?_, fun q => ?_⟩
  · simp only [goto_proc, goto_ctl, setProc_proc, setProc_ctl, update_apply]
    split
    · exact hrc
    · exact h.procOk q
  simp only [goto_ctl, setProc_ctl, update_apply]
  split
  · exact hc
  · exact h.ctlOk q

theorem Wf.goto {p : Slot} (h : Wf code m) (hrc : ProcOk code (m.proc p) c)
    (hc : CtlOk code c) : Wf code (m.goto p c) := by
  have hself : (m.setProc p (m.proc p)).goto p c = m.goto p c := by
    simp [Machine.setProc, Machine.goto]
  exact hself ▸ h.setProc_goto hrc hc

theorem Wf.setProc {p : Slot} (h : Wf code m) (hr : ProcOk code r (m.ctl p)) :
    Wf code (m.setProc p r) := by
  have hself : (m.setProc p r).goto p (m.ctl p) = m.setProc p r := by
    simp [Machine.setProc, Machine.goto]
  exact hself ▸ h.setProc_goto hr (h.ctlOk p)

theorem Wf.congr (h : Wf code m) (hproc : m'.proc = m.proc) (hctl : m'.ctl = m.ctl) : Wf code m' :=
  ⟨fun p => by rw [hproc, hctl]; exact h.procOk p, fun p => by rw [hctl]; exact h.ctlOk p⟩

/-- **Every move keeps the table entries in agreement with the control of their processes.** -/
theorem Wf.stepCase [DecidableEq L] {a : Act ℓ} (h : Wf code m) (hs : StepCase code m a m') :
    Wf code m' := by
  -- a running process that is about to execute a statement may go to any label
  have hrun : ∀ {p : Slot} {l : ℓ} (l' : ℓ), (m.proc p).state = .running → m.ctl p = .run l →
      ProcOk code (m.proc p) (.run l') := by
    intro p l l' hst hctl
    have hp := h.procOk p
    rw [hctl] at hp
    exact ⟨hp.1, by simp [hst], by simp [hst]⟩
  cases hs with
  | exec hst hctl _ =>
    exact Wf.goto (m := { m with shared := _ }) (h.congr rfl rfl) (hrun _ hst hctl) trivial
  | acquire hst hctl _ _ | release hst hctl _ _ =>
    exact Wf.goto (m := m.setLock _ _) (h.congr rfl rfl) (hrun _ hst hctl) trivial
  | call hst hctl _ _ _ => exact h.goto (hrun _ hst hctl) trivial
  | sleep hst hctl hinstr => exact h.goto ⟨(hrun code.user hst hctl).1, hst⟩ ⟨_, hinstr⟩
  | wakeup hst hctl hinstr | wakeupOne hst hctl hinstr =>
    exact h.goto ⟨(hrun code.user hst hctl).1, .inl hst⟩ ⟨_, by simpa using hinstr⟩
  | kkill hst hctl hinstr => exact h.goto ⟨(hrun code.user hst hctl).1, .inl hst⟩ ⟨_, hinstr⟩
  | @sleepEnter p _ _ _ hst hctl _ =>
    have hc := h.ctlOk p
    rw [hctl] at hc
    exact h.setProc_goto ⟨rfl, hst⟩ hc
  | @sleepLocked p _ _ _ hst hctl _ =>
    have hp := h.procOk p
    have hc := h.ctlOk p
    rw [hctl] at hp hc
    exact Wf.goto (m := m.setLock _ _) (h.congr rfl rfl) hp hc
  | @sleepReleased p _ _ _ hst hctl =>
    have hc := h.ctlOk p
    rw [hctl] at hc
    exact h.setProc_goto ⟨rfl, rfl, .inl rfl⟩ hc
  | @sleepReturn p _ _ hst hctl _ =>
    have hp := h.procOk p
    rw [hctl] at hp
    exact Wf.goto (m := m.setLock _ _) (h.congr rfl rfl) (.run_of_ready hp _) trivial
  | @wakeupSkip p _ _ _ _ hst hctl _ _ | @kkillSkip p _ _ _ _ hst hctl _ _ _ =>
    have hp := h.procOk p
    have hc := h.ctlOk p
    rw [hctl] at hp hc
    exact h.goto hp hc
  | @wakeupEnd p _ _ _ _ hst hctl _ | @kkillEnd p _ _ _ _ hst hctl _ =>
    have hp := h.procOk p
    rw [hctl] at hp
    exact h.goto (.run_of_ready hp _) trivial
  | @wakeupHit p q chan one next hst hctl hne _ hsleep =>
    have hp := h.procOk p
    have hc := h.ctlOk p
    rw [hctl] at hp hc
    have hpq : (m.setState q .runnable).proc p = m.proc p := by simp [update_of_ne (Ne.symm hne)]
    have hq : Wf code (m.setState q .runnable) := h.setProc ((h.procOk q).wake hsleep.1)
    cases one
    · exact hq.goto (hpq ▸ hp) hc
    · exact hq.goto (hpq ▸ .run_of_ready hp _) trivial
  | @kkillHit p q _ _ hst hctl _ =>
    have hq := h.setProc (h.procOk q).kill
    have hp := hq.procOk p
    rw [setProc_ctl, hctl] at hp
    exact hq.goto (.run_of_ready hp _) trivial
  | @dispatchSleep p _ _ _ _ hfree hctl =>
    have hc := h.ctlOk p
    rw [hctl] at hc
    obtain ⟨l, hl⟩ := hc
    exact h.setProc_goto ⟨hfree, .inl rfl⟩ ⟨l, _, hl⟩
  | @dispatch p hst hfree hctl =>
    have hp := h.procOk p
    refine h.setProc ?_
    cases hc : m.ctl p <;> simp_all [ProcOk]
  | @preempt p hst hintr =>
    have hp := h.procOk p
    refine h.setProc ?_
    cases hc : m.ctl p <;> simp_all [ProcOk, intrOn]
  | @exit p hst hctl =>
    have hp := h.procOk p
    refine h.setProc ?_
    simp_all [ProcOk]
  | @reap p hst | @fork p _ _ hst =>
    have hp := h.procOk p
    refine h.setProc ?_
    cases hc : m.ctl p <;> simp_all [ProcOk, Proc.free, Proc.forked]
  | tick => exact h.congr rfl rfl

end Machine

end Xv6.Thread

import Xv6.Semaphore.Code
import Xv6.Semaphore.Slot

/-!
# The machine as seen by one slot

`view id m` is what the state `m` of the machine looks like from slot `id`, and `event id m a` is
what the move `a` means to it.
-/

namespace Xv6.Semaphore

open Thread Machine

/-- The phase of a call with operation `o`: `ph` when the call is on slot `id`. -/
def onOp (id : SemId) (o : Op) (ph other : Phase) : Phase := if o.id = id then ph else other

def labelPhase (id : SemId) : Label → Phase
  | .semWait o => onOp id o (.waitCall o.inc) .out
  | .semWaitCount o => onOp id o (.waitIn o.inc) .out
  | .semWaitRecord o | .semWaitSleep o => onOp id o (.blocking o.inc) .out
  | .semWaitAcquired o => onOp id o (.granted o.inc) .out
  | .semWaitRelease o => onOp id o (.waitOut o.inc) .out
  | .semSignal o => onOp id o (.signalCall o.inc) .out
  | .semSignalRecord o | .semSignalCount o => onOp id o (.signalIn o.inc) .out
  | .semSignalWake o => onOp id o (.signalWake o.inc 0) .out
  | .semSignalRelease o => onOp id o (.signalOut o.inc) .out
  | .semFree o => onOp id o (.closeCall o.inc) .out
  | .semFreeWake o => onOp id o (.closeWake o.inc 0) .otherTable
  | .semFreeActive o => onOp id o (.closeActive o.inc) .otherTable
  | .semFreeRelease o => onOp id o (.closeOut o.inc) .otherTable
  | .semAllocCount i value _ => if i = id then .allocCount value else .otherTable
  | .semAlloc _ _ | .semAllocName _ _ | .semAllocRelease _ => .otherTable
  | .semGantt o => onOp id o (.gantt o.inc) .out
  | .user | .done _ | .sysSemOpen _ _ | .sysSemWait _ | .sysSemSignal _ | .sysSemClose _
  | .sysSemGantt _ | .kkill _ => .out

def phaseOf (id : SemId) (st : ProcState) : Ctl Lk SemId Label → Phase
  | .run l => labelPhase id l
  | .sleepEnter _ _ (.semWaitAcquired o) => onOp id o (.blocking o.inc) .out
  | .sleepLocked _ _ (.semWaitAcquired o) => onOp id o (.committed o.inc) .out
  | .sleepReleased _ _ (.semWaitAcquired o) => onOp id o (.falling o.inc) .out
  | .sched _ _ (.semWaitAcquired o) =>
    onOp id o (if st = .sleeping then .asleep o.inc else .woken o.inc) .out
  | .sleepReturn _ (.semWaitAcquired o) => onOp id o (.woken o.inc) .out
  | .wakeupAt _ _ i (.semSignalRelease o) => onOp id o (.signalWake o.inc i) .out
  | .wakeupAt _ _ i (.semFreeActive o) => onOp id o (.closeWake o.inc i) .otherTable
  | _ => .out

def view (id : SemId) (m : State) : View where
  count := (m.shared.semTable id).count
  active := (m.shared.semTable id).active
  inc := (m.shared.semTable id).inc
  lock := m.lock (.sem id)
  table := m.lock .table
  phase p := phaseOf id (m.proc p).state (m.ctl p)

def labelEvent (id : SemId) (s : Shared) (p : Slot) : Label → SlotEvent
  | .semAlloc _ _ => if s.firstInactive = some id then .taken else .silent
  | .semAllocCount i value _ => if i = id then .opened value else .silent
  | .sysSemWait i =>
    match s.checked i with
    | some o => if o.id = id then .waitChecked p else .silent
    | none => .silent
  | .semWait o => if o.id = id then .waitLocked p else .silent
  | .semWaitCount o =>
    if o.id = id then .waitCounted p (0 ≤ int32 ((s.semTable id).count - 1)) else .silent
  | .semWaitRelease o => if o.id = id then .waitReturned o.inc else .silent
  | .sysSemSignal i =>
    match s.checked i with
    | some o => if o.id = id then .signalChecked o.inc else .silent
    | none => .silent
  | .semSignal o => if o.id = id then .signalLocked p else .silent
  | .semSignalCount o => if o.id = id then .signalCounted p else .silent
  | .semSignalRelease o => if o.id = id then .signalReturned p else .silent
  | .semFreeActive o => if o.id = id then .deactivated else .silent
  | .semFreeRelease o => if o.id = id then .freed else .silent
  | _ => .silent

/-- What the next round of the loop of `wakeup`, `wakeup_one` or `kkill` means to slot `id`: `hit`
when entry `i` is `SLEEPING` on the slot, `miss` when it is not. -/
def roundEvent (id : SemId) (m : State) (i : ℕ) (hit miss : Slot → SlotEvent) : SlotEvent :=
  if h : i < NPROC then if m.SleepingOn id ⟨i, h⟩ then hit ⟨i, h⟩ else miss ⟨i, h⟩ else .silent

def event (id : SemId) (m : State) : Act Label → SlotEvent
  | .step p =>
    match m.ctl p with
    | .run l => labelEvent id m.shared p l
    | .wakeupAt _ _ i (.semSignalRelease o) =>
      if o.id = id then roundEvent id m i (.woke p) fun _ => .silent else .silent
    | .wakeupAt _ _ i (.semFreeActive o) =>
      if o.id = id then roundEvent id m i .closeWoke .closePassed else .silent
    | .kkillAt pid i _ _ =>
      roundEvent id m i (fun q => if (m.proc q).pid = pid then .killed q else .silent) fun _ => .silent
    | _ => .silent
  | _ => .silent

def killsNobody (m : State) : Act Label → Bool
  | .step p =>
    match m.ctl p with
    | .run (.kkill _) | .kkillAt _ _ _ _ => false
    | _ => true
  | _ => true

/-! ## The view of an updated state -/

section Update

variable (id : SemId) (m : State) (p : Slot)

theorem view_phase : (view id m).phase p = phaseOf id (m.proc p).state (m.ctl p) := rfl

@[simp] theorem view_count : (view id m).count = (m.shared.semTable id).count := rfl
@[simp] theorem view_active : (view id m).active = (m.shared.semTable id).active := rfl
@[simp] theorem view_inc : (view id m).inc = (m.shared.semTable id).inc := rfl
@[simp] theorem view_lock : (view id m).lock = m.lock (.sem id) := rfl
@[simp] theorem view_table : (view id m).table = m.lock .table := rfl

@[simp] theorem phaseOf_run (st : ProcState) (l : Label) :
    phaseOf id st (.run l) = labelPhase id l := rfl

@[simp] theorem onOp_self (o : Op) (ph other : Phase) : onOp o.id o ph other = ph := by simp [onOp]

@[simp] theorem view_goto (c : Ctl Lk SemId Label) :
    view id (m.goto p c) = (view id m).to p (phaseOf id (m.proc p).state c) := by
  simp only [view, View.to, goto_shared, goto_lock, goto_proc, goto_ctl, View.mk.injEq, true_and]
  funext q
  by_cases hq : q = p
  · subst hq
    simp
  · simp [hq]

@[simp] theorem view_setProc (r : Proc SemId) :
    view id (m.setProc p r) = (view id m).to p (phaseOf id r.state (m.ctl p)) := by
  simp only [view, View.to, setProc_shared, setProc_lock, setProc_proc, setProc_ctl, View.mk.injEq,
    true_and]
  funext q
  by_cases hq : q = p
  · subst hq
    simp
  · simp [hq]

@[simp] theorem view_setState (st : ProcState) :
    view id (m.setState p st) = (view id m).to p (phaseOf id st (m.ctl p)) := view_setProc id m p _

theorem view_setLock_sem (h : Option Slot) :
    view id (m.setLock (.sem id) h) = { view id m with lock := h } := by simp [view]

theorem view_setLock_table (h : Option Slot) :
    view id (m.setLock .table h) = { view id m with table := h } := by simp [view]

theorem view_setLock_of_ne {i : SemId} (hi : i ≠ id) (h : Option Slot) :
    view id (m.setLock (.sem i) h) = view id m := by simp [view, hi.symm]

theorem view_setSem (x : Sem) :
    view id { m with shared := m.shared.setSem id x } =
      { view id m with count := x.count, active := x.active, inc := x.inc } := by
  simp [view, Shared.setSem]

theorem view_setSem_of_ne {i : SemId} (hi : i ≠ id) (x : Sem) :
    view id { m with shared := m.shared.setSem i x } = view id m := by
  simp [view, Shared.setSem, hi.symm]

@[simp] theorem view_semRecordEvent (o : Op) (me : Proc SemId) (type : SemEventType) :
    view id { m with shared := m.shared.semRecordEvent o me type } = view id m := rfl

end Update

/-! ## Where a process can stand -/

section Stands

variable {id : SemId} {m : State} {l : Label}

/-! The calls of `sleep`, `wakeup`, `wakeup_one` and `kkill` come from one label each. -/

theorem instr_eq_sleep {chan : SemId} {lk : Lk} {next : Label} (h : instr l = .sleep chan lk next) :
    ∃ o, l = .semWaitSleep o ∧ chan = o.id ∧ lk = .sem o.id ∧ next = .semWaitAcquired o := by
  cases l with
  | semWaitSleep o =>
    obtain ⟨rfl, rfl, rfl⟩ := Instr.sleep.inj h
    exact ⟨o, rfl, rfl, rfl, rfl⟩
  | _ => cases h

theorem instr_eq_wakeup {chan : SemId} {next : Label} (h : instr l = .wakeup chan next) :
    ∃ o, l = .semFreeWake o ∧ chan = o.id ∧ next = .semFreeActive o := by
  cases l with
  | semFreeWake o =>
    obtain ⟨rfl, rfl⟩ := Instr.wakeup.inj h
    exact ⟨o, rfl, rfl, rfl⟩
  | _ => cases h

theorem instr_eq_wakeupOne {chan : SemId} {next : Label} (h : instr l = .wakeupOne chan next) :
    ∃ o, l = .semSignalWake o ∧ chan = o.id ∧ next = .semSignalRelease o := by
  cases l with
  | semSignalWake o =>
    obtain ⟨rfl, rfl⟩ := Instr.wakeupOne.inj h
    exact ⟨o, rfl, rfl, rfl⟩
  | _ => cases h

theorem instr_eq_kkill {pid : ℤ} {found notFound : Label}
    (h : instr l = .kkill pid found notFound) :
    l = .kkill pid ∧ found = .done 0 ∧ notFound = .done (-1) := by
  cases l with
  | kkill pid' =>
    obtain ⟨rfl, rfl, rfl⟩ := Instr.kkill.inj h
    exact ⟨rfl, rfl, rfl⟩
  | _ => cases h

inductive Stands : Ctl Lk SemId Label → Prop
  | run (l : Label) : Stands (.run l)
  | sleepEnter (o : Op) : Stands (.sleepEnter o.id (.sem o.id) (.semWaitAcquired o))
  | sleepLocked (o : Op) : Stands (.sleepLocked o.id (.sem o.id) (.semWaitAcquired o))
  | sleepReleased (o : Op) : Stands (.sleepReleased o.id (.sem o.id) (.semWaitAcquired o))
  | sched (o : Op) : Stands (.sched o.id (.sem o.id) (.semWaitAcquired o))
  | sleepReturn (o : Op) : Stands (.sleepReturn (.sem o.id) (.semWaitAcquired o))
  | signalWake (o : Op) (i : ℕ) : Stands (.wakeupAt o.id true i (.semSignalRelease o))
  | closeWake (o : Op) (i : ℕ) : Stands (.wakeupAt o.id false i (.semFreeActive o))
  | kkillAt (pid : ℤ) (i : ℕ) : Stands (.kkillAt pid i (.done 0) (.done (-1)))

theorem Stands.of_wf (hwf : Wf code m) (q : Slot) : Stands (m.ctl q) := by
  have hcode := hwf.ctlOk q
  cases hctl : m.ctl q with
  | run l => exact .run l
  | sleepEnter | sleepLocked | sleepReleased | sched =>
    rw [hctl] at hcode
    obtain ⟨l, hl⟩ := hcode
    obtain ⟨o, -, rfl, rfl, rfl⟩ := instr_eq_sleep hl
    constructor
  | sleepReturn =>
    rw [hctl] at hcode
    obtain ⟨l, chan, hl⟩ := hcode
    obtain ⟨o, -, rfl, rfl, rfl⟩ := instr_eq_sleep hl
    constructor
  | wakeupAt chan one i next =>
    rw [hctl] at hcode
    obtain ⟨l, hl⟩ := hcode
    cases one
    · obtain ⟨o, -, rfl, rfl⟩ := instr_eq_wakeup hl
      constructor
    · obtain ⟨o, -, rfl, rfl⟩ := instr_eq_wakeupOne hl
      constructor
  | kkillAt =>
    rw [hctl] at hcode
    obtain ⟨l, hl⟩ := hcode
    obtain ⟨-, rfl, rfl⟩ := instr_eq_kkill hl
    constructor

theorem sleeps_labelPhase (id : SemId) (l : Label) : (labelPhase id l).sleeps = false := by
  cases l <;> dsimp only [labelPhase, onOp] <;> first | rfl | (split <;> rfl)

theorem sleeps_iff (hwf : Wf code m) {q : Slot} : ((view id m).phase q).sleeps = true ↔
      m.SleepingOn id q ∨ commits id (m.ctl q) = true := by
  have hproc := hwf.procOk q
  have hnot : (m.proc q).state ≠ .sleeping → ¬ m.SleepingOn id q := fun h hs => h hs.1
  rw [view_phase]
  generalize hc : m.ctl q = c at hproc
  have hstands : Stands c := hc ▸ Stands.of_wf hwf q
  cases hstands with
  | run l => simp [sleeps_labelPhase, commits, hnot hproc.2.1]
  | sched o =>
    obtain ⟨-, hchan, hst⟩ := hproc
    simp only [phaseOf, onOp, commits, SleepingOn, hchan]
    rcases hst with hst | hst <;> by_cases ho : o.id = id <;> simp [ho, hst, Phase.sleeps]
  | sleepEnter o | sleepLocked o | sleepReleased o =>
    have hns := hnot (by simp [hproc.2])
    by_cases ho : o.id = id <;> simp [phaseOf, onOp, commits, hns, ho, Phase.sleeps]
  | sleepReturn o | signalWake o i | closeWake o i =>
    have hns := hnot (by rcases hproc.2 with h | h <;> simp [h])
    by_cases ho : o.id = id <;> simp [phaseOf, onOp, commits, hns, ho, Phase.sleeps]
  | kkillAt pid i =>
    have hns := hnot (by rcases hproc.2 with h | h <;> simp [h])
    simp [phaseOf, commits, hns, Phase.sleeps]

theorem sleepingOn_iff (hwf : Wf code m) {q : Slot} :
    m.SleepingOn id q ↔ ∃ k, (view id m).phase q = .asleep k := by
  have hproc := hwf.procOk q
  constructor
  · rintro ⟨hst, hchan⟩
    obtain ⟨chan, lk, next, hctl⟩ := hproc.sched_of_sleeping hst
    have hstands := Stands.of_wf hwf q
    rw [hctl] at hproc hstands
    cases hstands with
    | sched o =>
      obtain rfl : o.id = id := Option.some.inj (hproc.2.1.symm.trans hchan)
      exact ⟨o.inc, by simp [view_phase, hctl, phaseOf, hst]⟩
  rintro ⟨k, hk⟩
  have hs : ((view id m).phase q).sleeps = true := by rw [hk]; rfl
  refine ((sleeps_iff hwf).mp hs).resolve_right fun hcom => ?_
  have hstands := Stands.of_wf hwf q
  rw [view_phase] at hk
  generalize m.ctl q = c at hcom hk hstands
  cases hstands with
  | sleepLocked o | sleepReleased o =>
    simp only [phaseOf, onOp] at hk
    split at hk <;> cases hk
  | _ => cases hcom

theorem locked_of_commits (hwf : Wf code m) {q : Slot} (h : commits id (m.ctl q) = true) :
    (m.proc q).locked = true := by
  have hproc := hwf.procOk q
  cases hctl : m.ctl q with
  | sleepLocked | sleepReleased =>
    rw [hctl] at hproc
    exact hproc.1
  | _ => simp [hctl, commits] at h

theorem phaseOf_congr {c : Ctl Lk SemId Label} (hc : ∀ chan lk next, c ≠ .sched chan lk next)
    (st st' : ProcState) : phaseOf id st c = phaseOf id st' c := by
  cases c with
  | sched chan lk next => exact absurd rfl (hc chan lk next)
  | run l => rfl
  | kkillAt pid i found notFound => rfl
  | sleepEnter _ _ next | sleepLocked _ _ next | sleepReleased _ _ next | sleepReturn _ next
  | wakeupAt _ _ _ next => cases next <;> rfl

theorem view_sleepers (hwf : Wf code m) : (view id m).sleepers = m.sleepers id := by
  ext q
  simp [sleeps_iff hwf]

end Stands

end Xv6.Semaphore

import Xv6.Param
import Xv6.Foundations.Transition

/-!
# Kernel threads: `sleep`, `wakeup`, `wakeup_one`, `kkill` and the scheduler

The machine of this file runs one kernel thread per slot of the process table.
-/

namespace Xv6.Thread

open Transition Function

inductive ProcState
  | unused
  | used
  | sleeping
  | runnable
  | running
  | zombie
  deriving DecidableEq

abbrev Slot := Fin NPROC

/-- The fields of `struct proc` that the modelled code reads or writes. -/
structure Proc (C : Type) where
  state : ProcState
  chan : Option C
  killed : Bool
  pid : ℤ
  name : List UInt8
  /-- `p->lock` is held across steps. -/
  locked : Bool

def Proc.free {C : Type} : Proc C :=
  { state := .unused, chan := none, killed := false, pid := 0, name := [], locked := false }

def Proc.forked {C : Type} (pid : ℤ) (name : List UInt8) : Proc C :=
  { Proc.free with state := .runnable, pid := pid, name := name }

inductive Instr (L C σ ℓ : Type)
  /-- Control is with the caller, who picks the next call. -/
  | choose
  | panic (msg : String)
  /-- Statements on the shared data, given `myproc()`, and the label reached. -/
  | exec (f : Proc C → σ → σ × ℓ)
  | acquire (lk : L) (next : ℓ)
  | release (lk : L) (next : ℓ)
  | sleep (chan : C) (lk : L) (next : ℓ)
  | wakeup (chan : C) (next : ℓ)
  | wakeupOne (chan : C) (next : ℓ)
  | kkill (pid : ℤ) (found notFound : ℓ)

/-- The code of a subsystem. -/
structure Code (L C σ ℓ : Type) where
  instr : ℓ → Instr L C σ ℓ
  /-- The label of a process in user space. -/
  user : ℓ
  /-- Which labels the caller may enter at a `choose` label. -/
  entry : ℓ → ℓ → Bool
  /-- No spinlock is held at the label, so that a timer interrupt may preempt there. -/
  intrOn : ℓ → Bool
  /-- The clock interrupt's effect on the shared data. -/
  tick : σ → σ

/-- Where a process stands in the kernel. -/
inductive Ctl (L C ℓ : Type)
  | run (l : ℓ)
  | sleepEnter (chan : C) (lk : L) (next : ℓ)
  | sleepLocked (chan : C) (lk : L) (next : ℓ)
  | sleepReleased (chan : C) (lk : L) (next : ℓ)
  | sched (chan : C) (lk : L) (next : ℓ)
  | sleepReturn (lk : L) (next : ℓ)
  | wakeupAt (chan : C) (one : Bool) (i : ℕ) (next : ℓ)
  | kkillAt (pid : ℤ) (i : ℕ) (found notFound : ℓ)

/-- The state of the machine. -/
structure Machine (L C σ ℓ : Type) where
  shared : σ
  /-- The holder of each spinlock. -/
  lock : L → Option Slot
  proc : Slot → Proc C
  ctl : Slot → Ctl L C ℓ

/-- The moves of the machine. -/
inductive Act (ℓ : Type)
  /-- The process executes its next statement. -/
  | step (p : Slot)
  /-- The process enters the kernel, or the operation it is in makes its next call. -/
  | call (p : Slot) (l : ℓ)
  /-- `scheduler()` picks the process. -/
  | dispatch (p : Slot)
  /-- A timer interrupt makes the process `yield()`. -/
  | preempt (p : Slot)
  /-- `kexit()`, for a process in user space. -/
  | exit (p : Slot)
  /-- `freeproc()` of a zombie. -/
  | reap (p : Slot)
  /-- `kfork()` fills an unused slot. -/
  | fork (p : Slot) (pid : ℤ) (name : List UInt8)
  /-- `clockintr()`. -/
  | tick
  deriving DecidableEq

namespace Machine

variable {L C σ ℓ : Type}

def goto (m : Machine L C σ ℓ) (p : Slot) (c : Ctl L C ℓ) : Machine L C σ ℓ :=
  { m with ctl := update m.ctl p c }

def setProc (m : Machine L C σ ℓ) (p : Slot) (r : Proc C) : Machine L C σ ℓ :=
  { m with proc := update m.proc p r }

def setState (m : Machine L C σ ℓ) (p : Slot) (st : ProcState) : Machine L C σ ℓ :=
  m.setProc p { m.proc p with state := st }

def setLock [DecidableEq L] (m : Machine L C σ ℓ) (lk : L) (h : Option Slot) : Machine L C σ ℓ :=
  { m with lock := update m.lock lk h }

def SleepingOn (m : Machine L C σ ℓ) (chan : C) (p : Slot) : Prop :=
  (m.proc p).state = .sleeping ∧ (m.proc p).chan = some chan

instance [DecidableEq C] (m : Machine L C σ ℓ) (chan : C) (p : Slot) :
    Decidable (m.SleepingOn chan p) :=
  inferInstanceAs (Decidable (_ ∧ _))

def commits [DecidableEq C] (chan : C) : Ctl L C ℓ → Bool
  | .sleepLocked c _ _ => c = chan
  | .sleepReleased c _ _ => c = chan
  | _ => false

def sleepers [DecidableEq C] (m : Machine L C σ ℓ) (chan : C) : Finset Slot :=
  Finset.univ.filter fun p => m.SleepingOn chan p ∨ commits chan (m.ctl p) = true

@[simp] theorem mem_sleepers [DecidableEq C] {m : Machine L C σ ℓ} {chan : C} {p : Slot} :
    p ∈ m.sleepers chan ↔ m.SleepingOn chan p ∨ commits chan (m.ctl p) = true := by simp [sleepers]

section Fields

variable (m : Machine L C σ ℓ) (p : Slot) (c : Ctl L C ℓ) (r : Proc C) (lk : L) (h : Option Slot)

@[simp] theorem goto_shared : (m.goto p c).shared = m.shared := rfl
@[simp] theorem goto_lock : (m.goto p c).lock = m.lock := rfl
@[simp] theorem goto_proc : (m.goto p c).proc = m.proc := rfl
@[simp] theorem goto_ctl : (m.goto p c).ctl = update m.ctl p c := rfl
@[simp] theorem setProc_shared : (m.setProc p r).shared = m.shared := rfl
@[simp] theorem setProc_lock : (m.setProc p r).lock = m.lock := rfl
@[simp] theorem setProc_proc : (m.setProc p r).proc = update m.proc p r := rfl
@[simp] theorem setProc_ctl : (m.setProc p r).ctl = m.ctl := rfl
@[simp] theorem setState_shared (st : ProcState) : (m.setState p st).shared = m.shared := rfl
@[simp] theorem setState_lock (st : ProcState) : (m.setState p st).lock = m.lock := rfl
@[simp] theorem setState_proc (st : ProcState) :
    (m.setState p st).proc = update m.proc p { m.proc p with state := st } := rfl
@[simp] theorem setState_ctl (st : ProcState) : (m.setState p st).ctl = m.ctl := rfl

variable [DecidableEq L]

@[simp] theorem setLock_shared : (m.setLock lk h).shared = m.shared := rfl
@[simp] theorem setLock_lock : (m.setLock lk h).lock = update m.lock lk h := rfl
@[simp] theorem setLock_proc : (m.setLock lk h).proc = m.proc := rfl
@[simp] theorem setLock_ctl : (m.setLock lk h).ctl = m.ctl := rfl

end Fields

/-! ## The step function -/

variable [DecidableEq L] [DecidableEq C] [DecidableEq ℓ] (code : Code L C σ ℓ)

def stepInstr (m : Machine L C σ ℓ) (p : Slot) : Instr L C σ ℓ → Option (Machine L C σ ℓ)
  | .choose => none
  | .panic _ => none
  | .exec f =>
    let r := f (m.proc p) m.shared
    some ({ m with shared := r.1 }.goto p (.run r.2))
  | .acquire lk next =>
    if m.lock lk = none then some ((m.setLock lk (some p)).goto p (.run next)) else none
  | .release lk next =>
    if m.lock lk = some p then some ((m.setLock lk none).goto p (.run next)) else none
  | .sleep chan lk next => some (m.goto p (.sleepEnter chan lk next))
  | .wakeup chan next => some (m.goto p (.wakeupAt chan false 0 next))
  | .wakeupOne chan next => some (m.goto p (.wakeupAt chan true 0 next))
  | .kkill pid found notFound => some (m.goto p (.kkillAt pid 0 found notFound))

def stepWakeup (m : Machine L C σ ℓ) (p : Slot) (chan : C) (one : Bool) (i : ℕ) (next : ℓ) :
    Option (Machine L C σ ℓ) :=
  if h : i < NPROC then
    if (⟨i, h⟩ : Slot) = p then some (m.goto p (.wakeupAt chan one (i + 1) next))
    else if (m.proc ⟨i, h⟩).locked then none
    else if m.SleepingOn chan ⟨i, h⟩ then
      some ((m.setState ⟨i, h⟩ .runnable).goto p
        (if one then .run next else .wakeupAt chan one (i + 1) next))
    else some (m.goto p (.wakeupAt chan one (i + 1) next))
  else some (m.goto p (.run next))

def stepKkill (m : Machine L C σ ℓ) (p : Slot) (pid : ℤ) (i : ℕ) (found notFound : ℓ) :
    Option (Machine L C σ ℓ) :=
  if h : i < NPROC then
    if (m.proc ⟨i, h⟩).locked then none
    else if (m.proc ⟨i, h⟩).pid = pid then
      some ((m.setProc ⟨i, h⟩ { m.proc ⟨i, h⟩ with
        killed := true
        state := if (m.proc ⟨i, h⟩).state = .sleeping then .runnable
          else (m.proc ⟨i, h⟩).state }).goto p (.run found))
    else some (m.goto p (.kkillAt pid (i + 1) found notFound))
  else some (m.goto p (.run notFound))

def stepProc (m : Machine L C σ ℓ) (p : Slot) : Option (Machine L C σ ℓ) :=
  match m.ctl p with
  | .run l => m.stepInstr p (code.instr l)
  | .sleepEnter chan lk next =>
    -- acquire(&p->lock)
    if (m.proc p).locked then none
    else some ((m.setProc p { m.proc p with locked := true }).goto p (.sleepLocked chan lk next))
  | .sleepLocked chan lk next =>
    -- release(lk)
    if m.lock lk = some p then some ((m.setLock lk none).goto p (.sleepReleased chan lk next))
    else none
  | .sleepReleased chan lk next =>
    -- p->chan = chan; p->state = SLEEPING; sched(): the scheduler releases p->lock
    some ((m.setProc p { m.proc p with chan := some chan, state := .sleeping, locked := false }).goto
      p (.sched chan lk next))
  | .sched _ _ _ => none
  | .sleepReturn lk next =>
    if m.lock lk = none then some ((m.setLock lk (some p)).goto p (.run next)) else none
  | .wakeupAt chan one i next => m.stepWakeup p chan one i next
  | .kkillAt pid i found notFound => m.stepKkill p pid i found notFound

def stepDispatch (m : Machine L C σ ℓ) (p : Slot) : Option (Machine L C σ ℓ) :=
  if (m.proc p).state = .runnable ∧ (m.proc p).locked = false then
    match m.ctl p with
    | .sched _ lk next =>
      some ((m.setProc p { m.proc p with chan := none, state := .running }).goto p
        (.sleepReturn lk next))
    | _ => some (m.setState p .running)
  else none

/-- Interrupts are enabled: the process holds no spinlock. -/
def intrOn : Ctl L C ℓ → Bool
  | .run l => code.intrOn l
  | .sleepReturn _ _ => true
  | .wakeupAt _ _ _ next => code.intrOn next
  | .kkillAt _ _ found _ => code.intrOn found
  | _ => false

/-- The label of a process that executes the code of the subsystem. -/
def labelOf : Ctl L C ℓ → Option ℓ
  | .run l => some l
  | _ => none

omit [DecidableEq L] [DecidableEq C] [DecidableEq ℓ] in
theorem eq_run_of_labelOf {c : Ctl L C ℓ} {l : ℓ} (h : labelOf c = some l) : c = .run l := by
  cases c <;> simp_all [labelOf]

def step (m : Machine L C σ ℓ) : Act ℓ → Option (Machine L C σ ℓ)
  | .step p => if (m.proc p).state = .running then m.stepProc code p else none
  | .call p l =>
    match m.ctl p with
    | .run cur =>
      -- usertrap() lets a killed process make no further call
      if (m.proc p).state = .running ∧ code.entry cur l ∧
          (cur = code.user → (m.proc p).killed = false) then
        match code.instr cur with
        | .choose => some (m.goto p (.run l))
        | _ => none
      else none
    | _ => none
  | .dispatch p => m.stepDispatch p
  | .preempt p =>
    if (m.proc p).state = .running ∧ intrOn code (m.ctl p) then some (m.setState p .runnable)
    else none
  | .exit p =>
    if (m.proc p).state = .running ∧ labelOf (m.ctl p) = some code.user then
      some (m.setState p .zombie)
    else none
  | .reap p =>
    if (m.proc p).state = .zombie then some (m.setProc p .free) else none
  | .fork p pid name =>
    if (m.proc p).state = .unused then some (m.setProc p (.forked pid name)) else none
  | .tick => some { m with shared := code.tick m.shared }

end Machine

/-! ## Schedules of concrete runs -/

def spawn {ℓ : Type} (p : Slot) (pid : ℤ) : List (Act ℓ) := [.fork p pid [], .dispatch p]

def steps {ℓ : Type} (p : Slot) (n : ℕ) : List (Act ℓ) := List.replicate n (.step p)

/-- A process enters the kernel and executes `n` statements there. -/
def calls {ℓ : Type} (p : Slot) (l : ℓ) (n : ℕ) : List (Act ℓ) := .call p l :: steps p n

end Xv6.Thread

import Xv6.Proc.Machine

/-!
# The CPUs and the scheduler

The machine of this file runs any number of CPUs over the process table, one statement or lock
operation at a time.
-/

namespace Xv6.Cpus

open Thread Transition Function

/-- The points of a process's kernel code at which it holds no `p->lock`. -/
inductive Point
  | user
  | wakeupAt (one : Bool) (chan : ℕ) (i : ℕ)
  | kkillAt (pid : ℤ) (i : ℕ)
  deriving DecidableEq

/-- What a process continues with when `swtch` in `sched` returns. -/
inductive Resume
  | yield (c : Point)
  | sleep
  | exit
  deriving DecidableEq

/-- Where the kernel code of a process is. -/
inductive PCtl
  | free (c : Point)
  /-- holds the lock of entry `i`, which it is about to look at -/
  | wakeupHeld (one : Bool) (chan : ℕ) (i : Slot)
  | kkillHeld (pid : ℤ) (i : Slot)
  /-- is about to release the lock of entry `i` -/
  | visited (i : Slot) (c : Point)
  /-- holds its own lock and is about to store its new state -/
  | yieldLocked (c : Point)
  | sleepLocked (chan : ℕ)
  | exitLocked
  | sched (r : Resume)
  /-- behind the `swtch` of `sched`, still holding its own lock -/
  | resumed (r : Resume)
  | forkret
  deriving DecidableEq

inductive Mode
  /-- `scheduler` is about to acquire the lock of entry `i` -/
  | scan (i : ℕ)
  /-- `scheduler` holds the lock of entry `i` and is about to test the state -/
  | locked (i : Slot)
  /-- `RUNNING` is stored -/
  | found (i : Slot)
  /-- `c->proc` is stored -/
  | enter (i : Slot)
  /-- the CPU executes the context of process `p` -/
  | exec (p : Slot)
  /-- `scheduler` behind its `swtch` -/
  | back (i : Slot)
  /-- `c->proc` is cleared, or the entry was not `RUNNABLE` -/
  | unlock (i : Slot)
  deriving DecidableEq

structure Machine (K : Type*) where
  state : Slot → ProcState
  chan : Slot → Option ℕ
  pid : Slot → ℤ
  killed : Slot → Bool
  lock : Slot → Option K
  /-- the control point of the process, live or in `p->context` -/
  pctl : Slot → PCtl
  /-- `p->context` is the context of the process, and no CPU executes it -/
  saved : Slot → Bool
  proc : K → Option Slot
  mode : K → Mode
  /-- `c->context`: the entry at which the scheduler of the CPU has switched away -/
  ctx : K → Slot

def boot (K : Type*) : Machine K where
  state p := if p = 0 then .runnable else .unused
  chan _ := none
  pid p := if p = 0 then 1 else 0
  killed _ := false
  lock _ := none
  pctl _ := .forkret
  saved _ := true
  proc _ := none
  mode _ := .scan 0
  ctx _ := 0

/-- The calls of a process in its kernel code. -/
inductive Call
  | sleep (chan : ℕ)
  | wakeup (one : Bool) (chan : ℕ)
  | kkill (pid : ℤ)
  | kexit
  deriving DecidableEq

inductive Act (K : Type*)
  /-- the next statement of the CPU -/
  | step (k : K)
  /-- the process on the CPU calls one of the functions -/
  | call (k : K) (c : Call)
  /-- the process on the CPU calls `yield`, from a timer interrupt or by itself -/
  | yield (k : K)
  /-- `kfork` makes a slot `RUNNABLE` -/
  | fork (p : Slot) (pid : ℤ)
  /-- `kwait` frees the slot of a zombie -/
  | reap (p : Slot)

namespace Machine

variable {K : Type*} [DecidableEq K] (m : Machine K) (k : K)

def goto (c : Mode) : Machine K := { m with mode := update m.mode k c }

def jump (p : Slot) (c : PCtl) : Machine K := { m with pctl := update m.pctl p c }

def setState (p : Slot) (s : ProcState) : Machine K :=
  { m with state := update m.state p s }

def clearChan (p : Slot) : Machine K := { m with chan := update m.chan p none }

def acquire (p : Slot) : Option (Machine K) :=
  if m.lock p = none then some { m with lock := update m.lock p (some k) } else none

def release (p : Slot) : Option (Machine K) :=
  if m.lock p = some k then some { m with lock := update m.lock p none } else none

def stepSched : Mode → Option (Machine K)
  | .scan i =>
    if h : i < NPROC then (m.acquire k ⟨i, h⟩).map (·.goto k (.locked ⟨i, h⟩))
    else some (m.goto k (.scan 0))
  | .locked i =>
    if m.state i = .runnable then some ((m.setState i .running).goto k (.found i))
    else some (m.goto k (.unlock i))
  | .found i => some ({ m with proc := update m.proc k (some i) }.goto k (.enter i))
  | .enter i =>
    -- swtch(&c->context, &p->context)
    some ({ m with
      ctx := update m.ctx k i
      saved := update m.saved i false }.goto k (.exec i))
  | .back i => some ({ m with proc := update m.proc k none }.goto k (.unlock i))
  | .unlock i => (m.release k i).map (·.goto k (.scan (i + 1)))
  | .exec _ => none

def wake (chan : ℕ) (i : Slot) : Machine K :=
  if m.state i = .sleeping ∧ m.chan i = some chan then m.setState i .runnable else m

/-- Where `wakeup` continues; `wakeup_one` stops at the first entry that it wakes. -/
def wakeNext (one : Bool) (chan : ℕ) (i : Slot) : Point :=
  if one ∧ m.state i = .sleeping ∧ m.chan i = some chan then .user
  else .wakeupAt one chan (i + 1)

def kill (i : Slot) : Machine K :=
  let m' := { m with killed := update m.killed i true }
  if m.state i = .sleeping then m'.setState i .runnable else m'

/-- One statement of the kernel code of the process whose context the CPU executes; `p` is that
process and `me` is `myproc()`. -/
def stepProc (p me : Slot) : PCtl → Option (Machine K)
  | .free .user => none
  | .free (.wakeupAt one chan i) =>
    if h : i < NPROC then
      if me = ⟨i, h⟩ then some (m.jump p (.free (.wakeupAt one chan (i + 1))))
      else (m.acquire k ⟨i, h⟩).map (·.jump p (.wakeupHeld one chan ⟨i, h⟩))
    else some (m.jump p (.free .user))
  | .wakeupHeld one chan i =>
    some ((m.wake chan i).jump p (.visited i (m.wakeNext one chan i)))
  | .free (.kkillAt pid i) =>
    if h : i < NPROC then (m.acquire k ⟨i, h⟩).map (·.jump p (.kkillHeld pid ⟨i, h⟩))
    else some (m.jump p (.free .user))
  | .kkillHeld pid i =>
    if m.pid i = pid then some ((m.kill i).jump p (.visited i .user))
    else some (m.jump p (.visited i (.kkillAt pid (i + 1))))
  | .visited i c => (m.release k i).map (·.jump p (.free c))
  | .yieldLocked c => some ((m.setState me .runnable).jump p (.sched (.yield c)))
  | .sleepLocked chan =>
    some (({ m with chan := update m.chan me (some chan) }.setState me .sleeping).jump p
      (.sched .sleep))
  | .exitLocked => some ((m.setState me .zombie).jump p (.sched .exit))
  | .sched r =>
    -- sched() panics unless the lock is held and the state was changed; then
    -- swtch(&p->context, &mycpu()->context)
    if m.lock me = some k ∧ m.state me ≠ .running then
      some (({ m with saved := update m.saved me true }.jump me (.resumed r)).goto k
        (.back (m.ctx k)))
    else none
  | .resumed (.yield c) => (m.release k me).map (·.jump p (.free c))
  | .resumed .sleep => ((m.clearChan me).release k me).map (·.jump p (.free .user))
  -- panic("zombie exit")
  | .resumed .exit => none
  | .forkret => (m.release k me).map (·.jump p (.free .user))

def stepCall (p me : Slot) : Call → Option (Machine K)
  | .sleep chan => (m.acquire k me).map (·.jump p (.sleepLocked chan))
  | .wakeup one chan => some (m.jump p (.free (.wakeupAt one chan 0)))
  | .kkill pid => some (m.jump p (.free (.kkillAt pid 0)))
  | .kexit => (m.acquire k me).map (·.jump p .exitLocked)

def stepYield (p me : Slot) : PCtl → Option (Machine K)
  | .free c => (m.acquire k me).map (·.jump p (.yieldLocked c))
  | _ => none

end Machine

variable {K : Type*} [DecidableEq K]

def step (m : Machine K) : Act K → Option (Machine K)
  | .step k =>
    match m.mode k, m.proc k with
    | .exec p, some me => m.stepProc k p me (m.pctl p)
    | .exec _, none => none
    | c, _ => m.stepSched k c
  | .call k c =>
    match m.mode k, m.proc k with
    | .exec p, some me => if m.pctl p = .free .user then m.stepCall k p me c else none
    | _, _ => none
  | .yield k =>
    match m.mode k, m.proc k with
    | .exec p, some me => m.stepYield k p me (m.pctl p)
    | _, _ => none
  | .fork p pid =>
    if m.state p = .unused ∧ m.lock p = none then
      some { m.setState p .runnable with
        pid := update m.pid p pid
        saved := update m.saved p true
        pctl := update m.pctl p .forkret }
    else none
  | .reap p =>
    if m.state p = .zombie ∧ m.lock p = none then
      some { m.setState p .unused with
        pid := update m.pid p 0
        chan := update m.chan p none
        killed := update m.killed p false }
    else none

end Xv6.Cpus

import Xv6.Proc.Machine
import Xv6.Foundations.Mutex

/-!
# The life of a process: `kfork`, `kexec`, `kexit`, `kwait` and `kkill`

Every entry of the process table carries the fields that these functions read or write, and every
process a control point inside them.
-/

namespace Xv6.Life

open Thread Transition Function

/-- What a process can wait for: its own exiting children in `kwait`, or something else. -/
inductive Chan
  | proc (r : Slot)
  | other (n : ℕ)
  deriving DecidableEq

/-- The fields of `struct proc`. -/
structure Proc where
  state : ProcState
  pid : ℤ
  killed : Bool
  xstate : ℤ
  chan : Option Chan
  parent : Option Slot
  sz : ℕ
  pagetable : ℕ
  trapframe : ℕ
  ofile : Fin NOFILE → ℕ
  cwd : ℕ
  /-- `p->lock` is held by the process itself, on its way into the scheduler. -/
  locked : Bool

def Proc.zero : Proc :=
  { state := .unused, pid := 0, killed := false, xstate := 0, chan := none, parent := none, sz := 0,
    pagetable := 0, trapframe := 0, ofile := fun _ => 0, cwd := 0, locked := false }

def Proc.freeproc (r : Proc) : Proc :=
  { r with trapframe := 0, pagetable := 0, sz := 0, pid := 0, parent := none, chan := none,
           killed := false, xstate := 0, state := .unused }

/-- The entry of the child when `kfork` releases `np->lock`: `allocproc`, the size, the open files
and the directory of the parent. -/
def Proc.copied (np parent : Proc) (pid : ℤ) (trapframe pagetable : ℕ) : Proc :=
  { np with
    pid := pid
    state := .used
    trapframe := trapframe
    pagetable := pagetable
    sz := parent.sz
    ofile := fun fd => if parent.ofile fd ≠ 0 then parent.ofile fd else np.ofile fd
    cwd := parent.cwd }

def Proc.kill (r : Proc) : Proc :=
  { r with killed := true, state := if r.state = .sleeping then .runnable else r.state }

/-- Where a process is. -/
inductive Ctl
  /-- in user space, or in kernel code that touches none of the modelled data -/
  | user
  /-- `allocproc` looks at entry `i` -/
  | forkScan (i : ℕ)
  /-- `kfork` is about to acquire `wait_lock` and store `np->parent` -/
  | forkParent (np : Slot) (pid : ℤ)
  /-- `kfork` is about to acquire `np->lock` and store `RUNNABLE` -/
  | forkRun (np : Slot) (pid : ℤ)
  /-- `kexit` closes the files and the current directory -/
  | exitFiles (status : ℤ)
  | exitWait (status : ℤ)
  | exitReparent (status : ℤ) (i : ℕ)
  /-- `wakeup(initproc)`, called for entry `i`, looks at entry `j` -/
  | exitReparentWake (status : ℤ) (i j : ℕ)
  | exitWake (status : ℤ) (parent : Option Slot) (j : ℕ)
  | exitZombie (status : ℤ)
  | exitUnlock (status : ℤ)
  | exitSched (status : ℤ)
  /-- switched out for the last time -/
  | dead (status : ℤ)
  | waitEnter (addr : Bool)
  /-- the scan of `kwait` looks at entry `i` -/
  | waitScan (addr : Bool) (i : ℕ) (havekids : Bool)
  | waitEnd (addr : Bool) (havekids : Bool)
  | waitSleep (addr : Bool)
  | waitSleepLocked (addr : Bool)
  | waitSleepReleased (addr : Bool)
  | waitSched (addr : Bool)
  | waitReturn (addr : Bool)
  | waitUnlock (r : ℤ) (status : Option ℤ)
  | kkillAt (pid : ℤ) (i : ℕ)
  /-- switched out in another `sleep` -/
  | otherSched
  /-- one of the calls returns `r` -/
  | done (r : ℤ)
  deriving DecidableEq

def Ctl.holdsWait : Ctl → Bool
  | .exitReparent .. | .exitReparentWake .. | .exitWake .. | .exitZombie _ | .exitUnlock _ => true
  | .waitScan .. | .waitEnd .. | .waitSleep _ | .waitSleepLocked _ | .waitUnlock .. => true
  | _ => false

/-- The control points of `kexit` after `ZOMBIE` was stored, while the process still has its CPU. -/
def Ctl.leaving : Ctl → Bool
  | .exitUnlock _ | .exitSched _ => true
  | _ => false

structure State where
  proc : Slot → Proc
  waitLock : Option Slot
  ctl : Slot → Ctl
  nextpid : ℤ
  /-- History: since this entry was last allocated, its process has been the target of a `kkill`
  with its pid, or has faulted. -/
  blamed : Slot → Bool

/-- `initproc` is the first entry that `allocproc` hands out. -/
def initproc : Slot := 0

def boot : State where
  proc p := if p = initproc then
      { Proc.zero with state := .runnable, pid := 1, trapframe := 1, pagetable := 2, cwd := 3 }
    else Proc.zero
  waitLock := none
  ctl _ := .user
  nextpid := 2
  blamed _ := false

/-- The system calls of this file. -/
inductive Call
  | kfork
  | kexit (status : ℤ)
  | kwait (addr : Bool)
  | kkill (pid : ℤ)
  deriving DecidableEq

/-- What a step takes from its surroundings. -/
structure Env where
  ok : Bool
  trapframe : ℕ
  pagetable : ℕ

inductive Act
  | step (p : Slot) (e : Env)
  | call (p : Slot) (c : Call)
  /-- the part of `kexec` that installs the new image -/
  | kexec (p : Slot) (sz pagetable : ℕ)
  /-- `setkilled(p)` on a fault of the process itself -/
  | fault (p : Slot)
  /-- `sleep` on another channel, and the `wakeup` of it -/
  | sleepOther (p : Slot) (n : ℕ)
  | wakeOther (p : Slot)
  /-- the scheduler picks a process; `yield` -/
  | dispatch (p : Slot)
  | yield (p : Slot)

namespace State

variable (m : State) (p : Slot)

def goto (c : Ctl) : State := { m with ctl := update m.ctl p c }

def setProc (q : Slot) (r : Proc) : State := { m with proc := update m.proc q r }

def wake (c : Option Chan) (q : Slot) : State :=
  if (m.proc q).state = .sleeping ∧ (m.proc q).chan = c then
    m.setProc q { m.proc q with state := .runnable }
  else m

/-- One iteration of the loop of `wakeup`, executed by `p`, which skips itself. -/
def wakeAt (c : Option Chan) (j : Slot) (next : Ctl) : Option State :=
  if j = p then some (m.goto p next)
  else if (m.proc j).locked then none
  else some ((m.wake c j).goto p next)

/-- `allocproc` at one entry, and the rest of the critical section in `kfork`. -/
def forkAt (e : Env) (np : Slot) (next : Ctl) : Option State :=
  if (m.proc np).locked then none
  else if (m.proc np).state = .unused then
    if e.ok then
      some (({ m with
          nextpid := m.nextpid + 1
          blamed := update m.blamed np false }.setProc np
          ((m.proc np).copied (m.proc p) m.nextpid e.trapframe e.pagetable)).goto np .user
          |>.goto p (.forkParent np m.nextpid))
    else
      some (({ m with nextpid := m.nextpid + 1 }.setProc np (m.proc np).freeproc).goto p
        (.done (-1)))
  else some (m.goto p next)

def waitAt (e : Env) (addr havekids : Bool) (i : ℕ) (pp : Slot) : Option State :=
  if (m.proc pp).parent = some p then
    if (m.proc pp).locked then none
    else if (m.proc pp).state = .zombie then
      if addr ∧ ¬ e.ok then some (m.goto p (.waitUnlock (-1) none))
      else some ((m.setProc pp (m.proc pp).freeproc).goto p
        (.waitUnlock (m.proc pp).pid (if addr then some (m.proc pp).xstate else none)))
    else some (m.goto p (.waitScan addr (i + 1) true))
  else some (m.goto p (.waitScan addr (i + 1) havekids))

def kkillAt (pid : ℤ) (i : ℕ) (q : Slot) : Option State :=
  if (m.proc q).locked then none
  else if (m.proc q).pid = pid then
    some (({ m with blamed := update m.blamed q true }.setProc q (m.proc q).kill).goto p
      (.done 0))
  else some (m.goto p (.kkillAt pid (i + 1)))

def acquireWait (next : Ctl) : Option State :=
  if m.waitLock = none then some ({ m with waitLock := some p }.goto p next) else none

def releaseWait (next : Ctl) : Option State :=
  if m.waitLock = some p then some ({ m with waitLock := none }.goto p next) else none

def stepProc (e : Env) : Option State :=
  match m.ctl p with
  | .user | .dead _ | .waitSched _ | .otherSched => none
  | .done _ => some (m.goto p .user)
  -- kfork
  | .forkScan i =>
    if h : i < NPROC then m.forkAt p e ⟨i, h⟩ (.forkScan (i + 1)) else some (m.goto p (.done (-1)))
  | .forkParent np pid =>
    if m.waitLock = none then
      some ((m.setProc np { m.proc np with parent := some p }).goto p (.forkRun np pid))
    else none
  | .forkRun np pid =>
    if (m.proc np).locked then none
    else some ((m.setProc np { m.proc np with state := .runnable }).goto p (.done pid))
  -- kexit
  | .exitFiles status =>
    some ((m.setProc p { m.proc p with ofile := fun _ => 0, cwd := 0 }).goto p (.exitWait status))
  | .exitWait status => m.acquireWait p (.exitReparent status 0)
  | .exitReparent status i =>
    if h : i < NPROC then
      if (m.proc ⟨i, h⟩).parent = some p then
        some ((m.setProc ⟨i, h⟩ { m.proc ⟨i, h⟩ with parent := some initproc }).goto p
          (.exitReparentWake status i 0))
      else some (m.goto p (.exitReparent status (i + 1)))
    else some (m.goto p (.exitWake status (m.proc p).parent 0))
  | .exitReparentWake status i j =>
    if h : j < NPROC then
      m.wakeAt p (some (.proc initproc)) ⟨j, h⟩ (.exitReparentWake status i (j + 1))
    else some (m.goto p (.exitReparent status (i + 1)))
  | .exitWake status c j =>
    if h : j < NPROC then m.wakeAt p (c.map .proc) ⟨j, h⟩ (.exitWake status c (j + 1))
    else some (m.goto p (.exitZombie status))
  | .exitZombie status =>
    if (m.proc p).locked then none
    else some ((m.setProc p { m.proc p with
      xstate := status, state := .zombie, locked := true }).goto p (.exitUnlock status))
  | .exitUnlock status => m.releaseWait p (.exitSched status)
  | .exitSched status =>
    some ((m.setProc p { m.proc p with locked := false }).goto p (.dead status))
  -- kwait
  | .waitEnter addr => m.acquireWait p (.waitScan addr 0 false)
  | .waitScan addr i havekids =>
    if h : i < NPROC then m.waitAt p e addr havekids i ⟨i, h⟩
    else some (m.goto p (.waitEnd addr havekids))
  | .waitEnd addr havekids =>
    if (m.proc p).locked then none
    else if havekids = false ∨ (m.proc p).killed then some (m.goto p (.waitUnlock (-1) none))
    else some (m.goto p (.waitSleep addr))
  | .waitSleep addr =>
    if (m.proc p).locked then none
    else some ((m.setProc p { m.proc p with locked := true }).goto p (.waitSleepLocked addr))
  | .waitSleepLocked addr => m.releaseWait p (.waitSleepReleased addr)
  | .waitSleepReleased addr =>
    some ((m.setProc p { m.proc p with
      chan := some (.proc p), state := .sleeping, locked := false }).goto p (.waitSched addr))
  | .waitReturn addr => m.acquireWait p (.waitScan addr 0 false)
  | .waitUnlock r _ => m.releaseWait p (.done r)
  -- kkill
  | .kkillAt pid i =>
    if h : i < NPROC then m.kkillAt p pid i ⟨i, h⟩ else some (m.goto p (.done (-1)))

end State

def Call.entry : Call → Ctl
  | .kfork => .forkScan 0
  | .kexit status => .exitFiles status
  | .kwait addr => .waitEnter addr
  | .kkill pid => .kkillAt pid 0

/-- Where a process continues when the scheduler switches to it. -/
def Ctl.resume : Ctl → Ctl
  | .waitSched addr => .waitReturn addr
  | .otherSched => .user
  | c => c

/-- The entry of a process that the scheduler switches to; `sleep` clears `p->chan` when it
resumes. -/
def Proc.dispatched (r : Proc) : Ctl → Proc
  | .waitSched _ | .otherSched => { r with state := .running, chan := none }
  | _ => { r with state := .running }

/-- The transitions of the system. -/
def step (m : State) : Act → Option State
  | .step p e =>
    if (m.proc p).state = .running ∨ (m.ctl p).leaving then m.stepProc p e else none
  | .call p c =>
    if (m.proc p).state = .running ∧ m.ctl p = .user then
      match c with
      | .kexit _ => if p = initproc then none else some (m.goto p c.entry)
      | _ => some (m.goto p c.entry)
    else none
  | .kexec p sz pagetable =>
    if (m.proc p).state = .running ∧ m.ctl p = .user then
      some (m.setProc p { m.proc p with sz := sz, pagetable := pagetable })
    else none
  | .fault p =>
    if (m.proc p).state = .running ∧ m.ctl p = .user ∧ (m.proc p).locked = false then
      some ({ m with blamed := update m.blamed p true }.setProc p
        { m.proc p with killed := true })
    else none
  | .sleepOther p n =>
    if (m.proc p).state = .running ∧ m.ctl p = .user ∧ (m.proc p).locked = false then
      some ((m.setProc p { m.proc p with chan := some (.other n), state := .sleeping }).goto p
        .otherSched)
    else none
  | .wakeOther p =>
    if m.ctl p = .otherSched ∧ (m.proc p).locked = false ∧ (m.proc p).state = .sleeping then
      some (m.setProc p { m.proc p with state := .runnable })
    else none
  | .dispatch p =>
    if (m.proc p).state = .runnable ∧ (m.proc p).locked = false then
      some ((m.setProc p ((m.proc p).dispatched (m.ctl p))).goto p (m.ctl p).resume)
    else none
  | .yield p =>
    if (m.proc p).state = .running ∧ (m.proc p).locked = false ∧ (m.ctl p).holdsWait = false then
      some (m.setProc p { m.proc p with state := .runnable })
    else none

def steps (p : Slot) (n : ℕ) : List Act :=
  List.replicate n (.step p { ok := true, trapframe := 1, pagetable := 2 })

end Xv6.Life

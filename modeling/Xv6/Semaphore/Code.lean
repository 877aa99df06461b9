import Xv6.Proc.Steps

/-!
# The semaphore system calls

The code of `semaphore.c`, of the semaphore table in `proc.c` and of the semaphore system calls in
`sysproc.c`, as a program of the thread machine.
-/

namespace Xv6.Semaphore

open Thread

abbrev SemId := Fin NSEM

inductive SemEventType
  | wait
  | acquire
  | release
  deriving DecidableEq

/-- `struct sem_event`. -/
structure SemEvent where
  semId : ℤ
  pid : ℤ
  ticks : ℕ
  type : SemEventType
  pname : List UInt8
  /-- The incarnation of the call that recorded the event. -/
  inc : ℕ
  deriving DecidableEq

/-- `struct semaphore`, less its lock. -/
structure Sem where
  count : ℤ
  active : Bool
  name : List UInt8
  /-- How often the slot was allocated. -/
  inc : ℕ
  deriving DecidableEq

/-- The data the semaphore code shares. -/
structure Shared where
  semTable : SemId → Sem
  semEventLog : ℤ → SemEvent
  semEventIndex : ℤ
  ticks : ℕ

/-- The spinlocks held across steps: `sem_table_lock` and the lock of each slot. -/
inductive Lk
  | table
  | sem (id : SemId)
  deriving DecidableEq

/-- A call on slot `id` that found it active in incarnation `inc`. -/
structure Op where
  id : SemId
  inc : ℕ
  deriving DecidableEq

inductive Label
  | user
  /-- A system call returns `r`. -/
  | done (r : ℤ)
  | sysSemOpen (value : ℤ) (name : List UInt8)
  | semAlloc (value : ℤ) (name : List UInt8)
  | semAllocCount (id : SemId) (value : ℤ) (name : List UInt8)
  | semAllocName (id : SemId) (name : List UInt8)
  | semAllocRelease (r : ℤ)
  | sysSemWait (id : ℤ)
  | semWait (o : Op)
  | semWaitCount (o : Op)
  | semWaitRecord (o : Op)
  | semWaitSleep (o : Op)
  | semWaitAcquired (o : Op)
  | semWaitRelease (o : Op)
  | sysSemSignal (id : ℤ)
  | semSignal (o : Op)
  | semSignalRecord (o : Op)
  | semSignalCount (o : Op)
  | semSignalWake (o : Op)
  | semSignalRelease (o : Op)
  | sysSemClose (id : ℤ)
  | semFree (o : Op)
  | semFreeWake (o : Op)
  | semFreeActive (o : Op)
  | semFreeRelease (o : Op)
  | sysSemGantt (id : ℤ)
  | semGantt (o : Op)
  | kkill (pid : ℤ)
  deriving DecidableEq

/-- `safestrcpy(dst, src, n)`: at most `n - 1` characters, up to the first NUL. -/
def safestrcpy (src : List UInt8) (n : ℕ) : List UInt8 := (src.takeWhile (· ≠ 0)).take (n - 1)

namespace Shared

def setSem (s : Shared) (id : SemId) (x : Sem) : Shared :=
  { s with semTable := Function.update s.semTable id x }

def checked (s : Shared) (id : ℤ) : Option Op :=
  if h : 0 ≤ id ∧ id < NSEM then
    if (s.semTable ⟨id.toNat, by omega⟩).active then
      some ⟨⟨id.toNat, by omega⟩, (s.semTable ⟨id.toNat, by omega⟩).inc⟩
    else none
  else none

def firstInactive (s : Shared) : Option SemId :=
  (List.finRange NSEM).find? fun i => !(s.semTable i).active

def semRecordEvent (s : Shared) (o : Op) (me : Proc SemId) (type : SemEventType) : Shared :=
  let idx := s.semEventIndex.tmod SEM_EVENT_LOG_SIZE
  let e : SemEvent :=
    { semId := o.id.val, pid := me.pid, ticks := s.ticks, type := type
      pname := safestrcpy me.name 16, inc := o.inc }
  { s with
    semEventLog := Function.update s.semEventLog idx e
    semEventIndex := int32 (s.semEventIndex + 1) }

def ganttStart (s : Shared) : ℤ :=
  if s.semEventIndex > SEM_EVENT_LOG_SIZE then s.semEventIndex - SEM_EVENT_LOG_SIZE else 0

def ganttTotal (s : Shared) : ℤ :=
  if s.semEventIndex > SEM_EVENT_LOG_SIZE then SEM_EVENT_LOG_SIZE else s.semEventIndex

/-- The entries of the ring that `sem_gantt` looks at, in order. -/
def ganttWindow (s : Shared) : List SemEvent :=
  (List.range s.ganttTotal.toNat).map fun i : ℕ =>
    s.semEventLog ((s.ganttStart + i).tmod SEM_EVENT_LOG_SIZE)

/-- The array `events` that `sem_gantt` collects: the loop ends at the end of the window or at the
`MAX_GANTT_EVENTS`-th event of the semaphore. -/
def ganttEvents (s : Shared) (id : ℤ) : List SemEvent :=
  (s.ganttWindow.filter fun e => e.semId = id).take MAX_GANTT_EVENTS

end Shared

def instr : Label → Instr Lk SemId Shared Label
  | .user => .choose
  | .done _ => .exec fun _ s => (s, .user)
  -- sys_sem_open: return sem_alloc(value, name)
  | .sysSemOpen value name => .acquire .table (.semAlloc value name)
  | .semAlloc value name => .exec fun _ s =>
    match s.firstInactive with
    | none => (s, .semAllocRelease (-1))
    | some i =>
      (s.setSem i { s.semTable i with active := true, inc := (s.semTable i).inc + 1 },
        .semAllocCount i value name)
  | .semAllocCount i value name => .exec fun _ s =>
    (s.setSem i { s.semTable i with count := value }, .semAllocName i name)
  | .semAllocName i name => .exec fun _ s =>
    (s.setSem i { s.semTable i with name := safestrcpy name 16 }, .semAllocRelease i.val)
  | .semAllocRelease r => .release .table (.done r)
  -- sys_sem_wait
  | .sysSemWait id => .exec fun _ s =>
    match s.checked id with
    | none => (s, .done (-1))
    | some o => (s, .semWait o)
  | .semWait o => .acquire (.sem o.id) (.semWaitCount o)
  | .semWaitCount o => .exec fun _ s =>
    let x : Sem := { s.semTable o.id with count := int32 ((s.semTable o.id).count - 1) }
    (s.setSem o.id x, if x.count < 0 then .semWaitRecord o else .semWaitAcquired o)
  | .semWaitRecord o => .exec fun me s => (s.semRecordEvent o me .wait, .semWaitSleep o)
  | .semWaitSleep o => .sleep o.id (.sem o.id) (.semWaitAcquired o)
  | .semWaitAcquired o => .exec fun me s => (s.semRecordEvent o me .acquire, .semWaitRelease o)
  | .semWaitRelease o => .release (.sem o.id) (.done 0)
  -- sys_sem_signal
  | .sysSemSignal id => .exec fun _ s =>
    match s.checked id with
    | none => (s, .done (-1))
    | some o => (s, .semSignal o)
  | .semSignal o => .acquire (.sem o.id) (.semSignalRecord o)
  | .semSignalRecord o => .exec fun me s => (s.semRecordEvent o me .release, .semSignalCount o)
  | .semSignalCount o => .exec fun _ s =>
    let x : Sem := { s.semTable o.id with count := int32 ((s.semTable o.id).count + 1) }
    (s.setSem o.id x, if x.count ≤ 0 then .semSignalWake o else .semSignalRelease o)
  | .semSignalWake o => .wakeupOne o.id (.semSignalRelease o)
  | .semSignalRelease o => .release (.sem o.id) (.done 0)
  -- sys_sem_close
  | .sysSemClose id => .exec fun _ s =>
    match s.checked id with
    | none => (s, .done (-1))
    | some o => (s, .semFree o)
  | .semFree o => .acquire .table (.semFreeWake o)
  | .semFreeWake o => .wakeup o.id (.semFreeActive o)
  | .semFreeActive o => .exec fun _ s =>
    (s.setSem o.id { s.semTable o.id with active := false, name := [] }, .semFreeRelease o)
  | .semFreeRelease _ => .release .table (.done 0)
  -- sys_sem_gantt
  | .sysSemGantt id => .exec fun _ s =>
    match s.checked id with
    | none => (s, .done 0)
    | some o => (s, .semGantt o)
  -- the collection under sem_event_lock; its result and the printing are added by printStep
  | .semGantt _ => .exec fun _ s => (s, .done 0)
  -- sys_kill
  | .kkill pid => .kkill pid (.done 0) (.done (-1))

def isInt (x : ℤ) : Bool := INT_MIN ≤ x ∧ x ≤ INT_MAX

/-- The calls a process may make from user space, with any arguments. -/
def entry : Label → Label → Bool
  | .user, .sysSemOpen value _ => isInt value
  | .user, .sysSemWait id => isInt id
  | .user, .sysSemSignal id => isInt id
  | .user, .sysSemClose id => isInt id
  | .user, .sysSemGantt id => isInt id
  | .user, .kkill pid => isInt pid
  | _, _ => false

def intrOn : Label → Bool
  | .user | .done _ | .sysSemOpen _ _ | .sysSemWait _ | .semWait _ | .sysSemSignal _ | .semSignal _
  | .sysSemClose _ | .semFree _ | .sysSemGantt _ | .semGantt _ | .kkill _ => true
  | _ => false

def code : Code Lk SemId Shared Label where
  instr := instr
  user := .user
  entry := entry
  intrOn := intrOn
  tick s := { s with ticks := (s.ticks + 1) % 2 ^ 32 }

abbrev State := Machine Lk SemId Shared Label

abbrev step : State → Act Label → Option State := Machine.step code

def boot : State where
  shared :=
    { semTable := fun _ => { count := 0, active := false, name := [], inc := 0 }
      semEventLog := fun _ =>
        { semId := 0, pid := 0, ticks := 0, type := .wait, pname := [], inc := 0 }
      semEventIndex := 0
      ticks := 0 }
  lock := fun _ => none
  proc := fun _ => .free
  ctl := fun _ => .run .user

end Xv6.Semaphore

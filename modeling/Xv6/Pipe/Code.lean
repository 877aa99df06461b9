import Xv6.Proc.Monitor

/-!
# Pipes

`pipewrite`, `piperead` and `pipeclose` of `pipe.c`, as a program of the thread machine, on one
pipe.
-/

namespace Xv6.Pipe

open Thread

def PIPESIZE : ℕ := 512

/-- What happened to a byte. -/
inductive Event
  | appended (call : ℕ) (b : UInt8)
  | removed (call : ℕ) (b : UInt8)
  deriving DecidableEq

/-- `struct pipe`, less its lock. -/
structure Shared where
  data : ℕ → UInt8
  /-- Number of bytes read, a `uint`. -/
  nread : ℕ
  /-- Number of bytes written, a `uint`. -/
  nwrite : ℕ
  readopen : Bool
  writeopen : Bool
  /-- How often `kfree` was called on the pipe. -/
  kfrees : ℕ
  calls : ℕ
  /-- The history of the bytes. -/
  log : List Event

inductive Chan
  | nread
  | nwrite
  deriving DecidableEq

/-- The local state of a `pipewrite`. -/
structure Write where
  call : ℕ
  /-- The bytes `copyin` finds. -/
  src : List UInt8
  n : ℤ
  i : ℕ
  dirty : Bool
  deriving DecidableEq

/-- The local state of a `piperead`. -/
structure Read where
  call : ℕ
  /-- The number of bytes `copyout` has room for. -/
  room : ℕ
  n : ℤ
  i : ℕ
  deriving DecidableEq

inductive Label
  | user
  | done (r : ℤ) (call : ℕ)
  | pipewrite (src : List UInt8) (n : ℤ)
  | writeLock (w : Write)
  | writeLoop (w : Write)
  | writeOpen (w : Write)
  | writeFull (w : Write)
  | writeWake (w : Write)
  | writeSleep (w : Write)
  | writeCopy (w : Write)
  | writeEnd (w : Write)
  | piperead (room : ℕ) (n : ℤ)
  | readLock (r : Read)
  | readWait (r : Read)
  | readKilled (r : Read)
  | readSleep (r : Read)
  | readLoop (r : Read)
  | readCopy (r : Read)
  | readEnd (i : ℤ) (call : ℕ)
  /-- The lock is released before a call returns `r`. -/
  | unlock (r : ℤ) (call : ℕ)
  | pipeclose (writable : Bool)
  | closeLock (writable : Bool) (call : ℕ)
  | closeSet (writable : Bool) (call : ℕ)
  | closeWake (writable : Bool) (call : ℕ)
  | closeTest (call : ℕ)
  | closeUnlock (call : ℕ)
  | closeFree (call : ℕ)
  | kkill (pid : ℤ)
  | killed
  deriving DecidableEq

namespace Shared

def full (s : Shared) : Bool := s.nwrite = (s.nread + PIPESIZE) % 2 ^ 32

def empty (s : Shared) : Bool := s.nread = s.nwrite

def append (s : Shared) (call : ℕ) (ch : UInt8) : Shared :=
  { s with
    data := Function.update s.data (s.nwrite % PIPESIZE) ch
    nwrite := (s.nwrite + 1) % 2 ^ 32
    log := s.log ++ [.appended call ch] }

def remove (s : Shared) (call : ℕ) (ch : UInt8) : Shared :=
  { s with nread := (s.nread + 1) % 2 ^ 32, log := s.log ++ [.removed call ch] }

def enter (s : Shared) : Shared := { s with calls := s.calls + 1 }

def close (s : Shared) (writable : Bool) : Shared :=
  if writable then { s with writeopen := false } else { s with readopen := false }

end Shared

def instr : Label → Instr Unit Chan Shared Label
  | .user => .choose
  | .done _ _ => .exec fun _ s => (s, .user)
  -- pipewrite
  | .pipewrite src n => .exec fun _ s => (s.enter, .writeLock ⟨s.calls, src, n, 0, false⟩)
  | .writeLock w => .acquire () (.writeLoop { w with dirty := false })
  | .writeLoop w => .exec fun _ s => (s, if (w.i : ℤ) < w.n then .writeOpen w else .writeEnd w)
  | .writeOpen w => .exec fun me s =>
    (s, if s.readopen = false ∨ me.killed then .unlock (-1) w.call else .writeFull w)
  | .writeFull w => .exec fun _ s => (s, if s.full then .writeWake w else .writeCopy w)
  | .writeWake w => .wakeup .nread (.writeSleep w)
  | .writeSleep w => .sleep .nwrite () (.writeLoop { w with dirty := false })
  | .writeCopy w => .exec fun _ s =>
    match w.src[w.i]? with
    | none => (s, .writeEnd w)
    | some ch => (s.append w.call ch, .writeLoop { w with i := w.i + 1, dirty := true })
  | .writeEnd w => .wakeup .nread (.unlock w.i w.call)
  -- piperead
  | .piperead room n => .exec fun _ s => (s.enter, .readLock ⟨s.calls, room, n, 0⟩)
  | .readLock r => .acquire () (.readWait r)
  | .readWait r => .exec fun _ s => (s, if s.empty ∧ s.writeopen then .readKilled r else .readLoop r)
  | .readKilled r => .exec fun me s => (s, if me.killed then .unlock (-1) r.call else .readSleep r)
  | .readSleep r => .sleep .nread () (.readWait r)
  | .readLoop r => .exec fun _ s =>
    (s, if (r.i : ℤ) < r.n ∧ s.empty = false then .readCopy r else .readEnd r.i r.call)
  | .readCopy r => .exec fun _ s =>
    let ch := s.data (s.nread % PIPESIZE)
    if r.i < r.room then (s.remove r.call ch, .readLoop { r with i := r.i + 1 })
    else (s, .readEnd (if r.i = 0 then -1 else r.i) r.call)
  | .readEnd i call => .wakeup .nwrite (.unlock i call)
  | .unlock r call => .release () (.done r call)
  -- pipeclose
  | .pipeclose writable => .exec fun _ s => (s.enter, .closeLock writable s.calls)
  | .closeLock writable call => .acquire () (.closeSet writable call)
  | .closeSet writable call => .exec fun _ s => (s.close writable, .closeWake writable call)
  | .closeWake writable call => .wakeup (if writable then .nread else .nwrite) (.closeTest call)
  | .closeTest call => .exec fun _ s =>
    (s, if s.readopen = false ∧ s.writeopen = false then .closeUnlock call else .unlock 0 call)
  | .closeUnlock call => .release () (.closeFree call)
  | .closeFree call => .exec fun _ s => ({ s with kfrees := s.kfrees + 1 }, .done 0 call)
  -- sys_kill
  | .kkill pid => .kkill pid .killed .killed
  | .killed => .exec fun _ s => (s, .user)

def entry : Label → Label → Bool
  | .user, .pipewrite _ _ | .user, .piperead _ _ | .user, .pipeclose _ | .user, .kkill _ => true
  | _, _ => false

def holds : Label → Bool
  | .writeLoop _ | .writeOpen _ | .writeFull _ | .writeWake _ | .writeSleep _ | .writeCopy _
  | .writeEnd _ | .readWait _ | .readKilled _ | .readSleep _ | .readLoop _ | .readCopy _
  | .readEnd _ _ | .unlock _ _ | .closeSet _ _ | .closeWake _ _ | .closeTest _
  | .closeUnlock _ => true
  | _ => false

def code : Code Unit Chan Shared Label where
  instr := instr
  user := .user
  entry := entry
  intrOn l := !holds l
  tick := id

abbrev State := Machine Unit Chan Shared Label

abbrev step : State → Act Label → Option State := Machine.step code

/-- After `pipealloc`, with no process at work on the pipe. -/
def boot : State where
  shared :=
    { data := fun _ => 0, nread := 0, nwrite := 0, readopen := true, writeopen := true
      kfrees := 0, calls := 0, log := [] }
  lock _ := none
  proc _ := .free
  ctl _ := .run .user

end Xv6.Pipe

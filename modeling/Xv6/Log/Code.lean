import Xv6.Proc.Steps
import Xv6.Log.Commit

/-!
# The logging layer

`begin_op`, `log_write`, `end_op` and `sys_sync` of `log.c` as a program of the thread machine; the
committing process runs the code of `Xv6/Log/Commit.lean`.
-/

namespace Xv6.Log

open Thread

/-- The data of the logging layer: `struct log`, less its lock, and the blocks. -/
structure Shared where
  store : Store
  outstanding : ℤ
  committing : Bool
  ncommit : ℤ

inductive Lk
  | log
  deriving DecidableEq

inductive Chan
  | log
  deriving DecidableEq

inductive Label
  | user
  | panic (msg : String)
  | beginOp
  | beginOpTest
  | beginOpSleep
  | beginOpRelease
  /-- Between `begin_op` and `end_op`. -/
  | inOp
  | logWrite (b : ℕ) (x : Block)
  | logWriteTest (b : ℕ) (x : Block)
  | logWriteRelease
  | endOp
  | endOpTest
  | endOpWake
  | endOpRelease (doCommit : Bool)
  | commit (pt : Point)
  | endOpDone
  | sysSync
  | sysSyncTest
  | sysSyncLoop (n : ℤ)
  | sysSyncSleep (n : ℤ)
  | sysSyncRelease
  | kkill (pid : ℤ)
  deriving DecidableEq

namespace Shared

def full (s : Shared) : Bool :=
  s.store.lh.length + (s.outstanding + 1) * MAXOPBLOCKS > LOGBLOCKS

def enter (s : Shared) : Shared := { s with outstanding := s.outstanding + 1 }

def retire (s : Shared) : Shared := { s with outstanding := s.outstanding - 1 }

def finish (s : Shared) : Shared := { s with committing := false, ncommit := int32 (s.ncommit + 1) }

def busy (s : Shared) : Bool := s.committing || s.outstanding > 0

end Shared

variable (start : ℕ)

def instr : Label → Instr Lk Chan Shared Label
  | .user => .choose
  | .panic msg => .panic msg
  -- begin_op
  | .beginOp => .acquire .log .beginOpTest
  | .beginOpTest => .exec fun _ s =>
    if s.committing then (s, .beginOpSleep)
    else if s.full then (s, .beginOpSleep)
    else (s.enter, .beginOpRelease)
  | .beginOpSleep => .sleep .log .log .beginOpTest
  | .beginOpRelease => .release .log .inOp
  | .inOp => .choose
  -- log_write
  | .logWrite b x => .acquire .log (.logWriteTest b x)
  | .logWriteTest b x => .exec fun _ s =>
    if s.store.lh.length ≥ LOGBLOCKS then (s, .panic "too big a transaction")
    else if s.outstanding < 1 then (s, .panic "log_write outside of trans")
    else ({ s with store := s.store.logWrite b x }, .logWriteRelease)
  | .logWriteRelease => .release .log .inOp
  -- end_op
  | .endOp => .acquire .log .endOpTest
  | .endOpTest => .exec fun _ s =>
    if s.committing then (s.retire, .panic "log.committing")
    else if s.outstanding - 1 = 0 then ({ s.retire with committing := true }, .endOpRelease true)
    else (s.retire, .endOpWake)
  | .endOpWake => .wakeup .log (.endOpRelease false)
  | .endOpRelease true => .release .log (.commit .commit)
  | .endOpRelease false => .release .log .user
  -- commit, and end_op after it
  | .commit .idle => .acquire .log .endOpDone
  | .commit pt => .exec fun _ s =>
    ({ s with store := (advance start s.store pt).1 }, .commit (advance start s.store pt).2)
  | .endOpDone => .exec fun _ s => (s.finish, .endOpWake)
  -- sys_sync
  | .sysSync => .acquire .log .sysSyncTest
  | .sysSyncTest => .exec fun _ s =>
    if s.busy then (s, .sysSyncLoop (int32 (s.ncommit + 1))) else (s, .sysSyncRelease)
  | .sysSyncLoop n => .exec fun _ s =>
    if s.ncommit < n then (s, .sysSyncSleep n) else (s, .sysSyncRelease)
  | .sysSyncSleep n => .sleep .log .log (.sysSyncLoop n)
  | .sysSyncRelease => .release .log .user
  -- sys_kill
  | .kkill pid => .kkill pid .user .user

/-- The calls a process may make: from user space any system call, and inside an operation
`log_write` and `end_op`. -/
def entry : Label → Label → Bool
  | .user, .beginOp => true
  | .user, .sysSync => true
  | .user, .kkill _ => true
  | .inOp, .logWrite _ _ => true
  | .inOp, .endOp => true
  | _, _ => false

def intrOn : Label → Bool
  | .user | .beginOp | .inOp | .logWrite _ _ | .endOp | .commit _ | .sysSync | .kkill _ => true
  | _ => false

def code : Code Lk Chan Shared Label where
  instr := instr start
  user := .user
  entry := entry
  intrOn := intrOn
  tick s := s

abbrev State := Machine Lk Chan Shared Label

abbrev step : State → Act Label → Option State := Machine.step (code start)

/-- After `initlog` has recovered the disk `d`, before the first process makes a call. -/
def boot (d : ℕ → Block) : State where
  shared := { store := .boot d, outstanding := 0, committing := false, ncommit := 0 }
  lock := fun _ => none
  proc := fun _ => .free
  ctl := fun _ => .run .user

end Xv6.Log

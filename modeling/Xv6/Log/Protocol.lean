import Xv6.Log.Code
import Xv6.Foundations.Mutex

/-!
# The protocol of group commit

What the processes do to the log, with the machine left out: the shared data, the holder of
`log.lock`, and for each process the phase of the call it is in.
-/

namespace Xv6.Log

open Thread Mutex Function

inductive Wait
  /-- `begin_op` waits for log space, or for the end of a commit. -/
  | space
  /-- `sys_sync` waits for `log.ncommit` to reach `n`. -/
  | commit (n : ℤ)
  deriving DecidableEq

inductive Phase
  | out
  /-- `begin_op`, holding `log.lock`, before its tests. -/
  | beginIn
  /-- `begin_op` has admitted the operation and is about to release `log.lock`. -/
  | beginOut
  /-- In an operation. -/
  | op
  /-- `log_write(b)`, holding `log.lock`, before its tests. -/
  | logIn (b : ℕ) (x : Block)
  | logOut
  /-- `end_op`, before it acquires `log.lock`. -/
  | ending
  /-- `end_op`, holding `log.lock`, before `log.outstanding -= 1`. -/
  | endIn
  /-- `end_op` in `wakeup(&log)`, at entry `i` of the process table. -/
  | wake (i : ℕ)
  /-- `end_op` is about to release `log.lock`. -/
  | endOut (doCommit : Bool)
  /-- `commit`, without `log.lock`; at `Point.idle` it has returned. -/
  | committing (pt : Point)
  /-- `end_op` after `commit`, holding `log.lock`. -/
  | commitIn
  /-- `sys_sync`, before it acquires `log.lock`. -/
  | syncCall
  /-- `sys_sync`, holding `log.lock`, before its test. -/
  | syncIn
  /-- `sys_sync`, holding `log.lock`, at the test of its loop. -/
  | syncLoop (n : ℤ)
  /-- `sys_sync` is about to release `log.lock` and return. -/
  | syncOut
  /-- About to `sleep`, holding `log.lock`. -/
  | drowsy (w : Wait)
  /-- `SLEEPING`, or committed to it under `p->lock` with `log.lock` released. -/
  | asleep (w : Wait)
  /-- In `sleep`, no longer `SLEEPING`, before it reacquires `log.lock`. -/
  | woken (w : Wait)
  | panicked (msg : String)
  deriving DecidableEq

namespace Phase

def locks : Phase → Bool
  | beginIn | beginOut | logIn _ _ | logOut | endIn | wake _ | endOut _ | commitIn | syncIn
  | syncLoop _ | syncOut | drowsy _ | panicked _ => true
  | _ => false

/-- The process is in an operation: `log.outstanding` counts it. -/
def inOp : Phase → Bool
  | beginOut | op | logIn _ _ | logOut | ending | endIn => true
  | panicked msg => msg ≠ "log.committing"
  | _ => false

/-- The process is the one that commits: it has set `log.committing` and not cleared it yet. -/
def commits : Phase → Bool
  | endOut true | committing _ | commitIn => true
  | _ => false

/-- The process is `SLEEPING` on `&log`, or has committed to it under `p->lock`. -/
def sleeps : Phase → Bool
  | asleep _ => true
  | _ => false

def point : Phase → Point
  | endOut true => .commit
  | committing pt => pt
  | _ => .idle

end Phase

def Wait.resume : Wait → Phase
  | space => .beginIn
  | commit n => .syncLoop n

structure View where
  shared : Shared
  lock : Option Slot
  phase : Slot → Phase

namespace View

def go (v : View) (p : Slot) (ph : Phase) : View :=
  { v with phase := update v.phase p ph }

def share (v : View) (s : Shared) : View := { v with shared := s }

def hold (v : View) (h : Option Slot) : View := { v with lock := h }

section Fields

variable (v : View) (p : Slot) (ph : Phase) (s : Shared) (h : Option Slot)

@[simp] theorem go_shared : (v.go p ph).shared = v.shared := rfl
@[simp] theorem go_lock : (v.go p ph).lock = v.lock := rfl
@[simp] theorem go_phase : (v.go p ph).phase = update v.phase p ph := rfl
@[simp] theorem share_shared : (v.share s).shared = s := rfl
@[simp] theorem share_lock : (v.share s).lock = v.lock := rfl
@[simp] theorem share_phase : (v.share s).phase = v.phase := rfl
@[simp] theorem hold_shared : (v.hold h).shared = v.shared := rfl
@[simp] theorem hold_lock : (v.hold h).lock = h := rfl
@[simp] theorem hold_phase : (v.hold h).phase = v.phase := rfl

end Fields

theorem go_self {v : View} {p : Slot} {ph : Phase} (h : v.phase p = ph) : v.go p ph = v := by
  simp [View.go, ← h]

end View

inductive LogEvent
  | silent
  /-- `begin_op` of `p` admitted its operation. -/
  | begun (p : Slot)
  /-- `log_write(b)` of `p` recorded the block. -/
  | logged (p : Slot) (b : ℕ) (x : Block)
  /-- `log_write(b)` of `p` panics. -/
  | refused (p : Slot) (b : ℕ)
  /-- `end_op` of `p` took its operation off `log.outstanding`. -/
  | ended (p : Slot)
  | advanced (pt : Point)
  /-- `end_op` cleared `log.committing` and counted the commit. -/
  | finished
  | syncCalled (p : Slot)
  | syncReturned (p : Slot)
  deriving DecidableEq

variable (start : ℕ)

inductive LogStep (v : View) : LogEvent → View → Prop
  /-- The log and its processes are left alone. -/
  | stutter : LogStep v .silent v
  -- begin_op
  | beginAcquire {p} (hp : v.phase p = .out) (hlock : v.lock = none) :
      LogStep v .silent ((v.hold (some p)).go p .beginIn)
  | beginWait {p} (hp : v.phase p = .beginIn)
      (hwait : v.shared.committing = true ∨ v.shared.full = true) :
      LogStep v .silent (v.go p (.drowsy .space))
  | beginPass {p} (hp : v.phase p = .beginIn) (hcom : v.shared.committing = false)
      (hroom : v.shared.full = false) :
      LogStep v (.begun p) ((v.share v.shared.enter).go p .beginOut)
  | beginRelease {p} (hp : v.phase p = .beginOut) (hlock : v.lock = some p) :
      LogStep v .silent ((v.hold none).go p .op)
  -- log_write
  | logAcquire {p b x} (hp : v.phase p = .op) (hlock : v.lock = none) :
      LogStep v .silent ((v.hold (some p)).go p (.logIn b x))
  | logRecord {p b x} (hp : v.phase p = .logIn b x) (hroom : v.shared.store.lh.length < LOGBLOCKS)
      (hop : 1 ≤ v.shared.outstanding) :
      LogStep v (.logged p b x)
        ((v.share { v.shared with store := v.shared.store.logWrite b x }).go p .logOut)
  | logBig {p b x} (hp : v.phase p = .logIn b x) (hbig : LOGBLOCKS ≤ v.shared.store.lh.length) :
      LogStep v (.refused p b) (v.go p (.panicked "too big a transaction"))
  | logOutside {p b x} (hp : v.phase p = .logIn b x)
      (hop : v.shared.outstanding < 1) :
      LogStep v (.refused p b) (v.go p (.panicked "log_write outside of trans"))
  | logRelease {p} (hp : v.phase p = .logOut) (hlock : v.lock = some p) :
      LogStep v .silent ((v.hold none).go p .op)
  -- end_op
  | endCall {p} (hp : v.phase p = .op) : LogStep v .silent (v.go p .ending)
  | endAcquire {p} (hp : v.phase p = .ending) (hlock : v.lock = none) :
      LogStep v .silent ((v.hold (some p)).go p .endIn)
  | endPanic {p} (hp : v.phase p = .endIn) (hcom : v.shared.committing = true) :
      LogStep v (.ended p) ((v.share v.shared.retire).go p (.panicked "log.committing"))
  | endLast {p} (hp : v.phase p = .endIn) (hcom : v.shared.committing = false)
      (hlast : v.shared.outstanding - 1 = 0) :
      LogStep v (.ended p)
        ((v.share { v.shared.retire with committing := true }).go p (.endOut true))
  | endOther {p} (hp : v.phase p = .endIn) (hcom : v.shared.committing = false)
      (hmore : v.shared.outstanding - 1 ≠ 0) :
      LogStep v (.ended p) ((v.share v.shared.retire).go p (.wake 0))
  | wakeSkip {p} {i : ℕ} (hp : v.phase p = .wake i) (hi : i < NPROC)
      (hskip : (v.phase ⟨i, hi⟩).sleeps = false) : LogStep v .silent (v.go p (.wake (i + 1)))
  | wakeHit {p q w} (hp : v.phase p = .wake q.val) (hne : q ≠ p) (hq : v.phase q = .asleep w) :
      LogStep v .silent ((v.go q (.woken w)).go p (.wake (q.val + 1)))
  | wakeEnd {p} {i : ℕ} (hp : v.phase p = .wake i) (hi : NPROC ≤ i) :
      LogStep v .silent (v.go p (.endOut false))
  | endReturn {p} (hp : v.phase p = .endOut false) (hlock : v.lock = some p) :
      LogStep v .silent ((v.hold none).go p .out)
  | commitCall {p} (hp : v.phase p = .endOut true) (hlock : v.lock = some p) :
      LogStep v .silent ((v.hold none).go p (.committing .commit))
  | commitAdvance {p pt} (hp : v.phase p = .committing pt) (hpt : pt ≠ .idle) :
      LogStep v (.advanced pt)
        ((v.share { v.shared with store := (advance start v.shared.store pt).1 }).go p
          (.committing (advance start v.shared.store pt).2))
  | commitAcquire {p} (hp : v.phase p = .committing .idle) (hlock : v.lock = none) :
      LogStep v .silent ((v.hold (some p)).go p .commitIn)
  | commitFinish {p} (hp : v.phase p = .commitIn) :
      LogStep v .finished ((v.share v.shared.finish).go p (.wake 0))
  -- sys_sync
  | syncEnter {p} (hp : v.phase p = .out) : LogStep v (.syncCalled p) (v.go p .syncCall)
  | syncAcquire {p} (hp : v.phase p = .syncCall) (hlock : v.lock = none) :
      LogStep v .silent ((v.hold (some p)).go p .syncIn)
  | syncIdle {p} (hp : v.phase p = .syncIn) (hbusy : v.shared.busy = false) :
      LogStep v .silent (v.go p .syncOut)
  | syncBusy {p} (hp : v.phase p = .syncIn) (hbusy : v.shared.busy = true) :
      LogStep v .silent (v.go p (.syncLoop (int32 (v.shared.ncommit + 1))))
  | syncWait {p n} (hp : v.phase p = .syncLoop n) (hn : v.shared.ncommit < n) :
      LogStep v .silent (v.go p (.drowsy (.commit n)))
  | syncDone {p n} (hp : v.phase p = .syncLoop n) (hn : n ≤ v.shared.ncommit) :
      LogStep v .silent (v.go p .syncOut)
  | syncReturn {p} (hp : v.phase p = .syncOut) (hlock : v.lock = some p) :
      LogStep v (.syncReturned p) ((v.hold none).go p .out)
  -- sleep and kkill
  | fall {p w} (hp : v.phase p = .drowsy w) (hlock : v.lock = some p) :
      LogStep v .silent ((v.hold none).go p (.asleep w))
  | kill {q w} (hq : v.phase q = .asleep w) : LogStep v .silent (v.go q (.woken w))
  | relock {p w} (hp : v.phase p = .woken w) (hlock : v.lock = none) :
      LogStep v .silent ((v.hold (some p)).go p w.resume)

/-! ## The lock -/

/-- The holder of `log.lock` is the process in a critical section of it. -/
def Locking (v : View) : Prop := Held v.lock Phase.locks v.phase

namespace Locking

variable {start} {v v' : View} {e : LogEvent} {p q : Slot}

theorem step (h : Locking v) (hs : LogStep start v e v') : Locking v' := by
  cases hs with
  | stutter => exact h
  | beginWait hp _ | beginPass hp _ _ | logRecord hp _ _ | logBig hp _ | logOutside hp _ | endCall hp
  | endPanic hp _ | endLast hp _ _ | endOther hp _ _ | wakeSkip hp _ _ | wakeEnd hp _
  | commitAdvance hp _ | commitFinish hp | syncEnter hp | syncIdle hp _ | syncBusy hp _
  | syncWait hp _ | syncDone hp _ | kill hp => exact Held.stay h (congrArg Phase.locks hp).symm
  | beginAcquire _ hfree | logAcquire _ hfree | endAcquire _ hfree | commitAcquire _ hfree
  | syncAcquire _ hfree => exact Held.acquire h hfree rfl
  | @relock p w _ hfree => exact Held.acquire h hfree (by cases w <;> rfl)
  | beginRelease _ hheld | logRelease _ hheld | endReturn _ hheld | commitCall _ hheld
  | syncReturn _ hheld | fall _ hheld => exact Held.release h hheld rfl
  | @wakeHit p q w hp hne hq =>
    have hwoken : Locking (v.go q (.woken w)) := Held.stay h (congrArg Phase.locks hq).symm
    refine Held.stay hwoken ?_
    rw [View.go_phase, update_of_ne hne.symm, hp]
    rfl

theorem eq_of_locks (h : Locking v) (hp : (v.phase p).locks = true)
    (hq : (v.phase q).locks = true) : q = p := Held.unique h hq hp

end Locking

end Xv6.Log

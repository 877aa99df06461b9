import Xv6.Proc.Monitor

/-!
# The console

`consoleread` and `consoleintr` of `console.c`, as a program of the thread machine.
-/

namespace Xv6.Console

open Thread

def INPUT_BUF_SIZE : ℕ := 128

def ctrl (x : Char) : UInt8 := UInt8.ofNat (x.toNat - '@'.toNat)

def newline : UInt8 := 10

def carriageReturn : UInt8 := 13

def delete : UInt8 := 0x7f

/-- What happened on the console. -/
inductive Event
  | typed (c : UInt8)
  /-- A byte went to a reader; `^D` stands for an end of file. -/
  | handed (c : UInt8)
  /-- A byte was taken, and `either_copyout` failed. -/
  | dropped (c : UInt8)
  deriving DecidableEq

def Event.isTaken : Event → Bool
  | .typed _ => false
  | .handed _ | .dropped _ => true

/-- A call of `consoleread` that returned. -/
structure ReadLog where
  target : ℤ
  ret : ℤ
  bytes : List UInt8
  /-- The number of bytes taken from the buffer before its first one. -/
  pos : ℕ
  deriving DecidableEq

/-- `struct cons`, less its lock. -/
structure Cons where
  buf : ℕ → UInt8
  /-- Read index. -/
  r : ℕ
  /-- Write index. -/
  w : ℕ
  /-- Edit index. -/
  e : ℕ
  trace : List Event
  reads : List ReadLog

/-- The local state of a `consoleread`. -/
structure Read where
  target : ℤ
  n : ℤ
  /-- The number of bytes `either_copyout` has room for. -/
  room : ℕ
  /-- The bytes copied so far. -/
  got : List UInt8
  pos : ℕ
  deriving DecidableEq

def Read.start (n : ℤ) (room : ℕ) : Read := ⟨n, n, room, [], 0⟩

/-- The call found a byte, after `taken` bytes had left the buffer. -/
def Read.found (k : Read) (taken : ℕ) : Read := if k.got = [] then { k with pos := taken } else k

def Read.copied (k : Read) (c : UInt8) : Read := { k with n := k.n - 1, got := k.got ++ [c] }

def Read.log (k : Read) : ReadLog := ⟨k.target, k.target - k.n, k.got, k.pos⟩

def usub (x y : ℕ) : ℕ := (x + 2 ^ 32 - y) % 2 ^ 32

inductive Label
  | user
  /-- A call returns `r`. -/
  | done (r : ℤ)
  | consoleread (n : ℤ) (room : ℕ)
  | readLoop (k : Read)
  | readKilled (k : Read)
  | readSleep (k : Read)
  /-- The lock is released before `consoleread` returns `r`. -/
  | readEnd (r : ℤ)
  | consoleintr (c : UInt8)
  | intrSwitch (c : UInt8)
  | intrWake
  | intrEnd
  | kkill (pid : ℤ)
  deriving DecidableEq

namespace Cons

/-- `cons.r++`, with what became of the byte found there. -/
def next (s : Cons) (ev : Event) : Cons :=
  { s with r := (s.r + 1) % 2 ^ 32, trace := s.trace ++ [ev] }

def finish (s : Cons) (k : Read) : Cons × Label :=
  ({ s with reads := s.reads ++ [k.log] }, .readEnd (k.target - k.n))

def takes (s : Cons) : ℕ := s.trace.countP Event.isTaken

/-- The body of the loop of `consoleread`, once there is a byte in the buffer. -/
def take (s : Cons) (k : Read) : Cons × Label :=
  let c := s.buf (s.r % INPUT_BUF_SIZE)
  let k := k.found s.takes
  if c = ctrl 'D' then
    -- if the caller gets some bytes now, cons.r-- undoes the cons.r++: ^D is for the next time
    if k.n < k.target then s.finish k else (s.next (.handed c)).finish k
  else if k.got.length < k.room then
    if c = newline then (s.next (.handed c)).finish (k.copied c)
    else (s.next (.handed c), .readLoop (k.copied c))
  else (s.next (.dropped c)).finish k

def last (s : Cons) : ℕ := if s.e = 0 then 2 ^ 32 - 1 else s.e - 1

def erase (s : Cons) : Cons := { s with e := s.last }

@[simp] theorem erase_r (s : Cons) : s.erase.r = s.r := rfl

@[simp] theorem erase_w (s : Cons) : s.erase.w = s.w := rfl

@[simp] theorem erase_e (s : Cons) : s.erase.e = s.last := rfl

/-- The loop of `^U`, which runs at most as often as there are characters between `w` and `e`. -/
def killLine : ℕ → Cons → Cons
  | 0, s => s
  | k + 1, s =>
    if s.e ≠ s.w ∧ s.buf (s.last % INPUT_BUF_SIZE) ≠ newline then
      killLine k s.erase
    else s

def used (s : Cons) : ℕ := usub s.e s.r

def store (s : Cons) (c : UInt8) : Cons :=
  { s with
    buf := Function.update s.buf (s.e % INPUT_BUF_SIZE) c
    e := (s.e + 1) % 2 ^ 32 }

def commit (s : Cons) : Cons := { s with w := s.e }

/-- The `switch` of `consoleintr`, and whether it goes on to `wakeup`. -/
def intr (s : Cons) (c : UInt8) : Cons × Bool :=
  if c = ctrl 'P' then (s, false)
  else if c = ctrl 'U' then (s.killLine (usub s.e s.w), false)
  else if c = ctrl 'H' ∨ c = delete then
    (if s.e ≠ s.w then s.erase else s, false)
  else if c ≠ 0 ∧ s.used < INPUT_BUF_SIZE then
    let c := if c = carriageReturn then newline else c
    if c = newline ∨ c = ctrl 'D' ∨ (s.store c).used = INPUT_BUF_SIZE then
      ((s.store c).commit, true)
    else (s.store c, false)
  else (s, false)

def typed (s : Cons) (c : UInt8) : Cons := { s with trace := s.trace ++ [.typed c] }

end Cons

def instr : Label → Instr Unit Unit Cons Label
  | .user => .choose
  | .done _ => .exec fun _ s => (s, .user)
  -- consoleread
  | .consoleread n room => .acquire () (.readLoop (.start n room))
  | .readLoop k => .exec fun _ s =>
    if k.n > 0 then if s.r = s.w then (s, .readKilled k) else s.take k
    else s.finish k
  | .readKilled k => .exec fun me s => (s, if me.killed then .readEnd (-1) else .readSleep k)
  | .readSleep k => .sleep () () (.readLoop k)
  | .readEnd r => .release () (.done r)
  -- consoleintr
  | .consoleintr c => .acquire () (.intrSwitch c)
  | .intrSwitch c => .exec fun _ s =>
    ((s.intr c).1.typed c, if (s.intr c).2 then .intrWake else .intrEnd)
  | .intrWake => .wakeup () .intrEnd
  | .intrEnd => .release () (.done 0)
  -- sys_kill
  | .kkill pid => .kkill pid (.done 0) (.done (-1))

/-- The calls and interrupts that can come when a process is in user space. -/
def entry : Label → Label → Bool
  | .user, .consoleread n _ => INT_MIN ≤ n ∧ n ≤ INT_MAX
  | .user, .consoleintr _ => true
  | .user, .kkill _ => true
  | _, _ => false

def intrOn : Label → Bool
  | .user | .done _ | .consoleread _ _ | .consoleintr _ | .kkill _ => true
  | _ => false

def code : Code Unit Unit Cons Label where
  instr := instr
  user := .user
  entry := entry
  intrOn := intrOn
  tick s := s

abbrev State := Machine Unit Unit Cons Label

abbrev step : State → Act Label → Option State := Machine.step code

def boot : State where
  shared := { buf := fun _ => 0, r := 0, w := 0, e := 0, trace := [], reads := [] }
  lock := fun _ => none
  proc := fun _ => .free
  ctl := fun _ => .run .user

end Xv6.Console

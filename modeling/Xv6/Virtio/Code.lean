import Xv6.Foundations.Transition
import Xv6.Foundations.Window
import Xv6.Param

/-!
# The virtio disk driver

`virtio_disk_rw`, `virtio_disk_intr` and the descriptor allocator of `virtio_disk.c`, with the
device they talk to.
-/

namespace Xv6.Virtio

open Function

def NUM : ℕ := 8

def M16 : ℕ := 2 ^ 16

def VRING_DESC_F_NEXT : ℕ := 1

def VRING_DESC_F_WRITE : ℕ := 2

def VIRTIO_BLK_T_IN : ℕ := 0

def VIRTIO_BLK_T_OUT : ℕ := 1

inductive Addr (β : Type)
  | null
  | ops (i : ℕ)
  | data (b : β)
  | status (i : ℕ)
  deriving DecidableEq

/-- `struct virtq_desc`. -/
structure Desc (β : Type) where
  addr : Addr β
  len : ℕ
  flags : ℕ
  next : ℕ
  deriving DecidableEq

def Desc.hasNext {β : Type} (d : Desc β) : Bool := d.flags &&& VRING_DESC_F_NEXT ≠ 0

def Desc.deviceWrites {β : Type} (d : Desc β) : Bool := d.flags &&& VRING_DESC_F_WRITE ≠ 0

/-- `struct virtio_blk_req`. -/
structure BlkReq where
  type : ℕ
  reserved : ℕ
  sector : ℕ
  deriving DecidableEq

/-- An element of `disk.info`. -/
structure Info (β : Type) where
  b : Option β
  status : ℕ

/-- A ring of descriptor numbers, with the index that its writer moves. -/
structure Queue where
  idx : ℕ
  ring : ℕ → ℕ

/-- What the device does for a request. -/
structure Op (β : Type) where
  write : Bool
  sector : ℕ
  b : β
  deriving DecidableEq

/-- A call of `virtio_disk_rw`, and its number. -/
structure Call (β : Type) where
  b : β
  write : Bool
  blockno : ℕ
  req : ℕ
  deriving DecidableEq

def Call.sector {β : Type} (c : Call β) : ℕ := c.blockno * (BSIZE / 512) % 2 ^ 32

def Call.op {β : Type} (c : Call β) : Op β := ⟨c.write, c.sector, c.b⟩

/-- `idx[3]`. -/
structure Idx where
  i0 : ℕ
  i1 : ℕ
  i2 : ℕ
  deriving DecidableEq

def Idx.list (idx : Idx) : List ℕ := [idx.i0, idx.i1, idx.i2]

/-- Where a caller that has its three descriptors stands. -/
inductive Own
  | format
  /-- Before `disk.avail->ring[disk.avail->idx % NUM] = idx[0]`. -/
  | avail
  /-- Before `disk.avail->idx += 1`. -/
  | bump
  | test
  /-- Asleep on `b`. -/
  | sleep
  /-- In `sleep`, before it takes the lock again. -/
  | woken
  /-- Before `disk.info[idx[0]].b = 0`. -/
  | reclaim
  deriving DecidableEq

/-- Where a thread stands. -/
inductive Pc (β : Type)
  | idle
  -- virtio_disk_rw
  | rwLock (c : Call β)
  | rwAlloc (c : Call β)
  /-- Asleep on `&disk.free[0]`. -/
  | rwSleep (c : Call β)
  | rwWoken (c : Call β)
  | rwOwn (c : Call β) (idx : Idx) (o : Own)
  | rwUnlock (c : Call β)
  -- virtio_disk_intr
  | intrLock
  | intrTest
  | intrBody
  | intrUnlock
  deriving DecidableEq

inductive Chan (β : Type)
  | free
  | buf (b : β)
  deriving DecidableEq

def Pc.wake {β : Type} [DecidableEq β] : Chan β → Pc β → Pc β
  | .free, .rwSleep c => .rwWoken c
  | .buf b, .rwOwn c idx .sleep => if c.b = b then .rwOwn c idx .woken else .rwOwn c idx .sleep
  | _, pc => pc

/-- What can go wrong. -/
inductive Fault
  | panic (msg : String)
  | nullPointer
  /-- `free_chain` comes back to where it was. -/
  | loop
  /-- The device does not find a request in the chain. -/
  | badChain
  deriving DecidableEq

inductive Ev (β : Type)
  /-- The device performs an operation, and writes the status. -/
  | performed (op : Op β)
  /-- The device reports the request in the used ring. -/
  | used
  /-- `virtio_disk_intr` clears `b->disk`. -/
  | cleared (b : β)
  | returned
  deriving DecidableEq

/-- `struct disk`, the threads and the device. -/
structure State (ι β : Type) where
  desc : ℕ → Desc β
  avail : Queue
  used : Queue
  free : ℕ → Bool
  usedIdx : ℕ
  info : ℕ → Info β
  ops : ℕ → BlkReq
  vdiskLock : Option ι
  disk : β → Bool
  bufLock : β → Option ι
  pc : ι → Pc β
  fault : Option Fault
  -- the device
  /-- The device has looked this far in the avail ring. -/
  seen : ℕ
  /-- The requests it has found there and not performed. -/
  working : List ℕ
  performed : List ℕ
  /-- The request it has written to the used ring, before it moves the index. -/
  pushing : Option ℕ
  -- the record
  reqAt : ℕ → ℕ
  called : List (Call β)
  log : List (ℕ × Ev β)

namespace State

variable {ι β : Type} [DecidableEq ι] [DecidableEq β]

def goto (s : State ι β) (p : ι) (pc : Pc β) : State ι β :=
  { s with pc := update s.pc p pc }

def wakeup (s : State ι β) (ch : Chan β) : State ι β :=
  { s with pc := fun p => (s.pc p).wake ch }

def record (s : State ι β) (r : ℕ) (ev : Ev β) : State ι β := { s with log := s.log ++ [(r, ev)] }

/-! ## Descriptors -/

def allocDesc (s : State ι β) : State ι β × Option ℕ :=
  match (List.range NUM).find? s.free with
  | some i => ({ s with free := update s.free i false }, some i)
  | none => (s, none)

def freeDesc (s : State ι β) (i : ℕ) : Except Fault (State ι β) :=
  if NUM ≤ i then .error (.panic "free_desc 1")
  else if s.free i then .error (.panic "free_desc 2")
  else
    .ok <| wakeup { s with
      desc := update s.desc i ⟨.null, 0, 0, 0⟩
      free := update s.free i true } .free

def freeChain : ℕ → State ι β → ℕ → Except Fault (State ι β)
  | 0, _, _ => .error .loop
  | n + 1, s, i => do
    let d := s.desc i
    let s ← s.freeDesc i
    if d.hasNext then freeChain n s d.next else .ok s

def alloc3Loop : ℕ → List ℕ → State ι β → Except Fault (State ι β × Option (List ℕ))
  | 0, idx, s => .ok (s, some idx)
  | k + 1, idx, s =>
    match s.allocDesc with
    | (s, some i) => alloc3Loop k (idx ++ [i]) s
    | (s, none) => do
      let s ← idx.foldlM freeDesc s
      .ok (s, none)

def alloc3Desc (s : State ι β) : Except Fault (State ι β × Option (List ℕ)) := alloc3Loop 3 [] s

/-! ## Reading and writing -/

def format (s : State ι β) (c : Call β) (idx : Idx) : State ι β :=
  { s with
    ops := update s.ops idx.i0
      ⟨if c.write then VIRTIO_BLK_T_OUT else VIRTIO_BLK_T_IN, 0, c.sector⟩
    desc := update (update (update s.desc
      idx.i0 ⟨.ops idx.i0, 16, VRING_DESC_F_NEXT, idx.i1⟩)
      idx.i1 ⟨.data c.b, BSIZE, (if c.write then 0 else VRING_DESC_F_WRITE) ||| VRING_DESC_F_NEXT,
        idx.i2⟩)
      idx.i2 ⟨.status idx.i0, 1, VRING_DESC_F_WRITE, 0⟩
    info := update s.info idx.i0 ⟨some c.b, 0xff⟩
    disk := update s.disk c.b true
    reqAt := update s.reqAt idx.i0 c.req }

def putAvail (s : State ι β) (idx : Idx) : State ι β :=
  { s with avail := ⟨s.avail.idx, update s.avail.ring (s.avail.idx % NUM) idx.i0⟩ }

def bumpAvail (s : State ι β) : State ι β :=
  { s with avail := ⟨(s.avail.idx + 1) % M16, s.avail.ring⟩ }

def clearInfo (s : State ι β) (idx : Idx) : State ι β :=
  { s with info := update s.info idx.i0 ⟨none, (s.info idx.i0).status⟩ }

def clear (s : State ι β) (id : ℕ) (b : β) : State ι β :=
  record (wakeup { s with
    disk := update s.disk b false
    usedIdx := (s.usedIdx + 1) % M16 } (.buf b)) (s.reqAt id) (.cleared b)

def intrBody (s : State ι β) : Except Fault (State ι β) :=
  let id := s.used.ring (s.usedIdx % NUM)
  if (s.info id).status ≠ 0 then .error (.panic "virtio_disk_intr status")
  else
    match (s.info id).b with
    | none => .error .nullPointer
    | some b => .ok (s.clear id b)

def acquire (s : State ι β) (p : ι) (next : Pc β) : Option (State ι β) :=
  if s.vdiskLock = none then some { s.goto p next with vdiskLock := some p } else none

def release (s : State ι β) (p : ι) (next : Pc β) : State ι β :=
  { s.goto p next with vdiskLock := none }

def tryStep {α : Type} (s : State ι β) (r : Except Fault α) (k : α → State ι β) : State ι β :=
  match r with
  | .ok x => k x
  | .error f => { s with fault := some f }

def exec (s : State ι β) (p : ι) : Option (State ι β) :=
  match s.pc p with
  | .idle => none
  -- virtio_disk_rw
  | .rwLock c => s.acquire p (.rwAlloc c)
  | .rwAlloc c => some <| s.tryStep s.alloc3Desc fun
    | (s, some [i, j, k]) => s.goto p (.rwOwn c ⟨i, j, k⟩ .format)
    | (s, _) => s.release p (.rwSleep c)
  | .rwSleep _ => none
  | .rwWoken c => s.acquire p (.rwAlloc c)
  | .rwOwn c idx .format => some ((s.format c idx).goto p (.rwOwn c idx .avail))
  | .rwOwn c idx .avail => some ((s.putAvail idx).goto p (.rwOwn c idx .bump))
  | .rwOwn c idx .bump => some (s.bumpAvail.goto p (.rwOwn c idx .test))
  | .rwOwn c idx .test =>
    if s.disk c.b then some (s.release p (.rwOwn c idx .sleep))
    else some (s.goto p (.rwOwn c idx .reclaim))
  | .rwOwn _ _ .sleep => none
  | .rwOwn c idx .woken => s.acquire p (.rwOwn c idx .test)
  | .rwOwn c idx .reclaim => some <| s.tryStep (freeChain NUM (s.clearInfo idx) idx.i0) fun s =>
    s.goto p (.rwUnlock c)
  | .rwUnlock c => some ((s.record c.req .returned).release p .idle)
  -- virtio_disk_intr
  | .intrLock => s.acquire p .intrTest
  | .intrTest =>
    if s.usedIdx ≠ s.used.idx then some (s.goto p .intrBody) else some (s.goto p .intrUnlock)
  | .intrBody => some <| s.tryStep s.intrBody fun s => s.goto p .intrTest
  | .intrUnlock => some (s.release p .idle)

/-! ## The device -/

/-- The request the device finds in the chain that starts at `h`, and where its status goes. -/
def decode (s : State ι β) (h : ℕ) : Option (Op β × ℕ) :=
  let d0 := s.desc h
  let d1 := s.desc d0.next
  let d2 := s.desc d1.next
  match d0.addr, d1.addr, d2.addr with
  | .ops i, .data b, .status j =>
    let write := decide ((s.ops i).type = VIRTIO_BLK_T_OUT)
    if d0.hasNext ∧ d1.hasNext ∧ ¬d2.hasNext ∧ d1.deviceWrites = !write ∧ d2.deviceWrites then
      some (⟨write, (s.ops i).sector, b⟩, j)
    else none
  | _, _, _ => none

def fetch (s : State ι β) : State ι β :=
  { s with
    seen := (s.seen + 1) % M16
    working := s.working ++ [s.avail.ring (s.seen % NUM)] }

def devFetch (s : State ι β) : Option (State ι β) :=
  if s.seen ≠ s.avail.idx then some s.fetch else none

def perform (s : State ι β) (h : ℕ) (op : Op β) (j : ℕ) : State ι β :=
  record { s with
    working := s.working.erase h
    performed := s.performed ++ [h]
    info := update s.info j ⟨(s.info j).b, 0⟩ } (s.reqAt h) (.performed op)

def devPerform (s : State ι β) (h : ℕ) : Option (State ι β) :=
  if h ∈ s.working then
    match s.decode h with
    | some (op, j) => some (s.perform h op j)
    | none => some { s with fault := some .badChain }
  else none

def push (s : State ι β) (h : ℕ) : State ι β :=
  { s with
    performed := s.performed.erase h
    pushing := some h
    used := ⟨s.used.idx, update s.used.ring (s.used.idx % NUM) h⟩ }

def devPush (s : State ι β) (h : ℕ) : Option (State ι β) :=
  if h ∈ s.performed ∧ s.pushing = none then some (s.push h) else none

/-- The device moves the index of the used ring past the request. -/
def report (s : State ι β) (h : ℕ) : State ι β :=
  record { s with
    pushing := none
    used := ⟨(s.used.idx + 1) % M16, s.used.ring⟩ } (s.reqAt h) .used

def devBump (s : State ι β) : Option (State ι β) := s.pushing.map s.report

end State

/-- The moves of the system. -/
inductive Act (ι β : Type)
  | lockBuf (p : ι) (b : β)
  /-- `releasesleep(&b->lock)`. -/
  | unlockBuf (p : ι) (b : β)
  | call (p : ι) (b : β) (write : Bool) (blockno : ℕ)
  /-- An interrupt of the device, or a late one. -/
  | intr (p : ι)
  /-- The thread executes its next statement. -/
  | step (p : ι)
  /-- `kkill` wakes a process that sleeps. -/
  | kkill (p : ι)
  | devFetch
  | devPerform (h : ℕ)
  | devPush (h : ℕ)
  | devBump

variable {ι β : Type} [DecidableEq ι] [DecidableEq β]

def Pc.rouse : Pc β → Pc β
  | .rwSleep c => .rwWoken c
  | .rwOwn c idx .sleep => .rwOwn c idx .woken
  | pc => pc

def step (s : State ι β) (a : Act ι β) : Option (State ι β) :=
  if s.fault ≠ none then none
  else
    match a with
    | .lockBuf p b =>
      if s.pc p = .idle ∧ s.bufLock b = none then
        some { s with bufLock := update s.bufLock b (some p) }
      else none
    | .unlockBuf p b =>
      if s.pc p = .idle ∧ s.bufLock b = some p then
        some { s with bufLock := update s.bufLock b none }
      else none
    | .call p b write blockno =>
      let c : Call β := ⟨b, write, blockno, s.called.length⟩
      if s.pc p = .idle ∧ s.bufLock b = some p then
        some ({ s with called := s.called ++ [c] }.goto p (.rwLock c))
      else none
    | .intr p => if s.pc p = .idle then some (s.goto p .intrLock) else none
    | .step p => s.exec p
    | .kkill p => some (s.goto p (s.pc p).rouse)
    | .devFetch => s.devFetch
    | .devPerform h => s.devPerform h
    | .devPush h => s.devPush h
    | .devBump => s.devBump

def boot : State ι β where
  desc _ := ⟨.null, 0, 0, 0⟩
  avail := ⟨0, fun _ => 0⟩
  used := ⟨0, fun _ => 0⟩
  free i := i < NUM
  usedIdx := 0
  info _ := ⟨none, 0⟩
  ops _ := ⟨0, 0, 0⟩
  vdiskLock := none
  disk _ := false
  bufLock _ := none
  pc _ := .idle
  fault := none
  seen := 0
  working := []
  performed := []
  pushing := none
  reqAt _ := 0
  called := []
  log := []

end Xv6.Virtio

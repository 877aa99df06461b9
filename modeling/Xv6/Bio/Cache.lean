import Xv6.Proc.Machine
import Xv6.Foundations.Ring
import Xv6.Foundations.Tally

/-!
# The buffer cache

The code of `bio.c`.
-/

namespace Xv6.Bio

open Thread Function Option

abbrev BufId := Fin NBUF

/-- `struct buf`, less its lock and its two links. -/
structure Buf (D : Type) where
  valid : Bool
  dev : ℕ
  blockno : ℕ
  refcnt : ℕ
  data : D

inductive Ctl
  /-- In neither of them. -/
  | idle
  /-- In `bread(dev, blockno)`, waiting for the sleep-lock of the buffer `bget` found. -/
  | getting (b : BufId) (dev blockno : ℕ)
  /-- In `brelse`, after `releasesleep`. -/
  | releasing (b : BufId)
  /-- `panic("bget: no buffers")`. -/
  | noBuffers
  deriving DecidableEq

def Ctl.on (b : BufId) : Ctl → Bool
  | getting c _ _ | releasing c => c = b
  | idle | noBuffers => false

/-- `bcache`, the sleep-locks of its buffers with their holders, the disk, and the processes. -/
structure Cache (D : Type) where
  buf : BufId → Buf D
  links : Links BufId
  lock : BufId → Option Slot
  disk : ℕ → ℕ → D
  ctl : Slot → Ctl

def setBlock {D : Type} (disk : ℕ → ℕ → D) (dev blockno : ℕ) (x : D) : ℕ → ℕ → D :=
  fun d n => if d = dev ∧ n = blockno then x else disk d n

@[simp] theorem setBlock_self {D : Type} (disk : ℕ → ℕ → D) (dev blockno : ℕ) (x : D) :
    setBlock disk dev blockno x dev blockno = x := by simp [setBlock]

theorem setBlock_of_ne {D : Type} (disk : ℕ → ℕ → D) {dev blockno d n : ℕ} (x : D)
    (h : ¬(d = dev ∧ n = blockno)) : setBlock disk dev blockno x d n = disk d n := if_neg h

/-- What a process may do. -/
inductive Act (D : Type)
  | bget (p : Slot) (dev blockno : ℕ)
  /-- The call of `bread` gets its lock and returns. -/
  | bread (p : Slot)
  /-- Change the contents of a buffer. -/
  | modify (p : Slot) (b : BufId) (x : D)
  | bwrite (p : Slot) (b : BufId)
  | brelse (p : Slot) (b : BufId)
  /-- The call of `brelse` drops its reference and returns. -/
  | unref (p : Slot)
  | bpin (p : Slot) (b : BufId)
  | bunpin (p : Slot) (b : BufId)

namespace Cache

variable {D : Type} (m : Cache D)

def setBuf (b : BufId) (x : Buf D) : Cache D := { m with buf := update m.buf b x }

def goto (p : Slot) (c : Ctl) : Cache D := { m with ctl := update m.ctl p c }

@[simp] theorem setBuf_buf_self (b : BufId) (x : Buf D) : (m.setBuf b x).buf b = x := by
  simp [setBuf]

@[simp] theorem setBuf_buf_of_ne {b c : BufId} (h : c ≠ b) (x : Buf D) :
    (m.setBuf b x).buf c = m.buf c := by simp [setBuf, h]

@[simp] theorem setBuf_links (b : BufId) (x : Buf D) : (m.setBuf b x).links = m.links := rfl
@[simp] theorem setBuf_lock (b : BufId) (x : Buf D) : (m.setBuf b x).lock = m.lock := rfl
@[simp] theorem setBuf_disk (b : BufId) (x : Buf D) : (m.setBuf b x).disk = m.disk := rfl
@[simp] theorem setBuf_ctl (b : BufId) (x : Buf D) : (m.setBuf b x).ctl = m.ctl := rfl
@[simp] theorem goto_buf (p : Slot) (c : Ctl) : (m.goto p c).buf = m.buf := rfl
@[simp] theorem goto_links (p : Slot) (c : Ctl) : (m.goto p c).links = m.links := rfl
@[simp] theorem goto_lock (p : Slot) (c : Ctl) : (m.goto p c).lock = m.lock := rfl
@[simp] theorem goto_disk (p : Slot) (c : Ctl) : (m.goto p c).disk = m.disk := rfl

/-- The buffers from `head.next` on, the most recently used first. -/
def forward : List BufId := Links.walk m.links.next NBUF (m.links.next none)

/-- The buffers from `head.prev` on, the least recently used first. -/
def backward : List BufId := Links.walk m.links.prev NBUF (m.links.prev none)

def lookup (dev blockno : ℕ) : Option BufId :=
  m.forward.find? fun b => (m.buf b).dev = dev ∧ (m.buf b).blockno = blockno

def victim : Option BufId := m.backward.find? fun b => (m.buf b).refcnt = 0

def ref (b : BufId) : Cache D :=
  m.setBuf b { m.buf b with refcnt := uint32 ((m.buf b).refcnt + 1) }

def deref (b : BufId) : Cache D :=
  m.setBuf b { m.buf b with refcnt := uint32 ((m.buf b).refcnt - 1) }

theorem setBuf_refcnt (b c : BufId) (r : ℕ) :
    ∃ r', (m.setBuf b { m.buf b with refcnt := r }).buf c = { m.buf c with refcnt := r' } := by
  by_cases hc : c = b
  · subst hc
    exact ⟨r, m.setBuf_buf_self c _⟩
  · exact ⟨(m.buf c).refcnt, m.setBuf_buf_of_ne hc _⟩

def recycle (b : BufId) (dev blockno : ℕ) : Cache D :=
  m.setBuf b { m.buf b with dev := dev, blockno := blockno, valid := false, refcnt := 1 }

def bget (p : Slot) (dev blockno : ℕ) : Cache D :=
  match m.lookup dev blockno with
  | some b => (m.ref b).goto p (.getting b dev blockno)
  | none =>
    match m.victim with
    | some b => (m.recycle b dev blockno).goto p (.getting b dev blockno)
    | none => m.goto p .noBuffers

def fill (b : BufId) : Cache D :=
  if (m.buf b).valid then m
  else m.setBuf b
    { m.buf b with valid := true, data := m.disk (m.buf b).dev (m.buf b).blockno }

def bread (p : Slot) (b : BufId) : Cache D :=
  ({ m with lock := update m.lock b (some p) }.fill b).goto p .idle

theorem bread_eq (p : Slot) (b : BufId) :
    m.bread p b = { m.fill b with lock := update m.lock b (some p) }.goto p .idle := by
  rw [bread, fill, fill]
  split <;> rfl

theorem fill_refcnt (b c : BufId) : ((m.fill b).buf c).refcnt = (m.buf c).refcnt := by
  rw [fill]
  split
  · rfl
  by_cases hc : c = b
  · subst hc
    rw [setBuf_buf_self]
  · rw [setBuf_buf_of_ne _ hc]

theorem fill_eq (b : BufId) : (m.fill b).links = m.links ∧ (m.fill b).lock = m.lock ∧
    (m.fill b).disk = m.disk ∧ (m.fill b).ctl = m.ctl := by
  rw [fill]
  split <;> exact ⟨rfl, rfl, rfl, rfl⟩

def bwrite (b : BufId) : Cache D :=
  { m with disk := setBlock m.disk (m.buf b).dev (m.buf b).blockno (m.buf b).data }

def brelse (p : Slot) (b : BufId) : Cache D :=
  { m with lock := update m.lock b none }.goto p (.releasing b)

def moveToHead (b : BufId) : Cache D := { m with links := (m.links.unlink b).insertFront b }

def unref (p : Slot) (b : BufId) : Cache D :=
  (if ((m.deref b).buf b).refcnt = 0 then (m.deref b).moveToHead b else m.deref b).goto p .idle

def step : Act D → Option (Cache D)
  | .bget p dev blockno => if m.ctl p = .idle then some (m.bget p dev blockno) else none
  | .bread p =>
    match m.ctl p with
    | .getting b _ _ => if m.lock b = none then some (m.bread p b) else none
    | _ => none
  | .modify p b x =>
    if m.ctl p = .idle ∧ m.lock b = some p then some (m.setBuf b { m.buf b with data := x })
    else none
  | .bwrite p b => if m.ctl p = .idle ∧ m.lock b = some p then some (m.bwrite b) else none
  | .brelse p b => if m.ctl p = .idle ∧ m.lock b = some p then some (m.brelse p b) else none
  | .unref p =>
    match m.ctl p with
    | .releasing b => some (m.unref p b)
    | _ => none
  | .bpin p b => if m.ctl p = .idle ∧ m.lock b = some p then some (m.ref b) else none
  | .bunpin p b => if m.ctl p = .idle ∧ m.lock b = some p then some (m.deref b) else none

inductive StepCase : Act D → Cache D → Prop
  | hit {p : Slot} {dev blockno : ℕ} {b : BufId} (hp : m.ctl p = .idle)
      (hb : m.lookup dev blockno = some b) :
      StepCase (.bget p dev blockno) ((m.ref b).goto p (.getting b dev blockno))
  | miss {p : Slot} {dev blockno : ℕ} {b : BufId} (hp : m.ctl p = .idle)
      (hnone : m.lookup dev blockno = none) (hb : m.victim = some b) :
      StepCase (.bget p dev blockno) ((m.recycle b dev blockno).goto p (.getting b dev blockno))
  | noBuffers {p : Slot} {dev blockno : ℕ} (hp : m.ctl p = .idle)
      (hnone : m.lookup dev blockno = none) (hv : m.victim = none) :
      StepCase (.bget p dev blockno) (m.goto p .noBuffers)
  | bread {p : Slot} {b : BufId} {dev blockno : ℕ} (hp : m.ctl p = .getting b dev blockno)
      (hfree : m.lock b = none) : StepCase (.bread p) (m.bread p b)
  | modify {p : Slot} {b : BufId} (x : D) (hp : m.ctl p = .idle) (hlock : m.lock b = some p) :
      StepCase (.modify p b x) (m.setBuf b { m.buf b with data := x })
  | bwrite {p : Slot} {b : BufId} (hp : m.ctl p = .idle) (hlock : m.lock b = some p) :
      StepCase (.bwrite p b) (m.bwrite b)
  | brelse {p : Slot} {b : BufId} (hp : m.ctl p = .idle) (hlock : m.lock b = some p) :
      StepCase (.brelse p b) (m.brelse p b)
  | unref {p : Slot} {b : BufId} (hp : m.ctl p = .releasing b) : StepCase (.unref p) (m.unref p b)
  | bpin {p : Slot} {b : BufId} (hp : m.ctl p = .idle) (hlock : m.lock b = some p) :
      StepCase (.bpin p b) (m.ref b)
  | bunpin {p : Slot} {b : BufId} (hp : m.ctl p = .idle) (hlock : m.lock b = some p) :
      StepCase (.bunpin p b) (m.deref b)

theorem StepCase.of_step {m m' : Cache D} {a : Act D} (hs : m.step a = some m') :
    StepCase m a m' := by
  cases a with
  | bget p dev blockno =>
    simp only [step, ite_none_right_eq_some, some.injEq] at hs
    obtain ⟨hp, rfl⟩ := hs
    rw [bget]
    split
    · exact .hit hp ‹_›
    · split
      · exact .miss hp ‹_› ‹_›
      · exact .noBuffers hp ‹_› ‹_›
  | bread p =>
    simp only [step] at hs
    split at hs
    · simp only [ite_none_right_eq_some, some.injEq] at hs
      obtain ⟨hfree, rfl⟩ := hs
      exact .bread ‹_› hfree
    · cases hs
  | unref p =>
    simp only [step] at hs
    split at hs
    · obtain rfl := some.inj hs
      exact .unref ‹_›
    · cases hs
  | modify p b x =>
    simp only [step, ite_none_right_eq_some, some.injEq] at hs
    obtain ⟨⟨hp, hlock⟩, rfl⟩ := hs
    exact .modify x hp hlock
  | bwrite p b =>
    simp only [step, ite_none_right_eq_some, some.injEq] at hs
    obtain ⟨⟨hp, hlock⟩, rfl⟩ := hs
    exact .bwrite hp hlock
  | brelse p b =>
    simp only [step, ite_none_right_eq_some, some.injEq] at hs
    obtain ⟨⟨hp, hlock⟩, rfl⟩ := hs
    exact .brelse hp hlock
  | bpin p b =>
    simp only [step, ite_none_right_eq_some, some.injEq] at hs
    obtain ⟨⟨hp, hlock⟩, rfl⟩ := hs
    exact .bpin hp hlock
  | bunpin p b =>
    simp only [step, ite_none_right_eq_some, some.injEq] at hs
    obtain ⟨⟨hp, hlock⟩, rfl⟩ := hs
    exact .bunpin hp hlock

/-- The outstanding calls of `bread` for the buffer: the reference each holds is dropped by the last
step of `brelse`. -/
def breads (b : BufId) : ℕ :=
  Tally.tally (Ctl.on b) m.ctl + (m.lock b).isSome.toNat

end Cache

def binit {D : Type} (disk : ℕ → ℕ → D) (zero : D) : Cache D where
  buf _ := { valid := false, dev := 0, blockno := 0, refcnt := 0, data := zero }
  links :=
    (List.finRange NBUF).foldl Links.insertFront { next := fun _ => none, prev := fun _ => none }
  lock _ := none
  disk := disk
  ctl _ := .idle

end Xv6.Bio

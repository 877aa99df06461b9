import Xv6.Proc.Machine
import Xv6.Foundations.Tally
import Xv6.Foundations.Mutex

/-!
# The protocol of one semaphore slot

What the processes do to a single slot of the semaphore table, with everything else left out: its
count, its `active` flag, its lock, `sem_table_lock`, and for each process the phase of the call on
this slot it is in.
-/

namespace Xv6.Semaphore

open Thread Tally Mutex

/-- The phase of a process with respect to one slot. -/
inductive Phase
  | out
  /-- `sem_wait`, before it acquires `sem->lock`. -/
  | waitCall (k : ℕ)
  /-- `sem_wait`, before `sem->count--`. -/
  | waitIn (k : ℕ)
  /-- `sem_wait` found no unit; it still holds `sem->lock`. -/
  | blocking (k : ℕ)
  /-- In `sleep`, holding `p->lock` and `sem->lock`. -/
  | committed (k : ℕ)
  /-- In `sleep`, holding `p->lock`, with `sem->lock` released. -/
  | falling (k : ℕ)
  /-- `SLEEPING`. -/
  | asleep (k : ℕ)
  /-- In `sleep`, no longer `SLEEPING`, before it reacquires `sem->lock`. -/
  | woken (k : ℕ)
  /-- `sem_wait` is about to record that it acquired a unit. -/
  | granted (k : ℕ)
  /-- `sem_wait` is about to release `sem->lock` and return. -/
  | waitOut (k : ℕ)
  | signalCall (k : ℕ)
  /-- `sem_signal`, before `sem->count++`. -/
  | signalIn (k : ℕ)
  /-- `sem_signal` in `wakeup_one`, at entry `i` of the process table. -/
  | signalWake (k i : ℕ)
  /-- `sem_signal` is about to release `sem->lock` and return. -/
  | signalOut (k : ℕ)
  | closeCall (k : ℕ)
  /-- `sem_free` in `wakeup`, at entry `i` of the process table. -/
  | closeWake (k i : ℕ)
  /-- `sem_free`, before `active = 0`. -/
  | closeActive (k : ℕ)
  /-- `sem_free` is about to release `sem_table_lock` and return. -/
  | closeOut (k : ℕ)
  /-- `sem_alloc` has taken the slot and is about to store its count. -/
  | allocCount (value : ℤ)
  /-- The process holds `sem_table_lock` on behalf of another slot, or of none. -/
  | otherTable
  /-- `sem_gantt` is about to collect the events of the slot. -/
  | gantt (k : ℕ)
  deriving DecidableEq

namespace Phase

def locks : Phase → Bool
  | waitIn _ | blocking _ | committed _ | granted _ | waitOut _ | signalIn _ | signalWake _ _
  | signalOut _ => true
  | _ => false

def locksTable : Phase → Bool
  | closeWake _ _ | closeActive _ | closeOut _ | allocCount _ | otherTable => true
  | _ => false

/-- The process took a unit that was not there, and has not been granted one since. -/
def blocked : Phase → Bool
  | blocking _ | committed _ | falling _ | asleep _ => true
  | _ => false

/-- The process is `SLEEPING` on the slot, or has committed to it under `p->lock`. -/
def sleeps : Phase → Bool
  | committed _ | falling _ | asleep _ => true
  | _ => false

/-- The process is in `wakeup_one`, looking for the waiter its signal is owed to. -/
def wakes : Phase → Bool
  | signalWake _ _ => true
  | _ => false

/-- The value of `active` that `sem_table_lock` protects in this phase. -/
def wants : Phase → Option Bool
  | allocCount _ => some true
  | closeOut _ => some false
  | _ => none

end Phase

structure View where
  count : ℤ
  active : Bool
  inc : ℕ
  /-- The holder of `sem->lock`. -/
  lock : Option Slot
  /-- The holder of `sem_table_lock`. -/
  table : Option Slot
  phase : Slot → Phase

/-- The processes asleep on the slot, or committed to it under `p->lock`. -/
def View.sleepers (v : View) : Finset Slot :=
  Finset.univ.filter fun p => (v.phase p).sleeps = true

def View.to (v : View) (p : Slot) (ph : Phase) : View :=
  { v with phase := Function.update v.phase p ph }

theorem View.to_self {v : View} {p : Slot} {ph : Phase} (h : v.phase p = ph) : v.to p ph = v := by
  simp [View.to, ← h]

@[simp] theorem View.to_to (v : View) (p : Slot) (ph ph' : Phase) :
    (v.to p ph).to p ph' = v.to p ph' := by simp [View.to]

@[simp] theorem View.mem_sleepers {v : View} {p : Slot} :
    p ∈ v.sleepers ↔ (v.phase p).sleeps = true := by simp [View.sleepers]

theorem View.sleepers_to {v : View} {p : Slot} {ph : Phase} (h : ph.sleeps = (v.phase p).sleeps) :
    (v.to p ph).sleepers = v.sleepers := by
  ext q
  by_cases hq : q = p
  · subst hq
    simp [View.to, h]
  · simp [View.to, hq]

inductive SlotEvent
  | silent
  | waitChecked (p : Slot)
  | waitLocked (p : Slot)
  | waitCounted (p : Slot) (granted : Bool)
  /-- `sys_sem_wait`, called against incarnation `k`, returns 0. -/
  | waitReturned (k : ℕ)
  /-- `sys_sem_signal` passed its check against incarnation `k`. -/
  | signalChecked (k : ℕ)
  | signalLocked (p : Slot)
  | signalCounted (p : Slot)
  /-- `wakeup_one`, called by the `sem_signal` of `p`, made `q` `RUNNABLE`. -/
  | woke (p q : Slot)
  /-- `sem_signal` released `sem->lock`. -/
  | signalReturned (p : Slot)
  /-- `wakeup`, called by `sem_free`, passed entry `q` without waking it. -/
  | closePassed (q : Slot)
  /-- `wakeup`, called by `sem_free`, made `q` `RUNNABLE`. -/
  | closeWoke (q : Slot)
  /-- `kkill` made `q` `RUNNABLE`. -/
  | killed (q : Slot)
  /-- `sem_free` cleared `active`. -/
  | deactivated
  /-- `sem_free` returned. -/
  | freed
  /-- `sem_alloc` set `active`. -/
  | taken
  /-- `sem_alloc` stored the count. -/
  | opened (value : ℤ)
  deriving DecidableEq

inductive SlotStep (v : View) : SlotEvent → View → Prop
  /-- The slot and its processes are left alone. -/
  | stutter : SlotStep v .silent v
  -- sys_sem_wait
  | waitCheck {p} (hp : v.phase p = .out) (hact : v.active = true) :
      SlotStep v (.waitChecked p) (v.to p (.waitCall v.inc))
  | waitAcquire {p k} (hp : v.phase p = .waitCall k) (hlock : v.lock = none) :
      SlotStep v (.waitLocked p) ({ v with lock := some p }.to p (.waitIn k))
  | waitBlock {p k} (hp : v.phase p = .waitIn k) (hneg : int32 (v.count - 1) < 0) :
      SlotStep v (.waitCounted p false)
        ({ v with count := int32 (v.count - 1) }.to p (.blocking k))
  | waitGrant {p k} (hp : v.phase p = .waitIn k) (hnonneg : 0 ≤ int32 (v.count - 1)) :
      SlotStep v (.waitCounted p true) ({ v with count := int32 (v.count - 1) }.to p (.granted k))
  | commit {p k} (hp : v.phase p = .blocking k) : SlotStep v .silent (v.to p (.committed k))
  | unlock {p k} (hp : v.phase p = .committed k) (hlock : v.lock = some p) :
      SlotStep v .silent ({ v with lock := none }.to p (.falling k))
  | fall {p k} (hp : v.phase p = .falling k) : SlotStep v .silent (v.to p (.asleep k))
  | relock {p k} (hp : v.phase p = .woken k) (hlock : v.lock = none) :
      SlotStep v .silent ({ v with lock := some p }.to p (.granted k))
  | record {p k} (hp : v.phase p = .granted k) : SlotStep v .silent (v.to p (.waitOut k))
  | waitReturn {p k} (hp : v.phase p = .waitOut k) (hlock : v.lock = some p) :
      SlotStep v (.waitReturned k) ({ v with lock := none }.to p .out)
  -- sys_sem_signal
  | signalCheck {p} (hp : v.phase p = .out) (hact : v.active = true) :
      SlotStep v (.signalChecked v.inc) (v.to p (.signalCall v.inc))
  | signalAcquire {p k} (hp : v.phase p = .signalCall k) (hlock : v.lock = none) :
      SlotStep v (.signalLocked p) ({ v with lock := some p }.to p (.signalIn k))
  | signalWakes {p k} (hp : v.phase p = .signalIn k) (hle : int32 (v.count + 1) ≤ 0) :
      SlotStep v (.signalCounted p)
        ({ v with count := int32 (v.count + 1) }.to p (.signalWake k 0))
  | signalFree {p k} (hp : v.phase p = .signalIn k) (hgt : 0 < int32 (v.count + 1)) :
      SlotStep v (.signalCounted p) ({ v with count := int32 (v.count + 1) }.to p (.signalOut k))
  | signalSkip {p k} {i : ℕ} (hp : v.phase p = .signalWake k i) (hi : i < NPROC)
      (hskip : (v.phase ⟨i, hi⟩).sleeps = false) :
      SlotStep v .silent (v.to p (.signalWake k (i + 1)))
  | signalHit {p q k k'} (hp : v.phase p = .signalWake k q.val) (hne : q ≠ p)
      (hq : v.phase q = .asleep k') :
      SlotStep v (.woke p q) ((v.to q (.woken k')).to p (.signalOut k))
  | signalEnd {p k} {i : ℕ} (hp : v.phase p = .signalWake k i) (hi : NPROC ≤ i) :
      SlotStep v .silent (v.to p (.signalOut k))
  | signalReturn {p k} (hp : v.phase p = .signalOut k) (hlock : v.lock = some p) :
      SlotStep v (.signalReturned p) ({ v with lock := none }.to p .out)
  -- sys_sem_close
  | closeCheck {p} (hp : v.phase p = .out) (hact : v.active = true) :
      SlotStep v .silent (v.to p (.closeCall v.inc))
  | closeAcquire {p k} (hp : v.phase p = .closeCall k) (htable : v.table = none) :
      SlotStep v .silent ({ v with table := some p }.to p (.closeWake k 0))
  | closeSkip {p k} {i : ℕ} (hp : v.phase p = .closeWake k i) (hi : i < NPROC)
      (hskip : (v.phase ⟨i, hi⟩).sleeps = false) :
      SlotStep v (.closePassed ⟨i, hi⟩) (v.to p (.closeWake k (i + 1)))
  | closeHit {p q k k'} (hp : v.phase p = .closeWake k q.val) (hne : q ≠ p)
      (hq : v.phase q = .asleep k') :
      SlotStep v (.closeWoke q) ((v.to q (.woken k')).to p (.closeWake k (q.val + 1)))
  | closeEnd {p k} {i : ℕ} (hp : v.phase p = .closeWake k i) (hi : NPROC ≤ i) :
      SlotStep v .silent (v.to p (.closeActive k))
  | closeOff {p k} (hp : v.phase p = .closeActive k) :
      SlotStep v .deactivated ({ v with active := false }.to p (.closeOut k))
  | closeReturn {p k} (hp : v.phase p = .closeOut k) (htable : v.table = some p) :
      SlotStep v .freed ({ v with table := none }.to p .out)
  -- sem_table_lock for another slot, and sys_sem_open
  | tableAcquire {p} (hp : v.phase p = .out) (htable : v.table = none) :
      SlotStep v .silent ({ v with table := some p }.to p .otherTable)
  | tableRelease {p} (hp : v.phase p = .otherTable) (htable : v.table = some p) :
      SlotStep v .silent ({ v with table := none }.to p .out)
  | allocTake {p x} (hp : v.phase p = .otherTable) (hact : v.active = false) :
      SlotStep v .taken ({ v with active := true, inc := v.inc + 1 }.to p (.allocCount x))
  | allocSet {p x} (hp : v.phase p = .allocCount x) :
      SlotStep v (.opened x) ({ v with count := x }.to p .otherTable)
  -- sys_sem_gantt and kkill
  | ganttCheck {p} (hp : v.phase p = .out) (hact : v.active = true) :
      SlotStep v .silent (v.to p (.gantt v.inc))
  | ganttDone {p k} (hp : v.phase p = .gantt k) : SlotStep v .silent (v.to p .out)
  | kill {q k} (hq : v.phase q = .asleep k) : SlotStep v (.killed q) (v.to q (.woken k))

/-! ## The two locks -/

structure Locking (v : View) : Prop where
  lock : Held v.lock Phase.locks v.phase
  table : Held v.table Phase.locksTable v.phase
  /-- Nobody closes the slot while `sem_alloc` fills it in, and nobody takes it while `sem_free`
  leaves it. -/
  active : ∀ p b, (v.phase p).wants = some b → v.active = b

namespace Locking

variable {v v' : View} {p : Slot} {ph : Phase} {e : SlotEvent}

variable (h : Locking v)

include h

theorem active_to (hph : ph.wants = none) (q : Slot) (b : Bool)
    (hq : ((v.to p ph).phase q).wants = some b) : v.active = b := by
  by_cases hqp : q = p
  · subst hqp
    simp [View.to, hph] at hq
  · exact h.active q b (by simpa [View.to, hqp] using hq)

theorem stay (hlock : ph.locks = (v.phase p).locks)
    (htable : ph.locksTable = (v.phase p).locksTable) (hph : ph.wants = none) :
    Locking (v.to p ph) := ⟨h.lock.stay hlock, h.table.stay htable, h.active_to hph⟩

theorem setCount (x : ℤ) : Locking { v with count := x } := ⟨h.lock, h.table, h.active⟩

theorem setActive (hp : (v.phase p).locksTable = true) {b : Bool} (n : ℕ)
    (hlock : ph.locks = (v.phase p).locks) (htable : ph.locksTable = true)
    (hph : ph.wants = some b) : Locking ({ v with active := b, inc := n }.to p ph) where
  lock := h.lock.stay hlock
  table := h.table.stay (htable.trans hp.symm)
  active q b' hq := by
    by_cases hqp : q = p
    · subst hqp
      simpa [View.to, hph] using hq
    · have hother := h.table.others hp hqp
      simp only [View.to, Function.update_of_ne hqp] at hq
      cases hphase : v.phase q <;> simp_all [Phase.wants, Phase.locksTable]

theorem tally_eq_zero {P : Phase → Bool} (hP : ∀ x, P x = true → x.locks = true)
    (hp : (v.phase p).locks = true) (hnot : P (v.phase p) = false) : tally P v.phase = 0 := by
  refine tally_eq_zero_iff.mpr fun q => ?_
  by_cases hqp : q = p
  · rw [hqp, hnot]
  · have hother := h.lock.others hp hqp
    rw [← Bool.not_eq_true]
    exact fun hq => by simp [hP _ hq] at hother

theorem tally_eq_zero_of_free {P : Phase → Bool}
    (hP : ∀ x, P x = true → x.locks = true) (hfree : v.lock = none) : tally P v.phase = 0 := by
  refine tally_eq_zero_iff.mpr fun q => ?_
  have hout := h.lock.outside hfree q
  rw [← Bool.not_eq_true]
  exact fun hq => by simp [hP _ hq] at hout

theorem step (hs : SlotStep v e v') : Locking v' := by
  cases hs with
  | stutter => exact h
  | waitCheck hp _ | commit hp | fall hp | record hp | signalCheck hp _ | signalSkip hp _ _
  | signalEnd hp _ | closeCheck hp _ | closeSkip hp _ _ | closeEnd hp _ | ganttCheck hp _
  | ganttDone hp | kill hp => exact h.stay (by rw [hp]; rfl) (by rw [hp]; rfl) rfl
  | waitBlock hp _ | waitGrant hp _ | signalWakes hp _ | signalFree hp _ | allocSet hp =>
    exact (h.setCount _).stay (by rw [hp]; rfl) (by rw [hp]; rfl) rfl
  | waitAcquire hp hfree | relock hp hfree | signalAcquire hp hfree =>
    exact ⟨h.lock.acquire hfree rfl, h.table.stay (by rw [hp]; rfl), h.active_to rfl⟩
  | unlock hp hheld | waitReturn hp hheld | signalReturn hp hheld =>
    exact ⟨h.lock.release hheld rfl, h.table.stay (by rw [hp]; rfl), h.active_to rfl⟩
  | closeAcquire hp hfree | tableAcquire hp hfree =>
    exact ⟨h.lock.stay (by rw [hp]; rfl), h.table.acquire hfree rfl, h.active_to rfl⟩
  | closeReturn hp hheld | tableRelease hp hheld =>
    exact ⟨h.lock.stay (by rw [hp]; rfl), h.table.release hheld rfl, h.active_to rfl⟩
  | @signalHit p q k k' hp hne hq =>
    have hq' : Locking (v.to q (.woken k')) := h.stay (by rw [hq]; rfl) (by rw [hq]; rfl) rfl
    have hp' : (v.to q (.woken k')).phase p = .signalWake k q.val := by
      simpa [View.to, hne.symm] using hp
    exact hq'.stay (by rw [hp']; rfl) (by rw [hp']; rfl) rfl
  | @closeHit p q k k' hp hne hq =>
    have hq' : Locking (v.to q (.woken k')) := h.stay (by rw [hq]; rfl) (by rw [hq]; rfl) rfl
    have hp' : (v.to q (.woken k')).phase p = .closeWake k q.val := by
      simpa [View.to, hne.symm] using hp
    exact hq'.stay (by rw [hp']; rfl) (by rw [hp']; rfl) rfl
  | closeOff hp => exact h.setActive (by rw [hp]; rfl) v.inc (by rw [hp]; rfl) rfl rfl
  | allocTake hp _ => exact h.setActive (by rw [hp]; rfl) _ (by rw [hp]; rfl) rfl rfl

end Locking

end Xv6.Semaphore

import Xv6.Foundations.Mutex
import Xv6.Foundations.Transition
import Mathlib.Tactic.Common

/-!
# Spinlocks

`acquire`, `release` and `holding` of `spinlock.c`, one memory access at a time. The machines of the
other modules take and release a lock in one step, as happens here (`spinlock_atomic`): it has at
most one owner, it changes hands at the exchange and at the last store, and the tests with `holding`
see what they should although they read two fields that other CPUs write.

The accesses of all CPUs are in one order; `Interrupts` has the interrupts.

## Main results

* `spinlock_atomic`: at most one CPU is inside, and only misuse panics
-/

namespace Xv6.Spinlock

open Mutex Transition Function

/-- Where a CPU stands. The calls carry whether the CPU held the lock when it made them. -/
inductive Pc
  | out
  | crit
  /-- `acquire`: `holding` reads `lk->locked`, then `lk->cpu`. -/
  | acquire (held : Bool)
  | acquireCpu (held : Bool)
  | exchange (held : Bool)
  | record
  /-- `release`: `holding` reads `lk->locked`, then `lk->cpu`. -/
  | release (held : Bool)
  | releaseCpu (held : Bool)
  | clear
  | store
  | panicAcquire (held : Bool)
  | panicRelease (held : Bool)
  deriving DecidableEq

/-- `struct spinlock`, and the CPUs. -/
structure State (K : Type*) where
  locked : Bool
  cpu : Option K
  pc : K → Pc

inductive Act (K : Type*)
  | acquire (k : K)
  | release (k : K)
  /-- The CPU makes its next access to the lock. -/
  | exec (k : K)

variable {K : Type*} [DecidableEq K]

def State.goto (s : State K) (k : K) (c : Pc) : State K := { s with pc := update s.pc k c }

def State.exec (s : State K) (k : K) : Pc → Option (State K)
  | .acquire held => some (s.goto k (if s.locked then .acquireCpu held else .exchange held))
  | .acquireCpu held =>
    some (s.goto k (if s.cpu = some k then .panicAcquire held else .exchange held))
  | .exchange _ => some (if s.locked then s else { s with locked := true }.goto k .record)
  | .record => some ({ s with cpu := some k }.goto k .crit)
  | .release held => some (s.goto k (if s.locked then .releaseCpu held else .panicRelease held))
  | .releaseCpu held => some (s.goto k (if s.cpu = some k then .clear else .panicRelease held))
  | .clear => some ({ s with cpu := none }.goto k .store)
  | .store => some ({ s with locked := false }.goto k .out)
  | _ => none

def step (s : State K) : Act K → Option (State K)
  | .acquire k =>
    if s.pc k = .out ∨ s.pc k = .crit then some (s.goto k (.acquire (s.pc k = .crit))) else none
  | .release k =>
    if s.pc k = .out ∨ s.pc k = .crit then some (s.goto k (.release (s.pc k = .crit))) else none
  | .exec k => s.exec k (s.pc k)

/-- After `initlock`. -/
def boot (K : Type*) : State K := ⟨false, none, fun _ => .out⟩

/-- The CPU has won the exchange and has not stored 0 yet. -/
def Pc.owns : Pc → Bool
  | .crit | .record | .clear | .store => true
  | .acquire held | .acquireCpu held | .exchange held | .release held | .releaseCpu held
  | .panicAcquire held | .panicRelease held => held
  | .out => false

/-- `lk->cpu` is the CPU. -/
def Pc.recorded : Pc → Bool
  | .record | .store => false
  | c => c.owns

/-- The tests with `holding` gave the right answer. -/
def Pc.Right : Pc → Prop
  | .exchange held | .panicRelease held => held = false
  | .panicAcquire held => held = true
  | _ => True

/-- The lock as the other modules see it, with its owner. -/
structure Inv (s : State K) (o : Option K) : Prop where
  locked : s.locked = o.isSome
  owner : Held o Pc.owns s.pc
  cpu : Held s.cpu Pc.recorded s.pc
  right : ∀ k, (s.pc k).Right

/-- What a step may do to the owner. -/
inductive Moves : Option K → Option K → Prop
  | stay (o : Option K) : Moves o o
  | acquire (k : K) : Moves none (some k)
  | release (k : K) : Moves (some k) none

namespace Inv

variable {s s' : State K} {o : Option K} {k : K} {c : Pc}

theorem right_update (h : Inv s o) (hc : c.Right) (j : K) : (update s.pc k c j).Right := by
  by_cases hj : j = k
  · subst hj
    rwa [update_self]
  · rw [update_of_ne hj]
    exact h.right j

theorem goto (h : Inv s o) (howns : c.owns = (s.pc k).owns)
    (hrec : c.recorded = (s.pc k).recorded) (hc : c.Right) : Inv (s.goto k c) o where
  locked := h.locked
  owner := h.owner.stay howns
  cpu := h.cpu.stay hrec
  right := h.right_update hc

omit [DecidableEq K] in
theorem locked_of_owns (h : Inv s o) (hk : (s.pc k).owns = true) : s.locked = true := by
  rw [h.locked, (h.owner k).mpr hk]
  rfl

theorem exec (h : Inv s o) (hs : s.exec k (s.pc k) = some s') : ∃ o', Inv s' o' ∧ Moves o o' := by
  have hcpu := h.cpu k
  have hlocked := h.locked_of_owns (k := k)
  have hright := h.right k
  cases hpc : s.pc k with rw [hpc] at hs hcpu hlocked hright
  | out | crit | panicAcquire | panicRelease => cases hs
  | acquire held | release held =>
    cases hs
    refine ⟨o, h.goto ?_ ?_ ?_, .stay o⟩ <;> cases held <;> rcases hl : s.locked <;>
      simp_all [Pc.owns, Pc.recorded, Pc.Right]
  | acquireCpu held | releaseCpu held =>
    cases hs
    refine ⟨o, h.goto ?_ ?_ ?_, .stay o⟩ <;> cases held <;>
      simp_all [Pc.owns, Pc.recorded, Pc.Right]
  | exchange held =>
    cases hs
    split
    · exact ⟨o, h, .stay o⟩
    next hl =>
    obtain rfl : o = none := by simpa [h.locked] using hl
    refine ⟨some k, ⟨rfl, h.owner.acquire rfl rfl, h.cpu.stay ?_, h.right_update trivial⟩,
      .acquire k⟩
    simp_all [Pc.recorded, Pc.owns, Pc.Right]
  | record =>
    cases hs
    have hnone : s.cpu = none := by
      by_contra hne
      obtain ⟨j, hj⟩ := Option.ne_none_iff_exists'.mp hne
      have hown : (s.pc j).owns = true := by
        have hr := (h.cpu j).mp hj
        cases hj' : s.pc j <;> simp_all [Pc.recorded]
      obtain rfl := h.owner.unique hown (j := k) (by rw [hpc]; rfl)
      simp_all [Pc.recorded]
    exact ⟨o, ⟨h.locked, h.owner.stay (by rw [hpc]; rfl), h.cpu.acquire hnone rfl,
      h.right_update trivial⟩, .stay o⟩
  | clear =>
    cases hs
    exact ⟨o, ⟨h.locked, h.owner.stay (by rw [hpc]; rfl), h.cpu.release (hcpu.mpr rfl) rfl,
      h.right_update trivial⟩, .stay o⟩
  | store =>
    cases hs
    obtain rfl := (h.owner k).mpr (by rw [hpc]; rfl)
    exact ⟨none, ⟨rfl, h.owner.release rfl rfl, h.cpu.stay (by rw [hpc]; rfl),
      h.right_update trivial⟩, .release k⟩

theorem step {a : Act K} (h : Inv s o) (hs : step s a = some s') :
    ∃ o', Inv s' o' ∧ Moves o o' := by
  cases a with
  | exec k => exact h.exec hs
  | acquire k | release k =>
    obtain ⟨hpc, hs⟩ := Option.ite_none_right_eq_some.mp hs
    cases hs
    refine ⟨o, h.goto ?_ ?_ trivial, .stay o⟩ <;> rcases hpc with hpc | hpc <;>
      simp [hpc, Pc.owns, Pc.recorded]

end Inv

/-- **A spinlock is a lock.** In every reachable state at most one CPU is between its exchange and
its last store, `acquire` panics only on a CPU that holds the lock and such a CPU never spins,
`release` panics only on one that does not, and every access leaves the owner alone, gives the free
lock to a CPU or takes it from its owner. -/
theorem spinlock_atomic {s : State K} (hreach : Reach step (fun _ _ => True) (boot K) s) :
    ∃ o, (∀ k, o = some k ↔ (s.pc k).owns = true) ∧ (s.locked = true ↔ ∃ k, o = some k) ∧
      (∀ k held, (s.pc k = .panicAcquire held → held = true) ∧
        (s.pc k = .exchange held → held = false) ∧ (s.pc k = .panicRelease held → held = false)) ∧
      ∀ a s', step s a = some s' →
        ∃ o', (∀ k, o' = some k ↔ (s'.pc k).owns = true) ∧ Moves o o' := by
  obtain ⟨o, h⟩ : ∃ o, Inv s o := by
    refine hreach.invariant (I := fun s => ∃ o, Inv s o) ?_ fun s1 a s2 ⟨o, h⟩ _ hs => ?_
    · exact ⟨none, rfl, fun k => by simp [boot, Pc.owns],
        fun k => by simp [boot, Pc.recorded, Pc.owns], fun k => trivial⟩
    · obtain ⟨o', h', -⟩ := h.step hs
      exact ⟨o', h'⟩
  refine ⟨o, h.owner, ?_, fun k held => ?_, fun a s' hs => ?_⟩
  · rw [h.locked, Option.isSome_iff_exists]
  · have hright := h.right k
    refine ⟨fun hk => ?_, fun hk => ?_, fun hk => ?_⟩ <;> rwa [hk] at hright
  · obtain ⟨o', h', hmoves⟩ := h.step hs
    exact ⟨o', h'.owner, hmoves⟩

/-- One CPU spins while the other one, which holds the lock, calls `acquire` again. -/
theorem spinlock_atomic_twice : ∃ s : State Bool, Reach step (fun _ _ => True) (boot Bool) s ∧
    (s.pc true = .panicAcquire true ∧ s.pc false = .exchange false) ∧
    ∃ o, ∀ k, o = some k ↔ (s.pc k).owns = true := by
  obtain ⟨s, hreach, hs⟩ := exists_reach step (fun _ _ => true) (boot Bool)
    [.acquire true, .exec true, .acquire false, .exec true, .exec false, .exec false, .exec true,
      .exec false, .acquire true, .exec true, .exec true]
    (fun s => (s.pc true, s.pc false)) (.panicAcquire true, .exchange false) (by decide)
  obtain ⟨o, howner, -⟩ := spinlock_atomic (hreach.mono fun _ _ _ => trivial)
  exact ⟨s, hreach.mono fun _ _ _ => trivial, Prod.mk.inj hs, o, howner⟩

end Xv6.Spinlock

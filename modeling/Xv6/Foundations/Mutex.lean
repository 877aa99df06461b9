import Mathlib.Logic.Function.Basic

/-!
# Mutual exclusion

A lock is held by an index or by none.
-/

namespace Xv6.Mutex

variable {ι β : Type*}

/-- The holder of the lock is exactly the index in its critical section. -/
def Held (lock : Option ι) (P : β → Bool) (f : ι → β) : Prop :=
  ∀ i, lock = some i ↔ P (f i) = true

namespace Held

variable {lock : Option ι} {P : β → Bool} {f : ι → β} {i j : ι} {b : β}

variable (h : Held lock P f)

include h

theorem outside (hfree : lock = none) (i : ι) : P (f i) = false := by
  rw [← Bool.not_eq_true, ← h i, hfree]
  exact Option.some_ne_none i ∘ Eq.symm

theorem unique (hi : P (f i) = true) (hj : P (f j) = true) : i = j :=
  Option.some.inj (((h i).mpr hi).symm.trans ((h j).mpr hj))

theorem others (hi : P (f i) = true) (hne : j ≠ i) : P (f j) = false := by
  rw [← Bool.not_eq_true]
  exact fun hj => hne (h.unique hj hi)

variable [DecidableEq ι]

theorem stay (hb : P b = P (f i)) : Held lock P (Function.update f i b) := by
  intro j
  by_cases hj : j = i
  · subst hj
    simpa [hb] using h j
  · simpa [hj] using h j

theorem acquire (hfree : lock = none) (hb : P b = true) :
    Held (some i) P (Function.update f i b) := by
  intro j
  by_cases hj : j = i
  · subst hj
    simp [hb]
  · simp [hj, h.outside hfree j, Ne.symm hj]

theorem release (hheld : lock = some i) (hb : P b = false) :
    Held none P (Function.update f i b) := by
  intro j
  by_cases hj : j = i
  · subst hj
    simp [hb]
  · simp [hj, h.others ((h i).mp hheld) hj]

end Held

end Xv6.Mutex

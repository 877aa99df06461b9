import Mathlib.Logic.Function.Basic
import Mathlib.Tactic.Common

/-!
# Exclusive ownership

Places hold numbers, with 0 for none. `Exclusive f S` says that no number is held by two places and
that `S` is the set of the numbers that are held.
-/

namespace Xv6

variable {ι : Type*}

/-- Every number of `S` is held by exactly one place, and no other number is held. -/
structure Exclusive (f : ι → ℕ) (S : ℕ → Prop) : Prop where
  unique : ∀ i j, f i ≠ 0 → f i = f j → i = j
  held : ∀ b, b ≠ 0 → (S b ↔ ∃ i, f i = b)

namespace Exclusive

variable {f : ι → ℕ} {S T : ℕ → Prop}

variable (h : Exclusive f S)

include h

theorem mem {i : ι} (hi : f i ≠ 0) : S (f i) := (h.held _ hi).mpr ⟨i, rfl⟩

theorem ne_of_not_mem {b : ℕ} (hb : b ≠ 0) (hS : ¬ S b) (i : ι) : f i ≠ b :=
  fun hi => hS ((h.held b hb).mpr ⟨i, hi⟩)

theorem congr (hST : ∀ b, b ≠ 0 → (T b ↔ S b)) : Exclusive f T :=
  ⟨h.unique, fun b hb => (hST b hb).trans (h.held b hb)⟩

variable [DecidableEq ι]

theorem take {i : ι} {b : ℕ} (hi : f i = 0) (hb : b ≠ 0) (hS : ¬ S b)
    (hT : ∀ x, x ≠ 0 → (T x ↔ x = b ∨ S x)) : Exclusive (Function.update f i b) T := by
  have hfree := h.ne_of_not_mem hb hS
  refine ⟨fun j k hj hjk => ?_, fun x hx => ?_⟩
  · by_cases hji : j = i <;> by_cases hki : k = i
    · rw [hji, hki]
    · subst hji
      rw [Function.update_self, Function.update_of_ne hki] at hjk
      exact absurd hjk.symm (hfree k)
    · subst hki
      rw [Function.update_self, Function.update_of_ne hji] at hjk
      exact absurd hjk (hfree j)
    · rw [Function.update_of_ne hji] at hj hjk
      rw [Function.update_of_ne hki] at hjk
      exact h.unique j k hj hjk
  rw [hT x hx, h.held x hx]
  constructor
  · rintro (rfl | ⟨j, rfl⟩)
    · exact ⟨i, Function.update_self ..⟩
    · have hji : j ≠ i := fun he => hx (he ▸ hi)
      exact ⟨j, Function.update_of_ne hji ..⟩
  rintro ⟨j, hj⟩
  by_cases hji : j = i
  · subst hji
    rw [Function.update_self] at hj
    exact .inl hj.symm
  · rw [Function.update_of_ne hji] at hj
    exact .inr ⟨j, hj⟩

theorem drop {i : ι} (hi : f i ≠ 0)
    (hT : ∀ x, x ≠ 0 → (T x ↔ x ≠ f i ∧ S x)) : Exclusive (Function.update f i 0) T := by
  refine ⟨fun j k hj hjk => ?_, fun x hx => ?_⟩
  · by_cases hji : j = i <;> by_cases hki : k = i
    · rw [hji, hki]
    · subst hji
      rw [Function.update_self] at hj
      exact absurd rfl hj
    · subst hki
      rw [Function.update_self] at hjk
      exact absurd hjk hj
    · rw [Function.update_of_ne hji] at hj hjk
      rw [Function.update_of_ne hki] at hjk
      exact h.unique j k hj hjk
  rw [hT x hx, h.held x hx]
  constructor
  · rintro ⟨hne, j, rfl⟩
    have hji : j ≠ i := fun he => hne (he ▸ rfl)
    exact ⟨j, Function.update_of_ne hji ..⟩
  rintro ⟨j, hj⟩
  by_cases hji : j = i
  · subst hji
    rw [Function.update_self] at hj
    exact absurd hj.symm hx
  rw [Function.update_of_ne hji] at hj
  refine ⟨fun he => hji (h.unique j i ?_ (hj.trans he)), j, hj⟩
  rw [hj]
  exact hx

end Exclusive

end Xv6

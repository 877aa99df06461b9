import Mathlib.Algebra.BigOperators.Ring.Finset
import Mathlib.Algebra.Order.BigOperators.Group.Finset
import Mathlib.Data.Fintype.BigOperators
import Mathlib.Logic.Function.Basic

/-!
# Counting over the processes

`total w f` adds up the weights of the values of `f`, and `tally P f` is the number of indices whose
value satisfies `P`.
-/

namespace Xv6.Tally

variable {ι β : Type*} [Fintype ι]

def total (w : β → ℕ) (f : ι → β) : ℕ := ∑ i, w (f i)

theorem le_total (w : β → ℕ) (f : ι → β) (i : ι) : w (f i) ≤ total w f :=
  Finset.single_le_sum (f := fun i => w (f i)) (fun _ _ => Nat.zero_le _) (Finset.mem_univ i)

variable {f : ι → β}

theorem total_eq_zero_iff {w : β → ℕ} : total w f = 0 ↔ ∀ i, w (f i) = 0 := by
  simp [total, Finset.sum_eq_zero_iff]

theorem total_update [DecidableEq ι] (w : β → ℕ) (f : ι → β) (i : ι) (b : β) :
    total w (Function.update f i b) + w (f i) = total w f + w b := by
  have hrest : ∀ g : ι → β, total w g = w (g i) + ∑ j ∈ Finset.univ.erase i, w (g j) := fun g =>
    (Finset.add_sum_erase Finset.univ (fun j => w (g j)) (Finset.mem_univ i)).symm
  have hsame : ∑ j ∈ Finset.univ.erase i, w (Function.update f i b j) =
      ∑ j ∈ Finset.univ.erase i, w (f j) :=
    Finset.sum_congr rfl fun j hj => by rw [Function.update_of_ne (Finset.ne_of_mem_erase hj)]
  rw [hrest (Function.update f i b), hrest f, hsame, Function.update_self]
  omega

def tally (P : β → Bool) (f : ι → β) : ℕ := (Finset.univ.filter fun i => P (f i) = true).card

theorem tally_eq_total (P : β → Bool) (f : ι → β) :
    tally P f = total (fun b => if P b then 1 else 0) f := Finset.card_filter _ _

theorem tally_le_card (P : β → Bool) (f : ι → β) : tally P f ≤ Fintype.card ι :=
  Finset.card_le_univ _

variable {P : β → Bool}

theorem tally_eq_zero_iff : tally P f = 0 ↔ ∀ i, P (f i) = false := by
  simp [tally, Finset.filter_eq_empty_iff]

theorem tally_pos_of {i : ι} (h : P (f i) = true) : 0 < tally P f :=
  Finset.card_pos.mpr ⟨i, by simpa using h⟩

theorem total_le_mul_tally {w : β → ℕ} {k : ℕ}
    (h : ∀ b, w b ≤ if P b then k else 0) : total w f ≤ k * tally P f := by
  rw [tally_eq_total, total, total, Finset.mul_sum]
  refine Finset.sum_le_sum fun i _ => (h (f i)).trans ?_
  split <;> simp

theorem tally_eq_one {i : ι} (hi : P (f i) = true)
    (huniq : ∀ j, P (f j) = true → j = i) : tally P f = 1 := by
  rw [tally, Finset.card_eq_one]
  refine ⟨i, ?_⟩
  ext j
  simp only [Finset.mem_filter, Finset.mem_univ, true_and, Finset.mem_singleton]
  exact ⟨huniq j, fun hj => hj ▸ hi⟩

variable [DecidableEq ι]

theorem tally_update (P : β → Bool) (f : ι → β) (i : ι) (b : β) :
    tally P (Function.update f i b) + (if P (f i) then 1 else 0) =
      tally P f + (if P b then 1 else 0) := by
  rw [tally_eq_total, tally_eq_total]
  exact total_update _ f i b

/-! ## Changing one value of a function into the integers -/

section Bump

variable {ι : Type*} [DecidableEq ι]

def bump (h : ι → ℤ) (i : ι) (k : ℤ) : ι → ℤ := Function.update h i (h i + k)

variable (h : ι → ℤ)

include h

theorem bump_apply (i j : ι) (k : ℤ) :
    bump h i k j = h j + if j = i then k else 0 := by
  by_cases hj : j = i
  · subst hj; simp [bump]
  · simp [bump, hj]

@[simp] theorem bump_bump (i : ι) (k k' : ℤ) :
    bump (bump h i k) i k' = bump h i (k + k') := by simp [bump, add_assoc]

@[simp] theorem bump_zero (i : ι) : bump h i 0 = h := by simp [bump]

theorem bump_comm (i j : ι) (k k' : ℤ) :
    bump (bump h i k) j k' = bump (bump h j k') i k := by
  funext x
  simp only [bump_apply]
  omega

theorem bump_two_cancel (i j : ι) (k : ℤ) :
    bump (bump (bump (bump h i k) j k) i (-k)) j (-k) = h := by
  rw [bump_comm (bump h i k) j i, bump_bump, bump_bump]
  simp

end Bump

end Xv6.Tally

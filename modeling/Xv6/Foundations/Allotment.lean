import Mathlib.Algebra.BigOperators.Group.Finset.Basic
import Mathlib.Algebra.Order.BigOperators.Group.Finset
import Mathlib.Data.Fintype.BigOperators

/-!
# Allotments

The numbers below `N` are free or held, and each index has a list of the numbers it holds.
-/

namespace Xv6

variable {ι : Type*}

/-- Every number below `N` is free, or held by exactly one index. -/
structure Allotment (N : ℕ) (free : ℕ → Bool) (f : ι → List ℕ) : Prop where
  nodup : ∀ p, (f p).Nodup
  lt : ∀ p, ∀ i ∈ f p, i < N
  disjoint : ∀ p q i, i ∈ f p → i ∈ f q → p = q
  held : ∀ i, i < N → (free i = false ↔ ∃ p, i ∈ f p)

namespace Allotment

variable {N : ℕ} {free free' : ℕ → Bool} {f : ι → List ℕ} {p : ι} {l : List ℕ}

variable (h : Allotment N free f)

include h

theorem not_free {i : ℕ} (hi : i ∈ f p) : free i = false := (h.held i (h.lt p i hi)).2 ⟨p, hi⟩

theorem notMem_of_free {i : ℕ} (hi : free i = true) : i ∉ f p := by
  intro hmem
  rw [h.not_free hmem] at hi
  cases hi

theorem card_free [Fintype ι] :
    ((Finset.range N).filter fun i => free i = true).card + ∑ p, (f p).length = N := by
  have hheld : (Finset.range N).filter (fun i => ¬free i = true) =
      Finset.univ.biUnion fun p => (f p).toFinset := by
    ext i
    simp only [Finset.mem_filter, Finset.mem_range, Bool.not_eq_true, Finset.mem_biUnion,
      Finset.mem_univ, true_and, List.mem_toFinset]
    constructor
    · rintro ⟨hi, hfree⟩
      exact (h.held i hi).1 hfree
    · rintro ⟨p, hp⟩
      exact ⟨h.lt p i hp, h.not_free hp⟩
  have hcard : (Finset.univ.biUnion fun p => (f p).toFinset).card = ∑ p, (f p).length := by
    rw [Finset.card_biUnion]
    · exact Finset.sum_congr rfl fun p _ => List.toFinset_card_of_nodup (h.nodup p)
    intro p _ q _ hpq
    rw [Function.onFun, Finset.disjoint_left]
    intro i hip hiq
    exact hpq (h.disjoint p q i (List.mem_toFinset.1 hip) (List.mem_toFinset.1 hiq))
  rw [← hcard, ← hheld, Finset.card_filter_add_card_filter_not, Finset.card_range]

variable [DecidableEq ι]

theorem give (hp : f p = []) (hnodup : l.Nodup)
    (hl : ∀ i ∈ l, i < N ∧ free i = true)
    (hfree : ∀ i, free' i = (free i && decide (i ∉ l))) :
    Allotment N free' (Function.update f p l) := by
  have hmem : ∀ {q i}, i ∈ Function.update f p l q → q = p ∧ i ∈ l ∨ q ≠ p ∧ i ∈ f q := by
    intro q i hi
    by_cases hqp : q = p
    · subst hqp
      rw [Function.update_self] at hi
      exact .inl ⟨rfl, hi⟩
    · rw [Function.update_of_ne hqp] at hi
      exact .inr ⟨hqp, hi⟩
  refine ⟨fun q => ?_, fun q i hi => ?_, fun q r i hq hr => ?_, fun i hi => ?_⟩
  · by_cases hqp : q = p
    · subst hqp
      rwa [Function.update_self]
    · rw [Function.update_of_ne hqp]
      exact h.nodup q
  · rcases hmem hi with ⟨-, hi⟩ | ⟨-, hi⟩
    · exact (hl i hi).1
    · exact h.lt q i hi
  · rcases hmem hq with ⟨rfl, hil⟩ | ⟨hqp, hiq⟩ <;> rcases hmem hr with ⟨rfl, hil'⟩ | ⟨hrp, hir⟩
    · rfl
    · exact absurd hir (h.notMem_of_free (hl i hil).2)
    · exact absurd hiq (h.notMem_of_free (hl i hil').2)
    · exact h.disjoint q r i hiq hir
  rw [hfree, Bool.and_eq_false_iff, h.held i hi, decide_eq_false_iff_not, not_not]
  constructor
  · rintro (⟨q, hq⟩ | hil)
    · have hqp : q ≠ p := by
        rintro rfl
        rw [hp] at hq
        cases hq
      exact ⟨q, by rwa [Function.update_of_ne hqp]⟩
    · exact ⟨p, by rwa [Function.update_self]⟩
  rintro ⟨q, hq⟩
  rcases hmem hq with ⟨-, hil⟩ | ⟨-, hiq⟩
  · exact .inr hil
  · exact .inl ⟨q, hiq⟩

theorem back (hfree : ∀ i, free' i = (free i || decide (i ∈ f p))) :
    Allotment N free' (Function.update f p []) := by
  have hmem : ∀ {q i}, i ∈ Function.update f p [] q → q ≠ p ∧ i ∈ f q := by
    intro q i hi
    by_cases hqp : q = p
    · subst hqp
      rw [Function.update_self] at hi
      cases hi
    · rw [Function.update_of_ne hqp] at hi
      exact ⟨hqp, hi⟩
  refine ⟨fun q => ?_, fun q i hi => h.lt q i (hmem hi).2,
    fun q r i hq hr => h.disjoint q r i (hmem hq).2 (hmem hr).2, fun i hi => ?_⟩
  · by_cases hqp : q = p
    · subst hqp
      rw [Function.update_self]
      exact List.nodup_nil
    · rw [Function.update_of_ne hqp]
      exact h.nodup q
  rw [hfree, Bool.or_eq_false_iff, h.held i hi, decide_eq_false_iff_not]
  constructor
  · rintro ⟨⟨q, hq⟩, hip⟩
    have hqp : q ≠ p := by
      rintro rfl
      exact hip hq
    exact ⟨q, by rwa [Function.update_of_ne hqp]⟩
  · rintro ⟨q, hq⟩
    obtain ⟨hqp, hiq⟩ := hmem hq
    exact ⟨⟨q, hiq⟩, fun hip => hqp (h.disjoint q p i hiq hip)⟩

end Allotment

end Xv6

import Xv6.Vm.Code

/-!
# Who owns a page

`Owned ly s X` says that the free list and the pages in `X` together are the pages of the memory,
each of them once.
-/

namespace Xv6.Vm

open Hoare Function Multiset

variable {ly : Layout} {s s' s'' : Mem} {X Y : Multiset ℕ} {p : ℕ} {E : Halt → Prop}

def Owned (ly : Layout) (s : Mem) (X : Multiset ℕ) : Prop := (s.free : Multiset ℕ) + X = ly.pages

theorem Owned.nodup (h : Owned ly s X) : X.Nodup := by
  have hall : (ly.pages : Multiset ℕ).Nodup := coe_nodup.mpr ly.nodup
  rw [← h] at hall
  exact (nodup_add.mp hall).2.1

theorem Owned.not_mem (h : Owned ly s ({p} + X)) : p ∉ X := by
  have hnodup := h.nodup
  rw [singleton_add, nodup_cons] at hnodup
  exact hnodup.1

theorem Owned.range (h : Owned ly s X) (hp : p ∈ X) : ly.first ≤ p ∧ p < ly.stop := by
  refine ly.range p (mem_coe.mp ?_)
  rw [← h]
  exact mem_add.mpr (.inr hp)

theorem Owned.card_le (h : Owned ly s X) : X.card ≤ ly.pages.length := by
  have hcard := congrArg card h
  rw [card_add, coe_card] at hcard
  rw [← coe_card, ← hcard]
  omega

/-- The content of the pages of `X` is as it was, and a failed allocation is not forgotten. -/
structure Frame (X : Multiset ℕ) (s s' : Mem) : Prop where
  data : ∀ q ∈ X, s'.data q = s.data q
  denied : s.denied = true → s'.denied = true

theorem Frame.refl (X : Multiset ℕ) (s : Mem) : Frame X s s := ⟨fun _ _ => rfl, id⟩

theorem Frame.trans (h : Frame X s s') (h' : Frame X s' s'') : Frame X s s'' :=
  ⟨fun q hq => (h'.data q hq).trans (h.data q hq), fun hd => h'.denied (h.denied hd)⟩

theorem Frame.mono (h : Frame X s s') (hle : Y ≤ X) : Frame Y s s' :=
  ⟨fun q hq => h.data q (mem_of_le hle hq), h.denied⟩

theorem Frame.right (h : Frame (Y + X) s s') : Frame X s s' := h.mono (le_add_left _ _)

theorem Frame.left (h : Frame (X + Y) s s') : Frame X s s' := h.mono (le_add_right _ _)

theorem Frame.fill (hp : p ∉ X) (b : Bytes) : Frame X s (s.fill p b) where
  data _ hq := update_of_ne (ne_of_mem_of_not_mem hq hp) ..
  denied := id

/-- **`kalloc`** takes a page off the free list, or fails. -/
theorem kalloc_spec (h : Owned ly s X) : Wp kalloc s (fun r s' => Frame X s s' ∧
    match r with
    | none => Owned ly s' X ∧ s'.denied = true
    | some p => Owned ly s' ({p} + X)) E := by
  have hnone : Frame X s { s with deny := s.deny.tail, denied := true } ∧
      Owned ly { s with deny := s.deny.tail, denied := true } X ∧ true = true :=
    ⟨⟨fun _ _ => rfl, fun _ => rfl⟩, h, rfl⟩
  simp only [kalloc, wp_bind, wp_get, wp_set, wp_pure]
  unfold Mem.kalloc
  rcases hdeny : s.deny.headD false with _ | _
  · rcases hfree : s.free with _ | ⟨p, free⟩
    · simpa [hfree] using hnone
    have hX : ({p} : Multiset ℕ) + ((free : Multiset ℕ) + X) = ly.pages := by
      rw [← h, hfree, ← add_assoc, singleton_add, cons_coe]
    have hown : Owned ly { s with
        free := free, data := update s.data p fun _ => 5, deny := s.deny.tail }
        ({p} + X) := (add_left_comm ..).trans hX
    refine ⟨⟨fun q hq => update_of_ne ?_ .., id⟩, hown⟩
    exact ne_of_mem_of_not_mem hq hown.not_mem
  · simpa using hnone

theorem kfree_spec (h : Owned ly s ({p} + X)) :
    Wp (kfree ly p) s (fun _ s' => Owned ly s' X ∧ Frame X s s') E := by
  have hrange := h.range (p := p) (by simp)
  have hnot := h.not_mem
  rw [kfree, if_neg (by omega)]
  refine ⟨?_, ⟨fun q hq => update_of_ne (ne_of_mem_of_not_mem hq hnot) .., id⟩⟩
  change ((p :: s.free : List ℕ) : Multiset ℕ) + X = ly.pages
  rw [← h, ← cons_coe, ← singleton_add]
  abel

end Xv6.Vm

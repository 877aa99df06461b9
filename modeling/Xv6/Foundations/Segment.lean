import Xv6.Param

/-!
# Linked lists in a memory

A memory is a function `next` from nodes to nodes.
-/

namespace Xv6.Segment

variable {α : Type*} {next next' : α → α} {l xs ys : List α} {a e f : α}

def Seg (next : α → α) : List α → α → Prop
  | [], _ => True
  | a :: l, e => next a = l.headD e ∧ Seg next l e

theorem headD_append : (xs ++ ys).headD e = xs.headD (ys.headD e) := by
  cases xs <;> rfl

theorem seg_append : Seg next (xs ++ ys) e ↔ Seg next xs (ys.headD e) ∧ Seg next ys e := by
  induction xs with
  | nil => simp [Seg]
  | cons x xs ih => rw [List.cons_append, Seg, Seg, ih, headD_append, and_assoc]

theorem Seg.congr (h : Seg next l e) (hnext : ∀ x ∈ l, next' x = next x) : Seg next' l e := by
  induction l with
  | nil => trivial
  | cons x l ih =>
    exact ⟨(hnext x List.mem_cons_self).trans h.1,
      ih h.2 fun y hy => hnext y (List.mem_cons_of_mem x hy)⟩

theorem Seg.rotate (h : Seg next (xs ++ f :: ys) e) (he : (xs ++ f :: ys).headD e = e) :
    Seg next (f :: (ys ++ xs)) f := by
  rw [seg_append, List.headD_cons] at h
  rw [← List.cons_append, seg_append]
  rcases xs with _ | ⟨x, xs⟩
  · obtain rfl : f = e := he
    exact ⟨h.2, trivial⟩
  · obtain rfl : x = e := he
    exact ⟨h.2, h.1⟩

theorem Seg.next_eq (h : Seg next (xs ++ a :: ys) e) : next a = ys.headD e := (seg_append.mp h).2.1

theorem Seg.exists_split (h : Seg next l e) (ha : a ∈ l) (hne : next a ≠ e) :
    ∃ xs ys, l = xs ++ a :: next a :: ys := by
  obtain ⟨xs, ys, rfl⟩ := List.append_of_mem ha
  have hnext := h.next_eq
  rcases ys with _ | ⟨y, ys⟩
  · exact absurd hnext hne
  · exact ⟨xs, ys, by rw [hnext]; rfl⟩

end Xv6.Segment

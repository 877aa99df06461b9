import Mathlib.Data.List.Nodup
import Mathlib.Data.List.Induction
import Mathlib.Data.Option.Basic
import Mathlib.Logic.Function.Basic

/-!
# Doubly linked rings

A doubly linked ring through a sentinel: `none` is the sentinel and `some b` the node `b`, and
`Links` holds the two pointers of every node.
-/

namespace Xv6

/-- The pointers of a doubly linked structure with a sentinel. -/
structure Links (α : Type*) where
  next : Option α → Option α
  prev : Option α → Option α

namespace Links

variable {α : Type*}

/-- The pointers lead from `x` through the nodes of the list to `y`, and back. -/
def Seg (L : Links α) : Option α → List α → Option α → Prop
  | x, [], y => L.next x = y ∧ L.prev y = x
  | x, b :: l, y => (L.next x = some b ∧ L.prev (some b) = x) ∧ L.Seg (some b) l y

structure Ring (L : Links α) (l : List α) : Prop where
  nodup : l.Nodup
  seg : L.Seg none l none

/-! ## Following the pointers -/

/-- The nodes visited from a node on, up to the sentinel and at most `n`. -/
def walk (step : Option α → Option α) : ℕ → Option α → List α
  | 0, _ => []
  | _ + 1, none => []
  | n + 1, some b => b :: walk step n (step (some b))

variable {L L' : Links α} {x y z : Option α} {l l₁ l₂ : List α} {b : α} {n : ℕ}

theorem seg_append : L.Seg x (l₁ ++ b :: l₂) y ↔ L.Seg x l₁ (some b) ∧ L.Seg (some b) l₂ y := by
  induction l₁ generalizing x with
  | nil => simp [Seg]
  | cons c l₁ ih => simp only [List.cons_append, Seg, ih, and_assoc]

theorem Seg.walk_next (h : L.Seg x l none) (hn : l.length ≤ n) : walk L.next n (L.next x) = l := by
  induction l generalizing x n with
  | nil =>
    rw [h.1]
    cases n <;> rfl
  | cons b l ih =>
    obtain ⟨⟨hnext, -⟩, hl⟩ := h
    obtain ⟨n, rfl⟩ := Nat.exists_eq_add_of_lt (Nat.lt_of_lt_of_le (Nat.succ_pos l.length) hn)
    rw [hnext, Nat.zero_add, walk, ih hl (by simpa using hn)]

theorem Seg.walk_prev (h : L.Seg none l x) (hn : l.length ≤ n) :
    walk L.prev n (L.prev x) = l.reverse := by
  induction l using List.reverseRecOn generalizing x n with
  | nil =>
    rw [h.2]
    cases n <;> rfl
  | append_singleton l b ih =>
    obtain ⟨hl, -, hprev⟩ := seg_append.mp h
    rw [List.length_append, List.length_singleton] at hn
    obtain ⟨n, rfl⟩ := Nat.exists_eq_add_of_lt (Nat.lt_of_lt_of_le (Nat.succ_pos l.length) hn)
    rw [hprev, Nat.zero_add, walk, ih hl (by omega), List.reverse_append]
    rfl

theorem Ring.walk_next (h : L.Ring l) (hn : l.length ≤ n) : walk L.next n (L.next none) = l :=
  h.seg.walk_next hn

theorem Ring.walk_prev (h : L.Ring l) (hn : l.length ≤ n) :
    walk L.prev n (L.prev none) = l.reverse := h.seg.walk_prev hn

/-! ## Changing the pointers -/

theorem Seg.congr (h : L.Seg x l y) (hx : L'.next x = L.next x) (hy : L'.prev y = L.prev y)
    (hnext : ∀ c ∈ l, L'.next (some c) = L.next (some c))
    (hprev : ∀ c ∈ l, L'.prev (some c) = L.prev (some c)) : L'.Seg x l y := by
  induction l generalizing x with
  | nil => exact ⟨hx.trans h.1, hy.trans h.2⟩
  | cons b l ih =>
    obtain ⟨⟨hb, hb'⟩, hl⟩ := h
    rw [List.forall_mem_cons] at hnext hprev
    exact ⟨⟨hx.trans hb, hprev.1.trans hb'⟩, ih hl hnext.1 hnext.2 hprev.2⟩

theorem Seg.retarget (h : L.Seg x l y) (hnodup : (x :: l.map some).Nodup)
    (hlast : L'.next (L.prev y) = z ∧ L'.prev z = L.prev y)
    (hnext : ∀ u, u ≠ L.prev y → L'.next u = L.next u)
    (hprev : ∀ c ∈ l, L'.prev (some c) = L.prev (some c)) : L'.Seg x l z := by
  induction l generalizing x with
  | nil =>
    obtain ⟨-, hy⟩ := h
    rwa [hy] at hlast
  | cons b l ih =>
    obtain ⟨⟨hb, hb'⟩, hl⟩ := h
    rw [List.forall_mem_cons] at hprev
    rw [List.map_cons, List.nodup_cons] at hnodup
    refine ⟨⟨?_, hprev.1.trans hb'⟩, ih hl hnodup.2 hprev.2⟩
    rw [hnext x, hb]
    -- the redirected pointer leaves one of the later nodes
    intro hx
    refine hnodup.1 ?_
    have hlater : ∀ (l : List α) (x : Option α), L.Seg x l y → L.prev y ∈ x :: l.map some := by
      intro l
      induction l with
      | nil => exact fun x hl => List.mem_singleton.mpr hl.2
      | cons c l ih => exact fun x hl => List.mem_cons_of_mem x (ih (some c) hl.2)
    rw [hx]
    exact hlater l (some b) hl

variable [DecidableEq α]

def insertFront (L : Links α) (b : α) : Links α where
  next := Function.update (Function.update L.next (some b) (L.next none)) none (some b)
  prev := Function.update (Function.update L.prev (some b) none) (L.next none) (some b)

def unlink (L : Links α) (b : α) : Links α where
  next := Function.update L.next (L.prev (some b)) (L.next (some b))
  prev := Function.update L.prev (L.next (some b)) (L.prev (some b))

attribute [local simp] Links.insertFront

theorem Ring.insertFront (h : L.Ring l) (hb : b ∉ l) : (L.insertFront b).Ring (b :: l) := by
  refine ⟨List.nodup_cons.mpr ⟨hb, h.nodup⟩, ⟨?_, ?_⟩, ?_⟩
  · simp
  · obtain _ | ⟨c, l⟩ := l
    · simp [h.seg.1]
    · have hne : b ≠ c := fun heq => hb (heq ▸ List.mem_cons_self)
      simp [h.seg.1.1, hne]
  obtain _ | ⟨c, l⟩ := l
  · simp [Seg, h.seg.1]
  obtain ⟨⟨hc, -⟩, hl⟩ := h.seg
  rw [List.mem_cons, not_or] at hb
  have hcl := (List.nodup_cons.mp h.nodup).1
  refine ⟨by simp [hc], hl.congr ?_ ?_ ?_ ?_⟩
  · simp [Ne.symm hb.1]
  · simp [hc]
  · intro d hd
    have hdb : d ≠ b := fun heq => hb.2 (heq ▸ hd)
    simp [hdb]
  intro d hd
  have hdb : d ≠ b := fun heq => hb.2 (heq ▸ hd)
  have hdc : d ≠ c := fun heq => hcl (heq ▸ hd)
  simp [hdb, hdc, hc]

theorem Ring.foldl_insertFront {bs : List α} (h : L.Ring l) (hnodup : bs.Nodup)
    (hdisj : ∀ b ∈ bs, b ∉ l) : (bs.foldl Links.insertFront L).Ring (bs.reverse ++ l) := by
  induction bs generalizing L l with
  | nil => exact h
  | cons b bs ih =>
    rw [List.nodup_cons] at hnodup
    rw [List.forall_mem_cons] at hdisj
    rw [List.foldl_cons, List.reverse_cons, List.append_assoc]
    refine ih (h.insertFront hdisj.1) hnodup.2 fun c hc => ?_
    rw [List.singleton_append, List.mem_cons, not_or]
    exact ⟨fun heq => hnodup.1 (heq ▸ hc), hdisj.2 c hc⟩

theorem Ring.unlink (h : L.Ring l) (hb : b ∈ l) : (L.unlink b).Ring (l.erase b) := by
  obtain ⟨l₁, l₂, rfl⟩ := List.append_of_mem hb
  have hnodup := h.nodup
  rw [List.nodup_append, List.nodup_cons] at hnodup
  obtain ⟨hn1, ⟨hb2, hn2⟩, hdisj⟩ := hnodup
  have hb1 : b ∉ l₁ := fun hmem => hdisj b hmem b List.mem_cons_self rfl
  rw [List.erase_append_right _ hb1, List.erase_cons_head]
  obtain ⟨h1, h2⟩ := seg_append.mp h.seg
  have hmap : (none :: l₁.map some).Nodup :=
    List.nodup_cons.mpr ⟨by simp, hn1.map (Option.some_injective α)⟩
  -- the nodes before `b` now lead to the one after it
  have hback : ∀ c ∈ l₁, some c ≠ L.next (some b) → (L.unlink b).prev (some c) = L.prev (some c) :=
    fun c _ hne => Function.update_of_ne hne _ _
  have hfront : ∀ z, L.next (some b) = z → (∀ c ∈ l₁, some c ≠ z) → (L.unlink b).Seg none l₁ z := by
    intro z hz hne
    refine h1.retarget hmap ⟨?_, ?_⟩ (fun u hu => Function.update_of_ne hu _ _)
      fun c hc => hback c hc (hz ▸ hne c hc)
    · exact (Function.update_self _ _ _).trans hz
    · rw [← hz]
      exact Function.update_self _ _ _
  have hnodup' : (l₁ ++ l₂).Nodup :=
    List.nodup_append.mpr ⟨hn1, hn2, fun u hu v hv => hdisj u hu v (List.mem_cons_of_mem b hv)⟩
  refine ⟨hnodup', ?_⟩
  obtain _ | ⟨c, l₂⟩ := l₂
  · rw [List.append_nil]
    exact hfront none h2.1 fun c _ => Option.some_ne_none c
  obtain ⟨⟨hc, -⟩, hl2⟩ := h2
  have hcl1 : ∀ d ∈ l₁, some d ≠ some c := fun d hd heq =>
    hdisj d hd c (List.mem_cons_of_mem b List.mem_cons_self) (Option.some.inj heq)
  refine seg_append.mpr ⟨hfront (some c) hc hcl1, ?_⟩
  have hpred : L.prev (some b) ∈ none :: l₁.map some := by
    obtain rfl | ⟨l₁, d, rfl⟩ := l₁.eq_nil_or_concat
    · simp [h1.2]
    · rw [List.concat_eq_append] at h1 ⊢
      obtain ⟨-, -, hd⟩ := seg_append.mp h1
      simp [hd]
  have hafter : ∀ d ∈ c :: l₂, some d ≠ L.prev (some b) := by
    intro d hd heq
    rw [← heq, List.mem_cons, List.mem_map] at hpred
    obtain hnone | ⟨e, he, hed⟩ := hpred
    · exact Option.some_ne_none d hnone
    · exact hdisj e he d (List.mem_cons_of_mem b hd) (Option.some.inj hed)
  refine hl2.congr ?_ ?_ ?_ ?_
  · exact Function.update_of_ne (hafter c List.mem_cons_self) _ _
  · refine Function.update_of_ne ?_ _ _
    rw [hc]
    exact (Option.some_ne_none c).symm
  · exact fun d hd => Function.update_of_ne (hafter d (List.mem_cons_of_mem c hd)) _ _
  intro d hd
  refine Function.update_of_ne ?_ _ _
  rw [hc]
  exact fun heq => (List.nodup_cons.mp hn2).1 (Option.some.inj heq ▸ hd)

end Links

end Xv6

import Xv6.Param

/-!
# C strings in a buffer

The strings that the user programs keep in a buffer: where one starts, its characters follow, and
a null ends it.
-/

namespace Xv6.User

abbrev Buf := ℕ → UInt8

/-- The C string at `p`. The number bounds the search for the null. -/
def cstr (buf : Buf) : ℕ → ℕ → List UInt8
  | 0, _ => []
  | k + 1, p => if buf p = 0 then [] else buf p :: cstr buf k (p + 1)

/-- The first place from `p` on with the character `c`, before the null. -/
def strchr (buf : Buf) (c : UInt8) : ℕ → ℕ → Option ℕ
  | 0, _ => none
  | k + 1, p => if buf p = 0 then none else if buf p = c then some p else strchr buf c k (p + 1)

structure IsString (buf : Buf) (p : ℕ) (l : List UInt8) : Prop where
  byte : ∀ i < l.length, buf (p + i) = l.getD i 0
  null : buf (p + l.length) = 0
  ne_zero : ∀ x ∈ l, x ≠ 0

namespace IsString

variable {buf : Buf} {p : ℕ} {l l' : List UInt8} {c : UInt8}

theorem head (h : IsString buf p (c :: l)) : buf p = c ∧ c ≠ 0 :=
  ⟨by simpa using h.byte 0 (by simp), h.ne_zero c (by simp)⟩

theorem tail (h : IsString buf p (c :: l)) : IsString buf (p + 1) l where
  byte i hi := by
    have := h.byte (i + 1) (by simp; omega)
    rwa [List.getD_cons_succ, show p + (i + 1) = p + 1 + i by omega] at this
  null := by
    have := h.null
    rwa [List.length_cons, show p + (l.length + 1) = p + 1 + l.length by omega] at this
  ne_zero x hx := h.ne_zero x (List.mem_cons_of_mem c hx)

theorem append (h : IsString buf p (l ++ l')) : IsString buf (p + l.length) l' := by
  induction l generalizing p with
  | nil => exact h
  | cons c l ih =>
    have := ih h.tail
    rwa [show p + 1 + l.length = p + (c :: l).length by simp; omega] at this

theorem congr {buf' : Buf} (h : IsString buf p l) (hbuf : ∀ i, p ≤ i → buf' i = buf i) :
    IsString buf' p l where
  byte i hi := by rw [hbuf _ (by omega), h.byte i hi]
  null := by rw [hbuf _ (by omega), h.null]
  ne_zero := h.ne_zero

theorem cstr_eq (h : IsString buf p l) {k : ℕ} (hk : l.length < k) : cstr buf k p = l := by
  induction l generalizing p k with
  | nil =>
    obtain ⟨k, rfl⟩ := Nat.exists_eq_succ_of_ne_zero (show k ≠ 0 by omega)
    rw [cstr, if_pos (by simpa using h.null)]
  | cons c l ih =>
    obtain ⟨k, rfl⟩ := Nat.exists_eq_succ_of_ne_zero (show k ≠ 0 by omega)
    rw [cstr, h.head.1, if_neg h.head.2, ih h.tail (by simp at hk; omega)]

theorem strchr_none (h : IsString buf p l) (hc : c ∉ l) (k : ℕ) : strchr buf c k p = none := by
  induction l generalizing p k with
  | nil =>
    rcases k with _ | k
    · rfl
    · rw [strchr, if_pos (by simpa using h.null)]
  | cons d l ih =>
    rcases k with _ | k
    · rfl
    · rw [List.mem_cons, not_or] at hc
      rw [strchr, h.head.1, if_neg h.head.2, if_neg (Ne.symm hc.1)]
      exact ih h.tail hc.2 k

theorem strchr_some (h : IsString buf p (l ++ c :: l')) (hc : c ∉ l) {k : ℕ} (hk : l.length < k) :
    strchr buf c k p = some (p + l.length) := by
  induction l generalizing p k with
  | nil =>
    obtain ⟨k, rfl⟩ := Nat.exists_eq_succ_of_ne_zero (show k ≠ 0 by omega)
    rw [List.nil_append] at h
    rw [strchr, h.head.1, if_neg h.head.2, if_pos rfl, List.length_nil, Nat.add_zero]
  | cons d l ih =>
    obtain ⟨k, rfl⟩ := Nat.exists_eq_succ_of_ne_zero (show k ≠ 0 by omega)
    rw [List.cons_append] at h
    rw [List.mem_cons, not_or] at hc
    rw [strchr, h.head.1, if_neg h.head.2, if_neg (Ne.symm hc.1),
      ih h.tail hc.2 (by simp at hk; omega), List.length_cons]
    congr 1
    omega

end IsString

end Xv6.User

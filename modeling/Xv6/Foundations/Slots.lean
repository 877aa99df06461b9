import Mathlib.Data.List.Basic
import Mathlib.Order.Nat
import Mathlib.Tactic.Common

/-!
# Maps kept in slots

A list of slots, each empty or with a key and a value, is a finite map when no key is in two slots.
-/

namespace Xv6.Slots

variable {κ ν : Type*}

def put (l : List (Option (κ × ν))) (i : ℕ) (e : Option (κ × ν)) : List (Option (κ × ν)) :=
  l.take i ++ e :: l.drop (i + 1)

def vacant : List (Option (κ × ν)) → ℕ
  | [] => 0
  | none :: _ => 0
  | some _ :: l => vacant l + 1

def Distinct (l : List (Option (κ × ν))) : Prop :=
  ∀ (i j : ℕ) k v w, l[i]? = some (some (k, v)) → l[j]? = some (some (k, w)) → i = j

variable {l : List (Option (κ × ν))} {i : ℕ} {e : Option (κ × ν)}

theorem getElem?_put (h : i ≤ l.length) (j : ℕ) :
    (put l i e)[j]? = if j = i then some e else l[j]? := by
  have hlen : (l.take i).length = i := by simp [h]
  rcases lt_trichotomy j i with hlt | rfl | hgt
  · rw [put, List.getElem?_append_left (by omega), List.getElem?_take, if_pos hlt,
      if_neg (by omega)]
  · rw [put, List.getElem?_append_right (by omega), hlen, if_pos rfl]
    simp
  obtain ⟨d, rfl⟩ : ∃ d, j = i + 1 + d := ⟨j - (i + 1), by omega⟩
  have hpos : i + 1 + d - i = d + 1 := by omega
  rw [put, List.getElem?_append_right (by omega), hlen, hpos, List.getElem?_cons_succ,
    List.getElem?_drop, if_neg (by omega)]

theorem vacant_le : ∀ l : List (Option (κ × ν)), vacant l ≤ l.length
  | [] => le_rfl
  | none :: _ => Nat.zero_le _
  | some _ :: l => Nat.succ_le_succ (vacant_le l)

theorem getElem?_vacant : ∀ (l : List (Option (κ × ν))) (e : κ × ν), l[vacant l]? ≠ some (some e)
  | [], _ => by simp [vacant]
  | none :: _, _ => by simp [vacant]
  | some _ :: l, e => by simpa [vacant] using getElem?_vacant l e

theorem distinct_of_empty (h : ∀ e ∈ l, e = none) : Distinct l := by
  intro i j k v w hi _
  cases h _ (List.mem_of_getElem? hi)

theorem Distinct.clear (h : Distinct l) (hi : i ≤ l.length) : Distinct (put l i none) := by
  intro a b k v w ha hb
  rw [getElem?_put hi] at ha hb
  split at ha
  · cases ha
  · split at hb
    · cases hb
    · exact h a b k v w ha hb

section Find

variable [DecidableEq κ]

def find (k : κ) : List (Option (κ × ν)) → Option (ν × ℕ)
  | [] => none
  | none :: l => (find k l).map fun r => (r.1, r.2 + 1)
  | some (k', v) :: l => if k = k' then some (v, 0) else (find k l).map fun r => (r.1, r.2 + 1)

variable {k k' : κ} {v : ν}

theorem getElem?_of_find {r : ν × ℕ} : ∀ {l : List (Option (κ × ν))}, find k l = some r →
    l[r.2]? = some (some (k, r.1))
  | [], h => by cases h
  | none :: l, h => by
    obtain ⟨q, hq, rfl⟩ := Option.map_eq_some_iff.mp h
    exact getElem?_of_find (l := l) hq
  | some (k', v) :: l, h => by
    rw [find] at h
    split at h
    · next heq =>
      cases h
      rw [heq]
      rfl
    · obtain ⟨q, hq, rfl⟩ := Option.map_eq_some_iff.mp h
      exact getElem?_of_find (l := l) hq

theorem lt_length_of_find {r : ν × ℕ} (h : find k l = some r) : r.2 < l.length :=
  (List.getElem?_eq_some_iff.mp (getElem?_of_find h)).1

theorem find_ne_none : ∀ {l : List (Option (κ × ν))} {i : ℕ}, l[i]? = some (some (k, v)) →
    find k l ≠ none
  | [], i, h => by cases h
  | none :: l, 0, h => by cases h
  | none :: l, i + 1, h => by
    rw [find, ne_eq, Option.map_eq_none_iff]
    exact find_ne_none (l := l) (i := i) h
  | some (k', v') :: l, 0, h => by
    cases h
    simp [find]
  | some (k', v') :: l, i + 1, h => by
    rw [find]
    split
    · exact Option.some_ne_none _
    · rw [ne_eq, Option.map_eq_none_iff]
      exact find_ne_none (l := l) (i := i) h

variable (h : Distinct l)

include h

theorem find_eq_some_iff : find k l = some (v, i) ↔ l[i]? = some (some (k, v)) := by
  refine ⟨getElem?_of_find, fun hi => ?_⟩
  obtain ⟨⟨w, j⟩, hj⟩ := Option.ne_none_iff_exists'.mp (find_ne_none hi)
  have hget := getElem?_of_find hj
  obtain rfl := h i j k v w hi hget
  rw [hi] at hget
  simp only [Option.some.injEq, Prod.mk.injEq, true_and] at hget
  rw [hj, hget]

theorem Distinct.put (hi : i ≤ l.length) (hk : find k l = none) :
    Distinct (put l i (some (k, v))) := by
  have hnew : ∀ a w, l[a]? ≠ some (some (k, w)) := fun a w ha => find_ne_none ha hk
  intro a b k' x y ha hb
  rw [getElem?_put hi] at ha hb
  split at ha
  · cases ha
    split at hb
    · omega
    · exact absurd hb (hnew b y)
  split at hb
  · cases hb
    exact absurd ha (hnew a x)
  · exact h a b k' x y ha hb

theorem find_put_self (hi : i ≤ l.length) (hk : find k l = none) :
    find k (Slots.put l i (some (k, v))) = some (v, i) := by
  rw [find_eq_some_iff (h.put hi hk), getElem?_put hi, if_pos rfl]

theorem find_put_of_ne (h' : Distinct (Slots.put l i e)) (hi : i ≤ l.length)
    (hold : ∀ w, l[i]? ≠ some (some (k, w))) (hnew : ∀ w, e ≠ some (k, w)) :
    find k (Slots.put l i e) = find k l := by
  refine Option.ext fun r => ?_
  obtain ⟨v, j⟩ := r
  rw [find_eq_some_iff h', find_eq_some_iff h, getElem?_put hi]
  split
  · next heq =>
    rw [heq]
    exact iff_of_false (fun hr => hnew v (Option.some.inj hr)) (hold v)
  · rfl

theorem find_clear_self (hk : find k l = some (v, i)) :
    find k (Slots.put l i none) = none := by
  have hi : i ≤ l.length := Nat.le_of_lt (lt_length_of_find hk)
  by_contra hne
  obtain ⟨⟨w, j⟩, hj⟩ := Option.ne_none_iff_exists'.mp hne
  have hget := getElem?_of_find hj
  rw [getElem?_put hi] at hget
  split at hget
  · cases hget
  · next hji => exact hji (h j i k w v hget (getElem?_of_find hk))

theorem find_clear_of_ne (hk : find k l = some (v, i)) (hne : k' ≠ k) :
    find k' (Slots.put l i none) = find k' l := by
  have hi : i ≤ l.length := Nat.le_of_lt (lt_length_of_find hk)
  refine find_put_of_ne h (h.clear hi) hi (fun w hw => ?_) (fun w => by simp)
  rw [getElem?_of_find hk] at hw
  cases hw
  exact hne rfl

end Find

end Xv6.Slots

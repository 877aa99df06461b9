import Mathlib.Data.List.Basic
import Mathlib.Data.Nat.ModEq
import Mathlib.Logic.Function.Basic

/-!
# Windows of a ring

A ring of `N` places with two free-running indices that count modulo a multiple `M` of `N`.
-/

namespace Xv6.Window

variable {α : Type*} {N M lo hi : ℕ}

def dist (M lo hi : ℕ) : ℕ := (hi + (M - lo)) % M

def entries (N M : ℕ) (ring : ℕ → α) (lo hi : ℕ) : List α :=
  (List.range (dist M lo hi)).map fun k => ring ((lo + k) % M % N)

@[simp] theorem length_entries (ring : ℕ → α) :
    (entries N M ring lo hi).length = dist M lo hi := by simp [entries]

variable (hlo : lo < M)

include hlo

theorem dist_eq (hhi : hi < M) :
    dist M lo hi = if lo ≤ hi then hi - lo else hi + M - lo := by
  rw [dist]
  split
  case isTrue hle =>
    rw [show hi + (M - lo) = hi - lo + M by omega, Nat.add_mod_right]
    exact Nat.mod_eq_of_lt (by omega)
  case isFalse hgt =>
    rw [← Nat.add_sub_assoc hlo.le]
    exact Nat.mod_eq_of_lt (by omega)

theorem dist_eq_zero (hhi : hi < M) : dist M lo hi = 0 ↔ lo = hi := by
  rw [dist_eq hlo hhi]
  split <;> omega

theorem add_dist (hhi : hi < M) : (lo + dist M lo hi) % M = hi := by
  rw [dist_eq hlo hhi]
  split
  case isTrue hle => rw [Nat.add_sub_cancel' hle, Nat.mod_eq_of_lt hhi]
  case isFalse hgt =>
    rw [show lo + (hi + M - lo) = hi + M by omega, Nat.add_mod_right, Nat.mod_eq_of_lt hhi]

omit hlo

theorem succ_mod {i : ℕ} (hi : i < M) :
    i + 1 < M ∧ (i + 1) % M = i + 1 ∨ i + 1 = M ∧ (i + 1) % M = 0 := by
  rcases Nat.lt_or_ge (i + 1) M with hlt | hge
  · exact .inl ⟨hlt, Nat.mod_eq_of_lt hlt⟩
  · obtain rfl : i + 1 = M := by omega
    exact .inr ⟨rfl, Nat.mod_self _⟩

include hlo

theorem dist_succ_right (hhi : hi < M) (hroom : dist M lo hi + 1 < M) :
    dist M lo ((hi + 1) % M) = dist M lo hi + 1 := by
  have hpos : 0 < M := by omega
  rw [dist_eq hlo (Nat.mod_lt _ hpos)]
  rw [dist_eq hlo hhi] at hroom ⊢
  rcases succ_mod hhi with ⟨hlt, hs⟩ | ⟨hlt, hs⟩ <;> rw [hs] <;> split_ifs at hroom ⊢ <;> omega

theorem dist_succ_left (hhi : hi < M) (hne : lo ≠ hi) :
    dist M lo hi = dist M ((lo + 1) % M) hi + 1 := by
  have hpos : 0 < M := by omega
  rw [dist_eq hlo hhi, dist_eq (Nat.mod_lt _ hpos) hhi]
  rcases succ_mod hlo with ⟨hlt, hs⟩ | ⟨hlt, hs⟩ <;> rw [hs] <;> split_ifs <;> omega

theorem entries_eq_nil (hhi : hi < M) (ring : ℕ → α) :
    entries N M ring lo hi = [] ↔ lo = hi := by
  rw [← dist_eq_zero hlo hhi, ← length_entries ring, List.length_eq_zero_iff]

omit hlo

theorem place_ne (hdvd : N ∣ M) (hlo : lo < M) (hhi : hi < M) (hroom : dist M lo hi < N) {k : ℕ}
    (hk : k < dist M lo hi) : (lo + k) % M % N ≠ hi % N := by
  intro heq
  rw [← add_dist hlo hhi, Nat.mod_mod_of_dvd _ hdvd, Nat.mod_mod_of_dvd _ hdvd] at heq
  have hmod : k % N = dist M lo hi % N := Nat.ModEq.add_left_cancel' lo heq
  rw [Nat.mod_eq_of_lt hroom, Nat.mod_eq_of_lt (hk.trans hroom)] at hmod
  exact absurd hmod hk.ne

theorem entries_update (hdvd : N ∣ M) (hlo : lo < M) (hhi : hi < M) (hroom : dist M lo hi < N)
    (ring : ℕ → α) (v : α) :
    entries N M (Function.update ring (hi % N) v) lo hi = entries N M ring lo hi := by
  refine List.map_congr_left fun k hk => ?_
  rw [List.mem_range] at hk
  exact Function.update_of_ne (place_ne hdvd hlo hhi hroom hk) ..

include hlo

theorem entries_push (hhi : hi < M) (hroom : dist M lo hi + 1 < M)
    (ring : ℕ → α) :
    entries N M ring lo ((hi + 1) % M) = entries N M ring lo hi ++ [ring (hi % N)] := by
  rw [entries, dist_succ_right hlo hhi hroom, List.range_succ, List.map_append, List.map_singleton,
    add_dist hlo hhi, entries]

theorem entries_pop (hhi : hi < M) (hne : lo ≠ hi) (ring : ℕ → α) :
    entries N M ring lo hi = ring (lo % N) :: entries N M ring ((lo + 1) % M) hi := by
  rw [entries, dist_succ_left hlo hhi hne, List.range_succ_eq_map, List.map_cons, List.map_map,
    Nat.add_zero, Nat.mod_eq_of_lt hlo, entries]
  congr 1
  refine List.map_congr_left fun k _ => ?_
  rw [Function.comp_apply, Nat.mod_add_mod, Nat.succ_eq_add_one, Nat.add_assoc, Nat.add_comm 1 k]

end Xv6.Window

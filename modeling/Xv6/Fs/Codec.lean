import Xv6.Fs.Format

/-!
# Reading back what was written

The round trips of the on-disk format: bytes and words of a block, directory entries, and the names
they hold.
-/

namespace Xv6.Fs

/-! ## Bytes and words of a block -/

theorem leByte_toNat (v k : ℕ) : (leByte v k).toNat = v / 256 ^ k % 256 := by simp [leByte]

theorem leNum_word {v : ℕ} (h : v < 2 ^ 32) :
    leNum [leByte v 0, leByte v 1, leByte v 2, leByte v 3] = v := by
  simp only [leNum, leByte_toNat]
  omega

theorem leNum_half {v : ℕ} (h : v < 2 ^ 16) : leNum [leByte v 0, leByte v 1] = v := by
  simp only [leNum, leByte_toNat]
  omega

namespace Block

variable (a : Block) (off m : ℕ) (bytes : List UInt8)

@[simp] theorem length_read : (a.read off m).length = m := by simp [read]

theorem write_of_mem {o : ℕ} (h : off ≤ o ∧ o < off + bytes.length) :
    a.write off bytes o = bytes.getD (o - off) 0 := if_pos h

theorem write_of_not_mem {o : ℕ} (h : ¬ (off ≤ o ∧ o < off + bytes.length)) :
    a.write off bytes o = a o := if_neg h

theorem read_write_self : (a.write off bytes).read off bytes.length = bytes := by
  refine List.ext_getElem (by simp) fun k hk hk' => ?_
  rw [length_read] at hk
  simp only [read, List.getElem_map, List.getElem_range]
  rw [write_of_mem a off bytes ⟨by omega, by omega⟩, Nat.add_sub_cancel_left,
    List.getD_eq_getElem _ _ hk']

theorem read_write_disjoint {off' : ℕ} (h : off' + m ≤ off ∨ off + bytes.length ≤ off') :
    (a.write off bytes).read off' m = a.read off' m := by
  simp only [read, List.map_inj_left, List.mem_range]
  intro k hk
  exact write_of_not_mem a off bytes (by omega)

theorem word_setWord_self {j v : ℕ} (hv : v < 2 ^ 32) : (a.setWord j v).word j = v := by
  have h := read_write_self a (4 * j) [leByte v 0, leByte v 1, leByte v 2, leByte v 3]
  exact (congrArg leNum h).trans (leNum_word hv)

theorem word_setWord_of_ne {j k : ℕ} (v : ℕ) (h : k ≠ j) : (a.setWord j v).word k = a.word k := by
  have hfar : 4 * k + 4 ≤ 4 * j ∨ 4 * j + [leByte v 0, leByte v 1, leByte v 2, leByte v 3].length ≤
      4 * k := by
    simp only [List.length_cons, List.length_nil]
    omega
  rw [word, setWord, read_write_disjoint _ _ _ _ hfar, word]

@[simp] theorem word_zero (j : ℕ) : zero.word j = 0 := by
  simp [word, zero, read, List.range_succ, leNum]

end Block

/-! ## Directory entries -/

theorem Dirent.ofBytes_toBytes {de : Dirent} (h : de.inum < 2 ^ 16) :
    Dirent.ofBytes de.toBytes = de := by simp [Dirent.ofBytes, Dirent.toBytes, leNum_half h]

theorem length_strncpy : ∀ (n : ℕ) (t : List UInt8), (strncpy n t).length = n
  | 0, _ => rfl
  | n + 1, t => by
    unfold strncpy
    split
    · simp
    · simp [length_strncpy n]

/-! ## Names -/

def cstr : ℕ → List UInt8 → List UInt8
  | 0, _ => []
  | n + 1, t => if t.headD 0 = 0 then [] else t.headD 0 :: cstr n t.tail

@[simp] theorem cstr_nil : ∀ n, cstr n [] = []
  | 0 => rfl
  | _ + 1 => rfl

theorem cstr_cons (n : ℕ) (c : UInt8) (t : List UInt8) :
    cstr (n + 1) (c :: t) = if c = 0 then [] else c :: cstr n t := rfl

theorem strncmp_eq_zero_iff : ∀ {n : ℕ} {p q : List UInt8},
    strncmp n p q = 0 ↔ cstr n p = cstr n q
  | 0, _, _ => by simp [strncmp, cstr]
  | n + 1, p, q => by
    have hdiff : ∀ a b : UInt8, (a.toNat : ℤ) - b.toNat = 0 ↔ a = b := by
      intro a b
      rw [sub_eq_zero, Nat.cast_inj, UInt8.toNat_inj]
    unfold strncmp cstr
    by_cases hp : p.headD 0 = 0
    · rw [if_neg fun h => h.1 hp, hdiff, if_pos hp, hp]
      by_cases hq : q.headD 0 = 0
      · rw [if_pos hq, hq]
        simp
      · rw [if_neg hq]
        exact iff_of_false (Ne.symm hq) (List.cons_ne_nil _ _).symm
    rw [if_neg hp]
    by_cases heq : p.headD 0 = q.headD 0
    · rw [if_pos ⟨hp, heq⟩, ← heq, if_neg hp, strncmp_eq_zero_iff, List.cons.injEq]
      simp
    rw [if_neg fun h => heq h.2, hdiff]
    refine iff_of_false heq fun h => ?_
    by_cases hq : q.headD 0 = 0
    · rw [if_pos hq] at h
      cases h
    · rw [if_neg hq, List.cons.injEq] at h
      exact heq h.1

theorem cstr_strncpy : ∀ (n : ℕ) (t : List UInt8), cstr n (strncpy n t) = cstr n t
  | 0, _ => rfl
  | n + 1, t => by
    unfold strncpy
    by_cases h : t.headD 0 = 0
    · rw [if_pos h, List.replicate_succ, cstr_cons, if_pos rfl, cstr, if_pos h]
    · rw [if_neg h, cstr_cons, if_neg h, cstr_strncpy n, cstr, if_neg h]

def nameOf (t : List UInt8) : List UInt8 := cstr DIRSIZ t

theorem namecmp_eq_zero_iff {s t : List UInt8} : namecmp s t = 0 ↔ nameOf s = nameOf t :=
  strncmp_eq_zero_iff

theorem nameOf_strncpy (t : List UInt8) : nameOf (strncpy DIRSIZ t) = nameOf t :=
  cstr_strncpy DIRSIZ t

end Xv6.Fs

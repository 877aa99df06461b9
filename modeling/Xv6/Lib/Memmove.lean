import Xv6.Param

/-!
# Moving memory

`memmove` of `kernel/string.c` and of `user/ulib.c`. Both copy up or down one byte at a time, and
they choose the direction by different tests. Addresses wrap as pointers do, so the distance from
one region to the other is a subtraction of addresses: a copy upwards is right when the destination
is not less than `n` bytes past the source (`copyUp_apply`), and a copy downwards when the source is
not less than `n` bytes past the destination (`copyDown_apply`).

## Main results

* `memmove_moves`: both versions move memory, whatever the overlap
-/

namespace Xv6.Lib

open Function

abbrev Addr := BitVec 64

abbrev Mem := Addr → UInt8

/-- `while (n-- > 0) *d++ = *s++`. -/
def copyUp (mem : Mem) (d s : Addr) : ℕ → Mem
  | 0 => mem
  | n + 1 => copyUp (update mem d (mem s)) (d + 1) (s + 1) n

/-- `while (n-- > 0) *--d = *--s`. -/
def copyDown (mem : Mem) (d s : Addr) : ℕ → Mem
  | 0 => mem
  | n + 1 => copyDown (update mem (d - 1) (mem (s - 1))) (d - 1) (s - 1) n

namespace Kernel

/-- `memmove` of `string.c`: the pointer it returns and the memory it leaves. -/
def memmove (mem : Mem) (dst src : Addr) (n : BitVec 32) : Addr × Mem :=
  if n = 0 then (dst, mem)
  else if src < dst ∧ src + n.setWidth 64 > dst then
    (dst, copyDown mem (dst + n.setWidth 64) (src + n.setWidth 64) n.toNat)
  else (dst, copyUp mem dst src n.toNat)

end Kernel

namespace User

/-- `memmove` of `ulib.c`. Its `n` is an `int`, and a loop `while (n-- > 0)` from a negative `n`
does nothing. -/
def memmove (mem : Mem) (vdst vsrc : Addr) (n : BitVec 32) : Addr × Mem :=
  if vsrc > vdst then (vdst, copyUp mem vdst vsrc n.toInt.toNat)
  else (vdst, copyDown mem (vdst + n.signExtend 64) (vsrc + n.signExtend 64) n.toInt.toNat)

end User

/-- The memory with the `n` bytes from `src` on moved to `dst`: every byte is read from the memory
as it was. -/
def moved (mem : Mem) (dst src : Addr) (n : ℕ) : Mem := fun a =>
  if (a - dst).toNat < n then mem (src + (a - dst)) else mem a

section Loops

variable {mem : Mem} {d s : Addr} {n : ℕ}

/-- A copy upwards writes `d` before it reads the other bytes of the source. None of them is at `d`
unless the two regions are the same. -/
theorem copyUp_apply (hn : n ≤ 2 ^ 64) (h : d = s ∨ n ≤ (d - s).toNat) (a : Addr) :
    copyUp mem d s n a = moved mem d s n a := by
  induction n generalizing mem d s with
  | zero => simp [copyUp, moved]
  | succ n ih =>
    have hnext : d + 1 = s + 1 ∨ n ≤ (d + 1 - (s + 1)).toNat := by
      rcases h with rfl | h
      · exact Or.inl rfl
      · exact Or.inr (by bv_omega)
    have hoff : s + 1 + (a - (d + 1)) = s + (a - d) := by bv_omega
    rw [copyUp, ih (by omega) hnext]
    simp only [moved, hoff]
    by_cases had : a = d
    · -- the byte written first is not written again
      subst had
      have hlast : ¬(a - (a + 1)).toNat < n := by bv_omega
      rw [if_neg hlast, update_self, if_pos (by simp), BitVec.sub_self, BitVec.add_zero]
    have hiff : (a - (d + 1)).toNat < n ↔ (a - d).toNat < n + 1 := by bv_omega
    simp only [hiff, update_of_ne had]
    by_cases hin : (a - d).toNat < n + 1
    · rw [if_pos hin, if_pos hin]
      by_cases hs : s + (a - d) = d
      · rcases h with rfl | h
        · exact absurd hs (by bv_omega)
        · exact absurd h (by bv_omega)
      · rw [update_of_ne hs]
    · rw [if_neg hin, if_neg hin]

theorem copyDown_apply (hn : n ≤ 2 ^ 64) (h : s = d ∨ n ≤ (s - d).toNat) (a : Addr) :
    copyDown mem (d + BitVec.ofNat 64 n) (s + BitVec.ofNat 64 n) n a = moved mem d s n a := by
  induction n generalizing mem with
  | zero => simp [copyDown, moved]
  | succ n ih =>
    have hpred (x : Addr) : x + BitVec.ofNat 64 (n + 1) - 1 = x + BitVec.ofNat 64 n := by bv_omega
    have hnext : s = d ∨ n ≤ (s - d).toNat := h.imp_right (by omega)
    rw [copyDown, hpred, hpred, ih (by omega) hnext]
    simp only [moved]
    by_cases had : a = d + BitVec.ofNat 64 n
    · -- the byte written first is the last of the region
      subst had
      have hoff : d + BitVec.ofNat 64 n - d = BitVec.ofNat 64 n := by bv_omega
      have hval : (BitVec.ofNat 64 n).toNat = n := by simp; omega
      rw [hoff, hval, if_neg (by omega), if_pos (by omega), update_self]
    have hiff : (a - d).toNat < n ↔ (a - d).toNat < n + 1 := by bv_omega
    simp only [hiff, update_of_ne had]
    by_cases hin : (a - d).toNat < n + 1
    · rw [if_pos hin, if_pos hin]
      by_cases hs : s + (a - d) = d + BitVec.ofNat 64 n
      · rcases h with rfl | h
        · exact absurd hs (by bv_omega)
        · exact absurd h (by bv_omega)
      · rw [update_of_ne hs]
    · rw [if_neg hin, if_neg hin]

end Loops

section Regions

variable {mem : Mem} {dst src : Addr} {n : BitVec 32}

/-- The region of `n` bytes at `a` ends before the addresses wrap. -/
def NoWrap (a : Addr) (n : ℕ) : Prop := a.toNat + n ≤ 2 ^ 64

theorem setWidth_eq (n : BitVec 32) : n.setWidth 64 = BitVec.ofNat 64 n.toNat := by bv_omega

theorem kernel_memmove_eq (hd : NoWrap dst n.toNat) (hs : NoWrap src n.toNat) :
    Kernel.memmove mem dst src n = (dst, moved mem dst src n.toNat) := by
  have hlt : n.toNat ≤ 2 ^ 64 := by omega
  unfold NoWrap at hd hs
  unfold Kernel.memmove
  split_ifs with hn hover
  · subst hn
    rfl
  · -- the source begins first: downwards it is at least `n` bytes past the destination
    have hback : src = dst ∨ n.toNat ≤ (src - dst).toNat := Or.inr (by bv_omega)
    rw [setWidth_eq, funext (copyDown_apply hlt hback)]
  have hfront : dst = src ∨ n.toNat ≤ (dst - src).toNat := by
    by_cases heq : dst = src
    · exact Or.inl heq
    · exact Or.inr (by bv_omega)
  rw [funext (copyUp_apply hlt hfront)]

variable (h : 0 ≤ n.toInt)

include h

theorem msb_eq_false : n.msb = false := by
  rw [BitVec.msb_eq_toInt]
  simpa using h

theorem toInt_toNat : n.toInt.toNat = n.toNat := by
  rw [BitVec.toInt_eq_toNat_of_msb (msb_eq_false h), Int.toNat_natCast]

theorem signExtend_eq : n.signExtend 64 = BitVec.ofNat 64 n.toNat := by
  rw [BitVec.signExtend_eq_setWidth_of_msb_false (msb_eq_false h), setWidth_eq]

theorem user_memmove_eq (hd : NoWrap dst n.toNat) (hs : NoWrap src n.toNat) :
    User.memmove mem dst src n = (dst, moved mem dst src n.toNat) := by
  have hlt : n.toNat ≤ 2 ^ 64 := by omega
  unfold NoWrap at hd hs
  rw [User.memmove, toInt_toNat h, signExtend_eq h]
  split_ifs with hgt
  · have hfront : dst = src ∨ n.toNat ≤ (dst - src).toNat := Or.inr (by bv_omega)
    rw [funext (copyUp_apply hlt hfront)]
  have hback : src = dst ∨ n.toNat ≤ (src - dst).toNat := by
    by_cases heq : src = dst
    · exact Or.inl heq
    · exact Or.inr (by bv_omega)
  rw [funext (copyDown_apply hlt hback)]

end Regions

/-- `mem'` has the `n` bytes that `mem` has at `src` at `dst`, and is `mem` elsewhere. -/
structure Moves (mem mem' : Mem) (dst src : Addr) (n : ℕ) : Prop where
  byte : ∀ i < n, mem' (dst + BitVec.ofNat 64 i) = mem (src + BitVec.ofNat 64 i)
  frame : ∀ a : Addr, ¬(dst.toNat ≤ a.toNat ∧ a.toNat < dst.toNat + n) → mem' a = mem a

theorem moves_moved (mem : Mem) {dst : Addr} (src : Addr) {n : ℕ} (hd : NoWrap dst n) :
    Moves mem (moved mem dst src n) dst src n := by
  unfold NoWrap at hd
  constructor
  · intro i hi
    have hoff : dst + BitVec.ofNat 64 i - dst = BitVec.ofNat 64 i := by bv_omega
    have hval : (BitVec.ofNat 64 i).toNat = i := by simp; omega
    rw [moved, hoff, hval, if_pos hi]
  · intro a ha
    have hout : ¬(a - dst).toNat < n := by bv_omega
    rw [moved, if_neg hout]

/-- **Both `memmove`s move memory, whatever the overlap.** Where the addresses do not wrap, each
leaves the old bytes of the source at the destination and every other byte as it was, so the two
agree. -/
theorem memmove_moves (mem : Mem) (dst src : Addr) (n : BitVec 32) (hd : NoWrap dst n.toNat)
    (hs : NoWrap src n.toNat) :
    Moves mem (Kernel.memmove mem dst src n).2 dst src n.toNat ∧
      (0 ≤ n.toInt → Moves mem (User.memmove mem dst src n).2 dst src n.toNat ∧
        User.memmove mem dst src n = Kernel.memmove mem dst src n) := by
  have hmoved := moves_moved mem src hd
  rw [kernel_memmove_eq hd hs]
  refine ⟨hmoved, fun h => ?_⟩
  rw [user_memmove_eq h hd hs]
  exact ⟨hmoved, rfl⟩

/-- A memory whose bytes are their addresses. -/
def addresses : Mem := fun a => UInt8.ofNat a.toNat

/-- Four bytes moved up by two to the end of the address space: the regions overlap. -/
theorem memmove_moves_overlap :
    (Kernel.memmove addresses (-4) (-6) 4).2 (-3) = 251 ∧
      Moves addresses (Kernel.memmove addresses (-4) (-6) 4).2 (-4) (-6) 4 ∧
      Moves addresses (User.memmove addresses (-4) (-6) 4).2 (-4) (-6) 4 ∧
      User.memmove addresses (-4) (-6) 4 = Kernel.memmove addresses (-4) (-6) 4 := by
  have h := memmove_moves addresses (-4) (-6) 4 (by unfold NoWrap; decide)
    (by unfold NoWrap; decide)
  exact ⟨by decide, h.1, h.2 (by decide)⟩

end Xv6.Lib

import Xv6.Fs.Volume

/-!
# The content of files

A file is the sequence of its bytes, whatever blocks hold them.
-/

namespace Xv6.Fs

open Function

namespace Volume

variable {sb : Superblock} {v w x : Volume} {i : ℕ}

/-- Byte `o` of file `i`. -/
def byte (v : Volume) (i o : ℕ) : UInt8 := v.data (v.fileBlock i (o / BSIZE)) (o % BSIZE)

/-- The `m` bytes of file `i` from `off` on. -/
def bytes (v : Volume) (i off m : ℕ) : List UInt8 := (List.range m).map fun k => v.byte i (off + k)

@[simp] theorem length_bytes (i off m : ℕ) : (v.bytes i off m).length = m := by simp [bytes]

theorem bytes_add (i off m n : ℕ) :
    v.bytes i off (m + n) = v.bytes i off m ++ v.bytes i (off + m) n := by
  simp only [bytes, List.range_add, List.map_append, List.map_map, List.append_cancel_left_eq]
  refine List.map_congr_left fun k _ => ?_
  simp [Nat.add_assoc]

theorem read_block {off m : ℕ} (h : m ≤ BSIZE - off % BSIZE) :
    (v.data (v.fileBlock i (off / BSIZE))).read (off % BSIZE) m = v.bytes i off m := by
  refine List.map_congr_left fun k hk => ?_
  rw [List.mem_range] at hk
  have hB : 0 < BSIZE := by decide
  have hlt : off % BSIZE + k < BSIZE := by
    have := Nat.mod_lt off hB
    omega
  have hsum : off + k = off % BSIZE + k + BSIZE * (off / BSIZE) := by
    have := Nat.mod_add_div off BSIZE
    omega
  rw [byte, hsum, Nat.add_mul_div_left _ _ hB, Nat.add_mul_mod_self_left, Nat.div_eq_of_lt hlt,
    Nat.mod_eq_of_lt hlt, Nat.zero_add]

/-! ## Overwriting a range of a file -/

/-- `w` is `v` after the bytes `off .. off + len - 1` of inode `i` were overwritten by those of
`val`. -/
structure Written (sb : Superblock) (v w : Volume) (i off len : ℕ) (val : ℕ → UInt8) : Prop where
  owned : w.Owned sb
  inodes : SameInodes v w i
  block : ∀ j cn, v.fileBlock j cn ≠ 0 ∨ j ≠ i → w.fileBlock j cn = v.fileBlock j cn
  data : ∀ j cn, j ≠ i → v.fileBlock j cn ≠ 0 →
    w.data (v.fileBlock j cn) = v.data (v.fileBlock j cn)
  mapped : ∀ o, off ≤ o → o < off + len → w.fileBlock i (o / BSIZE) ≠ 0
  inside : ∀ o, off ≤ o → o < off + len → w.byte i o = val (o - off)
  outside : ∀ o, o < off ∨ off + len ≤ o → v.fileBlock i (o / BSIZE) ≠ 0 →
    w.byte i o = v.byte i o

variable {off len len' : ℕ} {val : ℕ → UInt8}

theorem Written.refl (h : v.Owned sb) (off : ℕ) (val : ℕ → UInt8) : Written sb v v i off 0 val where
  owned := h
  inodes := .refl v i
  block _ _ _ := rfl
  data _ _ _ _ := rfl
  mapped o h1 h2 := by omega
  inside o h1 h2 := by omega
  outside _ _ _ := rfl

theorem Written.trans (h : Written sb v w i off len val)
    (h' : Written sb w x i (off + len) len' fun k => val (len + k)) :
    Written sb v x i off (len + len') val where
  owned := h'.owned
  inodes := h.inodes.trans h'.inodes
  block j cn hne := by
    have hw := h.block j cn hne
    rw [← hw] at hne ⊢
    exact h'.block j cn hne
  data j cn hj hne := by
    have hw := h.block j cn (.inl hne)
    have hx := h'.data j cn hj (by rw [hw]; exact hne)
    rw [hw] at hx
    rw [hx, h.data j cn hj hne]
  mapped o h1 h2 := by
    by_cases ho : o < off + len
    · have hw := h.mapped o h1 ho
      rw [h'.block i _ (.inl hw)]
      exact hw
    · exact h'.mapped o (by omega) (by omega)
  inside o h1 h2 := by
    by_cases ho : o < off + len
    · rw [h'.outside o (.inl ho) (h.mapped o h1 ho), h.inside o h1 ho]
    · rw [h'.inside o (by omega) (by omega)]
      congr 1
      omega
  outside o ho hne := by
    have hw := h.block i _ (.inl hne)
    rw [h'.outside o (by omega) (by rw [hw]; exact hne), h.outside o (by omega) hne]

theorem Grows.written {bn a : ℕ} (h : Grows sb v w i bn a) (off : ℕ) (val : ℕ → UInt8) :
    Written sb v w i off 0 val where
  owned := h.owned
  inodes := h.inodes
  block j cn hne := by
    by_cases hjc : j ≠ i ∨ cn ≠ bn
    · exact h.block j cn hjc
    rw [not_or, not_not, not_not] at hjc
    obtain ⟨rfl, rfl⟩ := hjc
    rcases hne with hne | hne
    · rw [h.old hne]
    · exact absurd rfl hne
  data j cn _ hne := h.data j cn hne
  mapped o h1 h2 := by omega
  inside o h1 h2 := by omega
  outside o _ hne := by
    have hfb : w.fileBlock i (o / BSIZE) = v.fileBlock i (o / BSIZE) := by
      by_cases hb : o / BSIZE = bn
      · rw [hb] at hne ⊢
        rw [h.old hne]
      · exact h.block i _ (.inr hb)
    rw [byte, hfb, h.data i _ hne, byte]

theorem Owned.blockAt_setData (h : v.Owned sb) {cn : ℕ} (hne : v.fileBlock i cn ≠ 0) (b : Block) :
    (v.setData (v.fileBlock i cn) b).blockAt = v.blockAt := by
  have hind : ∀ j, v.blockAt (.slot j NDIRECT) ≠ v.fileBlock i cn := by
    intro j he
    exact Place.ofBlock_ne_indirect i cn j (h.excl.unique _ _ hne he.symm)
  funext P
  set u := v.setData (v.fileBlock i cn) b
  cases P with
  | slot j k => exact (blockAt_congr (v := v) (w := u) rfl (fun _ => update_of_ne (hind j) ..) k).1
  | entry j k => exact (blockAt_congr (v := v) (w := u) rfl (fun _ => update_of_ne (hind j) ..) k).2

theorem Owned.written (h : v.Owned sb) {off : ℕ} {bs : List UInt8}
    (hne : v.fileBlock i (off / BSIZE) ≠ 0) (hlen : off % BSIZE + bs.length ≤ BSIZE)
    (hval : ∀ k < bs.length, bs.getD k 0 = val k) :
    let b := v.fileBlock i (off / BSIZE)
    Written sb v (v.setData b ((v.data b).write (off % BSIZE) bs)) i off bs.length val := by
  intro b
  set u := v.setData b ((v.data b).write (off % BSIZE) bs) with hu
  have hB : 0 < BSIZE := by decide
  have hblockAt : u.blockAt = v.blockAt := h.blockAt_setData hne _
  have hblock : ∀ j cn, u.fileBlock j cn = v.fileBlock j cn := fun j cn => by
    rw [fileBlock, hblockAt, fileBlock]
  have hdata : ∀ j cn, v.fileBlock j cn ≠ 0 → (j ≠ i ∨ cn ≠ off / BSIZE) →
      u.data (v.fileBlock j cn) = v.data (v.fileBlock j cn) := by
    intro j cn hj hjc
    refine update_of_ne (fun he => ?_) ..
    have := Place.ofBlock_injective (h.excl.unique _ _ hj he)
    omega
  have hself : u.data b = (v.data b).write (off % BSIZE) bs := update_self ..
  have hpos : ∀ o, off ≤ o → o < off + bs.length → o / BSIZE = off / BSIZE ∧
      o % BSIZE = off % BSIZE + (o - off) := by
    intro o h1 h2
    have hdm := Nat.mod_add_div off BSIZE
    have hsum : o = off % BSIZE + (o - off) + BSIZE * (off / BSIZE) := by omega
    have hlt : off % BSIZE + (o - off) < BSIZE := by omega
    refine ⟨?_, ?_⟩
    · conv_lhs => rw [hsum]
      rw [Nat.add_mul_div_left _ _ hB, Nat.div_eq_of_lt hlt, Nat.zero_add]
    · conv_lhs => rw [hsum]
      rw [Nat.add_mul_mod_self_left, Nat.mod_eq_of_lt hlt]
  refine ⟨?_, .refl v i, fun j cn _ => hblock j cn, fun j cn hj hne' => hdata j cn hne' (.inl hj),
    fun o h1 h2 => ?_, fun o h1 h2 => ?_, fun o ho hne' => ?_⟩
  · refine h.of_grow ⟨?_, h.metadata⟩ (.refl v i) fun j cn hj => by rw [hblock]; exact hj
    rw [hblockAt]
    exact h.excl
  · rw [hblock, (hpos o h1 h2).1]
    exact hne
  · rw [byte, hblock, (hpos o h1 h2).1, (hpos o h1 h2).2, hself,
      Block.write_of_mem _ _ _ ⟨by omega, by omega⟩, Nat.add_sub_cancel_left,
      hval _ (by omega)]
  rw [byte, hblock, byte]
  by_cases hb : o / BSIZE = off / BSIZE
  · rw [hb, hself, Block.write_of_not_mem]
    intro hmem
    have hdm := Nat.mod_add_div off BSIZE
    have hom := Nat.mod_add_div o BSIZE
    rw [hb] at hom
    omega
  · rw [hdata i _ hne' (.inr hb)]

end Volume

end Xv6.Fs

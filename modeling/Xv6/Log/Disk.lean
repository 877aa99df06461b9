import Xv6.Param

/-!
# Disk blocks and the log header

A block is the sequence of its 32-bit words, two sectors of 128 words each.
-/

namespace Xv6.Log

open Function

/-- The contents of a block, word by word, a word read as an `int`. -/
abbrev Block := Fin (BSIZE / 4) → ℤ

abbrev Sectors := Fin 2 → Bool

namespace Block

def word (b : Block) (i : ℕ) : ℤ := if h : i < BSIZE / 4 then b ⟨i, h⟩ else 0

def setWord (b : Block) (i : ℕ) (x : ℤ) : Block := fun j => if j.val = i then x else b j

def sector (i : Fin (BSIZE / 4)) : Fin 2 := ⟨i.val / (512 / 4), by
  have := i.isLt
  simp only [BSIZE] at this
  omega⟩

def torn (keep : Sectors) (old new : Block) : Block :=
  fun i => if keep (sector i) then new i else old i

theorem word_setWord {b : Block} {i j : ℕ} {x : ℤ} (h : i < BSIZE / 4) :
    (b.setWord i x).word j = if j = i then x else b.word j := by
  unfold word setWord
  split
  · rfl
  · rename_i hj
    rw [if_neg (by rintro rfl; exact hj h)]

theorem word_torn {keep : Sectors} {old new : Block} {i : ℕ} (h : i < 512 / 4) :
    (torn keep old new).word i = if keep 0 then new.word i else old.word i := by
  have hlt : i < BSIZE / 4 := h.trans (by decide)
  have hsector : sector ⟨i, hlt⟩ = 0 := by
    simp only [sector, Fin.mk_eq_zero]
    omega
  simp only [word, dif_pos hlt, torn, hsector]

end Block

/-! ## The header -/

/-- The header found in a block, as `read_head` copies it: `n` and then `block[0..n)`, each entry
used as a block number. -/
def readHead (b : Block) : List ℕ :=
  (List.range (b.word 0).toNat).map fun i => uint32 (b.word (i + 1))

def putHead (b : Block) (lh : List ℕ) : Block :=
  lh.zipIdx.foldl (fun hb x => hb.setWord (x.2 + 1) (int32 x.1)) (b.setWord 0 lh.length)

theorem readHead_congr {b b' : Block} (hlen : (readHead b).length < 512 / 4)
    (h : ∀ i < 512 / 4, b'.word i = b.word i) : readHead b' = readHead b := by
  simp only [readHead, List.length_map, List.length_range] at hlen
  unfold readHead
  rw [h 0 (by decide)]
  refine List.map_congr_left fun i hi => ?_
  rw [List.mem_range] at hi
  rw [h (i + 1) (by omega)]

variable {lh : List ℕ}

theorem word_foldl_of_le {k j : ℕ} {b : Block} (hj : j ≤ k) (hlen : k + lh.length < BSIZE / 4) :
    ((lh.zipIdx k).foldl (fun hb x => hb.setWord (x.2 + 1) (int32 x.1)) b).word j = b.word j := by
  induction lh generalizing k b with
  | nil => rfl
  | cons y lh ih =>
    rw [List.length_cons] at hlen
    rw [List.zipIdx_cons, List.foldl_cons, ih (by omega) (by omega),
      Block.word_setWord (by omega), if_neg (by omega)]

theorem word_foldl_of_getElem? {k i x : ℕ} {b : Block} (hx : lh[i]? = some x)
    (hlen : k + lh.length < BSIZE / 4) :
    ((lh.zipIdx k).foldl (fun hb x => hb.setWord (x.2 + 1) (int32 x.1)) b).word (k + i + 1) =
      int32 x := by
  induction lh generalizing k i b with
  | nil => cases hx
  | cons y lh ih =>
    rw [List.length_cons] at hlen
    rw [List.zipIdx_cons, List.foldl_cons]
    cases i with
    | zero =>
      obtain rfl : y = x := by simpa using hx
      rw [word_foldl_of_le (by omega) (by omega), Block.word_setWord (by omega), if_pos (by omega)]
    | succ i =>
      have hrest := ih (k := k + 1) (b := b.setWord (k + 1) (int32 y)) (by simpa using hx) (by omega)
      rwa [show k + (i + 1) + 1 = k + 1 + i + 1 by omega]

theorem readHead_putHead {b : Block} (hlen : lh.length ≤ LOGBLOCKS)
    (huint : ∀ x ∈ lh, x < 2 ^ 32) : readHead (putHead b lh) = lh := by
  have hfit : 0 + lh.length < BSIZE / 4 := by
    have : LOGBLOCKS < BSIZE / 4 := by decide
    omega
  have hn : (putHead b lh).word 0 = lh.length := by
    rw [putHead, word_foldl_of_le le_rfl hfit, Block.word_setWord (by decide), if_pos rfl]
  refine List.ext_getElem? fun i => ?_
  simp only [readHead, hn, Int.toNat_natCast, List.getElem?_map]
  by_cases hi : i < lh.length
  · have hx : lh[i]? = some lh[i] := List.getElem?_eq_getElem hi
    have hword : (putHead b lh).word (0 + i + 1) = _ := word_foldl_of_getElem? hx hfit
    rw [List.getElem?_range hi, Option.map_some, ← Nat.zero_add i, hword, Nat.zero_add, hx,
      uint32_int32 (huint _ (List.getElem_mem hi))]
  · rw [List.getElem?_eq_none (by simpa using hi), List.getElem?_eq_none (by simpa using hi),
      Option.map_none]

theorem readHead_torn (keep : Sectors) (old new : Block) (hold : (readHead old).length ≤ LOGBLOCKS)
    (hnew : (readHead new).length ≤ LOGBLOCKS) : readHead (Block.torn keep old new) = readHead old ∨
      readHead (Block.torn keep old new) = readHead new := by
  have hfit : LOGBLOCKS < 512 / 4 := by decide
  cases hk : keep 0 with
  | false =>
    refine .inl (readHead_congr (by omega) fun i hi => ?_)
    rw [Block.word_torn hi, hk, if_neg Bool.false_ne_true]
  | true =>
    refine .inr (readHead_congr (by omega) fun i hi => ?_)
    rw [Block.word_torn hi, hk, if_pos rfl]

/-! ## What a disk with a log holds -/

/-- The blocks outside the log, which has its header at `start`. -/
def home (start : ℕ) : Set ℕ := {b | b < start ∨ start + LOGBLOCKS < b}

instance (start b : ℕ) : Decidable (b ∈ home start) := inferInstanceAs (Decidable (_ ∨ _))

theorem start_notMem_home (start : ℕ) : start ∉ home start := by simp [home]

theorem logBlock_notMem_home {start i : ℕ} (h : i < LOGBLOCKS) : start + i + 1 ∉ home start := by
  simp only [home, Set.mem_ofPred_eq]
  omega

/-- A header of the log names blocks outside it, and no more than the log has room for. -/
structure HeadOk (start : ℕ) (lh : List ℕ) : Prop where
  length_le : lh.length ≤ LOGBLOCKS
  home : ∀ b ∈ lh, b ∈ home start
  uint : ∀ b ∈ lh, b < 2 ^ 32

theorem HeadOk.nil (start : ℕ) : HeadOk start [] := ⟨by simp, by simp, by simp⟩

theorem HeadOk.lt {start i b : ℕ} (h : HeadOk start lh) (hi : lh[i]? = some b) : i < LOGBLOCKS := by
  have hlt := (List.getElem?_eq_some_iff.mp hi).1
  have hle := h.length_le
  omega

/-- Replaying the log of the disk `d` gives the contents `R` outside the log. -/
structure Holds (start : ℕ) (d R : ℕ → Block) : Prop where
  ok : HeadOk start (readHead (d start))
  logged : ∀ i b, (readHead (d start))[i]? = some b → d (start + i + 1) = R b
  inPlace : ∀ b ∈ home start, b ∉ readHead (d start) → d b = R b

namespace Holds

variable {start : ℕ} {d R : ℕ → Block} {b : ℕ}

theorem of_empty (hempty : readHead (d start) = []) (h : Set.EqOn d R (home start)) :
    Holds start d R where
  ok := hempty ▸ .nil start
  logged i b hi := by simp [hempty] at hi
  inPlace b hb _ := h hb

theorem eqOn_of_empty (h : Holds start d R) (hempty : readHead (d start) = []) :
    Set.EqOn d R (home start) := by
  intro b hb
  exact h.inPlace b hb (by simp [hempty])

theorem update_logBlock (h : Holds start d R) (hempty : readHead (d start) = []) {i : ℕ}
    (hi : i < LOGBLOCKS) (x : Block) : Holds start (update d (start + i + 1) x) R := by
  have hne : start ≠ start + i + 1 := by omega
  refine of_empty (by rwa [update_of_ne hne]) fun b hb => ?_
  have hb' : b ≠ start + i + 1 := fun heq => logBlock_notMem_home hi (heq ▸ hb)
  rw [update_of_ne hb']
  exact h.eqOn_of_empty hempty hb

theorem update_logged (h : Holds start d R) (hb : b ∈ readHead (d start)) (x : Block) :
    Holds start (update d b x) R := by
  have hhome := h.ok.home b hb
  have hstart : start ≠ b := fun heq => start_notMem_home start (heq ▸ hhome)
  have hhead : readHead (update d b x start) = readHead (d start) := by rw [update_of_ne hstart]
  refine ⟨hhead ▸ h.ok, fun i c hi => ?_, fun c hc hnot => ?_⟩
  · rw [hhead] at hi
    have hne : start + i + 1 ≠ b := fun heq => logBlock_notMem_home (h.ok.lt hi) (heq ▸ hhome)
    rw [update_of_ne hne, h.logged i c hi]
  · rw [hhead] at hnot
    have hne : c ≠ b := fun heq => hnot (heq ▸ hb)
    rw [update_of_ne hne, h.inPlace c hc hnot]

theorem update_head {x : Block} (hok : HeadOk start (readHead x))
    (hlogged : ∀ i b, (readHead x)[i]? = some b → d (start + i + 1) = R b)
    (hplace : ∀ b ∈ home start, b ∉ readHead x → d b = R b) : Holds start (update d start x) R := by
  have hhead : readHead (update d start x start) = readHead x := by rw [update_self]
  refine ⟨hhead ▸ hok, fun i b hi => ?_, fun b hb hnot => ?_⟩
  · rw [hhead] at hi
    rw [update_of_ne (by omega), hlogged i b hi]
  · rw [hhead] at hnot
    have hne : b ≠ start := fun heq => start_notMem_home start (heq ▸ hb)
    rw [update_of_ne hne, hplace b hb hnot]

end Holds

end Xv6.Log

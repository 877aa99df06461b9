import Xv6.Fs.Confined

/-!
# The free map, byte by byte

`balloc` and `bfree` on the bytes of the disk, with the `int` loop variables of the source.

## Main results

* `ballocLoop_eq`: while the scan stays below block `2 ^ 31` it is the scan of `Xv6.Fs.balloc`.
* `bitmap_allocator`: `balloc` takes the first clear bit of every map if and only if the disk has
  at most `2 ^ 31` blocks; on a larger disk it still does as long as a bit below `2 ^ 31` is clear.
* `balloc_overflow`: a disk of `2 ^ 31 + 1` blocks whose last free block is not found.
-/

namespace Xv6.Fs.Bitmap

open Function

abbrev Disk := ℕ → Block

/-! ## Bits of a block -/

/-- The bit of block `bi` in its byte. -/
def mask (bi : ℕ) : UInt8 := 1 <<< UInt8.ofNat (bi % 8)

def isSet (a : Block) (bi : ℕ) : Bool := a (bi / 8) &&& mask bi != 0

def mark (a : Block) (bi : ℕ) : Block := update a (bi / 8) (a (bi / 8) ||| mask bi)

def clear (a : Block) (bi : ℕ) : Block := update a (bi / 8) (a (bi / 8) &&& ~~~ mask bi)

theorem mask_toNat (bi : ℕ) : (mask bi).toNat = 2 ^ (bi % 8) := by
  have hlt : bi % 8 < 8 := Nat.mod_lt _ (by decide)
  unfold mask
  generalize bi % 8 = k at hlt ⊢
  interval_cases k <;> rfl

theorem testBit_not_mask (bi : ℕ) {j : ℕ} (hj : j < 8) :
    (~~~ mask bi).toNat.testBit j = decide (bi % 8 ≠ j) := by
  have hlt : bi % 8 < 8 := Nat.mod_lt _ (by decide)
  unfold mask
  generalize bi % 8 = k at hlt ⊢
  interval_cases k <;> interval_cases j <;> rfl

theorem isSet_eq_testBit (a : Block) (bi : ℕ) :
    isSet a bi = (a (bi / 8)).toNat.testBit (bi % 8) := by
  have hzero : ∀ x : UInt8, (x != 0) = (x.toNat != 0) := by
    intro x
    rw [Bool.eq_iff_iff, bne_iff_ne, bne_iff_ne, ne_eq, ne_eq, ← UInt8.toNat_inj]
    rfl
  rw [isSet, hzero, UInt8.toNat_and, mask_toNat, Nat.and_two_pow]
  rcases (a (bi / 8)).toNat.testBit (bi % 8) with _ | _ <;> simp

theorem isSet_mark (a : Block) (i j : ℕ) :
    isSet (mark a i) j = if j = i then true else isSet a j := by
  rw [isSet_eq_testBit, isSet_eq_testBit, mark]
  by_cases hbyte : j / 8 = i / 8
  · have hiff : (i % 8 = j % 8) ↔ j = i := by omega
    rw [hbyte, update_self, UInt8.toNat_or, Nat.testBit_or, mask_toNat, Nat.testBit_two_pow]
    by_cases hij : j = i
    · simp [hij]
    · simp [hij, hiff]
  have hij : j ≠ i := by
    rintro rfl
    exact hbyte rfl
  rw [update_of_ne hbyte, if_neg hij]

theorem isSet_clear (a : Block) (i j : ℕ) :
    isSet (clear a i) j = if j = i then false else isSet a j := by
  have hj : j % 8 < 8 := Nat.mod_lt _ (by decide)
  rw [isSet_eq_testBit, isSet_eq_testBit, clear]
  by_cases hbyte : j / 8 = i / 8
  · have hiff : (i % 8 = j % 8) ↔ j = i := by omega
    rw [hbyte, update_self, UInt8.toNat_and, Nat.testBit_and, testBit_not_mask _ hj]
    by_cases hij : j = i
    · simp [hij]
    · simp [hij, hiff]
  have hij : j ≠ i := by
    rintro rfl
    exact hbyte rfl
  rw [update_of_ne hbyte, if_neg hij]

/-! ## The code -/

variable (sb : Superblock)

/-- `BBLOCK(b, sb)` for an `int`: the division rounds towards zero. -/
def bblock (b : ℤ) : ℕ := uint32 (b.tdiv BPB + sb.bmapstart)

def ballocBits (a : Block) (size : ℕ) (b : ℤ) : ℕ → ℕ → Option ℕ
  | 0, _ => none
  | k + 1, bi =>
    if uint32 (int32 (b + bi)) < size then
      if isSet a bi then ballocBits a size b k (bi + 1) else some bi
    else none

def bzero (d : Disk) (bno : ℤ) : Disk := update d (uint32 bno) Block.zero

/-- The outer loop of `balloc`; the first number bounds the rounds, and without a result the loop
has not ended by then. -/
def ballocLoop (d : Disk) : ℕ → ℤ → Option (ℕ × Disk)
  | 0, _ => none
  | k + 1, b =>
    if uint32 b < sb.size then
      match ballocBits (d (bblock sb b)) sb.size b BPB 0 with
      | some bi =>
        let d := update d (bblock sb b) (mark (d (bblock sb b)) bi)
        some (uint32 (int32 (b + bi)), bzero d (int32 (b + bi)))
      | none => ballocLoop d k (int32 (b + BPB))
    else some (0, d)

def balloc (d : Disk) : Option (ℕ × Disk) := ballocLoop sb d (sb.size / BPB + 2) 0

def bfree (d : Disk) (b : ℕ) : Except Halt Disk :=
  let a := d (sb.bblock b)
  if isSet a (b % BPB) then .ok (update d (sb.bblock b) (clear a (b % BPB)))
  else .error (.panic "freeing free block")

/-! ## The bit of a block -/

def bit (d : Disk) (b : ℕ) : Bool := isSet (d (sb.bblock b)) (b % BPB)

def markBlock (d : Disk) (b : ℕ) : Disk :=
  update d (sb.bblock b) (mark (d (sb.bblock b)) (b % BPB))

def allocated (d : Disk) (b : ℕ) : Disk := update (markBlock sb d b) b Block.zero

def NotMap (b : ℕ) : Prop := ∀ c < sb.size, sb.bblock c ≠ b

variable {sb} {d : Disk}

theorem bblock_ne {b c : ℕ} (h : c ≠ b) : sb.bblock c ≠ sb.bblock b ∨ c % BPB ≠ b % BPB := by
  by_contra hcon
  rw [not_or, not_not, not_not] at hcon
  unfold Superblock.bblock at hcon
  have hb := Nat.div_add_mod b BPB
  have hc := Nat.div_add_mod c BPB
  have hdiv : c / BPB = b / BPB := by omega
  rw [hdiv] at hc
  omega

theorem bit_update {f : Block → ℕ → Block} {v : Bool}
    (hf : ∀ a i j, isSet (f a i) j = if j = i then v else isSet a j) (b c : ℕ) :
    bit sb (update d (sb.bblock b) (f (d (sb.bblock b)) (b % BPB))) c =
      if c = b then v else bit sb d c := by
  unfold bit
  by_cases hblock : sb.bblock c = sb.bblock b
  · rw [hblock, update_self, hf]
    by_cases hcb : c = b
    · simp [hcb]
    · have hmod : c % BPB ≠ b % BPB := (bblock_ne hcb).resolve_left (not_not.mpr hblock)
      rw [if_neg hmod, if_neg hcb]
  have hcb : c ≠ b := by
    rintro rfl
    exact hblock rfl
  rw [update_of_ne hblock, if_neg hcb]

theorem bit_markBlock (b c : ℕ) :
    bit sb (markBlock sb d b) c = if c = b then true else bit sb d c := bit_update isSet_mark b c

variable {b : ℕ}

theorem bit_allocated (hb : NotMap sb b) {c : ℕ} (hc : c < sb.size) :
    bit sb (allocated sb d b) c = if c = b then true else bit sb d c := by
  rw [← bit_markBlock, bit, bit, allocated, update_of_ne (hb c hc)]

/-! ## The scan -/

/-- The size is a `uint` and the map lies on the disk. -/
structure OnDisk (sb : Superblock) : Prop where
  size : sb.size < 2 ^ 32
  map : ∀ c < sb.size, sb.bblock c < sb.size

/-- The scan ends before its `int` overflows: the disk does, or a bit below `2 ^ 31` is clear. -/
def Fits (sb : Superblock) (d : Disk) : Prop :=
  sb.size ≤ 2 ^ 31 ∨ ∃ b < 2 ^ 31, b < sb.size ∧ bit sb d b = false

theorem OnDisk.bblock_eq (h : OnDisk sb) (hb : b < sb.size) : bblock sb b = sb.bblock b := by
  have hmap := h.map b hb
  have hsize := h.size
  have htdiv : ((b : ℤ)).tdiv BPB = ((b / BPB : ℕ) : ℤ) := by
    rw [Int.tdiv_eq_ediv_of_nonneg (by omega)]
    exact (Int.natCast_ediv b BPB).symm
  unfold Superblock.bblock at hmap ⊢
  rw [bblock, htdiv, uint32]
  generalize b / BPB = q at hmap ⊢
  omega

theorem ballocBits_eq {β k bi : ℕ} (hβ : BPB ∣ β) (hlt : β < 2 ^ 31)
    (hk : bi + k ≤ BPB) : (ballocBits (d (sb.bblock β)) sb.size β k bi).map (β + ·) =
      Fs.ballocBits (bit sb d) sb.size β k bi := by
  induction k generalizing bi with
  | zero => rfl
  | succ k ih =>
    have hbpb : BPB = 8192 := rfl
    have hcast : uint32 (int32 ((β : ℤ) + bi)) = β + bi := by
      have := uint32_int32 (n := β + bi) (by omega)
      rwa [Nat.cast_add] at this
    have hbit : bit sb d (β + bi) = isSet (d (sb.bblock β)) bi := by
      obtain ⟨m, rfl⟩ := hβ
      have hdiv : (BPB * m + bi) / BPB = BPB * m / BPB := by
        rw [hbpb]
        omega
      have hmod : (BPB * m + bi) % BPB = bi := by
        rw [hbpb]
        omega
      rw [bit, Superblock.bblock, hdiv, hmod]
      rfl
    rw [ballocBits, Fs.ballocBits, hcast, hbit]
    split
    · split
      · exact ih (by omega)
      · rfl
    · rfl

theorem ballocBits_lt {a : Block} {size : ℕ} {b : ℤ} {k bi r : ℕ}
    (h : ballocBits a size b k bi = some r) : r < bi + k := by
  induction k generalizing bi with
  | zero => cases h
  | succ k ih =>
    rw [ballocBits] at h
    split at h
    · split at h
      · have := ih h
        omega
      · cases h
        omega
    · cases h

/-- The clear bit that stops the scan in time lies ahead of it. -/
theorem ballocLoop_eq (h : OnDisk sb) {k β : ℕ} (hβ : BPB ∣ β) (hlow : β < 2 ^ 31 + BPB)
    (hfit : sb.size ≤ 2 ^ 31 ∨ ∃ b, β ≤ b ∧ b < 2 ^ 31 ∧ b < sb.size ∧ bit sb d b = false)
    (hk : sb.size ≤ β + k * BPB) :
    ballocLoop sb d (k + 1) (int32 β) =
      match ballocScan (bit sb d) sb.size k β with
      | some r => some (r, allocated sb d r)
      | none => some (0, d) := by
  have hsize := h.size
  have hbpb : BPB = 8192 := rfl
  induction k generalizing β with
  | zero =>
    rw [ballocLoop, uint32_int32 (by omega), if_neg (by omega)]
    rfl
  | succ k ih =>
    rw [ballocLoop, uint32_int32 (by omega), ballocScan]
    by_cases hlt : β < sb.size
    · have hβlt : β < 2 ^ 31 := by
        rcases hfit with hle | ⟨b, hb, hlt', -⟩
        · omega
        · omega
      have hint : int32 β = β := int32_of_range (by unfold INT_MIN; omega) (by unfold INT_MAX; omega)
      have hscan : (ballocBits (d (sb.bblock β)) sb.size β BPB 0).map (β + ·) =
          Fs.ballocBits (bit sb d) sb.size β BPB 0 := ballocBits_eq hβ hβlt (by omega)
      rw [if_pos hlt, if_pos hlt, hint, h.bblock_eq hlt, ← hscan]
      rcases hbits : ballocBits (d (sb.bblock β)) sb.size β BPB 0 with _ | bi
      · rw [hbits, Option.map_none] at hscan
        have hahead : sb.size ≤ 2 ^ 31 ∨
            ∃ b, β + BPB ≤ b ∧ b < 2 ^ 31 ∧ b < sb.size ∧ bit sb d b = false := by
          refine hfit.imp_right ?_
          rintro ⟨b, hb, hlt', hsb, hclear⟩
          refine ⟨b, ?_, hlt', hsb, hclear⟩
          by_contra hcon
          rw [ballocBits_none hscan.symm (by omega) (by omega) hsb] at hclear
          cases hclear
        have hnext := ih (β := β + BPB) (Nat.dvd_add hβ (dvd_refl _)) (by omega) hahead
          (by rw [Nat.succ_mul] at hk; omega)
        rw [Nat.cast_add] at hnext
        exact hnext
      rw [hbits, Option.map_some] at hscan
      have hr := (ballocBits_some hscan.symm).2
      have hbi := ballocBits_lt hbits
      have hdiv : (β + bi) / BPB = β / BPB := by
        obtain ⟨m, rfl⟩ := hβ
        rw [hbpb] at *
        omega
      have hmod : (β + bi) % BPB = bi := by
        obtain ⟨m, rfl⟩ := hβ
        rw [hbpb] at *
        omega
      have huint : uint32 (int32 ((β : ℤ) + bi)) = β + bi := by
        have := uint32_int32 (n := β + bi) (by omega)
        rwa [Nat.cast_add] at this
      have hblock : sb.bblock (β + bi) = sb.bblock β := by
        rw [Superblock.bblock, Superblock.bblock, hdiv]
      change some (uint32 (int32 ((β : ℤ) + bi)), bzero (update d (sb.bblock β)
        (mark (d (sb.bblock β)) bi)) (int32 ((β : ℤ) + bi))) =
          some (β + bi, allocated sb d (β + bi))
      rw [bzero, huint, allocated, markBlock, hblock, hmod]
    · rw [if_neg hlt, if_neg hlt]

/-! ## The first clear bit -/

theorem ballocBits_least {f : ℕ → Bool} {size b k bi r : ℕ}
    (h : Fs.ballocBits f size b k bi = some r) : ∀ x, b + bi ≤ x → x < r → f x = true := by
  induction k generalizing bi with
  | zero => cases h
  | succ k ih =>
    intro x hlow hlt
    rw [Fs.ballocBits] at h
    split at h
    · split at h
      · next hset =>
        rcases Nat.lt_or_ge (b + bi) x with hx | hx
        · exact ih h x (by omega) hlt
        · rwa [show x = b + bi by omega]
      · cases h
        omega
    · cases h

theorem ballocScan_least {f : ℕ → Bool} {size k b r : ℕ} (h : ballocScan f size k b = some r) :
    ∀ x, b ≤ x → x < r → f x = true := by
  induction k generalizing b with
  | zero => cases h
  | succ k ih =>
    intro x hlow hlt
    rw [ballocScan] at h
    split at h
    · next hb =>
      split at h
      · next hbits =>
        cases h
        exact ballocBits_least hbits x hlow hlt
      next hnone =>
      have hr := (ballocScan_some h).2
      rcases Nat.lt_or_ge x (b + BPB) with hx | hx
      · exact ballocBits_none hnone (by omega) (by omega) (by omega)
      · exact ih h x hx hlt
    · cases h

/-- What a call of `balloc` on the disk `d` does: it finds no clear bit and changes nothing, or it
takes the first one. -/
def Allocates (sb : Superblock) (d : Disk) (r : ℕ) (d' : Disk) : Prop :=
  (r = 0 ∧ d' = d ∧ ∀ b < sb.size, bit sb d b = true) ∨
  (r < sb.size ∧ bit sb d r = false ∧ (∀ x < r, bit sb d x = true) ∧ d' = allocated sb d r)

theorem balloc_spec (h : OnDisk sb) (hfit : Fits sb d) :
    ∃ r d', balloc sb d = some (r, d') ∧ Allocates sb d r d' := by
  have hcover : sb.size ≤ 0 + (sb.size / BPB + 1) * BPB := by
    have := Nat.lt_div_mul_add (a := sb.size) (b := BPB) (by decide)
    rw [Nat.succ_mul]
    omega
  have hzero : int32 ((0 : ℕ) : ℤ) = 0 := by decide
  have hahead : sb.size ≤ 2 ^ 31 ∨ ∃ b, 0 ≤ b ∧ b < 2 ^ 31 ∧ b < sb.size ∧ bit sb d b = false :=
    hfit.imp_right (Exists.imp fun b hb => ⟨Nat.zero_le b, hb⟩)
  have hrun := ballocLoop_eq (d := d) h (dvd_zero BPB) (by decide) hahead hcover
  rw [hzero] at hrun
  rw [balloc]
  rcases hscan : ballocScan (bit sb d) sb.size (sb.size / BPB + 1) 0 with _ | r
  · rw [hscan] at hrun
    refine ⟨0, d, hrun, .inl ⟨rfl, rfl, fun b hb => ?_⟩⟩
    exact ballocScan_none hscan (Nat.zero_le b) (by omega) hb
  rw [hscan] at hrun
  obtain ⟨hbit, hr⟩ := ballocScan_some hscan
  exact ⟨r, allocated sb d r, hrun, .inr ⟨hr, hbit,
    fun x hx => ballocScan_least hscan x (Nat.zero_le x) hx, rfl⟩⟩

/-! ## Sequences of calls -/

inductive Event
  /-- `balloc` returned `r`. -/
  | alloc (r : ℕ)
  /-- `bfree(b)`. -/
  | free (b : ℕ)
  deriving DecidableEq, Repr

/-- A sequence of calls that leads from one disk to another, each `balloc` on a disk it scans in
time and no `bfree` of a block of the map. -/
inductive Run (sb : Superblock) : Disk → List Event → Disk → Prop
  | nil (d : Disk) : Run sb d [] d
  | alloc {d d₁ d₂ : Disk} {r : ℕ} {es : List Event} :
    Fits sb d → balloc sb d = some (r, d₁) → Run sb d₁ es d₂ → Run sb d (.alloc r :: es) d₂
  | free {d d₁ d₂ : Disk} {b : ℕ} {es : List Event} :
    NotMap sb b → bfree sb d b = .ok d₁ → Run sb d₁ es d₂ → Run sb d (.free b :: es) d₂

/-- The map marks its own blocks. -/
def Marked (sb : Superblock) (d : Disk) : Prop := ∀ c < sb.size, bit sb d (sb.bblock c) = true

theorem bfree_ok (hb : bit sb d b = true) :
    bfree sb d b = .ok (update d (sb.bblock b) (clear (d (sb.bblock b)) (b % BPB))) := if_pos hb

variable {d' : Disk}

theorem bit_bfree (hfree : bfree sb d b = .ok d') (c : ℕ) :
    bit sb d' c = if c = b then false else bit sb d c := by
  unfold bfree at hfree
  dsimp only at hfree
  split at hfree
  · cases hfree
    exact bit_update isSet_clear b c
  · cases hfree

theorem Marked.notMap {r : ℕ} (hm : Marked sb d) (hbit : bit sb d r = false) : NotMap sb r := by
  rintro c hc rfl
  rw [hm c hc] at hbit
  cases hbit

theorem Allocates.bit_le {r : ℕ} (h : Allocates sb d r d') (hm : Marked sb d) {c : ℕ}
    (hc : c < sb.size) (hbit : bit sb d c = true) : bit sb d' c = true := by
  rcases h with ⟨-, rfl, -⟩ | ⟨-, hclear, -, rfl⟩
  · exact hbit
  rw [bit_allocated (hm.notMap hclear) hc]
  split
  · rfl
  · exact hbit

theorem Allocates.marked (h : OnDisk sb) {r : ℕ} (ha : Allocates sb d r d')
    (hm : Marked sb d) : Marked sb d' := fun c hc => ha.bit_le hm (h.map c hc) (hm c hc)

theorem bfree_marked (hb : NotMap sb b) (hfree : bfree sb d b = .ok d')
    (hm : Marked sb d) : Marked sb d' := by
  intro c hc
  rw [bit_bfree hfree, if_neg (hb c hc)]
  exact hm c hc

theorem Run.freed_before (h : OnDisk sb) {es : List Event} (hrun : Run sb d es d')
    (hm : Marked sb d) {r : ℕ} (hr : r < sb.size) (hbit : bit sb d r = true) (h0 : r ≠ 0) {j : ℕ}
    (hj : es[j]? = some (.alloc r)) : ∃ k < j, es[k]? = some (.free r) := by
  induction hrun generalizing j with
  | nil d => simp at hj
  | @alloc d d1 d2 r' es hfit hcall _ ih =>
    obtain ⟨r'', d'', hcall', ha⟩ := balloc_spec h hfit
    rw [hcall, Option.some.injEq, Prod.mk.injEq] at hcall'
    obtain ⟨rfl, rfl⟩ := hcall'
    cases j with
    | zero =>
      -- The block is clear, or there is none.
      rw [List.getElem?_cons_zero, Option.some.injEq, Event.alloc.injEq] at hj
      subst hj
      rcases ha with ⟨hz, -⟩ | ⟨-, hclear, -⟩
      · exact absurd hz h0
      · rw [hbit] at hclear
        cases hclear
    | succ j =>
      obtain ⟨k, hk, hek⟩ := ih (ha.marked h hm) (ha.bit_le hm hr hbit) hj
      exact ⟨k + 1, by omega, hek⟩
  | @free d d1 d2 b es hb hcall _ ih =>
    cases j with
    | zero => simp at hj
    | succ j =>
      by_cases hbr : b = r
      · exact ⟨0, by omega, by rw [hbr]; rfl⟩
      have hbit1 : bit sb d1 r = true := by
        rw [bit_bfree hcall, if_neg (Ne.symm hbr)]
        exact hbit
      obtain ⟨k, hk, hek⟩ := ih (bfree_marked hb hcall hm) hbit1 hj
      exact ⟨k + 1, by omega, hek⟩

theorem Run.freed_between (h : OnDisk sb) {es : List Event} (hrun : Run sb d es d')
    (hm : Marked sb d) {r i j : ℕ} (h0 : r ≠ 0) (hij : i < j) (hi : es[i]? = some (.alloc r))
    (hj : es[j]? = some (.alloc r)) : ∃ k, i < k ∧ k < j ∧ es[k]? = some (.free r) := by
  induction hrun generalizing i j with
  | nil d => simp at hi
  | @alloc d d1 d2 r' es hfit hcall hrest ih =>
    obtain ⟨r'', d'', hcall', ha⟩ := balloc_spec h hfit
    rw [hcall, Option.some.injEq, Prod.mk.injEq] at hcall'
    obtain ⟨rfl, rfl⟩ := hcall'
    obtain ⟨j, rfl⟩ : ∃ m, j = m + 1 := ⟨j - 1, by omega⟩
    cases i with
    | zero =>
      rw [List.getElem?_cons_zero, Option.some.injEq, Event.alloc.injEq] at hi
      subst hi
      have hset : r' < sb.size ∧ bit sb d1 r' = true := by
        rcases ha with ⟨hz, -⟩ | ⟨hlt, hclear, -, rfl⟩
        · exact absurd hz h0
        · refine ⟨hlt, ?_⟩
          rw [bit_allocated (hm.notMap hclear) hlt, if_pos rfl]
      obtain ⟨k, hk, hek⟩ := hrest.freed_before h (ha.marked h hm) hset.1 hset.2 h0 hj
      exact ⟨k + 1, by omega, by omega, hek⟩
    | succ i =>
      obtain ⟨k, hik, hkj, hek⟩ := ih (ha.marked h hm) (by omega) hi hj
      exact ⟨k + 1, by omega, by omega, hek⟩
  | @free d d1 d2 b es hb hcall _ ih =>
    obtain ⟨j, rfl⟩ : ∃ m, j = m + 1 := ⟨j - 1, by omega⟩
    cases i with
    | zero => simp at hi
    | succ i =>
      obtain ⟨k, hik, hkj, hek⟩ := ih (bfree_marked hb hcall hm) (by omega) hi hj
      exact ⟨k + 1, by omega, by omega, hek⟩

/-- The contract of `balloc` on one disk: 0 exactly for a full map, which stays as it is; otherwise
the first clear bit, of which `bfree` undoes the marking. -/
def Takes (sb : Superblock) (d : Disk) : Prop :=
  ∃ r d', balloc sb d = some (r, d') ∧
    (r = 0 ↔ ∀ b < sb.size, bit sb d b = true) ∧ (r = 0 → d' = d) ∧
    (r ≠ 0 → r < sb.size ∧ bit sb d r = false ∧ (∀ x < r, bit sb d x = true) ∧
      d' = update (update d (sb.bblock r) (mark (d (sb.bblock r)) (r % BPB))) r Block.zero ∧
      (NotMap sb r → (∀ c < sb.size, bit sb d' c = if c = r then true else bit sb d c) ∧
        ∃ d'', bfree sb d' r = .ok d'' ∧ ∀ c < sb.size, bit sb d'' c = bit sb d c))

theorem Fits.takes (h : OnDisk sb) (hfit : Fits sb d) (h0 : bit sb d 0 = true) : Takes sb d := by
  obtain ⟨r, d', hrun, ha⟩ := balloc_spec h hfit
  refine ⟨r, d', hrun, ⟨fun hr => ?_, fun hall => ?_⟩, fun hr => ?_, fun hr => ?_⟩
  · rcases ha with ⟨-, -, hall⟩ | ⟨-, hclear, -⟩
    · exact hall
    · rw [hr, h0] at hclear
      cases hclear
  · rcases ha with ⟨hz, -⟩ | ⟨hlt, hclear, -⟩
    · exact hz
    · rw [hall r hlt] at hclear
      cases hclear
  · rcases ha with ⟨-, hd, -⟩ | ⟨-, hclear, -⟩
    · exact hd
    · rw [hr, h0] at hclear
      cases hclear
  rcases ha with ⟨hz, -⟩ | ⟨hlt, hclear, hleast, rfl⟩
  · exact absurd hz hr
  refine ⟨hlt, hclear, hleast, rfl, fun hmap => ?_⟩
  have hbits := fun c hc => bit_allocated (d := d) hmap (c := c) hc
  have hset : bit sb (allocated sb d r) r = true := by rw [hbits r hlt, if_pos rfl]
  refine ⟨hbits, _, bfree_ok hset, fun c hc => ?_⟩
  rw [bit_bfree (bfree_ok hset), hbits c hc]
  split
  · next hcr => rw [hcr, hclear]
  · rfl

/-! ## Past `2 ^ 31` blocks -/

theorem ballocBits_full {a : Block} (ha : ∀ bi, isSet a bi = true) (size : ℕ) (b : ℤ) (k bi : ℕ) :
    ballocBits a size b k bi = none := by
  induction k generalizing bi with
  | zero => rfl
  | succ k ih =>
    rw [ballocBits]
    split
    · rw [if_pos (ha bi)]
      exact ih (bi + 1)
    · rfl

/-- All bits are set but those of the block of the map with bit `2 ^ 31`. -/
def lastClear (sb : Superblock) : Disk := fun n _ => if n = sb.bblock (2 ^ 31) then 0 else 255

theorem isSet_lastClear {n : ℕ} (hn : n ≠ sb.bblock (2 ^ 31)) (bi : ℕ) :
    isSet (lastClear sb n) bi = true := by
  have hlt : bi % 8 < 8 := Nat.mod_lt _ (by decide)
  have hbyte : lastClear sb n (bi / 8) = 255 := if_neg hn
  rw [isSet_eq_testBit, hbyte]
  generalize bi % 8 = k at hlt ⊢
  interval_cases k <;> rfl

/-- No multiple of `BPB` that an `int` holds leads `BBLOCK` to the bit of block `2 ^ 31`. -/
theorem bblock_int32_ne (hmap : sb.bblock (2 ^ 31) < 2 ^ 32) {n : ℤ} (hn : (BPB : ℤ) ∣ n) :
    bblock sb (int32 n) ≠ sb.bblock (2 ^ 31) := by
  have hbpb : (BPB : ℤ) = 8192 := rfl
  have hblock : sb.bblock (2 ^ 31) = 2 ^ 18 + sb.bmapstart := rfl
  obtain ⟨q, hq⟩ : (BPB : ℤ) ∣ int32 n := by
    rw [hbpb] at hn ⊢
    rw [int32, Int.bmod_def]
    split <;> omega
  have hmin := le_int32 n
  have hmax := int32_le n
  have htdiv : (int32 n).tdiv BPB = q := by
    rw [hq]
    exact Int.mul_tdiv_cancel_left _ (by decide)
  rw [hq, hbpb] at hmin hmax
  rw [bblock, htdiv, uint32, hblock]
  unfold INT_MIN at hmin
  unfold INT_MAX at hmax
  omega

/-- The scan of that map finds nothing. -/
theorem ballocLoop_lastClear (hmap : sb.bblock (2 ^ 31) < 2 ^ 32) {k : ℕ} {n : ℤ}
    (hn : (BPB : ℤ) ∣ n) : ballocLoop sb (lastClear sb) k (int32 n) = none ∨
      ballocLoop sb (lastClear sb) k (int32 n) = some (0, lastClear sb) := by
  induction k generalizing n with
  | zero => exact .inl rfl
  | succ k ih =>
    rw [ballocLoop]
    split
    · rw [ballocBits_full (isSet_lastClear (bblock_int32_ne hmap hn))]
      dsimp only
      rw [int32_add_int32]
      exact ih (Int.dvd_add hn (Int.dvd_refl _))
    · exact .inr rfl

/-- A scan that may go past the end of the disk before its `uint` wraps ends. -/
theorem ballocLoop_ne_none {k β : ℕ} (hk : sb.size ≤ β + k * BPB) (hlt : β + k * BPB < 2 ^ 32) :
    ballocLoop sb d (k + 1) (int32 β) ≠ none := by
  induction k generalizing β with
  | zero =>
    rw [ballocLoop, uint32_int32 (by omega), if_neg (by omega)]
    exact Option.some_ne_none _
  | succ k ih =>
    rw [Nat.succ_mul] at hk hlt
    rw [ballocLoop]
    split
    · split
      · exact Option.some_ne_none _
      · rw [int32_add_int32, ← Nat.cast_add]
        exact ih (by omega) (by omega)
    · exact Option.some_ne_none _

theorem not_takes_lastClear (h : OnDisk sb) (hlt : 2 ^ 31 < sb.size) :
    ¬ Takes sb (lastClear sb) := by
  rintro ⟨r, d', hrun, hiff, -⟩
  have hmap := (h.map _ hlt).trans h.size
  have hscan := ballocLoop_lastClear hmap (k := sb.size / BPB + 2) (dvd_zero (BPB : ℤ))
  change balloc sb _ = none ∨ balloc sb _ = _ at hscan
  rw [hrun] at hscan
  rcases hscan with hnone | hzero
  · cases hnone
  cases hzero
  have hset := hiff.mp rfl _ hlt
  have hblock : lastClear sb (sb.bblock (2 ^ 31)) = fun _ => 0 := funext fun _ => if_pos rfl
  rw [bit, hblock] at hset
  revert hset
  decide

/-- **The bitmap allocator.** `balloc` keeps its contract on every map that marks block 0 exactly
if the disk has at most `2 ^ 31` blocks, and on a larger disk for every map with a clear bit below
`2 ^ 31`; `bfree` clears one bit; and no sequence of calls hands out a block twice without a
`bfree` of it in between. -/
theorem bitmap_allocator (h : OnDisk sb) :
    ((∀ d, bit sb d 0 = true → Takes sb d) ↔ sb.size ≤ 2 ^ 31) ∧
    (∀ d, bit sb d 0 = true → Fits sb d → Takes sb d) ∧
    (∀ d b, bit sb d b = true → ∃ d', bfree sb d b = .ok d' ∧
      d' = update d (sb.bblock b) (clear (d (sb.bblock b)) (b % BPB)) ∧
      ∀ c, bit sb d' c = if c = b then false else bit sb d c) ∧
    (∀ d, Marked sb d → ∀ (es : List Event) d', Run sb d es d' → ∀ r i j : ℕ, r ≠ 0 → i < j →
      es[i]? = some (.alloc r) → es[j]? = some (.alloc r) →
      ∃ k, i < k ∧ k < j ∧ es[k]? = some (.free r)) := by
  refine ⟨⟨fun htakes => ?_, fun hle d h0 => Fits.takes h (.inl hle) h0⟩,
    fun d h0 hfit => hfit.takes h h0, fun d b hb => ⟨_, bfree_ok hb, rfl, bit_bfree (bfree_ok hb)⟩,
    fun d hm es d' hrun r i j hr hij hi hj => hrun.freed_between h hm hr hij hi hj⟩
  by_contra hlt
  refine not_takes_lastClear h (by omega) (htakes _ (isSet_lastClear ?_ _))
  have hblock : sb.bblock (2 ^ 31) = 2 ^ 18 + sb.bmapstart := rfl
  have hzero : sb.bblock 0 = 0 + sb.bmapstart := rfl
  omega

/-- A disk of 20000 blocks whose map starts at block 40 and marks all but the last block. -/
theorem bitmap_allocator_last :
    ∃ r d', balloc ⟨0, 20000, 0, 0, 0, 0, 0, 40⟩ (fun n _ => if n = 42 then 0 else 255) =
      some (r, d') ∧ r ≠ 0 := by
  have hdisk : OnDisk ⟨0, 20000, 0, 0, 0, 0, 0, 40⟩ := by
    refine ⟨by decide, fun c hc => ?_⟩
    have hbpb : BPB = 8192 := rfl
    change c < 20000 at hc
    change c / BPB + 40 < 20000
    rw [hbpb]
    omega
  obtain ⟨r, d', hrun, hiff, -⟩ := (bitmap_allocator hdisk).1.mpr (by decide)
    (fun n _ => if n = 42 then 0 else 255) (by decide)
  refine ⟨r, d', hrun, fun hr => ?_⟩
  have := hiff.mp hr 16384 (by decide)
  revert this
  decide

def bigSb : Superblock := ⟨0, 2 ^ 31 + 1, 0, 0, 0, 0, 0, 2⟩

/-- The blocks of the map before the last one are full, and the last one is empty. -/
def bigDisk : Disk := fun n _ => if n = 2 + 2 ^ 18 then 0 else 255

/-- **The scan loses the last block.** For block `2 ^ 31` the `int` of the loop is negative, and
`BBLOCK` does not find the block with its bit. `balloc` reports a full disk, although that bit is
clear. -/
theorem balloc_overflow :
    bigSb.size < 2 ^ 32 ∧ bit bigSb bigDisk 0 = true ∧ bit bigSb bigDisk (2 ^ 31) = false ∧
      2 ^ 31 < bigSb.size ∧ balloc bigSb bigDisk = some (0, bigDisk) := by
  refine ⟨by decide, by decide, by decide, by decide, ?_⟩
  have hdisk : bigDisk = lastClear bigSb := rfl
  have hends : ballocLoop bigSb bigDisk (bigSb.size / BPB + 1 + 1) (int32 (0 : ℕ)) ≠ none :=
    ballocLoop_ne_none (by decide) (by decide)
  rw [balloc]
  rw [hdisk] at hends ⊢
  exact (ballocLoop_lastClear (by decide) (dvd_zero (BPB : ℤ))).resolve_left hends

end Xv6.Fs.Bitmap

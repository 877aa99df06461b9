import Xv6.Foundations.Exclusive
import Xv6.Fs.Codec
import Xv6.Fs.Inode

/-!
# Who owns which block

A data block is owned by a place: a slot of an inode, or an entry of the indirect block of an inode.
-/

namespace Xv6.Fs

open Function

inductive Place
  /-- Slot `k` of inode `i`; slot `NDIRECT` holds the indirect block. -/
  | slot (i k : ℕ)
  /-- Entry `j` of the indirect block of inode `i`. -/
  | entry (i j : ℕ)
  deriving DecidableEq

def Place.ofBlock (i bn : ℕ) : Place :=
  if bn < NDIRECT then .slot i bn else .entry i (bn - NDIRECT)

theorem Place.ofBlock_injective {i j bn cn : ℕ} (h : Place.ofBlock i bn = Place.ofBlock j cn) :
    i = j ∧ bn = cn := by
  unfold Place.ofBlock at h
  split at h <;> split at h
  · simpa using h
  · simp at h
  · simp at h
  · simp only [Place.entry.injEq] at h
    omega

theorem Place.ofBlock_ne_indirect (i bn j : ℕ) : Place.ofBlock i bn ≠ .slot j NDIRECT := by
  unfold Place.ofBlock
  split
  · next h =>
    simp only [ne_eq, Place.slot.injEq]
    omega
  · simp

namespace Volume

variable (sb : Superblock) (v : Volume)

/-- The block number a place of an allocated inode holds, 0 if none. -/
def blockAt : Place → ℕ
  | .slot i k =>
    if (v.dinode i).type ≠ .free ∧ k ≤ NDIRECT then (v.dinode i).addrs k else 0
  | .entry i j =>
    if (v.dinode i).type ≠ .free ∧ (v.dinode i).addrs NDIRECT ≠ 0 ∧ j < NINDIRECT then
      (v.data ((v.dinode i).addrs NDIRECT)).word j
    else 0

/-- The address of block `bn` of file `i`; 0 if there is none. -/
def fileBlock (i bn : ℕ) : ℕ := v.blockAt (Place.ofBlock i bn)

/-- A data block that is marked. -/
def InUse (b : ℕ) : Prop := sb.datastart ≤ b ∧ b < sb.size ∧ v.bit b = true

/-- The free map marks the metadata and the data blocks with an owner, and no block has two. -/
structure Owns : Prop where
  excl : Exclusive v.blockAt (v.InUse sb)
  metadata : ∀ b < sb.datastart, v.bit b = true

structure Owned : Prop extends Owns sb v where
  mapped : ∀ i bn, (v.dinode i).type ≠ .free → bn * BSIZE < (v.dinode i).size →
    v.fileBlock i bn ≠ 0
  /-- There are no inodes past the inode area. -/
  past : ∀ i, sb.ninodes ≤ i → (v.dinode i).type = .free

/-- Block `b` is marked and zeroed. -/
def alloc (b : ℕ) : Volume :=
  { v with bit := update v.bit b true, data := update v.data b Block.zero }

def setAddr (i k b : ℕ) : Volume :=
  let d := { v.dinode i with addrs := update (v.dinode i).addrs k b }
  { v with dinode := update v.dinode i d }

def free (b : ℕ) : Volume := { v with bit := update v.bit b false }

def setData (b : ℕ) (a : Block) : Volume := { v with data := update v.data b a }

variable {sb v}

/-! ## Reading the places -/

theorem blockAt_slot {i k : ℕ} (ht : (v.dinode i).type ≠ .free) (hk : k ≤ NDIRECT) :
    v.blockAt (.slot i k) = (v.dinode i).addrs k := if_pos ⟨ht, hk⟩

theorem blockAt_entry {i j : ℕ} (ht : (v.dinode i).type ≠ .free)
    (hind : (v.dinode i).addrs NDIRECT ≠ 0) (hj : j < NINDIRECT) :
    v.blockAt (.entry i j) = (v.data ((v.dinode i).addrs NDIRECT)).word j := if_pos ⟨ht, hind, hj⟩

attribute [local simp] blockAt setAddr

theorem blockAt_of_free {i : ℕ} (ht : (v.dinode i).type = .free) (k : ℕ) :
    v.blockAt (.slot i k) = 0 ∧ v.blockAt (.entry i k) = 0 := by simp [ht]

variable {w : Volume}

theorem blockAt_congr {i : ℕ} (hd : w.dinode i = v.dinode i)
    (hdata : v.blockAt (.slot i NDIRECT) ≠ 0 →
      w.data (v.blockAt (.slot i NDIRECT)) = v.data (v.blockAt (.slot i NDIRECT))) (k : ℕ) :
    w.blockAt (.slot i k) = v.blockAt (.slot i k) ∧
      w.blockAt (.entry i k) = v.blockAt (.entry i k) := by
  refine ⟨by simp only [blockAt, hd], ?_⟩
  simp only [blockAt, hd]
  split
  · next h =>
    have hslot := blockAt_slot (k := NDIRECT) h.1 le_rfl
    rw [hslot] at hdata
    rw [hdata h.2.1]
  · rfl

theorem blockAt_eq (hdata : w.data = v.data)
    (hdinode : ∀ i, (w.dinode i).type = (v.dinode i).type ∧ (w.dinode i).addrs = (v.dinode i).addrs) :
    w.blockAt = v.blockAt := by
  funext P
  cases P <;> simp only [blockAt, hdata, (hdinode _).1, (hdinode _).2]

theorem Owns.of_eq (h : v.Owns sb) (hdata : w.data = v.data) (hbit : w.bit = v.bit)
    (hdinode : ∀ i, (w.dinode i).type = (v.dinode i).type ∧
      (w.dinode i).addrs = (v.dinode i).addrs) : w.Owns sb := by
  refine ⟨?_, by rw [hbit]; exact h.metadata⟩
  rw [blockAt_eq hdata hdinode]
  exact h.excl.congr fun b _ => by simp only [InUse, hbit]

/-! ## Giving a block to a place -/

theorem Owns.fresh (h : v.Owns sb) {b : ℕ} (hb : v.bit b = false) (hb0 : b ≠ 0) (P : Place) :
    v.blockAt P ≠ b := h.excl.ne_of_not_mem hb0 (by simp [InUse, hb]) P

theorem blockAt_alloc (h : v.Owns sb) {b : ℕ} (hb : v.bit b = false) (hb0 : b ≠ 0) :
    (v.alloc b).blockAt = v.blockAt := by
  funext P
  have hother : ∀ i, v.blockAt (.slot i NDIRECT) ≠ 0 →
      (v.alloc b).data (v.blockAt (.slot i NDIRECT)) = v.data (v.blockAt (.slot i NDIRECT)) :=
    fun i _ => update_of_ne (h.fresh hb hb0 _) ..
  cases P with
  | slot i k => exact (blockAt_congr (v := v) (w := v.alloc b) rfl (hother i) k).1
  | entry i k => exact (blockAt_congr (v := v) (w := v.alloc b) rfl (hother i) k).2

theorem blockAt_setAddr {i k b : ℕ} (ht : (v.dinode i).type ≠ .free) (hk : k < NDIRECT) :
    (v.setAddr i k b).blockAt = update v.blockAt (.slot i k) b := by
  funext P
  cases P with
  | slot i' k' =>
    by_cases hi : i' = i
    · subst hi
      by_cases hk' : k' = k
      · subst hk'
        simp [ht, hk.le]
      · simp [hk']
    · simp [hi]
  | entry i' j =>
    have hne : NDIRECT ≠ k := hk.ne'
    by_cases hi : i' = i
    · subst hi
      simp [hne]
    · simp [hi]

theorem blockAt_setAddr_indirect {i b : ℕ} (ht : (v.dinode i).type ≠ .free)
    (hempty : (v.dinode i).addrs NDIRECT = 0) (hzero : v.data b = Block.zero) :
    (v.setAddr i NDIRECT b).blockAt = update v.blockAt (.slot i NDIRECT) b := by
  funext P
  cases P with
  | slot i' k' =>
    by_cases hi : i' = i
    · subst hi
      by_cases hk' : k' = NDIRECT
      · subst hk'
        simp [ht]
      · simp [hk']
    · simp [hi]
  | entry i' j =>
    by_cases hi : i' = i
    · subst hi
      simp [hempty, hzero]
    · simp [hi]

theorem blockAt_setEntry {i j b : ℕ} (hexcl : ∀ P Q, v.blockAt P ≠ 0 → v.blockAt P = v.blockAt Q →
      P = Q) (ht : (v.dinode i).type ≠ .free) (hind : (v.dinode i).addrs NDIRECT ≠ 0)
    (hj : j < NINDIRECT) (hb : b < 2 ^ 32) : (v.setData ((v.dinode i).addrs NDIRECT)
      ((v.data ((v.dinode i).addrs NDIRECT)).setWord j b)).blockAt =
      update v.blockAt (.entry i j) b := by
  have hslot := blockAt_slot (k := NDIRECT) ht le_rfl
  funext P
  cases P with
  | slot i' k' =>
    rw [update_of_ne (by simp)]
    rfl
  | entry i' j' =>
    by_cases hi : i' = i
    · subst hi
      by_cases hj' : j' = j
      · subst hj'
        simp [setData, ht, hind, hj, Block.word_setWord_self _ hb]
      · simp [setData, hj', Block.word_setWord_of_ne _ _ hj']
    rw [update_of_ne (by simp [hi])]
    set w := v.setData _ _
    refine (blockAt_congr (v := v) (w := w) rfl (fun hne => update_of_ne ?_ ..) j').2
    rw [← hslot]
    intro he
    have := hexcl _ _ hne he
    simp only [Place.slot.injEq, and_true] at this
    exact hi this

theorem Owns.attach (h : v.Owns sb) {P : Place} {b : ℕ} (hP : v.blockAt P = 0)
    (hb : v.bit b = false) (hsize : b < sb.size) (hb0 : b ≠ 0)
    (hblock : w.blockAt = update v.blockAt P b)
    (hbit : w.bit = update v.bit b true) : w.Owns sb := by
  have hdata : sb.datastart ≤ b := by
    by_contra hlt
    rw [h.metadata b (by omega)] at hb
    cases hb
  refine ⟨?_, fun x hx => ?_⟩
  · rw [hblock]
    refine h.excl.take hP hb0 (by simp [InUse, hb]) fun x _ => ?_
    by_cases hx : x = b
    · subst hx
      simp [InUse, hbit, hdata, hsize]
    · simp [InUse, hbit, hx]
  · have hxb : x ≠ b := by omega
    rw [hbit, update_of_ne hxb]
    exact h.metadata x hx

theorem release {f : Place → ℕ} (hex : Exclusive f (v.InUse sb))
    (hmeta : ∀ b < sb.datastart, v.bit b = true) {P : Place} (hP : f P ≠ 0) :
    Exclusive (update f P 0) ((v.free (f P)).InUse sb) ∧
      ∀ b < sb.datastart, (v.free (f P)).bit b = true := by
  have huse := hex.mem hP
  refine ⟨hex.drop hP fun x _ => ?_, fun x hx => ?_⟩
  · by_cases hx : x = f P
    · subst hx
      simp [InUse, free]
    · simp [InUse, free, hx]
  have hxb : x ≠ f P := by
    have := huse.1
    omega
  exact (update_of_ne hxb ..).trans (hmeta x hx)

/-! ## Growing a file -/

def SameInodes (v w : Volume) (i : ℕ) : Prop :=
  w.dinode = update v.dinode i { v.dinode i with addrs := (w.dinode i).addrs }

theorem SameInodes.type {i : ℕ} (h : SameInodes v w i) (j : ℕ) :
    (w.dinode j).type = (v.dinode j).type ∧ (w.dinode j).size = (v.dinode j).size := by
  rw [h]
  by_cases hj : j = i
  · subst hj
    simp
  · simp [hj]

theorem SameInodes.refl (v : Volume) (i : ℕ) : SameInodes v v i := by simp [SameInodes]

theorem SameInodes.trans {w x : Volume} {i : ℕ} (h : SameInodes v w i) (h' : SameInodes w x i) :
    SameInodes v x i := by
  unfold SameInodes at h h' ⊢
  rw [h']
  simp only [update_self]
  rw [h]
  simp

/-- What a search for block `bn` of inode `i` does: the block found is `a`, 0 if there is none; a
missing block may have been added, with zeros; no other block of a file changes. -/
structure Grows (sb : Superblock) (v w : Volume) (i bn a : ℕ) : Prop where
  owned : w.Owned sb
  inodes : SameInodes v w i
  block : ∀ j cn, (j ≠ i ∨ cn ≠ bn) → w.fileBlock j cn = v.fileBlock j cn
  result : w.fileBlock i bn = a
  old : v.fileBlock i bn ≠ 0 → w = v
  data : ∀ j cn, v.fileBlock j cn ≠ 0 → w.data (v.fileBlock j cn) = v.data (v.fileBlock j cn)
  zero : v.fileBlock i bn = 0 → a ≠ 0 → w.data a = Block.zero

variable {i bn a : ℕ}

theorem Grows.refl (h : v.Owned sb) (ha : v.fileBlock i bn = a) : Grows sb v v i bn a where
  owned := h
  inodes := .refl v i
  block _ _ _ := rfl
  result := ha
  old _ := rfl
  data _ _ _ := rfl
  zero h0 ha0 := absurd (ha.symm.trans h0) ha0

theorem Grows.trans {w x : Volume} (h : Grows sb v w i bn 0)
    (h' : Grows sb w x i bn a) : Grows sb v x i bn a := by
  have hmissing : v.fileBlock i bn = 0 := by
    by_contra hne
    rw [h.old hne] at h
    exact hne h.result
  have hkeep : ∀ j cn, v.fileBlock j cn ≠ 0 → w.fileBlock j cn = v.fileBlock j cn := by
    intro j cn hne
    refine h.block j cn ?_
    by_contra hcon
    rw [not_or, not_not, not_not] at hcon
    rw [hcon.1, hcon.2] at hne
    exact hne hmissing
  refine ⟨h'.owned, h.inodes.trans h'.inodes, fun j cn hne => ?_, h'.result,
    fun hne => absurd hmissing hne, fun j cn hne => ?_, fun _ ha => h'.zero h.result ha⟩
  · rw [h'.block j cn hne, h.block j cn hne]
  have hw := hkeep j cn hne
  have hdata := h'.data j cn (by rw [hw]; exact hne)
  rw [hw] at hdata
  rw [hdata, h.data j cn hne]

theorem Owned.of_grow (h : v.Owned sb) {i : ℕ} (howns : w.Owns sb) (hinodes : SameInodes v w i)
    (hblock : ∀ j cn, v.fileBlock j cn ≠ 0 → w.fileBlock j cn ≠ 0) : w.Owned sb where
  toOwns := howns
  mapped j bn ht hlt := by
    obtain ⟨htype, hsize⟩ := hinodes.type j
    rw [htype] at ht
    rw [hsize] at hlt
    exact hblock j bn (h.mapped j bn ht hlt)
  past j hj := by
    rw [(hinodes.type j).1]
    exact h.past j hj

theorem Grows.attach (h : v.Owned sb) (hempty : v.fileBlock i bn = 0)
    (hbit : v.bit a = false) (hsize : a < sb.size) (ha : a ≠ 0)
    (hblock : w.blockAt = update v.blockAt (Place.ofBlock i bn) a)
    (hwbit : w.bit = update v.bit a true) (hinodes : SameInodes v w i)
    (hdata : ∀ j cn, v.fileBlock j cn ≠ 0 → w.data (v.fileBlock j cn) = v.data (v.fileBlock j cn))
    (hzero : w.data a = Block.zero) : Grows sb v w i bn a := by
  have hother : ∀ j cn, (j ≠ i ∨ cn ≠ bn) → w.fileBlock j cn = v.fileBlock j cn := by
    intro j cn hne
    rw [fileBlock, hblock, update_of_ne]
    · rfl
    · intro he
      have := Place.ofBlock_injective he
      omega
  have hresult : w.fileBlock i bn = a := by rw [fileBlock, hblock, update_self]
  refine ⟨h.of_grow (h.toOwns.attach hempty hbit hsize ha hblock hwbit) hinodes ?_, hinodes, hother,
    hresult, fun hne => absurd hempty hne, hdata, fun _ _ => hzero⟩
  intro j cn hne
  by_cases hjc : j ≠ i ∨ cn ≠ bn
  · rw [hother j cn hjc]
    exact hne
  · rw [not_or, not_not, not_not] at hjc
    rw [hjc.1, hjc.2, hresult]
    exact ha

theorem Owns.data_alloc (h : v.Owns sb) {a : ℕ} (hbit : v.bit a = false) (ha : a ≠ 0) (P : Place) :
    (v.alloc a).data (v.blockAt P) = v.data (v.blockAt P) := update_of_ne (h.fresh hbit ha P) ..

theorem sameInodes_setAddr (i k a : ℕ) : SameInodes v ((v.alloc a).setAddr i k a) i := by
  simp [SameInodes, alloc]

theorem Grows.direct (h : v.Owned sb) (ht : (v.dinode i).type ≠ .free)
    (hbn : bn < NDIRECT) (hempty : (v.dinode i).addrs bn = 0) (hbit : v.bit a = false)
    (hsize : a < sb.size) (ha : a ≠ 0) : Grows sb v ((v.alloc a).setAddr i bn a) i bn a := by
  have hplace : Place.ofBlock i bn = .slot i bn := if_pos hbn
  refine Grows.attach h ?_ hbit hsize ha ?_ rfl (sameInodes_setAddr i bn a)
    (fun j cn _ => h.data_alloc hbit ha _) (update_self ..)
  · rw [fileBlock, hplace, blockAt_slot ht hbn.le, hempty]
  · rw [hplace, blockAt_setAddr (v := v.alloc a) ht hbn, blockAt_alloc h.toOwns hbit ha]

theorem Grows.indirect {i j a : ℕ} (h : v.Owned sb) (ht : (v.dinode i).type ≠ .free)
    (hempty : (v.dinode i).addrs NDIRECT = 0) (hbit : v.bit a = false)
    (hsize : a < sb.size) (ha : a ≠ 0) :
    Grows sb v ((v.alloc a).setAddr i NDIRECT a) i (NDIRECT + j) 0 := by
  set w := (v.alloc a).setAddr i NDIRECT a with hw
  have hblock : w.blockAt = update v.blockAt (.slot i NDIRECT) a := by
    rw [hw, blockAt_setAddr_indirect (v := v.alloc a) ht hempty (update_self ..),
      blockAt_alloc h.toOwns hbit ha]
  have hslot : v.blockAt (.slot i NDIRECT) = 0 := by rw [blockAt_slot ht le_rfl, hempty]
  have hsame : ∀ k cn, w.fileBlock k cn = v.fileBlock k cn := by
    intro k cn
    rw [fileBlock, hblock, update_of_ne (Place.ofBlock_ne_indirect k cn i)]
    rfl
  have hnone : v.fileBlock i (NDIRECT + j) = 0 := by simp [fileBlock, Place.ofBlock, hempty]
  have howns : w.Owns sb := h.toOwns.attach hslot hbit hsize ha hblock rfl
  have hinodes : SameInodes v w i := sameInodes_setAddr i NDIRECT a
  refine ⟨h.of_grow howns hinodes fun k cn hne => by rw [hsame]; exact hne, hinodes,
    fun k cn _ => hsame k cn, (hsame _ _).trans hnone, fun hne => absurd hnone hne,
    fun k cn _ => h.data_alloc hbit ha _, fun _ hne => absurd rfl hne⟩

theorem Grows.entry {i j a : ℕ} (h : v.Owned sb) (ht : (v.dinode i).type ≠ .free)
    (hind : (v.dinode i).addrs NDIRECT ≠ 0) (hj : j < NINDIRECT)
    (hempty : (v.data ((v.dinode i).addrs NDIRECT)).word j = 0) (hbit : v.bit a = false)
    (hsize : a < sb.size) (h32 : a < 2 ^ 32) (ha : a ≠ 0) :
    Grows sb v ((v.alloc a).setData ((v.dinode i).addrs NDIRECT)
      (((v.alloc a).data ((v.dinode i).addrs NDIRECT)).setWord j a)) i (NDIRECT + j) a := by
  set ind := (v.dinode i).addrs NDIRECT with hindDef
  have hslot : v.blockAt (.slot i NDIRECT) = ind := blockAt_slot ht le_rfl
  have hplace : Place.ofBlock i (NDIRECT + j) = .entry i j := by simp [Place.ofBlock]
  have hinda : a ≠ ind := fun he => h.toOwns.fresh hbit ha (.slot i NDIRECT) (hslot.trans he.symm)
  have halloc : (v.alloc a).blockAt = v.blockAt := blockAt_alloc h.toOwns hbit ha
  refine Grows.attach h ?_ hbit hsize ha ?_ rfl (.refl v i) (fun k cn hne => ?_) ?_
  · rw [fileBlock, hplace, blockAt_entry ht hind hj, ← hindDef, hempty]
  · rw [hplace, ← halloc]
    exact blockAt_setEntry (v := v.alloc a) (by rw [halloc]; exact h.excl.unique) ht hind hj h32
  · have hne' : v.fileBlock k cn ≠ ind := by
      intro he
      rw [← hslot] at he
      exact Place.ofBlock_ne_indirect k cn i (h.excl.unique _ _ hne he)
    exact (update_of_ne hne' ..).trans (h.data_alloc hbit ha _)
  · exact (update_of_ne hinda ..).trans (update_self ..)

end Volume

end Xv6.Fs

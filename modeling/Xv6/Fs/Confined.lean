import Xv6.Fs.Content
import Xv6.Fs.Reclaim

/-!
# What `bmap` leaves alone, and when it fails

`Confined v w i` says that only inode `i` and the blocks it holds differ between the volumes `v` and
`w`: every other inode, every bit and every block that is not one of its blocks is the same.
-/

namespace Xv6.Fs

open Hoare Function Volume

variable {sb : Superblock} {E : Halt → Prop}

namespace Volume

variable {v w x : Volume} {i : ℕ}

/-- Block `b` is one of inode `i`. -/
def Holds (v : Volume) (i b : ℕ) : Prop := b ≠ 0 ∧ ∃ P : Place, P.inode = i ∧ v.blockAt P = b

/-- Only inode `i` and its blocks change, and it keeps the blocks it has. -/
structure Confined (v w : Volume) (i : ℕ) : Prop where
  dinode : ∀ j, j ≠ i → w.dinode j = v.dinode j
  place : ∀ P : Place, P.inode = i → v.blockAt P ≠ 0 → w.blockAt P = v.blockAt P
  data : ∀ b, ¬ w.Holds i b → w.data b = v.data b
  bit : ∀ b, ¬ w.Holds i b → w.bit b = v.bit b

theorem Confined.refl (v : Volume) (i : ℕ) : Confined v v i :=
  ⟨fun _ _ => rfl, fun _ _ _ => rfl, fun _ _ => rfl, fun _ _ => rfl⟩

theorem Confined.holds (h : Confined v w i) {b : ℕ} (hb : v.Holds i b) : w.Holds i b := by
  obtain ⟨hb0, P, hP, rfl⟩ := hb
  exact ⟨hb0, P, hP, h.place P hP hb0⟩

theorem Confined.trans (h : Confined v w i) (h' : Confined w x i) : Confined v x i where
  dinode j hj := (h'.dinode j hj).trans (h.dinode j hj)
  place P hP hne := by
    have hw := h.place P hP hne
    rw [h'.place P hP (by rw [hw]; exact hne), hw]
  data b hb := (h'.data b hb).trans (h.data b fun hw => hb (h'.holds hw))
  bit b hb := (h'.bit b hb).trans (h.bit b fun hw => hb (h'.holds hw))

theorem Confined.attach {P : Place} {a : ℕ} (hP : P.inode = i) (hempty : v.blockAt P = 0)
    (ha : a ≠ 0) (hblock : w.blockAt = update v.blockAt P a)
    (hdinode : ∀ j, j ≠ i → w.dinode j = v.dinode j)
    (hdata : ∀ b, b ≠ a → ¬ w.Holds i b → w.data b = v.data b)
    (hbit : ∀ b, b ≠ a → w.bit b = v.bit b) : Confined v w i := by
  have hheld : w.Holds i a := ⟨ha, P, hP, by rw [hblock, update_self]⟩
  have hne : ∀ b, ¬ w.Holds i b → b ≠ a := by
    rintro b hb rfl
    exact hb hheld
  refine ⟨hdinode, fun Q _ hQ => ?_, fun b hb => hdata b (hne b hb) hb, fun b hb => hbit b (hne b hb)⟩
  rw [hblock, update_of_ne]
  rintro rfl
  exact hQ hempty

theorem Owned.confined_setData (h : v.Owned sb) {cn : ℕ} (hne : v.fileBlock i cn ≠ 0) (a : Block) :
    Confined v (v.setData (v.fileBlock i cn) a) i := by
  have hblock := h.blockAt_setData hne a
  refine ⟨fun _ _ => rfl, fun P _ _ => by rw [hblock], fun b hb => ?_, fun _ _ => rfl⟩
  refine update_of_ne ?_ ..
  rintro rfl
  refine hb ⟨hne, Place.ofBlock i cn, ?_, by rw [hblock]; rfl⟩
  unfold Place.ofBlock
  split <;> rfl

end Volume

/-! ## A full disk -/

/-- No block is free. -/
def Kernel.Full (sb : Superblock) (s : Kernel) : Prop := ∀ b < sb.size, s.vol.bit b = true

theorem ballocBits_none {bit : ℕ → Bool} {size b k bi : ℕ}
    (h : ballocBits bit size b k bi = none) {x : ℕ} (hlow : b + bi ≤ x) (hhigh : x < b + bi + k)
    (hsize : x < size) : bit x = true := by
  induction k generalizing bi with
  | zero => omega
  | succ k ih =>
    rw [ballocBits] at h
    rw [if_pos (by omega)] at h
    split at h
    · next hbit =>
      rcases Nat.lt_or_ge (b + bi) x with hlt | hge
      · exact ih h (by omega) (by omega)
      · rwa [show x = b + bi by omega]
    · cases h

theorem ballocScan_none {bit : ℕ → Bool} {size k b : ℕ} (h : ballocScan bit size k b = none)
    {x : ℕ} (hlow : b ≤ x) (hhigh : x < b + k * BPB) (hsize : x < size) : bit x = true := by
  induction k generalizing b with
  | zero => omega
  | succ k ih =>
    rw [ballocScan, if_pos (by omega)] at h
    split at h
    · cases h
    next hbits =>
    rcases Nat.lt_or_ge x (b + BPB) with hlt | hge
    · exact ballocBits_none hbits (by omega) (by omega) hsize
    · refine ih h hge ?_
      rw [Nat.succ_mul] at hhigh
      omega

variable {s : Kernel}

theorem balloc_full (hops : 1 ≤ s.log.outstanding) (hzero : s.vol.bit 0 = true) :
    Wp (balloc sb) s (fun a s' => a = 0 → s'.Full sb) E := by
  refine Wp.get_seq ?_
  split
  · next b hscan =>
    refine Wp.modify_seq (wp_bind.mpr (wp_logWrite hops ?_))
    refine wp_bind.mpr (Wp.modify_seq (wp_logWrite hops ?_))
    rintro rfl
    rw [(ballocScan_some hscan).1] at hzero
    cases hzero
  next hscan =>
  refine fun _ b hb => ballocScan_none hscan (Nat.zero_le b) ?_ hb
  have hmod := Nat.lt_div_mul_add (a := sb.size) (b := BPB) (by decide)
  rw [Nat.zero_add, Nat.succ_mul]
  omega

variable {ip : InodeId}

theorem bmapSlot_full {k : ℕ} (hops : 1 ≤ s.log.outstanding) (hzero : s.vol.bit 0 = true) :
    Wp (bmapSlot sb ip k) s (fun a s' => a = 0 → s'.Full sb) E := by
  refine Wp.get_seq ?_
  dsimp only
  split
  · refine (balloc_full hops hzero).seq fun a s1 h1 => ?_
    split
    · next ha => exact fun _ => h1 ha
    · next ha => exact Wp.modify_seq fun h => absurd h ha
  · next hne => exact fun h => absurd h hne

theorem bmapEntry_full {ind j : ℕ} (hops : 1 ≤ s.log.outstanding) (hzero : s.vol.bit 0 = true) :
    Wp (bmapEntry sb ind j) s (fun a s' => a = 0 → s'.Full sb) E := by
  refine Wp.get_seq ?_
  split
  · refine ((balloc_full hops hzero).and_returns ((blind_frame 0).balloc sb s)).seq
      fun a s1 hpost => ?_
    obtain ⟨h1, hframe⟩ := hpost
    split
    · next ha => exact fun _ => h1 ha
    next ha =>
    refine Wp.modify_seq (wp_bind.mpr (wp_logWrite ?_ fun h => absurd h ha))
    have := outstanding_of_frame hframe
    exact this ▸ hops
  · next hne => exact fun h => absurd h hne

/-! ## The search -/

theorem bmapEntry_confined (hsb : sb.Ok) {j : ℕ}
    (hops : 1 ≤ s.log.outstanding) (howned : (s.eff ip).Owned sb)
    (ht : (s.itable ip).d.type ≠ .free) (hind : (s.itable ip).d.addrs NDIRECT ≠ 0)
    (hj : j < NINDIRECT) : Wp (bmapEntry sb ((s.itable ip).d.addrs NDIRECT) j) s (fun a s' =>
      (s.eff ip).Grows sb (s'.eff ip) (s.itable ip).inum (NDIRECT + j) a ∧
      (s.eff ip).Confined (s'.eff ip) (s.itable ip).inum ∧ (a = 0 → s'.Full sb)) E := by
  have hzero : s.vol.bit 0 = true := howned.metadata 0 (by have := hsb.map; omega)
  have hd : (s.eff ip).dinode (s.itable ip).inum = (s.itable ip).d := eff_dinode_self s ip
  refine (((bmapEntry_spec hops hzero).and_returns (bmapEntry_full hops hzero)).and_returns
    (bmapEntry_grows hsb hops howned ht hind hj)).mono fun a s1 hpost => ?_
  obtain ⟨⟨h1, hfull⟩, hgrow⟩ := hpost
  refine ⟨hgrow, ?_, hfull⟩
  rcases h1 with ⟨rfl, -⟩ | ⟨hempty, ha, hbit, hsize, hvol, htab⟩
  · exact .refl _ _
  set i := (s.itable ip).inum with hi
  set ind := (s.itable ip).d.addrs NDIRECT with hindDef
  have ht' : ((s.eff ip).dinode i).type ≠ .free := by rw [hd]; exact ht
  have haddr : ((s.eff ip).dinode i).addrs NDIRECT = ind := by rw [hd]
  have heff : s1.eff ip = ((s.eff ip).alloc a).setData ind
      ((((s.eff ip).alloc a).data ind).setWord j a) := by
    simp [Kernel.eff, setData, alloc, hvol, htab]
  have halloc : ((s.eff ip).alloc a).blockAt = (s.eff ip).blockAt :=
    blockAt_alloc howned.toOwns hbit ha
  have hblock : (s1.eff ip).blockAt = update (s.eff ip).blockAt (.entry i j) a := by
    have haddr' : (((s.eff ip).alloc a).dinode i).addrs NDIRECT = ind := haddr
    have h := blockAt_setEntry (v := (s.eff ip).alloc a) (i := i) (j := j) (b := a)
      (by rw [halloc]; exact howned.excl.unique) ht' (by rw [haddr']; exact hind) hj
      (hsize.trans hsb.uint)
    rw [haddr', halloc] at h
    rw [heff]
    exact h
  refine Confined.attach (P := .entry i j) rfl ?_ ha hblock (fun k _ => by rw [heff]; rfl)
    (fun b hb hnot => ?_) fun b hb => ?_
  · rw [blockAt_entry ht' (by rw [haddr]; exact hind) hj, haddr]
    exact hempty
  · have hbi : b ≠ ind := by
      rintro rfl
      refine hnot ⟨hind, .slot i NDIRECT, rfl, ?_⟩
      rw [hblock, update_of_ne (by simp), blockAt_slot ht' le_rfl, haddr]
    rw [heff]
    exact (update_of_ne hbi ..).trans (update_of_ne hb ..)
  · rw [heff]
    exact update_of_ne hb ..

theorem confined_setAddr {v : Volume} {i k a : ℕ} (h : v.Owned sb)
    (ht : (v.dinode i).type ≠ .free) (hk : k ≤ NDIRECT) (hempty : (v.dinode i).addrs k = 0)
    (hbit : v.bit a = false) (ha : a ≠ 0) : v.Confined ((v.alloc a).setAddr i k a) i := by
  refine Confined.attach (P := .slot i k) rfl ?_ ha ?_ (fun j hj => ?_) (fun b hb _ => ?_)
    fun b hb => ?_
  · rw [blockAt_slot ht hk, hempty]
  · rcases lt_or_eq_of_le hk with hlt | rfl
    · rw [blockAt_setAddr (v := v.alloc a) ht hlt, blockAt_alloc h.toOwns hbit ha]
    · rw [blockAt_setAddr_indirect (v := v.alloc a) ht hempty (update_self ..),
        blockAt_alloc h.toOwns hbit ha]
  · exact update_of_ne hj ..
  · exact update_of_ne hb ..
  · exact update_of_ne hb ..

/-- What `bmap` does: it adds at most one block to the file and changes nothing else, and it fails
only when the disk is full. -/
theorem bmap_spec (hsb : sb.Ok) {bn : ℕ}
    (hops : 1 ≤ s.log.outstanding) (howned : (s.eff ip).Owned sb)
    (ht : (s.itable ip).d.type ≠ .free) (hbn : bn < MAXFILE) : Wp (bmap sb ip bn) s (fun a s' =>
      (s.eff ip).Grows sb (s'.eff ip) (s.itable ip).inum bn a ∧
      (s.eff ip).Confined (s'.eff ip) (s.itable ip).inum ∧ (a = 0 → s'.Full sb)) E := by
  have hzero : s.vol.bit 0 = true := howned.metadata 0 (by have := hsb.map; omega)
  have hd : (s.eff ip).dinode (s.itable ip).inum = (s.itable ip).d := eff_dinode_self s ip
  have ht' : ((s.eff ip).dinode (s.itable ip).inum).type ≠ .free := by rw [hd]; exact ht
  unfold bmap
  split
  · next hdirect =>
    refine ((bmapSlot_spec hops hzero).and_returns (bmapSlot_full hops hzero)).mono
      fun a s1 hpost => ?_
    obtain ⟨h1, hfull⟩ := hpost
    rcases h1 with ⟨rfl, rfl⟩ | ⟨hempty, ha, hbit, hsize, heff⟩
    · refine ⟨.refl howned ?_, .refl _ _, hfull⟩
      rw [fileBlock, Place.ofBlock, if_pos hdirect, blockAt_slot ht' hdirect.le, hd]
    rw [← hd] at hempty
    rw [heff]
    exact ⟨Grows.direct howned ht' hdirect hempty hbit hsize ha,
      confined_setAddr howned ht' hdirect.le hempty hbit ha, hfull⟩
  next hdirect =>
  obtain ⟨j, rfl⟩ : ∃ j, bn = NDIRECT + j := ⟨bn - NDIRECT, by omega⟩
  have hj : j < NINDIRECT := by
    unfold MAXFILE at hbn
    omega
  rw [Nat.add_sub_cancel_left, if_pos hj]
  refine (((bmapSlot_spec hops hzero).and_returns (bmapSlot_full hops hzero)).and_returns
    ((blind_frame ip).bmapSlot sb NDIRECT s)).seq fun ind s1 hpost => ?_
  obtain ⟨⟨h1, hfull⟩, hframe⟩ := hpost
  rcases h1 with ⟨rfl, rfl⟩ | ⟨hempty, ha, hbit, hsize, heff⟩
  · split
    · next hnone =>
      refine ⟨.refl howned ?_, .refl _ _, fun _ => hfull hnone⟩
      simp [fileBlock, Place.ofBlock, blockAt, hnone]
    · next hind => exact bmapEntry_confined hsb hops howned ht hind hj
  -- The entry is added to the volume that has the new indirect block.
  have hgrow := Grows.indirect (j := j) howned ht' (by rw [hd]; exact hempty) hbit hsize ha
  have hconf := confined_setAddr howned ht' le_rfl (by rw [hd]; exact hempty) hbit ha
  rw [← heff] at hgrow hconf
  have hinum := inum_of_frame hframe ip
  have hcopy : (s1.itable ip).d = (s1.eff ip).dinode (s.itable ip).inum := by
    rw [← hinum, eff_dinode_self]
  have hind : (s1.itable ip).d.addrs NDIRECT = ind := by
    rw [hcopy, heff]
    simp [setAddr]
  rw [if_neg ha, ← hind]
  refine (bmapEntry_confined hsb ?_ hgrow.owned ?_ (by rw [hind]; exact ha) hj).mono
    fun a s2 hpost => ?_
  · rw [outstanding_of_frame hframe]
    exact hops
  · rw [hcopy, (hgrow.inodes.type _).1]
    exact ht'
  · rw [hinum] at hpost
    exact ⟨hgrow.trans hpost.1, hconf.trans hpost.2.1, hpost.2.2⟩

theorem bmap_old {bn : ℕ} (ht : (s.itable ip).d.type ≠ .free)
    (hbn : bn < MAXFILE) (hne : (s.eff ip).fileBlock (s.itable ip).inum bn ≠ 0) :
    Wp (bmap sb ip bn) s
      (fun a s' => s' = s ∧ a = (s.eff ip).fileBlock (s.itable ip).inum bn) E := by
  have hd : (s.eff ip).dinode (s.itable ip).inum = (s.itable ip).d := eff_dinode_self s ip
  have ht' : ((s.eff ip).dinode (s.itable ip).inum).type ≠ .free := by rw [hd]; exact ht
  have hslot : ∀ k, (s.itable ip).d.addrs k ≠ 0 →
      bmapSlot sb ip k s = .ok ((s.itable ip).d.addrs k, s) := by
    intro k hk
    change (if (s.itable ip).d.addrs k = 0 then _ else _ : FsM ℕ) s = _
    rw [if_neg hk]
    rfl
  unfold bmap
  split
  · next hdirect =>
    have hblock : (s.eff ip).fileBlock (s.itable ip).inum bn = (s.itable ip).d.addrs bn := by
      rw [fileBlock, Place.ofBlock, if_pos hdirect, blockAt_slot ht' hdirect.le, hd]
    rw [hblock] at hne ⊢
    rw [Wp, hslot bn hne]
    exact ⟨rfl, rfl⟩
  next hdirect =>
  have hj : bn - NDIRECT < NINDIRECT := by
    unfold MAXFILE at hbn
    omega
  have hind : (s.itable ip).d.addrs NDIRECT ≠ 0 := by
    intro hzero
    refine hne ?_
    simp [fileBlock, Place.ofBlock, hdirect, blockAt, hzero]
  have hblock : (s.eff ip).fileBlock (s.itable ip).inum bn =
      (s.vol.data ((s.itable ip).d.addrs NDIRECT)).word (bn - NDIRECT) := by
    rw [fileBlock, Place.ofBlock, if_neg hdirect,
      blockAt_entry ht' (by rw [hd]; exact hind) hj, hd]
    rfl
  rw [hblock] at hne ⊢
  rw [if_pos hj]
  refine wp_bind.mpr ?_
  rw [Wp, hslot NDIRECT hind]
  dsimp only
  rw [if_neg hind]
  refine Wp.get_seq ?_
  rw [if_neg hne]
  exact ⟨rfl, rfl⟩

end Xv6.Fs

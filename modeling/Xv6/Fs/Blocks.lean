import Xv6.Fs.Ledger
import Xv6.Fs.Volume

/-!
# Mapping blocks

`balloc`, `bfree` and `bmap` against the owners of the blocks.
-/

namespace Xv6.Fs

open Hoare Function Kernel Volume

variable {sb : Superblock} {E : Halt → Prop}

def Kernel.eff (s : Kernel) (ip : InodeId) : Volume :=
  { s.vol with dinode := update s.vol.dinode (s.itable ip).inum (s.itable ip).d }

@[simp] theorem eff_dinode_self (s : Kernel) (ip : InodeId) :
    (s.eff ip).dinode (s.itable ip).inum = (s.itable ip).d := update_self ..

theorem eff_setCopy (s : Kernel) (ip : InodeId) (d : Dinode) : (s.setCopy ip d).eff ip =
    { s.vol with dinode := update s.vol.dinode (s.itable ip).inum d } := by
  simp [eff, setCopy, setInode]

@[simp] theorem setCopy_d (s : Kernel) (ip : InodeId) (d : Dinode) :
    ((s.setCopy ip d).itable ip).d = d := by simp [setCopy, setInode]

/-- What is in memory apart from the copy of the inode in entry `ip`. -/
def Kernel.rest (ip : InodeId) (s : Kernel) :
    (Ledger × (InodeId → ℕ × Bool)) × (InodeId → Dinode) :=
  (s.frame, fun jp => if jp = ip then Dinode.zero else (s.itable jp).d)

/-- What a function that works on the blocks of the inode in entry `ip` leaves alone. -/
def Kernel.others (ip : InodeId) (s : Kernel) :
    ((Ledger × (InodeId → ℕ × Bool)) × (InodeId → Dinode)) × (ℕ → Dinode) :=
  (s.rest ip, s.vol.dinode)

theorem rest_setCopy (s : Kernel) (ip : InodeId) (d : Dinode) :
    (s.setCopy ip d).rest ip = s.rest ip := by
  refine Prod.ext (frame_setCopy s ip d) (funext fun jp => ?_)
  by_cases h : jp = ip
  · simp [rest, h]
  · simp [rest, h, setCopy, setInode]

theorem blind_rest (ip : InodeId) : BlindDisk (rest ip) ip where
  bit _ _ _ := rfl
  data _ _ _ := rfl
  log _ _ := rfl
  copy s d := rest_setCopy s ip d
  dinode _ _ _ := rfl

theorem blind_others (ip : InodeId) : Blind (others ip) ip where
  bit _ _ _ := rfl
  data _ _ _ := rfl
  log _ _ := rfl
  copy s d := Prod.ext (rest_setCopy s ip d) rfl

section Rest

variable {s s' : Kernel} {ip : InodeId}

theorem outstanding_of_frame (h : s'.frame = s.frame) : s'.log.outstanding = s.log.outstanding :=
  congrArg (fun x => x.1.outstanding) h

theorem inum_of_frame (h : s'.frame = s.frame) (ip : InodeId) :
    (s'.itable ip).inum = (s.itable ip).inum := congrArg (fun x => (x.2 ip).1) h

theorem frame_of_rest (h : s'.rest ip = s.rest ip) : s'.frame = s.frame := congrArg Prod.fst h

end Rest

/-! ## Allocating a block -/

theorem ballocBits_some {bit : ℕ → Bool} {size b r : ℕ} :
    ∀ {k bi : ℕ}, ballocBits bit size b k bi = some r → bit r = false ∧ r < size
  | 0, _, h => by simp [ballocBits] at h
  | k + 1, bi, h => by
    unfold ballocBits at h
    split at h
    · next hlt =>
      split at h
      · exact ballocBits_some h
      · next hbit =>
        cases h
        exact ⟨by simpa using hbit, hlt⟩
    · cases h

theorem ballocScan_some {bit : ℕ → Bool} {size r : ℕ} :
    ∀ {k b : ℕ}, ballocScan bit size k b = some r → bit r = false ∧ r < size
  | 0, _, h => by simp [ballocScan] at h
  | k + 1, b, h => by
    unfold ballocScan at h
    split at h
    · split at h
      · next hbits =>
        cases h
        exact ballocBits_some hbits
      · exact ballocScan_some h
    · cases h

variable {Q : Unit → Kernel → Prop}

theorem wp_logWrite {s : Kernel} {b : ℕ} (hops : 1 ≤ s.log.outstanding)
    (h : Q () { s with log := s.log.write b }) : Wp (logWrite b) s Q E := by
  refine Wp.get_seq ?_
  rw [if_neg (by omega)]
  exact h

theorem balloc_spec {s : Kernel} (hops : 1 ≤ s.log.outstanding) :
    Wp (balloc sb) s (fun b s' => (b = 0 ∧ s' = s) ∨ (s.vol.bit b = false ∧ b < sb.size ∧
      s'.vol = s.vol.alloc b ∧ s'.itable = s.itable)) E := by
  refine Wp.get_seq ?_
  split
  · next b hscan =>
    obtain ⟨hbit, hsize⟩ := ballocScan_some hscan
    refine Wp.modify_seq (wp_bind.mpr (wp_logWrite hops ?_))
    refine wp_bind.mpr (Wp.modify_seq (wp_logWrite hops ?_))
    exact .inr ⟨hbit, hsize, rfl, rfl⟩
  · exact .inl ⟨rfl, rfl⟩

theorem wp_bfree {s : Kernel} {b : ℕ} (hops : 1 ≤ s.log.outstanding)
    (hbit : s.vol.bit b = true)
    (h : Q () { s.setBit b false with log := s.log.write (sb.bblock b) }) :
    Wp (bfree sb b) s Q E := by
  refine Wp.get_seq ?_
  rw [if_neg (by simp [hbit])]
  exact Wp.modify_seq (wp_logWrite hops h)

theorem wp_iupdate {s : Kernel} {ip : InodeId}
    (hops : 1 ≤ s.log.outstanding)
    (h : Q () { s with vol := s.eff ip, log := s.log.write (sb.iblock (s.itable ip).inum) }) :
    Wp (iupdate sb ip) s Q E := by
  refine Wp.modify_seq (Wp.get_seq ?_)
  exact wp_logWrite hops h

/-! ## bmap -/

theorem bmapSlot_spec {s : Kernel} {ip : InodeId} {k : ℕ} (hops : 1 ≤ s.log.outstanding)
    (hzero : s.vol.bit 0 = true) :
    Wp (bmapSlot sb ip k) s (fun a s' => (s' = s ∧ a = (s.itable ip).d.addrs k) ∨
      ((s.itable ip).d.addrs k = 0 ∧ a ≠ 0 ∧ s.vol.bit a = false ∧ a < sb.size ∧
        s'.eff ip = ((s.eff ip).alloc a).setAddr (s.itable ip).inum k a)) E := by
  refine Wp.get_seq ?_
  dsimp only
  split
  · next hempty =>
    refine (balloc_spec hops).seq fun a s1 h1 => ?_
    split
    · next ha =>
      rcases h1 with ⟨-, rfl⟩ | ⟨hbit, -⟩
      · exact .inl ⟨rfl, hempty.symm⟩
      · rw [ha, hzero] at hbit
        cases hbit
    next ha =>
    rcases h1 with ⟨h0, -⟩ | ⟨hbit, hsize, hvol, htab⟩
    · exact absurd h0 ha
    · refine Wp.modify_seq (.inr ⟨hempty, ha, hbit, hsize, ?_⟩)
      simp [eff, setCopy, setInode, setAddr, alloc, hvol, htab]
  · exact .inl ⟨rfl, rfl⟩

theorem bmapEntry_spec {s : Kernel} {ind j : ℕ} (hops : 1 ≤ s.log.outstanding)
    (hzero : s.vol.bit 0 = true) :
    Wp (bmapEntry sb ind j) s (fun a s' => (s' = s ∧ a = (s.vol.data ind).word j) ∨
      ((s.vol.data ind).word j = 0 ∧ a ≠ 0 ∧ s.vol.bit a = false ∧ a < sb.size ∧
        s'.vol = (s.vol.alloc a).setData ind (((s.vol.alloc a).data ind).setWord j a) ∧
        s'.itable = s.itable)) E := by
  refine Wp.get_seq ?_
  split
  · next hempty =>
    refine ((balloc_spec hops).and_returns (((blind_frame 0).balloc sb) s)).seq fun a s1 h1 => ?_
    obtain ⟨h1, hframe⟩ := h1
    split
    · next ha =>
      rcases h1 with ⟨-, rfl⟩ | ⟨hbit, -⟩
      · exact .inl ⟨rfl, hempty.symm⟩
      · rw [ha, hzero] at hbit
        cases hbit
    next ha =>
    rcases h1 with ⟨h0, -⟩ | ⟨hbit, hsize, hvol, htab⟩
    · exact absurd h0 ha
    have hops1 : 1 ≤ s1.log.outstanding := by
      have : s1.log.outstanding = s.log.outstanding := congrArg (fun x => x.1.outstanding) hframe
      omega
    refine Wp.modify_seq (wp_bind.mpr (wp_logWrite hops1 ?_))
    refine .inr ⟨hempty, ha, hbit, hsize, ?_, htab⟩
    simp [Kernel.setData, Volume.setData, hvol]
  · exact .inl ⟨rfl, rfl⟩

theorem bmapEntry_grows (hsb : sb.Ok) {s : Kernel} {ip : InodeId} {j : ℕ}
    (hops : 1 ≤ s.log.outstanding) (howned : (s.eff ip).Owned sb)
    (ht : (s.itable ip).d.type ≠ .free) (hind : (s.itable ip).d.addrs NDIRECT ≠ 0)
    (hj : j < NINDIRECT) : Wp (bmapEntry sb ((s.itable ip).d.addrs NDIRECT) j) s (fun a s' =>
      (s.eff ip).Grows sb (s'.eff ip) (s.itable ip).inum (NDIRECT + j) a) E := by
  have hzero : s.vol.bit 0 = true := howned.metadata 0 (by have := hsb.map; omega)
  have hd : (s.eff ip).dinode (s.itable ip).inum = (s.itable ip).d := eff_dinode_self s ip
  refine (bmapEntry_spec hops hzero).mono fun a s1 h1 => ?_
  rcases h1 with ⟨rfl, rfl⟩ | ⟨hempty, ha, hbit, hsize, hvol, htab⟩
  · refine .refl howned ?_
    have hplace : Place.ofBlock (s1.itable ip).inum (NDIRECT + j) = .entry (s1.itable ip).inum j := by
      simp [Place.ofBlock]
    rw [Volume.fileBlock, hplace, Volume.blockAt_entry (by rw [hd]; exact ht)
      (by rw [hd]; exact hind) hj, hd]
    rfl
  have heff : s1.eff ip = ((s.eff ip).alloc a).setData ((s.itable ip).d.addrs NDIRECT)
      ((((s.eff ip).alloc a).data ((s.itable ip).d.addrs NDIRECT)).setWord j a) := by
    simp [Kernel.eff, Volume.setData, Volume.alloc, hvol, htab]
  rw [heff]
  have hgrow := Volume.Grows.entry (i := (s.itable ip).inum) howned (by rw [hd]; exact ht)
    (by rw [hd]; exact hind) hj (by rw [hd]; exact hempty) hbit hsize (hsize.trans hsb.uint) ha
  rw [hd] at hgrow
  exact hgrow

end Xv6.Fs

import Xv6.Fs.Blocks

/-!
# Truncating a file

`itrunc` gives back every block of the inode: the direct ones, those the indirect block lists, and
the indirect block.
-/

namespace Xv6.Fs

open Hoare Function Volume Kernel Dinode

variable {sb : Superblock} {E : Halt → Prop} {s : Kernel} {ip : InodeId}

def Dinode.clear (d : Dinode) (k : ℕ) : Dinode := { d with addrs := update d.addrs k 0 }

def Dinode.trunc (d : Dinode) : Dinode :=
  { d with size := 0, addrs := fun k => if k ≤ NDIRECT then 0 else d.addrs k }

theorem inUse_slot {k : ℕ} (howns : (s.eff ip).Owns sb) (ht : (s.itable ip).d.type ≠ .free)
    (hk : k ≤ NDIRECT) : (s.eff ip).blockAt (.slot (s.itable ip).inum k) = (s.itable ip).d.addrs k ∧
      ((s.itable ip).d.addrs k ≠ 0 → s.vol.bit ((s.itable ip).d.addrs k) = true) := by
  have hd := eff_dinode_self s ip
  have hslot : (s.eff ip).blockAt (.slot (s.itable ip).inum k) = (s.itable ip).d.addrs k := by
    rw [blockAt_slot (by rw [hd]; exact ht) hk, hd]
  refine ⟨hslot, fun hne => ?_⟩
  rw [← hslot] at hne ⊢
  exact (howns.excl.mem hne).2.2

/-! ## The direct blocks -/

theorem Volume.Owns.clearSlot {v : Volume} {i k : ℕ} (h : v.Owns sb)
    (ht : (v.dinode i).type ≠ .free) (hk : k < NDIRECT) (hne : (v.dinode i).addrs k ≠ 0) :
    ((v.setAddr i k 0).free ((v.dinode i).addrs k)).Owns sb := by
  have hslot := blockAt_slot ht hk.le
  obtain ⟨hex, hmeta⟩ := release h.excl h.metadata (by rw [hslot]; exact hne)
  rw [← blockAt_setAddr ht hk] at hex
  rw [hslot] at hex hmeta
  exact ⟨hex, hmeta⟩

theorem itruncDirect_spec {k : ℕ} (hops : 1 ≤ s.log.outstanding) (howns : (s.eff ip).Owns sb)
    (ht : (s.itable ip).d.type ≠ .free) (hk : k < NDIRECT) :
    Wp (itruncDirect sb ip k) s (fun _ s' => (s'.eff ip).Owns sb ∧ s'.vol.data = s.vol.data ∧
      (s'.itable ip).d = (s.itable ip).d.clear k) E := by
  obtain ⟨hslot, huse⟩ := inUse_slot howns ht hk.le
  have hd := eff_dinode_self s ip
  refine Wp.get_seq ?_
  dsimp only
  split
  · next hzero =>
    refine ⟨howns, rfl, ?_⟩
    rw [clear, ← hzero, update_eq_self]
  next hne =>
  refine wp_bind.mpr (wp_bfree hops (huse hne) ⟨?_, rfl, by simp [clear]⟩)
  have hclear := howns.clearSlot (by rw [hd]; exact ht) hk (by rw [hd]; exact hne)
  rw [hd] at hclear
  convert hclear using 1
  simp [eff, setCopy, setInode, setAddr, free, setBit]

/-! ## The blocks of the indirect block -/

/-- The owners when the first `k` entries of the indirect block of `i` count no more. -/
def Volume.blockFrom (v : Volume) (i k : ℕ) : Place → ℕ
  | .slot j n => v.blockAt (.slot j n)
  | .entry j n => if j = i ∧ n < k then 0 else v.blockAt (.entry j n)

theorem Volume.blockFrom_zero (v : Volume) (i : ℕ) : v.blockFrom i 0 = v.blockAt := by
  funext P
  cases P <;> simp [blockFrom]

theorem Volume.blockFrom_succ (v : Volume) (i k : ℕ) :
    v.blockFrom i (k + 1) = update (v.blockFrom i k) (.entry i k) 0 := by
  funext P
  cases P with
  | slot j n => simp [blockFrom]
  | entry j n =>
    by_cases hj : j = i ∧ n = k
    · simp [blockFrom, hj]
    have hne : Place.entry j n ≠ .entry i k := by simpa using hj
    rw [update_of_ne hne]
    simp only [blockFrom]
    congr 1
    simp only [eq_iff_iff]
    omega

theorem Volume.blockFrom_all {v : Volume} {i : ℕ} (ht : (v.dinode i).type ≠ .free) :
    update (v.blockFrom i NINDIRECT) (.slot i NDIRECT) 0 = (v.setAddr i NDIRECT 0).blockAt := by
  funext P
  cases P with
  | slot j n =>
    by_cases hj : j = i
    · subst hj
      by_cases hn : n = NDIRECT
      · subst hn
        simp [blockAt, setAddr]
      · simp [blockFrom, blockAt, setAddr, hn]
    · simp [blockFrom, blockAt, setAddr, hj]
  | entry j n =>
    by_cases hj : j = i
    · subst hj
      by_cases hn : n < NINDIRECT
      · simp [blockFrom, blockAt, setAddr, hn]
      · simp [blockFrom, blockAt, setAddr, hn]
    · simp [blockFrom, blockAt, setAddr, hj]

/-- The first `k` blocks the indirect block lists were given back: `s'` has their bits cleared. -/
structure EntriesFreed (sb : Superblock) (s s' : Kernel) (ip : InodeId) (k : ℕ) : Prop where
  excl : Exclusive ((s.eff ip).blockFrom (s.itable ip).inum k) ((s'.eff ip).InUse sb)
  metadata : ∀ b < sb.datastart, s'.vol.bit b = true
  data : s'.vol.data = s.vol.data
  dinode : s'.vol.dinode = s.vol.dinode
  itable : s'.itable = s.itable
  outstanding : s'.log.outstanding = s.log.outstanding

theorem EntriesFreed.step {s' : Kernel} {k : ℕ} (h : EntriesFreed sb s s' ip k)
    (hops : 1 ≤ s.log.outstanding) (ht : (s.itable ip).d.type ≠ .free)
    (hind : (s.itable ip).d.addrs NDIRECT ≠ 0) (hk : k < NINDIRECT) :
    let b := (s.vol.data ((s.itable ip).d.addrs NDIRECT)).word k
    Wp (if b = 0 then pure () else bfree sb b) s' (fun _ s'' => EntriesFreed sb s s'' ip (k + 1))
      E := by
  intro b
  have hd := eff_dinode_self s ip
  have hentry : (s.eff ip).blockFrom (s.itable ip).inum k (.entry (s.itable ip).inum k) = b := by
    have hblock := blockAt_entry (v := s.eff ip) (by rw [hd]; exact ht) (by rw [hd]; exact hind) hk
    rw [hd] at hblock
    simp only [blockFrom, lt_self_iff_false, and_false, if_false]
    exact hblock
  split
  · next hzero =>
    refine ⟨?_, h.metadata, h.data, h.dinode, h.itable, h.outstanding⟩
    rw [blockFrom_succ, ← hzero, ← hentry, update_eq_self]
    exact h.excl
  next hne =>
  have huse := h.excl.mem (by rw [hentry]; exact hne)
  obtain ⟨hex, hmeta⟩ := release h.excl h.metadata (by rw [hentry]; exact hne)
  rw [hentry] at huse hex hmeta
  rw [← blockFrom_succ] at hex
  refine wp_bfree (by rw [h.outstanding]; exact hops) huse.2.2
    ⟨hex, hmeta, h.data, h.dinode, h.itable, h.outstanding⟩

theorem itruncIndirect_spec (hops : 1 ≤ s.log.outstanding) (howns : (s.eff ip).Owns sb)
    (ht : (s.itable ip).d.type ≠ .free) :
    Wp (itruncIndirect sb ip) s (fun _ s' => (s'.eff ip).Owns sb ∧ s'.vol.data = s.vol.data ∧
      (s'.itable ip).d = (s.itable ip).d.clear NDIRECT) E := by
  obtain ⟨hslot, huse⟩ := inUse_slot howns ht le_rfl
  have hd := eff_dinode_self s ip
  refine Wp.get_seq ?_
  dsimp only
  split
  · next hzero =>
    refine ⟨howns, rfl, ?_⟩
    rw [clear, ← hzero, update_eq_self]
  next hne =>
  have hstart : EntriesFreed sb s s ip 0 :=
    ⟨by rw [blockFrom_zero]; exact howns.excl, howns.metadata, rfl, rfl, rfl, rfl⟩
  refine (Wp.forM_range (I := fun k s' => EntriesFreed sb s s' ip k) hstart
    fun k hk s1 h1 => h1.step hops ht hne hk).seq fun _ s1 h1 => ?_
  -- The indirect block itself is still owned by its slot.
  have hblock : (s.eff ip).blockFrom (s.itable ip).inum NINDIRECT
      (.slot (s.itable ip).inum NDIRECT) = (s.itable ip).d.addrs NDIRECT := hslot
  have huse1 := h1.excl.mem (by rw [hblock]; exact hne)
  obtain ⟨hex, hmeta⟩ := release h1.excl h1.metadata (by rw [hblock]; exact hne)
  rw [hblock] at huse1 hex hmeta
  rw [blockFrom_all (by rw [hd]; exact ht)] at hex
  refine wp_bind.mpr (wp_bfree (by rw [h1.outstanding]; exact hops) huse1.2.2
    ⟨?_, h1.data, by simp [clear]⟩)
  have heff : ∀ l, (setCopy { s1.setBit ((s.itable ip).d.addrs NDIRECT) false with log := l }
      ip ((s.itable ip).d.clear NDIRECT)).eff ip =
      { (s.eff ip).setAddr (s.itable ip).inum NDIRECT 0 with
        bit := update s1.vol.bit ((s.itable ip).d.addrs NDIRECT) false } := by
    intro l
    simp [eff, setCopy, setInode, setAddr, setBit, h1.itable, h1.dinode, h1.data, clear]
  rw [clear] at heff
  rw [heff]
  exact ⟨hex, hmeta⟩

/-! ## The whole file -/

theorem Volume.fileBlock_of_ne {v w : Volume} {i j : ℕ} (hdata : w.data = v.data)
    (hdinode : ∀ j, j ≠ i → w.dinode j = v.dinode j) (hj : j ≠ i) (bn : ℕ) :
    w.fileBlock j bn = v.fileBlock j bn := by
  have hcongr := blockAt_congr (w := w) (hdinode j hj) fun _ => by rw [hdata]
  simp only [fileBlock, Place.ofBlock]
  split
  · exact (hcongr _).1
  · exact (hcongr _).2

theorem Volume.Owned.trunc {v w : Volume} {i : ℕ} (h : v.Owned sb) (howns : w.Owns sb)
    (hdata : w.data = v.data) (hdinode : w.dinode = update v.dinode i (v.dinode i).trunc) :
    w.Owned sb := by
  have hother : ∀ j, j ≠ i → w.dinode j = v.dinode j := fun j hj => by rw [hdinode, update_of_ne hj]
  refine ⟨howns, fun j bn ht hlt => ?_, fun j hj => ?_⟩
  · by_cases hji : j = i
    · subst hji
      rw [hdinode, update_self] at hlt
      exact absurd hlt (Nat.not_lt_zero _)
    · rw [fileBlock_of_ne hdata hother hji]
      rw [hother j hji] at ht hlt
      exact h.mapped j bn ht hlt
  by_cases hji : j = i
  · subst hji
    rw [hdinode, update_self]
    exact h.past j hj
  · rw [hother j hji]
    exact h.past j hj

/-- The first `k` direct blocks of the file were given back. -/
structure DirectFreed (sb : Superblock) (s s' : Kernel) (ip : InodeId) (k : ℕ) : Prop where
  owns : (s'.eff ip).Owns sb
  data : s'.vol.data = s.vol.data
  copy : (s'.itable ip).d =
    { (s.itable ip).d with addrs := fun j => if j < k then 0 else (s.itable ip).d.addrs j }
  others : s'.others ip = s.others ip

theorem DirectFreed.step {s' : Kernel} {k : ℕ} (h : DirectFreed sb s s' ip k)
    (hops : 1 ≤ s.log.outstanding) (ht : (s.itable ip).d.type ≠ .free) (hk : k < NDIRECT) :
    Wp (itruncDirect sb ip k) s' (fun _ s'' => DirectFreed sb s s'' ip (k + 1)) E := by
  have hops' : 1 ≤ s'.log.outstanding := by
    rw [outstanding_of_frame (frame_of_rest (congrArg Prod.fst h.others))]
    exact hops
  have ht' : (s'.itable ip).d.type ≠ .free := by
    rw [h.copy]
    exact ht
  refine ((itruncDirect_spec hops' h.owns ht' hk).and_returns
    ((blind_others ip).itruncDirect sb k s')).mono fun _ s1 h1 => ?_
  obtain ⟨⟨howns, hdata, hcopy⟩, hothers⟩ := h1
  refine ⟨howns, hdata.trans h.data, ?_, hothers.trans h.others⟩
  rw [hcopy, h.copy, clear]
  congr 1
  funext j
  by_cases hj : j = k
  · simp [hj]
  · have hiff : j < k ↔ j < k + 1 := by omega
    simp only [update_of_ne hj, hiff]

/-- **What `itrunc` does**: the inode keeps no block and has size 0, on disk too. -/
theorem itrunc_spec (hops : 1 ≤ s.log.outstanding) (howned : (s.eff ip).Owned sb)
    (ht : (s.itable ip).d.type ≠ .free) :
    Wp (itrunc sb ip) s (fun _ s' => s'.vol.Owned sb ∧ s'.vol.data = s.vol.data ∧
      s'.vol.dinode = update s.vol.dinode (s.itable ip).inum (s.itable ip).d.trunc ∧
      (s'.itable ip).d = (s.itable ip).d.trunc ∧ s'.rest ip = s.rest ip) E := by
  have hstart : DirectFreed sb s s ip 0 := ⟨howned.toOwns, rfl, by simp, rfl⟩
  refine (Wp.forM_range (I := fun k s' => DirectFreed sb s s' ip k) hstart
    fun k hk s1 h1 => h1.step hops ht hk).seq fun _ s1 h1 => ?_
  have hops1 : 1 ≤ s1.log.outstanding := by
    rw [outstanding_of_frame (frame_of_rest (congrArg Prod.fst h1.others))]
    exact hops
  refine ((itruncIndirect_spec hops1 h1.owns (by rw [h1.copy]; exact ht)).and_returns
    ((blind_others ip).itruncIndirect sb s1)).seq fun _ s2 h2 => ?_
  obtain ⟨⟨howns2, hdata2, hcopy2⟩, hothers2⟩ := h2
  have hothers : s2.others ip = s.others ip := hothers2.trans h1.others
  have hrest : s2.rest ip = s.rest ip := congrArg Prod.fst hothers
  have hinum := inum_of_frame (frame_of_rest hrest) ip
  have hdinode : s2.vol.dinode = s.vol.dinode := congrArg Prod.snd hothers
  have haddrs : update (fun j => if j < NDIRECT then 0 else (s.itable ip).d.addrs j)
      NDIRECT 0 = fun j => if j ≤ NDIRECT then 0 else (s.itable ip).d.addrs j := by
    funext j
    by_cases hj : j = NDIRECT
    · simp [hj]
    · have hiff : j < NDIRECT ↔ j ≤ NDIRECT := by omega
      simp only [update_of_ne hj, hiff]
  have htrunc : { (s2.itable ip).d with size := 0 } = (s.itable ip).d.trunc := by
    rw [hcopy2, h1.copy]
    exact congrArg (fun a => { (s.itable ip).d with size := 0, addrs := a }) haddrs
  refine Wp.modify_seq ?_
  rw [htrunc]
  refine wp_iupdate ?_ ?_
  · exact (outstanding_of_frame (frame_of_rest hrest)).symm ▸ hops
  have hvol : (s2.setCopy ip (s.itable ip).d.trunc).eff ip = { s2.vol with
      dinode := update s.vol.dinode (s.itable ip).inum (s.itable ip).d.trunc } := by
    rw [eff_setCopy, hinum, hdinode]
  rw [hvol]
  have hdata : s2.vol.data = s.vol.data := hdata2.trans h1.data
  refine ⟨howned.trunc (i := (s.itable ip).inum) (howns2.of_eq rfl rfl fun j => ?_) hdata ?_, hdata,
    rfl, setCopy_d .., (rest_setCopy ..).trans hrest⟩
  · by_cases hj : j = (s.itable ip).inum
    · subst hj
      simp [eff, hinum, ← htrunc]
    · simp [eff, hinum, hj, hdinode]
  · simp [eff]

end Xv6.Fs

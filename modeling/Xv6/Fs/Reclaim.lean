import Xv6.Fs.BalanceLaw
import Xv6.Fs.Trunc

/-!
# Reclaiming orphans

A crash can leave inodes on the disk that are allocated and have no links.

## Main results

* `orphans_reclaimed`: after `fsinit` no orphan is left, and nothing else has changed
-/

namespace Xv6.Fs

open Hoare Function Kernel Volume Dinode Wp Ledger

/-- Init fs. What `initlog` recovers is the disk the state starts with. -/
def fsinit (sb : Superblock) : FsM Unit :=
  if sb.magic ≠ FSMAGIC then throw (.panic "invalid file system") else ireclaim sb

def Place.inode : Place → ℕ
  | .slot i _ => i
  | .entry i _ => i

def Volume.Orphan (v : Volume) (i : ℕ) : Prop :=
  (v.dinode i).type ≠ .free ∧ (v.dinode i).nlink = 0

instance (v : Volume) (i : ℕ) : Decidable (v.Orphan i) :=
  inferInstanceAs (Decidable (_ ∧ _))

def Dinode.freed (d : Dinode) : Dinode := { d.trunc with type := .free }

@[simp] theorem Dinode.trunc_trunc (d : Dinode) : d.trunc.trunc = d.trunc := by
  have haddrs : (fun k => if k ≤ NDIRECT then 0 else d.trunc.addrs k) = d.trunc.addrs := by
    funext k
    simp +contextual [trunc]
  exact congrArg (fun a => { d.trunc with addrs := a }) haddrs

variable {sb : Superblock} {E : Halt → Prop} {s : Kernel} {ip : InodeId} {v w x : Volume}

/-! ## The disk -/

theorem Volume.Owned.freed {i : ℕ} (h : v.Owned sb) (hd : (v.dinode i).trunc = v.dinode i)
    (hw : w = { v with dinode := update v.dinode i (v.dinode i).freed }) :
    w.Owned sb := by
  have haddrs : ∀ k ≤ NDIRECT, (v.dinode i).addrs k = 0 := by
    intro k hk
    rw [← hd]
    exact if_pos hk
  have hblock : w.blockAt = v.blockAt := by
    subst hw
    funext P
    cases P with
    | slot j k =>
      by_cases hj : j = i
      · subst hj
        simp +contextual [blockAt, freed, haddrs]
      · simp [blockAt, hj]
    | entry j k =>
      by_cases hj : j = i
      · subst hj
        simp [blockAt, freed, haddrs]
      · simp [blockAt, hj]
  have hbit : w.bit = v.bit := by rw [hw]
  have htype : ∀ j, (w.dinode j).type ≠ .free → w.dinode j = v.dinode j := by
    subst hw
    intro j ht
    by_cases hj : j = i
    · subst hj
      simp [freed] at ht
    · simp [hj]
  refine ⟨⟨?_, by rw [hbit]; exact h.metadata⟩, fun j bn ht hlt => ?_, fun j hj => ?_⟩
  · rw [hblock]
    exact h.excl.congr fun b _ => by simp only [InUse, hbit]
  · rw [fileBlock, hblock]
    have hsame := htype j ht
    rw [hsame] at ht hlt
    exact h.mapped j bn ht hlt
  by_contra ht
  have hsame := htype j ht
  rw [hsame] at ht
  exact ht (h.past j hj)

theorem Volume.Owns.bit_eq (h : v.Owns sb) (h' : w.Owns sb) (hsb : sb.Ok) {b : ℕ} (hb : b < sb.size)
    (hheld : b ≠ 0 → ((∃ P, w.blockAt P = b) ↔ ∃ P, v.blockAt P = b)) : w.bit b = v.bit b := by
  by_cases hdata : b < sb.datastart
  · rw [h.metadata b hdata, h'.metadata b hdata]
  have hb0 : b ≠ 0 := by
    have := hsb.map
    omega
  have hiff : w.InUse sb b ↔ v.InUse sb b := by
    rw [h'.excl.held b hb0, h.excl.held b hb0]
    exact hheld hb0
  have hle : sb.datastart ≤ b := Nat.le_of_not_lt hdata
  simp only [InUse, hle, hb, true_and] at hiff
  exact Bool.eq_iff_iff.mpr hiff

/-- The inodes from 1 on and below `n` that had no links in `v` are free in `w`, and so are their
blocks. -/
structure Reclaimed (sb : Superblock) (v w : Volume) (n : ℕ) : Prop where
  owned : w.Owned sb
  data : w.data = v.data
  dinode : ∀ i, w.dinode i =
    if 1 ≤ i ∧ i < n ∧ v.Orphan i then (v.dinode i).freed else v.dinode i

namespace Reclaimed

variable {n : ℕ}

theorem start (h : v.Owned sb) : Reclaimed sb v v 1 := by
  refine ⟨h, rfl, fun i => (if_neg ?_).symm⟩
  omega

variable (h : Reclaimed sb v w n)

include h

theorem orphan_iff (i : ℕ) : w.Orphan i ↔ ¬ (1 ≤ i ∧ i < n) ∧ v.Orphan i := by
  rw [Orphan, h.dinode i]
  split
  · next hi => simp [freed, hi.1, hi.2.1]
  · next hi =>
    change v.Orphan i ↔ _
    tauto

theorem succ (hn : 1 ≤ n) (hx : x.Owned sb) (hdata : x.data = w.data)
    (hdinode : x.dinode = if w.Orphan n then update w.dinode n (w.dinode n).freed
      else w.dinode) : Reclaimed sb v x (n + 1) := by
  have horphan : w.Orphan n ↔ v.Orphan n := by
    rw [h.orphan_iff]
    exact and_iff_right (by omega)
  have hsame : w.dinode n = v.dinode n := by
    rw [h.dinode]
    exact if_neg (by omega)
  refine ⟨hx, hdata.trans h.data, fun i => ?_⟩
  by_cases hi : i = n
  · subst hi
    by_cases ho : v.Orphan i
    · simp [hdinode, horphan, ho, hsame, hn]
    · simp [hdinode, horphan, ho, hsame]
  have hlt : i < n + 1 ↔ i < n := by omega
  have hother : x.dinode i = w.dinode i := by
    rw [hdinode]
    split
    · exact update_of_ne hi ..
    · rfl
  simp only [hother, h.dinode i, hlt]

omit h

theorem trans {k : ℕ} (h : Reclaimed sb v w k) (h' : Reclaimed sb w x n) (hk : k ≤ n) :
    Reclaimed sb v x n := by
  refine ⟨h'.owned, h'.data.trans h.data, fun i => ?_⟩
  rw [h'.dinode i]
  by_cases hi : 1 ≤ i ∧ i < k ∧ v.Orphan i
  · have hgone : ¬ w.Orphan i := fun ho => ((h.orphan_iff i).mp ho).1 ⟨hi.1, hi.2.1⟩
    rw [if_neg (fun hc => hgone hc.2.2), h.dinode i, if_pos hi, if_pos ⟨hi.1, by omega, hi.2.2⟩]
  · have hsame : w.dinode i = v.dinode i := by rw [h.dinode i, if_neg hi]
    have horphan : w.Orphan i ↔ v.Orphan i := by rw [Orphan, hsame, Orphan]
    simp only [hsame, horphan]

include h

theorem blockAt (P : Place) : w.blockAt P =
    if 1 ≤ P.inode ∧ P.inode < n ∧ v.Orphan P.inode then 0 else v.blockAt P := by
  have hdinode := h.dinode P.inode
  split
  · next hP =>
    rw [if_pos hP] at hdinode
    have hfree : (w.dinode P.inode).type = .free := by rw [hdinode, freed]
    cases P with
    | slot i k => exact (blockAt_of_free hfree k).1
    | entry i k => exact (blockAt_of_free hfree k).2
  next hP =>
  rw [if_neg hP] at hdinode
  cases P with
  | slot i k => exact (blockAt_congr hdinode (fun _ => by rw [h.data]) k).1
  | entry i k => exact (blockAt_congr hdinode (fun _ => by rw [h.data]) k).2

theorem bit_eq_false (hv : v.Owned sb) {P : Place}
    (hP : 1 ≤ P.inode ∧ P.inode < n ∧ v.Orphan P.inode) (hne : v.blockAt P ≠ 0) :
    w.bit (v.blockAt P) = false := by
  obtain ⟨hstart, hsize, -⟩ := hv.excl.mem hne
  by_contra hbit
  have huse : w.InUse sb (v.blockAt P) := ⟨hstart, hsize, by simpa using hbit⟩
  -- Whoever owns the block now owned it before, and the orphan was its only owner.
  obtain ⟨Q, hQ⟩ := (h.owned.excl.held _ hne).mp huse
  have hblock := h.blockAt Q
  by_cases hcond : 1 ≤ Q.inode ∧ Q.inode < n ∧ v.Orphan Q.inode
  · rw [if_pos hcond, hQ] at hblock
    exact hne hblock
  · rw [if_neg hcond, hQ] at hblock
    exact hcond (hv.excl.unique P Q hne hblock ▸ hP)

theorem bit_eq (hsb : sb.Ok) (hv : v.Owned sb) {b : ℕ} (hb : b < sb.size)
    (hother : ∀ P : Place, 1 ≤ P.inode ∧ P.inode < n ∧ v.Orphan P.inode → v.blockAt P ≠ b) :
    w.bit b = v.bit b := by
  refine hv.toOwns.bit_eq h.owned.toOwns hsb hb fun hb0 => exists_congr fun P => ?_
  rw [h.blockAt P]
  split
  · next hP => exact iff_of_false hb0.symm (hother P hP)
  · rfl

theorem unique (h' : Reclaimed sb v x n) (hsb : sb.Ok) :
    x.dinode = w.dinode ∧ x.data = w.data ∧ ∀ b < sb.size, x.bit b = w.bit b := by
  refine ⟨funext fun i => (h'.dinode i).trans (h.dinode i).symm, h'.data.trans h.data.symm, ?_⟩
  have hblock : x.blockAt = w.blockAt := funext fun P => (h'.blockAt P).trans (h.blockAt P).symm
  intro b hb
  exact h.owned.toOwns.bit_eq h'.owned.toOwns hsb hb fun _ => by rw [hblock]

end Reclaimed

/-! ## Freeing an inode -/

theorem eff_eq_vol (h : (s.itable ip).d = s.vol.dinode (s.itable ip).inum) : s.eff ip = s.vol := by
  rw [eff, h, update_eq_self]

/-- **What `iput` does to an inode without links** when the reference is the last one: the inode and
its blocks are free. -/
theorem iputFree_spec (hops : 1 ≤ s.log.outstanding) (howned : (s.eff ip).Owned sb)
    (ht : (s.itable ip).d.type ≠ .free) (hlocked : (s.itable ip).locked = false) :
    Wp (iputFree sb ip) s (fun _ s' => s'.vol.Owned sb ∧ s'.vol.data = s.vol.data ∧
      s'.vol.dinode = update s.vol.dinode (s.itable ip).inum (s.itable ip).d.freed ∧
      ∀ jp, (s'.itable jp).inum = (s.itable jp).inum) E := by
  refine get_seq ?_
  rw [if_neg (by simp [hlocked])]
  refine modify_seq ?_
  set s1 := s.setLocked ip true with hs1
  have hentry : s1.itable ip = { s.itable ip with locked := true } := by
    simp [hs1, setLocked, setInode]
  have hd : (s1.itable ip).d = (s.itable ip).d := by rw [hentry]
  have hinum1 : ∀ jp, (s1.itable jp).inum = (s.itable jp).inum := by
    intro jp
    by_cases hj : jp = ip
    · subst hj
      rw [hentry]
    · simp [hs1, setLocked, setInode, hj]
  have heff : s1.eff ip = s.eff ip := by
    simp only [eff, hd, hinum1]
    rfl
  have howned1 : (s1.eff ip).Owned sb := heff ▸ howned
  have ht1 : (s1.itable ip).d.type ≠ .free := hd ▸ ht
  refine (itrunc_spec (s := s1) hops howned1 ht1).seq fun _ s2 h2 => ?_
  obtain ⟨howned2, hdata2, hdinode2, hcopy2, hrest2⟩ := h2
  rw [hd, hinum1] at hdinode2
  rw [hd] at hcopy2
  have hframe2 := frame_of_rest hrest2
  have hops2 : 1 ≤ s2.log.outstanding := by
    rw [outstanding_of_frame hframe2]
    exact hops
  have hinum2 : ∀ jp, (s2.itable jp).inum = (s.itable jp).inum := fun jp =>
    (inum_of_frame hframe2 jp).trans (hinum1 jp)
  refine modify_seq ?_
  rw [hcopy2]
  change Wp (iupdate sb ip >>= _) (s2.setCopy ip (s.itable ip).d.freed) _ _
  refine wp_bind.mpr (wp_iupdate hops2 ?_)
  rw [wp_modify]
  have hvol : (s2.setCopy ip (s.itable ip).d.freed).eff ip = { s2.vol with
      dinode := update s2.vol.dinode (s.itable ip).inum (s.itable ip).d.freed } := by
    rw [eff_setCopy, hinum2]
  simp only [hvol]
  have hself : s2.vol.dinode (s.itable ip).inum = (s.itable ip).d.trunc := by
    rw [hdinode2, update_self]
  refine ⟨?_, hdata2, ?_, fun jp => ?_⟩
  · refine howned2.freed (i := (s.itable ip).inum) ?_ ?_
    · rw [hself, trunc_trunc]
    · simp only [hself, freed, trunc_trunc, setInode]
  · rw [hdinode2, update_idem]
    rfl
  rw [← hinum2 jp]
  by_cases hj : jp = ip
  · subst hj
    simp [setInode, setCopy]
  · simp [setInode, setCopy, hj]

theorem iput_last_spec (hops : 1 ≤ s.log.outstanding) (howned : s.vol.Owned sb)
    (hcopy : (s.itable ip).d = s.vol.dinode (s.itable ip).inum)
    (horphan : s.vol.Orphan (s.itable ip).inum) (hlocked : (s.itable ip).locked = false)
    (href : (s.itable ip).ref = 1) (hvalid : (s.itable ip).valid = true) :
    Wp (iput sb ip) s (fun _ s' => s'.vol.Owned sb ∧ s'.vol.data = s.vol.data ∧
      s'.vol.dinode = update s.vol.dinode (s.itable ip).inum
        (s.vol.dinode (s.itable ip).inum).freed ∧
      ∀ jp, (s'.itable jp).inum = (s.itable jp).inum) E := by
  have hlast : (s.itable ip).ref = 1 ∧ (s.itable ip).valid = true ∧ (s.itable ip).d.nlink = 0 :=
    ⟨href, hvalid, hcopy ▸ horphan.2⟩
  refine Wp.seq (x := iputLast sb ip) (R := fun _ s' => s'.vol.Owned sb ∧
    s'.vol.data = s.vol.data ∧ s'.vol.dinode = update s.vol.dinode (s.itable ip).inum
      (s.vol.dinode (s.itable ip).inum).freed ∧
    ∀ jp, (s'.itable jp).inum = (s.itable jp).inum) ?_ fun _ s1 h1 => ?_
  · refine Wp.get_seq ?_
    dsimp only
    rw [if_pos hlast, ← hcopy]
    exact iputFree_spec hops ((eff_eq_vol hcopy).symm ▸ howned) (hcopy ▸ horphan.1) hlocked
  obtain ⟨howned1, hdata1, hdinode1, hinum1⟩ := h1
  refine ⟨howned1, hdata1, hdinode1, fun jp => ?_⟩
  rw [← hinum1 jp]
  by_cases hj : jp = ip
  · subst hj
    simp [Kernel.addRef, Kernel.setInode]
  · simp [Kernel.addRef, Kernel.setInode, hj]

/-! ## The loop -/

/-- The inode table while the file system starts: the root directory is the only inode in it. -/
structure Starting (s : Kernel) : Prop where
  unlocked : ∀ ip, (s.itable ip).locked = false
  root : ∀ ip, 0 < (s.itable ip).ref → (s.itable ip).inum = ROOTINO
  room : ∃ ip, (s.itable ip).ref = 0
  ops : 0 ≤ s.log.outstanding

theorem Starting.boot (v : Volume) : Starting (.boot v) where
  unlocked _ := rfl
  root ip hip := by
    by_cases h0 : ip = 0
    · simp [Kernel.boot, h0]
    · simp [Kernel.boot, h0] at hip
  room := ⟨1, rfl⟩
  ops := le_rfl

theorem Starting.of_ledger {s' : Kernel} (h : Starting s) (hledger : s'.ledger = s.ledger)
    (hinum : ∀ jp, 0 < (s.itable jp).ref → (s'.itable jp).inum = (s.itable jp).inum) :
    Starting s' := by
  have href : ∀ jp, (s'.itable jp).ref = (s.itable jp).ref := congrFun (congrArg ref hledger)
  have hlocked : ∀ jp, (s'.itable jp).locked = (s.itable jp).locked :=
    congrFun (congrArg locked hledger)
  refine ⟨fun jp => (hlocked jp).trans (h.unlocked jp), fun jp hpos => ?_, ?_, ?_⟩
  · rw [href] at hpos
    exact (hinum jp hpos).trans (h.root jp hpos)
  · obtain ⟨jp, hjp⟩ := h.room
    exact ⟨jp, (href jp).trans hjp⟩
  · have hops : s'.log.outstanding = s.log.outstanding := congrArg outstanding hledger
    rw [hops]
    exact h.ops

theorem iget_spec {inum : ℕ} (h : Starting s) (hinum : inum ≠ ROOTINO) :
    Wp (iget inum) s (fun ip s' => (s.itable ip).ref = 0 ∧
      s' = s.setInode ip { s.itable ip with inum := inum, ref := 1, valid := false }) E := by
  have hnone : (List.finRange NINODE).find?
      (fun ip => decide ((s.itable ip).ref > 0 ∧ (s.itable ip).inum = inum)) = none := by
    rw [List.find?_eq_none]
    intro ip _ hip
    obtain ⟨hpos, heq⟩ := of_decide_eq_true hip
    exact hinum (heq.symm.trans (h.root ip hpos))
  refine get_seq ?_
  rw [hnone]
  split
  · next hcon => cases hcon
  split
  · next ip hfind =>
    have href : (s.itable ip).ref = 0 := by simpa using List.find?_some hfind
    exact ⟨href, rfl⟩
  next hfind =>
  obtain ⟨ip, hip⟩ := h.room
  rw [List.find?_eq_none] at hfind
  exact absurd (decide_eq_true hip) (hfind ip (List.mem_finRange ip))

theorem wp_ilock_read {Q : Unit → Kernel → Prop} (href : ¬ (s.itable ip).ref < 1)
    (hlocked : (s.itable ip).locked = false) (hvalid : (s.itable ip).valid = false)
    (hinum : (s.itable ip).inum < sb.ninodes)
    (ht : (s.vol.dinode (s.itable ip).inum).type ≠ .free)
    (h : Q () (s.setInode ip { s.itable ip with
      locked := true, valid := true, d := s.vol.dinode (s.itable ip).inum })) :
    Wp (ilock sb ip) s Q E := by
  refine get_seq ?_
  dsimp only
  rw [if_neg href, if_neg (by simp [hlocked]), if_neg (by simp [hvalid]),
    if_neg (Nat.not_le.mpr hinum), if_neg ht]
  exact h

theorem wp_iunlock {Q : Unit → Kernel → Prop} (hlocked : (s.itable ip).locked = true)
    (href : ¬ (s.itable ip).ref < 1) (h : Q () (s.setLocked ip false)) : Wp (iunlock ip) s Q E := by
  refine get_seq ?_
  rw [if_neg (by simp [hlocked, href])]
  exact h

theorem ledger_ireclaimInode (inum : ℕ) :
    Returns (ireclaimInode sb inum) s fun _ s' => s'.ledger = s.ledger := by
  refine get_seq ?_
  split
  · refine (ledger_iget s inum).seq fun ip s1 h1 => ?_
    refine (ledger_beginOp s1).seq fun _ s2 h2 => ?_
    refine (ledger_ilock s2 ip sb).seq fun _ s3 ⟨hfree, h3⟩ => ?_
    refine (ledger_iunlock s3 ip).seq fun _ s4 h4 => ?_
    refine (ledger_iput s4 ip sb).seq fun _ s5 h5 => ?_
    refine (ledger_endOp s5).mono fun _ s6 h6 => ?_
    rw [h2, h1] at hfree
    rw [h6, h5, h4, h3, h2, h1]
    simp only [addOps_locked, addRef_locked] at hfree
    simp [setLock_self _ _ hfree]
  · rfl

theorem ireclaimInode_spec {inum : ℕ} (h : Starting s) (howned : s.vol.Owned sb)
    (hroot : (s.vol.dinode ROOTINO).nlink ≠ 0) :
    Wp (ireclaimInode sb inum) s (fun _ s' => Starting s' ∧ s'.vol.Owned sb ∧
      s'.vol.data = s.vol.data ∧ s'.vol.dinode = if s.vol.Orphan inum then
        update s.vol.dinode inum (s.vol.dinode inum).freed else s.vol.dinode) E := by
  suffices hvol : Wp (ireclaimInode sb inum) s (fun _ s' => s'.vol.Owned sb ∧
      s'.vol.data = s.vol.data ∧ (s'.vol.dinode = if s.vol.Orphan inum then
        update s.vol.dinode inum (s.vol.dinode inum).freed else s.vol.dinode) ∧
      ∀ jp, 0 < (s.itable jp).ref → (s'.itable jp).inum = (s.itable jp).inum) E by
    refine (hvol.and_returns (ledger_ireclaimInode inum)).mono fun _ s' h' => ?_
    obtain ⟨⟨howned', hdata, hdinode, hinum⟩, hledger⟩ := h'
    exact ⟨h.of_ledger hledger hinum, howned', hdata, hdinode⟩
  refine get_seq ?_
  by_cases horphan : s.vol.Orphan inum
  · have hne : inum ≠ ROOTINO := fun he => hroot (he ▸ horphan.2)
    have hlt : inum < sb.ninodes := by
      by_contra hle
      exact horphan.1 (howned.past inum (Nat.le_of_not_lt hle))
    have hcond : (s.vol.dinode inum).type ≠ .free ∧ (s.vol.dinode inum).nlink = 0 := horphan
    rw [if_pos hcond, if_pos horphan]
    refine (iget_spec h hne).seq fun ip s1 h1 => ?_
    obtain ⟨href, rfl⟩ := h1
    have hself : ∀ (s : Kernel) (i : Inode), (s.setInode ip i).itable ip = i :=
      fun s i => update_self ..
    refine modify_seq (wp_bind.mpr (wp_ilock_read ?_ ?_ ?_ ?_ ?_ ?_))
    all_goals simp only [hself]
    · decide
    · exact h.unlocked ip
    · exact hlt
    · exact horphan.1
    refine wp_bind.mpr (wp_iunlock (by rw [hself]) (by rw [hself]; simp) ?_)
    rw [setLocked, hself]
    set s4 := setInode _ ip _ with hs4
    have hentry : s4.itable ip = ⟨inum, 1, false, true, s.vol.dinode inum⟩ := hself ..
    have hother : ∀ jp, jp ≠ ip → s4.itable jp = s.itable jp := by
      intro jp hj
      simp [hs4, setInode, hj]
    have hops : 1 ≤ s4.log.outstanding := by
      have := h.ops
      change 1 ≤ s.log.outstanding + 1
      omega
    have horphan4 : s4.vol.Orphan (s4.itable ip).inum := by
      rw [hentry]
      exact horphan
    refine (iput_last_spec hops howned (by rw [hentry]; rfl) horphan4 (by rw [hentry])
      (by rw [hentry]) (by rw [hentry])).seq fun _ s5 h5 => ?_
    obtain ⟨howned5, hdata5, hdinode5, hinum5⟩ := h5
    rw [hentry] at hdinode5
    refine ⟨howned5, hdata5, hdinode5, fun jp hpos => ?_⟩
    have hj : jp ≠ ip := by
      intro hj
      rw [hj, href] at hpos
      exact lt_irrefl _ hpos
    exact (hinum5 jp).trans (congrArg Inode.inum (hother jp hj))
  · have hcond : ¬ ((s.vol.dinode inum).type ≠ .free ∧ (s.vol.dinode inum).nlink = 0) := horphan
    rw [if_neg hcond, if_neg horphan]
    exact ⟨howned, rfl, rfl, fun _ _ => rfl⟩

theorem reclaimed_rounds (k : ℕ) (h : Starting s) (howned : s.vol.Owned sb)
    (hroot : (s.vol.dinode ROOTINO).nlink ≠ 0) : Wp ((List.range' 1 k).forM (ireclaimInode sb)) s
      (fun _ s' => Starting s' ∧ Reclaimed sb s.vol s'.vol (1 + k)) E := by
  refine forM_range' (I := fun n s' => Starting s' ∧ Reclaimed sb s.vol s'.vol n)
    ⟨h, .start howned⟩ fun n hn _ s1 h1 => ?_
  obtain ⟨hstart, hrec⟩ := h1
  have hroot1 : (s1.vol.dinode ROOTINO).nlink ≠ 0 := by
    rw [hrec.dinode, if_neg (fun hc => hroot hc.2.2.2)]
    exact hroot
  refine (ireclaimInode_spec hstart hrec.owned hroot1).mono fun _ s2 h2 => ?_
  obtain ⟨hstart2, howned2, hdata2, hdinode2⟩ := h2
  exact ⟨hstart2, hrec.succ hn howned2 hdata2 hdinode2⟩

theorem ireclaim_of_none (h : ∀ i, 1 ≤ i → i < sb.ninodes → ¬ s.vol.Orphan i) :
    ireclaim sb s = .ok ((), s) := by
  have hrun : Wp (ireclaim sb) s (fun _ s' => s' = s) fun _ => False := by
    refine forM_range' (I := fun _ s' => s' = s) rfl fun i hi hlt s' hs' => ?_
    subst hs'
    refine get_seq ?_
    have hcond : ¬ ((s'.vol.dinode i).type ≠ .free ∧ (s'.vol.dinode i).nlink = 0) :=
      h i hi (by omega)
    rw [if_neg hcond]
    rfl
  obtain ⟨_, s', hok, rfl⟩ := hrun.exists_ok
  exact hok

theorem fsinit_spec (hmagic : sb.magic = FSMAGIC) (hroot : ROOTINO < sb.ninodes)
    (howned : v.Owned sb) (hlinks : (v.dinode ROOTINO).nlink ≠ 0) :
    ∃ s, fsinit sb (.boot v) = .ok ((), s) ∧ Reclaimed sb v s.vol sb.ninodes := by
  have hrun := reclaimed_rounds (E := fun _ => False) (sb.ninodes - 1) (Starting.boot v) howned hlinks
  obtain ⟨_, s, hok, -, hrec⟩ := hrun.exists_ok
  have hcount : 1 + (sb.ninodes - 1) = sb.ninodes := by omega
  rw [hcount] at hrec
  refine ⟨s, ?_, hrec⟩
  rw [fsinit, if_neg (not_not.mpr hmagic)]
  exact hok

/-- **Orphans are reclaimed.** -/
theorem orphans_reclaimed (hsb : sb.Ok) (hmagic : sb.magic = FSMAGIC) (howned : v.Owned sb)
    (hlinks : (v.dinode ROOTINO).nlink ≠ 0) :
    ∃ s, fsinit sb (.boot v) = .ok ((), s) ∧
      (∀ i, 1 ≤ i → i < sb.ninodes → ¬ s.vol.Orphan i) ∧
      (∀ P : Place, 1 ≤ P.inode ∧ P.inode < sb.ninodes ∧ v.Orphan P.inode →
        v.blockAt P ≠ 0 → s.vol.bit (v.blockAt P) = false) ∧
      (∀ i, ¬ (1 ≤ i ∧ i < sb.ninodes ∧ v.Orphan i) → s.vol.dinode i = v.dinode i) ∧
      (∀ b < sb.size, (∀ P : Place, 1 ≤ P.inode ∧ P.inode < sb.ninodes ∧ v.Orphan P.inode →
        v.blockAt P ≠ b) → s.vol.bit b = v.bit b) ∧
      s.vol.data = v.data ∧
      ireclaim sb s = .ok ((), s) ∧
      ∀ k < sb.ninodes, ∃ c t,
        (List.range' 1 k).forM (ireclaimInode sb) (.boot v) = .ok ((), c) ∧
        fsinit sb (.boot c.vol) = .ok ((), t) ∧
        t.vol.dinode = s.vol.dinode ∧ t.vol.data = s.vol.data ∧
        ∀ b < sb.size, t.vol.bit b = s.vol.bit b := by
  obtain ⟨s, hok, hrec⟩ := fsinit_spec hmagic hsb.root howned hlinks
  have hnone : ∀ i, 1 ≤ i → i < sb.ninodes → ¬ s.vol.Orphan i :=
    fun i hi hlt ho => ((hrec.orphan_iff i).mp ho).1 ⟨hi, hlt⟩
  refine ⟨s, hok, hnone, fun P hP hne => hrec.bit_eq_false howned hP hne,
    fun i hi => (hrec.dinode i).trans (if_neg hi),
    fun b hb hother => hrec.bit_eq hsb howned hb hother, hrec.data, ireclaim_of_none hnone,
    fun k hk => ?_⟩
  -- The disk at the crash is a disk from which the same orphans are to be reclaimed.
  obtain ⟨_, c, hc, -, hcrash⟩ :=
    (reclaimed_rounds (E := fun _ => False) k (Starting.boot v) howned hlinks).exists_ok
  have hlinks' : (c.vol.dinode ROOTINO).nlink ≠ 0 := by
    rw [hcrash.dinode, if_neg (fun hc => hlinks hc.2.2.2)]
    exact hlinks
  obtain ⟨t, ht, hrest⟩ := fsinit_spec hmagic hsb.root hcrash.owned hlinks'
  exact ⟨c, t, hc, ht, hrec.unique (hcrash.trans hrest (by omega)) hsb⟩

/-- A disk of 20 blocks with 8 inodes; the data blocks start at block 10. -/
def Superblock.small : Superblock := ⟨FSMAGIC, 20, 10, 8, 3, 2, 5, 6⟩

theorem Superblock.small_ok : Superblock.small.Ok :=
  ⟨by decide, by decide, by decide, by decide, by decide, by decide, by decide, by decide,
    by decide⟩

def Volume.withOrphan : Volume where
  dinode i := if i = ROOTINO then ⟨.dir, 0, 0, 1, 0, fun _ => 0⟩
    else if i = 2 then ⟨.file, 0, 0, 0, 5, fun k => if k = 0 then 10 else 0⟩ else Dinode.zero
  bit b := decide (b ≤ 10)
  data _ := Block.zero

attribute [local simp] withOrphan

theorem Volume.blockAt_withOrphan : withOrphan.blockAt = update (fun _ => 0) (.slot 2 0) 10 := by
  funext P
  rcases P with ⟨i, k⟩ | ⟨i, j⟩
  · by_cases h1 : i = ROOTINO
    · subst h1
      simp [blockAt, ROOTINO]
    by_cases h2 : i = 2
    · subst h2
      by_cases hk : k = 0
      · simp [blockAt, hk, ROOTINO]
      · simp [blockAt, hk, ROOTINO]
    · simp [blockAt, h1, h2, zero]
  by_cases h1 : i = ROOTINO
  · simp [blockAt, h1]
  · by_cases h2 : i = 2
    · simp [blockAt, h2, ROOTINO, NDIRECT]
    · simp [blockAt, h1, h2, zero]

theorem exclusive_empty : Exclusive (fun _ : Place => 0) fun _ => False := by
  refine ⟨fun _ _ h => absurd rfl h, fun b hb => ⟨False.elim, ?_⟩⟩
  rintro ⟨_, h⟩
  exact hb h.symm

theorem Volume.owned_withOrphan : withOrphan.Owned .small := by
  refine ⟨⟨?_, fun b hb => ?_⟩, fun i bn ht hlt => ?_, fun i hi => ?_⟩
  · rw [blockAt_withOrphan]
    refine exclusive_empty.take rfl (by decide) id fun b _ => ?_
    have hstart : Superblock.small.datastart = 10 := rfl
    have hsize : Superblock.small.size = 20 := rfl
    simp only [InUse, withOrphan, hstart, hsize, decide_eq_true_eq, or_false]
    omega
  · have hstart : Superblock.small.datastart = 10 := rfl
    simp only [withOrphan, decide_eq_true_eq]
    omega
  · rw [fileBlock, blockAt_withOrphan]
    by_cases h1 : i = ROOTINO
    · simp [h1] at hlt
    by_cases h2 : i = 2
    · have hbn : bn = 0 := by
        simp only [withOrphan, h2, ROOTINO, BSIZE] at hlt
        norm_num at hlt
        omega
      simp [hbn, h2, Place.ofBlock, NDIRECT]
    · simp [h1, h2, zero] at ht
  have hle : 8 ≤ i := hi
  have h1 : i ≠ ROOTINO := by
    unfold ROOTINO
    omega
  have h2 : i ≠ 2 := by omega
  simp [h1, h2, zero]

/-- The file without links and its block are free after `fsinit`. -/
theorem orphans_reclaimed_file : ∃ s, fsinit .small (.boot .withOrphan) = .ok ((), s) ∧
    Volume.withOrphan.Orphan 2 ∧ ¬ s.vol.Orphan 2 ∧ s.vol.bit 10 = false := by
  have horphan : Volume.withOrphan.Orphan 2 := by decide
  obtain ⟨s, hok, hnone, hblocks, -⟩ := orphans_reclaimed Superblock.small_ok rfl
    Volume.owned_withOrphan (by decide)
  have hblock : Volume.withOrphan.blockAt (.slot 2 0) = 10 := by
    rw [Volume.blockAt_withOrphan, update_self]
  have hfree := hblocks (.slot 2 0) ⟨by decide, by decide, horphan⟩ (by rw [hblock]; decide)
  rw [hblock] at hfree
  exact ⟨s, hok, horphan, hnone 2 (by decide) (by decide), hfree⟩

end Xv6.Fs

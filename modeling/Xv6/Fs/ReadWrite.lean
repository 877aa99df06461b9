import Xv6.Fs.Confined

/-!
# Reading and writing files

`readi` and `writei` against the content of a file as a list of bytes.
-/

namespace Xv6.Fs

open Hoare Function Volume

variable {sb : Superblock} {E : Halt → Prop} {s s' : Kernel} {ip : InodeId}

/-- Entry `ip` holds a copy of an allocated inode of a well-formed disk. -/
structure Loaded (sb : Superblock) (s : Kernel) (ip : InodeId) : Prop where
  owned : (s.eff ip).Owned sb
  type : (s.itable ip).d.type ≠ .free

structure Ready (sb : Superblock) (s : Kernel) (ip : InodeId) : Prop extends Loaded sb s ip where
  ops : 1 ≤ s.log.outstanding

theorem Ready.of_inodes (h : Ready sb s ip) (hframe : s'.frame = s.frame)
    (howned : (s'.eff ip).Owned sb)
    (hinodes : SameInodes (s.eff ip) (s'.eff ip) (s.itable ip).inum) :
    Ready sb s' ip ∧ (s'.itable ip).d.size = (s.itable ip).d.size := by
  have hinum := inum_of_frame hframe ip
  have hsame := hinodes.type (s.itable ip).inum
  rw [eff_dinode_self, ← hinum, eff_dinode_self] at hsame
  refine ⟨⟨⟨howned, ?_⟩, ?_⟩, hsame.2⟩
  · rw [hsame.1]
    exact h.type
  · rw [outstanding_of_frame hframe]
    exact h.ops

theorem Volume.Owned.size_le {v : Volume} (h : v.Owned sb) {i : ℕ}
    (ht : (v.dinode i).type ≠ .free) : (v.dinode i).size ≤ MAXFILE * BSIZE := by
  by_contra hlt
  refine h.mapped i MAXFILE ht (by omega) ?_
  simp [fileBlock, Place.ofBlock, MAXFILE, blockAt]

/-! ## The source -/

theorem Src.length_copyin_le (src : Src) (tot m : ℕ) : (src.copyin tot m).length ≤ m := by
  induction m generalizing tot with
  | zero => exact le_rfl
  | succ m ih =>
    rw [Src.copyin]
    split
    · simpa using ih (tot + 1)
    · simp

theorem Src.copyin_read (src : Src) (tot m : ℕ) {k : ℕ} (hk : k < (src.copyin tot m).length) :
    src (tot + k) = some ((src.copyin tot m).getD k 0) := by
  induction m generalizing tot k with
  | zero => simp [Src.copyin] at hk
  | succ m ih =>
    rw [Src.copyin] at hk ⊢
    cases hb : src tot with
    | none => simp [hb] at hk
    | some b =>
      simp only [hb] at hk ⊢
      cases k with
      | zero => simpa using hb
      | succ k =>
        have h := ih (tot + 1) (k := k) (by simpa using hk)
        rw [← Nat.add_assoc, Nat.add_right_comm, h]
        rfl

theorem Src.copyin_stop (src : Src) (tot m : ℕ) (h : (src.copyin tot m).length < m) :
    src (tot + (src.copyin tot m).length) = none := by
  induction m generalizing tot with
  | zero => omega
  | succ m ih =>
    rw [Src.copyin] at h ⊢
    cases hb : src tot with
    | none => simpa using hb
    | some b =>
      simp only [hb, List.length_cons] at h ⊢
      have h' := ih (tot + 1) (by omega)
      rwa [Nat.add_assoc, Nat.add_comm 1] at h'

/-! ## The loop of `writei` -/

/-- How far the loop got from `tot` and offset `off` of inode `i` on: `len` bytes are counted, and
`part` more were copied into the block of a copy that failed. -/
structure Copied (sb : Superblock) (v : Volume) (i : ℕ) (src : Src) (n tot off : ℕ) (s' : Kernel)
    (len part : ℕ) : Prop where
  le : tot + len + part ≤ n
  stop : tot + len < n →
    part = 0 ∧ s'.Full sb ∧ v.fileBlock i ((off + len) / BSIZE) = 0 ∨
      tot + len + part < n ∧ src (tot + len + part) = none
  start : tot + len < n → len = 0 ∨ (off + len) % BSIZE = 0
  read : ∀ j < len + part, src (tot + j) ≠ none
  block : (off + len) % BSIZE + part < BSIZE

/-- Byte `j` of the source, counted from `tot` on. -/
def Src.from (src : Src) (tot j : ℕ) : UInt8 := (src (tot + j)).getD 0

theorem writeiLoop_spec (hsb : sb.Ok) {src : Src} {n : ℕ} (k tot off : ℕ) (h : Ready sb s ip)
    (htot : tot ≤ n) (hmax : off + (n - tot) ≤ MAXFILE * BSIZE) (hk : n - tot ≤ k) :
    Wp (writeiLoop sb ip src n k tot off) s (fun r s' => ∃ len part,
      r = (tot + len, off + len) ∧
      Copied sb (s.eff ip) (s.itable ip).inum src n tot off s' len part ∧
      Written sb (s.eff ip) (s'.eff ip) (s.itable ip).inum off (len + part) (src.from tot) ∧
      (s.eff ip).Confined (s'.eff ip) (s.itable ip).inum) E := by
  induction k generalizing tot off s with
  | zero =>
    refine ⟨0, 0, rfl, ⟨by omega, by omega, by omega, by omega, Nat.mod_lt _ (by decide)⟩,
      .refl h.owned off _, .refl _ _⟩
  | succ k ih =>
    rw [writeiLoop]
    split
    case isFalse hge =>
      refine ⟨0, 0, rfl, ⟨by omega, by omega, by omega, by omega, Nat.mod_lt _ (by decide)⟩,
      .refl h.owned off _, .refl _ _⟩
    case isTrue hlt =>
    have hB : 0 < BSIZE := by decide
    have hbn : off / BSIZE < MAXFILE := by
      rw [Nat.div_lt_iff_lt_mul hB]
      omega
    refine ((bmap_spec hsb h.ops h.owned h.type hbn).and_returns
      ((blind_frame ip).bmap sb (off / BSIZE) s)).seq fun a s1 hpost => ?_
    obtain ⟨⟨hgrow, hconf, hfull⟩, hframe⟩ := hpost
    have hinum := inum_of_frame hframe ip
    obtain ⟨h1, -⟩ := h.of_inodes hframe hgrow.owned hgrow.inodes
    have hfound := hgrow.written off (src.from tot)
    split
    · next ha =>
      have hnone : (s.eff ip).fileBlock (s.itable ip).inum (off / BSIZE) = 0 := by
        by_contra hne
        rw [← hgrow.old hne, hgrow.result] at hne
        exact hne ha
      exact ⟨0, 0, rfl, ⟨by omega, fun _ => .inl ⟨rfl, hfull ha, hnone⟩, fun _ => .inl rfl,
        by omega, Nat.mod_lt _ hB⟩, hfound, hconf⟩
    next ha =>
    -- the piece of the source that goes to this block
    set m := min (n - tot) (BSIZE - off % BSIZE) with hm
    set bytes := src.copyin tot m with hbytes
    have hlen : bytes.length ≤ m := src.length_copyin_le tot m
    have hmod := Nat.mod_lt off hB
    have hblock : (s1.eff ip).fileBlock (s.itable ip).inum (off / BSIZE) = a := hgrow.result
    have hval : ∀ j < bytes.length, bytes.getD j 0 = src.from tot j := by
      intro j hj
      rw [Src.from, src.copyin_read tot m hj]
      rfl
    set s2 := s1.setData a ((s1.vol.data a).write (off % BSIZE) bytes) with hs2
    have heff : s2.eff ip =
        (s1.eff ip).setData a (((s1.eff ip).data a).write (off % BSIZE) bytes) := rfl
    have hpiece : Written sb (s1.eff ip) (s2.eff ip) (s.itable ip).inum off bytes.length
        (src.from tot) := by
      have hne : (s1.eff ip).fileBlock (s.itable ip).inum (off / BSIZE) ≠ 0 := by
        rw [hblock]
        exact ha
      have hw := h1.owned.written hne (by omega) hval
      dsimp only at hw
      rw [hblock] at hw
      rw [heff]
      exact hw
    have hown : (s1.eff ip).Confined (s2.eff ip) (s.itable ip).inum := by
      have hne : (s1.eff ip).fileBlock (s.itable ip).inum (off / BSIZE) ≠ 0 := by
        rw [hblock]
        exact ha
      have hc := h1.owned.confined_setData hne (((s1.eff ip).data a).write (off % BSIZE) bytes)
      rw [hblock] at hc
      rw [heff]
      exact hc
    have hwritten : Written sb (s.eff ip) (s2.eff ip) (s.itable ip).inum off bytes.length
        (src.from tot) := by
      have hw : Written sb (s.eff ip) (s2.eff ip) (s.itable ip).inum off
          (0 + bytes.length) (src.from tot) := hfound.trans (by simpa using hpiece)
      rwa [Nat.zero_add] at hw
    refine Wp.modify_seq ?_
    split
    · next hshort =>
      have hshort : bytes.length < m := hshort
      refine ⟨0, bytes.length, rfl, ⟨by omega, fun _ => .inr ⟨by omega, ?_⟩, fun _ => .inl rfl,
        fun j hj => ?_, by rw [Nat.add_zero]; omega⟩, ?_, hconf.trans hown⟩
      · exact src.copyin_stop tot m hshort
      · rw [src.copyin_read tot m (show j < bytes.length by omega)]
        exact Option.some_ne_none _
      · rw [Nat.zero_add]
        exact hwritten
    next hall =>
    have hall : ¬ bytes.length < m := hall
    have hbm : bytes.length = m := by omega
    rw [hbm] at hwritten
    have hops1 : 1 ≤ s1.log.outstanding := h1.ops
    refine wp_bind.mpr (wp_logWrite hops1 ?_)
    have h2 : Ready sb { s2 with log := s2.log.write a } ip := ⟨⟨hpiece.owned, h1.type⟩, hops1⟩
    have hinum2 : (s1.itable ip).inum = (s.itable ip).inum := hinum
    refine (ih (tot + m) (off + m) h2 (by omega) (by omega) (by omega)).mono ?_
    rintro r s3 ⟨len, part, rfl, hcopied, hw3, hc3⟩
    change Written sb (s2.eff ip) (s3.eff ip) (s1.itable ip).inum _ _ _ at hw3
    change (s2.eff ip).Confined (s3.eff ip) (s1.itable ip).inum at hc3
    rw [hinum2] at hw3 hc3
    refine ⟨m + len, part, by simp only [Nat.add_assoc], ⟨?_, fun hlt' => ?_,
      fun hlt' => ?_, fun j hj => ?_, by rw [← Nat.add_assoc]; exact hcopied.block⟩, ?_, (hconf.trans hown).trans hc3⟩
    · have := hcopied.le
      omega
    · rcases hcopied.stop (by omega) with ⟨hpart, hfull, hnone⟩ | hstop
      · refine .inl ⟨hpart, hfull, ?_⟩
        by_contra hne
        rw [← Nat.add_assoc] at hne
        refine hne ((hwritten.block _ _ (.inl hne)).symm.trans ?_)
        rwa [← hinum2]
      · exact .inr (by simpa only [Nat.add_assoc] using hstop)
    · rcases hcopied.start (by omega) with rfl | hmod'
      · -- the piece went up to the end of the block
        have hdvd : (off + m) % BSIZE = 0 := by
          unfold BSIZE at *
          omega
        exact .inr hdvd
      · exact .inr (by rwa [← Nat.add_assoc])
    · rcases Nat.lt_or_ge j m with hjm | hjm
      · rw [src.copyin_read tot m (show j < bytes.length by omega)]
        exact Option.some_ne_none _
      · have hread := hcopied.read (j - m) (by omega)
        rwa [Nat.add_assoc, Nat.add_sub_cancel' hjm] at hread
    rw [Nat.add_assoc]
    refine hwritten.trans ?_
    convert hw3 using 1
    funext j
    simp only [Src.from, Nat.add_assoc]

/-! ## The size -/

def Volume.resize (v : Volume) (i n : ℕ) : Volume :=
  { v with dinode := update v.dinode i { v.dinode i with size := n } }

namespace Volume

variable {v w : Volume} {i n : ℕ}

theorem blockAt_resize (v : Volume) (i n : ℕ) : (v.resize i n).blockAt = v.blockAt := by
  refine blockAt_eq rfl fun j => ?_
  by_cases hj : j = i
  · subst hj
    simp [resize]
  · simp [resize, hj]

theorem byte_resize (v : Volume) (i n : ℕ) : (v.resize i n).byte = v.byte := by
  funext j o
  rw [byte, fileBlock, blockAt_resize]
  rfl

theorem confined_resize (v : Volume) (i n : ℕ) : v.Confined (v.resize i n) i :=
  ⟨fun _ hj => update_of_ne hj .., fun P _ _ => by rw [blockAt_resize], fun _ _ => rfl,
    fun _ _ => rfl⟩

theorem Owned.resize (h : v.Owned sb) (hmapped : ∀ bn, bn * BSIZE < n → v.fileBlock i bn ≠ 0)
    (hpast : sb.ninodes ≤ i → (v.dinode i).type = .free) : (v.resize i n).Owned sb := by
  have htype : ∀ j, ((v.resize i n).dinode j).type = (v.dinode j).type := by
    intro j
    by_cases hj : j = i
    · subst hj
      simp [Volume.resize]
    · simp [Volume.resize, hj]
  have hblock : ∀ j bn, (v.resize i n).fileBlock j bn = v.fileBlock j bn := fun j bn => by
    rw [fileBlock, blockAt_resize, fileBlock]
  refine ⟨⟨?_, h.metadata⟩, fun j bn ht hlt => ?_, fun j hj => ?_⟩
  · rw [blockAt_resize]
    exact h.excl
  · rw [hblock]
    by_cases hj : j = i
    · subst hj
      refine hmapped bn ?_
      simpa [Volume.resize] using hlt
    · refine h.mapped j bn (by rw [← htype]; exact ht) ?_
      simpa [Volume.resize, hj] using hlt
  · rw [htype]
    exact h.past j hj

end Volume

/-- What a call of `writei` that counted `len` bytes and copied `part` more leaves behind. -/
structure Wrote (sb : Superblock) (s s' : Kernel) (ip : InodeId) (src : Src) (off len part : ℕ) :
    Prop where
  size : (s'.itable ip).d.size = max (s.itable ip).d.size (off + len)
  /-- The inode is written back. -/
  eff : s'.eff ip = s'.vol
  owned : s'.vol.Owned sb
  confined : (s.eff ip).Confined s'.vol (s.itable ip).inum
  rest : s'.rest ip = s.rest ip
  inode : { (s'.itable ip).d with size := (s.itable ip).d.size, addrs := (s.itable ip).d.addrs } =
    (s.itable ip).d
  inside : ∀ o, off ≤ o → o < off + (len + part) →
    s'.vol.byte (s.itable ip).inum o = src.from 0 (o - off)
  outside : ∀ o, o < off ∨ off + (len + part) ≤ o → o < (s.itable ip).d.size →
    s'.vol.byte (s.itable ip).inum o = (s.eff ip).byte (s.itable ip).inum o
  others : ∀ j, j ≠ (s.itable ip).inum → ∀ o, o < ((s.eff ip).dinode j).size →
    ((s.eff ip).dinode j).type ≠ .free → s'.vol.byte j o = (s.eff ip).byte j o

theorem Volume.Owned.mapped_byte {v : Volume} (h : v.Owned sb) {i o : ℕ}
    (ht : (v.dinode i).type ≠ .free) (ho : o < (v.dinode i).size) : v.fileBlock i (o / BSIZE) ≠ 0 :=
  h.mapped i _ ht (lt_of_le_of_lt (Nat.div_mul_le_self o BSIZE) ho)

theorem eff_grow (s : Kernel) (ip : InodeId) (off : ℕ) :
    (if off > (s.itable ip).d.size then s.setCopy ip { (s.itable ip).d with size := off }
      else s).eff ip = (s.eff ip).resize (s.itable ip).inum (max (s.itable ip).d.size off) := by
  split
  · next h =>
    rw [eff_setCopy, resize, eff_dinode_self, max_eq_right h.le]
    simp [Kernel.eff]
  · next h =>
    rw [resize, eff_dinode_self, max_eq_left (by omega)]
    simp [Kernel.eff]

theorem eff_writeback (s : Kernel) (ip : InodeId) (l : OpLog) :
    ({ s with vol := s.eff ip, log := l } : Kernel).eff ip = s.eff ip := by simp [Kernel.eff]

/-- **What `writei` does** when its arguments are in range. -/
theorem writei_spec (hsb : sb.Ok) (h : Ready sb s ip) (src : Src) {off n : ℕ}
    (hoff : off ≤ (s.itable ip).d.size) (hmax : off + n ≤ MAXFILE * BSIZE) :
    Wp (writei sb ip src off n) s (fun r s' => ∃ len part : ℕ, r = len ∧
      Copied sb (s.eff ip) (s.itable ip).inum src n 0 off s' len part ∧
      Wrote sb s s' ip src off len part) E := by
  have hsmall : MAXFILE * BSIZE < 2 ^ 32 := by decide
  have huadd : uadd off n = off + n := Nat.mod_eq_of_lt (by omega)
  suffices hmain : Wp (writei sb ip src off n) s (fun r s' => ∃ len part : ℕ, r = len ∧
      Copied sb (s.eff ip) (s.itable ip).inum src n 0 off s' len part ∧
      (s'.rest ip = s.rest ip → Wrote sb s s' ip src off len part)) E by
    refine (hmain.and_returns ((blind_rest ip).writei sb src off n s)).mono ?_
    rintro r s' ⟨⟨len, part, hr, hcopied, hwrote⟩, hrest⟩
    exact ⟨len, part, hr, hcopied, hwrote hrest⟩
  refine Wp.get_seq ?_
  rw [huadd, if_neg (by omega), if_neg (by omega)]
  refine ((writeiLoop_spec hsb n 0 off h (Nat.zero_le n) hmax le_rfl).and_returns
    ((blind_frame ip).writeiLoop sb src n n 0 off s)).seq ?_
  rintro _ s1 ⟨⟨len, part, rfl, hcopied, hwritten, hconf⟩, hframe⟩
  obtain ⟨h₁, hsize1⟩ := h.of_inodes hframe hwritten.owned hwritten.inodes
  have hinum := inum_of_frame hframe ip
  refine Wp.modify_seq ?_
  set s2 := if off + len > (s1.itable ip).d.size then
    s1.setCopy ip { (s1.itable ip).d with size := off + len } else s1 with hs2
  have hframe2 : s2.frame = s1.frame := by
    rw [hs2]
    split
    · exact frame_setCopy ..
    · rfl
  have heff2 : s2.eff ip = (s1.eff ip).resize (s.itable ip).inum
      (max (s.itable ip).d.size (off + len)) := by rw [hs2, eff_grow, hinum, hsize1]
  refine wp_bind.mpr (wp_iupdate (by rw [outstanding_of_frame hframe2]; exact h₁.ops) ?_)
  have hinum2 : (s2.itable ip).inum = (s.itable ip).inum := (inum_of_frame hframe2 ip).trans hinum
  have hcopy2 : (s2.itable ip).d =
      { (s1.itable ip).d with size := max (s.itable ip).d.size (off + len) } := by
    have hd := eff_dinode_self s2 ip
    rw [hinum2, heff2] at hd
    rw [← hd, ← eff_dinode_self s1 ip, hinum]
    simp [resize]
  have hfull : ∀ {x : Kernel}, x.vol.bit = s1.vol.bit →
      Copied sb (s.eff ip) (s.itable ip).inum src n 0 off x len part := by
    intro x hbit
    refine ⟨hcopied.le, fun hlt => ?_, hcopied.start, hcopied.read, hcopied.block⟩
    rcases hcopied.stop hlt with ⟨hpart, hfull, hnone⟩ | hstop
    · exact .inl ⟨hpart, fun b hb => by rw [hbit]; exact hfull b hb, hnone⟩
    · exact .inr hstop
  refine ⟨len, part, by simp, hfull ?_, fun hrest => ?_⟩
  · have := congrArg bit heff2
    exact this
  have hd := eff_dinode_self s ip
  have hsame : (s1.itable ip).d = { (s.itable ip).d with addrs := (s1.itable ip).d.addrs } := by
    have := congrFun hwritten.inodes (s.itable ip).inum
    rw [update_self, hd, ← hinum, eff_dinode_self] at this
    exact this
  have hvol : (s2.eff ip) = (s1.eff ip).resize (s.itable ip).inum
    (max (s.itable ip).d.size (off + len)) := heff2
  have hmapped : ∀ bn, bn * BSIZE < max (s.itable ip).d.size (off + len) →
      (s1.eff ip).fileBlock (s.itable ip).inum bn ≠ 0 := by
    intro bn hbn
    rcases Nat.lt_or_ge (bn * BSIZE) (s.itable ip).d.size with hlt | hge
    · refine hwritten.owned.mapped _ bn ?_ ?_
      · rw [(hwritten.inodes.type _).1, hd]
        exact h.type
      · rw [(hwritten.inodes.type _).2, hd]
        exact hlt
    · have hmap := hwritten.mapped (bn * BSIZE) (by omega) (by omega)
      rwa [Nat.mul_div_cancel _ (by decide : 0 < BSIZE)] at hmap
  refine ⟨?_, ?_, ?_, ?_, hrest, ?_, fun o h1 h2 => ?_, fun o ho hlt => ?_, fun j hj o ho htj => ?_⟩
  · change (s2.itable ip).d.size = _
    rw [hcopy2]
  · exact eff_writeback s2 ip _
  · change (s2.eff ip).Owned sb
    rw [hvol]
    exact hwritten.owned.resize hmapped (hwritten.owned.past _)
  · change (s.eff ip).Confined (s2.eff ip) _
    rw [hvol]
    exact hconf.trans (confined_resize ..)
  · change ({ (s2.itable ip).d with size := _, addrs := _ } : Dinode) = _
    rw [hcopy2, hsame]
  · change (s2.eff ip).byte _ o = _
    rw [hvol, byte_resize]
    exact hwritten.inside o h1 h2
  · change (s2.eff ip).byte _ o = _
    rw [hvol, byte_resize]
    refine hwritten.outside o ho (h.owned.mapped_byte ?_ ?_)
    · rw [hd]
      exact h.type
    · rw [hd]
      exact hlt
  · change (s2.eff ip).byte _ o = _
    have hmap := h.owned.mapped_byte htj ho
    rw [hvol, byte_resize, byte, hwritten.block j _ (.inr hj), hwritten.data j _ hj hmap, byte]

end Xv6.Fs

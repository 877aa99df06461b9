import Xv6.Fs.ByteArray

/-!
# Writing from a source that cannot be read

`writei` copies from the source straight into the cached block. A copy that fails has moved the
bytes before the one that cannot be read, and the block is not logged.

## Main results

* `bad_source_harmless`: the file outside of the bytes counted is as before if and only if those of
  them that go to bytes of the file are the ones it has; the buffers that are not logged are as
  before if they go to a block the call allocates or are the ones the block has, and only then if
  the block is reached and not logged.
* `bad_source_leaks`: a call in which neither is as before.
-/

namespace Xv6.Fs

open Hoare Function Volume

variable {sb : Superblock} {E : Halt → Prop} {s s' : Kernel} {ip : InodeId} {disk : Volume}

/-- The blocks the running section has logged, whose buffers are pinned. -/
def Kernel.logged (s : Kernel) : Finset ℕ := s.log.ops.headD ∅

/-- Apart from the blocks in `X` and the logged ones, the cached blocks are those of the disk. -/
structure SyncedBut (sb : Superblock) (disk : Volume) (X : Finset ℕ) (s : Kernel) : Prop where
  ops : 1 ≤ s.log.outstanding
  section_ : s.log.ops ≠ []
  data : ∀ b, b ∉ s.logged → b ∉ X → s.vol.data b = disk.data b
  bit : ∀ b, sb.bblock b ∉ s.logged → sb.bblock b ∉ X → s.vol.bit b = disk.bit b
  dinode : ∀ i, sb.iblock i ∉ s.logged → sb.iblock i ∉ X → s.vol.dinode i = disk.dinode i

abbrev Synced (sb : Superblock) (disk : Volume) (s : Kernel) : Prop := SyncedBut sb disk ∅ s

namespace SyncedBut

variable {X : Finset ℕ}

theorem congr (h : SyncedBut sb disk X s) (hvol : s'.vol = s.vol) (hlog : s'.log = s.log) :
    SyncedBut sb disk X s' := by
  refine ⟨hlog ▸ h.ops, hlog ▸ h.section_, ?_, ?_, ?_⟩ <;>
    simp only [Kernel.logged, hvol, hlog]
  · exact h.data
  · exact h.bit
  · exact h.dinode

theorem logged_write (h : SyncedBut sb disk X s) (b : ℕ) :
    ({ s with log := s.log.write b } : Kernel).logged = insert b s.logged := by
  obtain ⟨op, ops, hops⟩ := List.exists_cons_of_ne_nil h.section_
  simp [Kernel.logged, OpLog.write, hops]

theorem write (h : SyncedBut sb disk {b} s) : Synced sb disk { s with log := s.log.write b } := by
  have hlogged := h.logged_write b
  have hnot : ∀ {x}, x ∉ insert b s.logged → x ∉ s.logged ∧ x ∉ ({b} : Finset ℕ) := by
    intro x hx
    rw [Finset.mem_insert, not_or] at hx
    exact ⟨hx.2, by simpa using hx.1⟩
  refine ⟨h.ops, ?_, fun x hx _ => ?_, fun x hx _ => ?_, fun i hi _ => ?_⟩
  · obtain ⟨op, ops, hops⟩ := List.exists_cons_of_ne_nil h.section_
    simp [OpLog.write, hops]
  · rw [hlogged] at hx
    exact h.data x (hnot hx).1 (hnot hx).2
  · rw [hlogged] at hx
    exact h.bit x (hnot hx).1 (hnot hx).2
  · rw [hlogged] at hi
    exact h.dinode i (hnot hi).1 (hnot hi).2

theorem wp_logWrite {Q : Unit → Kernel → Prop} {b : ℕ} (h : SyncedBut sb disk {b} s)
    (hQ : ∀ s', Synced sb disk s' → s'.vol = s.vol → s'.logged = insert b s.logged → Q () s') :
    Wp (logWrite b) s Q E := Fs.wp_logWrite h.ops (hQ _ h.write rfl (h.logged_write b))

end SyncedBut

namespace Synced

variable (h : Synced sb disk s)

include h

theorem setData (b : ℕ) (a : Block) :
    SyncedBut sb disk {b} (s.setData b a) := by
  refine ⟨h.ops, h.section_, fun x hx hne => ?_, fun x hx _ => h.bit x hx (by simp),
    fun i hi _ => h.dinode i hi (by simp)⟩
  have hxb : x ≠ b := by simpa using hne
  exact (update_of_ne hxb ..).trans (h.data x hx (by simp))

theorem setData_logged {b : ℕ} (hb : b ∈ s.logged) (a : Block) :
    Synced sb disk (s.setData b a) := by
  refine ⟨h.ops, h.section_, fun x hx _ => ?_, h.bit, h.dinode⟩
  have hxb : x ≠ b := by
    rintro rfl
    exact hx hb
  exact (update_of_ne hxb ..).trans (h.data x hx (by simp))

theorem setBit (b : ℕ) (v : Bool) :
    SyncedBut sb disk {sb.bblock b} (s.setBit b v) := by
  refine ⟨h.ops, h.section_, fun x hx _ => h.data x hx (by simp), fun x hx hne => ?_,
    fun i hi _ => h.dinode i hi (by simp)⟩
  have hxb : x ≠ b := by
    rintro rfl
    simp at hne
  exact (update_of_ne hxb ..).trans (h.bit x hx (by simp))

theorem setDinode (i : ℕ) (d : Dinode) :
    SyncedBut sb disk {sb.iblock i} (s.setDinode i d) := by
  refine ⟨h.ops, h.section_, fun x hx _ => h.data x hx (by simp),
    fun x hx _ => h.bit x hx (by simp), fun j hj hne => ?_⟩
  have hji : j ≠ i := by
    rintro rfl
    simp at hne
  exact (update_of_ne hji ..).trans (h.dinode j hj (by simp))

theorem setCopy (d : Dinode) : Synced sb disk (s.setCopy ip d) := h.congr rfl rfl

/-! ## The functions that write blocks -/

/-- A block that is allocated is logged. -/
theorem balloc : Wp (Fs.balloc sb) s (fun a s' => Synced sb disk s' ∧
    (a = 0 ∨ a ∈ s'.logged ∧ s'.vol.data a = Block.zero)) E := by
  refine Wp.get_seq ?_
  split
  · next b _ =>
    refine Wp.modify_seq (wp_bind.mpr ((h.setBit b true).wp_logWrite fun s1 h1 _ _ => ?_))
    refine wp_bind.mpr (Wp.modify_seq ((h1.setData b _).wp_logWrite fun s2 h2 hvol hlog => ?_))
    refine ⟨h2, .inr ⟨by rw [hlog]; exact Finset.mem_insert_self .., ?_⟩⟩
    rw [hvol]
    exact update_self ..
  · exact ⟨h, .inl rfl⟩

theorem bmapSlot (k : ℕ) : Wp (Fs.bmapSlot sb ip k) s (fun a s' => Synced sb disk s' ∧
    (a = 0 ∨ s' = s ∧ a = (s.itable ip).d.addrs k ∨
      a ∈ s'.logged ∧ s'.vol.data a = Block.zero)) E := by
  refine Wp.get_seq ?_
  dsimp only
  split
  · refine h.balloc.seq fun a s1 h1 => ?_
    split
    · exact ⟨h1.1, .inl rfl⟩
    · next ha => exact Wp.modify_seq ⟨h1.1.setCopy _, .inr (.inr (h1.2.resolve_left ha))⟩
  · exact ⟨h, .inr (.inl ⟨rfl, rfl⟩)⟩

theorem bmapEntry (ind j : ℕ) : Wp (Fs.bmapEntry sb ind j) s (fun a s' => Synced sb disk s' ∧
    (a = 0 ∨ a = (s.vol.data ind).word j ∨ a ∈ s'.logged)) E := by
  refine Wp.get_seq ?_
  split
  · refine h.balloc.seq fun a s1 h1 => ?_
    split
    · exact ⟨h1.1, .inl rfl⟩
    next ha =>
    refine Wp.modify_seq (wp_bind.mpr ((h1.1.setData ind _).wp_logWrite fun s2 h2 _ hlog => ?_))
    refine ⟨h2, .inr (.inr ?_)⟩
    rw [hlog]
    exact Finset.mem_insert_of_mem (h1.2.resolve_left ha).1
  · exact ⟨h, .inr (.inl rfl)⟩

/-- The block that `bmap` returns is the one the file has, or logged. -/
theorem bmap (ht : (s.itable ip).d.type ≠ .free) {bn : ℕ} (hbn : bn < MAXFILE) :
    Wp (Fs.bmap sb ip bn) s (fun a s' => Synced sb disk s' ∧
      (a = 0 ∨ a = (s.eff ip).fileBlock (s.itable ip).inum bn ∨ a ∈ s'.logged)) E := by
  have hd : (s.eff ip).dinode (s.itable ip).inum = (s.itable ip).d := eff_dinode_self s ip
  have ht' : ((s.eff ip).dinode (s.itable ip).inum).type ≠ .free := by rw [hd]; exact ht
  unfold Fs.bmap
  split
  · next hdirect =>
    refine (h.bmapSlot bn).mono fun a s1 h1 => ⟨h1.1, h1.2.imp_right (Or.imp ?_ And.left)⟩
    rintro ⟨-, rfl⟩
    rw [fileBlock, Place.ofBlock, if_pos hdirect, blockAt_slot ht' hdirect.le, hd]
  next hdirect =>
  have hj : bn - NDIRECT < NINDIRECT := by
    unfold MAXFILE at hbn
    omega
  rw [if_pos hj]
  refine (h.bmapSlot NDIRECT).seq fun ind s1 h1 => ?_
  split
  · exact ⟨h1.1, .inl rfl⟩
  next hind =>
  refine (h1.1.bmapEntry ind _).mono fun a s2 h2 => ⟨h2.1, ?_⟩
  rcases h1.2.resolve_left hind with ⟨rfl, rfl⟩ | ⟨-, hzero⟩
  · refine h2.2.imp_right (Or.imp_left fun ha => ha.trans ?_)
    rw [fileBlock, Place.ofBlock, if_neg hdirect, blockAt_entry ht' (by rw [hd]; exact hind) hj,
      hd]
    rfl
  · -- a new indirect block has no entry
    rw [hzero, Block.word_zero, ← or_assoc, or_self] at h2
    exact h2.2.imp_right .inr

theorem iupdate :
    Wp (Fs.iupdate sb ip) s (fun _ s' => Synced sb disk s') E := by
  refine Wp.modify_seq (Wp.get_seq ?_)
  exact (h.setDinode (s.itable ip).inum (s.itable ip).d).wp_logWrite fun s1 h1 _ _ => h1

end Synced

/-! ## The condition -/

/-- Byte `k` of the source is moved by the copy that fails at byte `j`: both count from `tot` on,
`j` is the first one below `n` that cannot be read, and byte `tot` goes to offset `off`. -/
structure Spill (src : Src) (n tot off j k : ℕ) : Prop where
  lt : tot + j < n
  fails : src (tot + j) = none
  read : ∀ l < j, src (tot + l) ≠ none
  before : k < j
  block : (off + k) / BSIZE = (off + j) / BSIZE

/-- What the failing copy moves to a block of the file is there already. -/
def NoLeak (v : Volume) (i : ℕ) (src : Src) (n tot off : ℕ) : Prop :=
  ∀ j k, Spill src n tot off j k → v.fileBlock i ((off + j) / BSIZE) ≠ 0 →
    src (tot + k) = some (v.byte i (off + k))

variable {src : Src} {v w : Volume} {i : ℕ}

theorem div_add_of_lt {o j : ℕ} (h : o % BSIZE + j < BSIZE) : (o + j) / BSIZE = o / BSIZE := by
  unfold BSIZE at *
  omega

theorem NoLeak.next {n tot off m : ℕ} (h : NoLeak v i src n tot off)
    (hread : ∀ k < m, src (tot + k) ≠ none) (hm : m = min (n - tot) (BSIZE - off % BSIZE))
    (hblock : ∀ cn, cn ≠ off / BSIZE → w.fileBlock i cn = v.fileBlock i cn)
    (hbyte : ∀ o, off + m ≤ o → v.fileBlock i (o / BSIZE) ≠ 0 → w.byte i o = v.byte i o) :
    NoLeak w i src n (tot + m) (off + m) := by
  rintro j k ⟨hj, hnone, hfirst, hk, hsame⟩ hmapped
  have hfirst' : ∀ k < m + j, src (tot + k) ≠ none := by
    intro k hk
    rcases Nat.lt_or_ge k m with hlt | hge
    · exact hread k hlt
    · have := hfirst (k - m) (by omega)
      rwa [Nat.add_assoc, Nat.add_sub_cancel' hge] at this
  have hcn : (off + m + j) / BSIZE ≠ off / BSIZE := by
    unfold BSIZE at *
    omega
  rw [hblock _ hcn] at hmapped
  rw [Nat.add_assoc] at hj hnone
  rw [hbyte _ (by omega) (by rw [hsame]; exact hmapped)]
  simp only [Nat.add_assoc] at *
  exact h (m + j) (m + k) ⟨hj, hnone, hfirst', by omega, hsame⟩ hmapped

theorem Block.write_eq_self {a : Block} {off : ℕ} {bs : List UInt8}
    (h : ∀ k < bs.length, bs.getD k 0 = a (off + k)) : a.write off bs = a := by
  funext o
  rw [Block.write]
  split
  · next ho =>
    rw [h _ (by omega), Nat.add_sub_cancel' ho.1]
  · rfl

theorem Synced.writeiLoop (hsb : sb.Ok) (h : Synced sb disk s) (hr : Ready sb s ip) {n : ℕ}
    (k tot off : ℕ) (hsafe : NoLeak (s.eff ip) (s.itable ip).inum src n tot off) (htot : tot ≤ n)
    (hmax : off + (n - tot) ≤ MAXFILE * BSIZE) :
    Wp (Fs.writeiLoop sb ip src n k tot off) s (fun _ s' => Synced sb disk s') E := by
  induction k generalizing tot off s with
  | zero => exact h
  | succ k ih =>
    rw [Fs.writeiLoop]
    split
    case isFalse => exact h
    case isTrue hlt =>
    have hB : 0 < BSIZE := by decide
    have hbn : off / BSIZE < MAXFILE := by
      rw [Nat.div_lt_iff_lt_mul hB]
      omega
    refine (((h.bmap hr.type hbn).and_returns (bmap_spec hsb hr.ops hr.owned hr.type
      hbn)).and_returns ((blind_frame ip).bmap sb (off / BSIZE) s)).seq fun a s1 hpost => ?_
    obtain ⟨⟨⟨h1, hkind⟩, hgrow, -⟩, hframe⟩ := hpost
    obtain ⟨hr1, -⟩ := hr.of_inodes hframe hgrow.owned hgrow.inodes
    have hinum := inum_of_frame hframe ip
    split
    · exact h1
    next ha =>
    set m := min (n - tot) (BSIZE - off % BSIZE) with hm
    have hmod := Nat.mod_lt off hB
    have hlen := src.length_copyin_le tot m
    have hne : (s1.eff ip).fileBlock (s.itable ip).inum (off / BSIZE) ≠ 0 := by
      rw [hgrow.result]
      exact ha
    refine Wp.modify_seq ?_
    split
    · next hshort =>
      rcases hkind.resolve_left ha with hold | hlog
      · -- the bytes that were copied are those of the block
        have hmapped := hgrow.old (by rw [← hold]; exact ha)
        have hsame : (s1.vol.data a).write (off % BSIZE) (src.copyin tot m) = s1.vol.data a := by
          refine Block.write_eq_self fun k hk => ?_
          have hdiv := div_add_of_lt (o := off) (j := (src.copyin tot m).length) (by omega)
          have hdiv' := div_add_of_lt (o := off) (j := k) (by omega)
          have hbyte := hsafe _ k ⟨by omega, src.copyin_stop tot m hshort, fun l hl => by
            rw [src.copyin_read tot m hl]
            exact Option.some_ne_none _, hk, hdiv'.trans hdiv.symm⟩
            (by rw [hdiv, ← hold]; exact ha)
          rw [src.copyin_read tot m hk, Option.some.injEq] at hbyte
          rw [hbyte, byte, hdiv', ← hold, ← hmapped, ← Nat.mod_add_mod, Nat.mod_eq_of_lt (by omega)]
          rfl
        rw [hsame]
        refine h1.congr ?_ rfl
        simp [Kernel.setData]
      · exact h1.setData_logged hlog _
    next hall =>
    have hall : ¬ (src.copyin tot m).length < m := hall
    have hpiece := hr1.owned.written hne
      (show off % BSIZE + (src.copyin tot m).length ≤ BSIZE by omega) fun _ _ => rfl
    have hblockAt := hr1.owned.blockAt_setData hne
      (((s1.eff ip).data a).write (off % BSIZE) (src.copyin tot m))
    dsimp only at hpiece
    rw [hgrow.result] at hpiece hblockAt
    refine wp_bind.mpr (Fs.wp_logWrite h1.ops ?_)
    refine ih (h1.setData a _).write ⟨⟨hpiece.owned, hr1.type⟩, hr1.ops⟩ (tot + m) (off + m) ?_
      (by omega) (by omega)
    change NoLeak _ (s1.itable ip).inum src n (tot + m) (off + m)
    rw [hinum]
    refine hsafe.next (fun k hk => ?_) hm (fun cn hcn => ?_) fun o ho hmapped => ?_
    · rw [src.copyin_read tot m (by omega)]
      exact Option.some_ne_none _
    · rw [← hgrow.block _ cn (.inr hcn)]
      exact congrFun hblockAt _
    · have hkeep := (hgrow.written off fun _ => 0).block (s.itable ip).inum _ (.inl hmapped)
      rw [← (hgrow.written off fun _ => 0).outside o (.inr (by omega)) hmapped]
      exact hpiece.outside o (.inr (by omega)) (by rw [hkeep]; exact hmapped)

theorem Synced.writei (hsb : sb.Ok) (h : Synced sb disk s) (hr : Ready sb s ip) {off n : ℕ}
    (hoff : off < 2 ^ 32) (hn : n < 2 ^ 32)
    (hsafe : NoLeak (s.eff ip) (s.itable ip).inum src n 0 off) :
    Wp (Fs.writei sb ip src off n) s (fun _ s' => Synced sb disk s') E := by
  refine Wp.get_seq ?_
  split
  · exact h
  next hfirst =>
  have hnowrap : ¬ 2 ^ 32 ≤ off + n := fun hw => hfirst (.inr ((uadd_lt_iff hoff hn).mpr hw))
  have huadd : uadd off n = off + n := Nat.mod_eq_of_lt (by omega)
  split
  · exact h
  next hsecond =>
  refine (h.writeiLoop hsb hr n 0 off hsafe (Nat.zero_le n) (by omega)).seq fun r s1 h1 => ?_
  refine Wp.modify_seq (wp_bind.mpr ?_)
  refine Synced.iupdate (s := if r.2 > (s1.itable ip).d.size then
    s1.setCopy ip { (s1.itable ip).d with size := r.2 } else s1) ?_
  split
  · exact h1.setCopy _
  · exact h1

section Spill

variable {off n len part j k : ℕ}

/-- The call stops at a block it cannot allocate or at byte `j`. -/
theorem Spill.stop (hc : Copied sb v i src n 0 off s' len part) (h : Spill src n 0 off j k) :
    len + part ≤ j ∧ (v.fileBlock i ((off + len) / BSIZE) = 0 ∨ j = len + part) := by
  have hlt := h.lt
  have hle : len + part ≤ j := by
    by_contra hgt
    exact hc.read j (by omega) h.fails
  refine ⟨hle, (hc.stop (by omega)).imp (fun hfull => hfull.2.2) fun hstop => ?_⟩
  by_contra hne
  refine h.read (len + part) (by omega) ?_
  rw [← Nat.add_assoc]
  exact hstop.2

/-- A call that reaches the failing copy moves byte `k` and does not count it. -/
theorem Spill.moved (hc : Copied sb v i src n 0 off s' len part) (h : Spill src n 0 off j k)
    (hmapped : v.fileBlock i ((off + j) / BSIZE) ≠ 0)
    (hreach : (off + len) / BSIZE = (off + j) / BSIZE) : len ≤ k ∧ k < len + part := by
  have hlt := h.lt
  have hk := h.before
  have hblock := h.block
  obtain ⟨hle, hnone | hj⟩ := h.stop hc
  · rw [hreach] at hnone
    exact absurd hnone hmapped
  refine ⟨?_, by omega⟩
  rcases hc.start (by omega) with hzero | hmod
  · omega
  · unfold BSIZE at *
    omega

/-- If byte `k` goes to a byte of the file, the call reaches the failing copy. -/
theorem Spill.reached {size : ℕ} (hc : Copied sb v i src n 0 off s' len part)
    (h : Spill src n 0 off j k) (hmapped : ∀ o < size, v.fileBlock i (o / BSIZE) ≠ 0)
    (hk : off + k < size) : (off + len) / BSIZE = (off + j) / BSIZE := by
  have hsame := h.block
  have hblock := hc.block
  obtain ⟨hle, hnone | hj⟩ := h.stop hc
  · have hpast : size ≤ off + len := by
      by_contra hin
      exact hmapped _ (not_le.mp hin) hnone
    unfold BSIZE at *
    omega
  · unfold BSIZE at *
    omega

/-- The copy that failed, if one did, gives spilled bytes. -/
theorem Copied.spill (hc : Copied sb v i src n 0 off s' len part)
    (hlow : len ≤ k) (hhigh : k < len + part) : Spill src n 0 off (len + part) k := by
  have hle := hc.le
  have hblock := hc.block
  obtain ⟨hstop, hnone⟩ := (hc.stop (by omega)).resolve_left (by omega)
  rw [Nat.add_assoc] at hstop hnone
  refine ⟨hstop, hnone, hc.read, hhigh, ?_⟩
  unfold BSIZE at *
  omega

end Spill

/-- **A source that cannot be read** does no harm to a call that is refused. Otherwise the file
outside of the bytes counted is as before if and only if the spilled bytes that go to bytes of the
file are the ones it has, and other files are as before; the buffers that are not logged are as
before if the spilled bytes go to a new block or are the ones of the block, and only then where the
block is reached and not logged. -/
theorem bad_source_harmless (hsb : sb.Ok) (h : Ready sb s ip) (hsync : Synced sb disk s) (src : Src)
    {off n : ℕ} (hoff : off < 2 ^ 32) (hn : n < 2 ^ 32) :
    ∃ r s', Fs.writei sb ip src off n s = .ok (r, s') ∧
      (Refused (s.itable ip).d.size off n → r = -1 ∧ s' = s) ∧
      (¬ Refused (s.itable ip).d.size off n → ∃ tot ≤ n, r = tot ∧
        (s'.vol.content (s.itable ip).inum =
            ((s.eff ip).content (s.itable ip).inum).take off ++ (List.range tot).map (src.from 0) ++
              ((s.eff ip).content (s.itable ip).inum).drop (off + tot) ↔
          ∀ j k, Spill src n 0 off j k → off + k < (s.itable ip).d.size →
            src k = some ((s.eff ip).byte (s.itable ip).inum (off + k))) ∧
        (∀ j, j ≠ (s.itable ip).inum → (s.vol.dinode j).type ≠ .free →
          s'.vol.content j = (s.eff ip).content j) ∧
        (NoLeak (s.eff ip) (s.itable ip).inum src n 0 off → Synced sb disk s') ∧
        (Synced sb disk s' → ∀ j k, Spill src n 0 off j k →
          (s.eff ip).fileBlock (s.itable ip).inum ((off + j) / BSIZE) ≠ 0 →
          (off + tot) / BSIZE = (off + j) / BSIZE →
          (s.eff ip).fileBlock (s.itable ip).inum ((off + j) / BSIZE) ∉ s.logged ∪ s'.logged →
          src k = some ((s.eff ip).byte (s.itable ip).inum (off + k)))) := by
  by_cases hrefused : Refused (s.itable ip).d.size off n
  · obtain ⟨r, s', hok, hr, hs⟩ := writei_refused sb src hoff hn hrefused
    exact ⟨r, s', hok, fun _ => ⟨hr, hs⟩, fun hgood => absurd hrefused hgood⟩
  have hrange : off ≤ (s.itable ip).d.size ∧ off + n ≤ MAXFILE * BSIZE := by
    unfold Refused at hrefused
    omega
  have hd := eff_dinode_self s ip
  obtain ⟨r, s', hok, len, part, rfl, hcopied, hwrote⟩ :=
    (writei_spec (E := fun _ => False) hsb h src hrange.1 hrange.2).exists_ok
  have hle := hcopied.le
  have hread : ∀ j k, Spill src n 0 off j k → len ≤ k → k < len + part →
      src k = some (s'.vol.byte (s.itable ip).inum (off + k)) := by
    intro j k hspill hlow hhigh
    have hsome := hspill.read k hspill.before
    rw [hwrote.inside (off + k) (by omega) (by omega), Src.from, Nat.add_sub_cancel_left]
    rw [Nat.zero_add] at hsome ⊢
    obtain ⟨b, hb⟩ := Option.ne_none_iff_exists'.mp hsome
    rw [hb]
    rfl
  refine ⟨len, s', hok, fun hr => absurd hr hrefused, fun _ => ⟨len, by omega, rfl,
    ⟨fun hcontent j k hspill hlt => ?_, fun hsame => ?_⟩, fun j hj htj => hwrote.content_eq hj htj,
    fun hsafe => ?_, fun hsync' j k hspill hmapped hreach hlog => ?_⟩⟩
  · have hmapped : ∀ o < (s.itable ip).d.size,
        (s.eff ip).fileBlock (s.itable ip).inum (o / BSIZE) ≠ 0 := fun o ho =>
      h.owned.mapped_byte (by rw [hd]; exact h.type) (by rw [hd]; exact ho)
    obtain ⟨hlow, hhigh⟩ := hspill.moved hcopied (hspill.block ▸ hmapped _ hlt)
      (hspill.reached hcopied hmapped hlt)
    rw [hread j k hspill hlow hhigh]
    have hat := congrArg (fun l => l[off + k]?) hcontent
    rw [List.getElem?_append_right (by simp; omega), List.getElem?_drop] at hat
    have hpos : off + len + (off + k - (((s.eff ip).content (s.itable ip).inum).take off ++
        (List.range len).map (src.from 0)).length) = off + k := by
      simp [hd]
      omega
    have hin : off + k < (s'.vol.dinode (s.itable ip).inum).size := by
      rw [hwrote.dinode, hwrote.size]
      omega
    rwa [hpos, content, content, getElem?_bytes, getElem?_bytes, hd, if_pos hin, if_pos hlt,
      Nat.zero_add] at hat
  · refine hwrote.content_splice hrange.1 fun o hlow hhigh hlt => ?_
    obtain ⟨k, rfl⟩ := Nat.exists_eq_add_of_le (show off ≤ o by omega)
    rw [Nat.add_sub_cancel_left, Src.from, Nat.zero_add,
      hsame _ k (hcopied.spill (by omega) (by omega)) hlt]
    rfl
  · exact (hsync.writei (E := fun _ => False) hsb h hoff hn hsafe).of_ok hok
  obtain ⟨hlow, hhigh⟩ := hspill.moved hcopied hmapped hreach
  rw [hread j k hspill hlow hhigh, byte, byte, hspill.block]
  rw [Finset.mem_union, not_or] at hlog
  have hblock : s'.vol.fileBlock (s.itable ip).inum ((off + j) / BSIZE) =
      (s.eff ip).fileBlock (s.itable ip).inum ((off + j) / BSIZE) :=
    hwrote.confined.place _ (by unfold Place.ofBlock; split <;> rfl) hmapped
  rw [hblock, hsync'.data _ hlog.2 (by simp), ← hsync.data _ hlog.1 (by simp)]
  rfl

/-! ## Instances -/

def Src.upTo (k : ℕ) : Src := fun j => if j < k then some 7 else none

theorem synced_onFile : Synced .small .withOrphan .onFile :=
  ⟨by decide, by decide, fun _ _ _ => rfl, fun _ _ _ => rfl, fun _ _ _ => rfl⟩

/-- Of 1100 bytes appended at offset 5 the last 60 cannot be read, and go to a new block. -/
theorem bad_source_harmless_append : ∃ r s',
    Fs.writei .small 0 (Src.upTo 1040) 5 1100 .onFile = .ok (r, s') ∧
      Synced .small .withOrphan s' := by
  have hsafe : NoLeak (Kernel.onFile.eff 0) (Kernel.onFile.itable 0).inum (Src.upTo 1040) 1100 0
      5 := by
    intro j k hspill hmapped
    have hge : 1040 ≤ j := by
      by_contra hlt
      have hfails := hspill.fails
      simp [Src.upTo, not_le.mp hlt] at hfails
    have hle : j ≤ 1040 := by
      by_contra hlt
      exact absurd (by simp [Src.upTo]) (hspill.read 1040 (not_le.mp hlt))
    obtain rfl : j = 1040 := by omega
    exact absurd (by decide +kernel) hmapped
  obtain ⟨r, s', hok, -, hwrote⟩ := bad_source_harmless Superblock.small_ok ready_onFile
    synced_onFile (Src.upTo 1040) (show 5 < 2 ^ 32 by decide) (show 1100 < 2 ^ 32 by decide)
  have hgood : ¬ Refused (Kernel.onFile.itable 0).d.size 5 1100 := by
    unfold Refused
    decide
  obtain ⟨-, -, -, -, -, hsync, -⟩ := hwrote hgood
  exact ⟨r, s', hok, hsync hsafe⟩

/-- **A source that fails inside a block leaks into the file.** The process writes 4 bytes at the
start of the file, of which only two can be read. -/
theorem bad_source_leaks : Ready .small .onFile 0 ∧ Synced .small .withOrphan .onFile ∧
    ∃ s', Fs.writei .small 0 (Src.upTo 2) 0 4 .onFile = .ok (0, s') ∧
    (Kernel.onFile.eff 0).byte 2 0 = 0 ∧ s'.vol.byte 2 0 = 7 ∧
    10 ∉ s'.logged ∧ s'.vol.data 10 0 ≠ Volume.withOrphan.data 10 0 := by
  have hrun : (match Fs.writei .small 0 (Src.upTo 2) 0 4 .onFile with
      | .ok (r, s') => decide (r = 0 ∧ s'.vol.byte 2 0 = 7 ∧ 10 ∉ s'.logged ∧ s'.vol.data 10 0 = 7)
      | .error _ => false) = true := by
    decide +kernel
  rcases hw : Fs.writei .small 0 (Src.upTo 2) 0 4 .onFile with e | ⟨r, s'⟩
  · simp [hw] at hrun
  rw [hw] at hrun
  obtain ⟨rfl, hbyte, hlog, hdata⟩ := of_decide_eq_true hrun
  exact ⟨ready_onFile, synced_onFile, s', rfl, by decide +kernel, hbyte, hlog,
    by rw [hdata]; decide⟩

end Xv6.Fs

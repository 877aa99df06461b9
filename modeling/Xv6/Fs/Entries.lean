import Xv6.Foundations.Slots
import Xv6.Fs.ByteArray

/-!
# Directory entries

A directory is a file of entries of 16 bytes: slots of a map from names to inode numbers, empty
where the number is 0.
-/

namespace Xv6.Fs

open Hoare Function Kernel List Volume Slots Dirent

variable {sb : Superblock} {E : Halt → Prop} {s s' : Kernel} {dp : InodeId}

/-! ## The slots of a directory -/

def Dirent.slot (de : Dirent) : Option (List UInt8 × ℕ) :=
  if de.inum = 0 then none else some (nameOf de.name, de.inum)

namespace Volume

variable {v w : Volume} {i : ℕ}

def entry (v : Volume) (i k : ℕ) : Dirent := .ofBytes (v.bytes i (DIRENT * k) DIRENT)

def slots (v : Volume) (i : ℕ) : List (Option (List UInt8 × ℕ)) :=
  (List.range ((v.dinode i).size / DIRENT)).map fun k => (v.entry i k).slot

@[simp] theorem length_slots : (v.slots i).length = (v.dinode i).size / DIRENT := by simp [slots]

theorem getElem?_slots (k : ℕ) :
    (v.slots i)[k]? = if k < (v.dinode i).size / DIRENT then some (v.entry i k).slot else none := by
  by_cases hk : k < (v.dinode i).size / DIRENT <;> simp [slots, hk]

theorem drop_slots {k : ℕ} (hk : k < (v.dinode i).size / DIRENT) :
    (v.slots i).drop k = (v.entry i k).slot :: (v.slots i).drop (k + 1) := by
  rw [drop_eq_getElem_cons (by simpa using hk)]
  simp [slots]

theorem entry_congr {k : ℕ}
    (h : ∀ o, DIRENT * k ≤ o → o < DIRENT * k + DIRENT → w.byte i o = v.byte i o) :
    w.entry i k = v.entry i k := by
  have hbytes : w.bytes i (DIRENT * k) DIRENT = v.bytes i (DIRENT * k) DIRENT := by
    refine map_congr_left fun j hj => ?_
    rw [mem_range] at hj
    exact h _ (Nat.le_add_right _ _) (by omega)
  rw [entry, hbytes, entry]

theorem slots_congr (hsize : (w.dinode i).size = (v.dinode i).size)
    (hbyte : ∀ o < (v.dinode i).size, w.byte i o = v.byte i o) : w.slots i = v.slots i := by
  rw [slots, hsize, slots]
  refine map_congr_left fun k hk => ?_
  rw [mem_range, Nat.lt_div_iff_mul_lt (by decide)] at hk
  rw [entry_congr fun o hlow hhigh => hbyte o (by unfold DIRENT at *; omega)]

end Volume

def Kernel.slots (s : Kernel) (dp : InodeId) : List (Option (List UInt8 × ℕ)) :=
  (s.eff dp).slots (s.itable dp).inum

def Kernel.lookup (s : Kernel) (dp : InodeId) (name : List UInt8) : Option (ℕ × ℕ) :=
  Slots.find (nameOf name) (s.slots dp)

theorem length_kernel_slots : (s.slots dp).length = (s.itable dp).d.size / DIRENT := by
  rw [Kernel.slots, Volume.length_slots, eff_dinode_self]

/-! ## Reading an entry -/

theorem Loaded.size_le (h : Loaded sb s dp) : (s.itable dp).d.size ≤ MAXFILE * BSIZE := by
  have hd := eff_dinode_self s dp
  have hle := h.owned.size_le (i := (s.itable dp).inum) (by rw [hd]; exact h.type)
  rwa [hd] at hle

theorem readDirent_spec (h : Loaded sb s dp) {k : ℕ} (hk : k < (s.itable dp).d.size / DIRENT)
    (msg : String) : Wp (readDirent sb dp (DIRENT * k) msg) s
      (fun de s' => s' = s ∧ de = (s.eff dp).entry (s.itable dp).inum k) E := by
  have hd := eff_dinode_self s dp
  have hmax := h.size_le
  have hsmall : MAXFILE * BSIZE < 2 ^ 31 := by decide
  have hfit : DIRENT * k + DIRENT ≤ (s.itable dp).d.size := by
    rw [Nat.lt_div_iff_mul_lt (by decide)] at hk
    unfold DIRENT at *
    omega
  have hslice : slice ((s.eff dp).content (s.itable dp).inum) (DIRENT * k) DIRENT =
      (s.eff dp).bytes (s.itable dp).inum (DIRENT * k) DIRENT := by
    rw [slice, length_content, hd, if_neg (by omega), bytes_eq_slice]
    rw [hd]
    exact hfit
  have hdst : ∀ t m, Dst.kernel t m = true := fun _ _ => rfl
  refine (readi_spec h hdst (by omega) (by decide)).seq ?_
  rintro _ s1 ⟨rfl, rfl⟩
  dsimp only
  rw [hslice, length_bytes, if_neg (by simp)]
  exact ⟨rfl, rfl⟩

theorem offset_lt_iff {size k : ℕ} (hwhole : size % DIRENT = 0) :
    DIRENT * k < size ↔ k < size / DIRENT := by
  unfold DIRENT at *
  omega

theorem dirlookupLoop_spec (h : Loaded sb s dp) (hwhole : (s.itable dp).d.size % DIRENT = 0)
    (name : List UInt8) (n k : ℕ) (hn : (s.itable dp).d.size / DIRENT < n + k) :
    Wp (dirlookupLoop sb dp name n (DIRENT * k)) s (fun r s' => s' = s ∧
      r = (find (nameOf name) ((s.slots dp).drop k)).map fun q => (q.1, DIRENT * (k + q.2))) E := by
  induction n generalizing k with
  | zero =>
    have hdrop : (s.slots dp).drop k = [] := by
      rw [drop_eq_nil_iff, length_kernel_slots]
      omega
    rw [hdrop]
    exact ⟨rfl, rfl⟩
  | succ n ih =>
    have hrest := ih (k + 1) (by omega)
    rw [Nat.mul_succ] at hrest
    refine Wp.get_seq ?_
    by_cases hlt : k < (s.itable dp).d.size / DIRENT
    · rw [if_pos ((offset_lt_iff hwhole).mpr hlt)]
      refine (readDirent_spec h hlt _).seq ?_
      rintro _ s1 ⟨rfl, rfl⟩
      have hcons : (s1.slots dp).drop k = _ := drop_slots (by rw [eff_dinode_self]; exact hlt)
      have hnext : ∀ o : Option (ℕ × ℕ), (o.map fun q => (q.1, q.2 + 1)).map
          (fun q => (q.1, DIRENT * (k + q.2))) = o.map fun q => (q.1, DIRENT * (k + 1 + q.2)) := by
        intro o
        rw [Option.map_map]
        refine congrArg (o.map ·) (funext fun q => ?_)
        simp only [Function.comp_apply, Nat.add_assoc, Nat.add_comm 1]
      split
      · next hfree =>
        rw [hcons, slot, if_pos hfree, find, hnext]
        exact hrest
      next hlive =>
      rw [hcons, slot, if_neg hlive, find]
      split
      · next heq =>
        rw [if_pos (namecmp_eq_zero_iff.mp heq)]
        exact ⟨rfl, rfl⟩
      · next hne =>
        rw [if_neg fun heq => hne (namecmp_eq_zero_iff.mpr heq), hnext]
        exact hrest
    have hdrop : (s.slots dp).drop k = [] := by
      rw [drop_eq_nil_iff, length_kernel_slots]
      omega
    rw [if_neg (mt (offset_lt_iff hwhole).mp hlt), hdrop]
    exact ⟨rfl, rfl⟩

theorem dirlinkLoop_spec (h : Loaded sb s dp) (hwhole : (s.itable dp).d.size % DIRENT = 0)
    (n k : ℕ) (hk : k ≤ (s.itable dp).d.size / DIRENT)
    (hn : (s.itable dp).d.size / DIRENT < n + k) :
    Wp (dirlinkLoop sb dp n (DIRENT * k)) s (fun r s' => s' = s ∧
      r = DIRENT * (k + vacant ((s.slots dp).drop k))) E := by
  induction n generalizing k with
  | zero => omega
  | succ n ih =>
    refine Wp.get_seq ?_
    by_cases hlt : k < (s.itable dp).d.size / DIRENT
    · have hrest := ih (k + 1) hlt (by omega)
      rw [Nat.mul_succ] at hrest
      rw [if_pos ((offset_lt_iff hwhole).mpr hlt)]
      refine (readDirent_spec h hlt _).seq ?_
      rintro _ s1 ⟨rfl, rfl⟩
      have hcons : (s1.slots dp).drop k = _ := drop_slots (by rw [eff_dinode_self]; exact hlt)
      split
      · next hfree =>
        rw [hcons, slot, if_pos hfree]
        exact ⟨rfl, rfl⟩
      · next hlive =>
        rw [hcons, slot, if_neg hlive, vacant, Nat.add_comm _ 1, ← Nat.add_assoc]
        exact hrest
    have hdrop : (s.slots dp).drop k = [] := by
      rw [drop_eq_nil_iff, length_kernel_slots]
      omega
    rw [if_neg (mt (offset_lt_iff hwhole).mp hlt), hdrop]
    exact ⟨rfl, rfl⟩

/-! ## References taken and given back -/

/-- `s'` is `s` with a reference to inode `i` through entry `ip`. -/
structure Got (s s' : Kernel) (ip : InodeId) (i : ℕ) : Prop where
  vol : s'.vol = s.vol
  log : s'.log = s.log
  files : s'.files = s.files
  others : ∀ jp, jp ≠ ip → s'.itable jp = s.itable jp
  inum : (s'.itable ip).inum = i
  ref : (s'.itable ip).ref = (s.itable ip).ref + 1
  pos : 1 ≤ (s'.itable ip).ref
  locked : (s'.itable ip).locked = (s.itable ip).locked
  /-- An entry in use keeps the inode it holds. -/
  kept : (s.itable ip).ref ≠ 0 → s'.itable ip = { s.itable ip with ref := (s.itable ip).ref + 1 }
  /-- A new entry has not been read from the disk. -/
  fresh : (s.itable ip).ref = 0 → (s'.itable ip).valid = false
  /-- An inode that is in the table is found there. -/
  found : (∃ jp, 0 < (s.itable jp).ref ∧ (s.itable jp).inum = i) → (s.itable ip).ref ≠ 0

def Kernel.TableFull (s : Kernel) (e : Halt) : Prop :=
  e = .panic "iget: no inodes" ∧ ∀ ip, (s.itable ip).ref ≠ 0

attribute [local simp] setInode

theorem iget_got (inum : ℕ) : Wp (iget inum) s (fun ip s' => Got s s' ip inum) s.TableFull := by
  refine Wp.get_seq ?_
  split
  · next ip hfind =>
    obtain ⟨hpos, hinum⟩ : (s.itable ip).ref > 0 ∧ (s.itable ip).inum = inum := by
      simpa using find?_some hfind
    exact ⟨rfl, rfl, rfl, fun jp hne => update_of_ne hne .., by
      simp [addRef, hinum], by simp [addRef],
      by simp [addRef]; omega, by simp [addRef],
      fun _ => update_self .., fun hz => by omega, fun _ => by omega⟩
  next hnone =>
  split
  · next ip hfind =>
    have hzero : (s.itable ip).ref = 0 := by simpa using find?_some hfind
    refine ⟨rfl, rfl, rfl, fun jp hne => update_of_ne hne .., by
      simp, by simp [hzero], by simp,
      by simp, fun hne => absurd hzero hne, fun _ => by simp,
      ?_⟩
    rintro ⟨jp, hjp⟩
    rw [find?_eq_none] at hnone
    exact absurd (decide_eq_true hjp) (hnone jp (mem_finRange jp))
  next hfind =>
  refine ⟨rfl, fun ip hzero => ?_⟩
  rw [find?_eq_none] at hfind
  exact hfind ip (mem_finRange ip) (decide_eq_true hzero)

/-- The states differ at most in entries of the inode table that are not in use. -/
structure Unchanged (s s' : Kernel) : Prop where
  vol : s'.vol = s.vol
  log : s'.log = s.log
  files : s'.files = s.files
  ref : ∀ jp, (s'.itable jp).ref = (s.itable jp).ref
  used : ∀ jp, (s.itable jp).ref ≠ 0 → s'.itable jp = s.itable jp

theorem Got.iput {ip : InodeId} {inum : ℕ} (h : Got s s' ip inum) :
    Wp (iput sb ip) s' (fun _ s'' => Unchanged s s'') E := by
  have hlast : ¬ ((s'.itable ip).ref = 1 ∧ (s'.itable ip).valid = true ∧
      (s'.itable ip).d.nlink = 0) := by
    rintro ⟨href, hvalid, -⟩
    have hzero : (s.itable ip).ref = 0 := by
      have := h.ref
      omega
    rw [h.fresh hzero] at hvalid
    cases hvalid
  refine Wp.seq (R := fun _ s1 => s1 = s') (Wp.get_seq ?_) ?_
  · dsimp only
    rw [if_neg hlast]
    rfl
  rintro _ s1 rfl
  refine ⟨h.vol, h.log, h.files, fun jp => ?_, fun jp hused => ?_⟩
  · by_cases hj : jp = ip
    · subst hj
      simp [addRef, h.ref]
    · simp [addRef, hj, h.others jp hj]
  by_cases hj : jp = ip
  · subst hj
    simp [addRef, h.kept hused]
  · simp [addRef, hj, h.others jp hj]

theorem Unchanged.eff (h : Unchanged s s') (hused : (s.itable dp).ref ≠ 0) :
    s'.eff dp = s.eff dp := by rw [Kernel.eff, h.vol, h.used dp hused, Kernel.eff]

theorem Unchanged.slots (h : Unchanged s s') (hused : (s.itable dp).ref ≠ 0) :
    s'.slots dp = s.slots dp := by rw [Kernel.slots, h.eff hused, h.used dp hused, Kernel.slots]

/-! ## Looking up a name -/

/-- An operation works on the directory in entry `dp`, which it holds a reference to. -/
structure OnDir (sb : Superblock) (s : Kernel) (dp : InodeId) : Prop extends Ready sb s dp where
  dir : (s.itable dp).d.type = .dir
  whole : (s.itable dp).d.size % DIRENT = 0
  ref : (s.itable dp).ref ≠ 0

theorem OnDir.unchanged (h : OnDir sb s dp) (hsame : Unchanged s s') : OnDir sb s' dp := by
  refine ⟨⟨⟨?_, ?_⟩, ?_⟩, ?_, ?_, ?_⟩
  · rw [hsame.eff h.ref]
    exact h.owned
  · rw [hsame.used dp h.ref]
    exact h.type
  · rw [hsame.log]
    exact h.ops
  · rw [hsame.used dp h.ref]
    exact h.dir
  · rw [hsame.used dp h.ref]
    exact h.whole
  · rw [hsame.ref]
    exact h.ref

theorem dirlookup_spec (h : Loaded sb s dp) (hdir : (s.itable dp).d.type = .dir)
    (hwhole : (s.itable dp).d.size % DIRENT = 0) (name : List UInt8) :
    Wp (dirlookup sb dp name) s (fun r s' => match s.lookup dp name with
      | some (inum, k) => ∃ ip, r = some (ip, DIRENT * k) ∧ Got s s' ip inum
      | none => r = none ∧ s' = s) s.TableFull := by
  refine Wp.get_seq ?_
  rw [if_neg (not_not.mpr hdir)]
  have hloop := dirlookupLoop_spec (E := s.TableFull) h hwhole name
    ((s.itable dp).d.size / DIRENT + 1) 0 (by omega)
  rw [Nat.mul_zero, List.drop_zero] at hloop
  refine hloop.seq ?_
  rintro _ s1 ⟨rfl, rfl⟩
  rw [Kernel.lookup]
  rcases hfind : Slots.find (nameOf name) (s1.slots dp) with _ | ⟨inum, k⟩
  · exact ⟨rfl, rfl⟩
  · refine (iget_got inum).seq fun ip s2 hgot => ?_
    exact ⟨ip, by rw [Nat.zero_add], hgot⟩

/-! ## Writing an entry -/

theorem writeiLoop_whole (ht : (s.itable dp).d.type ≠ .free) {src : Src} {off n : ℕ}
    (hfit : off % BSIZE + n ≤ BSIZE) (hsrc : ∀ k < n, src k ≠ none) (hbn : off / BSIZE < MAXFILE) :
    Returns (writeiLoop sb dp src n n 0 off) s fun r _ =>
      r.1 = n ∨ r.1 = 0 ∧ (s.eff dp).fileBlock (s.itable dp).inum (off / BSIZE) = 0 := by
  have htrivial : ∀ {α : Type} (x : FsM α) (s : Kernel), Returns x s fun _ _ => True := by
    intro α x s
    simp [wp_iff]
  cases n with
  | zero => exact .inl rfl
  | succ n =>
    have hmin : min (n + 1 - 0) (BSIZE - off % BSIZE) = n + 1 := by omega
    have hall : ¬ (src.copyin 0 (n + 1)).length < n + 1 := fun hshort => by
      refine hsrc _ hshort ?_
      simpa using src.copyin_stop 0 (n + 1) hshort
    have hbmap : Returns (bmap sb dp (off / BSIZE)) s fun a _ =>
        a = 0 → (s.eff dp).fileBlock (s.itable dp).inum (off / BSIZE) = 0 := by
      by_cases hmapped : (s.eff dp).fileBlock (s.itable dp).inum (off / BSIZE) = 0
      · exact (htrivial _ _).mono fun _ _ _ _ => hmapped
      · refine (bmap_old ht hbn hmapped).mono ?_
        rintro a s1 ⟨-, rfl⟩ hzero
        exact absurd hzero hmapped
    rw [writeiLoop, if_pos (by omega)]
    refine hbmap.seq fun a s1 ha => ?_
    split
    · next hzero => exact .inr ⟨rfl, ha hzero⟩
    dsimp only
    rw [hmin, if_neg hall]
    refine Wp.modify_seq ((htrivial _ _).seq fun _ s2 _ => ?_)
    cases n with
    | zero => exact .inl (by simp)
    | succ n =>
      rw [writeiLoop, if_neg (by omega)]
      exact .inl (by simp)

theorem writei_whole (ht : (s.itable dp).d.type ≠ .free) {src : Src} {off n : ℕ}
    (hfit : off % BSIZE + n ≤ BSIZE) (hsrc : ∀ k < n, src k ≠ none) (hbn : off / BSIZE < MAXFILE) :
    Returns (writei sb dp src off n) s fun r _ =>
      r = -1 ∨ r = n ∨ r = 0 ∧ (s.eff dp).fileBlock (s.itable dp).inum (off / BSIZE) = 0 := by
  refine Wp.get_seq ?_
  split
  · exact .inl rfl
  split
  · exact .inl rfl
  refine (writeiLoop_whole ht hfit hsrc hbn).seq ?_
  rintro ⟨tot, off'⟩ s1 htot
  have hupdate : Returns (iupdate sb dp) (if off' > (s1.itable dp).d.size then
      s1.setCopy dp { (s1.itable dp).d with size := off' } else s1) fun _ _ => True := by
    simp [wp_iff]
  refine Wp.modify_seq (hupdate.seq fun _ s2 _ => .inr ?_)
  exact htot.imp (fun hn => by simpa using hn) fun h0 => ⟨by simpa using h0.1, h0.2⟩

theorem Dirent.length_toBytes {de : Dirent} (h : de.name.length = DIRSIZ) :
    de.toBytes.length = DIRENT := by simp [toBytes, h, DIRSIZ, DIRENT]

/-- An entry could not be written: there is no such entry yet, and the directory has its largest
size or no block is free. -/
def NoRoom (sb : Superblock) (s s' : Kernel) (dp : InodeId) (k : ℕ) : Prop :=
  k = (s.itable dp).d.size / DIRENT ∧ ((s.itable dp).d.size = MAXFILE * BSIZE ∧ s' = s ∨
    s'.Full sb ∧ ∃ src, Wrote sb s s' dp src (DIRENT * k) 0 0)

theorem writeDirent_spec (hsb : sb.Ok) (h : OnDir sb s dp) (de : Dirent) {k : ℕ}
    (hk : k ≤ (s.itable dp).d.size / DIRENT) :
    Wp (writei sb dp (.kernel de.toBytes) (DIRENT * k) DIRENT) s (fun r s' =>
      r = DIRENT ∧ Wrote sb s s' dp (.kernel de.toBytes) (DIRENT * k) DIRENT 0 ∨
      r ≠ DIRENT ∧ NoRoom sb s s' dp k) E := by
  have hd := eff_dinode_self s dp
  have hmax := h.size_le
  have hwhole := h.whole
  have hend : MAXFILE * BSIZE = 274432 := by decide
  have hbsize : BSIZE = 1024 := rfl
  have hdirent : DIRENT = 16 := rfl
  have hoff : DIRENT * k ≤ (s.itable dp).d.size := by
    unfold DIRENT at *
    omega
  have hnext : (s.itable dp).d.size < DIRENT * k + DIRENT → k = (s.itable dp).d.size / DIRENT := by
    unfold DIRENT at *
    omega
  have hsrc : ∀ j < DIRENT, Src.kernel de.toBytes j ≠ none := fun _ _ => Option.some_ne_none _
  by_cases hlast : MAXFILE * BSIZE < DIRENT * k + DIRENT
  · have hrefused : Refused (s.itable dp).d.size (DIRENT * k) DIRENT := .inr (.inr hlast)
    obtain ⟨r, s', hrun, rfl, rfl⟩ :=
      writei_refused sb (.kernel de.toBytes) (by omega) (by decide) hrefused
    refine wp_iff.mpr ⟨fun r s1 h1 => ?_, fun e he => ?_⟩
    · rw [hrun] at h1
      cases h1
      refine .inr ⟨by decide, hnext (by omega), .inl ⟨?_, rfl⟩⟩
      unfold DIRENT at *
      omega
    · rw [hrun] at he
      cases he
  have hfit : DIRENT * k % BSIZE + DIRENT ≤ BSIZE := by
    rw [hdirent, hbsize]
    omega
  have hbn : DIRENT * k / BSIZE < MAXFILE := by
    rw [Nat.div_lt_iff_lt_mul (by decide)]
    omega
  refine ((writei_spec hsb h.toReady (.kernel de.toBytes) hoff (by omega)).and_returns
    (writei_whole h.type hfit hsrc hbn)).mono ?_
  rintro r s' ⟨⟨len, part, rfl, hcopied, hwrote⟩, hwhole'⟩
  obtain ⟨rfl, hfull⟩ := hcopied.of_readable hsrc
  rcases hwhole' with hneg | hall | ⟨hzero, hempty⟩
  · omega
  · obtain rfl : len = DIRENT := by omega
    exact .inl ⟨rfl, hwrote⟩
  obtain rfl : len = 0 := by omega
  refine .inr ⟨by decide, ?_, .inr ⟨hfull (by decide), _, hwrote⟩⟩
  refine hnext ?_
  by_contra hold
  refine h.owned.mapped_byte (o := DIRENT * k) (by rw [hd]; exact h.type) ?_ hempty
  rw [hd]
  omega

/-! ## The directory after a write -/

namespace Wrote

variable {src : Src} {off len part k : ℕ} {de : Dirent}

variable (h : Wrote sb s s' dp src off len part)

include h

theorem inum_eq :
    (s'.itable dp).inum = (s.itable dp).inum := inum_of_frame (frame_of_rest h.rest) dp

theorem slots_eq :
    s'.slots dp = s'.vol.slots (s.itable dp).inum := by rw [Kernel.slots, h.eff, h.inum_eq]

theorem size_eq :
    (s'.vol.dinode (s.itable dp).inum).size = max (s.itable dp).d.size (off + len) := by
  rw [← h.eff, ← h.inum_eq, eff_dinode_self, h.size]

theorem onDir (hdir : OnDir sb s dp)
    (hwhole : max (s.itable dp).d.size (off + len) % DIRENT = 0) : OnDir sb s' dp := by
  have htype := congrArg Dinode.type h.inode
  change (s'.itable dp).d.type = (s.itable dp).d.type at htype
  have hframe := frame_of_rest h.rest
  refine ⟨⟨⟨?_, ?_⟩, ?_⟩, ?_, ?_, ?_⟩
  · rw [h.eff]
    exact h.owned
  · rw [htype]
    exact hdir.type
  · rw [outstanding_of_frame hframe]
    exact hdir.ops
  · rw [htype]
    exact hdir.dir
  · rw [h.size]
    exact hwhole
  · have href : (s'.itable dp).ref = (s.itable dp).ref := congrArg (fun x => x.1.ref dp) hframe
    rw [href]
    exact hdir.ref

omit h

theorem slots_nothing (h : Wrote sb s s' dp src off 0 0) (hoff : off ≤ (s.itable dp).d.size) :
    s'.slots dp = s.slots dp := by
  have hd := eff_dinode_self s dp
  rw [h.slots_eq]
  refine slots_congr ?_ fun o ho => h.outside o (by omega) (by rwa [hd] at ho)
  rw [h.size_eq, hd]
  omega

theorem slots_put (h : Wrote sb s s' dp (.kernel de.toBytes) (DIRENT * k) DIRENT 0)
    (hk : k ≤ (s.itable dp).d.size / DIRENT) (hname : de.name.length = DIRSIZ)
    (hinum : de.inum < 2 ^ 16) : s'.slots dp = Slots.put (s.slots dp) k de.slot := by
  have hd := eff_dinode_self s dp
  have hsize := h.size_eq
  have hlen := Dirent.length_toBytes hname
  have hself : s'.vol.entry (s.itable dp).inum k = de := by
    have hbytes : s'.vol.bytes (s.itable dp).inum (DIRENT * k) DIRENT = de.toBytes := by
      refine List.ext_getElem? fun j => ?_
      rw [Volume.getElem?_bytes]
      split
      · next hj =>
        rw [h.inside _ (Nat.le_add_right _ _) (by omega), Nat.add_sub_cancel_left, Src.from,
          Nat.zero_add, Src.kernel, Option.getD_some, List.getD_eq_getElem?_getD,
          List.getElem?_eq_getElem (by omega), Option.getD_some]
      · rw [List.getElem?_eq_none (by omega)]
    rw [Volume.entry, hbytes, Dirent.ofBytes_toBytes hinum]
  rw [h.slots_eq]
  refine List.ext_getElem? fun j => ?_
  rw [Slots.getElem?_put (by rw [length_kernel_slots]; exact hk), Volume.getElem?_slots, hsize,
    Kernel.slots, Volume.getElem?_slots, hd]
  have hend : max (s.itable dp).d.size (DIRENT * k + DIRENT) / DIRENT =
      max ((s.itable dp).d.size / DIRENT) (k + 1) := by
    unfold DIRENT at *
    omega
  rw [hend]
  by_cases hj : j = k
  · subst hj
    rw [if_pos (by omega), if_pos rfl, hself]
  rw [if_neg hj]
  by_cases hlt : j < (s.itable dp).d.size / DIRENT
  · rw [if_pos (by omega), if_pos hlt, Volume.entry_congr fun o hlow hhigh =>
      h.outside o (by unfold DIRENT at *; omega) (by unfold DIRENT at *; omega)]
  · rw [if_neg (by omega), if_neg hlt]

end Wrote

/-! ## Entering a name -/

theorem dirlink_spec (hsb : sb.Ok) (h : OnDir sb s dp) (name : List UInt8) (inum : ℕ) :
    Wp (dirlink sb dp name inum) s (fun r s' => match s.lookup dp name with
      | some _ => r = -1 ∧ Unchanged s s'
      | none => r = 0 ∧ OnDir sb s' dp ∧ s'.slots dp = put (s.slots dp)
          (vacant (s.slots dp)) (slot ⟨inum % 2 ^ 16, strncpy DIRSIZ name⟩) ∨
        r = -1 ∧ NoRoom sb s s' dp (vacant (s.slots dp))) s.TableFull := by
  refine (dirlookup_spec h.toLoaded h.dir h.whole name).seq fun r s1 hr => ?_
  rcases hfound : s.lookup dp name with _ | ⟨found, k⟩
  · rw [hfound] at hr
    obtain ⟨rfl, rfl⟩ := hr
    refine Wp.get_seq ?_
    have hloop := dirlinkLoop_spec (E := s1.TableFull) h.toLoaded h.whole
      ((s1.itable dp).d.size / DIRENT + 1) 0 (Nat.zero_le _) (by omega)
    rw [Nat.mul_zero, drop_zero, Nat.zero_add] at hloop
    refine hloop.seq ?_
    rintro _ s2 ⟨rfl, rfl⟩
    have hk : vacant (s2.slots dp) ≤ (s2.itable dp).d.size / DIRENT := by
      rw [← length_kernel_slots]
      exact vacant_le _
    refine (writeDirent_spec hsb h ⟨inum % 2 ^ 16, strncpy DIRSIZ name⟩ hk).seq ?_
    rintro r s3 (⟨rfl, hwrote⟩ | ⟨hne, hroom⟩)
    · rw [if_neg (by simp)]
      refine .inl ⟨rfl, hwrote.onDir h ?_, hwrote.slots_put hk (length_strncpy ..)
        (Nat.mod_lt _ (by decide))⟩
      have hwhole := h.whole
      unfold DIRENT at *
      omega
    · rw [if_pos hne]
      exact .inr ⟨rfl, hroom⟩
  rw [hfound] at hr
  obtain ⟨ip, rfl, hgot⟩ := hr
  refine hgot.iput.seq fun _ s2 hsame => ?_
  exact ⟨rfl, hsame⟩

end Xv6.Fs

import Xv6.Fs.Books
import Xv6.Fs.SyscallLedger

/-!
# System calls are resource-balanced

`Balanced` says that the books of a state balance and that no inode is locked.
-/

namespace Xv6.Fs

open Hoare Tally Function File Wp Ledger

variable (sb : Superblock)

/-- The books of a state in the middle of a call, with its locks and the number of operations. -/
structure Holds (s : Kernel) (hi : InodeId → ℤ) (hf : FileId → ℤ) (new : Finset FileId)
    (locked : InodeId → Bool) (n : ℤ) : Prop where
  books : Books s.ledger hi hf new
  locks : s.ledger.locked = locked
  ops : s.ledger.outstanding = n

variable {s : Kernel} {hi : InodeId → ℤ} {hf : FileId → ℤ} {new : Finset FileId}
  {locked : InodeId → Bool} {n : ℤ}

variable {s' : Kernel}

theorem Holds.of_ledger (h : Holds s hi hf new locked n) (hs : s'.ledger = s.ledger) :
    Holds s' hi hf new locked n := ⟨hs ▸ h.books, hs ▸ h.locks, hs ▸ h.ops⟩

theorem Holds.setFiles (h : Holds s hi hf new locked n) {fs : Files} {hi' : InodeId → ℤ}
    {hf' : FileId → ℤ} {new' : Finset FileId}
    (hb : Books (s.ledger.withFiles fs) hi' hf' new') :
    Holds { s with files := fs } hi' hf' new' locked n := ⟨hb, h.locks, h.ops⟩

/-! ## Files -/

theorem holds_filealloc (h : Holds s hi hf new locked n) :
    Returns filealloc s fun r s' => s'.files.proc = s.files.proc ∧
      match r with
      | some f => f ∉ new ∧ Holds s' hi (bump hf f 1) (insert f new) locked n
      | none => s' = s := by
  refine get_seq ?_
  split
  · next f hfind =>
    have href : (s.files.ftable f).ref = 0 := by simpa using List.find?_some hfind
    have htype : (s.files.ftable f).type = .none := (h.books.free f).mpr (.inl href)
    refine ⟨rfl, fun hf => ?_,
      h.setFiles (h.books.setFile f ?_ (fun ip => ?_) (fun pi w => ?_) ?_ ?_ ?_)⟩
    · have hone : (s.files.ftable f).ref = 1 := h.books.one f hf
      omega
    · change (1 : ℤ) = (s.files.ftable f).ref + 1
      omega
    · change hi ip = hi ip + ((s.files.ftable f).uses ip).toNat - _
      simp [uses, htype]
    · change endOf pi w { s.files.ftable f with ref := 1 } = (s.files.ftable f).endOf pi w
      simp [endOf, htype]
    · simp [htype]
    · exact fun _ => rfl
    · intro g hg
      simp [hg]
  · exact ⟨rfl, rfl⟩

theorem Pipe.isOpen_close (pi : Pipe) (w w' : Bool) :
    (pi.close w).isOpen w' = (pi.isOpen w' && w' != w) := by
  obtain ⟨r, o, k⟩ := pi
  cases w <;> cases w' <;> cases r <;> cases o <;> rfl

theorem Pipe.kfrees_close {pi : Pipe} {w : Bool} (hopen : pi.isOpen w = true)
    (h : pi.kfrees = (!pi.readopen && !pi.writeopen).toNat) :
    (pi.close w).kfrees = (!(pi.close w).readopen && !(pi.close w).writeopen).toNat := by
  obtain ⟨r, o, k⟩ := pi
  cases w <;> cases r <;> cases o <;> simp_all [Pipe.close, Pipe.isOpen]

variable {f : FileId} {l : Ledger}

theorem Books.closePipe (h : Books l hi hf new)
    (href : (l.files.ftable f).ref = 1) (htype : (l.files.ftable f).type = .pipe) :
    let ff := l.files.ftable f
    Books (l.withFiles ((l.files.setFile f { ff with ref := 0, type := .none }).setPipe ff.pipe
      ((l.files.pipe ff.pipe).close ff.writable))) hi (bump hf f (-1)) (new.erase f) := by
  intro ff
  have hend : ∀ w, ff.endOf ff.pipe w = decide (ff.writable = w) := by
    intro w
    simp [endOf, ff, href, htype]
  have hopen : (l.files.pipe ff.pipe).isOpen ff.writable = true := by
    have hpos : 0 < l.files.ends ff.pipe ff.writable := tally_pos_of (i := f) (by rw [hend]; simp)
    rw [h.ends] at hpos
    cases hb : (l.files.pipe ff.pipe).isOpen ff.writable with
    | true => rfl
    | false => simp [hb] at hpos
  have hrange : ff.pipe < l.files.npipe := by
    by_contra hle
    rw [h.fresh _ (by omega)] at hopen
    cases hopen
  refine h.setFilePipe f (by simp [href]) (fun ip => ?_) (fun w => ?_) (fun pj hj w => ?_)
    (fun _ => Pipe.kfrees_close hopen (h.freed _ hrange)) (fun hle => by omega) ?_ ?_ ?_
  · simp [uses, htype]
  · rw [Pipe.isOpen_close, hend w]
    by_cases hw : ff.writable = w
    · subst hw
      simp [hopen, endOf]
    · have hne : (w != ff.writable) = true := by simpa using Ne.symm hw
      simp [hw, hne, endOf]
  · simp [endOf, ff, Ne.symm hj]
  · simp
  · simp
  · intro g hg
    simp [hg]

theorem Books.closeFile (h : Books l hi hf new) {hi' : InodeId → ℤ}
    (href : (l.files.ftable f).ref = 1) (htype : (l.files.ftable f).type ≠ .pipe)
    (hinode : ∀ ip, hi' ip = hi ip + ((l.files.ftable f).uses ip).toNat) :
    Books (l.withFiles (l.files.setFile f { l.files.ftable f with ref := 0, type := .none }))
      hi' (bump hf f (-1)) (new.erase f) := by
  refine h.setFile f (by simp [href]) (fun ip => ?_) (fun pi w => ?_) ?_ ?_ ?_
  · rw [hinode]
    simp [uses]
  · simp [endOf, htype]
  · simp
  · simp
  · intro g hg
    simp [hg]

theorem Books.dropRef (h : Books l hi hf new)
    (href : 1 < (l.files.ftable f).ref) :
    Books (l.withFiles (l.files.setFile f
      { l.files.ftable f with ref := (l.files.ftable f).ref - 1 })) hi (bump hf f (-1))
      (new.erase f) := by
  have hold : f ∉ new := fun hf => by
    have := h.one f hf
    omega
  have htype : (l.files.ftable f).type ≠ .none := by
    intro ht
    rcases (h.free f).mp ht with h0 | h0
    · omega
    · exact hold h0
  have hpos : 0 < (l.files.ftable f).ref := by omega
  refine h.setFile f (by simp [sub_eq_add_neg]) (fun ip => ?_) (fun pi w => ?_) ?_ ?_ ?_
  · simp [uses, href, hpos]
  · simp [endOf, href, hpos]
  · simp only [Finset.mem_erase, ne_eq, not_true_eq_false, false_and, or_false]
    exact ⟨fun ht => absurd ht htype, fun h0 => by omega⟩
  · simp
  · intro g hg
    simp [hg]

variable {ip : InodeId}

theorem holds_putClosed (h : Holds s (bump hi ip 1) hf new locked n) :
    Returns (do beginOp; iput sb ip; endOp) s fun _ s' => s'.files = s.files ∧
      Holds s' hi hf new locked n := by
  refine (ledger_beginOp s).seq fun _ s1 h1 => ?_
  refine (ledger_iput s1 ip sb).seq fun _ s2 h2 => ?_
  refine (ledger_endOp s2).mono fun _ s3 h3 => ?_
  have hs : s3.ledger = s.ledger.addRef ip (-1) := by
    rw [h3, h2, h1]
    simp
  refine ⟨congrArg files hs, ?_, ?_, ?_⟩
  · rw [hs]
    simpa using h.books.addRef ip (-1)
  · rw [hs]
    exact h.locks
  · rw [hs]
    exact h.ops

theorem holds_fileclose (f : FileId) (h : Holds s hi hf new locked n) :
    Returns (fileclose sb f) s fun _ s' => s'.files.proc = s.files.proc ∧
      s'.files.initproc = s.files.initproc ∧
      Holds s' hi (bump hf f (-1)) (new.erase f) locked n := by
  refine get_seq ?_
  dsimp only
  split
  · trivial
  next hlow =>
  split
  · next hmore =>
    have href : 1 < (s.ledger.files.ftable f).ref := by
      change 1 < (s.files.ftable f).ref
      omega
    exact ⟨rfl, rfl, h.setFiles (h.books.dropRef href)⟩
  next hlast =>
  have href : (s.files.ftable f).ref = 1 := by omega
  -- The inode a closed file was on has one reference too many until it is put.
  have hclosed : (s.files.ftable f).type ≠ .pipe → ∀ hi' : InodeId → ℤ,
      (∀ ip, hi' ip = hi ip + ((s.files.ftable f).uses ip).toNat) →
      Holds (s.setFile f { s.files.ftable f with ref := 0, type := .none }) hi'
        (bump hf f (-1)) (new.erase f) locked n :=
    fun htype hi' hinode => h.setFiles (h.books.closeFile href htype hinode)
  have hinode : (s.files.ftable f).type = .inode ∨ (s.files.ftable f).type = .device →
      ∀ ip, bump hi (s.files.ftable f).ip 1 ip = hi ip + ((s.files.ftable f).uses ip).toNat := by
    intro htype ip
    rw [bump_apply]
    by_cases hip : ip = (s.files.ftable f).ip
    · simp [uses, href, htype, hip]
    · simp [uses, hip, Ne.symm hip]
  refine modify_seq ?_
  split
  · next htype => exact ⟨rfl, rfl, h.setFiles (h.books.closePipe href htype)⟩
  · next htype =>
    refine (holds_putClosed sb (hclosed (by simp [htype]) _ (hinode (.inl htype)))).mono ?_
    rintro _ s1 ⟨hfiles, h1⟩
    exact ⟨by rw [hfiles]; rfl, by rw [hfiles]; rfl, h1⟩
  · next htype =>
    refine (holds_putClosed sb (hclosed (by simp [htype]) _ (hinode (.inr htype)))).mono ?_
    rintro _ s1 ⟨hfiles, h1⟩
    exact ⟨by rw [hfiles]; rfl, by rw [hfiles]; rfl, h1⟩
  · next htype => exact ⟨rfl, rfl, hclosed (by simp [htype]) hi fun ip => by simp [uses, htype]⟩

theorem holds_fdalloc (p : ProcId) (f : FileId) (h : Holds s hi hf new locked n)
    (hp : (s.files.proc p).state ≠ .unused) :
    Returns (fdalloc p f) s fun r s' => match r with
      | some fd => (s.files.proc p).ofile fd = none ∧ s' = s.setOfile p fd (some f) ∧
          Holds s' hi (bump hf f (-1)) new locked n
      | none => s' = s := by
  refine get_seq ?_
  split
  · next fd hfind =>
    have hfd : (s.files.proc p).ofile fd = none := by simpa using List.find?_some hfind
    exact ⟨hfd, rfl, h.setFiles (h.books.openFd f hp hfd)⟩
  · rfl

theorem Holds.closeFd (h : Holds s hi hf new locked n) {p : ProcId} {fd : Fin NOFILE}
    (hfd : (s.files.proc p).ofile fd = some f) :
    Holds (s.setOfile p fd none) hi (bump hf f 1) new locked n := h.setFiles (h.books.closeFd hfd)

theorem Books.dupFile (h : Books l hi hf new) (hf' : f ∉ new)
    (href : 0 < (l.files.ftable f).ref) :
    Books (l.withFiles (l.files.setFile f
      { l.files.ftable f with ref := (l.files.ftable f).ref + 1 })) hi (bump hf f 1) new := by
  have htype : (l.files.ftable f).type ≠ .none := by
    intro ht
    rcases (h.free f).mp ht with h0 | h0
    · omega
    · exact hf' h0
  have hpos : 0 < (l.files.ftable f).ref + 1 := by omega
  refine h.setFile f rfl (fun ip => ?_) (fun pi w => ?_) ?_ (fun h0 => absurd h0 hf')
    fun g _ => Iff.rfl
  · simp [uses, href, hpos]
  · simp [endOf, href, hpos]
  · simp only [htype, hf', or_false, false_iff]
    omega

theorem holds_filedup (f : FileId) (h : Holds s hi hf new locked n) (hf' : f ∉ new) :
    Returns (filedup f) s fun _ s' => s'.files.proc = s.files.proc ∧
      Holds s' hi (bump hf f 1) new locked n := by
  refine get_seq ?_
  split
  · trivial
  next href =>
  have hpos : 0 < (s.ledger.files.ftable f).ref := by
    change 0 < (s.files.ftable f).ref
    omega
  exact ⟨rfl, h.setFiles (h.books.dupFile hf' hpos)⟩

theorem holds_giveUp (hfree : locked ip = false)
    (h : Holds s (bump hi ip 1) hf new (update locked ip true) n) :
    Returns (iunlockput sb ip) s fun _ s' => Holds s' hi hf new locked n := by
  refine (ledger_iunlockput s ip sb).mono fun _ s1 h1 => ⟨?_, ?_, ?_⟩
  · rw [h1]
    simpa using (h.books.addRef ip (-1)).setLock ip false
  · rw [h1]
    simp [h.locks, ← hfree]
  · rw [h1]
    exact h.ops

theorem holds_endWith (r : ℤ) (h : Holds s hi hf new locked (n + 1)) :
    Returns (do endOp; pure r : FsM ℤ) s fun _ s' => Holds s' hi hf new locked n := by
  refine (ledger_endOp s).seq fun _ s1 h1 => ⟨?_, ?_, ?_⟩
  · rw [h1]
    exact h.books.addOps (-1)
  · rw [h1]
    exact h.locks
  rw [h1]
  have := h.ops
  simp only [addOps]
  omega

/-! ## The calls on descriptors -/

/-- Between calls every count is the number of its holders and no inode is locked. -/
structure Balanced (s : Kernel) : Prop where
  unlocked : ∀ ip, (s.itable ip).locked = false
  file : ∀ f, (s.files.ftable f).ref = s.files.descriptors f
  free : ∀ f, (s.files.ftable f).ref = 0 ↔ (s.files.ftable f).type = .none
  /-- An inode has one reference for each file in use on it and each process in it. -/
  inode : ∀ ip, (s.itable ip).ref = s.files.onInode ip + s.files.inDir ip
  idle : ∀ p, (s.files.proc p).state = .unused →
    (∀ fd, (s.files.proc p).ofile fd = none) ∧ (s.files.proc p).cwd = none
  ends : ∀ pi w, s.files.ends pi w = ((s.files.pipe pi).isOpen w).toNat
  /-- The page of a pipe was freed once if no descriptor of either end is left, and not before. -/
  freed : ∀ pi < s.files.npipe, (s.files.pipe pi).kfrees =
    (!(s.files.pipe pi).readopen && !(s.files.pipe pi).writeopen).toNat
  fresh : ∀ pi, s.files.npipe ≤ pi → ∀ w, (s.files.pipe pi).isOpen w = false

theorem Balanced.books (h : Balanced s) : Books s.ledger (fun _ => 0) (fun _ => 0) ∅ where
  inode ip := (h.inode ip).trans (add_zero _).symm
  file f := (h.file f).trans (add_zero _).symm
  free f := (h.free f).symm.trans (by simp [Kernel.ledger])
  one f hf := by simp at hf
  idle := h.idle
  ends := h.ends
  freed := h.freed
  fresh := h.fresh

theorem Books.balanced (h : Books s.ledger (fun _ => 0) (fun _ => 0) ∅)
    (hlocks : ∀ ip, (s.itable ip).locked = false) : Balanced s where
  unlocked := hlocks
  file f := (h.file f).trans (add_zero _)
  free f := by simpa [Kernel.ledger] using (h.free f).symm
  inode ip := (h.inode ip).trans (add_zero _)
  idle := h.idle
  ends := h.ends
  freed := h.freed
  fresh := h.fresh

/-- What every call leaves behind: balanced books and the operations that were open before. -/
def Settles (s : Kernel) (s' : Kernel) : Prop :=
  Balanced s' ∧ s'.log.outstanding = s.log.outstanding

abbrev Clear (s : Kernel) (n : ℤ) : Prop :=
  Holds s (fun _ => 0) (fun _ => 0) ∅ (fun _ => false) n

theorem Balanced.clear (h : Balanced s) : Clear s s.log.outstanding :=
  ⟨h.books, funext h.unlocked, rfl⟩

theorem Holds.settles (h : Clear s' s.log.outstanding) : Settles s s' :=
  ⟨h.books.balanced fun ip => congrFun h.locks ip, h.ops⟩

theorem Balanced.of_ledger (h : Balanced s) (hs : s'.ledger = s.ledger) : Settles s s' :=
  (h.clear.of_ledger hs).settles

theorem settles_sysDup (p : ProcId) (fd : ℤ) (h : Balanced s)
    (hp : (s.files.proc p).state ≠ .unused) : Returns (sysDup p fd) s fun _ s' => Settles s s' := by
  refine get_seq ?_
  split
  · exact h.of_ledger rfl
  next _ f _ =>
  refine (holds_fdalloc p f h.clear hp).seq fun r s1 h1 => ?_
  split
  · rw [h1]
    exact h.of_ledger rfl
  refine (holds_filedup f h1.2.2 (by simp)).seq fun _ s2 h2 => ?_
  have h2 := h2.2
  simp only [bump_bump, Int.reduceNeg, neg_add_cancel, bump_zero] at h2
  exact h2.settles

theorem argfd_eq_some {p : ProcId} {fd : ℤ} {n : Fin NOFILE}
    (h : argfd s p fd = some (n, f)) : (s.files.proc p).ofile n = some f := by
  unfold argfd at h
  split at h
  · simp only [Option.map_eq_some_iff, Prod.mk.injEq] at h
    obtain ⟨g, hg, rfl, rfl⟩ := h
    exact hg
  · cases h

theorem settles_sysClose (p : ProcId) (fd : ℤ) (h : Balanced s) :
    Returns (sysClose sb p fd) s fun _ s' => Settles s s' := by
  refine get_seq ?_
  split
  · exact h.of_ledger rfl
  next fd f hfd =>
  refine modify_seq ?_
  refine (holds_fileclose sb f (h.clear.closeFd (argfd_eq_some hfd))).seq fun _ s1 h1 => ?_
  have h1 := h1.2.2
  simp only [bump_bump, Int.reduceNeg, add_neg_cancel, bump_zero, Finset.erase_empty] at h1
  exact h1.settles

/-! ## open and chdir -/

theorem Balanced.created (h : Balanced s) (hs : Created (s.ledger.addOps 1) (some ip) s') :
    Holds s' (bump (fun _ => 0) ip 1) (fun _ => 0) ∅ (update (fun _ => false) ip true)
      (s.log.outstanding + 1) := by
  obtain ⟨-, hs⟩ := hs
  refine ⟨?_, ?_, ?_⟩
  · rw [hs]
    exact ((h.books.addOps 1).addRef ip 1).setLock ip true
  · rw [hs]
    simp [h.clear.locks]
  · rw [hs]
    rfl

theorem holds_openAlloc (p : ProcId) (h : Holds s hi hf ∅ locked n)
    (hp : (s.files.proc p).state ≠ .unused) :
    Returns (openAlloc sb p) s fun r s' => match r with
      | some (f, _) => Holds s' hi hf {f} locked n
      | none => Holds s' hi hf ∅ locked n := by
  refine (holds_filealloc h).seq fun r s1 h1 => ?_
  obtain ⟨hproc, h1⟩ := h1
  split
  · rw [h1]
    exact h
  next f =>
  refine (holds_fdalloc p f h1.2 (by rw [hproc]; exact hp)).seq fun r s2 h2 => ?_
  split
  · subst h2
    refine (holds_fileclose sb f h1.2).seq fun _ s3 h3 => ?_
    have h3 := h3.2.2
    simpa using h3
  · have h2 := h2.2.2
    simpa using h2

theorem Books.openInode {file : File}
    (h : Books l (bump hi ip 1) hf {f}) (href : file.ref = (l.files.ftable f).ref)
    (htype : file.type = .inode ∨ file.type = .device) (hip : file.ip = ip) :
    Books (l.withFiles (l.files.setFile f file)) hi hf ∅ := by
  have hone : (l.files.ftable f).ref = 1 := h.one f (by simp)
  have hnone : (l.files.ftable f).type = .none := (h.free f).mpr (.inr (by simp))
  have hne : file.type ≠ .none ∧ file.type ≠ .pipe := by rcases htype with ht | ht <;> simp [ht]
  have hsame : bump hf f 0 = hf := bump_zero hf f
  rw [← hsame]
  refine h.setFile f (by simp [href]) (fun jp => ?_) (fun pi w => ?_) ?_ (by simp)
    fun g hg => by simp [hg]
  · rw [bump_apply]
    by_cases hj : jp = ip
    · simp [uses, href, hone, hnone, htype, hip, hj]
    · simp [uses, hnone, hip, hj, Ne.symm hj]
  · simp [endOf, hnone, hne.2]
  · simp [hne.1, href, hone]

theorem File.openOn_ref (file : File) (ip : InodeId) (d : Dinode) (omode : ℕ) :
    (file.openOn ip d omode).ref = file.ref := by
  unfold openOn
  split <;> rfl

theorem File.openOn_type (file : File) (ip : InodeId) (d : Dinode) (omode : ℕ) :
    (file.openOn ip d omode).type = .inode ∨ (file.openOn ip d omode).type = .device := by
  unfold openOn
  split
  · exact .inr rfl
  · exact .inl rfl

theorem settles_sysOpenBad {s1 : Kernel} (h : Holds s1 (bump (fun _ => 0) ip 1) (fun _ => 0) ∅
      (update (fun _ => false) ip true) (s.log.outstanding + 1)) :
    Returns (sysOpenBad sb ip) s1 fun _ s' => Settles s s' := by
  refine (holds_giveUp sb rfl h).seq fun _ s2 h2 => ?_
  exact (holds_endWith _ h2).mono fun _ _ h3 => h3.settles

theorem settles_sysOpenInode {s1 : Kernel} (p : ProcId) (omode : ℕ)
    (h : Holds s1 (bump (fun _ => 0) ip 1) (fun _ => 0) ∅
      (update (fun _ => false) ip true) (s.log.outstanding + 1))
    (hp : (s1.files.proc p).state ≠ .unused) :
    Returns (sysOpenInode sb p ip omode) s1 fun _ s' => Settles s s' := by
  refine get_seq ?_
  dsimp only
  split
  · exact settles_sysOpenBad sb h
  refine (holds_openAlloc sb p h hp).seq fun r s2 h2 => ?_
  split
  · exact settles_sysOpenBad sb h2
  next f fd =>
  refine modify_seq ?_
  have hopen := h2.setFiles (h2.books.openInode
    (openOn_ref _ ip (s1.itable ip).d omode) (openOn_type ..) rfl)
  have htrunc : Keeps Kernel.frame (openTrunc sb ip omode (s1.itable ip).d.type) :=
    Keeps.ite ((blind_frame ip).itrunc sb) (Keeps.pure _)
  refine (ledger_of_keeps _ htrunc).seq fun _ s3 h3 => ?_
  have h3 := hopen.of_ledger h3
  refine (ledger_iunlock s3 ip).seq fun _ s4 h4 => ?_
  refine (holds_endWith (n := s.log.outstanding) fd ⟨?_, ?_, ?_⟩).mono fun _ _ h5 => h5.settles
  · rw [h4]
    exact h3.books.setLock ip false
  · rw [h4]
    simp [h3.locks]
  · rw [h4]
    exact h3.ops

theorem settles_sysOpen (p : ProcId) (path : Option (List UInt8)) (omode : ℕ) (h : Balanced s)
    (hp : (s.files.proc p).state ≠ .unused) :
    Returns (sysOpen sb p path omode) s fun _ s' => Settles s s' := by
  cases path with
  | none => exact h.of_ledger rfl
  | some path =>
    -- The inode the call works on was found by `create` or by `namei`; the rest is the same.
    have hproc : ∀ {s' : Kernel} {ip : InodeId}, Created (s.ledger.addOps 1) (some ip) s' →
        (s'.files.proc p).state ≠ .unused := by
      intro s' ip hs'
      have hfiles : s'.files = s.files := congrArg files hs'.2
      rw [hfiles]
      exact hp
    have hfail : ∀ {s' : Kernel}, s'.ledger = s.ledger.addOps 1 →
        Returns (do endOp; pure (-1) : FsM ℤ) s' fun _ s'' => Settles s s'' :=
      fun hs' => (ledger_endWith _ hs').mono fun _ _ h1 => h.of_ledger h1
    refine (ledger_beginOp s).seq fun _ s1 h1 => ?_
    split
    · refine (ledger_create sb s1 p path .file 0 0).seq fun r s2 h2 => ?_
      rw [h1] at h2
      split
      · exact hfail h2
      · exact settles_sysOpenInode sb p omode (h.created h2) (hproc h2)
    refine (ledger_namei s1 sb p path).seq fun r s2 h2 => ?_
    rw [h1] at h2
    split
    · exact hfail h2
    refine (ledger_lock sb h2).seq fun _ s3 h3 => ?_
    refine get_seq ?_
    split
    · exact settles_sysOpenBad sb (h.created h3)
    · exact settles_sysOpenInode sb p omode (h.created h3) (hproc h3)

theorem Books.chdir {p : ProcId} {old ip : InodeId}
    (h : Books l (bump (bump (fun _ => 0) ip 1) old (-1)) hf new)
    (hp : (l.files.proc p).state ≠ .unused) (hcwd : (l.files.proc p).cwd = some old) :
    Books (l.withFiles (l.files.setProc p { l.files.proc p with cwd := some ip })) (fun _ => 0) hf
      new := by
  refine h.setProc p (fun jp => ?_) (fun g => ?_) fun hu => absurd hu hp
  · simp only [bump_apply, Proc.inDir, hcwd, Option.some.injEq, eq_comm (a := jp)]
    by_cases ho : old = jp <;> by_cases hi : ip = jp <;> simp [ho, hi]
  · simp [Proc.descriptors]

theorem settles_sysChdir (p : ProcId) (path : Option (List UInt8)) (h : Balanced s)
    (hp : (s.files.proc p).state ≠ .unused) :
    Returns (sysChdir sb p path) s fun _ s' => Settles s s' := by
  refine (ledger_beginOp s).seq fun _ s1 h1 => ?_
  have hfail : ∀ {s' : Kernel}, s'.ledger = s.ledger.addOps 1 →
      Returns (do endOp; pure (-1) : FsM ℤ) s' fun _ s'' => Settles s s'' :=
    fun hs' => (ledger_endWith _ hs').mono fun _ _ h2 => h.of_ledger h2
  cases path with
  | none => exact hfail h1
  | some path =>
    refine (ledger_namei s1 sb p path).seq fun r s2 h2 => ?_
    rw [h1] at h2
    split
    · exact hfail h2
    next ip =>
    refine (ledger_lock sb h2).seq fun _ s3 h3 => ?_
    obtain ⟨hfree, h3⟩ := h3
    refine get_seq ?_
    split
    · exact (ledger_giveUp sb hfree h3).seq fun _ _ h4 => hfail h4
    refine (ledger_iunlock s3 ip).seq fun _ s4 h4 => ?_
    split
    · trivial
    next cwd hcwd =>
    refine (ledger_iput s4 cwd sb).seq fun _ s5 h5 => ?_
    refine (ledger_endOp s5).seq fun _ s6 h6 => ?_
    have hs : s6.ledger = (s.ledger.addRef ip 1).addRef cwd (-1) := by
      simp only [addOps_locked] at hfree
      rw [h6, h5, h4, h3]
      simp [hfree]
    have hfiles3 : s3.files = s.files := congrArg files h3
    have hfiles : s6.files = s.files := congrArg files hs
    have h6 : Holds s6 (bump (bump (fun _ => 0) ip 1) cwd (-1)) (fun _ => 0) ∅
        (fun _ => false) s.log.outstanding := by
      refine ⟨?_, ?_, ?_⟩
      · rw [hs]
        exact (h.books.addRef ip 1).addRef cwd (-1)
      · rw [hs]
        exact h.clear.locks
      · rw [hs]
        exact h.clear.ops
    refine modify_seq (h6.setFiles (h6.books.chdir (p := p) ?_ ?_)).settles
    · change (s6.files.proc p).state ≠ .unused
      rw [hfiles]
      exact hp
    · change (s6.files.proc p).cwd = some cwd
      rw [hfiles, ← hfiles3]
      exact hcwd

end Xv6.Fs

import Xv6.Fs.Ledger
import Xv6.Fs.Syscall

/-!
# What the calls on paths give back

`create` returns with one reference to a locked inode; `sys_link`, `sys_unlink`, `sys_mkdir`,
`sys_mknod` and `kexec` leave the ledger as it was, on every path through them.
-/

namespace Xv6.Fs

open Hoare Keeps Kernel

variable (sb : Superblock)

theorem ledger_beginOp (s : Kernel) :
    Returns beginOp s fun _ s' => s'.ledger = s.ledger.addOps 1 := rfl

theorem ledger_endOp (s : Kernel) :
    Returns endOp s fun _ s' => s'.ledger = s.ledger.addOps (-1) := rfl

theorem keeps_addLinks (ip : InodeId) (k : ℤ) : Keeps frame (addLinks sb ip k) :=
  bind ((blind_frame ip).setCopy _) fun _ => (blind_frame ip).iupdate sb ip

theorem keeps_addLinksOfParent (dp : InodeId) (type : FileType) (k : ℤ) :
    Keeps frame (addLinksOfParent sb dp type k) := ite (keeps_addLinks sb dp k) (pure _)

variable {s : Kernel} {l : Ledger} {ip : InodeId}

theorem ledger_giveUp (hfree : l.locked ip = false)
    (h : s.ledger = (l.addRef ip 1).setLock ip true) :
    Returns (iunlockput sb ip) s fun _ s' => s'.ledger = l := by
  refine (ledger_iunlockput s ip sb).mono fun _ s1 h1 => ?_
  rw [h1, h]
  simp [hfree]

theorem ledger_lock (h : s.ledger = l.addRef ip 1) : Returns (ilock sb ip) s fun _ s' =>
      l.locked ip = false ∧ s'.ledger = (l.addRef ip 1).setLock ip true := by
  refine (ledger_ilock s ip sb).mono fun _ s1 h1 => ?_
  rw [h] at h1
  exact h1

theorem ledger_endWith (r : ℤ) (h : s.ledger = l.addOps 1) :
    Returns (do endOp; pure r : FsM ℤ) s fun _ s' => s'.ledger = l := by
  refine (ledger_endOp s).seq fun _ s1 h1 => ?_
  rw [wp_pure, h1, h]
  simp

theorem ledger_giveUpEnd (r : ℤ)
    (hfree : l.locked ip = false) (h : s.ledger = ((l.addRef ip 1).setLock ip true).addOps 1) :
    Returns (do iunlockput sb ip; endOp; pure r : FsM ℤ) s fun _ s' => s'.ledger = l :=
  (ledger_giveUp sb (l := l.addOps 1) hfree h).seq fun _ _ h1 => ledger_endWith r h1

/-! ## Links -/

theorem ledger_sysLinkBad (h : s.ledger = (l.addRef ip 1).addOps 1) :
    Returns (sysLinkBad sb ip) s fun _ s' => s'.ledger = l := by
  refine (ledger_lock sb (l := l.addOps 1) h).seq fun _ s1 h1 => ?_
  refine (ledger_of_keeps s1 (keeps_addLinks sb ip _)).seq fun _ s2 h2 => ?_
  exact ledger_giveUpEnd sb (-1) h1.1 (h2.trans h1.2)

theorem ledger_sysLinkTo (p : ProcId) (new : List UInt8) (h : s.ledger = (l.addRef ip 1).addOps 1) :
    Returns (sysLinkTo sb p ip new) s fun _ s' => s'.ledger = l := by
  refine (ledger_namex s sb p new true).seq fun r s1 h1 => ?_
  rw [h] at h1
  split
  · exact ledger_sysLinkBad sb h1
  next dp name =>
  refine (ledger_lock sb h1).seq fun _ s2 h2 => ?_
  obtain ⟨hfree, h2⟩ := h2
  refine Wp.get_seq ?_
  refine (ledger_dirlink s2 dp sb name _).seq fun r s3 h3 => ?_
  rw [← h3] at h2
  split
  · refine (ledger_giveUp sb hfree h2).seq fun _ s4 h4 => ?_
    exact ledger_sysLinkBad sb h4
  refine (ledger_giveUp sb hfree h2).seq fun _ s4 h4 => ?_
  refine (ledger_iput s4 ip sb).seq fun _ s5 h5 => ?_
  refine ledger_endWith 0 ?_
  rw [h5, h4]
  simp

theorem ledger_sysLink (s : Kernel) (p : ProcId) (old new : Option (List UInt8)) :
    Returns (sysLink sb p old new) s fun _ s' => s'.ledger = s.ledger := by
  match old, new with
  | none, _ => rfl
  | some _, none => rfl
  | some old, some new =>
    refine (ledger_beginOp s).seq fun _ s1 h1 => ?_
    refine (ledger_namei s1 sb p old).seq fun r s2 h2 => ?_
    rw [h1] at h2
    split
    · exact ledger_endWith _ h2
    next ip =>
    refine (ledger_lock sb h2).seq fun _ s3 h3 => ?_
    obtain ⟨hfree, h3⟩ := h3
    refine Wp.get_seq ?_
    split
    · exact ledger_giveUpEnd sb _ hfree h3
    refine (ledger_of_keeps s3 (keeps_addLinks sb ip 1)).seq fun _ s4 h4 => ?_
    refine (ledger_iunlock s4 ip).seq fun _ s5 h5 => ?_
    refine ledger_sysLinkTo sb p new ?_
    rw [h5, h4, h3]
    simp only [Ledger.addOps_locked] at hfree
    simp [hfree]

theorem keeps_isdiremptyLoop (dp : InodeId) :
    ∀ k off, Keeps frame (isdiremptyLoop sb dp k off)
  | 0, _ => pure _
  | k + 1, off => by
    refine bind get fun s => ite ?_ (pure _)
    refine bind (keeps_readDirent dp sb _ _) fun de => ?_
    exact ite (pure _) (keeps_isdiremptyLoop dp k _)

theorem keeps_removable (ip : InodeId) : Keeps frame (removable sb ip) :=
  bind get fun _ => ite (bind get fun _ => keeps_isdiremptyLoop sb ip _ _) (pure _)

theorem ledger_sysUnlinkEntry {dp ip : InodeId} (off : ℕ)
    (hdp : l.locked dp = false) (hip : l.locked ip = false) (hne : dp ≠ ip) (h : s.ledger =
      ((((l.addRef dp 1).addRef ip 1).setLock dp true).setLock ip true).addOps 1) :
    Returns (sysUnlinkEntry sb dp ip off) s fun _ s' => s'.ledger = l := by
  refine (ledger_of_keeps s ((blind_frame dp).writei sb _ _ _)).seq fun r s1 h1 => ?_
  split
  · trivial
  refine Wp.get_seq ?_
  refine (ledger_of_keeps s1 (keeps_addLinksOfParent sb dp _ _)).seq fun _ s2 h2 => ?_
  refine (ledger_iunlockput s2 dp sb).seq fun _ s3 h3 => ?_
  refine (ledger_of_keeps s3 (keeps_addLinks sb ip _)).seq fun _ s4 h4 => ?_
  refine ledger_giveUpEnd sb _ hip ?_
  rw [h4, h3, h2, h1, h, Ledger.setLock_comm _ _ _ hne]
  simp [hdp, Function.update_of_ne hne]

theorem ledger_sysUnlinkIn {dp : InodeId} (name : List UInt8)
    (h : s.ledger = (l.addRef dp 1).addOps 1) :
    Returns (sysUnlinkIn sb dp name) s fun _ s' => s'.ledger = l := by
  refine (ledger_lock sb (l := l.addOps 1) h).seq fun _ s1 h1 => ?_
  obtain ⟨hdp, h1⟩ := h1
  split
  · exact ledger_giveUpEnd sb _ hdp h1
  refine (ledger_dirlookup s1 dp sb name).seq fun r s2 h2 => ?_
  rw [h1] at h2
  split
  · exact ledger_giveUpEnd sb _ hdp h2
  next ip off =>
  refine (ledger_lock sb h2).seq fun _ s3 h3 => ?_
  obtain ⟨hip, h3⟩ := h3
  have hne : dp ≠ ip := by
    rintro rfl
    simp at hip
  have hip : l.locked ip = false := by simpa [Ne.symm hne] using hip
  refine Wp.get_seq ?_
  split
  · trivial
  refine (ledger_of_keeps s3 (keeps_removable sb ip)).seq fun ok s4 h4 => ?_
  rw [← h4] at h3
  split
  · refine (ledger_giveUp sb ?_ h3).seq fun _ s5 h5 => ?_
    · simpa [Ne.symm hne] using hip
    · exact ledger_giveUpEnd sb _ hdp h5
  · exact ledger_sysUnlinkEntry sb off hdp hip hne h3

theorem ledger_sysUnlink (s : Kernel) (p : ProcId) (path : Option (List UInt8)) :
    Returns (sysUnlink sb p path) s fun _ s' => s'.ledger = s.ledger := by
  cases path with
  | none => rfl
  | some path =>
    refine (ledger_beginOp s).seq fun _ s1 h1 => ?_
    refine (ledger_namex s1 sb p path true).seq fun r s2 h2 => ?_
    rw [h1] at h2
    split
    · exact ledger_endWith _ h2
    · exact ledger_sysUnlinkIn sb _ h2

/-! ## Creating files -/

def Created (l : Ledger) (r : Option InodeId) (s : Kernel) : Prop :=
  match r with
  | some ip => l.locked ip = false ∧ s.ledger = (l.addRef ip 1).setLock ip true
  | none => s.ledger = l

theorem ledger_createFail {dp ip : InodeId}
    (hdp : l.locked dp = false) (hip : (l.setLock dp true).locked ip = false)
    (h : s.ledger = ((((l.addRef dp 1).setLock dp true).addRef ip 1).setLock ip true)) :
    Returns (createFail sb dp ip) s fun r s' => Created l r s' := by
  refine Wp.modify_seq ?_
  refine (ledger_of_keeps _ ((blind_frame ip).iupdate sb ip)).seq fun _ s1 h1 => ?_
  rw [ledger_setCopy, h] at h1
  refine (ledger_giveUp sb (l := (l.addRef dp 1).setLock dp true) hip h1).seq fun _ s2 h2 => ?_
  exact (ledger_giveUp sb hdp h2).seq fun _ _ h3 => h3

theorem ledger_createDots (s : Kernel) (dp ip : InodeId) (type : FileType) :
    Returns (createDots sb dp ip type) s fun _ s' => s'.ledger = s.ledger := by
  rw [createDots]
  split
  · refine Wp.get_seq ?_
    refine (ledger_dirlink s ip sb _ _).seq fun r s1 h1 => ?_
    split
    · exact h1
    · refine Wp.get_seq ?_
      exact (ledger_dirlink s1 ip sb _ _).seq fun r s2 h2 => h2.trans h1
  · rfl

theorem ledger_createNew {dp : InodeId} (name : List UInt8)
    (type : FileType) (major minor : ℤ) (hdp : l.locked dp = false)
    (h : s.ledger = (l.addRef dp 1).setLock dp true) :
    Returns (createNew sb dp name type major minor) s fun r s' => Created l r s' := by
  refine (ledger_ialloc s sb type).seq fun r s1 h1 => ?_
  rw [h] at h1
  split
  · exact (ledger_giveUp sb hdp h1).seq fun _ _ h2 => h2
  next ip =>
  refine (ledger_lock sb h1).seq fun _ s2 h2 => ?_
  obtain ⟨hip, h2⟩ := h2
  refine Wp.modify_seq ?_
  refine (ledger_of_keeps _ ((blind_frame ip).iupdate sb ip)).seq fun _ s3 h3 => ?_
  rw [ledger_setCopy, h2] at h3
  refine (ledger_createDots sb s3 dp ip type).seq fun ok s4 h4 => ?_
  rw [h3] at h4
  split
  · refine Wp.get_seq ?_
    refine (ledger_dirlink s4 dp sb name _).seq fun r s5 h5 => ?_
    rw [h4] at h5
    split
    · exact ledger_createFail sb hdp hip h5
    refine (ledger_of_keeps s5 (keeps_addLinksOfParent sb dp _ _)).seq fun _ s6 h6 => ?_
    refine (ledger_iunlockput s6 dp sb).seq fun _ s7 h7 => ?_
    have hne : dp ≠ ip := by
      rintro rfl
      simp at hip
    have hfree : l.locked ip = false := by simpa [Ne.symm hne] using hip
    refine ⟨hfree, ?_⟩
    rw [h7, h6, h5]
    simp [Ledger.setLock_comm _ _ _ hne, hdp, Function.update_of_ne hne]
  · exact ledger_createFail sb hdp hip h4

theorem ledger_create (s : Kernel) (p : ProcId) (path : List UInt8) (type : FileType)
    (major minor : ℤ) :
    Returns (create sb p path type major minor) s fun r s' => Created s.ledger r s' := by
  refine (ledger_namex s sb p path true).seq fun r s1 h1 => ?_
  split
  · exact h1
  next dp name =>
  refine (ledger_lock sb h1).seq fun _ s2 h2 => ?_
  obtain ⟨hdp, h2⟩ := h2
  refine (ledger_dirlookup s2 dp sb name).seq fun r s3 h3 => ?_
  rw [h2] at h3
  split
  · next ip _ =>
    refine (ledger_iunlockput s3 dp sb).seq fun _ s4 h4 => ?_
    have h4 : s4.ledger = s.ledger.addRef ip 1 := by
      rw [h4, h3]
      simp [hdp]
    refine (ledger_lock sb h4).seq fun _ s5 h5 => ?_
    obtain ⟨hip, h5⟩ := h5
    refine Wp.get_seq ?_
    split
    · exact ⟨hip, h5⟩
    · exact (ledger_giveUp sb hip h5).seq fun _ _ h6 => h6
  · exact ledger_createNew sb name type major minor hdp h3

theorem ledger_sysMake (s : Kernel) (p : ProcId) (path : Option (List UInt8)) (type : FileType)
    (major minor : ℤ) :
    Returns (sysMake sb p path type major minor) s fun _ s' => s'.ledger = s.ledger := by
  refine (ledger_beginOp s).seq fun _ s1 h1 => ?_
  split
  · exact ledger_endWith _ h1
  next path =>
  refine (ledger_create sb s1 p path type major minor).seq fun r s2 h2 => ?_
  rw [h1] at h2
  split
  · exact ledger_endWith _ h2
  · exact ledger_giveUpEnd sb _ h2.1 h2.2

/-! ## exec -/

theorem keeps_loadseg (mem : ExecMem) (va : ℕ) (ip : InodeId) (offset sz : ℕ) :
    ∀ k i, Keeps frame (loadseg sb mem va ip offset sz k i)
  | 0, _ => pure _
  | k + 1, i => by
    refine ite (ite (throw _) ?_) (pure _)
    refine bind ((blind_frame ip).readi sb _ _ _) fun r => ?_
    exact ite (pure _) (keeps_loadseg mem va ip offset sz k _)

theorem keeps_loadProgram (mem : ExecMem) (ip : InodeId) :
    ∀ k i off, Keeps frame (loadProgram sb mem ip k i off)
  | 0, _, _ => pure _
  | k + 1, i, off => by
    refine bind ((blind_frame ip).readi sb _ _ _) fun r => ?_
    refine ite (pure _) (ite (keeps_loadProgram mem ip k _ _) ?_)
    refine ite (pure _) (ite (pure _) (ite (pure _) ?_))
    refine ite (pure _) (bind (keeps_loadseg sb mem _ ip _ _ _ _) fun ok => ?_)
    exact ite (keeps_loadProgram mem ip k _ _) (pure _)

theorem keeps_loadImage (mem : ExecMem) (ip : InodeId) : Keeps frame (loadImage sb mem ip) := by
  refine bind ((blind_frame ip).readi sb _ _ _) fun r => ite (pure _) ?_
  exact ite (pure _) (ite (pure _) (keeps_loadProgram sb mem ip _ _ _))

theorem ledger_sysExec (s : Kernel) (p : ProcId) (path : Option (List UInt8)) (args : Bool)
    (mem : ExecMem) : Returns (sysExec sb p path args mem) s fun _ s' => s'.ledger = s.ledger := by
  cases path with
  | none => rfl
  | some path =>
    cases args with
    | false => rfl
    | true =>
      refine (ledger_beginOp s).seq fun _ s1 h1 => ?_
      refine (ledger_namei s1 sb p path).seq fun r s2 h2 => ?_
      rw [h1] at h2
      split
      · exact ledger_endWith _ h2
      next ip =>
      refine (ledger_lock sb h2).seq fun _ s3 h3 => ?_
      obtain ⟨hfree, h3⟩ := h3
      refine (ledger_of_keeps s3 (keeps_loadImage sb mem ip)).seq fun ok s4 h4 => ?_
      refine (ledger_giveUp sb hfree (h4.trans h3)).seq fun _ s5 h5 => ?_
      refine (ledger_endOp s5).seq fun _ s6 h6 => ?_
      have h : s6.ledger = s.ledger := by
        rw [h6, h5]
        simp
      split <;> exact h

end Xv6.Fs

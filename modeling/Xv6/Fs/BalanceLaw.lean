import Xv6.Fs.Balance

/-!
# Every system call is resource-balanced

Pipes, `kfork` and `kexit`, and the law for all the calls.

## Main results

* `call_settles`: a system call that returns leaves the counts right
-/

namespace Xv6.Fs

open Hoare Tally Function

variable (sb : Superblock) {s : Kernel} {hi : InodeId → ℤ} {hf : FileId → ℤ}
  {new : Finset FileId} {locked : InodeId → Bool} {n : ℤ}

/-! ## Pipes -/

attribute [local simp] Files.setProc Kernel.setOfile Files.setOfile Ledger.withFiles Files.setPipe

theorem Books.newPipe {l : Ledger} (h : Books l hi hf new) :
    Books (l.withFiles (Files.setPipe { l.files with npipe := l.files.npipe + 1 } l.files.npipe
      ⟨false, false, 1⟩)) hi hf new where
  inode := h.inode
  file := h.file
  free := h.free
  one := h.one
  idle := h.idle
  ends pj w := by
    have hold := h.ends pj w
    change l.files.ends pj w =
      ((update l.files.pipe l.files.npipe ⟨false, false, 1⟩ pj).isOpen w).toNat
    by_cases hj : pj = l.files.npipe
    · subst hj
      rw [hold, h.fresh _ le_rfl, update_self]
      cases w <;> rfl
    · rw [update_of_ne hj]
      exact hold
  freed pj hj := by
    change pj < l.files.npipe + 1 at hj
    change (update l.files.pipe l.files.npipe ⟨false, false, 1⟩ pj).kfrees = _
    by_cases hji : pj = l.files.npipe
    · subst hji
      simp
    · simp only [Ledger.withFiles, Files.setPipe, update_of_ne hji]
      exact h.freed pj (by omega)
  fresh pj hj w := by
    change l.files.npipe + 1 ≤ pj at hj
    change (update l.files.pipe l.files.npipe ⟨false, false, 1⟩ pj).isOpen w = false
    rw [update_of_ne (by omega)]
    exact h.fresh pj (by omega) w

theorem Books.openEnd {l : Ledger} (h : Books l hi hf new) {f : FileId} {pi : ℕ} {file : File}
    {q : Pipe} (hnew : f ∈ new) (hpi : pi < l.files.npipe)
    (href : file.ref = (l.files.ftable f).ref) (htype : file.type = .pipe) (hpipe : file.pipe = pi)
    (hclosed : (l.files.pipe pi).isOpen file.writable = false)
    (hopen : ∀ w, q.isOpen w = if file.writable = w then true else (l.files.pipe pi).isOpen w)
    (hfreed : q.kfrees = 0) :
    Books (l.withFiles ((l.files.setFile f file).setPipe pi q)) hi hf (new.erase f) := by
  have hone : (l.files.ftable f).ref = 1 := h.one f hnew
  have hnone : (l.files.ftable f).type = .none := (h.free f).mpr (.inr hnew)
  have hsame : bump hf f 0 = hf := bump_zero hf f
  rw [← hsame]
  refine h.setFilePipe f (by simp [href]) (fun ip => ?_) (fun w => ?_) (fun pj hj w => ?_)
    (fun _ => ?_) (fun hle => absurd hpi (by omega)) ?_ (by simp) fun g hg => by simp [hg]
  · simp [File.uses, htype, hnone]
  · rw [hopen w]
    by_cases hw : file.writable = w
    · subst hw
      simp [File.endOf, htype, hnone, hpipe, href, hone, hclosed]
    · simp [File.endOf, hnone, hw]
  · simp [File.endOf, hnone, hpipe, Ne.symm hj]
  · have hw := hopen file.writable
    rw [hfreed]
    cases hb : file.writable <;> simp_all [Pipe.isOpen]
  · simp [htype, href, hone]

theorem Books.openPipe {l : Ledger} {f0 f1 : FileId} {file0 file1 : File}
    (h : Books l hi hf {f1, f0}) (hne : f1 ≠ f0)
    (href0 : file0.ref = (l.files.ftable f0).ref) (href1 : file1.ref = (l.files.ftable f1).ref)
    (htype0 : file0.type = .pipe) (htype1 : file1.type = .pipe)
    (hpipe0 : file0.pipe = l.files.npipe) (hpipe1 : file1.pipe = l.files.npipe)
    (hread : file0.writable = false) (hwrite : file1.writable = true) :
    Books (l.withFiles (((Files.setPipe { l.files with npipe := l.files.npipe + 1 } l.files.npipe
      ⟨true, true, 0⟩).setFile f0 file0).setFile f1 file1)) hi hf ∅ := by
  have h0 := h.newPipe.openEnd (f := f0) (q := ⟨true, false, 0⟩) (by simp)
    (Nat.lt_succ_self l.files.npipe) href0 htype0 hpipe0 ?_ ?_ rfl
  · have h1 := h0.openEnd (f := f1) (q := ⟨true, true, 0⟩) (by simp [hne])
      (Nat.lt_succ_self l.files.npipe) ?_ htype1 hpipe1 ?_ ?_ rfl
    · have hempty : (({f1, f0} : Finset FileId).erase f0).erase f1 = ∅ := by
        ext g
        simp only [Finset.mem_erase, Finset.mem_insert, Finset.mem_singleton, Finset.notMem_empty]
        tauto
      rw [hempty] at h1
      simpa [Files.setFile] using h1
    · simpa [Files.setFile, hne] using href1
    · simp [Files.setFile, Pipe.isOpen, hwrite]
    · intro w
      cases w <;> simp [Files.setFile, Pipe.isOpen, hwrite]
  · simp [Pipe.isOpen, hread]
  · intro w
    cases w <;> simp [Pipe.isOpen, hread]

theorem holds_pipealloc (page : Bool) (h : Holds s hi hf ∅ locked n) :
    Returns (pipealloc sb page) s fun r s' => s'.files.proc = s.files.proc ∧ match r with
      | some (rf, wf) => Holds s' hi (bump (bump hf rf 1) wf 1) ∅ locked n
      | none => Holds s' hi hf ∅ locked n := by
  refine (holds_filealloc h).seq fun r s1 h1 => ?_
  obtain ⟨hproc1, h1⟩ := h1
  split
  · subst h1
    exact ⟨rfl, h⟩
  next f0 =>
  obtain ⟨-, h1⟩ := h1
  refine (holds_filealloc h1).seq fun r s2 h2 => ?_
  obtain ⟨hproc2, h2⟩ := h2
  split
  · subst h2
    refine (holds_fileclose sb f0 h1).seq fun _ s3 h3 => ?_
    obtain ⟨hproc3, -, h3⟩ := h3
    exact ⟨hproc3.trans hproc1, by simpa using h3⟩
  next f1 =>
  obtain ⟨hf1, h2⟩ := h2
  have hne : f1 ≠ f0 := by simpa using hf1
  split
  · refine (holds_fileclose sb f0 h2).seq fun _ s3 h3 => ?_
    obtain ⟨hproc3, -, h3⟩ := h3
    refine (holds_fileclose sb f1 h3).seq fun _ s4 h4 => ?_
    obtain ⟨hproc4, -, h4⟩ := h4
    refine ⟨hproc4.trans (hproc3.trans (hproc2.trans hproc1)), ?_⟩
    have hempty : ((insert f1 (insert f0 ∅) : Finset FileId).erase f0).erase f1 = ∅ := by
      ext g
      simp only [Finset.mem_erase, Finset.mem_insert, Finset.notMem_empty]
      tauto
    rw [hempty, bump_two_cancel] at h4
    exact h4
  refine Wp.get_seq (Wp.modify_seq (Wp.modify_seq (Wp.modify_seq (Wp.modify_seq ?_))))
  refine ⟨hproc2.trans hproc1, h2.setFiles (h2.books.openPipe hne rfl ?_ rfl rfl rfl rfl rfl
    rfl)⟩
  simp [Kernel.setFile, Kernel.setPipe, Files.setFile, Kernel.ledger, hne]

theorem settles_sysPipeBad {s1 : Kernel} {rf wf : FileId}
    (h : Holds s1 (fun _ => 0) (bump (bump (fun _ => 0) rf 1) wf 1) ∅ (fun _ => false)
      s.log.outstanding) : Returns (sysPipeBad sb rf wf) s1 fun _ s' => Settles s s' := by
  refine (holds_fileclose sb rf h).seq fun _ s2 h2 => ?_
  refine (holds_fileclose sb wf h2.2.2).seq fun _ s3 h3 => ?_
  have h3 := h3.2.2
  rw [bump_two_cancel, Finset.erase_empty, Finset.erase_empty] at h3
  exact h3.settles

theorem settles_sysPipe (p : ProcId) (page copyout : Bool) (h : Balanced s)
    (hp : (s.files.proc p).state ≠ .unused) :
    Returns (sysPipe sb p page copyout) s fun _ s' => Settles s s' := by
  refine (holds_pipealloc sb page h.clear).seq fun r s1 h1 => ?_
  obtain ⟨hproc, h1⟩ := h1
  have hp1 : (s1.files.proc p).state ≠ .unused := by rw [hproc]; exact hp
  split
  · exact h1.settles
  next rf wf =>
  refine (holds_fdalloc p rf h1 hp1).seq fun r s2 h2 => ?_
  split
  · subst h2
    exact settles_sysPipeBad sb h1
  next fd0 =>
  obtain ⟨-, hs2, h2⟩ := h2
  have hfd0 : (s2.files.proc p).ofile fd0 = some rf := by
    rw [hs2]
    simp
  have hp2 : (s2.files.proc p).state ≠ .unused := by
    rw [hs2]
    simpa using hp1
  refine (holds_fdalloc p wf h2 hp2).seq fun r s3 h3 => ?_
  split
  · subst h3
    refine Wp.modify_seq (settles_sysPipeBad sb ?_)
    simpa using h2.closeFd hfd0
  next fd1 =>
  obtain ⟨hfree, hs3, h3⟩ := h3
  have hne : fd1 ≠ fd0 := by
    rintro rfl
    rw [hfd0] at hfree
    cases hfree
  split
  · rw [bump_two_cancel] at h3
    exact h3.settles
  have hfd0' : (s3.files.proc p).ofile fd0 = some rf := by
    rw [hs3]
    simpa [Ne.symm hne] using hfd0
  have hfd1 : ((s3.setOfile p fd0 none).files.proc p).ofile fd1 = some wf := by
    rw [hs3]
    simp [hne]
  refine Wp.modify_seq (Wp.modify_seq (settles_sysPipeBad sb ?_))
  have hc := (h3.closeFd hfd0').closeFd hfd1
  rw [bump_two_cancel] at hc
  exact hc

/-! ## fork -/

theorem Holds.setState (h : Holds s hi hf new locked n) {p : ProcId} (st : ProcState) (pid : ℤ)
    (hidle : st = .unused → (∀ fd, (s.files.proc p).ofile fd = none) ∧
      (s.files.proc p).cwd = none) :
    Holds (s.setProc p { s.files.proc p with state := st, pid := pid }) hi hf new locked n :=
  h.setFiles (h.books.setProc p (fun ip => (add_sub_cancel_right (hi ip) _).symm)
    (fun g => (add_sub_cancel_right (hf g) _).symm) hidle)

theorem Holds.setNextpid (h : Holds s hi hf new locked n) (pid : ℤ) :
    Holds { s with files := { s.files with nextpid := pid } } hi hf new locked n :=
  h.setFiles ⟨h.books.inode, h.books.file, h.books.free, h.books.one, h.books.idle, h.books.ends,
    h.books.freed, h.books.fresh⟩

/-- A process that was just allocated: in use, without files. -/
structure Fresh (s : Kernel) (np : ProcId) : Prop where
  used : (s.files.proc np).state = .used
  ofile : ∀ fd, (s.files.proc np).ofile fd = none
  cwd : (s.files.proc np).cwd = none

theorem holds_allocproc (mem : ForkMem) (h : Holds s hi hf new locked n) :
    Returns (allocproc mem) s fun r s' => Holds s' hi hf new locked n ∧ match r with
      | some np => (s.files.proc np).state = .unused ∧ Fresh s' np ∧
          ∀ q, q ≠ np → s'.files.proc q = s.files.proc q
      | none => True := by
  refine Wp.get_seq ?_
  split
  · exact ⟨h, trivial⟩
  next np hfind =>
  have hunused : (s.files.proc np).state = .unused := by simpa using List.find?_some hfind
  obtain ⟨hofile, hcwd⟩ : (∀ fd, (s.files.proc np).ofile fd = none) ∧
      (s.files.proc np).cwd = none := h.books.idle np hunused
  refine Wp.modify_seq (Wp.modify_seq ?_)
  have hused := (h.setNextpid (int32 (s.files.nextpid + 1))).setState (p := np) .used
    s.files.nextpid (by rintro ⟨⟩)
  split
  · refine Wp.modify_seq ⟨hused.setState .unused 0 fun _ => ?_, trivial⟩
    simpa [Kernel.setProc] using ⟨hofile, hcwd⟩
  refine ⟨hused, hunused, ⟨?_, ?_, ?_⟩, fun q hq => ?_⟩
  · simp [Kernel.setProc]
  · simpa [Kernel.setProc] using hofile
  · simpa [Kernel.setProc] using hcwd
  · simp [Kernel.setProc, hq]

theorem holds_forkFiles {p np : ProcId} (hne : p ≠ np) :
    ∀ (fds : List (Fin NOFILE)), fds.Nodup → ∀ s, Holds s hi hf ∅ locked n →
      (s.files.proc np).state = .used → (∀ fd ∈ fds, (s.files.proc np).ofile fd = none) →
      Returns (fds.forM (forkFile p np)) s fun _ s' => Holds s' hi hf ∅ locked n ∧
        s'.files.proc p = s.files.proc p ∧ (s'.files.proc np).state = .used ∧
        (s'.files.proc np).cwd = (s.files.proc np).cwd
  | [], _, s, h, hused, _ => ⟨h, rfl, hused, rfl⟩
  | fd :: fds, hnodup, s, h, hused, hfree => by
    obtain ⟨hnotin, hnodup⟩ := List.nodup_cons.mp hnodup
    have hstep : Returns (forkFile p np fd) s fun _ s' => Holds s' hi hf ∅ locked n ∧
        s'.files.proc p = s.files.proc p ∧ (s'.files.proc np).state = .used ∧
        (s'.files.proc np).cwd = (s.files.proc np).cwd ∧
        ∀ fd' ∈ fds, (s'.files.proc np).ofile fd' = none := by
      refine Wp.get_seq ?_
      split
      · next f _ =>
        refine (holds_filedup f h (by simp)).seq fun _ s1 h1 => ?_
        obtain ⟨hproc, h1⟩ := h1
        have hused1 : (s1.ledger.files.proc np).state ≠ .unused := by
          change (s1.files.proc np).state ≠ .unused
          rw [hproc, hused]
          decide
        have hfd : (s1.ledger.files.proc np).ofile fd = none := by
          change (s1.files.proc np).ofile fd = none
          rw [hproc]
          exact hfree fd (by simp)
        have h2 := h1.setFiles (h1.books.openFd f hused1 hfd)
        rw [bump_bump, add_neg_cancel, bump_zero] at h2
        refine ⟨h2, ?_, ?_, ?_, fun fd' hfd' => ?_⟩
        · simp [hne, hproc]
        · simp [hproc, hused]
        · simp [hproc]
        · have : fd' ≠ fd := fun he => hnotin (he ▸ hfd')
          simp [hproc, this, hfree fd' (List.mem_cons_of_mem _ hfd')]
      · exact ⟨h, rfl, hused, rfl, fun fd' hfd' => hfree fd' (List.mem_cons_of_mem _ hfd')⟩
    refine hstep.seq fun _ s1 h1 => ?_
    obtain ⟨h1, hp1, hused1, hcwd1, hfree1⟩ := h1
    refine (holds_forkFiles hne fds hnodup s1 h1 hused1 hfree1).mono fun _ s2 h2 => ?_
    obtain ⟨h2, hp2, hused2, hcwd2⟩ := h2
    exact ⟨h2, hp2.trans hp1, hused2, hcwd2.trans hcwd1⟩

theorem settles_kfork (p : ProcId) (mem : ForkMem) (h : Balanced s)
    (hp : (s.files.proc p).state ≠ .unused) : Returns (kfork p mem) s fun _ s' => Settles s s' := by
  refine (holds_allocproc mem h.clear).seq fun r s1 h1 => ?_
  obtain ⟨h1, hr⟩ := h1
  split
  · exact h1.settles
  next np =>
  obtain ⟨hunused, hfresh, hother⟩ := hr
  have hne : p ≠ np := by
    rintro rfl
    exact hp hunused
  split
  · exact Wp.modify_seq (h1.setState .unused 0 fun _ => ⟨hfresh.ofile, hfresh.cwd⟩).settles
  refine (holds_forkFiles hne _ (List.nodup_finRange _) s1 h1 hfresh.used
    fun fd _ => hfresh.ofile fd).seq fun _ s2 h2 => ?_
  obtain ⟨h2, hp2, hused2, hcwd2⟩ := h2
  refine Wp.get_seq ?_
  split
  · trivial
  next cwd _ =>
  refine (ledger_idup s2 cwd).seq fun cwd' s3 h3 => ?_
  obtain ⟨rfl, h3⟩ := h3
  have hproc : s3.ledger.files.proc np = s2.files.proc np := by
    rw [h3]
    rfl
  have h3 : Holds s3 (bump (fun _ => 0) cwd' 1) (fun _ => 0) ∅ (fun _ => false)
      s.log.outstanding := by
    refine ⟨?_, ?_, ?_⟩
    · rw [h3]
      exact h2.books.addRef cwd' 1
    · rw [h3]
      exact h2.locks
    · rw [h3]
      exact h2.ops
  refine Wp.modify_seq (Wp.get_seq ?_)
  refine (h3.setFiles (h3.books.setProc np (fun ip => ?_) (fun g => ?_) fun hu => ?_)).settles
  · rw [bump_apply, hproc, Proc.inDir, hcwd2, hfresh.cwd]
    by_cases hip : ip = cwd' <;> simp [Proc.inDir, hip, eq_comm (b := ip)]
  · simp [Proc.descriptors, Kernel.ledger]
  · change (s3.ledger.files.proc np).state = .unused at hu
    rw [hproc, hused2] at hu
    cases hu

/-! ## exit -/

theorem holds_exitFiles (p : ProcId) : ∀ (fds : List (Fin NOFILE)) (s : Kernel), Clear s n →
    Returns (fds.forM (exitFile sb p)) s fun _ s' => Clear s' n ∧
      (s'.files.proc p).cwd = (s.files.proc p).cwd
  | [], _, h => ⟨h, rfl⟩
  | fd :: fds, s, h => by
    have hstep : Returns (exitFile sb p fd) s fun _ s' => Clear s' n ∧
        (s'.files.proc p).cwd = (s.files.proc p).cwd := by
      refine Wp.get_seq ?_
      split
      · next f hfd =>
        refine (holds_fileclose sb f h).seq fun _ s1 h1 => ?_
        obtain ⟨hproc, -, h1⟩ := h1
        have hfd1 : (s1.files.proc p).ofile fd = some f := by
          rw [hproc]
          exact hfd
        have h2 := h1.closeFd hfd1
        rw [bump_bump, neg_add_cancel, bump_zero, Finset.erase_empty] at h2
        exact ⟨h2, by simp [hproc]⟩
      · exact ⟨h, rfl⟩
    refine hstep.seq fun _ s1 h1 => ?_
    refine (holds_exitFiles p fds s1 h1.1).mono fun _ s2 h2 => ⟨h2.1, h2.2.trans h1.2⟩

theorem settles_kexit (p : ProcId) (h : Balanced s) :
    Returns (kexit sb p) s fun _ s' => Settles s s' := by
  refine Wp.get_seq ?_
  split
  · trivial
  refine (holds_exitFiles sb p _ s h.clear).seq fun _ s1 h1 => ?_
  obtain ⟨h1, -⟩ := h1
  refine (ledger_beginOp s1).seq fun _ s2 h2 => ?_
  refine Wp.get_seq ?_
  split
  · trivial
  next cwd hcwd =>
  refine (ledger_iput s2 cwd sb).seq fun _ s3 h3 => ?_
  refine (ledger_endOp s3).seq fun _ s4 h4 => ?_
  have hs : s4.ledger = s1.ledger.addRef cwd (-1) := by
    rw [h4, h3, h2]
    simp
  have hcwd : (s4.ledger.files.proc p).cwd = some cwd := by
    have hfiles : s2.files = s1.files := congrArg Ledger.files h2
    rw [hs, ← hcwd, hfiles]
    rfl
  have h4 : Holds s4 (bump (fun _ => 0) cwd (-1)) (fun _ => 0) ∅ (fun _ => false)
      s.log.outstanding := by
    refine ⟨?_, ?_, ?_⟩
    · rw [hs]
      exact h1.books.addRef cwd (-1)
    · rw [hs]
      exact h1.locks
    · rw [hs]
      exact h1.ops
  refine (h4.setFiles (h4.books.setProc p (fun ip => ?_) (fun g => ?_) fun hu => ?_)).settles
  · rw [bump_apply, Proc.inDir, hcwd]
    by_cases hip : ip = cwd <;> simp [Proc.inDir, hip, eq_comm (b := ip)]
  · simp [Proc.descriptors, Kernel.ledger]
  · change ProcState.zombie = .unused at hu
    cases hu

/-! ## The law -/

inductive Call
  | open (p : ProcId) (path : Option (List UInt8)) (omode : ℕ)
  | close (p : ProcId) (fd : ℤ)
  | dup (p : ProcId) (fd : ℤ)
  | pipe (p : ProcId) (page copyout : Bool)
  | link (p : ProcId) (old new : Option (List UInt8))
  | unlink (p : ProcId) (path : Option (List UInt8))
  | mkdir (p : ProcId) (path : Option (List UInt8))
  | mknod (p : ProcId) (path : Option (List UInt8)) (major minor : ℤ)
  | chdir (p : ProcId) (path : Option (List UInt8))
  | exec (p : ProcId) (path : Option (List UInt8)) (args : Bool) (mem : ExecMem)
  | fork (p : ProcId) (mem : ForkMem)
  | exit (p : ProcId)

def Call.caller : Call → ProcId
  | .open p _ _ | .close p _ | .dup p _ | .pipe p _ _ | .link p _ _ | .unlink p _ | .mkdir p _
  | .mknod p _ _ _ | .chdir p _ | .exec p _ _ _ | .fork p _ | .exit p => p

def Call.run : Call → FsM ℤ
  | .open p path omode => sysOpen sb p path omode
  | .close p fd => sysClose sb p fd
  | .dup p fd => sysDup p fd
  | .pipe p page copyout => sysPipe sb p page copyout
  | .link p old new => sysLink sb p old new
  | .unlink p path => sysUnlink sb p path
  | .mkdir p path => sysMkdir sb p path
  | .mknod p path major minor => sysMknod sb p path major minor
  | .chdir p path => sysChdir sb p path
  | .exec p path args mem => sysExec sb p path args mem
  | .fork p mem => kfork p mem
  | .exit p => do
    kexit sb p
    pure 0

/-- **Every system call is resource-balanced.** A call that returns, from any state whose counts are
right and on any path, leaves the counts right, no inode locked, and as many operations open as
there were. -/
theorem call_settles (c : Call) (h : Balanced s)
    (hcaller : (s.files.proc c.caller).state = .used) :
    Returns (c.run sb) s fun _ s' =>
      Balanced s' ∧ s'.log.outstanding = s.log.outstanding := by
  have hp : (s.files.proc c.caller).state ≠ .unused := by
    rw [hcaller]
    decide
  cases c with
  | «open» p path omode => exact settles_sysOpen sb p path omode h hp
  | close p fd => exact settles_sysClose sb p fd h
  | dup p fd => exact settles_sysDup p fd h hp
  | pipe p page copyout => exact settles_sysPipe sb p page copyout h hp
  | link p old new =>
    exact (ledger_sysLink sb s p old new).mono fun _ _ h1 => h.of_ledger h1
  | unlink p path => exact (ledger_sysUnlink sb s p path).mono fun _ _ h1 => h.of_ledger h1
  | mkdir p path => exact (ledger_sysMake sb s p path _ _ _).mono fun _ _ h1 => h.of_ledger h1
  | mknod p path major minor =>
    exact (ledger_sysMake sb s p path _ _ _).mono fun _ _ h1 => h.of_ledger h1
  | chdir p path => exact settles_sysChdir sb p path h hp
  | exec p path args mem =>
    exact (ledger_sysExec sb s p path args mem).mono fun _ _ h1 => h.of_ledger h1
  | fork p mem => exact settles_kfork p mem h hp
  | exit p => exact (settles_kexit sb p h).seq fun _ _ h1 => h1

/-- The state before the first system call: one process, in the root directory, and no open file. -/
def Kernel.boot (vol : Volume) : Kernel where
  vol := vol
  itable ip := ⟨if ip = 0 then ROOTINO else 0, if ip = 0 then 1 else 0, false, false, Dinode.zero⟩
  log := ⟨0, []⟩
  files :=
    { ftable := fun _ => ⟨.none, 0, false, false, 0, 0, 0, 0⟩
      pipe := fun _ => ⟨false, false, 0⟩
      npipe := 0
      proc := fun p => if p = 0 then ⟨.used, 1, fun _ => none, some 0⟩ else
        ⟨.unused, 0, fun _ => none, none⟩
      nextpid := 2
      initproc := 0 }

theorem balanced_boot (vol : Volume) : Balanced (.boot vol) where
  unlocked _ := rfl
  file f := by
    have hnone : ∀ p, Proc.descriptors f ((Kernel.boot vol).files.proc p) = 0 := by
      intro p
      refine tally_eq_zero_iff.mpr fun fd => ?_
      simp only [Kernel.boot]
      split <;> rfl
    have hzero : (Kernel.boot vol).files.descriptors f = 0 := total_eq_zero_iff.mpr hnone
    rw [hzero]
    rfl
  free _ := ⟨fun _ => rfl, fun _ => rfl⟩
  inode ip := by
    have hfiles : (Kernel.boot vol).files.onInode ip = 0 := tally_eq_zero_iff.mpr fun _ => rfl
    rw [hfiles]
    by_cases hip : ip = 0
    · subst hip
      have hone : (Kernel.boot vol).files.inDir 0 = 1 := by
        refine tally_eq_one (i := 0) rfl fun p hp => ?_
        by_contra hne
        simp [Kernel.boot, hne, Proc.inDir] at hp
      rw [hone]
      rfl
    have hzero : (Kernel.boot vol).files.inDir ip = 0 := by
      refine tally_eq_zero_iff.mpr fun p => ?_
      by_cases hp : p = 0
      · simp [Kernel.boot, hp, Proc.inDir, Ne.symm hip]
      · simp [Kernel.boot, hp, Proc.inDir]
    rw [hzero]
    simp [Kernel.boot, hip]
  idle p hp := by
    by_cases h0 : p = 0
    · subst h0
      simp [Kernel.boot] at hp
    · simp [Kernel.boot, h0]
  ends pi w := by
    have hzero : (Kernel.boot vol).files.ends pi w = 0 := tally_eq_zero_iff.mpr fun _ => rfl
    rw [hzero]
    cases w <;> rfl
  freed pi hpi := absurd hpi (Nat.not_lt_zero _)
  fresh _ _ w := by cases w <;> rfl

/-- The first process makes a pipe. -/
theorem call_settles_pipe :
    let sb : Superblock := ⟨FSMAGIC, 20, 10, 8, 3, 2, 5, 6⟩
    let s := Kernel.boot ⟨fun _ => Dinode.zero, fun _ => false, fun _ => Block.zero⟩
    Balanced s ∧ ∃ s', (Call.pipe 0 true true).run sb s = .ok (0, s') ∧ Balanced s' ∧
      (s'.files.ftable 0).type = .pipe := by
  intro sb s
  have hrun : (((Call.pipe 0 true true).run sb s).toOption.map fun x =>
      (x.1, (x.2.files.ftable 0).type)) = some (0, .pipe) := by decide +kernel
  refine ⟨balanced_boot _, ?_⟩
  rcases hx : (Call.pipe 0 true true).run sb s with e | ⟨r, s'⟩
  · rw [hx] at hrun
    cases hrun
  rw [hx] at hrun
  simp only [Except.toOption, Option.map_some, Option.some.injEq, Prod.mk.injEq] at hrun
  obtain ⟨rfl, htype⟩ := hrun
  exact ⟨s', rfl, ((call_settles sb (.pipe 0 true true) (balanced_boot _) rfl).of_ok hx).1, htype⟩

end Xv6.Fs

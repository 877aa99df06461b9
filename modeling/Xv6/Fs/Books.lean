import Xv6.Fs.Ledger
import Xv6.Fs.Syscall

/-!
# The books

Every reference count of the kernel is the number of places that hold the reference.
-/

namespace Xv6.Fs

open Hoare Tally Function

/-! ## Counting the holders -/

def File.uses (ip : InodeId) (f : File) : Bool :=
  decide (0 < f.ref ∧ (f.type = .inode ∨ f.type = .device) ∧ f.ip = ip)

def File.endOf (pi : ℕ) (w : Bool) (f : File) : Bool :=
  decide (0 < f.ref ∧ f.type = .pipe ∧ f.pipe = pi ∧ f.writable = w)

def Proc.inDir (ip : InodeId) (p : Proc) : Bool := decide (p.cwd = some ip)

def Proc.descriptors (f : FileId) (p : Proc) : ℕ := tally (fun o => decide (o = some f)) p.ofile

def Pipe.isOpen (pi : Pipe) (w : Bool) : Bool := if w then pi.writeopen else pi.readopen

namespace Files

variable (fs : Files)

def onInode (ip : InodeId) : ℕ := tally (File.uses ip) fs.ftable

def inDir (ip : InodeId) : ℕ := tally (Proc.inDir ip) fs.proc

def descriptors (f : FileId) : ℕ := total (Proc.descriptors f) fs.proc

def ends (pi : ℕ) (w : Bool) : ℕ := tally (File.endOf pi w) fs.ftable

variable (f : FileId) (file : File)

theorem setFile_self : (fs.setFile f file).ftable f = file := update_self ..

theorem setFile_of_ne {g : FileId} (h : g ≠ f) : (fs.setFile f file).ftable g = fs.ftable g :=
  update_of_ne h ..

theorem tally_setFile (P : File → Bool) : (tally P (fs.setFile f file).ftable : ℤ) =
      tally P fs.ftable + (P file).toNat - (P (fs.ftable f)).toNat := by
  have h := tally_update P fs.ftable f file
  change (tally P (update fs.ftable f file) : ℤ) = _
  cases hb : P file <;> cases ha : P (fs.ftable f) <;> rw [hb, ha] at h <;> simp at h ⊢ <;> omega

theorem inDir_setProc (p : ProcId) (pr : Proc) (ip : InodeId) : ((fs.setProc p pr).inDir ip : ℤ) =
      fs.inDir ip + (pr.inDir ip).toNat - ((fs.proc p).inDir ip).toNat := by
  have h := tally_update (Proc.inDir ip) fs.proc p pr
  change (tally (Proc.inDir ip) (update fs.proc p pr) : ℤ) = tally (Proc.inDir ip) fs.proc + _ - _
  cases hb : pr.inDir ip <;> cases ha : (fs.proc p).inDir ip <;> rw [hb, ha] at h <;>
    simp at h ⊢ <;> omega

theorem descriptors_setProc (p : ProcId) (pr : Proc) (g : FileId) :
    ((fs.setProc p pr).descriptors g : ℤ) =
      fs.descriptors g + pr.descriptors g - (fs.proc p).descriptors g := by
  have h := total_update (Proc.descriptors g) fs.proc p pr
  change (total (Proc.descriptors g) (update fs.proc p pr) : ℤ) =
    total (Proc.descriptors g) fs.proc + _ - _
  omega

end Files

theorem Proc.descriptors_update (pr : Proc) (fd : Fin NOFILE) (o : Option FileId) (g : FileId) :
    (Proc.descriptors g { pr with ofile := update pr.ofile fd o } : ℤ) =
      pr.descriptors g + (decide (o = some g)).toNat - (decide (pr.ofile fd = some g)).toNat := by
  have h := tally_update (fun o => decide (o = some g)) pr.ofile fd o
  change (tally (fun o => decide (o = some g)) (update pr.ofile fd o) : ℤ) =
    tally (fun o => decide (o = some g)) pr.ofile + _ - _
  by_cases hb : o = some g <;> by_cases ha : pr.ofile fd = some g <;> simp [hb, ha] at h ⊢ <;> omega

/-- The books of a ledger, with what the running call holds. -/
structure Books (l : Ledger) (hi : InodeId → ℤ) (hf : FileId → ℤ) (new : Finset FileId) :
    Prop where
  /-- An inode has one reference for each file on it and each process in it. -/
  inode : ∀ ip, l.ref ip = l.files.onInode ip + l.files.inDir ip + hi ip
  file : ∀ f, (l.files.ftable f).ref = l.files.descriptors f + hf f
  free : ∀ f, (l.files.ftable f).type = .none ↔ (l.files.ftable f).ref = 0 ∨ f ∈ new
  /-- A file that is not set up has the reference of the call. -/
  one : ∀ f ∈ new, (l.files.ftable f).ref = 1
  idle : ∀ p, (l.files.proc p).state = .unused →
    (∀ fd, (l.files.proc p).ofile fd = none) ∧ (l.files.proc p).cwd = none
  ends : ∀ pi w, l.files.ends pi w = ((l.files.pipe pi).isOpen w).toNat
  /-- The page of a pipe was freed once, if both ends are closed. -/
  freed : ∀ pi < l.files.npipe, (l.files.pipe pi).kfrees =
    (!(l.files.pipe pi).readopen && !(l.files.pipe pi).writeopen).toNat
  /-- The pipes that were not allocated are closed. -/
  fresh : ∀ pi, l.files.npipe ≤ pi → ∀ w, (l.files.pipe pi).isOpen w = false

namespace Books

variable {l : Ledger} {hi : InodeId → ℤ} {hf : FileId → ℤ} {new : Finset FileId}

/-! ## Moves of the inode table -/

variable (h : Books l hi hf new)

include h

theorem addRef (ip : InodeId) (k : ℤ) : Books (l.addRef ip k) (bump hi ip k) hf new where
  inode jp := by
    have hold := h.inode jp
    simp only [Ledger.addRef, bump_apply]
    omega
  file := h.file
  free := h.free
  one := h.one
  idle := h.idle
  ends := h.ends
  freed := h.freed
  fresh := h.fresh

theorem setLock (ip : InodeId) (b : Bool) :
    Books (l.setLock ip b) hi hf new := { h with }

theorem addOps (k : ℤ) : Books (l.addOps k) hi hf new := { h with }

omit h

/-! ## Moves of the file table -/

variable {hi' : InodeId → ℤ}

include h

theorem setFilePipe (f : FileId) {file : File} {kref : ℤ} {pi : ℕ}
    {pipe : Pipe} {new' : Finset FileId} (href : file.ref = (l.files.ftable f).ref + kref)
    (hinode : ∀ ip, hi' ip = hi ip + ((l.files.ftable f).uses ip).toNat - (file.uses ip).toNat)
    (hends : ∀ w, ((pipe.isOpen w).toNat : ℤ) = ((l.files.pipe pi).isOpen w).toNat +
      (file.endOf pi w).toNat - ((l.files.ftable f).endOf pi w).toNat)
    (hother : ∀ pj, pj ≠ pi → ∀ w, file.endOf pj w = (l.files.ftable f).endOf pj w)
    (hfreed : pi < l.files.npipe → pipe.kfrees = (!pipe.readopen && !pipe.writeopen).toNat)
    (hfresh : l.files.npipe ≤ pi → ∀ w, pipe.isOpen w = false)
    (hfree : file.type = .none ↔ file.ref = 0 ∨ f ∈ new') (hone : f ∈ new' → file.ref = 1)
    (hnew : ∀ g, g ≠ f → (g ∈ new' ↔ g ∈ new)) :
    Books (l.withFiles ((l.files.setFile f file).setPipe pi pipe)) hi' (bump hf f kref) new' where
  inode ip := by
    have hold := h.inode ip
    have hcount := l.files.tally_setFile f file (File.uses ip)
    have hip := hinode ip
    change l.ref ip = (l.files.setFile f file).onInode ip + l.files.inDir ip + hi' ip
    rw [Files.onInode] at hold ⊢
    rw [hcount, hold]
    omega
  file g := by
    have hold := h.file g
    change ((l.files.setFile f file).ftable g).ref = l.files.descriptors g + _
    rw [bump_apply]
    by_cases hg : g = f
    · subst hg
      rw [Files.setFile_self, if_pos rfl, href, hold]
      omega
    · rw [Files.setFile_of_ne _ _ _ hg, if_neg hg, hold]
      omega
  free g := by
    change ((l.files.setFile f file).ftable g).type = .none ↔
      ((l.files.setFile f file).ftable g).ref = 0 ∨ g ∈ new'
    by_cases hg : g = f
    · subst hg
      rw [Files.setFile_self]
      exact hfree
    · rw [Files.setFile_of_ne _ _ _ hg, hnew g hg]
      exact h.free g
  one g hg := by
    change ((l.files.setFile f file).ftable g).ref = 1
    by_cases hgf : g = f
    · subst hgf
      rw [Files.setFile_self]
      exact hone hg
    · rw [Files.setFile_of_ne _ _ _ hgf]
      exact h.one g ((hnew g hgf).mp hg)
  idle := h.idle
  ends pj w := by
    have hold := h.ends pj w
    have hcount := l.files.tally_setFile f file (File.endOf pj w)
    change tally (File.endOf pj w) (l.files.setFile f file).ftable =
      ((update l.files.pipe pi pipe pj).isOpen w).toNat
    rw [Files.ends] at hold
    by_cases hj : pj = pi
    · subst hj
      have := hends w
      rw [update_self]
      omega
    · rw [hother pj hj w] at hcount
      rw [update_of_ne hj]
      omega
  freed pj hj := by
    change (update l.files.pipe pi pipe pj).kfrees = (!(update l.files.pipe pi
      pipe pj).readopen && !(update l.files.pipe pi pipe pj).writeopen).toNat
    by_cases hji : pj = pi
    · subst hji
      rw [update_self]
      exact hfreed hj
    · rw [update_of_ne hji]
      exact h.freed pj hj
  fresh pj hj w := by
    change (update l.files.pipe pi pipe pj).isOpen w = false
    by_cases hji : pj = pi
    · subst hji
      rw [update_self]
      exact hfresh hj w
    · rw [update_of_ne hji]
      exact h.fresh pj hj w

theorem setFile (f : FileId) {file : File} {kref : ℤ} {new' : Finset FileId}
    (href : file.ref = (l.files.ftable f).ref + kref)
    (hinode : ∀ ip, hi' ip = hi ip + ((l.files.ftable f).uses ip).toNat - (file.uses ip).toNat)
    (hends : ∀ pi w, file.endOf pi w = (l.files.ftable f).endOf pi w)
    (hfree : file.type = .none ↔ file.ref = 0 ∨ f ∈ new') (hone : f ∈ new' → file.ref = 1)
    (hnew : ∀ g, g ≠ f → (g ∈ new' ↔ g ∈ new)) :
    Books (l.withFiles (l.files.setFile f file)) hi' (bump hf f kref) new' := by
  have hsame : (l.files.setFile f file).setPipe 0 (l.files.pipe 0) = l.files.setFile f file := by
    simp [Files.setPipe, Files.setFile]
  rw [← hsame]
  refine h.setFilePipe f href hinode (fun w => ?_) (fun pj _ w => hends pj w) (h.freed 0)
    (h.fresh 0) hfree hone hnew
  rw [hends 0 w]
  omega

omit h

/-! ## Moves of the process table -/

include h

theorem setProc (p : ProcId) {pr : Proc} {hf' : FileId → ℤ}
    (hinode : ∀ ip, hi' ip = hi ip + ((l.files.proc p).inDir ip).toNat - (pr.inDir ip).toNat)
    (hfile : ∀ g, hf' g = hf g + (l.files.proc p).descriptors g - pr.descriptors g)
    (hidle : pr.state = .unused → (∀ fd, pr.ofile fd = none) ∧ pr.cwd = none) :
    Books (l.withFiles (l.files.setProc p pr)) hi' hf' new where
  inode ip := by
    have hold := h.inode ip
    have hcount := l.files.inDir_setProc p pr ip
    have hip := hinode ip
    change l.ref ip = l.files.onInode ip + (l.files.setProc p pr).inDir ip + hi' ip
    rw [hcount, hold]
    omega
  file g := by
    have hold := h.file g
    have hcount := l.files.descriptors_setProc p pr g
    have hg := hfile g
    change (l.files.ftable g).ref = (l.files.setProc p pr).descriptors g + hf' g
    rw [hcount, hold]
    omega
  free := h.free
  one := h.one
  idle q hq := by
    change (update l.files.proc p pr q).state = .unused at hq
    change (∀ fd, (update l.files.proc p pr q).ofile fd = none) ∧
      (update l.files.proc p pr q).cwd = none
    by_cases hqp : q = p
    · subst hqp
      rw [update_self] at hq ⊢
      exact hidle hq
    · rw [update_of_ne hqp] at hq ⊢
      exact h.idle q hq
  ends := h.ends
  freed := h.freed
  fresh := h.fresh

theorem openFd {p : ProcId} {fd : Fin NOFILE} (f : FileId)
    (hp : (l.files.proc p).state ≠ .unused) (hfd : (l.files.proc p).ofile fd = none) :
    Books (l.withFiles (l.files.setOfile p fd (some f))) hi (bump hf f (-1)) new := by
  refine h.setProc p (fun ip => ?_) (fun g => ?_) fun hu => absurd hu hp
  · simp [Proc.inDir]
  rw [Proc.descriptors_update, hfd, bump_apply]
  by_cases hg : g = f
  · subst hg
    simp only [decide_true, Bool.toNat_true, reduceCtorEq, decide_false, Bool.toNat_false,
      if_true]
    omega
  · simp [hg, Ne.symm hg]

theorem closeFd {p : ProcId} {fd : Fin NOFILE} {f : FileId}
    (hfd : (l.files.proc p).ofile fd = some f) :
    Books (l.withFiles (l.files.setOfile p fd none)) hi (bump hf f 1) new := by
  refine h.setProc p (fun ip => ?_) (fun g => ?_) fun hu => ?_
  · simp [Proc.inDir]
  · rw [Proc.descriptors_update, hfd, bump_apply]
    by_cases hg : g = f
    · subst hg
      simp only [decide_true, Bool.toNat_true, reduceCtorEq, decide_false, Bool.toNat_false,
        if_true]
      omega
    · simp [hg, Ne.symm hg]
  · rw [(h.idle p hu).1 fd] at hfd
    cases hfd

end Books

end Xv6.Fs

import Xv6.Foundations.Tally
import Xv6.Fs.Dir

/-!
# References, locks and operations

The `Ledger` of a state is what a call has to give back: the references to inodes, the sleep-locks,
the operations that are open, and the files.
-/

namespace Xv6.Fs

open Hoare Tally Function Keeps Kernel

/-- The reference counts and locks of the inode table, the number of open operations, and the
files. -/
@[ext]
structure Ledger where
  ref : InodeId → ℤ
  locked : InodeId → Bool
  outstanding : ℤ
  files : Files

namespace Ledger

def addRef (l : Ledger) (ip : InodeId) (k : ℤ) : Ledger := { l with ref := bump l.ref ip k }

def setLock (l : Ledger) (ip : InodeId) (b : Bool) : Ledger :=
  { l with locked := update l.locked ip b }

def addOps (l : Ledger) (k : ℤ) : Ledger := { l with outstanding := l.outstanding + k }

def withFiles (l : Ledger) (fs : Files) : Ledger := { l with files := fs }

variable (l : Ledger) (ip jp : InodeId) (k : ℤ)

@[simp] theorem addRef_locked : (l.addRef ip k).locked = l.locked := rfl

@[simp] theorem addOps_locked : (l.addOps k).locked = l.locked := rfl

@[simp] theorem setLock_locked (b : Bool) : (l.setLock ip b).locked = update l.locked ip b := rfl

@[simp] theorem addRef_addRef (k' : ℤ) : (l.addRef ip k).addRef ip k' = l.addRef ip (k + k') := by
  simp [addRef]

@[simp] theorem addRef_zero : l.addRef ip 0 = l := by simp [addRef]

@[simp] theorem addOps_addOps (k' : ℤ) : (l.addOps k).addOps k' = l.addOps (k + k') := by
  simp only [addOps, add_assoc]

@[simp] theorem addOps_zero : l.addOps 0 = l := by simp [addOps]

@[simp] theorem setLock_setLock (b b' : Bool) :
    (l.setLock ip b).setLock ip b' = l.setLock ip b' := by simp [setLock]

@[simp] theorem setLock_self {b : Bool} (h : l.locked ip = b) : l.setLock ip b = l := by
  simp [setLock, ← h]

theorem addRef_comm (k' : ℤ) : (l.addRef ip k).addRef jp k' = (l.addRef jp k').addRef ip k := by
  simp only [addRef, bump_comm l.ref ip jp]

@[simp] theorem addRef_cancel (k' : ℤ) :
    ((l.addRef ip 1).addRef jp k').addRef ip (-1) = l.addRef jp k' := by
  rw [addRef_comm l ip jp, addRef_addRef]
  simp

theorem setLock_comm {b b' : Bool} (h : ip ≠ jp) :
    (l.setLock ip b).setLock jp b' = (l.setLock jp b').setLock ip b := by
  simp only [setLock, update_comm h]

@[simp] theorem setLock_addRef (b : Bool) :
    (l.setLock ip b).addRef jp k = (l.addRef jp k).setLock ip b := rfl

@[simp] theorem addOps_addRef (k' : ℤ) :
    (l.addOps k').addRef ip k = (l.addRef ip k).addOps k' := rfl

@[simp] theorem addOps_setLock (b : Bool) :
    (l.addOps k).setLock ip b = (l.setLock ip b).addOps k := rfl

end Ledger

def Kernel.ledger (s : Kernel) : Ledger :=
  ⟨fun ip => (s.itable ip).ref, fun ip => (s.itable ip).locked, s.log.outstanding, s.files⟩

/-- Which inode each entry of the table holds, and whether it has been read. -/
def Kernel.tags (s : Kernel) (ip : InodeId) : ℕ × Bool := ((s.itable ip).inum, (s.itable ip).valid)

def Kernel.frame (s : Kernel) : Ledger × (InodeId → ℕ × Bool) := (s.ledger, s.tags)

/-! ## Reading and writing blocks -/

section Frames

variable {γ : Type} {f : Kernel → γ} {ip : InodeId} (sb : Superblock)

/-- What `f` reads of the state is neither the content of a block nor the copy of the inode that the
entry `ip` holds. -/
structure Blind (f : Kernel → γ) (ip : InodeId) : Prop where
  bit : ∀ s b v, f (s.setBit b v) = f s
  data : ∀ s b a, f (s.setData b a) = f s
  log : ∀ s b, f { s with log := s.log.write b } = f s
  copy : ∀ s d, f (s.setCopy ip d) = f s

structure BlindDisk (f : Kernel → γ) (ip : InodeId) : Prop extends Blind f ip where
  dinode : ∀ s i d, f (s.setDinode i d) = f s

namespace Blind

theorem logWrite (h : Blind f ip) (b : ℕ) : Keeps f (logWrite b) :=
  bind get fun _ => ite (throw _) (modify fun s => h.log s b)

theorem bzero (h : Blind f ip) (b : ℕ) : Keeps f (bzero b) :=
  bind (modify fun s => h.data s b _) fun _ => h.logWrite b

theorem balloc (h : Blind f ip) : Keeps f (balloc sb) := by
  refine bind get fun s => ?_
  split
  · next b _ =>
    refine bind (modify fun s => h.bit s b _) fun _ => ?_
    exact bind (h.logWrite _) fun _ => bind (h.bzero b) fun _ => pure _
  · exact pure _

theorem bfree (h : Blind f ip) (b : ℕ) : Keeps f (bfree sb b) :=
  bind get fun _ => ite (throw _) <| bind (modify fun s => h.bit s b _) fun _ => h.logWrite _

theorem setCopy (h : Blind f ip) (g : Kernel → Dinode) :
    Keeps f (modify fun s => s.setCopy ip (g s) : FsM Unit) := modify fun s => h.copy s (g s)

theorem bmapSlot (h : Blind f ip) (k : ℕ) : Keeps f (bmapSlot sb ip k) := by
  refine bind get fun s => ite ?_ (pure _)
  refine bind (h.balloc sb) fun addr => ite (pure _) ?_
  exact bind (h.setCopy _) fun _ => pure _

theorem bmapEntry (h : Blind f ip) (ind j : ℕ) : Keeps f (bmapEntry sb ind j) := by
  refine bind get fun s => ite ?_ (pure _)
  refine bind (h.balloc sb) fun addr => ite (pure _) ?_
  refine bind (modify fun s => h.data s ind _) fun _ => ?_
  exact bind (h.logWrite _) fun _ => pure _

theorem bmap (h : Blind f ip) (bn : ℕ) : Keeps f (bmap sb ip bn) := by
  refine ite (h.bmapSlot sb bn) (ite ?_ (throw _))
  exact bind (h.bmapSlot sb _) fun _ => ite (pure _) (h.bmapEntry sb _ _)

theorem itruncDirect (h : Blind f ip) (i : ℕ) : Keeps f (itruncDirect sb ip i) := by
  refine bind get fun s => ite (pure _) ?_
  exact bind (h.bfree sb _) fun _ => h.setCopy _

theorem itruncIndirect (h : Blind f ip) : Keeps f (itruncIndirect sb ip) := by
  refine bind get fun s => ite (pure _) ?_
  refine bind (forM (fun j => ?_) _) fun _ => ?_
  · exact ite (pure _) (h.bfree sb _)
  · exact bind (h.bfree sb _) fun _ => h.setCopy _

theorem readiLoop (h : Blind f ip) (dst : Dst) (n : ℕ) :
    ∀ k tot off acc, Keeps f (readiLoop sb ip dst n k tot off acc)
  | 0, _, _, _ => pure _
  | k + 1, tot, off, acc => by
    refine ite (bind (h.bmap sb _) fun addr => ?_) (pure _)
    refine ite (pure _) (bind get fun s => ?_)
    exact ite (h.readiLoop dst n k _ _ _) (pure _)

theorem readi (h : Blind f ip) (dst : Dst) (off n : ℕ) : Keeps f (readi sb ip dst off n) :=
  bind get fun _ => ite (pure _) (h.readiLoop sb dst _ _ _ _ _)

theorem writeiLoop (h : Blind f ip) (src : Src) (n : ℕ) :
    ∀ k tot off, Keeps f (writeiLoop sb ip src n k tot off)
  | 0, _, _ => pure _
  | k + 1, tot, off => by
    refine ite (bind (h.bmap sb _) fun addr => ?_) (pure _)
    refine ite (pure _) (bind (modify fun s => h.data s addr _) fun _ => ?_)
    refine ite (pure _) (bind (h.logWrite _) fun _ => ?_)
    exact h.writeiLoop src n k _ _

end Blind

namespace BlindDisk

theorem iupdate (h : BlindDisk f ip) (jp : InodeId) : Keeps f (iupdate sb jp) :=
  bind (modify fun s => h.dinode s _ _) fun _ => bind get fun _ => h.logWrite _

theorem itrunc (h : BlindDisk f ip) : Keeps f (itrunc sb ip) :=
  bind (forM (fun i => h.itruncDirect sb i) _) fun _ =>
    bind (h.itruncIndirect sb) fun _ => bind (h.setCopy _) fun _ => h.iupdate sb ip

theorem writei (h : BlindDisk f ip) (src : Src) (off n : ℕ) : Keeps f (writei sb ip src off n) := by
  refine bind get fun s => ite (pure _) (ite (pure _) ?_)
  refine bind (h.writeiLoop sb src n _ _ _) fun r => ?_
  refine bind (modify fun s => ?_) fun _ => ?_
  · split
    · exact h.copy s _
    · rfl
  · exact bind (h.iupdate sb ip) fun _ => pure _

end BlindDisk

theorem setCopy_apply (s : Kernel) (ip : InodeId) {g : Inode → γ}
    (hg : ∀ i d, g { i with d := d } = g i) (d : Dinode) (jp : InodeId) :
    g ((s.setCopy ip d).itable jp) = g (s.itable jp) := by
  by_cases h : jp = ip
  · subst h
    simp [setCopy, setInode, hg]
  · simp [setCopy, setInode, h]

@[simp] theorem frame_setCopy (s : Kernel) (ip : InodeId) (d : Dinode) :
    (s.setCopy ip d).frame = s.frame := by
  refine Prod.ext (Ledger.ext ?_ ?_ rfl rfl) ?_ <;> funext jp
  · exact setCopy_apply s ip (g := Inode.ref) (fun _ _ => rfl) d jp
  · exact setCopy_apply s ip (g := Inode.locked) (fun _ _ => rfl) d jp
  · exact setCopy_apply s ip (g := fun i => (i.inum, i.valid)) (fun _ _ => rfl) d jp

theorem blind_frame (ip : InodeId) : BlindDisk frame ip where
  bit _ _ _ := rfl
  data _ _ _ := rfl
  log _ _ := rfl
  copy s d := frame_setCopy s ip d
  dinode _ _ _ := rfl

end Frames

/-! ## The inode table -/

section Table

variable (s : Kernel) (ip : InodeId) (sb : Superblock)

theorem ledger_setInode (i : Inode) : (s.setInode ip i).ledger =
    { s.ledger with
      ref := update s.ledger.ref ip i.ref
      locked := update s.ledger.locked ip i.locked } := by
  refine Ledger.ext ?_ ?_ rfl rfl <;> funext jp <;> by_cases h : jp = ip <;>
    simp [ledger, setInode, h]

theorem ledger_setInode_ref {i : Inode} {k : ℤ} (href : i.ref = (s.itable ip).ref + k)
    (hlocked : i.locked = (s.itable ip).locked) :
    (s.setInode ip i).ledger = s.ledger.addRef ip k := by
  rw [ledger_setInode]
  refine Ledger.ext ?_ ?_ rfl rfl <;> funext jp <;> by_cases h : jp = ip
  · subst h; simp [Ledger.addRef, ledger, bump, href]
  · simp [Ledger.addRef, ledger, bump, h]
  · subst h; simp [Ledger.addRef, ledger, hlocked]
  · simp [Ledger.addRef, h]

theorem ledger_setInode_locked {i : Inode} {b : Bool} (href : i.ref = (s.itable ip).ref)
    (hlocked : i.locked = b) : (s.setInode ip i).ledger = s.ledger.setLock ip b := by
  rw [ledger_setInode]
  refine Ledger.ext ?_ ?_ rfl rfl <;> funext jp <;> by_cases h : jp = ip
  · subst h; simp [Ledger.setLock, ledger, href]
  · simp [Ledger.setLock, h]
  · subst h; simp [Ledger.setLock, hlocked]
  · simp [Ledger.setLock, h]

theorem ledger_iget (inum : ℕ) :
    Returns (iget inum) s fun ip s' => s'.ledger = s.ledger.addRef ip 1 := by
  simp only [iget, wp_bind, wp_get]
  split
  · exact ledger_setInode_ref s _ rfl rfl
  split
  · next ip hfind =>
    have href : (s.itable ip).ref = 0 := by simpa using List.find?_some hfind
    exact ledger_setInode_ref s ip (by simp [href]) rfl
  · trivial

theorem ledger_idup : Returns (idup ip) s fun jp s' => jp = ip ∧ s'.ledger = s.ledger.addRef ip 1 :=
  ⟨rfl, ledger_setInode_ref s ip rfl rfl⟩

theorem ledger_ilock : Returns (ilock sb ip) s fun _ s' =>
    s.ledger.locked ip = false ∧ s'.ledger = s.ledger.setLock ip true := by
  simp only [ilock, wp_bind, wp_get, wp_ite, wp_throw, implies_true, true_and]
  intro _ hlocked
  have hfree : s.ledger.locked ip = false := by simpa [ledger] using hlocked
  refine ⟨fun _ => ⟨hfree, ledger_setInode_locked s ip rfl rfl⟩, fun _ _ _ => ⟨hfree, ?_⟩⟩
  exact ledger_setInode_locked s ip rfl rfl

theorem ledger_iunlock :
    Returns (iunlock ip) s fun _ s' => s'.ledger = s.ledger.setLock ip false := by
  simp only [iunlock, wp_bind, wp_get, wp_ite, wp_throw, implies_true, true_and]
  exact fun _ => ledger_setInode_locked s ip rfl rfl

theorem ledger_of_keeps {α : Type} {x : FsM α} (h : Keeps frame x) :
    Returns x s fun _ s' => s'.ledger = s.ledger := h.comp Prod.fst s

@[simp] theorem ledger_setCopy (d : Dinode) : (s.setCopy ip d).ledger = s.ledger :=
  congrArg Prod.fst (frame_setCopy s ip d)

theorem ledger_iputLast : Returns (iputLast sb ip) s fun _ s' => s'.ledger = s.ledger := by
  simp only [iputLast, iputFree, wp_bind, wp_get, wp_ite, wp_throw, wp_modify, wp_pure,
    implies_true, true_and, and_true]
  intro _ hlocked
  have hfree : s.ledger.locked ip = false := by simpa [ledger] using hlocked
  refine (ledger_of_keeps _ ((blind_frame ip).itrunc sb)).mono fun _ s1 h1 => ?_
  refine (ledger_of_keeps _ ((blind_frame ip).iupdate sb ip)).mono fun _ s2 h2 => ?_
  have hlock : (s.setLocked ip true).ledger = s.ledger.setLock ip true :=
    ledger_setInode_locked s ip rfl rfl
  rw [ledger_setInode_locked s2 ip (i := { s2.itable ip with valid := false, locked := false })
    rfl rfl, h2, ledger_setCopy, h1, hlock]
  simp [hfree]

theorem ledger_iput : Returns (iput sb ip) s fun _ s' => s'.ledger = s.ledger.addRef ip (-1) := by
  refine (ledger_iputLast s ip sb).seq fun _ s1 h1 => ?_
  rw [wp_modify, ← h1]
  exact ledger_setInode_ref s1 ip rfl rfl

theorem ledger_iunlockput : Returns (iunlockput sb ip) s fun _ s' =>
    s'.ledger = (s.ledger.addRef ip (-1)).setLock ip false := by
  refine (ledger_iunlock s ip).seq fun _ s1 h1 => ?_
  refine (ledger_iput s1 ip sb).mono fun _ s2 h2 => ?_
  rw [h2, h1, Ledger.setLock_addRef]

theorem ledger_ialloc (type : FileType) : Returns (ialloc sb type) s fun r s' =>
    s'.ledger = match r with | some ip => s.ledger.addRef ip 1 | none => s.ledger := by
  simp only [ialloc, wp_bind, wp_get]
  split
  · rw [wp_bind, wp_modify, wp_bind]
    refine (ledger_of_keeps _ ((blind_frame 0).logWrite _)).mono fun _ s1 h1 => ?_
    refine (ledger_iget s1 _).seq fun ip s2 h2 => ?_
    exact h2.trans (congrArg (Ledger.addRef · ip 1) h1)
  · rfl

end Table

/-! ## Directories and paths -/

section Paths

variable (s : Kernel) (dp : InodeId) (sb : Superblock)

theorem keeps_readDirent (off : ℕ) (msg : String) : Keeps frame (readDirent sb dp off msg) :=
  bind ((blind_frame dp).readi sb _ _ _) fun _ => ite (throw _) (pure _)

theorem keeps_dirlookupLoop (name : List UInt8) :
    ∀ k off, Keeps frame (dirlookupLoop sb dp name k off)
  | 0, _ => pure _
  | k + 1, off => by
    refine bind get fun s => ite ?_ (pure _)
    refine bind (keeps_readDirent dp sb _ _) fun de => ite ?_ (ite ?_ ?_)
    · exact keeps_dirlookupLoop name k _
    · exact pure _
    · exact keeps_dirlookupLoop name k _

theorem keeps_dirlinkLoop : ∀ k off, Keeps frame (dirlinkLoop sb dp k off)
  | 0, _ => pure _
  | k + 1, off => by
    refine bind get fun s => ite ?_ (pure _)
    refine bind (keeps_readDirent dp sb _ _) fun de => ?_
    exact ite (pure _) (keeps_dirlinkLoop k _)

theorem ledger_dirlookup (name : List UInt8) : Returns (dirlookup sb dp name) s fun r s' =>
    s'.ledger = match r with | some (ip, _) => s.ledger.addRef ip 1 | none => s.ledger := by
  simp only [dirlookup, wp_bind, wp_get, wp_ite, wp_throw, implies_true, true_and]
  intro _
  refine (ledger_of_keeps s (keeps_dirlookupLoop dp sb name _ _)).mono fun r s1 h1 => ?_
  split
  · refine (ledger_iget s1 _).seq fun ip s2 h2 => ?_
    exact h2.trans (congrArg (Ledger.addRef · ip 1) h1)
  · exact h1

theorem ledger_dirlink (name : List UInt8) (inum : ℕ) :
    Returns (dirlink sb dp name inum) s fun _ s' => s'.ledger = s.ledger := by
  refine (ledger_dirlookup s dp sb name).seq fun r s1 h1 => ?_
  split
  · next ip _ =>
    refine (ledger_iput s1 ip sb).seq fun _ s2 h2 => ?_
    rw [wp_pure, h2, h1]
    simp
  rw [wp_bind, wp_get]
  refine (ledger_of_keeps s1 (keeps_dirlinkLoop dp sb _ _)).seq fun off s2 h2 => ?_
  refine (ledger_of_keeps s2 ((blind_frame dp).writei sb _ _ _)).seq fun r s3 h3 => ?_
  have h : s3.ledger = s.ledger := h3.trans (h2.trans h1)
  split <;> exact h

def Ledger.afterPath (l : Ledger) : Option (InodeId × List UInt8) → Ledger
  | some (ip, _) => l.addRef ip 1
  | none => l

theorem ledger_namexLoop (parent : Bool) (l : Ledger) :
    ∀ (k : ℕ) (ip : InodeId) (path name : List UInt8) (s : Kernel), s.ledger = l.addRef ip 1 →
      Returns (namexLoop sb parent k ip path name) s fun r s' => s'.ledger = l.afterPath r
  | 0, _, _, _, _, h => h
  | k + 1, ip, path, name, s, h => by
    rw [namexLoop]
    split
    · split
      · refine (ledger_iput s ip sb).seq fun _ s1 h1 => ?_
        rw [wp_pure, h1, h]
        simp [Ledger.afterPath]
      · exact h
    next name path _ =>
    refine (ledger_ilock s ip sb).seq fun _ s1 h1 => ?_
    obtain ⟨hlocked, h1⟩ := h1
    have hfree : l.locked ip = false := by simpa [h] using hlocked
    rw [h] at h1
    rw [wp_bind, wp_get]
    split
    · refine (ledger_iunlockput s1 ip sb).seq fun _ s2 h2 => ?_
      rw [wp_pure, h2, h1]
      simp [Ledger.afterPath, hfree]
    split
    · refine (ledger_iunlock s1 ip).seq fun _ s2 h2 => ?_
      rw [wp_pure, h2, h1]
      simp [Ledger.afterPath, hfree]
    refine (ledger_dirlookup s1 ip sb name).seq fun r s2 h2 => ?_
    refine (ledger_iunlockput s2 ip sb).seq fun _ s3 h3 => ?_
    rw [h2] at h3
    split
    · rw [wp_pure, h3, h1]
      simp [Ledger.afterPath, hfree]
    next next _ =>
    refine ledger_namexLoop parent l k next path name s3 ?_
    rw [h3, h1]
    simp [hfree]

theorem ledger_namexStart (p : ProcId) (path : List UInt8) :
    Returns (namexStart p path) s fun ip s' => s'.ledger = s.ledger.addRef ip 1 := by
  simp only [namexStart, wp_bind, wp_get, wp_ite]
  refine ⟨fun _ => ledger_iget s _, fun _ => ?_⟩
  split
  · next cwd _ =>
    refine (ledger_idup s cwd).mono fun ip s1 h1 => ?_
    rw [h1.1, h1.2]
  · trivial

theorem ledger_namex (p : ProcId) (path : List UInt8) (parent : Bool) :
    Returns (namex sb p path parent) s fun r s' => s'.ledger = s.ledger.afterPath r := by
  refine (ledger_namexStart s p path).seq fun ip s1 h1 => ?_
  exact ledger_namexLoop sb parent s.ledger _ ip path [] s1 h1

theorem ledger_namei (p : ProcId) (path : List UInt8) : Returns (namei sb p path) s fun r s' =>
    s'.ledger = match r with | some ip => s.ledger.addRef ip 1 | none => s.ledger := by
  refine (ledger_namex s sb p path false).seq fun r s1 h1 => ?_
  cases r <;> exact h1

end Paths

end Xv6.Fs

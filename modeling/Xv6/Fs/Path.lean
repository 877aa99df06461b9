import Xv6.Fs.Components
import Xv6.Fs.Entries

/-!
# Path resolution

`follow` goes through directories by the elements of a path, and `parent` stops one level early.

## Main results

* `path_resolution`: `namei` follows the components of a path
-/

namespace Xv6.Fs

open Hoare Function Kernel Volume Option

/-! ## Trees -/

namespace Volume

def child (v : Volume) (i : ℕ) (c : List UInt8) : Option ℕ :=
  if (v.dinode i).type = .dir then (Slots.find (nameOf c) (v.slots i)).map Prod.fst else none

def follow (v : Volume) : ℕ → List (List UInt8) → Option ℕ
  | i, [] => some i
  | i, c :: cs => (v.child i c).bind fun j => v.follow j cs

/-- The directory reached through all names but the last, and the last name. -/
def parent (v : Volume) : ℕ → List (List UInt8) → Option (ℕ × List UInt8)
  | _, [] => none
  | i, [c] => if (v.dinode i).type = .dir then some (i, c) else none
  | i, c :: cs => (v.child i c).bind fun j => v.parent j cs

variable {v : Volume} {i j : ℕ}

/-- **The two modes agree**: an inode is reached exactly if its parent is, and has it under the last
name. -/
theorem follow_eq_parent : ∀ {cs : List (List UInt8)} (i : ℕ), cs ≠ [] →
    v.follow i cs = (v.parent i cs).bind fun q => v.child q.1 q.2
  | [], _, hne => absurd rfl hne
  | [c], i, _ => by
    have hlast : ∀ o : Option ℕ, (o.bind fun j => v.follow j []) = o := by
      intro o
      cases o <;> rfl
    rw [follow, parent, hlast]
    by_cases hdir : (v.dinode i).type = .dir
    · rw [if_pos hdir]
      rfl
    · rw [if_neg hdir, child, if_neg hdir]
      rfl
  | c :: c' :: cs, i, _ => by
    rw [follow, parent, bind_assoc]
    · exact congrArg _ (funext fun j => follow_eq_parent j (List.cons_ne_nil c' cs))
    · simp

theorem dir_of_parent {c : List UInt8} {d : ℕ} : ∀ {cs : List (List UInt8)} {i : ℕ},
    v.parent i cs = some (d, c) → (v.dinode d).type = .dir
  | [], _, h => by cases h
  | [_], i, h => by
    rw [parent] at h
    split at h
    · next hdir =>
      cases h
      exact hdir
    · cases h
  | _ :: c' :: cs, i, h => by
    rw [parent] at h
    · obtain ⟨j, -, hj⟩ := bind_eq_some_iff.mp h
      exact dir_of_parent hj
    · simp

theorem parent_append (c : List UInt8) : ∀ (ds : List (List UInt8)) (i : ℕ),
    v.parent i (ds ++ [c]) = (v.follow i ds).bind fun d =>
      if (v.dinode d).type = .dir then some (d, c) else none
  | [], _ => rfl
  | d :: ds, i => by
    have hne : ds ++ [c] ≠ [] := by simp
    obtain ⟨e, es, hes⟩ := List.exists_cons_of_ne_nil hne
    rw [List.cons_append, hes, parent, follow, bind_assoc, ← hes]
    · refine congrArg _ (funext fun j => ?_)
      exact parent_append c ds j
    · simp

/-- Inodes that can be reached: the root, and those that have a name in a directory. -/
def Named (v : Volume) (j : ℕ) : Prop := j = ROOTINO ∨ ∃ i c, v.child i c = some j

end Volume

/-- Every block has one owner, and no reference count is negative. -/
structure Sound (sb : Superblock) (s : Kernel) : Prop where
  owned : s.vol.Owned sb
  ref : ∀ ip, 0 ≤ (s.itable ip).ref

/-- A well-formed tree at rest: directories are whole, every named inode is allocated and has a link
or is in use, no inode is locked, and the copies in memory are those of the disk. -/
structure Tree (sb : Superblock) (s : Kernel) (p : ProcId) : Prop extends Sound sb s where
  whole : ∀ i, (s.vol.dinode i).type = .dir → (s.vol.dinode i).size % DIRENT = 0
  named : ∀ j, s.vol.Named j → (s.vol.dinode j).type ≠ .free ∧
    ((s.vol.dinode j).nlink ≠ 0 ∨ ∃ ip, (s.itable ip).ref ≠ 0 ∧ (s.itable ip).inum = j)
  used : ∀ ip, (s.itable ip).ref ≠ 0 → (s.vol.dinode (s.itable ip).inum).type ≠ .free
  copy : ∀ ip, (s.itable ip).ref ≠ 0 → (s.itable ip).valid = true →
    (s.itable ip).d = s.vol.dinode (s.itable ip).inum
  unlocked : ∀ ip, (s.itable ip).locked = false
  cwd : ∃ ip, (s.files.proc p).cwd = some ip ∧ (s.itable ip).ref ≠ 0

def Kernel.start (s : Kernel) (p : ProcId) (path : List UInt8) : ℕ :=
  if path.headD 0 = slash then ROOTINO
  else ((s.files.proc p).cwd.map fun ip => (s.itable ip).inum).getD 0

variable {sb : Superblock} {E : Halt → Prop} {s t u : Kernel} {p : ProcId} {ip : InodeId} {i : ℕ}

/-! ## Holding references -/

/-- The state `t` differs from `s` in `n` more references, in copies read from the disk, and perhaps
in locks. -/
structure Refs (s t : Kernel) (n : InodeId → ℤ) : Prop where
  vol : t.vol = s.vol
  log : t.log = s.log
  files : t.files = s.files
  ref : ∀ jp, (t.itable jp).ref = (s.itable jp).ref + n jp
  inum : ∀ jp, (s.itable jp).ref ≠ 0 → (t.itable jp).inum = (s.itable jp).inum
  copy : ∀ jp, (t.itable jp).ref ≠ 0 → (t.itable jp).valid = true →
    (t.itable jp).d = s.vol.dinode (t.itable jp).inum

/-- One more reference, if any, is held. -/
structure Holding (s t : Kernel) (o : Option InodeId) : Prop extends
    Refs s t (fun jp => if o = some jp then 1 else 0) where
  unlocked : ∀ jp, (t.itable jp).locked = false

/-- The resolution is at inode `i`, which it holds in entry `ip`. -/
structure At (s t : Kernel) (ip : InodeId) (i : ℕ) : Prop extends Holding s t (some ip) where
  self : (t.itable ip).inum = i
  alloc : (s.vol.dinode i).type ≠ .free
  /-- Giving the reference back does not free the inode. -/
  safe : (s.itable ip).ref ≠ 0 ∨ (s.vol.dinode i).nlink ≠ 0

/-- Inode `i` is held in entry `ip`, and one more reference `o` may have been taken. -/
structure Pair (s u : Kernel) (ip : InodeId) (i : ℕ) (o : Option InodeId) : Prop extends
    Refs s u (fun jp => (if jp = ip then 1 else 0) + if o = some jp then 1 else 0) where
  unlocked : ∀ jp, (u.itable jp).locked = false
  self : (u.itable ip).inum = i

/-- The inode is locked, and one more reference `o` may have been taken. -/
structure Locked (s u : Kernel) (ip : InodeId) (i : ℕ) (o : Option InodeId) : Prop extends
    Refs s u (fun jp => (if jp = ip then 1 else 0) + if o = some jp then 1 else 0) where
  locked : ∀ jp, (u.itable jp).locked = decide (jp = ip)
  self : (u.itable ip).inum = i
  valid : (u.itable ip).valid = true

attribute [local simp] setInode

section Put

variable {o : Option InodeId}

theorem ite_some_eq (ip jp : InodeId) :
    (if some ip = some jp then 1 else 0 : ℤ) = if jp = ip then 1 else 0 := by
  by_cases hj : jp = ip
  · rw [if_pos hj, if_pos (by rw [hj])]
  · rw [if_neg hj, if_neg fun heq => hj (some.inj heq).symm]

theorem At.pair (h : At s t ip i) : Pair s t ip i none := by
  refine ⟨⟨h.vol, h.log, h.files, fun jp => ?_, h.inum, h.copy⟩, h.unlocked, h.self⟩
  rw [h.ref, ite_some_eq, if_neg (some_ne_none jp).symm, add_zero]

theorem Pair.holding (h : Pair s u ip i none) : Holding s u (some ip) := by
  refine ⟨⟨h.vol, h.log, h.files, fun jp => ?_, h.inum, h.copy⟩, h.unlocked⟩
  rw [h.ref, ite_some_eq, if_neg (some_ne_none jp).symm, add_zero]

theorem Pair.iput (h : Pair s u ip i o) (hs : Sound sb s)
    (hsafe : (s.itable ip).ref ≠ 0 ∨ (s.vol.dinode i).nlink ≠ 0) :
    Wp (Fs.iput sb ip) u (fun _ t => Holding s t o ∧
      ∀ jp, (t.itable jp).inum = (u.itable jp).inum) E := by
  have hlast : ¬ ((u.itable ip).ref = 1 ∧ (u.itable ip).valid = true ∧
      (u.itable ip).d.nlink = 0) := by
    rintro ⟨hone, hvalid, hlink⟩
    rw [h.copy ip (by omega) hvalid, h.self] at hlink
    rw [h.ref, if_pos rfl] at hone
    have hnonneg := hs.ref ip
    rcases hsafe with hused | hlinks
    · split at hone <;> omega
    · exact hlinks hlink
  refine Wp.seq (R := fun _ t => t = u) (Wp.get_seq ?_) ?_
  · dsimp only
    rw [if_neg hlast]
    rfl
  rintro _ _ rfl
  rw [wp_modify]
  rename_i u
  have hentry : ∀ jp, (u.addRef ip (-1)).itable jp =
      { u.itable jp with ref := (u.itable jp).ref - if jp = ip then 1 else 0 } := by
    intro jp
    by_cases hj : jp = ip
    · subst hj
      simp [addRef, sub_eq_add_neg]
    · simp [addRef, hj]
  have href : ∀ jp, (u.itable jp).ref - (if jp = ip then 1 else 0) =
      (s.itable jp).ref + if o = some jp then 1 else 0 := by
    intro jp
    rw [h.ref]
    ring
  refine ⟨⟨⟨h.vol, h.log, h.files, fun jp => ?_, fun jp hjp => ?_, fun jp hjp hvalid => ?_⟩,
    fun jp => ?_⟩, fun jp => ?_⟩
  · rw [hentry]
    exact href jp
  · rw [hentry]
    exact h.inum jp hjp
  · have hu : (u.itable jp).ref ≠ 0 := by
      intro hzero
      have hnonneg := hs.ref jp
      have hsum := h.ref jp
      have hleft : (u.itable jp).ref - (if jp = ip then 1 else 0) ≠ 0 := by
        rw [hentry] at hjp
        exact hjp
      rw [href] at hleft
      rw [hzero] at hsum
      split at hsum <;> omega
    rw [hentry] at hvalid ⊢
    exact h.copy jp hu hvalid
  · rw [hentry]
    exact h.unlocked jp
  · rw [hentry]

end Put

namespace Locked

variable {o : Option InodeId}

variable (h : Locked s u ip i o)

include h

theorem ref_pos (hs : Sound sb s) : 1 ≤ (u.itable ip).ref := by
  have hnonneg := hs.ref ip
  rw [h.ref, if_pos rfl]
  split <;> omega

theorem d_eq (hs : Sound sb s) : (u.itable ip).d = s.vol.dinode i := by
  have hpos := h.ref_pos hs
  rw [h.copy ip (by omega) h.valid, h.self]

theorem eff_eq (hs : Sound sb s) : u.eff ip = s.vol := by
  rw [eff, h.d_eq hs, h.self, h.vol, update_eq_self]

theorem loaded (hs : Sound sb s) (halloc : (s.vol.dinode i).type ≠ .free) : Loaded sb u ip := by
  refine ⟨?_, ?_⟩
  · rw [h.eff_eq hs]
    exact hs.owned
  · rw [h.d_eq hs]
    exact halloc

omit h

theorem got {jp : InodeId} {j : ℕ} (h : Locked s u ip i none) (hs : Sound sb s)
    (hgot : Got u t jp j) : Locked s t ip i (some jp) := by
  have hpos := h.ref_pos hs
  have hused : ∀ kp, (u.itable kp).ref ≠ 0 → (t.itable kp).inum = (u.itable kp).inum ∧
      (t.itable kp).valid = (u.itable kp).valid ∧ (t.itable kp).d = (u.itable kp).d := by
    intro kp hkp
    by_cases hk : kp = jp
    · subst hk
      rw [hgot.kept hkp]
      exact ⟨rfl, rfl, rfl⟩
    · rw [hgot.others kp hk]
      exact ⟨rfl, rfl, rfl⟩
  refine ⟨⟨hgot.vol.trans h.vol, hgot.log.trans h.log, hgot.files.trans h.files, fun kp => ?_,
    fun kp hkp => ?_, fun kp hkp hvalid => ?_⟩, fun kp => ?_, ?_, ?_⟩
  · have href := h.ref kp
    rw [if_neg (some_ne_none kp).symm, add_zero] at href
    by_cases hk : kp = jp
    · subst hk
      rw [hgot.ref, href, if_pos rfl, add_assoc]
    · rw [hgot.others kp hk, href, if_neg (fun heq => hk (some.inj heq).symm), add_zero]
  · have hu : (u.itable kp).ref ≠ 0 := by
      have hnonneg := hs.ref kp
      rw [h.ref]
      split <;> split <;> omega
    rw [(hused kp hu).1, h.inum kp hkp]
  · by_cases hu : (u.itable kp).ref = 0
    · by_cases hk : kp = jp
      · subst hk
        rw [hgot.fresh hu] at hvalid
        cases hvalid
      · rw [hgot.others kp hk] at hkp
        exact absurd hu hkp
    · obtain ⟨hinum, hval, hd⟩ := hused kp hu
      rw [hd, hinum]
      exact h.copy kp hu (hval.symm.trans hvalid)
  · by_cases hk : kp = jp
    · subst hk
      rw [hgot.locked, h.locked]
    · rw [hgot.others kp hk, h.locked]
  · rw [(hused ip (by omega)).1, h.self]
  · rw [(hused ip (by omega)).2.1, h.valid]

include h

theorem iunlock (hs : Sound sb s) : Wp (Fs.iunlock ip) u (fun _ t => Pair s t ip i o ∧
      ∀ jp, (t.itable jp).inum = (u.itable jp).inum) E := by
  have hpos := h.ref_pos hs
  have hentry : ∀ jp, (u.setLocked ip false).itable jp = { u.itable jp with locked := false } := by
    intro jp
    have hlocked := h.locked jp
    by_cases hj : jp = ip
    · subst hj
      simp [setLocked]
    · rw [decide_eq_false hj] at hlocked
      simp [setLocked, hj, ← hlocked]
  refine Wp.get_seq ?_
  rw [if_neg (by rw [h.locked]; simp; omega), wp_modify]
  refine ⟨⟨⟨h.vol, h.log, h.files, fun jp => ?_, fun jp hjp => ?_, fun jp hjp hvalid => ?_⟩,
    fun jp => ?_, ?_⟩, fun jp => ?_⟩
  · rw [hentry]
    exact h.ref jp
  · rw [hentry]
    exact h.inum jp hjp
  · rw [hentry] at hjp hvalid ⊢
    exact h.copy jp hjp hvalid
  · rw [hentry]
  · rw [hentry]
    exact h.self
  · rw [hentry]

theorem iunlockput (hs : Sound sb s) (hsafe : (s.itable ip).ref ≠ 0 ∨ (s.vol.dinode i).nlink ≠ 0) :
    Wp (Fs.iunlockput sb ip) u (fun _ t => Holding s t o ∧
      ∀ jp, (t.itable jp).inum = (u.itable jp).inum) E := by
  refine (h.iunlock hs).seq fun _ t1 h1 => ?_
  refine (h1.1.iput hs hsafe).mono fun _ t2 h2 => ⟨h2.1, fun jp => ?_⟩
  rw [h2.2, h1.2]

end Locked

/-! ## One step of the resolution -/

namespace At

theorem ilock (h : At s t ip i) (hs : Sound sb s) :
    Wp (Fs.ilock sb ip) t (fun _ u => Locked s u ip i none) E := by
  have hnonneg := hs.ref ip
  have hpos : 1 ≤ (t.itable ip).ref := by
    rw [h.ref, if_pos rfl]
    omega
  have hself := h.self
  have hin : (t.itable ip).inum < sb.ninodes := by
    by_contra hge
    rw [hself] at hge
    exact h.alloc (hs.owned.past i (by omega))
  have hfree : (t.vol.dinode (t.itable ip).inum).type ≠ .free := by
    rw [h.vol, hself]
    exact h.alloc
  -- the lock and the copy of the inode are all that changes
  have hlocked : ∀ u : Kernel, u = t.setInode ip { t.itable ip with
      locked := true, valid := true, d := s.vol.dinode i } → Locked s u ip i none := by
    rintro u rfl
    refine ⟨⟨h.vol, h.log, h.files, fun jp => ?_, fun jp hjp => ?_, fun jp hjp hvalid => ?_⟩,
      fun jp => ?_, ?_, ?_⟩
    · rw [if_neg (some_ne_none jp).symm, add_zero]
      have href := h.ref jp
      by_cases hj : jp = ip
      · subst hj
        rw [if_pos rfl] at href ⊢
        simpa using href
      · rw [if_neg hj]
        rw [if_neg fun heq => hj (some.inj heq).symm] at href
        simpa [hj] using href
    · by_cases hj : jp = ip
      · subst hj
        simpa using h.inum jp hjp
      · simpa [hj] using h.inum jp hjp
    · by_cases hj : jp = ip
      · subst hj
        simp [hself]
      · simp only [setInode, update_of_ne hj] at hjp hvalid ⊢
        exact h.copy jp hjp hvalid
    · by_cases hj : jp = ip
      · subst hj
        simp
      · simp [hj, h.unlocked jp]
    · simpa using hself
    · simp
  refine Wp.get_seq ?_
  dsimp only
  have hunlocked : ¬ (t.itable ip).locked = true := by simp [h.unlocked ip]
  rw [if_neg (not_lt.mpr hpos), if_neg hunlocked]
  by_cases hvalid : (t.itable ip).valid = true
  · rw [if_pos hvalid]
    refine hlocked _ ?_
    have hd := h.copy ip (by omega) hvalid
    rw [hself] at hd
    simp [setLocked, hvalid, hd]
  rw [if_neg hvalid, if_neg (not_le.mpr hin), if_neg hfree]
  refine hlocked _ ?_
  dsimp only
  rw [h.vol, hself]

end At

/-- `iget` finds no entry when at most one is free. -/
def Kernel.NearlyFull (s : Kernel) (e : Halt) : Prop :=
  e = .panic "iget: no inodes" ∧ ∃ ip, ∀ jp, jp ≠ ip → (s.itable jp).ref ≠ 0

theorem Locked.dirlookup (h : Locked s u ip i none) (ht : Tree sb s p)
    (halloc : (s.vol.dinode i).type ≠ .free)
    (hsafe : (s.itable ip).ref ≠ 0 ∨ (s.vol.dinode i).nlink ≠ 0)
    (hdir : (s.vol.dinode i).type = .dir) (c : List UInt8) :
    Wp (Fs.dirlookup sb ip c) u (fun r u' => match s.vol.child i c with
      | some j => ∃ jp off, r = some (jp, off) ∧ Locked s u' ip i (some jp) ∧
          (u'.itable jp).inum = j ∧ (s.vol.dinode j).type ≠ .free ∧
          ((s.itable jp).ref ≠ 0 ∨ (s.vol.dinode j).nlink ≠ 0)
      | none => r = none ∧ u' = u) s.NearlyFull := by
  have hd := h.d_eq ht.toSound
  have hlookup : u.lookup ip c = Slots.find (nameOf c) (s.vol.slots i) := by
    rw [Kernel.lookup, Kernel.slots, h.eff_eq ht.toSound, h.self]
  have hspec := dirlookup_spec (h.loaded ht.toSound halloc) (by rw [hd]; exact hdir)
    (by rw [hd]; exact ht.whole i hdir) c
  rw [hlookup] at hspec
  refine (hspec.mono fun r u' hr => ?_).mono_halt ?_
  · rcases hfind : Slots.find (nameOf c) (s.vol.slots i) with _ | ⟨j, k⟩
    · rw [hfind] at hr
      rw [Volume.child, if_pos hdir, hfind]
      exact hr
    rw [hfind] at hr
    have hchild : s.vol.child i c = some j := by
      rw [Volume.child, if_pos hdir, hfind]
      rfl
    rw [hchild]
    obtain ⟨jp, rfl, hgot⟩ := hr
    obtain ⟨hallocj, hheld⟩ := ht.named j (.inr ⟨i, c, hchild⟩)
    refine ⟨jp, _, rfl, h.got ht.toSound hgot, hgot.inum, hallocj, ?_⟩
    rcases hheld with hlink | ⟨kp, hkp, hkinum⟩
    · exact .inr hlink
    -- the inode is in use, so `iget` has found an entry of it that is in use
    have hukp : 0 < (u.itable kp).ref := by
      have hnonneg := ht.ref kp
      rw [h.ref]
      split <;> split <;> omega
    have hused := hgot.found ⟨kp, hukp, (h.inum kp hkp).trans hkinum⟩
    by_cases hj : jp = ip
    · subst hj
      have hsame : i = j := by rw [← h.self, ← hgot.inum, hgot.kept hused]
      rw [← hsame]
      exact hsafe
    · rw [h.ref, if_neg hj, if_neg (Option.some_ne_none jp).symm] at hused
      exact .inl (by omega)
  rintro e ⟨rfl, hfull⟩
  refine ⟨rfl, ip, fun jp hne => ?_⟩
  have hjp := hfull jp
  rw [h.ref, if_neg hne, if_neg (Option.some_ne_none jp).symm] at hjp
  omega

/-! ## The loop of `namex` -/

def Resolved (s : Kernel) (parent : Bool) (i : ℕ) (cs : List (List UInt8))
    (r : Option (InodeId × List UInt8)) (t : Kernel) : Prop :=
  (Holding s t (r.map Prod.fst) ∧ ∀ q, r = some q → At s t q.1 (t.itable q.1).inum) ∧
    if parent then (r.map fun q => ((t.itable q.1).inum, q.2)) = s.vol.parent i cs
    else (r.map fun q => (t.itable q.1).inum) = s.vol.follow i cs

theorem namexLoop_spec (ht : Tree sb s p) (parent : Bool) {k : ℕ} {path name : List UInt8}
    (h : At s t ip i) (hk : path.length < k) :
    Wp (namexLoop sb parent k ip path name) t (Resolved s parent i (components path))
      s.NearlyFull := by
  induction k generalizing t ip i path name with
  | zero => omega
  | succ k ih =>
    have hfirst := skipelem_components path
    rw [namexLoop]
    rcases hskip : skipelem path with _ | ⟨c, rest⟩
    · -- the path has ended
      rw [hskip] at hfirst
      rw [hfirst]
      cases parent with
      | false =>
        refine ⟨⟨h.toHolding, fun q hq => ?_⟩, by simp [Volume.follow, h.self]⟩
        cases hq
        rw [h.self]
        exact h
      | true =>
        refine (h.pair.iput ht.toSound h.safe).seq fun _ t1 h1 => ?_
        exact ⟨⟨h1.1, fun q hq => by cases hq⟩, rfl⟩
    rw [hskip] at hfirst
    obtain ⟨hcomp, hlen, hend⟩ := hfirst
    dsimp only
    rw [hcomp]
    refine (h.ilock ht.toSound).seq fun _ u hu => ?_
    have hd := hu.d_eq ht.toSound
    refine Wp.get_seq ?_
    by_cases hdir : (s.vol.dinode i).type = .dir
    · rw [if_neg (by rw [hd]; exact not_not.mpr hdir)]
      by_cases hlast : parent = true ∧ rest.headD 0 = 0
      · -- the parent is found
        rw [if_pos hlast]
        refine (hu.iunlock ht.toSound).seq fun _ t1 h1 => ?_
        refine ⟨⟨h1.1.holding, fun q hq => ?_⟩, ?_⟩
        · cases hq
          rw [h1.1.self]
          exact ⟨h1.1.holding, h1.1.self, h.alloc, h.safe⟩
        rw [if_pos hlast.1, hend.mp hlast.2, Volume.parent, if_pos hdir, ← h1.1.self]
        rfl
      rw [if_neg hlast]
      have hmore : parent = true → components rest ≠ [] :=
        fun hp hnil => hlast ⟨hp, hend.mpr hnil⟩
      have hnext : (if parent then s.vol.parent i (c :: components rest) =
          (s.vol.child i c).bind fun j => s.vol.parent j (components rest) else True) := by
        cases parent with
        | false => trivial
        | true =>
          obtain ⟨e, es, hes⟩ := List.exists_cons_of_ne_nil (hmore rfl)
          rw [if_pos rfl, hes, Volume.parent]
          simp
      refine (hu.dirlookup ht h.alloc h.safe hdir c).seq fun r u1 hr => ?_
      rcases hchild : s.vol.child i c with _ | j
      · -- the name is missing
        rw [hchild] at hr hnext
        obtain ⟨rfl, rfl⟩ := hr
        refine (hu.iunlockput ht.toSound h.safe).seq fun _ t1 h1 => ?_
        refine ⟨⟨h1.1, fun q hq => by cases hq⟩, ?_⟩
        cases parent with
        | false => simp [Volume.follow, hchild]
        | true =>
          rw [if_pos rfl] at hnext ⊢
          rw [hnext]
          rfl
      rw [hchild] at hr hnext
      obtain ⟨jp, off, rfl, hu1, hinum, halloc, hsafe⟩ := hr
      refine (hu1.iunlockput ht.toSound h.safe).seq fun _ t1 h1 => ?_
      have hat : At s t1 jp j := ⟨h1.1, (h1.2 jp).trans hinum, halloc, hsafe⟩
      refine (ih hat (by omega)).mono fun r t2 h2 => ⟨h2.1, ?_⟩
      have hres := h2.2
      cases parent with
      | false =>
        rw [if_neg Bool.false_ne_true] at hres ⊢
        rw [hres, Volume.follow, hchild]
        rfl
      | true =>
        rw [if_pos rfl] at hres hnext ⊢
        rw [hres, hnext]
        rfl
    -- not a directory
    rw [if_pos (by rw [hd]; exact hdir)]
    refine (hu.iunlockput ht.toSound h.safe).seq fun _ t1 h1 => ?_
    refine ⟨⟨h1.1, fun q hq => by cases hq⟩, ?_⟩
    have hchild : s.vol.child i c = none := if_neg hdir
    cases parent with
    | false => simp [Volume.follow, hchild]
    | true =>
      rw [if_pos rfl]
      rcases components rest with _ | ⟨e, es⟩
      · rw [Volume.parent, if_neg hdir]
        rfl
      · rw [Volume.parent, hchild]
        · rfl
        · simp

/-! ## The whole resolution -/

theorem Tree.at_of_got (ht : Tree sb s p) {j : ℕ} (hgot : Got s t ip j)
    (halloc : (s.vol.dinode j).type ≠ .free)
    (hheld : (s.vol.dinode j).nlink ≠ 0 ∨ ∃ kp, (s.itable kp).ref ≠ 0 ∧ (s.itable kp).inum = j) :
    At s t ip j := by
  have hused : ∀ kp, (s.itable kp).ref ≠ 0 → (t.itable kp).inum = (s.itable kp).inum ∧
      (t.itable kp).valid = (s.itable kp).valid ∧ (t.itable kp).d = (s.itable kp).d := by
    intro kp hkp
    by_cases hk : kp = ip
    · subst hk
      rw [hgot.kept hkp]
      exact ⟨rfl, rfl, rfl⟩
    · rw [hgot.others kp hk]
      exact ⟨rfl, rfl, rfl⟩
  refine ⟨⟨⟨hgot.vol, hgot.log, hgot.files, fun kp => ?_, fun kp hkp => (hused kp hkp).1,
    fun kp hkp hvalid => ?_⟩, fun kp => ?_⟩, hgot.inum, halloc, ?_⟩
  · rw [ite_some_eq]
    by_cases hk : kp = ip
    · rw [if_pos hk, hk, hgot.ref]
    · rw [if_neg hk, hgot.others kp hk, add_zero]
  · by_cases hs : (s.itable kp).ref = 0
    · by_cases hk : kp = ip
      · subst hk
        rw [hgot.fresh hs] at hvalid
        cases hvalid
      · rw [hgot.others kp hk] at hkp
        exact absurd hs hkp
    · obtain ⟨hinum, hval, hd⟩ := hused kp hs
      rw [hd, hinum]
      exact ht.copy kp hs (hval.symm.trans hvalid)
  · by_cases hk : kp = ip
    · rw [hk, hgot.locked, ht.unlocked]
    · rw [hgot.others kp hk, ht.unlocked]
  rcases hheld with hlink | ⟨kp, hkp, hkinum⟩
  · exact .inr hlink
  · have hnonneg := ht.ref kp
    exact .inl (hgot.found ⟨kp, by omega, hkinum⟩)

theorem idup_got (href : 0 < (s.itable ip).ref) :
    Wp (idup ip) s (fun jp t => jp = ip ∧ Got s t ip (s.itable ip).inum) E := by
  refine ⟨rfl, rfl, rfl, rfl, fun jp hne => update_of_ne hne .., ?_, ?_, ?_, ?_,
    fun _ => update_self .., fun hz => by omega, fun _ => by omega⟩
  all_goals simp [addRef]
  omega

theorem namexStart_spec (ht : Tree sb s p) (path : List UInt8) :
    Wp (namexStart p path) s (fun ip t => At s t ip (s.start p path)) s.NearlyFull := by
  refine Wp.get_seq ?_
  rw [start]
  split
  · obtain ⟨halloc, hheld⟩ := ht.named ROOTINO (.inl rfl)
    refine ((iget_got ROOTINO).mono fun ip t hgot => ht.at_of_got hgot halloc hheld).mono_halt ?_
    rintro e ⟨rfl, hfull⟩
    exact ⟨rfl, 0, fun jp _ => hfull jp⟩
  obtain ⟨cwd, hcwd, href⟩ := ht.cwd
  have hnonneg := ht.ref cwd
  rw [hcwd]
  refine (idup_got (by omega)).mono ?_
  rintro jp t ⟨rfl, hgot⟩
  exact ht.at_of_got hgot (ht.used _ href) (.inr ⟨_, href, rfl⟩)

theorem namex_spec (ht : Tree sb s p) (path : List UInt8) (parent : Bool) :
    Wp (namex sb p path parent) s (Resolved s parent (s.start p path) (components path))
      s.NearlyFull := by
  refine (namexStart_spec ht path).seq fun ip t h => ?_
  exact namexLoop_spec ht parent h (Nat.lt_succ_self _)

/-- **Path resolution.** `skipelem` yields the components of the path; `namei` follows them, and
`nameiparent` all but the last, with no other effect than a reference to the inode found; an inode
has a path exactly if the parent of the path is found and has it under the last name. -/
theorem path_resolution (ht : Tree sb s p) (path : List UInt8) :
    (∀ k, path.length < k → elements k path = components path) ∧
    Wp (namei sb p path) s (fun r t => Holding s t r ∧ (r.map fun ip => (t.itable ip).inum) =
      s.vol.follow (s.start p path) (components path)) s.NearlyFull ∧
    Wp (nameiparent sb p path) s (fun r t => Holding s t (r.map Prod.fst) ∧
      (r.map fun q => ((t.itable q.1).inum, q.2)) =
        s.vol.parent (s.start p path) (components path) ∧
      ∀ dp name, r = some (dp, name) → Wp (do ilock sb dp; dirlookup sb dp name) t
        (fun o u => (o.map fun q => (u.itable q.1).inum) =
          s.vol.follow (s.start p path) (components path)) s.NearlyFull) s.NearlyFull ∧
    (components path = [] → s.vol.parent (s.start p path) (components path) = none) ∧
    (∀ ds c, components path = ds ++ [c] → s.vol.parent (s.start p path) (components path) =
      (s.vol.follow (s.start p path) ds).bind fun d =>
        if (s.vol.dinode d).type = .dir then some (d, c) else none) ∧
    (components path ≠ [] → s.vol.follow (s.start p path) (components path) =
      (s.vol.parent (s.start p path) (components path)).bind fun q => s.vol.child q.1 q.2) := by
  refine ⟨fun k hk => elements_eq_components hk, ?_, ?_, fun hnil => ?_, fun ds c hcs => ?_,
    Volume.follow_eq_parent _⟩
  · refine (namex_spec ht path false).seq fun r t h => ?_
    refine ⟨h.1.1, ?_⟩
    have hres := h.2
    rw [if_neg Bool.false_ne_true] at hres
    rw [← hres, Option.map_map]
    rfl
  · refine (namex_spec ht path true).mono fun r t h => ⟨h.1.1, ?_⟩
    have hres := h.2
    rw [if_pos rfl] at hres
    refine ⟨hres, ?_⟩
    rintro dp name rfl
    have hat := h.1.2 _ rfl
    have hparent := hres.symm
    have hne : components path ≠ [] := by
      intro hnil
      rw [hnil] at hparent
      cases hparent
    rw [Volume.follow_eq_parent _ hne, hparent]
    have hdir := Volume.dir_of_parent hparent
    refine (hat.ilock ht.toSound).seq fun _ u hu => ?_
    refine (hu.dirlookup ht hat.alloc hat.safe hdir name).mono fun o u' ho => ?_
    change _ = s.vol.child (t.itable dp).inum name
    rcases hchild : s.vol.child (t.itable dp).inum name with _ | j
    · rw [hchild] at ho
      rw [ho.1]
      rfl
    rw [hchild] at ho
    obtain ⟨jp, off, rfl, -, hinum, -⟩ := ho
    rw [← hinum]
    rfl
  · rw [hnil]
    rfl
  · rw [hcs, Volume.parent_append]

/-! ## A lookup in a section of its own -/

/-- The state after a section in which nothing was logged. -/
def Kernel.passed (s : Kernel) : Kernel :=
  { s with log := ⟨s.log.outstanding, ∅ :: s.log.ops⟩ }

theorem Sound.begun (h : Sound sb s) : Sound sb s.begun := ⟨h.owned, h.ref⟩

theorem Holding.endOp {o : Option InodeId} (h : Holding s.begun t o) :
    Wp Fs.endOp t (fun _ t' => Holding s.passed t' o) E := by
  rw [Fs.endOp, wp_modify]
  refine ⟨⟨h.vol, ?_, h.files, h.ref, h.inum, h.copy⟩, h.unlocked⟩
  dsimp only
  rw [h.log]
  simp [Kernel.begun, passed]

/-- `namei` finds `o` and only takes a reference to it; the inode is allocated and is not freed when
the reference is given back. -/
structure Finds (sb : Superblock) (s : Kernel) (p : ProcId) (path : List UInt8)
    (o : Option InodeId) (t : Kernel) : Prop where
  run : namei sb p path s.begun = .ok (o, t)
  holding : Holding s.begun t o
  found : ∀ ip, o = some ip → At s.begun t ip (t.itable ip).inum

/-- In a well-formed tree every lookup does, while two entries of the inode table are free. -/
theorem Tree.finds (ht : Tree sb s p) (hroom : ∀ ip, ∃ jp, jp ≠ ip ∧ (s.itable jp).ref = 0)
    (path : List UInt8) : ∃ o t, Finds sb s p path o t := by
  have ht' : Tree sb s.begun p :=
    ⟨⟨ht.owned, ht.ref⟩, ht.whole, ht.named, ht.used, ht.copy, ht.unlocked, ht.cwd⟩
  obtain ⟨r, t, hrun, ⟨hhold, hat⟩, -⟩ := ((namex_spec ht' path false).mono_halt
    (F := fun _ => False) (by
      rintro e ⟨-, ip, hfull⟩
      obtain ⟨jp, hne, hzero⟩ := hroom ip
      exact hfull jp hne hzero)).exists_ok
  refine ⟨r.map Prod.fst, t, ?_, hhold, fun ip hip => ?_⟩
  · rw [namei]
    exact (congrArg (fun x => x.bind fun w => .ok (w.1.map Prod.fst, w.2)) hrun :)
  · obtain ⟨q, hq, rfl⟩ := Option.map_eq_some_iff.mp hip
    exact hat q hq

/-! ## A small tree -/

/-- The root directory has one entry, `a`, a file with the bytes `bs`. -/
def Volume.withFile (bs : List UInt8) : Volume where
  dinode i := if i = ROOTINO then ⟨.dir, 0, 0, 1, 16, fun k => if k = 0 then 10 else 0⟩
    else if i = 2 then ⟨.file, 0, 0, 1, bs.length, fun k => if k = 0 then 11 else 0⟩
    else Dinode.zero
  bit b := decide (b ≤ 11)
  data b := Block.zero.write 0 (if b = 10 then Dirent.toBytes ⟨2, strncpy DIRSIZ [97]⟩ else bs)

section WithFile

variable {bs : List UInt8}

theorem Volume.dinode_withFile (h1 : i ≠ ROOTINO) (h2 : i ≠ 2) :
    (withFile bs).dinode i = Dinode.zero := (if_neg h1).trans (if_neg h2)

theorem Volume.dinode_withFile_root : (withFile bs).dinode ROOTINO =
    ⟨.dir, 0, 0, 1, 16, fun k => if k = 0 then 10 else 0⟩ := by simp [withFile]

theorem Volume.dinode_withFile_two : (withFile bs).dinode 2 =
    ⟨.file, 0, 0, 1, bs.length, fun k => if k = 0 then 11 else 0⟩ := rfl

theorem Volume.blockAt_withFile : (withFile bs).blockAt =
    update (update (fun _ => 0) (.slot ROOTINO 0) 10) (.slot 2 0) 11 := by
  funext P
  rcases P with ⟨i, k⟩ | ⟨i, j⟩
  · by_cases h1 : i = ROOTINO
    · by_cases hk : k = 0 <;> simp [blockAt, withFile, h1, hk, ROOTINO]
    · by_cases h2 : i = 2
      · by_cases hk : k = 0 <;> simp [blockAt, h2, dinode_withFile_two, hk, ROOTINO]
      · simp [blockAt, dinode_withFile h1 h2, Dinode.zero, h1, h2]
  by_cases h1 : i = ROOTINO
  · simp [blockAt, withFile, h1, NDIRECT]
  · by_cases h2 : i = 2
    · simp [blockAt, h2, dinode_withFile_two, NDIRECT]
    · simp [blockAt, dinode_withFile h1 h2, Dinode.zero]

theorem Volume.owned_withFile (hlen : bs.length ≤ BSIZE) : (withFile bs).Owned .small := by
  have hstart : Superblock.small.datastart = 10 := rfl
  refine ⟨⟨?_, fun b hb => ?_⟩, fun i bn ht hlt => ?_, fun i hi => ?_⟩
  · have hroot : Exclusive (update (fun _ : Place => 0) (.slot ROOTINO 0) 10) fun b => b = 10 :=
      exclusive_empty.take rfl (by decide) id fun b _ => by simp
    rw [blockAt_withFile]
    refine hroot.take (by simp [ROOTINO]) (by decide) (by decide) fun b _ => ?_
    have hsize : Superblock.small.size = 20 := rfl
    simp only [InUse, withFile, hstart, hsize, decide_eq_true_eq]
    omega
  · simp only [withFile, decide_eq_true_eq]
    omega
  · have hone : ∀ n, n ≤ BSIZE → bn * BSIZE < n → bn = 0 := by
      intro n hn hlt
      unfold BSIZE at *
      omega
    rw [fileBlock, blockAt_withFile]
    by_cases h1 : i = ROOTINO
    · rw [hone _ (by rw [h1, dinode_withFile_root]; decide) hlt, h1]
      decide
    by_cases h2 : i = 2
    · rw [hone _ (by rw [h2]; exact hlen) hlt, h2]
      decide
    · simp [dinode_withFile h1 h2, Dinode.zero] at ht
  · have hle : 8 ≤ i := hi
    rw [dinode_withFile (by unfold ROOTINO; omega) (by omega)]
    rfl

theorem Volume.slots_withFile : (withFile bs).slots ROOTINO = [some (nameOf [97], 2)] := by
  have hblock : (withFile bs).fileBlock ROOTINO 0 = 10 := by
    rw [fileBlock, blockAt_withFile]
    decide
  have hbytes : (withFile bs).bytes ROOTINO 0 DIRENT =
      (Block.zero.write 0 (Dirent.toBytes ⟨2, strncpy DIRSIZ [97]⟩)).read 0 DIRENT := by
    have hread : ((withFile bs).data ((withFile bs).fileBlock ROOTINO (0 / BSIZE))).read
        (0 % BSIZE) DIRENT = (withFile bs).bytes ROOTINO 0 DIRENT := read_block (by decide)
    rw [show 0 / BSIZE = 0 from rfl, hblock] at hread
    exact hread.symm
  have hone : ((withFile bs).dinode ROOTINO).size / DIRENT = 1 := by
    rw [dinode_withFile_root]
    rfl
  rw [slots, hone]
  change [((withFile bs).entry ROOTINO 0).slot] = _
  rw [entry, Nat.mul_zero, hbytes]
  decide +kernel

theorem Volume.child_withFile {i j : ℕ} {c : List UInt8} (h : (withFile bs).child i c = some j) :
    j = 2 := by
  rw [child] at h
  split at h
  · next hdir =>
    by_cases h1 : i = ROOTINO
    · rw [h1, slots_withFile] at h
      simp only [Slots.find] at h
      split at h
      all_goals simp_all
    by_cases h2 : i = 2
    · rw [h2] at hdir
      cases hdir
    · simp [dinode_withFile h1 h2, Dinode.zero] at hdir
  · cases h

theorem tree_withFile (hlen : bs.length ≤ BSIZE) : Tree .small (.boot (.withFile bs)) 0 := by
  refine ⟨⟨owned_withFile hlen, fun ip => ?_⟩, fun i hi => ?_, fun j hj => ?_, fun ip hip => ?_,
    fun ip _ hvalid => absurd hvalid Bool.false_ne_true, fun _ => rfl, ⟨0, rfl, one_ne_zero⟩⟩
  · change (0 : ℤ) ≤ if ip = 0 then 1 else 0
    split <;> decide
  · by_cases h1 : i = ROOTINO
    · rw [boot, h1, dinode_withFile_root]
      rfl
    by_cases h2 : i = 2
    · rw [h2] at hi
      cases hi
    · rw [boot, dinode_withFile h1 h2]
      rfl
  · rcases hj with rfl | ⟨i, c, hchild⟩
    · rw [boot, dinode_withFile_root]
      exact ⟨by decide, .inl (by decide)⟩
    · rw [child_withFile hchild, boot, dinode_withFile_two]
      exact ⟨FileType.noConfusion, .inl one_ne_zero⟩
  have hzero : ip = 0 := by
    by_contra hne
    exact hip (if_neg hne)
  rw [hzero]
  change ((withFile bs).dinode ROOTINO).type ≠ .free
  rw [dinode_withFile_root]
  exact FileType.noConfusion

theorem room_boot (v : Volume) (ip : InodeId) : ∃ jp, jp ≠ ip ∧ ((boot v).itable jp).ref = 0 := by
  by_cases hip : ip = 1
  · exact ⟨2, by rw [hip]; decide, rfl⟩
  · exact ⟨1, Ne.symm hip, rfl⟩

end WithFile

/-- The path `/a` leads through the entry of the root to inode 2. -/
theorem path_resolution_entry : ∃ r t,
    namei .small 0 [47, 97] (.boot (.withFile [])) = .ok (r, t) ∧
    Holding (.boot (.withFile [])) t r ∧ (r.map fun ip => (t.itable ip).inum) = some 2 := by
  obtain ⟨hiter, hnamei, -⟩ := path_resolution (tree_withFile (show ([] : List UInt8).length ≤ BSIZE by decide)) [47, 97]
  obtain ⟨r, t, hrun, hhold, hres⟩ := (hnamei.mono_halt (F := fun _ => False) (by
    rintro e ⟨-, ip, hfull⟩
    obtain ⟨jp, hne, hzero⟩ := room_boot (.withFile []) ip
    exact hfull jp hne hzero)).exists_ok
  refine ⟨r, t, hrun, hhold, ?_⟩
  rw [hres, ← hiter 3 (by decide)]
  decide +kernel

end Xv6.Fs

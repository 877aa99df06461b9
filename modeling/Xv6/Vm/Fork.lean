import Xv6.Vm.Isolation
import Xv6.Vm.Uvmcopy

/-!
# `kfork` copies a process

The specs of `freeproc`, `allocproc` and the loop over the open files, each with the pages it takes
or gives back, and from them what `kfork` does: the child is a copy of the parent on pages of its
own, or nothing has happened but for an `UNUSED` entry.

## Main results

* `fork_copies`: the child has a copy of its own; what a failed call leaves
-/

namespace Xv6.Vm

open Hoare Function Kernel Proc Multiset Table Option Wp List

/-! ## Freeing and allocating a process -/

variable {ly : Layout} {K : Multiset ℕ} {k k' : Kernel} {E : Halt → Prop} {i p np : Fin NPROC}
  {forkret : ℕ}

theorem Proc.Clean.freed_eq {r : Proc} (h : r.Clean) (hs : r.state = .unused) (st : ProcState)
    (pid : ℤ) (tf : Option ℕ) (pt : Option PageTable) (c : Context) :
    freed { r with state := st, pid := pid, trapframe := tf, pagetable := pt, context := c } =
      { r with killed := 0, context := c } := by
  obtain ⟨hpt, htf, hsz, hpid, hparent, hname, hchan, hxstate, -, -⟩ := h
  have hname' : update r.name 0 0 = r.name := by rw [← hname, update_eq_self]
  simp [freed, hs, hpt, htf, hsz, hpid, hparent, hname', hchan, hxstate]

theorem freeproc_spec {R : Multiset ℕ} (hsz : (k.proc i).sz = 0)
    (hpt : ∀ pt, (k.proc i).pagetable = some pt → ∃ tf, pt.leafs = kernelLeafs ly tf)
    (h : Owned ly k.mem ((k.proc i).pages + R)) :
    Wp (freeproc ly i) k (fun _ k' => ∃ s',
      k' = ({ k with mem := s' } : Kernel).setProc i Proc.freed ∧
      Owned ly s' R ∧ Frame R k.mem s') E := by
  unfold freeproc
  refine Wp.get_seq ?_
  set X := (k.proc i).pagetable.elim 0 fun pt => pt.tables + leafPages pt.leafs with hX
  have hpages : (k.proc i).pages + R =
      ((k.proc i).trapframe.elim 0 fun tf => {tf}) + (X + R) := by
    rw [Proc.pages, ← hX, add_comm X, add_assoc]
  rw [hpages] at h
  have htf : Wp ((k.proc i).trapframe.elim (pure ()) fun tf => kfree ly tf) k.mem
      (fun _ s1 => Owned ly s1 (X + R) ∧ Frame (X + R) k.mem s1) E := by
    rcases htf : (k.proc i).trapframe with _ | tf
    · rw [htf, Option.elim_none, zero_add] at h
      exact ⟨h, .refl _ _⟩
    · rw [htf, Option.elim_some] at h
      exact kfree_spec h
  refine Wp.zoom_seq htf ?_
  rintro _ s1 ⟨hown1, hframe1⟩
  have hpt' : Wp ((k.proc i).pagetable.elim (pure ()) fun pt =>
      procFreepagetable ly pt (k.proc i).sz) s1 (fun _ s2 => Owned ly s2 R ∧ Frame R k.mem s2) E := by
    rcases hr : (k.proc i).pagetable with _ | pt
    · rw [hX, hr, Option.elim_none, zero_add] at hown1 hframe1
      exact ⟨hown1, hframe1⟩
    rw [hX, hr, Option.elim_some, add_assoc] at hown1
    obtain ⟨tf, hleafs⟩ := hpt pt hr
    have hlow : ∀ v, npages 0 ≤ v → v < USERPAGES → pt.leafs v = none := by
      intro v _ hv
      rw [hleafs, kernelLeafs_of_lt hv]
    rw [hsz]
    refine (procFreepagetable_spec (Nat.zero_le _) (fun v _ => congrFun hleafs v) hlow
      hown1).mono ?_
    rintro _ s2 ⟨hown2, hframe2⟩
    exact ⟨hown2, hframe1.right.trans hframe2⟩
  refine Wp.zoom_seq hpt' ?_
  rintro _ s2 ⟨hown2, hframe2⟩
  exact ⟨s2, rfl, hown2, hframe2⟩

def Proc.allocated (forkret tf : ℕ) (pt : PageTable) (pid : ℤ) (r : Proc) : Proc :=
  { r with
    state := .used, pid := pid, trapframe := some tf, pagetable := some pt,
    context := .start forkret r.kstack }

/-- A call that made no process: the free pages, the content of all other pages and the reference
counts are as before, and the process table too, but for `killed` and the context of an `UNUSED`
entry. -/
structure Kernel.Failed (forkret : ℕ) (K : Multiset ℕ) (k k' : Kernel) : Prop where
  free : (k'.mem.free : Multiset ℕ) = k.mem.free
  data : ∀ q ∈ k.pages K, k'.mem.data q = k.mem.data q
  fileRef : k'.fileRef = k.fileRef
  inodeRef : k'.inodeRef = k.inodeRef
  proc : k'.proc = k.proc ∨ ∃ i c, (k.proc i).state = .unused ∧
    (c = (k.proc i).context ∨ c = .start forkret (k.proc i).kstack) ∧
    k'.proc = update k.proc i { k.proc i with killed := 0, context := c }

theorem Kernel.unused_eq_some (h : k.unused = some i) : (k.proc i).state = .unused := by
  have := find?_some h
  simpa using this

theorem Kernel.Wf.rest_eq (h : k.Wf ly K) (hs : (k.proc i).state = .unused) :
    k.rest K i = k.pages K := by rw [k.pages_eq K i, (h.clean i hs).pages_eq_zero, zero_add]

theorem Kernel.Wf.failed (h : k.Wf ly K) (hs : (k.proc i).state = .unused) {s' : Mem}
    {c : Context} (hc : c = (k.proc i).context ∨ c = .start forkret (k.proc i).kstack)
    (hproc : k'.proc = Function.update k.proc i { k.proc i with killed := 0, context := c })
    (hmem : k'.mem = s') (hfile : k'.fileRef = k.fileRef) (hinode : k'.inodeRef = k.inodeRef)
    (hown : Owned ly s' (k.pages K)) (hframe : Frame (k.pages K) k.mem s') :
    k'.Wf ly K ∧ k.Failed forkret K k' := by
  subst hmem
  have hself : k'.proc i = { k.proc i with killed := 0, context := c } := by
    rw [hproc, Function.update_self]
  have hclean := h.clean i hs
  refine ⟨h.update (i := i) (fun j hj => ?_) ?_ (fun hne => ?_) (fun _ => ?_), ?_, hframe.data,
    hfile, hinode, .inr ⟨i, c, hs, hc, hproc⟩⟩
  · rw [hproc, Function.update_of_ne hj]
  · have hzero : (k'.proc i).pages = 0 := by
      rw [hself]
      exact hclean.pages_eq_zero
    rw [hzero, zero_add, h.rest_eq hs]
    exact hown
  · rw [hself] at hne
    exact absurd hs hne
  · rw [hself]
    exact ⟨hclean.pagetable, hclean.trapframe, hclean.sz, hclean.pid, hclean.parent, hclean.name,
      hclean.chan, hclean.xstate, hclean.ofile, hclean.cwd⟩
  · exact add_right_cancel (hown.trans h.owned.symm)

theorem Kernel.Wf.freeproc_failed (h : k.Wf ly K) (hs : (k.proc i).state = .unused) {k1 : Kernel}
    {pid : ℤ} {tf : Option ℕ} {pt : Option PageTable} {c : Context}
    (hc : c = (k.proc i).context ∨ c = .start forkret (k.proc i).kstack)
    (hproc : k1.proc = Function.update k.proc i { k.proc i with
      state := .used, pid := pid, trapframe := tf, pagetable := pt, context := c })
    (hfile : k1.fileRef = k.fileRef) (hinode : k1.inodeRef = k.inodeRef)
    (hpt : ∀ pt', pt = some pt' → ∃ tf, pt'.leafs = kernelLeafs ly tf)
    (hown : Owned ly k1.mem ((k1.proc i).pages + k.pages K))
    (hframe : Frame (k.pages K) k.mem k1.mem) :
    Wp (freeproc ly i) k1 (fun _ k' => k'.Wf ly K ∧ k.Failed forkret K k') E := by
  have hself := congrFun hproc i
  rw [Function.update_self] at hself
  have hclean := h.clean i hs
  have hsz : (k1.proc i).sz = 0 := by
    rw [hself]
    exact hclean.sz
  have hpt' : ∀ pt', (k1.proc i).pagetable = some pt' → ∃ tf, pt'.leafs = kernelLeafs ly tf := by
    rw [hself]
    exact hpt
  refine (freeproc_spec hsz hpt' hown).mono ?_
  rintro _ _ ⟨s2, rfl, hown2, hframe2⟩
  refine h.failed hs hc ?_ rfl hfile hinode hown2 (hframe.trans hframe2)
  change Function.update k1.proc i (Proc.freed (k1.proc i)) = _
  rw [hself, hclean.freed_eq hs, hproc, Function.update_idem]

/-- **`allocproc`** takes up an `UNUSED` entry and gives it a trapframe and a page table without
user pages, or gives everything back. -/
theorem allocproc_spec (h : k.Wf ly K) : Wp (allocproc ly forkret) k (fun r k' =>
    match r with
    | none => k'.Wf ly K ∧ k.Failed forkret K k'
    | some i => (k.proc i).state = .unused ∧ ∃ s' tf pt,
        k' = ({ k with mem := s', nextpid := int32 (k.nextpid + 1) } : Kernel).setProc i
          (Proc.allocated forkret tf pt k.nextpid) ∧
        Owned ly s' (pt.tables + ({tf} + k.pages K)) ∧ pt.leafs = kernelLeafs ly tf ∧
        Frame (k.pages K) k.mem s') E := by
  unfold allocproc
  refine Wp.get_seq ?_
  rcases hu : k.unused with _ | i
  · exact ⟨h, rfl, fun _ _ => rfl, rfl, rfl, .inl rfl⟩
  have hs := Kernel.unused_eq_some hu
  have hclean := h.clean i hs
  have hctx : (k.proc i).context = (k.proc i).context ∨
      (k.proc i).context = .start forkret (k.proc i).kstack := .inl rfl
  have hpid : Wp allocpid k (fun r k1 => r = k.nextpid ∧
      k1 = { k with nextpid := int32 (k.nextpid + 1) }) E := ⟨rfl, rfl⟩
  refine hpid.seq ?_
  rintro _ _ ⟨rfl, rfl⟩
  refine Wp.modify_seq (Wp.zoom_seq (kalloc_spec h.owned) ?_)
  rintro tf s1 ⟨hframe1, hown1⟩
  refine Wp.modify_seq ?_
  rcases tf with _ | tf
  · generalize hk : Kernel.setProc _ i _ = k1
    have hproc : k1.proc = update k.proc i { k.proc i with
        state := .used, pid := k.nextpid, trapframe := none, pagetable := none,
        context := (k.proc i).context } := by
      rw [← hk, ← hclean.pagetable]
      simp only [Kernel.setProc, update_idem, update_self]
    have hown : Owned ly k1.mem ((k1.proc i).pages + k.pages K) := by
      rw [hproc, update_self, ← hk]
      change Owned ly s1 (0 + 0 + k.pages K)
      rw [zero_add, zero_add]
      exact hown1.1
    subst hk
    refine (h.freeproc_failed hs hctx hproc rfl rfl (by simp) hown hframe1).seq ?_
    exact fun _ _ h2 => h2
  refine Wp.zoom_seq (procPagetable_spec hown1) ?_
  rintro pt s2 ⟨hframe2, hown2⟩
  refine Wp.modify_seq ?_
  rcases pt with _ | pt
  · generalize hk : Kernel.setProc _ i _ = k1
    have hproc : k1.proc = update k.proc i { k.proc i with
        state := .used, pid := k.nextpid, trapframe := some tf, pagetable := none,
        context := (k.proc i).context } := by
      rw [← hk]
      simp only [Kernel.setProc, update_idem, update_self]
    have hown : Owned ly k1.mem ((k1.proc i).pages + k.pages K) := by
      rw [hproc, update_self, ← hk]
      change Owned ly s2 (0 + {tf} + k.pages K)
      rw [zero_add]
      exact hown2
    subst hk
    refine (h.freeproc_failed hs hctx hproc rfl rfl (by simp) hown
      (hframe1.trans hframe2.right)).seq ?_
    exact fun _ _ h2 => h2
  · refine Wp.modify_seq ⟨hs, s2, tf, pt, ?_, hown2.1, hown2.2, hframe1.trans hframe2.right⟩
    simp only [Kernel.setProc, update_idem, update_self]
    rfl

/-! ## Copying the entry -/

def Registers (parent child : Bytes) : Prop :=
  ∀ off < TRAPFRAMESIZE, child off = if A0 ≤ off ∧ off < A0 + 8 then 0 else parent off

theorem copyTrapframe_spec {s : Mem} (dst src : ℕ) : Wp (copyTrapframe dst src) s (fun _ s' =>
    ∃ b, s' = s.fill dst b ∧ Registers (s.data src) b) E := by
  unfold copyTrapframe
  refine modify_seq ⟨((s.data dst).write 0 ((s.data src).read 0 TRAPFRAMESIZE)).write A0
    (replicate 8 0), ?_, ?_⟩
  · simp only [Mem.fill, update_self, update_idem]
  intro off hoff
  unfold Bytes.write
  rw [length_replicate]
  split
  · next h =>
    rw [getD_eq_getElem?_getD, getElem?_replicate, if_pos (by omega)]
    rfl
  · rw [Bytes.length_read, if_pos (by omega), getD_eq_getElem?_getD,
      Bytes.getElem?_read _ (by omega)]
    simp

theorem dupFile_spec (fd : Fin NOFILE)
    (hfiles : ∀ f, (k.proc p).ofile fd = some f → 1 ≤ k.fileRef f) :
    Wp (dupFile p np fd) k (fun _ k' => k' = ((k.proc p).ofile fd).elim k fun f =>
      ({ k with fileRef := update k.fileRef f (k.fileRef f + 1) } : Kernel).setProc np
        fun c => { c with ofile := update c.ofile fd (some f) }) E := by
  unfold dupFile
  refine get_seq ?_
  rcases hf : (k.proc p).ofile fd with _ | f
  · rfl
  have hdup : Wp (filedup f) k (fun _ k1 =>
      k1 = { k with fileRef := update k.fileRef f (k.fileRef f + 1) }) E := by
    unfold filedup
    refine get_seq ?_
    rw [if_neg (by have := hfiles f hf; omega)]
    rfl
  refine hdup.seq ?_
  rintro _ _ rfl
  rfl

theorem dupFiles_spec (hne : p ≠ np) (l : List (Fin NOFILE))
    (hfiles : ∀ fd f, (k.proc p).ofile fd = some f → 1 ≤ k.fileRef f) :
    Wp (l.forM (dupFile p np)) k (fun _ k' => ∃ ofile ref,
      k' = ({ k with fileRef := ref } : Kernel).setProc np (fun c => { c with ofile := ofile }) ∧
      (∀ fd, ofile fd = if fd ∈ l ∧ (k.proc p).ofile fd ≠ none then (k.proc p).ofile fd
        else (k.proc np).ofile fd) ∧
      ∀ f, ref f = k.fileRef f + l.countP fun fd => (k.proc p).ofile fd = some f) E := by
  induction l generalizing k with
  | nil =>
    refine ⟨(k.proc np).ofile, k.fileRef, ?_, fun fd => by simp, fun f => by simp⟩
    simp only [Kernel.setProc]
    rw [update_eq_self]
  | cons fd l ih =>
    refine (dupFile_spec fd (hfiles fd)).seq ?_
    rintro _ k1 hk1
    rcases hf : (k.proc p).ofile fd with _ | f
    · rw [hf, Option.elim_none] at hk1
      subst hk1
      refine (ih hfiles).mono ?_
      rintro _ k2 ⟨ofile, ref, hk2, hofile, href⟩
      refine ⟨ofile, ref, hk2, fun fd' => ?_, fun f => ?_⟩
      · rw [hofile fd']
        by_cases hfd : fd' = fd
        · subst hfd
          simp [hf]
        · simp [hfd]
      · rw [href f, List.countP_cons_of_neg (by simp [hf])]
    rw [hf, Option.elim_some] at hk1
    have hp : k1.proc p = k.proc p := by
      rw [hk1]
      exact Kernel.setProc_of_ne _ hne
    have href1 : k1.fileRef = update k.fileRef f (k.fileRef f + 1) := by rw [hk1]; rfl
    have hnp : k1.proc np =
        { k.proc np with ofile := update (k.proc np).ofile fd (some f) } := by
      rw [hk1]
      exact Kernel.setProc_self _
    have hfiles1 : ∀ fd f, (k1.proc p).ofile fd = some f → 1 ≤ k1.fileRef f := by
      intro fd' f' hf'
      rw [hp] at hf'
      have hle := hfiles fd' f' hf'
      rw [href1, update_apply]
      split
      · next heq =>
        subst heq
        omega
      · exact hle
    refine (ih hfiles1).mono ?_
    rintro _ k2 ⟨ofile, ref, hk2, hofile, href⟩
    rw [hp, hnp] at hofile
    rw [hp, href1] at href
    refine ⟨ofile, ref, ?_, fun fd' => ?_, fun f' => ?_⟩
    · rw [hk2, hk1]
      simp only [Kernel.setProc, update_idem, update_self]
    · rw [hofile fd']
      by_cases hfd : fd' = fd
      · subst hfd
        simp [hf]
      · simp [hfd]
    rw [href f', update_apply]
    by_cases hff : f' = f
    · subst hff
      rw [if_pos rfl, List.countP_cons_of_pos (by simp [hf])]
      push_cast
      ring
    · rw [if_neg hff, List.countP_cons_of_neg (by simp [hf, Ne.symm hff])]

def Proc.forked (p : Fin NPROC) (parent : Proc) (c : Proc) : Proc :=
  { c with
    sz := parent.sz, ofile := parent.ofile, cwd := parent.cwd,
    name := copyName c.name parent.name, parent := some p, state := .runnable }

def Proc.holdsFile (r : Proc) (f : Fin NFILE) : ℕ :=
  (List.finRange NOFILE).countP fun fd => r.ofile fd = some f

variable {ip : Fin NINODE}

theorem kforkRest_spec {dst src : ℕ} (hne : p ≠ np)
    (hdst : (k.proc np).trapframe = some dst) (hsrc : (k.proc p).trapframe = some src)
    (hcwd : (k.proc p).cwd = some ip) (hnew : (k.proc np).ofile = fun _ => none)
    (hfiles : ∀ fd f, (k.proc p).ofile fd = some f → 1 ≤ k.fileRef f) :
    Wp (kforkRest p np) k (fun r k' => r = (k.proc np).pid ∧ ∃ b ref,
      k' = ({ k with
        mem := k.mem.fill dst b, fileRef := ref
        inodeRef := update k.inodeRef ip (k.inodeRef ip + 1) } : Kernel).setProc np
          (Proc.forked p (k.proc p)) ∧
      Registers (k.mem.data src) b ∧
      ∀ f, ref f = k.fileRef f + (k.proc p).holdsFile f) E := by
  unfold kforkRest
  refine Wp.get_seq (Wp.modify_seq ?_)
  rw [hdst, hsrc, hcwd]
  refine Wp.zoom_seq (copyTrapframe_spec dst src) ?_
  rintro _ _ ⟨b, rfl, hregs⟩
  generalize hk : Kernel.mk _ _ _ _ _ = k1
  have hp : k1.proc p = k.proc p := by
    rw [← hk]
    exact update_of_ne hne ..
  have hfiles1 : ∀ fd f, (k1.proc p).ofile fd = some f → 1 ≤ k1.fileRef f := by
    rw [hp, ← hk]
    exact hfiles
  refine (dupFiles_spec hne (List.finRange NOFILE) hfiles1).seq ?_
  rintro _ k2 ⟨ofile, ref, hk2, hofile, href⟩
  have hofile' : ofile = (k.proc p).ofile := by
    funext fd
    rw [hofile fd, hp]
    split
    · rfl
    next hnone =>
    have hself : (k1.proc np).ofile fd = none := by
      rw [← hk]
      simp only [Kernel.setProc, update_self, hnew]
    have : (k.proc p).ofile fd = none := by
      by_contra hsome
      exact hnone ⟨List.mem_finRange fd, hsome⟩
    rw [hself, this]
  subst hofile' hk2 hk
  unfold idup
  refine Wp.modify_seq (Wp.modify_seq (Wp.modify_seq (Wp.modify_seq ⟨rfl, b, ref, ?_, hregs, ?_⟩)))
  · simp only [Kernel.setProc, update_idem, update_self,
      update_of_ne hne]
    rw [Proc.forked, hcwd]
  · intro f
    rw [href f, hp]
    rfl

/-! ## kfork -/

structure Kernel.Forked (forkret : ℕ) (K : Multiset ℕ) (k k' : Kernel) (p np : Fin NPROC) :
    Prop where
  unused : (k.proc np).state = .unused
  /-- The other processes, among them the parent, keep their entries and their pages. -/
  others : ∀ j, j ≠ np → k.Same k' j
  size : (k'.proc np).sz = (k.proc p).sz
  memory : ∃ pt pt', (k.proc p).pagetable = some pt ∧ (k'.proc np).pagetable = some pt' ∧
    (∀ v < npages (k.proc p).sz, CopyOf k.mem k'.mem (pt.leafs v) (pt'.leafs v)) ∧
    ∀ v, npages (k.proc p).sz ≤ v → v < USERPAGES → pt'.leafs v = none
  disjoint : ∀ j, j ≠ np → Disjoint (k'.proc np).pages (k'.proc j).pages
  registers : ∃ tf tf', (k.proc p).trapframe = some tf ∧ (k'.proc np).trapframe = some tf' ∧
    Registers (k.mem.data tf) (k'.mem.data tf')
  ofile : (k'.proc np).ofile = (k.proc p).ofile
  fileRef : ∀ f, k'.fileRef f = k.fileRef f + (k.proc p).holdsFile f
  cwd : (k'.proc np).cwd = (k.proc p).cwd
  inodeRef : ∀ ip, k'.inodeRef ip = k.inodeRef ip + if (k.proc p).cwd = some ip then 1 else 0
  pid : (k'.proc np).pid = k.nextpid
  parent : (k'.proc np).parent = some p
  runnable : (k'.proc np).state = .runnable
  context : (k'.proc np).context = .start forkret (k.proc np).kstack

theorem Kernel.Wf.disjoint (h : k.Wf ly K) {j : Fin NPROC} (hj : j ≠ i) :
    Disjoint (k.proc i).pages (k.proc j).pages := by
  have hnodup := h.owned.nodup
  rw [k.pages_eq K i, nodup_add] at hnodup
  exact hnodup.2.2.mono_right (pages_le_rest hj)

theorem Kernel.mem_pages {pt : PageTable} (hpt : (k.proc p).pagetable = some pt) {v : ℕ} {l : Leaf}
    (hv : v < USERPAGES) (hl : pt.leafs v = some l) : l.pa ∈ k.pages K := by
  rw [k.pages_eq K p, Proc.pages, hpt, Option.elim_some]
  simp only [Multiset.mem_add]
  exact .inl (.inl (.inr (mem_leafPages hv hl)))

theorem Kernel.trapframe_mem_pages {tf : ℕ} (htf : (k.proc p).trapframe = some tf) :
    tf ∈ k.pages K := by
  rw [k.pages_eq K p, Proc.pages, htf, Option.elim_some]
  simp only [Multiset.mem_add]
  exact .inl (.inr (Multiset.mem_singleton_self tf))

theorem Kernel.Wf.forked (h : k.Wf ly K) (hs : (k.proc p).state ≠ .unused)
    (hun : (k.proc np).state = .unused) {pt pt' : PageTable} {tf tf' : ℕ} {s1 s2 : Mem} {b : Bytes}
    (hpt : (k.proc p).pagetable = some pt)
    (htf : (k.proc p).trapframe = some tf) (hcwd : (k.proc p).cwd = some ip)
    (hframe1 : Frame (k.pages K) k.mem s1) (hframe2 : Frame ({tf'} + k.pages K) s1 s2)
    (hold : Holds ly s2 pt' ({tf'} + k.pages K))
    (hdup : Duplicated pt.leafs (kernelLeafs ly tf') pt'.leafs (npages (k.proc p).sz) s1 s2)
    (hregs : Registers (s2.data tf) b) (hmem : k'.mem = s2.fill tf' b)
    (hproc : k'.proc = Function.update k.proc np (Proc.forked p (k.proc p)
      (Proc.allocated forkret tf' pt' k.nextpid (k.proc np))))
    (hfile : ∀ f, k'.fileRef f = k.fileRef f + (k.proc p).holdsFile f)
    (hinode : k'.inodeRef = Function.update k.inodeRef ip (k.inodeRef ip + 1)) :
    k'.Wf ly K ∧ k.Forked forkret K k' p np := by
  obtain ⟨pt0, hpt0, hsz, -, -⟩ := (h.alive p hs).pagetable
  have hself := congrFun hproc np
  rw [Function.update_self] at hself
  have hother : ∀ j, j ≠ np → k'.proc j = k.proc j := by
    intro j hj
    rw [hproc, Function.update_of_ne hj]
  have hnodup := hold.nodup
  rw [← add_assoc, Multiset.nodup_add, add_comm, Multiset.singleton_add, Multiset.nodup_cons]
    at hnodup
  obtain ⟨⟨htf'_leaf, -⟩, -, hdisj⟩ := hnodup
  have htf'_pages : tf' ∉ k.pages K := by
    refine Multiset.disjoint_left.mp hdisj ?_
    exact Multiset.mem_cons_self ..
  have hframe3 : Frame (k.pages K) k.mem k'.mem := by
    rw [hmem]
    exact (hframe1.trans hframe2.right).trans (Frame.fill htf'_pages b)
  have hpages : (k'.proc np).pages = pt'.tables + (leafPages pt'.leafs + {tf'}) := by
    rw [hself]
    exact Proc.pages_eq rfl rfl
  have hlow : ∀ v, npages (k.proc p).sz ≤ v → v < USERPAGES → pt'.leafs v = none := by
    intro v hv hlt
    rw [hdup.rest v hv, kernelLeafs_of_lt hlt]
  have hle := npages_le_userpages hsz
  have hwf : k'.Wf ly K := by
    refine h.update hother ?_ (fun _ => ?_) (fun hne => ?_)
    · rw [hpages, h.rest_eq hun, add_assoc, add_assoc, hmem]
      exact hold
    · rw [hself]
      refine ⟨⟨tf', rfl⟩, pt', rfl, hsz, fun v l hv hl => ?_, hlow⟩
      rw [hdup.rest v (by omega)] at hl
      exact kernelLeafs_perm hl
    · rw [hself] at hne
      cases hne
  have hsame : ∀ j, j ≠ np → k.Same k' j := by
    intro j hj
    refine ⟨hother j hj, fun q hq => hframe3.data q ?_⟩
    rw [k.pages_eq K j]
    exact Multiset.mem_add.mpr (.inl hq)
  have hcopy : ∀ v < npages (k.proc p).sz, CopyOf k.mem k'.mem (pt.leafs v) (pt'.leafs v) := by
    intro v hv
    refine (hdup.copy v hv).congr (fun l hl => ?_) fun l hl => ?_
    · exact hframe1.data _ (Kernel.mem_pages hpt (by omega) hl)
    rw [hmem]
    refine Function.update_of_ne ?_ ..
    rintro rfl
    exact htf'_leaf (mem_leafPages (by omega) hl)
  have hregs' : Registers (k.mem.data tf) (k'.mem.data tf') := by
    have hsrc : s2.data tf = k.mem.data tf :=
      (hframe1.trans hframe2.right).data tf (Kernel.trapframe_mem_pages htf)
    have hdst : k'.mem.data tf' = b := by
      rw [hmem]
      exact Function.update_self ..
    rw [hdst, ← hsrc]
    exact hregs
  have hinode' : ∀ i, k'.inodeRef i = k.inodeRef i + if (k.proc p).cwd = some i then 1 else 0 := by
    intro i
    rw [hinode, hcwd, Function.update_apply]
    by_cases hi : i = ip
    · subst hi
      rw [if_pos rfl, if_pos rfl]
    · rw [if_neg hi, if_neg (by simpa using Ne.symm hi), add_zero]
  refine ⟨hwf, ?_⟩
  -- What is left is read off the entry of the child.
  exact {
    unused := hun
    others := hsame
    size := by rw [hself]; rfl
    memory := ⟨pt, pt', hpt, by rw [hself]; rfl, hcopy, hlow⟩
    disjoint := fun j hj => hwf.disjoint hj
    registers := ⟨tf, tf', htf, by rw [hself]; rfl, hregs'⟩
    ofile := by rw [hself]; rfl
    fileRef := hfile
    cwd := by rw [hself]; rfl
    inodeRef := hinode'
    pid := by rw [hself]; rfl
    parent := by rw [hself]; rfl
    runnable := by rw [hself]; rfl
    context := by rw [hself]; rfl }

theorem kfork_spec (h : k.Wf ly K) (hs : (k.proc p).state ≠ .unused)
    (hcwd : (k.proc p).cwd = some ip)
    (hfiles : ∀ fd f, (k.proc p).ofile fd = some f → 1 ≤ k.fileRef f) :
    Wp (kfork ly forkret p) k (fun r k' => k'.Wf ly K ∧ (r = -1 ∧ k.Failed forkret K k' ∨
        r = k.nextpid ∧ ∃ np, k.Forked forkret K k' p np)) E := by
  obtain ⟨tf, htf⟩ := (h.alive p hs).trapframe
  obtain ⟨pt, hpt, hsz, -, -⟩ := (h.alive p hs).pagetable
  unfold kfork
  refine (allocproc_spec h).seq ?_
  rintro (_ | np) k1 h1
  · exact ⟨h1.1, .inl ⟨rfl, h1.2⟩⟩
  obtain ⟨hun, s1, tf', pt', hk1, hown1, hleafs1, hframe1⟩ := h1
  have hne : p ≠ np := by
    rintro rfl
    exact hs hun
  have hp1 : k1.proc p = k.proc p := by
    rw [hk1]
    exact update_of_ne hne ..
  have hnp1 : k1.proc np = Proc.allocated forkret tf' pt' k.nextpid (k.proc np) := by
    rw [hk1]
    exact update_self ..
  have hmem1 : k1.mem = s1 := by rw [hk1]; rfl
  have hempty : ∀ v < USERPAGES, pt'.leafs v = none := by
    intro v hv
    rw [hleafs1, kernelLeafs_of_lt hv]
  have hin : ∀ v < USERPAGES, ∀ l, pt.leafs v = some l → l.pa ∈ {tf'} + k.pages K :=
    fun v hv l hl => Multiset.mem_add.mpr (.inr (Kernel.mem_pages hpt hv hl))
  have hold1 : Holds ly k1.mem pt' ({tf'} + k.pages K) := by
    rw [hmem1]
    exact (holds_iff_owned hempty).mpr hown1
  refine Wp.get_seq ?_
  rw [hp1, hnp1, hpt]
  refine Wp.zoom_seq (uvmcopy_spec hsz hempty hin hold1) ?_
  rintro r s2 ⟨hold2, hframe2, hok, hfail⟩
  rw [hmem1] at hframe2 hok
  refine Wp.modify_seq ?_
  generalize hk2 : Kernel.setProc _ np _ = k2
  have hproc2 : k2.proc =
      update k.proc np (Proc.allocated forkret tf' r.1 k.nextpid (k.proc np)) := by
    rw [← hk2, hk1]
    simp only [Kernel.setProc, update_idem, update_self]
    rfl
  have hmem2 : k2.mem = s2 := by rw [← hk2]; rfl
  have hfile2 : k2.fileRef = k.fileRef := by rw [← hk2, hk1]; rfl
  have hinode2 : k2.inodeRef = k.inodeRef := by rw [← hk2, hk1]; rfl
  have hp2 : k2.proc p = k.proc p := by rw [hproc2, update_of_ne hne]
  have hnp2 : k2.proc np = Proc.allocated forkret tf' r.1 k.nextpid (k.proc np) := by
    rw [hproc2, update_self]
  rcases hr : r.2 with _ | _
  · rw [if_neg (by simp)]
    have hown2 : Owned ly k2.mem ((k2.proc np).pages + k.pages K) := by
      rw [hnp2, Proc.pages_eq rfl rfl, add_assoc, add_assoc, hmem2]
      exact hold2
    have hleafs2 : ∀ pt2, some r.1 = some pt2 → ∃ tf, pt2.leafs = kernelLeafs ly tf := by
      rintro _ ⟨⟩
      exact ⟨tf', by rw [(hfail hr).1, hleafs1]⟩
    refine (h.freeproc_failed hun (.inr rfl) hproc2 hfile2 hinode2 hleafs2 hown2 ?_).seq ?_
    · rw [hmem2]
      exact hframe1.trans hframe2.right
    · rintro _ k3 ⟨hwf, hfailed⟩
      exact ⟨hwf, .inl ⟨rfl, hfailed⟩⟩
  rw [if_pos rfl]
  have hdst : (k2.proc np).trapframe = some tf' := by rw [hnp2]; rfl
  have hsrc : (k2.proc p).trapframe = some tf := by rw [hp2, htf]
  have hcwd2 : (k2.proc p).cwd = some ip := by rw [hp2, hcwd]
  have hnew : (k2.proc np).ofile = fun _ => none := by
    rw [hnp2]
    exact (h.clean np hun).ofile
  have hfiles2 : ∀ fd f, (k2.proc p).ofile fd = some f → 1 ≤ k2.fileRef f := by
    rw [hp2, hfile2]
    exact hfiles
  refine (kforkRest_spec hne hdst hsrc hcwd2 hnew hfiles2).mono ?_
  rintro _ k3 ⟨rfl, b, ref, hk3, hregs, href⟩
  rw [hp2, hfile2] at href
  rw [hmem2] at hregs
  have hdup := hok hr
  rw [hleafs1] at hdup
  have hmem3 : k3.mem = s2.fill tf' b := by rw [hk3, ← hmem2]; rfl
  have hproc3 : k3.proc = update k.proc np (Proc.forked p (k.proc p)
      (Proc.allocated forkret tf' r.1 k.nextpid (k.proc np))) := by
    rw [hk3]
    change update k2.proc np (Proc.forked p (k2.proc p) (k2.proc np)) = _
    rw [hp2, hnp2, hproc2, update_idem]
  have hfile3 : ∀ f, k3.fileRef f = k.fileRef f + (k.proc p).holdsFile f := by
    rw [hk3]
    exact href
  have hinode3 : k3.inodeRef = update k.inodeRef ip (k.inodeRef ip + 1) := by
    rw [hk3, ← hinode2]
    rfl
  obtain ⟨hwf, hforked⟩ := h.forked hs hun hpt htf hcwd hframe1 hframe2 hold2 hdup hregs hmem3
    hproc3 hfile3 hinode3
  exact ⟨hwf, .inr ⟨by rw [hnp2]; rfl, np, hforked⟩⟩

/-- **`fork` copies and isolates**, whatever the parent and wherever `kalloc` fails. The call
returns. -/
theorem fork_copies (h : k.Wf ly K) (hs : (k.proc p).state = .running)
    (hcwd : (k.proc p).cwd ≠ none)
    (hfiles : ∀ fd f, (k.proc p).ofile fd = some f → 1 ≤ k.fileRef f) :
    ∃ r k', kfork ly forkret p k = .ok (r, k') ∧ k'.Wf ly K ∧ k'.Isolated ly ∧
      (0 ≤ r → r = k.nextpid ∧ ∃ np, k.Forked forkret K k' p np) ∧
      (r = -1 → k.nextpid ≠ -1 → k.Failed forkret K k') := by
  obtain ⟨ip, hip⟩ := Option.ne_none_iff_exists'.mp hcwd
  have hne : (k.proc p).state ≠ .unused := by
    rw [hs]
    decide
  obtain ⟨r, k', hrun, hwf, hres⟩ := (kfork_spec h hne hip hfiles).exists_ok
  refine ⟨r, k', hrun, hwf, hwf.isolated, fun hr => ?_, fun hr hpid => ?_⟩
  · rcases hres with ⟨rfl, -⟩ | hres
    · omega
    · exact hres
  · rcases hres with ⟨-, hfailed⟩ | ⟨hr', -⟩
    · exact hfailed
    · omega

/-! A process of one page on a machine of nine pages, of which four are free: enough for the entry
of a child, and not for its memory. -/

def Proc.zero : Proc where
  state := .unused
  chan := 0
  killed := 0
  xstate := 0
  pid := 0
  parent := none
  kstack := 0
  sz := 0
  pagetable := none
  trapframe := none
  context := ⟨0, 0, fun _ => 0⟩
  ofile := fun _ => none
  cwd := none
  name := fun _ => 0

def lowTables : PageTable :=
  (Table.empty 1).set (px 2 0) (some ((Table.empty 2).set (px 1 0) (some (.empty 3))))

def oneProcess : Kernel where
  mem := ⟨[6, 7, 8, 9], fun _ _ => 0, [], false⟩
  proc i := if i = 0 then
      { Proc.zero with
        state := .running, pid := 1, sz := PGSIZE, trapframe := some 5, cwd := some 0,
        pagetable := some (lowTables.setPte 0 (some ⟨4, lazyPerm⟩)) }
    else .zero
  nextpid := 2
  fileRef _ := 0
  inodeRef _ := 1

def ninePages : Layout := ⟨1, 10, 0, [1, 2, 3, 4, 5, 6, 7, 8, 9], by decide, by decide⟩

theorem lowTables_leafs : lowTables.leafs = fun _ => none := by
  rw [← leafs_empty 1]
  refine leafs_of_view ?_
  funext i j k
  simp only [lowTables, view, look_set, elim_some, look_empty]
  simp [empty, update_apply]

theorem lowTables_tables : lowTables.tables = {1} + ({2} + {3}) := by
  have hset : ∀ {α : Type} (f : α → Multiset ℕ) (p : ℕ) (i : Fin 512) (c : α),
      ((empty p : Table α).set i (some c)).pages f = {p} + f c := by
    intro α f p i c
    have h := pages_set f (empty p) i (some c)
    rwa [pages_empty, elim_some, show (empty p : Table α).pte i = none from rfl,
      elim_none, add_zero] at h
  rw [tables, lowTables, hset, hset, pages_empty]

theorem oneProcess_of_ne {i : Fin NPROC} (h : i ≠ 0) : oneProcess.proc i = .zero := if_neg h

theorem Proc.clean_zero : zero.Clean := ⟨rfl, rfl, rfl, rfl, rfl, rfl, rfl, rfl, rfl, rfl⟩

theorem oneProcess_wf : oneProcess.Wf ninePages 0 := by
  have hfind : (lowTables.find 0).isSome := rfl
  have hzero : 0 < USERPAGES := by
    unfold USERPAGES
    decide
  have hleafs : (lowTables.setPte 0 (some ⟨4, lazyPerm⟩)).leafs =
      update (fun _ => none) 0 (some ⟨4, lazyPerm⟩) := by
    rw [leafs_setPte (by decide) hfind, lowTables_leafs]
    rfl
  have hrest : oneProcess.rest 0 0 = 0 := by
    unfold rest
    rw [add_zero]
    refine Finset.sum_eq_zero fun i hi => ?_
    rw [oneProcess_of_ne (Finset.ne_of_mem_erase hi)]
    exact clean_zero.pages_eq_zero
  have hpages : oneProcess.pages 0 = {1} + ({2} + {3}) + ({4} + {5}) := by
    rw [oneProcess.pages_eq 0 0, hrest, add_zero, pages_eq rfl rfl, tables_setPte,
      lowTables_tables, hleafs, leafPages_map hzero rfl, leafPages_none fun _ _ => rfl, add_zero]
  refine ⟨?_, fun i hi => ?_, fun i hi => ?_⟩
  · rw [hpages]
    unfold Owned
    decide
  · have h0 : i = 0 := by
      by_contra hne
      rw [oneProcess_of_ne hne] at hi
      exact hi rfl
    subst h0
    refine ⟨⟨5, rfl⟩, _, rfl, by decide, fun v l hv hl => ?_, fun v hv hlt => ?_⟩
    · rw [hleafs, update_of_ne (by omega)] at hl
      cases hl
    · have hpos : 1 ≤ v := hv
      rw [hleafs, update_of_ne (by omega)]
  by_cases h0 : i = 0
  · subst h0
    cases hi
  · rw [oneProcess_of_ne h0]
    exact clean_zero

/-- `fork` of that process. -/
theorem fork_copies_page : ∃ r k', kfork ninePages 77 0 oneProcess = .ok (r, k') ∧
    k'.Wf ninePages 0 ∧ k'.Isolated ninePages ∧ (r = -1 → oneProcess.Failed 77 0 k') := by
  have hfiles : ∀ fd f, (oneProcess.proc 0).ofile fd = some f → 1 ≤ oneProcess.fileRef f := by
    rintro fd f ⟨⟩
  obtain ⟨r, k', hrun, hwf, hiso, -, hfail⟩ : ∃ r k',
      kfork ninePages 77 0 oneProcess = .ok (r, k') ∧ k'.Wf ninePages 0 ∧ k'.Isolated ninePages ∧
      (0 ≤ r → r = oneProcess.nextpid ∧ ∃ np, oneProcess.Forked 77 0 k' 0 np) ∧
      (r = -1 → oneProcess.nextpid ≠ -1 → oneProcess.Failed 77 0 k') :=
    fork_copies oneProcess_wf rfl (by decide) hfiles
  exact ⟨r, k', hrun, hwf, hiso, fun hr => hfail hr (by decide)⟩

/-- A call that fails leaves a trace: the `UNUSED` entry it had taken keeps the context that
`allocproc` stored. -/
theorem fork_leaves_context : oneProcess.Wf ninePages 0 ∧
    ∃ k', kfork ninePages 77 0 oneProcess = .ok (-1, k') ∧ k'.proc ≠ oneProcess.proc := by
  have hrun : (kfork ninePages 77 0 oneProcess).toOption.map
      (fun r => (r.1, (r.2.proc 1).context.ra)) = some (-1, 77) := by
    decide +kernel
  refine ⟨oneProcess_wf, ?_⟩
  rcases h : kfork ninePages 77 0 oneProcess with e | ⟨r, k'⟩
  · rw [h] at hrun
    cases hrun
  rw [h] at hrun
  simp only [Except.toOption, Option.map_some, Option.some.injEq, Prod.mk.injEq] at hrun
  obtain ⟨rfl, hra⟩ := hrun
  refine ⟨k', rfl, fun heq => ?_⟩
  rw [heq] at hra
  cases hra

end Xv6.Vm

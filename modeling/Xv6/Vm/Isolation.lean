import Xv6.Vm.Copy
import Xv6.Vm.Sbrk
import Xv6.Vm.Process

/-!
# Processes do not see each other's memory

Every process owns its page-table pages, its user pages and its trapframe; `Kernel.Wf` says so for
the whole process table.
-/

namespace Xv6.Vm

open Hoare Option Space Kernel Finset

/-! ## What a process does with its memory -/

inductive Act
  | load (va : ℕ)
  | store (va : ℕ) (b : UInt8)
  /-- A system call reads a buffer of the process. -/
  | copyIn (srcva len : ℕ)
  /-- A system call fills a buffer of the process. -/
  | copyOut (dstva : ℕ) (src : List UInt8)
  | sbrk (n : ℤ) (eager : Bool)

/-- The memory of the process afterwards. -/
def Act.run (ly : Layout) (p : Space) : Act → VmM Space
  | .load va => do
    let r ← userAccess ly false p va
    pure r.1
  | .store va b => do
    let r ← userAccess ly true p va
    match r.2 with
    | some pa => do
      modify fun s => s.fill pa ((s.data pa).write (va % PGSIZE) [b])
      pure r.1
    | none => pure r.1
  | .copyIn srcva len => do
    let r ← copyin ly p (fun _ => 0) (u64 srcva) len
    pure r.1
  | .copyOut dstva src => do
    let r ← copyout ly none p (u64 dstva) src
    pure r.1
  | .sbrk n eager => do
    let r ← sysSbrk ly p (int32 n) eager
    pure r.1

section Space

variable {ly : Layout} {s s' : Mem} {p q : Space} {R : Multiset ℕ} {E : Halt → Prop} {va pa : ℕ}

theorem Space.Fits.of_lazy (h : p.Fits ly s R) (hlazy : p.Lazy q) (hwf : q.Wf ly s' R) :
    q.Fits ly s' R where
  toWf := hwf
  fits v hv hlt := by
    rw [hlazy.size] at hv
    have hnone := h.fits v hv hlt
    by_contra hne
    obtain ⟨l, hl⟩ := ne_none_iff_exists'.mp hne
    have hlow := (hlazy.new v l hnone hl).2
    rw [← lt_npages_iff] at hlow
    omega

theorem vmfault_of_mapped (h : p.Wf ly s R) {l : Leaf}
    (hl : p.pagetable.leafs (va / PGSIZE) = some l) :
    Wp (vmfault ly none p va) s (fun r s' => r = (p, none) ∧ s' = s) E := by
  have hsize := h.size
  have hmax := trapframe_le
  unfold vmfault
  split
  · exact ⟨rfl, rfl⟩
  next hlt =>
  have hle : pgrounddown va ≤ va := Nat.div_mul_le_self ..
  have hdiv : pgrounddown va / PGSIZE = va / PGSIZE := by rw [pgrounddown_eq, mul_div_pgsize]
  have hleaf : p.pagetable.leaf (pgrounddown va) = some l := by
    rw [p.pagetable.leaf_eq_leafs (by omega), hdiv, hl]
  rw [getD_none, ismapped, walk, if_neg (by omega), Table.find_of_leaf hleaf]
  exact ⟨rfl, rfl⟩

theorem vmfault_pgrounddown (h : va < p.sz) :
    vmfault ly none p va = vmfault ly none p (pgrounddown va) := by
  have hle : pgrounddown va ≤ va := Nat.div_mul_le_self ..
  have hround : pgrounddown (pgrounddown va) = pgrounddown va := by
    rw [pgrounddown_eq (pgrounddown va), pgrounddown_eq va, mul_div_pgsize]
  rw [vmfault, vmfault, if_neg (by omega), if_neg (by omega), hround]

theorem translate_eq {pt : PageTable} (h : va < MAXVA) (store : Bool) :
    translate store pt va = (pt.leafs (va / PGSIZE)).bind fun l =>
      if l.perm.u && (if store then l.perm.w else l.perm.r) then some l.pa else none := by
  rw [translate, walkaddr, if_neg (not_le.mpr h), pt.leaf_eq_leafs h]
  rcases pt.leafs (va / PGSIZE) with _ | l
  · rfl
  · cases hu : l.perm.u <;> simp [hu]

theorem userAccess_spec (h : p.Fits ly s R) (store : Bool) (va : ℕ) :
    Wp (userAccess ly store p va) s (fun r s' => r.1.Fits ly s' R ∧ Frame R s s' ∧ p.Lazy r.1 ∧
      r.1.view s' = p.view s ∧ match r.2 with
      | some pa => ∃ l, r.1.pagetable.leafs (va / PGSIZE) = some l ∧ l.perm.u = true ∧ l.pa = pa
      | none => s'.denied = true ∨ ¬ (va < p.sz ∧
          p.can (fun perm => perm.u && if store then perm.w else perm.r) va)) E := by
  have hmax := trapframe_le
  have hsize := h.size
  unfold userAccess
  rcases ht : translate store p.pagetable va with _ | pa
  · by_cases hva : va < p.sz
    · rw [translate_eq (by omega)] at ht
      rcases hl : p.pagetable.leafs (va / PGSIZE) with _ | l
      · rw [vmfault_pgrounddown hva]
        refine (vmfault_spec h.toWf (a := va) fun l hl' => by simp [hl] at hl').seq ?_
        rintro ⟨q, _ | pa⟩ s1 ⟨hwf, hlazy, hview, hframe, hres⟩
        · refine ⟨h.of_lazy hlazy hwf, hframe.right, hlazy, hview, ?_⟩
          refine hres.symm.imp And.right fun hr hc => hr ?_
          simpa [Readable, can, hl] using hc.2
        have hleaf : q.pagetable.leafs (va / PGSIZE) = some ⟨pa, lazyPerm⟩ := hres.1
        refine ⟨h.of_lazy hlazy hwf, hframe.right, hlazy, hview, ?_⟩
        rw [translate_eq (by omega), hleaf]
        cases store <;> exact ⟨_, rfl, rfl, rfl⟩
      refine (vmfault_of_mapped h.toWf hl).seq ?_
      rintro r s1 ⟨rfl, rfl⟩
      refine ⟨h, .refl _ _, .refl p, rfl, .inr fun hc => ?_⟩
      have hcan := hc.2
      rw [can, hl] at hcan
      rw [hl, bind_some, if_pos hcan] at ht
      cases ht
    · rw [vmfault, if_pos (by omega)]
      exact ⟨h, .refl _ _, .refl p, rfl, .inr fun hc => hva hc.1⟩
  have hva : va < MAXVA := by
    by_contra hge
    simp [translate, walkaddr, not_lt.mp hge] at ht
  rw [translate_eq hva] at ht
  obtain ⟨l, hl, hpa⟩ := bind_eq_some_iff.mp ht
  obtain ⟨hperm, hpa⟩ := ite_none_right_eq_some.mp hpa
  rw [Bool.and_eq_true] at hperm
  exact ⟨h, .refl _ _, .refl p, rfl, l, hl, hperm.1, some.inj hpa⟩

theorem Space.Fits.fill (h : p.Fits ly s R) (b : Bytes) : p.Fits ly (s.fill pa b) R :=
  ⟨⟨h.holds, h.size, h.high⟩, h.fits⟩

/-- **Every act** keeps the process well formed and touches no page of anything else. -/
theorem Act.run_spec (h : p.Fits ly s R) (a : Act) :
    Wp (a.run ly p) s (fun q s' => q.Fits ly s' R ∧ Frame R s s') E := by
  cases a with
  | load va =>
    rw [Act.run]
    refine (userAccess_spec h false va).seq ?_
    rintro r s1 ⟨hfits, hframe, -⟩
    exact ⟨hfits, hframe⟩
  | store va b =>
    rw [Act.run]
    refine (userAccess_spec h true va).seq ?_
    rintro ⟨q, _ | pa⟩ s1 ⟨hfits, hframe, -, -, hres⟩
    · exact ⟨hfits, hframe⟩
    obtain ⟨l, hl, hu, rfl⟩ := hres
    have hlow : va / PGSIZE < USERPAGES := hfits.lt_userpages (by rwa [Readable, can, hl])
    have hnot := hfits.holds.not_mem (mem_leafPages hlow hl)
    exact ⟨hfits.fill _, hframe.trans (Frame.fill hnot _)⟩
  | copyIn srcva len =>
    rw [Act.run, copyin]
    refine (copyinLoop_spec h.toWf le_rfl (Nat.mod_lt _ (by decide))).seq ?_
    rintro r s1 ⟨hwf, hlazy, -, hframe, -⟩
    exact ⟨h.of_lazy hlazy hwf, hframe.right⟩
  | copyOut dstva src =>
    rw [Act.run, copyout]
    refine (copyoutLoop_spec h.toWf le_rfl (Nat.mod_lt _ (by decide))).seq ?_
    rintro r s1 ⟨hwf, hlazy, hspares, -⟩
    exact ⟨h.of_lazy hlazy hwf, hspares.rest⟩
  | sbrk n eager =>
    have hmin := le_int32 n
    have hmax := int32_le n
    unfold INT_MIN at hmin
    unfold INT_MAX at hmax
    rw [Act.run]
    refine (sysSbrk_spec h ⟨by omega, by omega⟩ eager).seq ?_
    rintro r s1 ⟨hfits, hframe, -⟩
    exact ⟨hfits, hframe⟩

end Space

/-! ## The process table -/

def Proc.pages (r : Proc) : Multiset ℕ :=
  (r.pagetable.elim 0 fun pt => pt.tables + leafPages pt.leafs) + r.trapframe.elim 0 fun tf => {tf}

/-- An `UNUSED` entry, as `freeproc` leaves it. -/
structure Proc.Clean (r : Proc) : Prop where
  pagetable : r.pagetable = none
  trapframe : r.trapframe = none
  sz : r.sz = 0
  pid : r.pid = 0
  parent : r.parent = none
  name : r.name 0 = 0
  chan : r.chan = 0
  xstate : r.xstate = 0
  ofile : r.ofile = fun _ => none
  cwd : r.cwd = none

structure Proc.Alive (r : Proc) : Prop where
  trapframe : ∃ tf, r.trapframe = some tf
  pagetable : ∃ pt, r.pagetable = some pt ∧ r.sz ≤ TRAPFRAME ∧
    (∀ v l, USERPAGES ≤ v → pt.leafs v = some l → l.perm.u = false) ∧
    ∀ v, npages r.sz ≤ v → v < USERPAGES → pt.leafs v = none

def Kernel.rest (k : Kernel) (K : Multiset ℕ) (i : Fin NPROC) : Multiset ℕ :=
  ∑ j ∈ Finset.univ.erase i, (k.proc j).pages + K

def Kernel.pages (k : Kernel) (K : Multiset ℕ) : Multiset ℕ := ∑ j, (k.proc j).pages + K

/-- The free list, the pages of the processes and `K` are the memory, without a page twice, and
every entry is a process or is clean. -/
structure Kernel.Wf (ly : Layout) (K : Multiset ℕ) (k : Kernel) : Prop where
  owned : Owned ly k.mem (k.pages K)
  alive : ∀ i, (k.proc i).state ≠ .unused → (k.proc i).Alive
  clean : ∀ i, (k.proc i).state = .unused → (k.proc i).Clean

/-- Process `x` has the same entry and the same bytes in its pages. -/
structure Kernel.Same (k k' : Kernel) (x : Fin NPROC) : Prop where
  proc : k'.proc x = k.proc x
  data : ∀ q ∈ (k.proc x).pages, k'.mem.data q = k.mem.data q

/-- The reference counts are the same, and so is what the entries refer to. -/
structure Kernel.Kept (k k' : Kernel) : Prop where
  fileRef : k'.fileRef = k.fileRef
  inodeRef : k'.inodeRef = k.inodeRef
  entry : ∀ x, (k'.proc x).state = (k.proc x).state ∧ (k'.proc x).ofile = (k.proc x).ofile ∧
    (k'.proc x).cwd = (k.proc x).cwd

def act (ly : Layout) (i : Fin NPROC) (a : Act) : ProcM Unit := do
  let k ← get
  match (k.proc i).pagetable with
  | none => pure ()
  | some pt => do
    let p ← onMem (a.run ly ⟨(k.proc i).sz, pt⟩)
    modify fun k => k.setProc i fun r => { r with sz := p.sz, pagetable := some p.pagetable }

variable {ly : Layout} {K : Multiset ℕ} {k k' : Kernel} {E : Halt → Prop} {i j : Fin NPROC}

@[simp] theorem Kernel.setProc_self (f : Proc → Proc) : (k.setProc i f).proc i = f (k.proc i) :=
  Function.update_self ..

theorem Kernel.setProc_of_ne (f : Proc → Proc) (h : j ≠ i) : (k.setProc i f).proc j = k.proc j :=
  Function.update_of_ne h ..

theorem Kernel.pages_eq (k : Kernel) (K : Multiset ℕ) (i : Fin NPROC) :
    k.pages K = (k.proc i).pages + k.rest K i := by
  unfold pages rest
  rw [← add_sum_erase _ _ (mem_univ i), add_assoc]

theorem Kernel.rest_congr (h : ∀ j, j ≠ i → k'.proc j = k.proc j) : k'.rest K i = k.rest K i := by
  unfold rest
  congr 1
  refine sum_congr rfl fun j hj => ?_
  rw [h j (ne_of_mem_erase hj)]

theorem Kernel.pages_le_rest (h : j ≠ i) : (k.proc j).pages ≤ k.rest K i := by
  refine le_trans ?_ (Multiset.le_add_right _ _)
  exact single_le_sum (f := fun j => (k.proc j).pages) (fun _ _ => Multiset.zero_le _)
    (mem_erase.mpr ⟨h, mem_univ j⟩)

theorem Kernel.Same.of_frame (hproc : ∀ j, j ≠ i → k'.proc j = k.proc j)
    (hframe : Frame (k.rest K i) k.mem k'.mem) (h : j ≠ i) : k.Same k' j :=
  ⟨hproc j h, (hframe.mono (pages_le_rest h)).data⟩

theorem Kernel.Same.refl (k : Kernel) (x : Fin NPROC) : k.Same k x := ⟨rfl, fun _ _ => rfl⟩

theorem Proc.pages_eq {r : Proc} {pt : PageTable} {tf : ℕ} (hpt : r.pagetable = some pt)
    (htf : r.trapframe = some tf) : r.pages = pt.tables + (leafPages pt.leafs + {tf}) := by
  rw [Proc.pages, hpt, htf, elim_some, elim_some, add_assoc]

theorem Proc.Clean.pages_eq_zero {r : Proc} (h : r.Clean) : r.pages = 0 := by
  rw [Proc.pages, h.pagetable, h.trapframe, elim_none, elim_none, add_zero]

theorem Kernel.Wf.fits (h : k.Wf ly K) {pt : PageTable} {tf : ℕ}
    (hs : (k.proc i).state ≠ .unused) (hpt : (k.proc i).pagetable = some pt)
    (htf : (k.proc i).trapframe = some tf) :
    (⟨(k.proc i).sz, pt⟩ : Space).Fits ly k.mem ({tf} + k.rest K i) := by
  have hown := h.owned
  rw [k.pages_eq K i, Proc.pages_eq hpt htf, add_assoc, add_assoc] at hown
  obtain ⟨pt', hpt', hsize, hhigh, hfits⟩ := (h.alive i hs).pagetable
  rw [hpt] at hpt'
  cases hpt'
  exact ⟨⟨hown, hsize, hhigh⟩, hfits⟩

theorem Kernel.Wf.update (h : k.Wf ly K) (hproc : ∀ j, j ≠ i → k'.proc j = k.proc j)
    (hown : Owned ly k'.mem ((k'.proc i).pages + k.rest K i))
    (halive : (k'.proc i).state ≠ .unused → (k'.proc i).Alive)
    (hclean : (k'.proc i).state = .unused → (k'.proc i).Clean) : k'.Wf ly K where
  owned := by
    rw [k'.pages_eq K i, rest_congr hproc]
    exact hown
  alive j hj := by
    by_cases hji : j = i
    · subst hji
      exact halive hj
    · rw [hproc j hji] at hj ⊢
      exact h.alive j hj
  clean j hj := by
    by_cases hji : j = i
    · subst hji
      exact hclean hj
    · rw [hproc j hji] at hj ⊢
      exact h.clean j hj

/-- **One step**: an act of a process keeps the process table well formed and leaves every other
process alone. -/
theorem act_spec (h : k.Wf ly K) (i : Fin NPROC) (a : Act) :
    Wp (act ly i a) k (fun _ k' => k'.Wf ly K ∧ (∀ x, x ≠ i → k.Same k' x) ∧ k.Kept k') E := by
  unfold act
  refine Wp.get_seq ?_
  rcases hpt : (k.proc i).pagetable with _ | pt
  · exact ⟨h, fun x _ => .refl k x, rfl, rfl, fun _ => ⟨rfl, rfl, rfl⟩⟩
  have hs : (k.proc i).state ≠ .unused := by
    intro hs
    rw [(h.clean i hs).pagetable] at hpt
    cases hpt
  obtain ⟨tf, htf⟩ := (h.alive i hs).trapframe
  refine Wp.zoom_seq (Act.run_spec (h.fits hs hpt htf) a) ?_
  rintro p s1 ⟨hfits, hframe⟩
  rw [wp_modify]
  set k' := setProc { k with mem := s1 } i fun r =>
    { r with sz := p.sz, pagetable := some p.pagetable } with hk'
  have hproc : ∀ j, j ≠ i → k'.proc j = k.proc j := fun j hj => setProc_of_ne _ hj
  have hself : k'.proc i = { k.proc i with sz := p.sz, pagetable := some p.pagetable } :=
    setProc_self _
  refine ⟨h.update hproc ?_ (fun _ => ?_) (fun hs' => ?_), fun x hx =>
    Same.of_frame hproc hframe.right hx, rfl, rfl, fun x => ?_⟩
  · have hpages : (k'.proc i).pages = p.pagetable.tables +
        (leafPages p.pagetable.leafs + {tf}) := by
      rw [hself]
      exact Proc.pages_eq rfl htf
    rw [hpages, add_assoc, add_assoc]
    exact hfits.holds
  · rw [hself]
    exact ⟨⟨tf, htf⟩, p.pagetable, rfl, hfits.size, hfits.high, hfits.fits⟩
  · rw [hself] at hs'
    exact absurd hs' hs
  by_cases hx : x = i
  · subst hx
    simp [hself]
  · simp [hproc x hx]

theorem acts_wf (h : k.Wf ly K) (acts : List (Fin NPROC × Act)) :
    Wp (acts.forM fun e => act ly e.1 e.2) k (fun _ k' => k'.Wf ly K) E := by
  induction acts generalizing k with
  | nil => exact h
  | cons e acts ih =>
    refine (act_spec h e.1 e.2).seq ?_
    rintro _ k1 ⟨hwf, -⟩
    exact ih hwf

/-- After any run, an act of one process leaves every other process alone. -/
def Kernel.Isolated (ly : Layout) (k : Kernel) : Prop :=
  ∀ (acts : List (Fin NPROC × Act)) (i : Fin NPROC) (a : Act),
    ∃ k₁ k₂, (acts.forM fun e => act ly e.1 e.2) k = .ok ((), k₁) ∧
      act ly i a k₁ = .ok ((), k₂) ∧ ∀ x, x ≠ i → k₁.Same k₂ x

theorem Kernel.Wf.isolated (h : k.Wf ly K) : k.Isolated ly := by
  intro acts i a
  obtain ⟨_, k1, hrun, hwf⟩ := (acts_wf h acts).exists_ok
  obtain ⟨_, k2, hact, -, hsame, -⟩ := (act_spec hwf i a).exists_ok
  exact ⟨k1, k2, hrun, hact, hsame⟩

end Xv6.Vm

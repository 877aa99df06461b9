import Xv6.Vm.ExecLoad

/-!
# The stack of a new program

`stackPages` puts two pages behind the program, of which the lower one is closed to the user, and
`copyArgs` copies the arguments into the upper one.
-/

namespace Xv6.Vm

open Hoare Function List Option

variable {ly : Layout} {s s' : Mem} {p q old : Space} {R : Multiset ℕ} {E : Halt → Prop} {tf : ℕ}

/-! ## Writing to the new memory -/

theorem Space.Wf.walk_user (h : p.Wf ly s R) {a : ℕ} {l : Leaf}
    (hl : p.pagetable.leafs (a / PGSIZE) = some l) (hu : l.perm.u = true) :
    a / PGSIZE < USERPAGES ∧ pgrounddown a < MAXVA ∧
      walkaddr p.pagetable (pgrounddown a) = some l.pa ∧
      p.pagetable.find (pgrounddown a) = some (some l) := by
  have hlt : a / PGSIZE < USERPAGES := by
    by_contra hge
    rw [h.high _ l (by omega) hl] at hu
    cases hu
  have hmax : pgrounddown a < MAXVA := mul_lt_maxva hlt
  have hleaf : p.pagetable.leaf (pgrounddown a) = some l := by
    rw [Table.leaf_eq_leafs _ hmax, pgrounddown_eq, mul_div_pgsize, hl]
  refine ⟨hlt, hmax, ?_, Table.find_of_leaf hleaf⟩
  rw [walkaddr, if_neg (by omega), hleaf, bind_some, if_pos hu]

variable {src : List UInt8}

/-- **`copyout` to a page table that is not the process's**, where every page of the range is mapped
for writing: the process is left alone. -/
theorem copyoutLoop_mapped {k va : ℕ} (h : p.Wf ly s R) (hk : src.length ≤ k)
    (hmap : ∀ j < src.length, ∃ l, p.pagetable.leafs ((va + j) / PGSIZE) = some l ∧
      l.perm.u = true ∧ l.perm.w = true) :
    Wp (copyoutLoop ly (some p.pagetable) k old va src) s (fun r s' => r = (old, true) ∧
      p.Wf ly s' R ∧ Frame R s s' ∧ p.view s' = overwrite (p.view s) va src) E := by
  induction k generalizing s va src with
  | zero =>
    have hsrc : src = [] := length_eq_zero_iff.mp (Nat.le_zero.mp hk)
    subst hsrc
    exact ⟨rfl, h, .refl _ _, (overwrite_nil ..).symm⟩
  | succ k ih =>
    unfold copyoutLoop
    by_cases hsrc : src = []
    · rw [if_pos hsrc, hsrc]
      exact ⟨rfl, h, .refl _ _, (overwrite_nil ..).symm⟩
    rw [if_neg hsrc]
    have hpos : 0 < src.length := length_pos_iff.mpr hsrc
    obtain ⟨l, hl, hu, hw⟩ := hmap 0 hpos
    rw [Nat.add_zero] at hl
    obtain ⟨hlt, hmax, hwalk, hfind⟩ := h.walk_user hl hu
    have hbound := lt_of_div_lt hlt
    rw [if_neg (by omega), userPage, getD_some, hwalk, wp_bind, wp_pure]
    dsimp only
    rw [getD_some, walk, if_neg (by omega), wp_bind, wp_pure, hfind]
    dsimp only
    rw [map_some, hw, if_pos rfl]
    refine Wp.modify_seq ?_
    rw [sub_pgrounddown]
    have hmod : va % PGSIZE < PGSIZE := Nat.mod_lt _ (by decide)
    set n := min (PGSIZE - va % PGSIZE) src.length with hn
    have htake : (src.take n).length = n := by
      rw [length_take]
      omega
    have hview : p.view (s.fill l.pa ((s.data l.pa).write (va % PGSIZE) (src.take n))) =
        overwrite (p.view s) va (src.take n) := h.view_write hl hu (by omega)
    have hframe := (h.spares_fill hlt hl hu ((s.data l.pa).write (va % PGSIZE) (src.take n))).rest
    have hnext : u64 (pgrounddown va + PGSIZE) = va + (PGSIZE - va % PGSIZE) := by
      rw [pgrounddown_add, u64_of_lt (by omega)]
    rw [hnext]
    have hdrop : (src.drop n).length = src.length - n := length_drop
    have hadd : src.length ≠ n → va + (PGSIZE - va % PGSIZE) = va + n := by omega
    have hwf : p.Wf ly (s.fill l.pa ((s.data l.pa).write (va % PGSIZE) (src.take n))) R :=
      ⟨h.holds, h.size, h.high⟩
    refine (ih hwf (by omega) ?_).mono ?_
    · intro j hj
      rw [hadd (by omega), Nat.add_assoc]
      exact hmap (n + j) (by omega)
    rintro r s1 ⟨hr, hwf1, hframe1, hview1⟩
    refine ⟨hr, hwf1, hframe.trans hframe1, ?_⟩
    rw [hview1, hview]
    by_cases hlast : src.length = n
    · have hnil : src.drop n = [] := drop_eq_nil_of_le (by omega)
      have hall : src.take n = src := take_of_length_le (by omega)
      rw [hnil, overwrite_nil, hall]
    · have happ := overwrite_append (p.view s) va (src.take n) (src.drop n)
      rw [htake, take_append_drop] at happ
      rw [hadd hlast, happ]

/-! ## The pages -/

/-- The memory of a program with its stack: page `g` is closed, page `g + 1` is the stack. -/
structure Space.Stacked (ly : Layout) (tf : ℕ) (s : Mem) (p : Space) (g : ℕ) (R : Multiset ℕ) :
    Prop extends Space.Framed ly tf s p R where
  size_eq : p.sz = (g + 2) * PGSIZE
  guard : ∃ l, p.pagetable.leafs g = some l ∧ l.perm.u = false
  stack : ∃ l, p.pagetable.leafs (g + 1) = some l ∧ l.perm.u = true ∧ l.perm.w = true

theorem uvmclear_spec {pt : PageTable} {v : ℕ} {l : Leaf} (hv : v < USERPAGES)
    (hl : pt.leafs v = some l) (h : Holds ly s pt R) :
    Wp (uvmclear pt (v * PGSIZE)) s (fun r s' => s' = s ∧ Holds ly s r R ∧
      r.leafs = update pt.leafs v (some { l with perm := { l.perm with u := false } }))
      E := by
  have hmax := mul_lt_maxva hv
  have hleaf : pt.leaf (v * PGSIZE) = some l := by
    rw [Table.leaf_eq_leafs _ hmax, mul_div_pgsize, hl]
  have hfind := Table.find_of_leaf hleaf
  unfold uvmclear
  rw [walk, if_neg (by omega), wp_bind, wp_pure, hfind]
  have hset : (pt.setPte (v * PGSIZE) (some { l with perm := { l.perm with u := false } })).leafs =
      update pt.leafs v (some { l with perm := { l.perm with u := false } }) := by
    rw [Table.leafs_setPte hmax (by rw [hfind]; rfl), mul_div_pgsize]
  refine ⟨rfl, ?_, hset⟩
  have hpages := leafPages_update pt.leafs hv (some { l with perm := { l.perm with u := false } })
  rw [hl, elim_some, elim_some] at hpages
  unfold Holds at h ⊢
  dsimp only
  rw [map_some, hset, Table.tables_setPte, Multiset.add_left_inj.mp hpages]
  exact h

theorem Space.Image.roundup (h : p.Image ly tf s R) :
    (⟨pgroundup p.sz, p.pagetable⟩ : Space).Image ly tf s R ∧
      npages (pgroundup p.sz) = npages p.sz := by
  have hround := pgroundup_eq (h.size.trans trapframe_le)
  have hn : npages (pgroundup p.sz) = npages p.sz := by rw [hround, npages_mul]
  refine ⟨⟨.of_leafs h.holds ?_ (fun v hv => ?_) h.kernel, fun v hv => ?_⟩, hn⟩
  · dsimp only
    rw [hround, ← userpages_mul]
    refine Nat.mul_le_mul_right _ ?_
    rw [npages_le_iff, userpages_mul]
    exact h.size
  · exact h.fits v (by rw [← hn]; exact hv)
  · exact h.full v (by rw [← hn]; exact hv)

theorem stackPages_spec (hmem : ly.pages.length < USERPAGES) (h : p.Image ly tf s R) :
    Wp (stackPages ly p) s (fun r s' => Frame R s s' ∧ r.1.Framed ly tf s' R ∧
      (r.2 = true → r.1.Stacked ly tf s' (npages p.sz) R ∧
        ∀ a < npages p.sz * PGSIZE, r.1.view s' a = p.view s a)) E := by
  obtain ⟨himage, hn⟩ := h.roundup
  have hround := pgroundup_eq (h.size.trans trapframe_le)
  have hbound : p.sz ≤ TRAPFRAME := h.size
  unfold stackPages
  dsimp only
  have hnew : u64 (pgroundup p.sz + (USERSTACK + 1) * PGSIZE) = (npages p.sz + 2) * PGSIZE := by
    have htrap : TRAPFRAME = 2 ^ 38 - 8192 := by decide
    rw [hround, u64_of_lt]
    · exact (Nat.add_mul _ 2 _).symm
    · unfold npages PGSIZE USERSTACK at *
      omega
  rw [hnew]
  refine (himage.grow hmem rfl).seq ?_
  rintro ⟨pt, sz⟩ s1 ⟨hframe, hres⟩
  dsimp only at hres ⊢
  have hpos : 0 < PGSIZE := by decide
  have hle : pgroundup p.sz ≤ (npages p.sz + 2) * PGSIZE := by
    rw [hround]
    exact Nat.mul_le_mul_right _ (by omega)
  by_cases hzero : sz = 0
  · rw [if_pos hzero]
    refine ⟨hframe, ?_, fun hr => Bool.noConfusion hr⟩
    rcases hres with ⟨himage1, -⟩ | ⟨-, hsz, -⟩
    · exact himage1.toFramed
    · have hne : 0 < (npages p.sz + 2) * PGSIZE := Nat.mul_pos (Nat.succ_pos _) hpos
      omega
  rw [if_neg hzero]
  have hgrown := hres.resolve_left fun hsame => hsame.2.elim hzero fun hlt => by
    have := hlt.1
    omega
  have hsz := hgrown.2.1
  subst hsz
  have himage1 := hgrown.2.2.1
  have hext := hgrown.2.2.2.1
  have hkeep := hgrown.2.2.2.2.1
  have hview := hgrown.2.2.2.2.2
  rw [hn, npages_mul] at hext
  apply (hext.new (npages p.sz) le_rfl (by omega)).elim
  intro l hnew0
  apply (hext.new (npages p.sz + 1) (by omega) (by omega)).elim
  intro m hnew1
  have hl := hnew0.1
  have hm := hnew1.1
  have hperm := hnew1.2.1
  have hmax : npages p.sz + 2 ≤ USERPAGES := by
    have hsize : (npages p.sz + 2) * PGSIZE ≤ TRAPFRAME := himage1.size
    rw [← userpages_mul] at hsize
    exact Nat.le_of_mul_le_mul_right hsize hpos
  have hguard : usub ((npages p.sz + 2) * PGSIZE) ((USERSTACK + 1) * PGSIZE) =
      npages p.sz * PGSIZE := by
    have hsize : (npages p.sz + 2) * PGSIZE ≤ TRAPFRAME := himage1.size
    have htrap : TRAPFRAME = 2 ^ 38 - 8192 := by decide
    rw [Nat.add_mul] at hsize ⊢
    unfold usub u64 USERSTACK
    omega
  rw [hguard]
  refine (uvmclear_spec (by omega) hl himage1.holds).seq ?_
  rintro pt' s2 ⟨rfl, hold, hleafs⟩
  have hframed : (⟨(npages p.sz + 2) * PGSIZE, pt'⟩ : Space).Framed ly tf s2 R := by
    refine .of_leafs hold himage1.size (fun v hv hv' => ?_) fun v hv => ?_
    · dsimp only at hv ⊢
      rw [npages_mul] at hv
      rw [hleafs, update_of_ne (by omega)]
      exact himage1.fits v (by dsimp only; rw [npages_mul]; exact hv) hv'
    · dsimp only
      rw [hleafs, update_of_ne (by omega)]
      exact himage1.kernel v hv
  have hclosed : pt'.leafs (npages p.sz) = some { l with perm := { l.perm with u := false } } := by
    rw [hleafs, update_self]
  refine ⟨hframe, hframed, fun _ => ⟨⟨hframed, rfl, ⟨_, hclosed, rfl⟩, m, ?_, ?_, ?_⟩,
    fun a ha => ?_⟩⟩
  · dsimp only
    rw [hleafs, update_of_ne (by omega), hm]
  · rw [hperm]
  · rw [hperm]
  have hpage : a / PGSIZE < npages p.sz := (Nat.div_lt_iff_lt_mul hpos).mpr ha
  obtain ⟨la, hla, hua⟩ := h.full _ hpage
  have hla' : pt'.leafs (a / PGSIZE) = some la := by
    rw [hleafs, update_of_ne (by omega), hkeep _ (by rw [hn]; exact hpage), hla]
  have hla1 : pt.leafs (a / PGSIZE) = some la := by rw [hkeep _ (by rw [hn]; exact hpage), hla]
  have hbyte := hview a
  rw [Space.view_of_leaf (p := ⟨_, pt⟩) hla1 hua,
    Space.view_of_leaf (p := ⟨pgroundup p.sz, p.pagetable⟩) hla hua, getD_some,
    getD_some] at hbyte
  rw [Space.view_of_leaf (p := ⟨_, pt'⟩) hla' hua, Space.view_of_leaf hla hua, hbyte]

/-! ## The arguments -/

def pad (n : ℕ) : ℕ := (n + 15) / 16 * 16

def stringBytes : List (List UInt8) → ℕ
  | [] => 0
  | arg :: argv => pad (arg.length + 1) + stringBytes argv

/-- The bytes the arguments take: the strings and the array of pointers. -/
def argBytes (argv : List (List UInt8)) : ℕ := stringBytes argv + pad ((argv.length + 1) * 8)

theorem lower_eq {sp n : ℕ} (hsp : sp % 16 = 0) (hn : n ≤ sp) (hlt : sp < 2 ^ 64) :
    lower sp n = sp - pad n := by
  unfold lower usub u64 pad
  omega

/-- The strings `argv` are in memory at the addresses `ptrs`, one below the other between `sp'` and
`sp`. -/
def Pushed (view : ℕ → Option UInt8) : ℕ → List (List UInt8) → List ℕ → ℕ → Prop
  | sp, [], ptrs, sp' => ptrs = [] ∧ sp' = sp
  | sp, arg :: argv, ptrs, sp' => ∃ ptr rest, ptrs = ptr :: rest ∧ ptr + (arg.length + 1) ≤ sp ∧
      (∀ j ≤ arg.length, view (ptr + j) = (arg ++ [0])[j]?) ∧ Pushed view ptr argv rest sp'

variable {argv : List (List UInt8)}

theorem Pushed.le {view : ℕ → Option UInt8} {sp sp' : ℕ} {ptrs : List ℕ}
    (h : Pushed view sp argv ptrs sp') : sp' ≤ sp := by
  induction argv generalizing sp ptrs with
  | nil => exact h.2.le
  | cons arg argv ih =>
    obtain ⟨ptr, rest, -, hle, -, hrest⟩ := h
    have := ih hrest
    omega

theorem Pushed.congr {view view' : ℕ → Option UInt8} {sp sp' : ℕ}
    {ptrs : List ℕ} (h : Pushed view sp argv ptrs sp') (hview : ∀ a, sp' ≤ a → view' a = view a) :
    Pushed view' sp argv ptrs sp' := by
  induction argv generalizing sp ptrs with
  | nil => exact h
  | cons arg argv ih =>
    obtain ⟨ptr, rest, hptrs, hle, hstr, hrest⟩ := h
    refine ⟨ptr, rest, hptrs, hle, fun j hj => ?_, ih hrest⟩
    rw [hview _ (hrest.le.trans (Nat.le_add_right _ _)), hstr j hj]

theorem Space.Stacked.congr {g : ℕ} (h : p.Stacked ly tf s g R) (hwf : p.Wf ly s' R) :
    p.Stacked ly tf s' g R := ⟨h.toFramed.congr hwf.holds, h.size_eq, h.guard, h.stack⟩

theorem Space.Stacked.copyout {g va : ℕ} (h : p.Stacked ly tf s g R)
    (hlo : (g + 1) * PGSIZE ≤ va) (hhi : va + src.length ≤ p.sz) :
    Wp (copyout ly (some p.pagetable) old va src) s (fun r s' => r = (old, true) ∧
      p.Stacked ly tf s' g R ∧ Frame R s s' ∧ p.view s' = overwrite (p.view s) va src) E := by
  have hmap : ∀ j < src.length, ∃ l, p.pagetable.leafs ((va + j) / PGSIZE) = some l ∧
      l.perm.u = true ∧ l.perm.w = true := by
    intro j hj
    have hpage : (va + j) / PGSIZE = g + 1 := by
      rw [h.size_eq] at hhi
      unfold PGSIZE at *
      omega
    rw [hpage]
    exact h.stack
  refine (copyoutLoop_mapped h.toWf le_rfl hmap).mono ?_
  rintro r s1 ⟨hr, hwf, hframe, hview⟩
  exact ⟨hr, h.congr hwf, hframe, hview⟩

/-- What both parts of the stack set-up keep: the calling process, the pages of everything else, and
the new memory outside the free part of the stack. -/
structure Kept (ly : Layout) (tf : ℕ) (R : Multiset ℕ) (g sp : ℕ) (p : Space) (s s' : Mem) :
    Prop where
  stacked : p.Stacked ly tf s' g R
  frame : Frame R s s'
  view : ∀ a, a < (g + 1) * PGSIZE ∨ sp ≤ a → p.view s' a = p.view s a

theorem Kept.trans {g sp sp' : ℕ} {s'' : Mem} (h : Kept ly tf R g sp p s s') (hle : sp' ≤ sp)
    (h' : Kept ly tf R g sp' p s' s'') : Kept ly tf R g sp p s s'' :=
  ⟨h'.stacked, h.frame.trans h'.frame, fun a ha => by
    rw [h'.view a (ha.imp_right hle.trans), h.view a ha]⟩

theorem Space.Stacked.push {g sp va : ℕ} (h : p.Stacked ly tf s g R)
    (hsp : sp ≤ p.sz) (hlo : (g + 1) * PGSIZE ≤ va) (hhi : va + src.length ≤ sp) :
    Wp (Vm.copyout ly (some p.pagetable) old va src) s (fun r s' => r = (old, true) ∧
      Kept ly tf R g sp p s s' ∧ ∀ j < src.length, p.view s' (va + j) = src[j]?) E := by
  refine (h.copyout hlo (hhi.trans hsp)).mono ?_
  rintro r s1 ⟨hr, hstacked, hframe, hview⟩
  refine ⟨hr, ⟨hstacked, hframe, fun a ha => ?_⟩, fun j hj => ?_⟩
  · rw [hview, overwrite, if_neg (by omega)]
  · rw [hview, overwrite, if_pos (by omega), Nat.add_sub_cancel_left]

/-- **The argument strings**: they are in the stack, or there is no room for them. -/
theorem pushArgs_spec {g : ℕ} (hargs : ∀ arg ∈ argv, arg.length < PGSIZE)
    {sp : ℕ} {ustack : List ℕ} (hcount : ustack.length + argv.length < MAXARG) (hsp : sp ≤ p.sz)
    (hbase : (g + 1) * PGSIZE ≤ sp) (halign : sp % 16 = 0) (h : p.Stacked ly tf s g R) :
    Wp (pushArgs ly p.pagetable ((g + 1) * PGSIZE) argv old sp ustack) s (fun r s' => r.1 = old ∧
      Kept ly tf R g sp p s s' ∧ r.2.elim (sp < (g + 1) * PGSIZE + stringBytes argv) fun w =>
        ∃ ptrs, w = (sp - stringBytes argv, ustack ++ ptrs) ∧
          (g + 1) * PGSIZE + stringBytes argv ≤ sp ∧ stringBytes argv % 16 = 0 ∧
          ptrs.length = argv.length ∧
          Pushed (p.view s') sp argv ptrs (sp - stringBytes argv)) E := by
  induction argv generalizing sp ustack s with
  | nil =>
    rw [stringBytes, pushArgs, wp_pure, elim_some, Nat.sub_zero]
    refine ⟨rfl, ⟨h, .refl _ _, fun _ _ => rfl⟩, [], ?_, ?_, Nat.zero_mod _, rfl, rfl, rfl⟩
    · rw [append_nil]
    · rwa [Nat.add_zero]
  | cons arg argv ih =>
    unfold pushArgs
    rw [length_cons] at hcount
    rw [if_neg (by omega)]
    have harg := hargs arg mem_cons_self
    have hsize := h.size
    have htrap : TRAPFRAME < 2 ^ 64 := by decide
    have hpage : PGSIZE ≤ (g + 1) * PGSIZE := Nat.le_mul_of_pos_left _ (Nat.succ_pos _)
    rw [lower_eq halign (by omega) (by omega)]
    have hpad : arg.length + 1 ≤ pad (arg.length + 1) ∧ pad (arg.length + 1) % 16 = 0 ∧
        pad (arg.length + 1) ≤ PGSIZE := by
      unfold pad PGSIZE at *
      omega
    rw [stringBytes]
    by_cases hroom : sp - pad (arg.length + 1) < (g + 1) * PGSIZE
    · rw [if_pos hroom]
      refine ⟨rfl, ⟨h, .refl _ _, fun _ _ => rfl⟩, ?_⟩
      rw [elim_none]
      omega
    rw [if_neg hroom]
    have hlen : (arg ++ [0]).length = arg.length + 1 := by simp
    refine (h.push hsp (Nat.le_of_not_lt hroom) (by omega)).seq ?_
    rintro r s1 ⟨rfl, hkept, hstr⟩
    dsimp only
    rw [if_pos rfl]
    refine (ih (fun a ha => hargs a (mem_cons_of_mem _ ha)) ?_ (by omega)
      (Nat.le_of_not_lt hroom) (by omega) hkept.stacked).mono ?_
    · rw [length_append, length_singleton]
      omega
    rintro ⟨r1, w⟩ s2 ⟨hr, hkept2, hres⟩
    refine ⟨hr, hkept.trans (Nat.sub_le _ _) hkept2, ?_⟩
    dsimp only at hres ⊢
    cases w with
    | none =>
      rw [elim_none] at hres ⊢
      omega
    | some w =>
      obtain ⟨ptrs, hw, hfit, hmod, hcard, hpushed⟩ := hres
      have hsub : sp - pad (arg.length + 1) - stringBytes argv =
          sp - (pad (arg.length + 1) + stringBytes argv) := Nat.sub_sub ..
      rw [hsub] at hw hpushed
      refine ⟨(sp - pad (arg.length + 1)) :: ptrs, ?_, by omega, by omega, ?_, ?_⟩
      · rw [hw, append_assoc, singleton_append]
      · rw [length_cons, length_cons, hcard]
      · refine ⟨_, _, rfl, by omega, fun j hj => ?_, hpushed⟩
        rw [hkept2.view _ (.inr (Nat.le_add_right _ _)), hstr j (by omega)]

/-- The arguments as the new program finds them: the pointers and a zero at `sp`, the strings above
them. -/
structure ArgLayout (view : ℕ → Option UInt8) (base top sp : ℕ) (argv : List (List UInt8))
    (ptrs : List ℕ) : Prop where
  aligned : sp % 16 = 0
  base : base ≤ sp
  vector : ∀ j < ((ptrs ++ [0]).flatMap wordBytes).length,
    view (sp + j) = ((ptrs ++ [0]).flatMap wordBytes)[j]?
  strings : Pushed view top argv ptrs (sp + pad ((argv.length + 1) * 8))

theorem length_words (l : List ℕ) : (l.flatMap wordBytes).length = l.length * 8 := by
  induction l with
  | nil => rfl
  | cons n l ih =>
    rw [flatMap_cons, length_append, ih, length_cons, wordBytes, length_map, length_range]
    omega

/-- **The stack set-up**: it succeeds if and only if the arguments fit in the page. -/
theorem copyArgs_spec {g : ℕ} (hargs : ∀ arg ∈ argv, arg.length < PGSIZE)
    (hcount : argv.length < MAXARG) (h : p.Stacked ly tf s g R) :
    Wp (copyArgs ly p argv old) s (fun r s' => r.1 = old ∧ p.Stacked ly tf s' g R ∧ Frame R s s' ∧
      (∀ a < (g + 1) * PGSIZE, p.view s' a = p.view s a) ∧
      r.2.elim (PGSIZE < argBytes argv) fun w => argBytes argv ≤ PGSIZE ∧
        w = (p.sz - argBytes argv, argv.length) ∧ ∃ ptrs, ptrs.length = argv.length ∧
          ArgLayout (p.view s') (p.sz - USERSTACK * PGSIZE) p.sz (p.sz - argBytes argv) argv
            ptrs) E := by
  have hsize := h.size
  have htrap : TRAPFRAME < 2 ^ 64 := by decide
  have hsz := h.size_eq
  have htop : p.sz = (g + 1) * PGSIZE + PGSIZE := by
    rw [hsz]
    exact Nat.succ_mul (g + 1) PGSIZE
  have hmod : p.sz % 16 = 0 := by
    rw [hsz]
    unfold PGSIZE
    omega
  have hbase : usub p.sz (USERSTACK * PGSIZE) = (g + 1) * PGSIZE := by
    unfold usub u64 USERSTACK
    omega
  unfold copyArgs
  dsimp only
  rw [hbase]
  refine (pushArgs_spec hargs (by simpa using hcount) le_rfl (by omega) hmod h).seq ?_
  rintro ⟨r, w⟩ s1 ⟨hr, hkept, hres⟩
  dsimp only at hr hres ⊢
  have hbelow : ∀ a < (g + 1) * PGSIZE, p.view s1 a = p.view s a :=
    fun a ha => hkept.view a (.inl ha)
  cases w with
  | none =>
    rw [elim_none] at hres
    refine ⟨hr, hkept.stacked, hkept.frame, hbelow, ?_⟩
    rw [elim_none, argBytes]
    omega
  | some w =>
    obtain ⟨ptrs, rfl, hfit, hstr, hlen, hpushed⟩ := hres
    dsimp only
    rw [nil_append, hlen, if_neg (by omega)]
    have hvec : (argv.length + 1) * 8 ≤ pad ((argv.length + 1) * 8) ∧
        pad ((argv.length + 1) * 8) % 16 = 0 ∧ pad ((argv.length + 1) * 8) ≤ PGSIZE := by
      unfold pad PGSIZE MAXARG at *
      omega
    have hpage : PGSIZE ≤ (g + 1) * PGSIZE := Nat.le_mul_of_pos_left _ (Nat.succ_pos _)
    rw [lower_eq (by omega) (by omega) (by omega), Nat.sub_sub]
    have hneed : stringBytes argv + pad ((argv.length + 1) * 8) = argBytes argv := rfl
    rw [hneed]
    by_cases hroom : p.sz - argBytes argv < (g + 1) * PGSIZE
    · rw [if_pos hroom]
      refine ⟨hr, hkept.stacked, hkept.frame, hbelow, ?_⟩
      rw [elim_none]
      omega
    rw [if_neg hroom]
    have hwords : ((ptrs ++ [0]).flatMap wordBytes).length = (argv.length + 1) * 8 := by
      rw [length_words, length_append, hlen, length_singleton]
    have hstack : p.sz - argBytes argv + pad ((argv.length + 1) * 8) = p.sz - stringBytes argv := by
      omega
    have htop' : p.sz - stringBytes argv ≤ p.sz := Nat.sub_le _ _
    refine (hkept.stacked.push htop' (Nat.le_of_not_lt hroom) (by omega)).seq ?_
    rintro w s2 ⟨rfl, hkept2, hvector⟩
    refine ⟨hr, hkept2.stacked, hkept.frame.trans hkept2.frame, fun a ha => ?_, ?_⟩
    · rw [hkept2.view a (.inl ha), hbelow a ha]
    dsimp only
    rw [if_pos rfl, elim_some]
    refine ⟨by omega, rfl, ptrs, hlen, ⟨by omega, ?_, hvector, ?_⟩⟩
    · unfold USERSTACK
      omega
    · rw [hstack]
      exact hpushed.congr fun a ha => hkept2.view a (.inr ha)

end Xv6.Vm

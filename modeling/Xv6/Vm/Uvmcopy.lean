import Xv6.Vm.Sbrk
import Xv6.Vm.Process

/-!
# The page table of a new process

`proc_pagetable` makes a page table with the two kernel pages, `uvmcopy` fills it with copies of the
pages of the parent, and `proc_freepagetable` frees it.
-/

namespace Xv6.Vm

open Hoare Function

variable {ly : Layout} {s s₀ s' : Mem} {pt : PageTable} {R : Multiset ℕ} {E : Halt → Prop}
  {f : ℕ → Option Leaf} {tf : ℕ}

/-! ## The page table of a process -/

def kernelLeafs (ly : Layout) (tf : ℕ) : ℕ → Option Leaf :=
  update (update (fun _ => none) (TRAMPOLINE / PGSIZE)
    (some ⟨ly.trampoline, ⟨true, false, true, false⟩⟩)) (TRAPFRAME / PGSIZE)
    (some ⟨tf, ⟨true, true, false, false⟩⟩)

theorem userpages_le_trapframe : USERPAGES ≤ TRAPFRAME / PGSIZE := by
  unfold USERPAGES
  exact le_rfl

theorem userpages_le_trampoline : USERPAGES ≤ TRAMPOLINE / PGSIZE := by
  unfold USERPAGES
  decide

theorem kernelLeafs_of_lt {v : ℕ} (hv : v < USERPAGES) : kernelLeafs ly tf v = none := by
  have h1 := userpages_le_trapframe
  have h2 := userpages_le_trampoline
  rw [kernelLeafs, update_of_ne (by omega), update_of_ne (by omega)]

theorem kernelLeafs_perm {v : ℕ} {l : Leaf} (h : kernelLeafs ly tf v = some l) :
    l.perm.u = false := by
  unfold kernelLeafs at h
  by_cases h1 : v = TRAPFRAME / PGSIZE
  · subst h1
    rw [update_self] at h
    cases h
    rfl
  rw [update_of_ne h1] at h
  by_cases h2 : v = TRAMPOLINE / PGSIZE
  · subst h2
    rw [update_self] at h
    cases h
    rfl
  · rw [update_of_ne h2] at h
    cases h

theorem holds_iff_owned (h : ∀ v < USERPAGES, pt.leafs v = none) :
    Holds ly s pt R ↔ Owned ly s (pt.tables + R) := by rw [Holds, leafPages_none h, zero_add]

theorem uvmcreate_spec (h : Owned ly s R) : Wp uvmcreate s (fun r s' => Frame R s s' ∧
    match r with
    | none => Owned ly s' R
    | some pt => Owned ly s' (pt.tables + R) ∧ pt.leafs = fun _ => none) E := by
  refine (kalloc_spec h).seq ?_
  rintro (_ | p) s1 ⟨hframe, hown⟩
  · exact ⟨hframe, hown.1⟩
  · refine ⟨hframe, ?_, Table.leafs_empty p⟩
    rw [Table.tables, Table.pages_empty]
    exact hown

theorem uvmfree_empty_spec (hnone : ∀ v, pt.leafs v = none) (h : Owned ly s (pt.tables + R)) :
    Wp (uvmfree ly pt 0) s (fun _ s' => Owned ly s' R ∧ Frame R s s') E :=
  uvmfree_spec (Nat.zero_le _) (fun v hv => absurd (hnone v) hv)
    ((holds_iff_owned fun v _ => hnone v).mpr h)

theorem procPagetable_spec (h : Owned ly s R) : Wp (procPagetable ly tf) s (fun r s' =>
    Frame R s s' ∧ match r with
    | none => Owned ly s' R
    | some pt => Owned ly s' (pt.tables + R) ∧ pt.leafs = kernelLeafs ly tf) E := by
  refine (uvmcreate_spec h).seq ?_
  rintro (_ | pt) s1 ⟨hframe1, hown1⟩
  · exact ⟨hframe1, hown1⟩
  obtain ⟨hown1, hleafs1⟩ := hown1
  refine (mappages_spec pt (by decide) (by decide) (by rw [hleafs1]) hown1).seq ?_
  rintro r s2 ⟨hown2, hframe2, hok2, hfail2⟩
  have hframe2 := hframe1.trans hframe2.right
  rcases hr : r.2 with _ | _
  · rw [if_neg (by simp)]
    have hnone : ∀ v, r.1.leafs v = none := fun v => by rw [(hfail2 hr).1, hleafs1]
    refine (uvmfree_empty_spec hnone hown2).seq ?_
    rintro _ s3 ⟨hown3, hframe3⟩
    exact ⟨hframe2.trans hframe3, hown3⟩
  rw [if_pos rfl]
  have hleafs2 := hok2 hr
  have hne : TRAPFRAME / PGSIZE ≠ TRAMPOLINE / PGSIZE := by decide
  have hfree : r.1.leafs (TRAPFRAME / PGSIZE) = none := by rw [hleafs2, update_of_ne hne, hleafs1]
  refine (mappages_spec r.1 (by decide) (by decide) hfree hown2).seq ?_
  rintro q s3 ⟨hown3, hframe3, hok3, hfail3⟩
  have hframe3 := hframe2.trans hframe3.right
  rcases hq : q.2 with _ | _
  · rw [if_neg (by simp)]
    have hlow : ∀ v < USERPAGES, q.1.leafs v = none := by
      intro v hv
      have := userpages_le_trampoline
      rw [(hfail3 hq).1, hleafs2, update_of_ne (by omega), hleafs1]
    refine (uvmunmap_keep_spec (by decide) (by decide) userpages_le_trampoline
      ((holds_iff_owned hlow).mpr hown3)).seq ?_
    rintro pt' s4 ⟨hold4, rfl, hleafs4⟩
    have hnone : ∀ v, pt'.leafs v = none := by
      intro v
      rw [hleafs4, (hfail3 hq).1, hleafs2, update_idem, hleafs1, update_apply]
      split <;> rfl
    refine (uvmfree_empty_spec hnone ((holds_iff_owned fun v _ => hnone v).mp hold4)).seq ?_
    rintro _ s5 ⟨hown5, hframe5⟩
    exact ⟨hframe3.trans hframe5, hown5⟩
  rw [if_pos rfl]
  refine ⟨hframe3, hown3, ?_⟩
  rw [hok3 hq, hleafs2, hleafs1]
  rfl

theorem procFreepagetable_spec {sz : ℕ} (hsz : sz ≤ TRAPFRAME)
    (hhigh : ∀ v, USERPAGES ≤ v → pt.leafs v = kernelLeafs ly tf v)
    (hfits : ∀ v, npages sz ≤ v → v < USERPAGES → pt.leafs v = none) (h : Holds ly s pt R) :
    Wp (procFreepagetable ly pt sz) s (fun _ s' => Owned ly s' R ∧ Frame R s s') E := by
  refine (uvmunmap_keep_spec (by decide) (by decide) userpages_le_trampoline h).seq ?_
  rintro pt1 s1 ⟨hold1, rfl, hleafs1⟩
  refine (uvmunmap_keep_spec (by decide) (by decide) userpages_le_trapframe hold1).seq ?_
  rintro pt2 s2 ⟨hold2, rfl, hleafs2⟩
  refine uvmfree_spec hsz (fun v hv => ?_) hold2
  by_contra hge
  refine hv ?_
  rw [hleafs2, hleafs1]
  by_cases h1 : v = TRAPFRAME / PGSIZE
  · subst h1
    rw [update_self]
  rw [update_of_ne h1]
  by_cases h2 : v = TRAMPOLINE / PGSIZE
  · subst h2
    rw [update_self]
  rw [update_of_ne h2]
  by_cases hlt : v < USERPAGES
  · exact hfits v (by omega) hlt
  · rw [hhigh v (by omega), kernelLeafs, update_of_ne h1, update_of_ne h2]

/-! ## uvmcopy -/

/-- A page of the child against that of the parent: not mapped either, or mapped with the same flags
and the same content. -/
def CopyOf (s s' : Mem) : Option Leaf → Option Leaf → Prop
  | none, e => e = none
  | some l, e => ∃ l', e = some l' ∧ l'.perm = l.perm ∧ s'.data l'.pa = s.data l.pa

/-- The mapping `g` has copies of the first `n` pages of `o`, and is `f` behind them. -/
structure Duplicated (o f g : ℕ → Option Leaf) (n : ℕ) (s s' : Mem) : Prop where
  copy : ∀ v < n, CopyOf s s' (o v) (g v)
  rest : ∀ v, n ≤ v → g v = f v

theorem CopyOf.congr {e e' : Option Leaf} {s1 : Mem} (h : CopyOf s₀ s e e')
    (hsrc : ∀ l, e = some l → s₀.data l.pa = s1.data l.pa)
    (hdst : ∀ l, e' = some l → s'.data l.pa = s.data l.pa) : CopyOf s1 s' e e' := by
  rcases e with _ | l
  · exact h
  · obtain ⟨l', rfl, hperm, hdata⟩ := h
    exact ⟨l', rfl, hperm, (hdst l' rfl).trans (hdata.trans (hsrc l rfl))⟩

theorem Duplicated.succ {o g g' : ℕ → Option Leaf} {a : ℕ} (h : Duplicated o f g a s₀ s)
    (ha : a < USERPAGES) (hframe : Frame (leafPages g + R) s s') (hself : CopyOf s₀ s' (o a) (g' a))
    (hother : ∀ v, v ≠ a → g' v = g v) : Duplicated o f g' (a + 1) s₀ s' where
  copy v hv := by
    by_cases hva : v = a
    · subst hva
      exact hself
    · rw [hother v hva]
      refine (h.copy v (by omega)).congr (fun _ _ => rfl) fun l hl => ?_
      exact hframe.left.data _ (mem_leafPages (by omega) hl)
  rest v hv := by
    rw [hother v (by omega)]
    exact h.rest v (by omega)

variable {old : PageTable}

theorem uvmcopyPage_spec {a : ℕ} (ha : a < USERPAGES)
    (hempty : f a = none) (hin : ∀ l, old.leafs a = some l → l.pa ∈ R)
    (hdup : Duplicated old.leafs f pt.leafs a s₀ s) (hframe : Frame R s₀ s) (h : Holds ly s pt R) :
    Wp (uvmcopyPage ly old pt (a * PGSIZE)) s (fun r s' => Holds ly s' r.1 R ∧
      Frame R s₀ s' ∧ (r.2 = true → Duplicated old.leafs f r.1.leafs (a + 1) s₀ s') ∧
      (r.2 = false → r.1.leafs = pt.leafs ∧ s'.denied = true)) E := by
  have hva := mul_lt_maxva ha
  have hleaf := old.leaf_eq_leafs hva
  have hnone : pt.leafs a = none := by rw [hdup.rest a le_rfl, hempty]
  rw [mul_div_pgsize] at hleaf
  rw [uvmcopyPage, walk, if_neg (by omega), wp_bind, wp_pure]
  have hskip : old.leafs a = none → Holds ly s pt R ∧ Frame R s₀ s ∧
      (true = true → Duplicated old.leafs f pt.leafs (a + 1) s₀ s) ∧
      (true = false → pt.leafs = pt.leafs ∧ s.denied = true) := by
    intro hold
    refine ⟨h, hframe, fun _ => ?_, by rintro ⟨⟩⟩
    refine hdup.succ (R := R) ha (.refl _ _) ?_ fun _ _ => rfl
    rw [hold]
    exact hnone
  rcases hf : old.find (a * PGSIZE) with _ | _ | l
  · exact hskip (by rw [← hleaf, Table.leaf, hf]; rfl)
  · exact hskip (by rw [← hleaf, Table.leaf, hf]; rfl)
  have hl : old.leafs a = some l := by
    rw [← hleaf, Table.leaf, hf]
    rfl
  have hfill : ∀ s1, Frame (leafPages pt.leafs + R) s s1 → s1.data l.pa = s₀.data l.pa :=
    fun s1 hs1 => (hframe.trans hs1.right).data _ (hin l hl)
  refine (mapFilled_spec ha hnone hfill h).seq ?_
  rintro r s1 ⟨hold1, hframe1, hres⟩
  have hframe' : Frame R s₀ s1 := hframe.trans hframe1.right
  rcases hr : r.2 with _ | mem
  · rw [hr] at hres
    exact ⟨hold1, hframe', by simp, fun _ => hres⟩
  rw [hr] at hres
  obtain ⟨hleafs, hdata⟩ := hres
  refine ⟨hold1, hframe', fun _ => hdup.succ ha hframe1 ?_ fun v hv => ?_, by simp⟩
  · rw [hl, hleafs, update_self]
    exact ⟨⟨mem, l.perm⟩, rfl, rfl, hdata⟩
  · rw [hleafs, update_of_ne hv]

theorem uvmcopyLoop_spec {n a : ℕ} (hle : a + n ≤ USERPAGES) (hempty : ∀ v < USERPAGES, f v = none)
    (hin : ∀ v < USERPAGES, ∀ l, old.leafs v = some l → l.pa ∈ R)
    (hdup : Duplicated old.leafs f pt.leafs a s₀ s) (hframe : Frame R s₀ s) (h : Holds ly s pt R) :
    Wp (uvmcopyLoop ly old n (a * PGSIZE) pt) s (fun r s' => Holds ly s' r.1 R ∧
      Frame R s₀ s' ∧ (r.2 = true → Duplicated old.leafs f r.1.leafs (a + n) s₀ s') ∧
      (r.2 = false → r.1.leafs = f ∧ s'.denied = true)) E := by
  induction n generalizing a pt s with
  | zero => exact ⟨h, hframe, fun _ => hdup, by simp⟩
  | succ n ih =>
    have ha : a < USERPAGES := by omega
    refine (uvmcopyPage_spec ha (hempty a ha) (hin a ha) hdup hframe h).seq ?_
    rintro r s1 ⟨hold1, hframe1, hok, hfail⟩
    rcases hr : r.2 with _ | _
    · rw [if_neg (by simp), mul_div_pgsize, ← Nat.zero_mul PGSIZE]
      refine (uvmunmap_spec (by omega) hold1).seq ?_
      rintro pt2 s2 ⟨hold2, hleafs2, -, hframe2⟩
      refine ⟨hold2, hframe1.trans hframe2.right, by simp, fun _ =>
        ⟨?_, hframe2.denied (hfail hr).2⟩⟩
      funext v
      rw [hleafs2, unmapped]
      split
      · exact (hempty v (by omega)).symm
      · rw [(hfail hr).1]
        exact hdup.rest v (by omega)
    rw [if_pos rfl, succ_mul_pgsize]
    refine (ih (by omega) (hok hr) hframe1 hold1).mono ?_
    rintro q s2 ⟨hold2, hframe2, hok2, hfail2⟩
    rw [Nat.add_right_comm, Nat.add_assoc] at hok2
    exact ⟨hold2, hframe2, hok2, hfail2⟩

/-- **`uvmcopy`**: the child has copies of the pages of the parent below the size, or its page table
is as it was. -/
theorem uvmcopy_spec {sz : ℕ} (hsz : sz ≤ TRAPFRAME) (hempty : ∀ v < USERPAGES, pt.leafs v = none)
    (hin : ∀ v < USERPAGES, ∀ l, old.leafs v = some l → l.pa ∈ R) (h : Holds ly s pt R) :
    Wp (uvmcopy ly old pt sz) s (fun r s' => Holds ly s' r.1 R ∧ Frame R s s' ∧
      (r.2 = true → Duplicated old.leafs pt.leafs r.1.leafs (npages sz) s s') ∧
      (r.2 = false → r.1.leafs = pt.leafs ∧ s'.denied = true)) E := by
  have hle : 0 + npages sz ≤ USERPAGES := by
    have := npages_le_userpages hsz
    omega
  have hdup : Duplicated old.leafs pt.leafs pt.leafs 0 s s :=
    ⟨fun v hv => absurd hv (Nat.not_lt_zero v), fun _ _ => rfl⟩
  have hloop := uvmcopyLoop_spec (E := E) hle hempty hin hdup (.refl _ _) h
  rwa [Nat.zero_mul, Nat.zero_add] at hloop

end Xv6.Vm

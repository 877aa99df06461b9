import Xv6.Vm.Owned

/-!
# Page tables

What a page table maps is a function of the page number, `leafs`, and the page-table pages it is
made of are the multiset `tables`.
-/

namespace Xv6.Vm

open Hoare Function Table Option Finset

variable {ly : Layout} {E : Halt → Prop}

/-! ## One level -/

section Level

variable {α β : Type} (f : α → Multiset ℕ) (d : β) (g : α → β) (t : Table α) (i : Fin 512)

def Table.pages : Multiset ℕ := {t.page} + ∑ i, (t.pte i).elim 0 f

def Table.look : Fin 512 → β := fun i => (t.pte i).elim d g

@[simp] theorem Table.pages_empty (p : ℕ) : (empty p : Table α).pages f = {p} := by
  simp [pages, empty]

@[simp] theorem Table.look_empty (p : ℕ) : (empty p : Table α).look d g = fun _ => d := rfl

@[simp] theorem Table.set_pte_self (e : Option α) : (t.set i e).pte i = e := update_self ..

theorem Table.set_pte_of_ne (e : Option α) {j : Fin 512} (h : j ≠ i) :
    (t.set i e).pte j = t.pte j := update_of_ne h ..

theorem Table.look_set (e : Option α) :
    (t.set i e).look d g = update (t.look d g) i (e.elim d g) := by
  funext j
  by_cases h : j = i
  · subst h
    simp [look]
  · simp [look, set_pte_of_ne _ _ _ h, h]

theorem Table.pages_set (e : Option α) :
    (t.set i e).pages f + (t.pte i).elim 0 f = t.pages f + e.elim 0 f := by
  have hsum : ∀ u : Table α, ∑ j, (u.pte j).elim 0 f =
      (u.pte i).elim 0 f + ∑ j ∈ univ.erase i, (u.pte j).elim 0 f :=
    fun u => (add_sum_erase _ _ (mem_univ i)).symm
  have hrest : ∑ j ∈ univ.erase i, ((t.set i e).pte j).elim 0 f =
      ∑ j ∈ univ.erase i, (t.pte j).elim 0 f := by
    refine sum_congr rfl fun j hj => ?_
    rw [set_pte_of_ne _ _ _ (ne_of_mem_erase hj)]
  rw [pages, pages, hsum, hsum t, hrest, set_pte_self]
  change {t.page} + _ + _ = _
  abel

theorem Table.pages_eq : t.pages f = {t.page} + ∑ i, (t.pte i).elim 0 f := rfl

attribute [irreducible] Table.pages

/-- What a function that may add page-table pages below `t` does: it owns the pages it adds, and the
mapping stays as it is. -/
def Grows (ly : Layout) {τ : Type} (pages : τ → Multiset ℕ) (look : τ → β) (P : τ → Prop)
    (f : τ → VmM (τ × Bool)) : Prop :=
  ∀ (E : Halt → Prop) (t : τ) (s : Mem) (R : Multiset ℕ), Owned ly s (pages t + R) →
    Wp (f t) s (fun r s' => Owned ly s' (pages r.1 + R) ∧ Frame (pages t + R) s s' ∧
      look r.1 = look t ∧ (r.2 = true → P r.1) ∧ (r.2 = false → s'.denied = true)) E

variable {f d} {pages : Table α → Multiset ℕ} {look : Table α → β} {P : Table α → Prop}
  {next : Table α → VmM (Table α × Bool)}

theorem Grows.descend (h : Grows ly pages look P next) (hpages : ∀ p, pages (.empty p) = {p})
    (hlook : ∀ p, look (.empty p) = d) (i : Fin 512) :
    Grows ly (Table.pages pages) (Table.look d look) (fun t => ∃ c, t.pte i = some c ∧ P c)
      (fun t => t.descend next i) := by
  intro E t s R hown
  change Wp (t.descend next i) s _ E
  rw [Table.descend]
  rcases hc : t.pte i with _ | c <;> dsimp only
  · refine (kalloc_spec hown).seq fun r s1 h1 => ?_
    obtain ⟨hframe1, h1⟩ := h1
    rcases r with _ | p
    · exact ⟨h1.1, hframe1, rfl, by simp, fun _ => h1.2⟩
    have hown1 : Owned ly s1 (pages (.empty p) + (t.pages pages + R)) := by
      rw [hpages]
      exact h1
    refine (h E (.empty p) s1 _ hown1).seq fun r s2 h2 => ?_
    obtain ⟨hown2, hframe2, hlook2, hP, hden⟩ := h2
    have hset := Table.pages_set pages t i (some r.1)
    rw [hc] at hset
    simp only [Option.elim_none, add_zero, Option.elim_some] at hset
    refine ⟨?_, hframe1.trans hframe2.right, ?_, fun hr => ⟨r.1, by simp, hP hr⟩, hden⟩
    · rw [hset, add_right_comm, add_comm]
      exact hown2
    · have hsame : look r.1 = t.look d look i := by simp [Table.look, hc, hlook2, hlook]
      rw [Table.look_set, Option.elim_some, hsame, update_eq_self]
  have hset := Table.pages_set pages t i none
  rw [hc] at hset
  simp only [Option.elim_none, add_zero, Option.elim_some] at hset
  have hown1 : Owned ly s (pages c + ((t.set i none).pages pages + R)) := by
    rw [← add_assoc, add_comm (pages c), hset]
    exact hown
  refine (h E c s _ hown1).seq fun r s2 h2 => ?_
  obtain ⟨hown2, hframe2, hlook2, hP, hden⟩ := h2
  have hset' := Table.pages_set pages t i (some r.1)
  rw [hc, ← hset] at hset'
  simp only [Option.elim_some] at hset'
  refine ⟨?_, ?_, ?_, fun hr => ⟨r.1, by simp, hP hr⟩, hden⟩
  · have hpages' : (t.set i (some r.1)).pages pages = (t.set i none).pages pages + pages r.1 := by
      refine add_right_cancel (b := pages c) ?_
      rw [hset']
      abel
    rw [hpages', add_comm _ (pages r.1), add_assoc]
    exact hown2
  · rw [← hset, add_comm _ (pages c), add_assoc]
    exact hframe2
  · have hsame : look r.1 = t.look d look i := by simp [Table.look, hc, hlook2]
    rw [Table.look_set, Option.elim_some, hsame, update_eq_self]

end Level

/-! ## The whole page table -/

section Whole

variable {α : Type} (pt : Radix α) {va : ℕ} {s : Mem} {R : Multiset ℕ}

def Table.tables : Multiset ℕ := Table.pages (Table.pages (Table.pages fun _ => 0)) pt

def Table.view : Fin 512 → Fin 512 → Fin 512 → Option α :=
  Table.look (fun _ _ => none) (Table.look (fun _ => none) Table.pte) pt

def Table.leafs (v : ℕ) : Option α := if v < 2 ^ 27 then pt.leaf (v * PGSIZE) else none

theorem Table.leaf_eq_view (va : ℕ) : pt.leaf va = pt.view (px 2 va) (px 1 va) (px 0 va) := by
  unfold leaf find view look
  rcases pt.pte (px 2 va) with _ | t1
  · rfl
  · simp only [bind_some, elim_some]
    rcases t1.pte (px 1 va) with _ | t0 <;> rfl

theorem px_div (level va : ℕ) : px level va = px level (va / PGSIZE * PGSIZE) := by
  refine Fin.ext ?_
  have hpos : 0 < PGSIZE := by decide
  change va / (PGSIZE * 512 ^ level) % 512 = va / PGSIZE * PGSIZE / (PGSIZE * 512 ^ level) % 512
  rw [← Nat.div_div_eq_div_mul, ← Nat.div_div_eq_div_mul, Nat.mul_div_cancel _ hpos]

theorem eq_of_px {v w : ℕ} (hv : v < 2 ^ 27) (hw : w < 2 ^ 27)
    (h : ∀ level < 3, px level (v * PGSIZE) = px level (w * PGSIZE)) : v = w := by
  have hpos : 0 < PGSIZE := by decide
  have hpx : ∀ level < 3, v / 512 ^ level % 512 = w / 512 ^ level % 512 := by
    intro level hl
    have := congrArg Fin.val (h level hl)
    change v * PGSIZE / (PGSIZE * 512 ^ level) % 512 =
      w * PGSIZE / (PGSIZE * 512 ^ level) % 512 at this
    rwa [← Nat.div_div_eq_div_mul, ← Nat.div_div_eq_div_mul, Nat.mul_div_cancel _ hpos,
      Nat.mul_div_cancel _ hpos] at this
  have h0 := hpx 0 (by decide)
  have h1 := hpx 1 (by decide)
  have h2 := hpx 2 (by decide)
  norm_num at h0 h1 h2
  omega

theorem Table.leaf_eq_leafs (hva : va < MAXVA) : pt.leaf va = pt.leafs (va / PGSIZE) := by
  have hlt : va / PGSIZE < 2 ^ 27 := by
    unfold MAXVA PGSIZE at *
    omega
  rw [leafs, if_pos hlt, leaf_eq_view, leaf_eq_view, px_div 2, px_div 1, px_div 0]

theorem Table.leafs_of_view {pt pt' : Radix α} (h : pt'.view = pt.view) : pt'.leafs = pt.leafs := by
  funext v
  simp only [leafs, leaf_eq_view, h]

theorem Table.leafs_empty (p : ℕ) : (empty p : Radix α).leafs = fun _ => none := by
  funext v
  simp [leafs, leaf, find, empty]

theorem Table.find_eq_some {pt : Radix α} (h : (pt.find va).isSome) :
    ∃ t1 t0, pt.pte (px 2 va) = some t1 ∧ t1.pte (px 1 va) = some t0 := by
  unfold find at h
  rcases h2 : pt.pte (px 2 va) with _ | t1
  · simp [h2] at h
  · rcases h1 : t1.pte (px 1 va) with _ | t0
    · simp [h2, h1] at h
    · exact ⟨t1, t0, rfl, h1⟩

theorem Table.find_of_leaf {pt : Radix α} {l : α} (h : pt.leaf va = some l) :
    pt.find va = some (some l) := by
  unfold leaf at h
  rcases hf : pt.find va with _ | e
  · simp [hf] at h
  · rw [hf, join_some] at h
    rw [h]

theorem Table.view_setPte {pt : Radix α} (h : (pt.find va).isSome) (e : Option α) :
    (pt.setPte va e).view = update pt.view (px 2 va) (update (pt.view (px 2 va)) (px 1 va)
        (update (pt.view (px 2 va) (px 1 va)) (px 0 va) e)) := by
  obtain ⟨t1, t0, h2, h1⟩ := find_eq_some h
  have hview2 : pt.view (px 2 va) = t1.look (fun _ => none) pte := by simp [view, look, h2]
  have hview1 : pt.view (px 2 va) (px 1 va) = t0.pte := by
    rw [hview2]
    simp [look, h1]
  simp only [setPte, h2, h1, hview1]
  rw [hview2, view, look_set, elim_some, look_set, elim_some]
  rfl

/-- **Writing an entry** changes the mapping at one page. -/
theorem Table.leafs_setPte {pt : Radix α} (hva : va < MAXVA) (h : (pt.find va).isSome)
    (e : Option α) : (pt.setPte va e).leafs = update pt.leafs (va / PGSIZE) e := by
  have hlt : va / PGSIZE < 2 ^ 27 := by
    unfold MAXVA PGSIZE at *
    omega
  funext v
  by_cases hv : v < 2 ^ 27
  · simp only [leafs, if_pos hv, leaf_eq_view, view_setPte h]
    by_cases heq : v = va / PGSIZE
    · subst heq
      rw [← px_div, ← px_div, ← px_div]
      simp
    rw [update_of_ne heq, leafs, if_pos hv, leaf_eq_view]
    -- Some index of the other page is different, and the entry is left alone there.
    by_cases h2 : px 2 (v * PGSIZE) = px 2 va
    · by_cases h1 : px 1 (v * PGSIZE) = px 1 va
      · have h0 : px 0 (v * PGSIZE) ≠ px 0 va := by
          intro h0
          refine heq (eq_of_px hv hlt fun level hl => ?_)
          rw [← px_div]
          interval_cases level
          exacts [h0, h1, h2]
        simp [h2, h1, h0]
      · simp [h2, h1]
    · simp [h2]
  · have hne : v ≠ va / PGSIZE := by omega
    rw [update_of_ne hne, leafs, leafs, if_neg hv, if_neg hv]

@[simp] theorem Table.tables_setPte (va : ℕ) (e : Option α) :
    (pt.setPte va e).tables = pt.tables := by
  unfold setPte
  rcases h2 : pt.pte (px 2 va) with _ | t1
  · rfl
  rcases h1 : t1.pte (px 1 va) with _ | t0
  · simp only [h1]
  simp only [h1]
  have hsame0 : (t0.set (px 0 va) e).pages (fun _ => 0) = t0.pages fun _ => 0 := by
    have := pages_set (fun _ : α => 0) t0 (px 0 va) e
    have hzero : ∀ o : Option α, o.elim 0 (fun _ => (0 : Multiset ℕ)) = 0 := by
      rintro (_ | _) <;> rfl
    rwa [hzero, hzero, add_zero, add_zero] at this
  have hsame1 : (t1.set (px 1 va) (some (t0.set (px 0 va) e))).pages
      (pages fun _ => 0) = t1.pages (pages fun _ => 0) := by
    refine add_right_cancel (b := t0.pages fun _ => 0) ?_
    have := pages_set (pages fun _ : α => 0) t1 (px 1 va) (some (t0.set (px 0 va) e))
    rwa [h1, elim_some, elim_some, hsame0] at this
  refine add_right_cancel (b := t1.pages (pages fun _ => 0)) ?_
  have := pages_set (pages (pages fun _ : α => 0)) pt (px 2 va)
    (some (t1.set (px 1 va) (some (t0.set (px 0 va) e))))
  rwa [h2, elim_some, elim_some, hsame1] at this

theorem walkAlloc_spec (hva : va < MAXVA) (hown : Owned ly s (pt.tables + R)) :
    Wp (walkAlloc pt va) s (fun r s' => Owned ly s' (r.1.tables + R) ∧
      Frame (pt.tables + R) s s' ∧ r.1.leafs = pt.leafs ∧
      (r.2 = true → (r.1.find va).isSome) ∧ (r.2 = false → s'.denied = true)) E := by
  have h0 : Grows ly (Table.pages fun _ : α => 0) Table.pte (fun _ => True)
      fun t0 => pure (t0, true) := by
    intro E t s R hown
    exact ⟨hown, .refl _ _, rfl, fun _ => trivial, by simp⟩
  have h₁ := h0.descend (d := fun _ => none) (Table.pages_empty _) (fun _ => rfl) (px 1 va)
  have h₂ := h₁.descend (d := fun _ _ => none) (Table.pages_empty _) (fun _ => rfl) (px 2 va)
  rw [walkAlloc, if_neg (by omega)]
  refine (h₂ E pt s R hown).mono fun r s' h => ?_
  obtain ⟨hown', hframe, hview, hpath, hden⟩ := h
  refine ⟨hown', hframe, Table.leafs_of_view hview, fun hr => ?_, hden⟩
  obtain ⟨t1, h2, t0, h1, -⟩ := hpath hr
  simp [Table.find, h2, h1]

theorem mappages_spec (pt : PageTable) {pa : ℕ} {perm : Perm} (halign : va % PGSIZE = 0)
    (hva : va < MAXVA) (hfree : pt.leafs (va / PGSIZE) = none) (hown : Owned ly s (pt.tables + R)) :
    Wp (mappages pt va PGSIZE pa perm) s (fun r s' => Owned ly s' (r.1.tables + R) ∧
      Frame (pt.tables + R) s s' ∧
      (r.2 = true → r.1.leafs = update pt.leafs (va / PGSIZE) (some ⟨pa, perm⟩)) ∧
      (r.2 = false → r.1.leafs = pt.leafs ∧ s'.denied = true)) E := by
  have hsize : ¬ PGSIZE % PGSIZE ≠ 0 := by decide
  have hpos : PGSIZE ≠ 0 := by decide
  have hone : PGSIZE / PGSIZE = 1 := rfl
  rw [mappages, if_neg (not_not.mpr halign), if_neg hsize, if_neg hpos, hone]
  refine (walkAlloc_spec pt hva hown).seq fun r s1 h1 => ?_
  obtain ⟨hown1, hframe1, hleafs, hpath, hden⟩ := h1
  rcases hr : r.2 with _ | _
  · rw [if_pos rfl]
    exact ⟨hown1, hframe1, by simp, fun _ => ⟨hleafs, hden hr⟩⟩
  have hnone : r.1.leaf va = none := by
    rw [leaf_eq_leafs _ hva, hleafs]
    exact hfree
  rw [if_neg (by simp), if_neg (by simp [hnone])]
  refine ⟨?_, hframe1, fun _ => ?_, by simp⟩
  · rw [tables_setPte]
    exact hown1
  · rw [leafs_setPte hva (hpath hr), hleafs]

end Whole

end Xv6.Vm

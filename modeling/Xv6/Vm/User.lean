import Xv6.Vm.Table

/-!
# User pages

The pages a page table maps below `TRAPFRAME` belong to the process.
-/

namespace Xv6.Vm

open Hoare Function Finset Multiset Option Table

/-- Number of pages below `TRAPFRAME`. -/
@[irreducible] def USERPAGES : ℕ := TRAPFRAME / PGSIZE

def npages (sz : ℕ) : ℕ := (sz + PGSIZE - 1) / PGSIZE

def leafPages (f : ℕ → Option Leaf) : Multiset ℕ :=
  ∑ v ∈ Finset.range USERPAGES, (f v).elim 0 fun l => {l.pa}

def Holds (ly : Layout) (s : Mem) (pt : PageTable) (R : Multiset ℕ) : Prop :=
  Owned ly s (pt.tables + (leafPages pt.leafs + R))

variable {ly : Layout} {s s' : Mem} {pt : PageTable} {R : Multiset ℕ} {E : Halt → Prop}
  {f g : ℕ → Option Leaf} {v : ℕ}

/-! ## Rounding -/

theorem pgroundup_eq {sz : ℕ} (h : sz ≤ MAXVA) : pgroundup sz = npages sz * PGSIZE := by
  unfold pgroundup npages u64 MAXVA PGSIZE at *
  omega

theorem pgroundup_div {sz : ℕ} (h : sz ≤ MAXVA) : pgroundup sz / PGSIZE = npages sz := by
  rw [pgroundup_eq h]
  exact Nat.mul_div_cancel _ (by decide)

theorem npages_mul (n : ℕ) : npages (n * PGSIZE) = n := by
  unfold npages PGSIZE
  omega

theorem npages_mono {m n : ℕ} (h : m ≤ n) : npages m ≤ npages n := by
  unfold npages PGSIZE
  omega

theorem npages_le_iff {sz n : ℕ} : npages sz ≤ n ↔ sz ≤ n * PGSIZE := by
  unfold npages PGSIZE
  omega

theorem lt_npages_iff {sz : ℕ} : v < npages sz ↔ v * PGSIZE < sz := by
  unfold npages PGSIZE
  omega

theorem userpages_mul : USERPAGES * PGSIZE = TRAPFRAME := by
  unfold USERPAGES
  decide

theorem userpages_lt : USERPAGES < 2 ^ 31 := by
  unfold USERPAGES
  decide

theorem trapframe_le : TRAPFRAME ≤ MAXVA := by decide

theorem mul_lt_maxva (hv : v < USERPAGES) : v * PGSIZE < MAXVA := by
  have hle := trapframe_le
  have hmul := userpages_mul
  have : v * PGSIZE < USERPAGES * PGSIZE := Nat.mul_lt_mul_of_pos_right hv (by decide)
  omega

theorem mul_div_pgsize (v : ℕ) : v * PGSIZE / PGSIZE = v := Nat.mul_div_cancel _ (by decide)

theorem mul_mod_pgsize (v : ℕ) : v * PGSIZE % PGSIZE = 0 := Nat.mul_mod_left ..

theorem succ_mul_pgsize (v : ℕ) : v * PGSIZE + PGSIZE = (v + 1) * PGSIZE := (Nat.succ_mul ..).symm

theorem intU64_of_lt {n : ℕ} (h : n < 2 ^ 31) : intU64 n = n := by
  unfold intU64
  split <;> omega

/-! ## The pages of a mapping -/

theorem leafPages_update (f : ℕ → Option Leaf) (hv : v < USERPAGES) (e : Option Leaf) :
    leafPages (update f v e) + (f v).elim 0 (fun l => {l.pa}) =
      leafPages f + e.elim 0 fun l => {l.pa} := by
  have hsum : ∀ h : ℕ → Option Leaf, leafPages h = (h v).elim 0 (fun l => {l.pa}) +
      ∑ w ∈ (Finset.range USERPAGES).erase v, (h w).elim 0 fun l => {l.pa} :=
    fun h => (Finset.add_sum_erase _ _ (Finset.mem_range.mpr hv)).symm
  have hrest : ∑ w ∈ (Finset.range USERPAGES).erase v, (update f v e w).elim 0
      (fun l => ({l.pa} : Multiset ℕ)) =
      ∑ w ∈ (Finset.range USERPAGES).erase v, (f w).elim 0 fun l => {l.pa} := by
    refine Finset.sum_congr rfl fun w hw => ?_
    rw [update_of_ne (Finset.ne_of_mem_erase hw)]
  rw [hsum, hsum f, hrest, update_self]
  abel

theorem leafPages_map (hv : v < USERPAGES) (hf : f v = none) (l : Leaf) :
    leafPages (update f v (some l)) = {l.pa} + leafPages f := by
  have h := leafPages_update f hv (some l)
  rw [hf, elim_none, add_zero, elim_some] at h
  rw [h, add_comm]

theorem leafPages_unmap (hv : v < USERPAGES) {l : Leaf} (hf : f v = some l) :
    {l.pa} + leafPages (update f v none) = leafPages f := by
  have h := leafPages_update f hv none
  rw [hf, elim_none, add_zero, elim_some] at h
  rw [← h, add_comm]

theorem leafPages_congr (h : ∀ v < USERPAGES, f v = g v) : leafPages f = leafPages g :=
  Finset.sum_congr rfl fun v hv => by rw [h v (Finset.mem_range.mp hv)]

theorem leafPages_none (h : ∀ v < USERPAGES, f v = none) : leafPages f = 0 := by
  refine Finset.sum_eq_zero fun v hv => ?_
  rw [h v (Finset.mem_range.mp hv), Option.elim_none]

theorem mem_leafPages (hv : v < USERPAGES) {l : Leaf} (hf : f v = some l) : l.pa ∈ leafPages f := by
  have hmem : l.pa ∈ {l.pa} + leafPages (update f v none) :=
    Multiset.mem_add.mpr (.inl (Multiset.mem_singleton_self _))
  rwa [leafPages_unmap hv hf] at hmem

theorem exists_of_mem_leafPages {q : ℕ} (h : q ∈ leafPages f) :
    ∃ v < USERPAGES, ∃ l, f v = some l ∧ l.pa = q := by
  obtain ⟨v, hv, hmem⟩ := Multiset.mem_sum.mp h
  rw [Finset.mem_range] at hv
  rcases hf : f v with _ | l
  · rw [hf, Option.elim_none] at hmem
    exact absurd hmem (Multiset.notMem_zero q)
  · rw [hf, Option.elim_some, Multiset.mem_singleton] at hmem
    exact ⟨v, hv, l, hf, hmem.symm⟩

theorem eq_of_leafPages_nodup (h : (leafPages f).Nodup) {w : ℕ} {l l' : Leaf} (hv : v < USERPAGES)
    (hw : w < USERPAGES) (hfv : f v = some l) (hfw : f w = some l') (hpa : l.pa = l'.pa) :
    v = w := by
  by_contra hne
  rw [← leafPages_unmap hv hfv, singleton_add, nodup_cons] at h
  refine h.1 ?_
  rw [hpa]
  exact mem_leafPages hw (by rw [update_of_ne (Ne.symm hne), hfw])

theorem leafPages_mono (h : ∀ v < USERPAGES, f v = none ∨ f v = g v) :
    leafPages f ≤ leafPages g := by
  refine Finset.sum_le_sum fun v hv => ?_
  rcases h v (Finset.mem_range.mp hv) with hn | he
  · rw [hn, Option.elim_none]
    exact Multiset.zero_le _
  · rw [he]

theorem le_card_leafPages {n : ℕ} (hn : n ≤ USERPAGES) (h : ∀ v < n, f v ≠ none) :
    n ≤ (leafPages f).card := by
  have hcard : (leafPages f).card =
      ∑ v ∈ Finset.range USERPAGES, ((f v).elim 0 fun l => ({l.pa} : Multiset ℕ)).card :=
    map_sum Multiset.cardHom _ _
  calc n = ∑ _v ∈ Finset.range n, 1 := by simp
    _ ≤ ∑ v ∈ Finset.range n, ((f v).elim 0 fun l => ({l.pa} : Multiset ℕ)).card := by
      refine Finset.sum_le_sum fun v hv => ?_
      obtain ⟨l, hl⟩ := Option.ne_none_iff_exists'.mp (h v (Finset.mem_range.mp hv))
      simp [hl]
    _ ≤ _ := by
      rw [hcard]
      refine Finset.sum_le_sum_of_subset fun v hv => ?_
      rw [Finset.mem_range] at hv ⊢
      omega

variable (h : Holds ly s pt R)

include h

theorem Holds.lt_userpages {n : ℕ} (hfull : ∀ v < n, pt.leafs v ≠ none)
    (hmem : ly.pages.length < USERPAGES) : n < USERPAGES := by
  have hcard := h.card_le
  rw [card_add, card_add] at hcard
  by_contra hle
  have := le_card_leafPages le_rfl fun v hv => hfull v (by omega)
  omega

theorem Holds.nodup : (leafPages pt.leafs + R).Nodup := by
  unfold Holds at h
  have hall := h.nodup
  rw [nodup_add] at hall
  exact hall.2.1

theorem Holds.pages_nodup : (leafPages pt.leafs).Nodup := by
  have hall := h.nodup
  rw [nodup_add] at hall
  exact hall.1

theorem Holds.not_mem {q : ℕ} (hq : q ∈ leafPages pt.leafs) : q ∉ R := by
  have hall := h.nodup
  rw [nodup_add] at hall
  exact disjoint_left.mp hall.2.2 hq

omit h

/-! ## Unmapping -/

theorem uvmunmapPage_spec (hv : v < USERPAGES) (h : Holds ly s pt R) :
    Wp (uvmunmapPage ly true pt (v * PGSIZE)) s (fun pt' s' => Holds ly s' pt' R ∧
      pt'.leafs = update pt.leafs v none ∧ pt'.tables = pt.tables ∧
      Frame (leafPages pt'.leafs + R) s s') E := by
  have hva := mul_lt_maxva hv
  rw [uvmunmapPage, walk, if_neg (by omega)]
  rw [wp_bind, wp_pure]
  have hleaf := pt.leaf_eq_leafs hva
  rw [mul_div_pgsize] at hleaf
  rcases hfind : pt.find (v * PGSIZE) with _ | _ | l
  · have hnone : pt.leafs v = none := by rw [← hleaf, leaf, hfind]; rfl
    exact ⟨h, by rw [← hnone, update_eq_self], rfl, .refl _ _⟩
  · have hnone : pt.leafs v = none := by rw [← hleaf, leaf, hfind]; rfl
    exact ⟨h, by rw [← hnone, update_eq_self], rfl, .refl _ _⟩
  have hsome : pt.leafs v = some l := by rw [← hleaf, leaf, hfind]; rfl
  have hset : (pt.setPte (v * PGSIZE) none).leafs = update pt.leafs v none := by
    rw [leafs_setPte hva (by rw [hfind]; rfl), mul_div_pgsize]
  have hown : Owned ly s ({l.pa} + (pt.tables +
      (leafPages (pt.setPte (v * PGSIZE) none).leafs + R))) := by
    rw [hset, add_left_comm, ← add_assoc ({l.pa} : Multiset ℕ), leafPages_unmap hv hsome]
    exact h
  dsimp only
  rw [if_pos rfl]
  refine (kfree_spec hown).seq fun _ s1 h1 => ?_
  refine ⟨?_, hset, tables_setPte .., h1.2.right⟩
  rw [Holds, tables_setPte]
  exact h1.1

def unmapped (f : ℕ → Option Leaf) (lo hi : ℕ) (v : ℕ) : Option Leaf :=
  if lo ≤ v ∧ v < hi then none else f v

theorem uvmunmapLoop_spec {n a : ℕ} (hle : a + n ≤ USERPAGES) (h : Holds ly s pt R) :
    Wp (uvmunmapLoop ly true n (a * PGSIZE) pt) s (fun pt' s' => Holds ly s' pt' R ∧
      pt'.leafs = unmapped pt.leafs a (a + n) ∧ pt'.tables = pt.tables ∧
      Frame (leafPages pt'.leafs + R) s s') E := by
  induction n generalizing a pt s with
  | zero =>
    refine ⟨h, ?_, rfl, .refl _ _⟩
    funext v
    rw [unmapped, if_neg (by omega)]
  | succ n ih =>
    refine (uvmunmapPage_spec (v := a) (by omega) h).seq fun pt1 s1 h1 => ?_
    obtain ⟨hold1, hleafs1, htables1, hframe1⟩ := h1
    rw [succ_mul_pgsize]
    refine (ih (by omega) hold1).mono fun pt2 s2 h2 => ?_
    obtain ⟨hold2, hleafs2, htables2, hframe2⟩ := h2
    have hleafs : pt2.leafs = unmapped pt.leafs a (a + (n + 1)) := by
      rw [hleafs2, hleafs1]
      funext v
      by_cases hv : v = a
      · subst hv
        simp [unmapped]
      · have hiff : (a + 1 ≤ v ∧ v < a + 1 + n) ↔ (a ≤ v ∧ v < a + (n + 1)) := by omega
        simp only [unmapped, hiff, update_of_ne hv]
    refine ⟨hold2, hleafs, htables2.trans htables1, .trans (hframe1.mono ?_) hframe2⟩
    refine add_le_add_left (leafPages_mono fun v _ => ?_) R
    rw [hleafs2, unmapped]
    split
    · exact .inl rfl
    · exact .inr rfl

theorem uvmunmap_spec {a n : ℕ} (hle : a + n ≤ USERPAGES) (h : Holds ly s pt R) :
    Wp (uvmunmap ly pt (a * PGSIZE) n true) s (fun pt' s' => Holds ly s' pt' R ∧
      pt'.leafs = unmapped pt.leafs a (a + n) ∧ pt'.tables = pt.tables ∧
      Frame (leafPages pt'.leafs + R) s s') E := by
  rw [uvmunmap, if_neg (not_not.mpr (mul_mod_pgsize a))]
  exact uvmunmapLoop_spec hle h

theorem uvmunmap_keep_spec {va : ℕ} (halign : va % PGSIZE = 0) (hva : va < MAXVA)
    (hv : USERPAGES ≤ va / PGSIZE) (h : Holds ly s pt R) :
    Wp (uvmunmap ly pt va 1 false) s (fun pt' s' => Holds ly s' pt' R ∧ s' = s ∧
      pt'.leafs = update pt.leafs (va / PGSIZE) none) E := by
  rw [uvmunmap, if_neg (not_not.mpr halign)]
  simp only [uvmunmapLoop, uvmunmapPage, walk, if_neg (Nat.not_le.mpr hva), wp_bind, wp_pure]
  have hleaf := pt.leaf_eq_leafs hva
  have hkeep : ∀ e, leafPages (update pt.leafs (va / PGSIZE) e) = leafPages pt.leafs := by
    intro e
    refine leafPages_congr fun w hw => update_of_ne ?_ ..
    omega
  rcases hfind : pt.find va with _ | _ | l
  · have hnone : pt.leafs (va / PGSIZE) = none := by rw [← hleaf, leaf, hfind]; rfl
    exact ⟨h, rfl, by rw [← hnone, update_eq_self]⟩
  · have hnone : pt.leafs (va / PGSIZE) = none := by rw [← hleaf, leaf, hfind]; rfl
    exact ⟨h, rfl, by rw [← hnone, update_eq_self]⟩
  have hfound : (pt.find va).isSome := by rw [hfind]; rfl
  have hset := leafs_setPte hva hfound none
  refine ⟨?_, rfl, hset⟩
  rw [Holds, tables_setPte, hset, hkeep]
  exact h

theorem uvmdealloc_spec {oldsz newsz : ℕ} (hold : oldsz ≤ TRAPFRAME) (h : Holds ly s pt R) :
    Wp (uvmdealloc ly pt oldsz newsz) s (fun r s' => Holds ly s' r.1 R ∧
      r.1.leafs = unmapped pt.leafs (npages newsz) (npages oldsz) ∧ r.2 = min oldsz newsz ∧
      r.1.tables = pt.tables ∧ Frame (leafPages r.1.leafs + R) s s') E := by
  have hmax := trapframe_le
  have hkeep : npages oldsz ≤ npages newsz →
      pt.leafs = unmapped pt.leafs (npages newsz) (npages oldsz) := by
    intro hle
    funext v
    rw [unmapped, if_neg (by omega)]
  rw [uvmdealloc]
  split
  · next hge => exact ⟨h, hkeep (npages_mono hge), (min_eq_left hge).symm, rfl, .refl _ _⟩
  next hlt =>
  have hmin : newsz = min oldsz newsz := (min_eq_right (by omega)).symm
  rw [pgroundup_eq (by omega : newsz ≤ MAXVA), pgroundup_eq (by omega : oldsz ≤ MAXVA)]
  split
  · next hpages =>
    have hlo : npages newsz < npages oldsz := lt_of_mul_lt_mul_right' hpages
    have hhi : npages oldsz ≤ USERPAGES := npages_le_iff.mpr (by rw [userpages_mul]; exact hold)
    have hsmall := userpages_lt
    have hcount : intU64 ((npages oldsz * PGSIZE - npages newsz * PGSIZE) / PGSIZE) =
        npages oldsz - npages newsz := by
      rw [← Nat.sub_mul, mul_div_pgsize, intU64_of_lt (by omega)]
    dsimp only
    rw [hcount]
    refine (uvmunmap_spec (by omega) h).seq fun pt1 s1 h1 => ?_
    obtain ⟨hold1, hleafs, htables, hframe⟩ := h1
    rw [Nat.add_sub_cancel' hlo.le] at hleafs
    exact ⟨hold1, hleafs, hmin, htables, hframe⟩
  next hpages =>
  refine ⟨h, hkeep ?_, hmin, rfl, .refl _ _⟩
  by_contra hlt'
  exact hpages (Nat.mul_lt_mul_of_pos_right (by omega) (by decide))

end Xv6.Vm

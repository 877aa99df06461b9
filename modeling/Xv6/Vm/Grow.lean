import Xv6.Vm.User

/-!
# Mapping user pages

`uvmalloc`, `uvmcopy` and `vmfault` allocate a page, fill it and map it.
-/

namespace Xv6.Vm

open Hoare Function

variable {ly : Layout} {s s' : Mem} {pt : PageTable} {R : Multiset ℕ} {E : Halt → Prop}
  {f g : ℕ → Option Leaf} {v : ℕ} {perm : Perm}

/-! ## One page -/

/-- **A page is mapped**, with the bytes `b` in it, or memory has run out. -/
theorem mapFilled_spec {fill : Mem → Bytes} {b : Bytes} (hv : v < USERPAGES)
    (hnone : pt.leafs v = none) (hfill : ∀ s1, Frame (leafPages pt.leafs + R) s s1 → fill s1 = b)
    (h : Holds ly s pt R) :
    Wp (mapFilled ly pt (v * PGSIZE) perm fill) s (fun r s' => Holds ly s' r.1 R ∧
      Frame (leafPages pt.leafs + R) s s' ∧
      match r.2 with
      | some mem => r.1.leafs = update pt.leafs v (some ⟨mem, perm⟩) ∧ s'.data mem = b
      | none => r.1.leafs = pt.leafs ∧ s'.denied = true) E := by
  refine (kalloc_spec h).seq fun r s1 h1 => ?_
  obtain ⟨hframe1, h1⟩ := h1
  rcases r with _ | mem
  · exact ⟨h1.1, hframe1.right, rfl, h1.2⟩
  refine Wp.modify_seq ?_
  have hb := hfill s1 hframe1.right
  set s2 := s1.fill mem (fill s1) with hs2
  have hframe2 : Frame (leafPages pt.leafs + R) s s2 :=
    hframe1.right.trans (Frame.fill h1.not_mem _).right
  have hdata2 : s2.data mem = b := by
    rw [← hb]
    exact update_self ..
  have hown2 : Owned ly s2 (pt.tables + ({mem} + (leafPages pt.leafs + R))) := by
    rw [add_left_comm]
    exact h1
  have hfree : pt.leafs (v * PGSIZE / PGSIZE) = none := by
    rw [mul_div_pgsize]
    exact hnone
  refine (mappages_spec pt (mul_mod_pgsize v) (mul_lt_maxva hv) hfree hown2).seq fun r s3 h3 => ?_
  obtain ⟨hown3, hframe3, hok, hfail⟩ := h3
  have hframe : Frame (leafPages pt.leafs + R) s s3 := hframe2.trans hframe3.right.right
  rcases hr : r.2 with _ | _
  · rw [if_neg (by simp)]
    obtain ⟨hleafs, hden⟩ := hfail hr
    have hown : Owned ly s3 ({mem} + (r.1.tables + (leafPages r.1.leafs + R))) := by
      rw [hleafs, add_left_comm]
      exact hown3
    refine (kfree_spec hown).seq fun _ s4 h4 => ?_
    refine ⟨h4.1, hframe.trans ?_, hleafs, h4.2.denied hden⟩
    rw [← hleafs]
    exact h4.2.right
  rw [if_pos rfl]
  have hleafs := hok hr
  rw [mul_div_pgsize] at hleafs
  refine ⟨?_, hframe, hleafs, ?_⟩
  · rw [Holds, hleafs, leafPages_map hv hnone, add_assoc]
    exact hown3
  · have hkeep := hframe3.right.left.data mem (Multiset.mem_singleton_self mem)
    exact hkeep.trans hdata2

/-! ## uvmalloc -/

/-- The mapping `g` is `f` with new zeroed pages from `lo` to `hi`. -/
structure Extended (f g : ℕ → Option Leaf) (lo hi : ℕ) (perm : Perm) (s : Mem) : Prop where
  same : ∀ v, ¬ (lo ≤ v ∧ v < hi) → g v = f v
  new : ∀ v, lo ≤ v → v < hi → ∃ l, g v = some l ∧ l.perm = perm ∧ s.data l.pa = fun _ => 0

theorem Extended.refl (f : ℕ → Option Leaf) (lo : ℕ) (perm : Perm) (s : Mem) :
    Extended f f lo lo perm s := ⟨fun _ _ => rfl, fun v hlo hhi => absurd hlo (by omega)⟩

theorem Extended.succ {lo a mem : ℕ} (h : Extended f g lo a perm s) (hlo : lo ≤ a)
    (ha : a ≤ USERPAGES) (hframe : Frame (leafPages g + R) s s')
    (hdata : s'.data mem = fun _ => 0) :
    Extended f (update g a (some ⟨mem, perm⟩)) lo (a + 1) perm s' := by
  refine ⟨fun v hv => ?_, fun v hlo' hhi => ?_⟩
  · have hne : v ≠ a := by omega
    rw [update_of_ne hne]
    exact h.same v (by omega)
  by_cases hv : v = a
  · subst hv
    exact ⟨_, update_self .., rfl, hdata⟩
  obtain ⟨l, hl, hp, hd⟩ := h.new v hlo' (by omega)
  refine ⟨l, by rw [update_of_ne hv, hl], hp, ?_⟩
  have hmem : l.pa ∈ leafPages g + R :=
    Multiset.mem_add.mpr (.inl (mem_leafPages (by omega) hl))
  rw [hframe.data _ hmem, hd]

theorem Extended.unmapped_eq {lo a : ℕ} (h : Extended f g lo a perm s)
    (hfree : ∀ v, lo ≤ v → v < a → f v = none) : unmapped g lo a = f := by
  funext v
  rw [unmapped]
  split
  · next hv => exact (hfree v hv.1 hv.2).symm
  · next hv => exact h.same v hv

/-- Why the pages that `uvmalloc` adds lie below `TRAPFRAME`: the size is checked, or there are no
holes and memory runs out before. -/
def Room (ly : Layout) (f : ℕ → Option Leaf) (a n : ℕ) : Prop :=
  a + n ≤ USERPAGES ∨ ((∀ v < a, f v ≠ none) ∧ ly.pages.length < USERPAGES)

theorem Room.lt {a n : ℕ} (h : Room ly pt.leafs a (n + 1)) (hold : Holds ly s pt R) :
    a < USERPAGES := by
  rcases h with h | ⟨hfull, hmem⟩
  · omega
  · exact hold.lt_userpages hfull hmem

theorem Room.succ {a n : ℕ} (h : Room ly f a (n + 1)) (l : Leaf) :
    Room ly (update f a (some l)) (a + 1) n := by
  rcases h with h | ⟨hfull, hmem⟩
  · exact .inl (by omega)
  refine .inr ⟨fun v hv => ?_, hmem⟩
  by_cases hva : v = a
  · simp [hva]
  · rw [update_of_ne hva]
    exact hfull v (by omega)

theorem uvmallocLoop_spec {newsz lo n a : ℕ} (hlo : lo ≤ a)
    (hfree : ∀ v, lo ≤ v → v < USERPAGES → f v = none) (hext : Extended f pt.leafs lo a perm s)
    (hroom : Room ly pt.leafs a n) (hkeep : leafPages f ≤ leafPages pt.leafs)
    (h : Holds ly s pt R) :
    Wp (uvmallocLoop ly (lo * PGSIZE) newsz perm n (a * PGSIZE) pt) s (fun r s' =>
      Holds ly s' r.1 R ∧ Frame (leafPages f + R) s s' ∧
      ((r.2 = newsz ∧ Extended f r.1.leafs lo (a + n) perm s') ∨
        (r.2 = 0 ∧ r.1.leafs = f ∧ s'.denied = true))) E := by
  induction n generalizing a pt s with
  | zero => exact ⟨h, .refl _ _, .inl ⟨rfl, hext⟩⟩
  | succ n ih =>
    have ha : a < USERPAGES := hroom.lt h
    have hnone : pt.leafs a = none := by
      rw [hext.same a (by omega)]
      exact hfree a hlo ha
    have hle : leafPages f + R ≤ leafPages pt.leafs + R := add_le_add_left hkeep R
    refine (mapFilled_spec ha hnone (b := fun _ => 0) (fun _ _ => rfl) h).seq fun r s1 h1 => ?_
    obtain ⟨hold1, hframe1, h1⟩ := h1
    rcases hr : r.2 with _ | mem
    · rw [hr] at h1
      obtain ⟨hleafs1, hden⟩ := h1
      have hbound : a * PGSIZE ≤ TRAPFRAME := by
        rw [← userpages_mul]
        exact Nat.mul_le_mul_right _ ha.le
      refine (uvmdealloc_spec hbound hold1).seq fun r s2 h2 => ?_
      obtain ⟨hold2, hleafs2, -, -, hframe2⟩ := h2
      rw [npages_mul, npages_mul, hleafs1,
        hext.unmapped_eq fun v hv hva => hfree v hv (by omega)] at hleafs2
      rw [hleafs2] at hframe2
      exact ⟨hold2, (hframe1.mono hle).trans hframe2, .inr ⟨rfl, hleafs2, hframe2.denied hden⟩⟩
    rw [hr] at h1
    obtain ⟨hleafs1, hdata⟩ := h1
    have hext1 := hext.succ hlo ha.le hframe1 hdata
    have hkeep1 : leafPages f ≤ leafPages r.1.leafs := by
      rw [hleafs1, leafPages_map ha hnone]
      exact hkeep.trans (Multiset.le_add_left _ _)
    rw [← hleafs1] at hext1
    dsimp only
    rw [succ_mul_pgsize]
    refine (ih (by omega) hext1 (hleafs1 ▸ hroom.succ _) hkeep1 hold1).mono fun r s2 h2 => ?_
    obtain ⟨hold2, hframe2, h2⟩ := h2
    rw [Nat.add_right_comm, Nat.add_assoc] at h2
    exact ⟨hold2, (hframe1.mono hle).trans hframe2, h2⟩

/-- **`uvmalloc`**: the pages between the two sizes are new and zeroed, or the mapping is as it
was. -/
theorem uvmalloc_spec {oldsz newsz : ℕ} (hold : oldsz ≤ TRAPFRAME)
    (hfree : ∀ v, npages oldsz ≤ v → v < USERPAGES → pt.leafs v = none) (hroom : newsz ≤ TRAPFRAME ∨
      ((∀ v < npages oldsz, pt.leafs v ≠ none) ∧ ly.pages.length < USERPAGES))
    (h : Holds ly s pt R) : Wp (uvmalloc ly pt oldsz newsz perm) s (fun r s' => Holds ly s' r.1 R ∧
      Frame (leafPages pt.leafs + R) s s' ∧ ((newsz < oldsz ∧ r.2 = oldsz ∧ r.1.leafs = pt.leafs) ∨
        (oldsz ≤ newsz ∧ r.2 = newsz ∧
          Extended pt.leafs r.1.leafs (npages oldsz) (npages newsz) perm s') ∨
        (oldsz ≤ newsz ∧ r.2 = 0 ∧ r.1.leafs = pt.leafs ∧ s'.denied = true))) E := by
  rw [uvmalloc]
  split
  · next hlt => exact ⟨h, .refl _ _, .inl ⟨hlt, rfl, rfl⟩⟩
  next hge =>
  have hge' : oldsz ≤ newsz := Nat.le_of_not_lt hge
  have hmax := trapframe_le
  have hcount : (newsz - npages oldsz * PGSIZE + PGSIZE - 1) / PGSIZE =
      npages newsz - npages oldsz := by
    unfold npages PGSIZE
    omega
  have hsum : npages oldsz + (npages newsz - npages oldsz) = npages newsz :=
    Nat.add_sub_cancel' (npages_mono hge')
  dsimp only
  rw [pgroundup_eq (hold.trans hmax), hcount]
  have hroom' : Room ly pt.leafs (npages oldsz) (npages newsz - npages oldsz) := by
    rcases hroom with hle | hfull
    · refine .inl ?_
      rw [hsum, npages_le_iff, userpages_mul]
      exact hle
    · exact .inr hfull
  refine (uvmallocLoop_spec le_rfl hfree (.refl _ _ _ _) hroom' le_rfl h).mono fun r s' h' => ?_
  obtain ⟨hold', hframe, h'⟩ := h'
  rw [hsum] at h'
  refine ⟨hold', hframe, .inr ?_⟩
  rcases h' with ⟨hr, hext⟩ | ⟨hr, hleafs, hden⟩
  · exact .inl ⟨hge', hr, hext⟩
  · exact .inr ⟨hge', hr, hleafs, hden⟩

/-! ## freewalk -/

section Freewalk

variable {α : Type} {entry : α → VmM Unit} {pages : α → Multiset ℕ} (Ok : α → Prop)

theorem freewalk_entries (hentry : ∀ c s R, Ok c → Owned ly s (pages c + R) →
      Wp (entry c) s (fun _ s' => Owned ly s' R ∧ Frame R s s') E) (t : Table α)
    (hok : ∀ i c, t.pte i = some c → Ok c) (l : List (Fin 512))
    (h : Owned ly s ((l.map fun i => (t.pte i).elim 0 pages).sum + R)) :
    Wp (l.forM fun i => match t.pte i with
      | some c => entry c
      | none => pure ()) s (fun _ s' => Owned ly s' R ∧ Frame R s s') E := by
  induction l generalizing s with
  | nil =>
    refine ⟨?_, .refl _ _⟩
    simpa using h
  | cons i l ih =>
    rw [List.map_cons, List.sum_cons, add_assoc] at h
    have hfirst : Wp (match t.pte i with
        | some c => entry c
        | none => pure ()) s (fun _ s' =>
          Owned ly s' ((l.map fun i => (t.pte i).elim 0 pages).sum + R) ∧ Frame R s s') E := by
      rcases hc : t.pte i with _ | c
      · rw [hc, Option.elim_none, zero_add] at h
        exact ⟨h, .refl _ _⟩
      · rw [hc] at h
        exact (hentry c s _ (hok i c hc) h).mono fun _ _ h' => ⟨h'.1, h'.2.right⟩
    refine hfirst.seq fun _ s1 h1 => ?_
    exact (ih h1.1).mono fun _ _ h2 => ⟨h2.1, h1.2.trans h2.2⟩

theorem Table.freewalk_spec (hentry : ∀ c s R, Ok c → Owned ly s (pages c + R) →
      Wp (entry c) s (fun _ s' => Owned ly s' R ∧ Frame R s s') E) (t : Table α)
    (hok : ∀ i c, t.pte i = some c → Ok c) (h : Owned ly s (t.pages pages + R)) :
    Wp (t.freewalk ly entry) s (fun _ s' => Owned ly s' R ∧ Frame R s s') E := by
  have hown : Owned ly s ((slots.map fun i => (t.pte i).elim 0 pages).sum +
      ({t.page} + R)) := by
    rw [slots_eq, ← Fin.sum_univ_def, ← add_assoc, add_comm _ ({t.page} : Multiset ℕ)]
    rwa [Table.pages_eq] at h
  rw [Table.freewalk]
  refine (freewalk_entries Ok hentry t hok slots hown).seq fun _ s1 h1 => ?_
  exact (kfree_spec h1.1).mono fun _ _ h2 => ⟨h2.1, h1.2.right.trans h2.2⟩

end Freewalk

theorem Table.view_eq_leafs (pt : PageTable) (i j k : Fin 512) :
    pt.view i j k = pt.leafs (i * 512 ^ 2 + j * 512 + k) := by
  have hlt : (i * 512 ^ 2 + j * 512 + k : ℕ) < 2 ^ 27 := by omega
  have hpx : ∀ (level : ℕ) (m : Fin 512),
      ((i * 512 ^ 2 + j * 512 + k : ℕ) / 512 ^ level) % 512 = m →
      px level ((i * 512 ^ 2 + j * 512 + k : ℕ) * PGSIZE) = m := by
    intro level m hm
    refine Fin.ext ?_
    change (i * 512 ^ 2 + j * 512 + k : ℕ) * PGSIZE / (PGSIZE * 512 ^ level) % 512 = m
    rwa [← Nat.div_div_eq_div_mul, mul_div_pgsize]
  rw [Table.leafs, if_pos hlt, Table.leaf_eq_view, hpx 2 i (by omega), hpx 1 j (by omega),
    hpx 0 k (by omega)]

/-- **`freewalk`** of a page table that maps nothing gives back the page-table pages. -/
theorem freewalk_spec (hnone : ∀ v, pt.leafs v = none) (h : Owned ly s (pt.tables + R)) :
    Wp (freewalk ly pt) s (fun _ s' => Owned ly s' R ∧ Frame R s s') E := by
  have hview : ∀ i j k, pt.view i j k = none := fun i j k => by rw [pt.view_eq_leafs, hnone]
  unfold freewalk
  -- No leaf is met, so it does not matter what `freewalk` would do with one.
  generalize (fun l : Leaf => if l.perm.r ∨ l.perm.w ∨ l.perm.x then
    (throw (.panic "freewalk: leaf") : VmM Unit) else throw .null) = leaf
  have h₀ : ∀ (t0 : Table Leaf) s R, (∀ k l, t0.pte k = some l → False) →
      Owned ly s (t0.pages (fun _ => 0) + R) →
      Wp (t0.freewalk ly leaf) s (fun _ s' => Owned ly s' R ∧ Frame R s s') E := by
    intro t0 s R hok hown
    exact Table.freewalk_spec (fun _ => False) (fun _ _ _ hf _ => hf.elim) t0 hok hown
  have h₁ : ∀ (t1 : Table (Table Leaf)) s R,
      (∀ j t0, t1.pte j = some t0 → ∀ k l, t0.pte k = some l → False) →
      Owned ly s (t1.pages (Table.pages fun _ => 0) + R) →
      Wp (t1.freewalk ly (Table.freewalk ly leaf)) s
        (fun _ s' => Owned ly s' R ∧ Frame R s s') E := by
    intro t1 s R hok hown
    exact Table.freewalk_spec _ h₀ t1 hok hown
  refine Table.freewalk_spec _ h₁ pt (fun i t1 h2 j t0 h1 k l h0 => ?_) h
  have := hview i j k
  simp [Table.view, Table.look, h2, h1, h0] at this

/-- **`uvmfree`** gives back the user pages and the page-table pages. -/
theorem uvmfree_spec {sz : ℕ} (hsz : sz ≤ TRAPFRAME)
    (hfits : ∀ v, pt.leafs v ≠ none → v < npages sz) (h : Holds ly s pt R) :
    Wp (uvmfree ly pt sz) s (fun _ s' => Owned ly s' R ∧ Frame R s s') E := by
  have hmax := trapframe_le
  have hunmap : Wp (if sz > 0 then uvmunmap ly pt 0 (pgroundup sz / PGSIZE) true else pure pt) s
      (fun pt' s' => Holds ly s' pt' R ∧ (∀ v, pt'.leafs v = none) ∧ Frame R s s') E := by
    split
    · rw [pgroundup_div (by omega), ← Nat.zero_mul PGSIZE]
      have hle : npages sz ≤ USERPAGES := npages_le_iff.mpr (by rw [userpages_mul]; exact hsz)
      refine (uvmunmap_spec (by omega) h).mono fun pt' s' h' => ?_
      obtain ⟨hold', hleafs, -, hframe⟩ := h'
      refine ⟨hold', fun v => ?_, hframe.right⟩
      rw [hleafs, unmapped]
      split
      · rfl
      · next hv =>
        by_contra hne
        exact hv ⟨Nat.zero_le _, by have := hfits v hne; omega⟩
    next h0 =>
    have hsz0 : sz = 0 := by omega
    have hpages : npages 0 = 0 := rfl
    refine ⟨h, fun v => ?_, .refl _ _⟩
    by_contra hne
    have := hfits v hne
    rw [hsz0, hpages] at this
    omega
  have hseq : uvmfree ly pt sz = ((if sz > 0 then uvmunmap ly pt 0 (pgroundup sz / PGSIZE) true
      else pure pt) >>= freewalk ly) := by
    unfold uvmfree
    split <;> rfl
  rw [hseq]
  refine hunmap.seq ?_
  rintro pt' s1 ⟨hold1, hnone, hframe1⟩
  rw [Holds, leafPages_none fun v _ => hnone v, zero_add] at hold1
  exact (freewalk_spec hnone hold1).mono fun _ _ h2 => ⟨h2.1, hframe1.trans h2.2⟩

end Xv6.Vm

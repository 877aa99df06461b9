import Xv6.Vm.Space

/-!
# sbrk

`sys_sbrk` grows a process at once, grows it lazily, or shrinks it.

## Main results

* `sbrk_resizes`: `sys_sbrk` in both modes, wherever `kalloc` fails
-/

namespace Xv6.Vm

open Hoare

variable {ly : Layout} {s s' : Mem} {p q : Space} {R : Multiset ℕ} {E : Halt → Prop}

/-- The size, the mappings and the content of the pages are as before. -/
structure Space.Same (s s' : Mem) (p q : Space) : Prop where
  size : q.sz = p.sz
  leafs : q.pagetable.leafs = p.pagetable.leafs
  data : ∀ v < USERPAGES, ∀ l, p.pagetable.leafs v = some l → s'.data l.pa = s.data l.pa

structure Space.Resized (s s' : Mem) (p q : Space) : Prop where
  /-- The pages below both sizes keep their mapping and content. -/
  keep : ∀ v < min (npages p.sz) (npages q.sz), q.pagetable.leafs v = p.pagetable.leafs v ∧
    ∀ l, p.pagetable.leafs v = some l → s'.data l.pa = s.data l.pa
  /-- The pages past the new size are not mapped, and what was mapped there is free. -/
  gone : ∀ v, npages q.sz ≤ v → v < USERPAGES → q.pagetable.leafs v = none ∧
    ∀ l, p.pagetable.leafs v = some l → l.pa ∈ s'.free
  /-- The trapframe and the trampoline stay. -/
  high : ∀ v, USERPAGES ≤ v → q.pagetable.leafs v = p.pagetable.leafs v

def Space.Grown (s' : Mem) (p q : Space) : Prop :=
  ∀ v, npages p.sz ≤ v → v < npages q.sz → ∃ l, q.pagetable.leafs v = some l ∧
    l.perm = lazyPerm ∧ (s'.data l.pa = fun _ => 0) ∧
    ∀ w < USERPAGES, ∀ l', q.pagetable.leafs w = some l' → l'.pa = l.pa → w = v

theorem npages_le_userpages {sz : ℕ} (h : sz ≤ TRAPFRAME) : npages sz ≤ USERPAGES :=
  npages_le_iff.mpr (by rw [userpages_mul]; exact h)

theorem Frame.same (h : Frame (leafPages p.pagetable.leafs + R) s s') (hsize : q.sz = p.sz)
    (hleafs : q.pagetable.leafs = p.pagetable.leafs) : p.Same s s' q :=
  ⟨hsize, hleafs, fun _ hv _ hl => h.left.data _ (mem_leafPages hv hl)⟩

theorem Space.Fits.of_leafs (h : p.Fits ly s R) (hold : Holds ly s' q.pagetable R)
    (hsize : q.sz ≤ TRAPFRAME) (hle : npages p.sz ≤ npages q.sz)
    (hleafs : q.pagetable.leafs = p.pagetable.leafs) : q.Fits ly s' R where
  holds := hold
  size := hsize
  high v l hv hl := h.high v l hv (by rw [← hleafs, hl])
  fits v hv hlt := by
    rw [hleafs]
    exact h.fits v (hle.trans hv) hlt

/-! ## Growing -/

variable (h : p.Fits ly s R)

include h

theorem Space.Fits.grow_lazy {sz : ℕ} (hle : p.sz ≤ sz) (hsz : sz ≤ TRAPFRAME) :
    (⟨sz, p.pagetable⟩ : Space).Fits ly s R ∧ p.Resized s s ⟨sz, p.pagetable⟩ := by
  have hpages := npages_mono hle
  refine ⟨h.of_leafs h.holds hsz hpages rfl, fun v _ => ⟨rfl, fun _ _ => rfl⟩, fun v hv hlt => ?_,
    fun _ _ => rfl⟩
  have hnone := h.fits v (hpages.trans hv) hlt
  refine ⟨hnone, fun l hl => ?_⟩
  rw [hnone] at hl
  cases hl

theorem Extended.resized (hold : Holds ly s' q.pagetable R)
    (hle : p.sz ≤ q.sz) (hsz : q.sz ≤ TRAPFRAME)
    (hframe : Frame (leafPages p.pagetable.leafs + R) s s')
    (hext : Extended p.pagetable.leafs q.pagetable.leafs (npages p.sz) (npages q.sz) lazyPerm s') :
    q.Fits ly s' R ∧ p.Resized s s' q ∧ p.Grown s' q := by
  have hpages := npages_mono hle
  have hmax := npages_le_userpages hsz
  refine ⟨⟨⟨hold, hsz, fun v l hv hl => ?_⟩, fun v hv hlt => ?_⟩,
    ⟨fun v hv => ⟨hext.same v (by omega), fun l hl => ?_⟩, fun v hv hlt => ?_,
      fun v hv => hext.same v (by omega)⟩, fun v hlo hhi => ?_⟩
  · exact h.high v l hv (by rw [← hext.same v (by omega), hl])
  · rw [hext.same v (by omega)]
    exact h.fits v (by omega) hlt
  · exact hframe.left.data _ (mem_leafPages (by omega) hl)
  · have hnone := h.fits v (by omega) hlt
    refine ⟨by rw [hext.same v (by omega), hnone], fun l hl => ?_⟩
    rw [hnone] at hl
    cases hl
  · obtain ⟨l, hl, hperm, hzero⟩ := hext.new v hlo hhi
    refine ⟨l, hl, hperm, hzero, fun w hw l' hl' hpa => ?_⟩
    exact eq_of_leafPages_nodup hold.pages_nodup hw (by omega) hl' hl hpa

omit h

/-! ## Shrinking -/

theorem Space.Fits.shrink (h : p.Fits ly s R) (hold : Holds ly s' q.pagetable R)
    (hle : q.sz ≤ p.sz) (htables : q.pagetable.tables = p.pagetable.tables)
    (hleafs : q.pagetable.leafs = unmapped p.pagetable.leafs (npages q.sz) (npages p.sz))
    (hframe : Frame (leafPages q.pagetable.leafs + R) s s') :
    q.Fits ly s' R ∧ p.Resized s s' q := by
  have hpages := npages_mono hle
  have hmax := npages_le_userpages h.size
  have hsame : ∀ v, ¬ (npages q.sz ≤ v ∧ v < npages p.sz) →
      q.pagetable.leafs v = p.pagetable.leafs v := by
    intro v hv
    rw [hleafs, unmapped, if_neg hv]
  have hnone : ∀ v, npages q.sz ≤ v → v < USERPAGES → q.pagetable.leafs v = none := by
    intro v hv hlt
    by_cases hin : v < npages p.sz
    · rw [hleafs, unmapped, if_pos ⟨hv, hin⟩]
    · rw [hsame v (by omega)]
      exact h.fits v (by omega) hlt
  refine ⟨⟨⟨hold, hle.trans h.size, fun v l hv hl => ?_⟩, hnone⟩,
    ⟨fun v hv => ⟨hsame v (by omega), fun l hl => ?_⟩, fun v hv hlt => ⟨hnone v hv hlt, ?_⟩,
      fun v hv => hsame v (by omega)⟩⟩
  · exact h.high v l hv (by rw [← hsame v (by omega), hl])
  · rw [← hsame v (by omega)] at hl
    exact hframe.left.data _ (mem_leafPages (by omega) hl)
  -- The page is free or still mapped, and it cannot be mapped at another address.
  intro l hl
  have hfree : (s.free : Multiset ℕ) + leafPages p.pagetable.leafs =
      s'.free + leafPages q.pagetable.leafs := by
    have hbefore := h.holds
    unfold Holds Owned at hbefore hold
    rw [htables] at hold
    rw [← hold] at hbefore
    refine add_right_cancel (b := p.pagetable.tables + R) ?_
    calc (s.free : Multiset ℕ) + leafPages p.pagetable.leafs + (p.pagetable.tables + R)
        = s.free + (p.pagetable.tables + (leafPages p.pagetable.leafs + R)) := by abel
      _ = s'.free + (p.pagetable.tables + (leafPages q.pagetable.leafs + R)) := hbefore
      _ = s'.free + leafPages q.pagetable.leafs + (p.pagetable.tables + R) := by abel
  have hmem : l.pa ∈ (s'.free : Multiset ℕ) + leafPages q.pagetable.leafs := by
    rw [← hfree]
    exact Multiset.mem_add.mpr (.inr (mem_leafPages hlt hl))
  rcases Multiset.mem_add.mp hmem with hin | hin
  · exact Multiset.mem_coe.mp hin
  obtain ⟨w, hw, l', hl', hpa⟩ := exists_of_mem_leafPages hin
  have hlw : w < npages q.sz := by
    by_contra hge
    rw [hnone w (by omega) hw] at hl'
    cases hl'
  rw [hsame w (by omega)] at hl'
  have := eq_of_leafPages_nodup h.holds.pages_nodup hw hlt hl' hl hpa
  omega

/-! ## The system call -/

variable {n : ℤ}

theorem addInt_eq {sz : ℕ} (hsz : sz ≤ TRAPFRAME) (hn : n < 2 ^ 31) (h0 : 0 ≤ sz + n) :
    (addInt sz n : ℤ) = sz + n := by
  have hmax : TRAPFRAME < 2 ^ 38 := by decide
  unfold addInt
  rw [Int.emod_eq_of_lt h0 (by omega)]
  omega

theorem addInt_of_neg {sz : ℕ} (hsz : sz ≤ TRAPFRAME) (hn : -2 ^ 31 ≤ n)
    (h0 : sz + n < 0) : sz ≤ addInt sz n := by
  have hmax : TRAPFRAME < 2 ^ 38 := by decide
  unfold addInt
  have hmod : ((sz : ℤ) + n) % 2 ^ 64 = sz + n + 2 ^ 64 := by omega
  rw [hmod]
  omega

def Space.Sbrk (n : ℤ) (eager : Bool) (s s' : Mem) (p q : Space) : Prop :=
  (p.sz + n < 0 → q = p ∧ s' = s) ∧
  (0 ≤ p.sz + n → (q.sz : ℤ) = p.sz + n ∧ p.Resized s s' q ∧ (eager = true → p.Grown s' q))

include h

theorem sysSbrk_grow (h0 : 0 < n) (hn : n < 2 ^ 31) :
    Wp (sysSbrk ly p n true) s (fun r s' => r.1.Fits ly s' R ∧ Frame R s s' ∧
      match r.2 with
      | none => p.Same s s' r.1 ∧ (TRAPFRAME < p.sz + n ∨ s'.denied = true)
      | some old => old = p.sz ∧ p.sz + n ≤ TRAPFRAME ∧ p.Sbrk n true s s' r.1) E := by
  have hsum := addInt_eq h.size hn (by omega)
  unfold sysSbrk growproc
  rw [if_pos (.inl rfl), if_pos h0]
  split
  · next hbig => exact ⟨h, .refl _ _, ⟨rfl, rfl, fun _ _ _ _ => rfl⟩, .inl (by omega)⟩
  next hfit =>
  rw [wp_bind]
  refine (uvmalloc_spec h.size h.fits (.inl (Nat.le_of_not_lt hfit)) h.holds).seq ?_
  rintro r s1 ⟨hold, hframe, hres⟩
  rcases hres with ⟨hlt, -⟩ | ⟨hle, hr, hext⟩ | ⟨-, hr, hleafs, hden⟩
  · omega
  · rw [hr, if_neg (by omega)]
    obtain ⟨hfits, hres, hgrown⟩ :=
      Extended.resized (q := ⟨addInt p.sz n, r.1⟩) h hold hle (Nat.le_of_not_lt hfit) hframe hext
    exact ⟨hfits, hframe.right, rfl, by omega, fun hneg => by omega,
      fun _ => ⟨hsum, hres, fun _ => hgrown⟩⟩
  · rw [hr, if_pos rfl]
    exact ⟨h.of_leafs hold h.size le_rfl hleafs, hframe.right, hframe.same rfl hleafs, .inr hden⟩

theorem sysSbrk_shrink (h0 : n < 0) (hn : -2 ^ 31 ≤ n) (eager : Bool) :
    Wp (sysSbrk ly p n eager) s (fun r s' => r.1.Fits ly s' R ∧ Frame R s s' ∧
      r.2 = some p.sz ∧ p.Sbrk n eager s s' r.1) E := by
  have hmax : TRAPFRAME < 2 ^ 38 := by decide
  unfold sysSbrk growproc
  rw [if_pos (.inr h0), if_neg (by omega), if_pos h0, wp_bind]
  by_cases hneg : (p.sz : ℤ) + n < 0
  · have hge := addInt_of_neg h.size hn hneg
    rw [uvmdealloc, if_pos hge]
    exact ⟨h, .refl _ _, rfl, fun _ => ⟨rfl, rfl⟩, fun hpos => by omega⟩
  have hsum := addInt_eq h.size (by omega) (not_lt.mp hneg)
  refine (uvmdealloc_spec h.size h.holds).seq ?_
  rintro r s1 ⟨hold, hleafs, hr, htables, hframe⟩
  have hsize : r.2 = addInt p.sz n := by rw [hr, min_eq_right (by omega)]
  rw [← hsize] at hleafs
  obtain ⟨hfits, hres⟩ := Space.Fits.shrink (q := ⟨r.2, r.1⟩) h hold
    (by have : (⟨r.2, r.1⟩ : Space).sz = r.2 := rfl; omega) htables hleafs hframe
  refine ⟨hfits, hframe.right, rfl, fun hneg' => absurd hneg' hneg, fun _ => ⟨?_, hres, ?_⟩⟩
  · rw [← hsum, ← hsize]
  -- There is no page between the sizes.
  intro _ v hlo hhi
  have hpages : npages r.2 ≤ npages p.sz := npages_mono (by omega)
  have : v < npages r.2 := hhi
  omega

theorem sysSbrk_lazy (h0 : 0 ≤ n) (hn : n < 2 ^ 31) :
    Wp (sysSbrk ly p n false) s (fun r s' => r.1.Fits ly s' R ∧ Frame R s s' ∧
      match r.2 with
      | none => p.Same s s' r.1 ∧ (TRAPFRAME < p.sz + n ∨ s'.denied = true)
      | some old => old = p.sz ∧ p.sz + n ≤ TRAPFRAME ∧ p.Sbrk n false s s' r.1) E := by
  have hsum := addInt_eq h.size hn (by omega)
  have hwrap : ¬ addInt p.sz n < p.sz := by omega
  unfold sysSbrk
  rw [if_neg (by simp; omega), if_neg hwrap]
  split
  · next hbig => exact ⟨h, .refl _ _, ⟨rfl, rfl, fun _ _ _ _ => rfl⟩, .inl (by omega)⟩
  next hfit =>
  obtain ⟨hfits, hres⟩ := h.grow_lazy (Nat.le_of_not_lt hwrap) (Nat.le_of_not_lt hfit)
  refine ⟨hfits, .refl _ _, rfl, by omega, fun hneg => by omega, fun _ => ⟨hsum, hres, ?_⟩⟩
  intro hfalse
  cases hfalse

theorem sysSbrk_zero : Wp (sysSbrk ly p 0 true) s (fun r s' => r.1.Fits ly s' R ∧ Frame R s s' ∧
      r.2 = some p.sz ∧ p.Sbrk 0 true s s' r.1) E := by
  unfold sysSbrk growproc
  rw [if_pos (.inl rfl), if_neg (by omega), if_neg (by omega)]
  obtain ⟨-, hres⟩ := h.grow_lazy le_rfl h.size
  refine ⟨h, .refl _ _, rfl, fun hneg => by omega, fun _ => ⟨by simp, hres, fun _ v hlo hhi => ?_⟩⟩
  exact absurd hhi (Nat.not_lt.mpr hlo)

theorem sysSbrk_spec (hn : -2 ^ 31 ≤ n ∧ n < 2 ^ 31) (eager : Bool) :
    Wp (sysSbrk ly p n eager) s (fun r s' => r.1.Fits ly s' R ∧ Frame R s s' ∧
      match r.2 with
      | none => p.Same s s' r.1 ∧ (TRAPFRAME < p.sz + n ∨ s'.denied = true)
      | some old => old = p.sz ∧ p.sz + n ≤ TRAPFRAME ∧ p.Sbrk n eager s s' r.1) E := by
  have hsize := h.size
  rcases lt_trichotomy n 0 with hneg | rfl | hpos
  · refine (sysSbrk_shrink h hneg hn.1 eager).mono ?_
    rintro r s1 ⟨hfits, hframe, hr, hres⟩
    rw [hr]
    exact ⟨hfits, hframe, rfl, by omega, hres⟩
  · cases eager
    · exact sysSbrk_lazy h le_rfl hn.2
    refine (sysSbrk_zero h).mono ?_
    rintro r s1 ⟨hfits, hframe, hr, hres⟩
    rw [hr]
    exact ⟨hfits, hframe, rfl, by omega, hres⟩
  · cases eager
    · exact sysSbrk_lazy h hpos.le hn.2
    · exact sysSbrk_grow h hpos hn.2

omit h

/-- **`sbrk`**, whatever the process, the argument and the mode, and wherever `kalloc` fails. The
call returns. -/
theorem sbrk_resizes (h : p.Fits ly s R) (n : ℤ) (hn : -2 ^ 31 ≤ n ∧ n < 2 ^ 31) (eager : Bool) :
    ∃ r q s', sysSbrk ly p n eager s = .ok ((q, r), s') ∧ q.Fits ly s' R ∧ Frame R s s' ∧
      (r = none → p.Same s s' q ∧ (TRAPFRAME < p.sz + n ∨ s'.denied = true)) ∧
      (∀ old, r = some old → old = p.sz ∧ p.Sbrk n eager s s' q) ∧
      (TRAPFRAME < p.sz + n → r = none) := by
  obtain ⟨⟨q, r⟩, s', hrun, hfits, hframe, hres⟩ :=
    (sysSbrk_spec h hn eager).exists_ok
  refine ⟨r, q, s', hrun, hfits, hframe, ?_, ?_, ?_⟩
  · rintro rfl
    exact hres
  · rintro old rfl
    exact ⟨hres.1, hres.2.2⟩
  intro hbig
  rcases r with _ | old
  · rfl
  · exact absurd hres.2.1 (by omega)

/-- A process of one and a half pages that grows by a page, with four pages in memory. -/
theorem sbrk_resizes_page :
    ∃ q s', sysSbrk ⟨0, 4, 9, [0, 1, 2, 3], by decide, by decide⟩ ⟨6000, .empty 0⟩ 4096 true
        ⟨[1, 2, 3], fun _ _ => 0, [], false⟩ = .ok ((q, some 6000), s') := by
  have hfits : Space.Fits ⟨0, 4, 9, [0, 1, 2, 3], by decide, by decide⟩
      ⟨[1, 2, 3], fun _ _ => 0, [], false⟩ ⟨6000, .empty 0⟩ 0 := .empty rfl (by decide)
  obtain ⟨r, q, s', hrun, -, -, -, hold, -⟩ := sbrk_resizes hfits 4096 (by decide) true
  have hsome : (sysSbrk ⟨0, 4, 9, [0, 1, 2, 3], by decide, by decide⟩ ⟨6000, .empty 0⟩ 4096 true
      ⟨[1, 2, 3], fun _ _ => 0, [], false⟩).toOption.map (·.1.2.isSome) = some true := by
    decide +kernel
  rw [hrun] at hsome
  obtain ⟨old, rfl⟩ := Option.isSome_iff_exists.mp (Option.some.inj hsome)
  rw [(hold old rfl).1] at hrun
  exact ⟨q, s', hrun⟩

end Xv6.Vm

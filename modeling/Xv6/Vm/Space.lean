import Xv6.Vm.Grow

/-!
# The memory a process sees

A process owns its page-table pages and the pages mapped below `TRAPFRAME`; `Wf` says so, next to
the bound on its size.
-/

namespace Xv6.Vm

open Hoare Space Option

/-- A process whose user pages are its own; `R` are the pages of everything else. -/
structure Space.Wf (ly : Layout) (s : Mem) (p : Space) (R : Multiset ℕ) : Prop where
  holds : Holds ly s p.pagetable R
  size : p.sz ≤ TRAPFRAME
  high : ∀ v l, USERPAGES ≤ v → p.pagetable.leafs v = some l → l.perm.u = false

/-- A process that has no user page mapped past its size. -/
structure Space.Fits (ly : Layout) (s : Mem) (p : Space) (R : Multiset ℕ) : Prop extends
    Space.Wf ly s p R where
  fits : ∀ v, npages p.sz ≤ v → v < USERPAGES → p.pagetable.leafs v = none

/-- What the page of address `a` allows: a mapped page what `f` says of its permissions, a page that
is not mapped anything below the size. -/
def Space.can (f : Perm → Bool) (p : Space) (a : ℕ) : Prop :=
  match p.pagetable.leafs (a / PGSIZE) with
  | some l => f l.perm = true
  | none => pgrounddown a < p.sz

def Space.Readable : Space → ℕ → Prop := Space.can Perm.u

def Space.Writable : Space → ℕ → Prop := Space.can fun perm => perm.u && perm.w

/-- The byte at address `a`, if the process may read it. -/
def Space.view (p : Space) (s : Mem) (a : ℕ) : Option UInt8 :=
  match p.pagetable.leafs (a / PGSIZE) with
  | some l => if l.perm.u then some (s.data l.pa (a % PGSIZE)) else none
  | none => if pgrounddown a < p.sz then some 0 else none

def lazyPerm : Perm := ⟨true, true, false, true⟩

/-- The space after pages were allocated on demand: the old mappings are there, and every new one is
a promised page. -/
structure Space.Lazy (p q : Space) : Prop where
  size : q.sz = p.sz
  old : ∀ v l, p.pagetable.leafs v = some l → q.pagetable.leafs v = some l
  new : ∀ v l, p.pagetable.leafs v = none → q.pagetable.leafs v = some l →
    l.perm = lazyPerm ∧ v * PGSIZE < p.sz

variable {ly : Layout} {s s' : Mem} {p q : Space} {R : Multiset ℕ} {E : Halt → Prop} {a : ℕ}

theorem pgrounddown_eq (a : ℕ) : pgrounddown a = a / PGSIZE * PGSIZE := rfl

theorem Space.Lazy.refl (p : Space) : p.Lazy p where
  size := rfl
  old _ _ h := h
  new v l hnone hsome := by
    rw [hnone] at hsome
    cases hsome

theorem Space.Lazy.trans {r : Space} (h : p.Lazy q) (h' : q.Lazy r) : p.Lazy r where
  size := h'.size.trans h.size
  old v l hl := h'.old v l (h.old v l hl)
  new v l hnone hl := by
    rcases hq : q.pagetable.leafs v with _ | l1
    · obtain ⟨hperm, hlt⟩ := h'.new v l hq hl
      exact ⟨hperm, h.size ▸ hlt⟩
    have heq := h'.old v l1 hq
    rw [hl] at heq
    cases heq
    exact h.new v l hnone hq

theorem Space.Lazy.can_iff {f : Perm → Bool} (hf : f lazyPerm = true) (h : p.Lazy q) :
    q.can f a ↔ p.can f a := by
  unfold can
  rcases hp : p.pagetable.leafs (a / PGSIZE) with _ | l
  · rcases hq : q.pagetable.leafs (a / PGSIZE) with _ | l
    · simp [h.size]
    · obtain ⟨hperm, hlt⟩ := h.new _ _ hp hq
      simpa [hperm, hf, pgrounddown_eq] using hlt
  · simp [h.old _ _ hp]

theorem Space.view_isSome : (p.view s a).isSome ↔ p.Readable a := by
  unfold view Readable can
  split <;> simp

theorem Space.view_of_leaf {l : Leaf} (hl : p.pagetable.leafs (a / PGSIZE) = some l)
    (hu : l.perm.u = true) : p.view s a = some (s.data l.pa (a % PGSIZE)) := by simp [view, hl, hu]

theorem Space.Writable.readable (h : p.Writable a) : p.Readable a := by
  unfold Writable can at h
  unfold Readable can
  split
  · next l hl =>
    rw [hl] at h
    simp only [Bool.and_eq_true] at h
    exact h.1
  · next hl =>
    rw [hl] at h
    exact h

theorem Space.Fits.empty {page sz : ℕ} (h : ly.pages = page :: s.free) (hsz : sz ≤ TRAPFRAME) :
    (⟨sz, .empty page⟩ : Space).Fits ly s 0 := by
  have hnone : ∀ v, (Table.empty page : PageTable).leafs v = none := by
    intro v
    rw [Table.leafs_empty]
  refine ⟨⟨?_, hsz, fun v l _ hl => ?_⟩, fun v _ _ => hnone v⟩
  · unfold Holds Owned
    rw [leafPages_none fun v _ => hnone v, Table.tables, Table.pages_empty, h, zero_add, add_zero,
      add_comm, Multiset.singleton_add, Multiset.cons_coe]
  · rw [show (⟨sz, .empty page⟩ : Space).pagetable.leafs v = none from hnone v] at hl
    cases hl

theorem Space.Wf.lt_userpages (h : p.Wf ly s R) (ha : p.Readable a) : a / PGSIZE < USERPAGES := by
  have hmul := userpages_mul
  have hsize := h.size
  unfold Readable can at ha
  by_contra hle
  rcases hl : p.pagetable.leafs (a / PGSIZE) with _ | l
  · rw [hl] at ha
    dsimp only at ha
    have : USERPAGES * PGSIZE ≤ a / PGSIZE * PGSIZE := Nat.mul_le_mul_right _ (by omega)
    rw [pgrounddown_eq] at ha
    omega
  rw [hl] at ha
  dsimp only at ha
  rw [h.high _ l (by omega) hl] at ha
  cases ha

theorem Space.Wf.view_eq (h : p.Wf ly s R) (hq : q.sz = p.sz)
    (hleaf : q.pagetable.leafs (a / PGSIZE) = p.pagetable.leafs (a / PGSIZE))
    (hframe : Frame (leafPages p.pagetable.leafs + R) s s') : q.view s' a = p.view s a := by
  unfold view
  rw [hleaf, hq]
  rcases hl : p.pagetable.leafs (a / PGSIZE) with _ | l
  · rfl
  dsimp only
  split
  · next hu =>
    have hlt : a / PGSIZE < USERPAGES := by
      by_contra hle
      rw [h.high _ l (by omega) hl] at hu
      cases hu
    rw [hframe.left.data l.pa (mem_leafPages hlt hl)]
  · rfl

/-! ## Allocation on demand -/

/-- **`vmfault`** of the process: the page is mapped and the view is the same, or the page was not a
promised one, or memory has run out. -/
theorem vmfault_spec (h : p.Wf ly s R) (hnot : ∀ l, p.pagetable.leafs (a / PGSIZE) = some l →
      l.perm.u = false) :
    Wp (vmfault ly none p (pgrounddown a)) s (fun r s' => r.1.Wf ly s' R ∧ p.Lazy r.1 ∧
      r.1.view s' = p.view s ∧ Frame (leafPages p.pagetable.leafs + R) s s' ∧
      match r.2 with
      | some pa => r.1.pagetable.leafs (a / PGSIZE) = some ⟨pa, lazyPerm⟩ ∧ p.Writable a
      | none => ¬ p.Readable a ∨
          p.pagetable.leafs (a / PGSIZE) = none ∧ s'.denied = true) E := by
  have hmul := userpages_mul
  have hsize := h.size
  have hstay : p.Wf ly s R ∧ p.Lazy p ∧ p.view s = p.view s ∧
      Frame (leafPages p.pagetable.leafs + R) s s := ⟨h, .refl p, rfl, .refl _ _⟩
  unfold vmfault
  split
  · next hge =>
    refine ⟨hstay.1, hstay.2.1, hstay.2.2.1, hstay.2.2.2, .inl fun hr => ?_⟩
    unfold Readable can at hr
    split at hr
    · next l hl =>
      rw [hnot l hl] at hr
      cases hr
    · omega
  next hlt =>
  have hround : pgrounddown (pgrounddown a) = a / PGSIZE * PGSIZE := by
    rw [pgrounddown_eq, pgrounddown_eq, mul_div_pgsize]
  have hv : a / PGSIZE < USERPAGES := by
    by_contra hle
    have : USERPAGES * PGSIZE ≤ a / PGSIZE * PGSIZE := Nat.mul_le_mul_right _ (by omega)
    rw [pgrounddown_eq] at hlt
    omega
  have hva := mul_lt_maxva hv
  have hleaf := p.pagetable.leaf_eq_leafs hva
  rw [mul_div_pgsize] at hleaf
  have hmapped : Wp (ismapped (getD none p.pagetable) (pgrounddown (pgrounddown a))) s
      (fun b s' => s' = s ∧ b = (p.pagetable.leafs (a / PGSIZE)).isSome) E := by
    rw [hround, getD_none, ismapped, walk, if_neg (by omega), wp_bind, wp_pure, ← hleaf]
    rcases hf : p.pagetable.find (a / PGSIZE * PGSIZE) with _ | _ | l <;>
      exact ⟨rfl, by rw [Table.leaf, hf]; rfl⟩
  refine hmapped.seq ?_
  rintro mapped s1 ⟨rfl, rfl⟩
  rcases hl : p.pagetable.leafs (a / PGSIZE) with _ | l
  · rw [isSome_none, if_neg (by simp), hround]
    refine (mapFilled_spec hv hl (b := fun _ => 0) (fun _ _ => rfl) h.holds).seq ?_
    rintro r s2 ⟨hold, hframe, hres⟩
    rcases hr : r.2 with _ | pa
    · rw [hr] at hres
      obtain ⟨hleafs, hden⟩ := hres
      refine ⟨⟨hold, h.size, ?_⟩, ⟨rfl, ?_, ?_⟩, ?_, hframe, .inr ⟨rfl, hden⟩⟩
      · intro v l hle hvl
        exact h.high v l hle (hleafs ▸ hvl)
      · intro v l hvl
        exact hleafs.symm ▸ hvl
      · intro v l hnone hvl
        rw [hleafs, hnone] at hvl
        cases hvl
      · funext b
        exact h.view_eq rfl (congrFun hleafs _) hframe
    rw [hr] at hres
    obtain ⟨hleafs, hzero⟩ := hres
    have hother : ∀ v, v ≠ a / PGSIZE → r.1.leafs v = p.pagetable.leafs v := by
      intro v hne
      rw [hleafs, Function.update_of_ne hne]
    have hself : r.1.leafs (a / PGSIZE) = some ⟨pa, lazyPerm⟩ := by
      rw [hleafs, Function.update_self]
      rfl
    refine ⟨⟨hold, h.size, ?_⟩, ⟨rfl, ?_, ?_⟩, ?_, hframe, hself, ?_⟩
    · intro v l hle hvl
      exact h.high v l hle (hother v (by omega) ▸ hvl)
    · intro v l hvl
      by_cases hva : v = a / PGSIZE
      · rw [hva, hl] at hvl
        cases hvl
      · exact (hother v hva).trans hvl
    · intro v l hnone hvl
      by_cases hva : v = a / PGSIZE
      · subst hva
        rw [hself] at hvl
        cases hvl
        rw [pgrounddown_eq] at hlt
        exact ⟨rfl, by omega⟩
      · rw [hother v hva, hnone] at hvl
        cases hvl
    · funext b
      by_cases hb : b / PGSIZE = a / PGSIZE
      · have hbound : pgrounddown b < p.sz := by
          rw [pgrounddown_eq, hb, ← pgrounddown_eq]
          omega
        rw [view_of_leaf (l := ⟨pa, lazyPerm⟩) (by rw [hb]; exact hself) rfl, hzero]
        simp [view, hb, hl, hbound]
      · exact h.view_eq rfl (hother _ hb) hframe
    · unfold Writable can
      rw [hl]
      exact Nat.lt_of_not_le hlt
  rw [isSome_some, if_pos rfl]
  refine ⟨hstay.1, hstay.2.1, hstay.2.2.1, hstay.2.2.2, .inl fun hr => ?_⟩
  unfold Readable can at hr
  rw [hl] at hr
  dsimp only at hr
  rw [hnot l hl] at hr
  cases hr

/-- **How a user page is found**: it is mapped for the user and the view is the same, or the process
may not read it, or memory has run out. -/
theorem userPage_spec (h : p.Wf ly s R) :
    Wp (userPage ly none p (pgrounddown a)) s (fun r s' => r.1.Wf ly s' R ∧ p.Lazy r.1 ∧
      r.1.view s' = p.view s ∧ Frame (leafPages p.pagetable.leafs + R) s s' ∧
      match r.2 with
      | some pa => ∃ l, r.1.pagetable.leafs (a / PGSIZE) = some l ∧ l.pa = pa ∧ l.perm.u = true ∧
          p.Readable a ∧ (l.perm.w = true ↔ p.Writable a)
      | none => ¬ p.Readable a ∨
          p.pagetable.leafs (a / PGSIZE) = none ∧ s'.denied = true) E := by
  unfold userPage
  rw [getD_none]
  have hwalk : walkaddr p.pagetable (pgrounddown a) = if pgrounddown a ≥ MAXVA then none else
      (p.pagetable.leafs (a / PGSIZE)).bind fun l => if l.perm.u then some l.pa else none := by
    unfold walkaddr
    split
    · rfl
    · next hlt => rw [p.pagetable.leaf_eq_leafs (by omega), pgrounddown_eq, mul_div_pgsize]
  rcases hw : walkaddr p.pagetable (pgrounddown a) with _ | pa
  · dsimp only
    have hnot : ∀ l, p.pagetable.leafs (a / PGSIZE) = some l → l.perm.u = false := by
      intro l hl
      rw [hwalk, hl] at hw
      split at hw
      · next hge =>
        refine h.high _ l ?_ hl
        by_contra hlt
        have := mul_lt_maxva (v := a / PGSIZE) (by omega)
        rw [pgrounddown_eq] at hge
        omega
      · simpa using hw
    refine (vmfault_spec h hnot).mono ?_
    rintro r s1 ⟨hwf, hlazy, hview, hframe, hres⟩
    refine ⟨hwf, hlazy, hview, hframe, ?_⟩
    rcases hr : r.2 with _ | pa
    · rw [hr] at hres
      exact hres
    · rw [hr] at hres
      exact ⟨_, hres.1, rfl, rfl, hres.2.readable, by simp [lazyPerm, hres.2]⟩
  rw [hwalk] at hw
  split at hw
  · cases hw
  obtain ⟨l, hl, hif⟩ := bind_eq_some_iff.mp hw
  split at hif
  · next hu =>
    cases hif
    refine ⟨h, .refl p, rfl, .refl _ _, l, hl, rfl, hu, ?_, ?_⟩
    · simp [Readable, can, hl, hu]
    · simp [Writable, can, hl, hu]
  · cases hif

end Xv6.Vm

import Xv6.Foundations.Segment
import Xv6.Foundations.Transition
import Xv6.Vm.Sv39

/-!
# The free list in memory

In `kalloc.c` the list of the free pages is in the pages: the first word of a free page is the
address of the next one. Whatever the owners of the other pages write, and in whatever order
`kalloc` and `kfree` get `kmem.lock`, the list has the pages that nobody has (`kalloc_pages`).

## Main results

* `kalloc_pages`: no page is handed out twice
-/

namespace Xv6.Vm.Kalloc

open Segment Transition Function Multiset

/-- Memory by words, and `kmem.freelist`. -/
structure Kmem where
  word : ℕ → ℕ
  freelist : ℕ

/-- What `kalloc` does under `kmem.lock`, where it returns the old `freelist`. -/
def Kmem.pop (k : Kmem) : Kmem :=
  if k.freelist = 0 then k else { k with freelist := k.word k.freelist }

/-- What `kfree` does under `kmem.lock`. -/
def Kmem.push (k : Kmem) (pa : ℕ) : Kmem := ⟨update k.word pa k.freelist, pa⟩

-- the first address after the kernel, and `PHYSTOP`
variable (kend stop : ℕ)

/-- The test of `kfree`. -/
def Bad (pa : ℕ) : Prop := pa % PGSIZE ≠ 0 ∨ pa < kend ∨ stop ≤ pa

instance (pa : ℕ) : Decidable (Bad kend stop pa) := inferInstanceAs (Decidable (_ ∨ _ ∨ _))

/-- `none` is a panic. -/
def kfree (k : Kmem) (pa : ℕ) : Option Kmem :=
  if Bad kend stop pa then none
  else some ({ k with word := Sv39.fill k.word pa Sv39.JUNK_FREE }.push pa)

/-- The loop of `freerange`. -/
def freeLoop (k : Kmem) (p : ℕ) : Option Kmem :=
  if p + PGSIZE ≤ stop then (kfree kend stop k p).bind fun k => freeLoop k (p + PGSIZE)
  else some k
termination_by stop - p
decreasing_by
  simp only [PGSIZE] at *
  omega

def kinit (word : ℕ → ℕ) : Option Kmem := freeLoop kend stop ⟨word, 0⟩ (pgroundup kend)

/-- The pages that `kinit` frees. -/
def IsPage (p : ℕ) : Prop := p % PGSIZE = 0 ∧ kend ≤ p ∧ p + PGSIZE ≤ stop

/-- The memory, and the pages that `kalloc` has taken off the list and `kfree` has not put back. -/
structure State extends Kmem where
  out : Multiset ℕ

inductive Act
  | pop
  | push (pa : ℕ)
  /-- A write, by the owner of a page or by a `memset` of `kalloc` or `kfree`. -/
  | store (a v : ℕ)

def step (s : State) : Act → Option State
  | .pop => some { s.toKmem.pop with out := if s.freelist = 0 then s.out else s.freelist ::ₘ s.out }
  | .push pa => if Bad kend stop pa then none else some { s.push pa with out := s.out.erase pa }
  | .store a v => some { s with word := update s.word a v }

/-- Only a page that was allocated is freed, and nobody writes into a page that is not. -/
def Fair (s : State) : Act → Prop
  | .pop => True
  | .push pa => pa ∈ s.out
  | .store a _ => ∀ p, IsPage kend stop p → p ∉ s.out → ¬ (p ≤ a ∧ a < p + PGSIZE)

/-! ## The list -/

/-- The pages of `l` are linked in this order. -/
structure Linked (k : Kmem) (l : List ℕ) : Prop where
  seg : Seg k.word l 0
  head : k.freelist = l.headD 0

variable {kend stop} {k : Kmem} {l : List ℕ} {p : ℕ}

theorem Linked.push (h : Linked k l) (hp : p ∉ l) : Linked (k.push p) (p :: l) where
  seg := by
    refine ⟨by simp [Kmem.push, h.head], h.seg.congr fun x hx => ?_⟩
    exact update_of_ne (ne_of_mem_of_not_mem hx hp) ..
  head := rfl

theorem Linked.pop (h : Linked k (p :: l)) (hp : p ≠ 0) : k.freelist = p ∧ Linked k.pop l := by
  have hhead : k.freelist = p := h.head
  refine ⟨hhead, ?_⟩
  rw [Kmem.pop, hhead, if_neg hp]
  exact ⟨h.seg.2, h.seg.1⟩

theorem Linked.write {word : ℕ → ℕ} (h : Linked k l) (hw : ∀ x ∈ l, word x = k.word x) :
    Linked { k with word := word } l := ⟨h.seg.congr hw, h.head⟩

theorem freeLoop_spec (h : Linked k l) (hnodup : l.Nodup) (hp : p % PGSIZE = 0) (hle : kend ≤ p)
    (hl : ∀ x, x ∈ l ↔ IsPage kend stop x ∧ x < p) : ∃ k' l', freeLoop kend stop k p = some k' ∧
      Linked k' l' ∧ l'.Nodup ∧ ∀ x, x ∈ l' ↔ IsPage kend stop x := by
  induction hn : stop - p using Nat.strong_induction_on generalizing k l p with
  | _ n ih =>
    rw [freeLoop]
    split
    · next hroom =>
      have hpage : ∀ x, IsPage kend stop x ∧ x < p + PGSIZE ↔ x ∈ p :: l := by
        intro x
        rw [List.mem_cons, hl]
        simp only [IsPage, PGSIZE] at *
        omega
      have hnot : p ∉ l := fun hmem => by simp [hl] at hmem
      have hgood : ¬ Bad kend stop p := by
        simp only [Bad, PGSIZE] at *
        omega
      rw [kfree, if_neg hgood, Option.bind_some]
      refine ih _ ?_ (Linked.push (h.write fun x hx => ?_) hnot) (hnodup.cons hnot) ?_ ?_
        (fun x => (hpage x).symm) rfl
      · simp only [PGSIZE] at *
        omega
      · exact if_neg fun hin => absurd ((hl x).mp hx).2 (by omega)
      · simp only [PGSIZE] at *
        omega
      · omega
    next hfull =>
    refine ⟨k, l, rfl, h, hnodup, fun x => (hl x).trans ⟨And.left, fun hx => ⟨hx, ?_⟩⟩⟩
    have hstop := hx.2.2
    omega

/-- The pages of `l` are free, those of `l₀` are all pages. -/
structure Inv (s : State) (l l₀ : List ℕ) : Prop where
  linked : Linked s.toKmem l
  own : (l : Multiset ℕ) + s.out = l₀

variable {s s' : State} {l₀ : List ℕ} {a : Act}

theorem Inv.nodup (h : Inv s l l₀) (hnodup : l₀.Nodup) : ((l : Multiset ℕ) + s.out).Nodup := by
  rwa [h.own, coe_nodup]

theorem Inv.mem (h : Inv s l l₀) (hnodup : l₀.Nodup) (p : ℕ) : p ∈ l ↔ p ∈ l₀ ∧ p ∉ s.out := by
  have hmem : p ∈ l₀ ↔ p ∈ l ∨ p ∈ s.out := by rw [← mem_coe, ← h.own, mem_add, mem_coe]
  have hdisj := (nodup_add.mp (h.nodup hnodup)).2.2
  rw [hmem]
  refine ⟨fun hp => ⟨.inl hp, fun hout => ?_⟩, fun hp => hp.1.resolve_right hp.2⟩
  exact disjoint_left.mp hdisj (mem_coe.mpr hp) hout

theorem Inv.step (h : Inv s l l₀) (hnodup : l₀.Nodup) (hpos : 0 < kend)
    (hpages : ∀ p, p ∈ l₀ ↔ IsPage kend stop p) (hfair : Fair kend stop s a)
    (hs : step kend stop s a = some s') : ∃ l', Inv s' l' l₀ := by
  have hfree := h.mem hnodup
  cases a with
  | pop =>
    cases hs
    rcases l with _ | ⟨p, l⟩
    · have hzero : s.freelist = 0 := h.linked.head
      refine ⟨[], ?_, ?_⟩
      · simpa [Kmem.pop, hzero] using h.linked
      · simpa [hzero] using h.own
    have hp := (hpages p).mp ((hfree p).mp List.mem_cons_self).1
    have hne : p ≠ 0 := by
      have := hp.2.1
      omega
    obtain ⟨hhead, hl⟩ := h.linked.pop hne
    refine ⟨l, hl, ?_⟩
    simpa [hhead, hne, ← cons_coe] using h.own
  | push pa =>
    obtain ⟨-, hs⟩ := Option.ite_none_left_eq_some.mp hs
    cases hs
    have hnot : pa ∉ l := fun hmem => ((hfree pa).mp hmem).2 hfair
    refine ⟨pa :: l, h.linked.push hnot, ?_⟩
    rw [← h.own, ← cons_coe, cons_add, ← add_cons, cons_erase hfair]
  | store a v =>
    cases hs
    refine ⟨l, h.linked.write fun x hx => update_of_ne ?_ .., h.own⟩
    rintro rfl
    obtain ⟨hx, hout⟩ := (hfree x).mp hx
    exact hfair x ((hpages x).mp hx) hout ⟨le_rfl, Nat.lt_add_of_pos_right (by decide)⟩

/-- **The free list.** `kinit` succeeds, and from then on, in every order of critical sections of
`kalloc` and `kfree` and of writes into allocated pages: no page is handed out twice, `kfree` does
not panic, the list in memory has exactly the pages that are not handed out, so that `kalloc`
returns one of them, or 0 if there is none. -/
theorem kalloc_pages (hpos : 0 < kend) (hwrap : kend + PGSIZE ≤ 2 ^ 64) (word : ℕ → ℕ) :
    ∃ k, kinit kend stop word = some k ∧ ∀ s, Reach (step kend stop) (Fair kend stop) ⟨k, 0⟩ s →
        (s.out.Nodup ∧ ∀ p ∈ s.out, IsPage kend stop p ∧ ¬ Bad kend stop p) ∧
        (∃ l, Linked s.toKmem l ∧ l.Nodup ∧ ∀ p, p ∈ l ↔ IsPage kend stop p ∧ p ∉ s.out) ∧
        (s.freelist = 0 ↔ ∀ p, IsPage kend stop p → p ∈ s.out) ∧
        (s.freelist ≠ 0 → IsPage kend stop s.freelist ∧ s.freelist ∉ s.out) := by
  obtain ⟨k, l₀, hk, hlinked, hnodup, hpages⟩ : ∃ k l, kinit kend stop word = some k ∧
      Linked k l ∧ l.Nodup ∧ ∀ x, x ∈ l ↔ IsPage kend stop x := by
    refine freeLoop_spec (l := []) ⟨trivial, rfl⟩ List.nodup_nil ?_ ?_ fun x => ?_
    all_goals simp only [pgroundup, u64, IsPage, PGSIZE, List.not_mem_nil, false_iff] at *
    all_goals omega
  refine ⟨k, hk, fun s hreach => ?_⟩
  obtain ⟨l, h⟩ : ∃ l, Inv s l l₀ := by
    refine hreach.invariant (I := fun s => ∃ l, Inv s l l₀) ⟨l₀, hlinked, add_zero _⟩ ?_
    rintro s1 a s2 ⟨l1, h1⟩ hfair hs
    exact h1.step hnodup hpos hpages hfair hs
  have hfree : ∀ p, p ∈ l ↔ IsPage kend stop p ∧ p ∉ s.out := fun p => by rw [h.mem hnodup, hpages]
  obtain ⟨hl, hout, -⟩ := Multiset.nodup_add.mp (h.nodup hnodup)
  refine ⟨⟨hout, fun p hp => ?_⟩, ⟨l, h.linked, Multiset.coe_nodup.mp hl, hfree⟩, ?_⟩
  · have hpage : IsPage kend stop p := by
      rw [← hpages, ← Multiset.mem_coe, ← h.own]
      exact Multiset.mem_add.mpr (.inr hp)
    refine ⟨hpage, ?_⟩
    simp only [IsPage, Bad, PGSIZE] at *
    omega
  rw [h.linked.head]
  rcases l with _ | ⟨q, l⟩
  · refine ⟨⟨fun _ p hp => ?_, fun _ => rfl⟩, fun hne => absurd rfl hne⟩
    by_contra hnot
    simpa using (hfree p).mpr ⟨hp, hnot⟩
  have hq := (hfree q).mp List.mem_cons_self
  have hge := hq.1.2.1
  exact ⟨⟨fun h0 => absurd h0 (by simp; omega), fun hall => absurd (hall q hq.1) hq.2⟩,
    fun _ => hq⟩

/-- With two pages of memory, two calls of `kalloc` return different pages. -/
theorem kalloc_pages_two : ∃ k, kinit 1 (3 * PGSIZE) (fun _ => 0) = some k ∧
    IsPage 1 (3 * PGSIZE) k.freelist ∧ IsPage 1 (3 * PGSIZE) k.pop.freelist ∧
    k.freelist ≠ k.pop.freelist := by
  obtain ⟨k, hk, h⟩ := @kalloc_pages 1 (3 * PGSIZE) (by decide) (by decide) fun _ => 0
  have hpage : ∀ i ∈ [1, 2], IsPage 1 (3 * PGSIZE) (i * PGSIZE) := by simp [IsPage, PGSIZE]
  obtain ⟨-, -, hzero, hfst⟩ := h ⟨k, 0⟩ .refl
  have hne : k.freelist ≠ 0 := fun h0 => by simpa using hzero.mp h0 _ (hpage 1 (by simp))
  obtain ⟨-, -, hzero', hsnd⟩ := h _ (Reach.refl.tail (a := .pop) trivial rfl)
  simp only [if_neg hne] at hzero' hsnd
  have hne' : k.pop.freelist ≠ 0 := fun h0 => by
    have hall := hzero'.mp h0
    have h1 := hall _ (hpage 1 (by simp))
    have h2 := hall _ (hpage 2 (by simp))
    simp [PGSIZE] at h1 h2
    omega
  obtain ⟨hp, hnot⟩ := hsnd hne'
  exact ⟨k, hk, (hfst hne).1, hp, fun he => hnot (by simp [he])⟩

end Xv6.Vm.Kalloc

import Xv6.Foundations.Transition
import Xv6.User.Umalloc
import Xv6.Vm.Sbrk

/-!
# Runs of the allocator

A process that calls `malloc` and `free` in any order.

## Main results

* `umalloc_correct`: the free list and the live blocks, in every run
* `malloc_within`: where a block lies
-/

namespace Xv6.Umalloc

open Hoare Segment Transition Vm List Option

/-! ## The kernel's side -/

/-- The size of the process, and the units that `sbrk` has returned so far. -/
structure Brk where
  sz : ℕ
  got : Multiset ℕ

def sbrk (mem : Bool) (n : ℤ) (b : Brk) : Option ℕ × Brk :=
  if 0 < n then
    if (TRAPFRAME : ℤ) < b.sz + n then (none, b)
    else if mem then
      (some b.sz, ⟨b.sz + n.toNat, b.got + cells b.sz (n.toNat / UNIT)⟩)
    else (none, b)
  else if n < 0 then
    -- the sum is taken in 64 bits, and a new size above the old one changes nothing
    (some b.sz, ⟨if b.sz + n < 0 then b.sz else (b.sz + n).toNat, b.got⟩)
  else (some b.sz, b)

/-- The system call does as `sbrk` above, for some choice of whether the memory suffices. -/
theorem sysSbrk_size {ly : Layout} {space : Space} {s : Mem} {R : Multiset ℕ} {E : Halt → Prop}
    (h : space.Fits ly s R) {n : ℤ} (hn : -2 ^ 31 ≤ n ∧ n < 2 ^ 31) (got : Multiset ℕ) :
    Wp (sysSbrk ly space n true) s (fun r _ => ∃ mem, r.2 = (sbrk mem n ⟨space.sz, got⟩).1
      ∧ r.1.sz = (sbrk mem n ⟨space.sz, got⟩).2.sz) E := by
  rcases lt_trichotomy n 0 with hneg | rfl | hpos
  · refine (sysSbrk_shrink h hneg hn.1 true).mono ?_
    rintro r s' ⟨-, -, hr, hsbrk⟩
    refine ⟨true, ?_⟩
    rw [sbrk, if_neg (by omega), if_pos hneg]
    refine ⟨hr, ?_⟩
    by_cases hbelow : (space.sz : ℤ) + n < 0
    · rw [if_pos hbelow, (hsbrk.1 hbelow).1]
    rw [if_neg hbelow]
    have := (hsbrk.2 (by omega)).1
    dsimp only
    omega
  · refine (sysSbrk_zero h).mono ?_
    rintro r s' ⟨-, -, hr, hsbrk⟩
    refine ⟨true, hr, ?_⟩
    have := (hsbrk.2 (by omega)).1
    rw [sbrk, if_neg (by omega), if_neg (by omega)]
    dsimp only
    omega
  refine (sysSbrk_grow h hpos hn.2).mono ?_
  rintro ⟨q, _ | old⟩ s' ⟨-, -, hr⟩
  · refine ⟨false, ?_⟩
    rw [sbrk, if_pos hpos]
    split
    · exact ⟨rfl, hr.1.1⟩
    · exact ⟨rfl, hr.1.1⟩
  obtain ⟨rfl, htop, hsbrk⟩ := hr
  have := (hsbrk.2 (by omega)).1
  refine ⟨true, ?_⟩
  rw [sbrk, if_pos hpos, if_neg (show ¬ (TRAPFRAME : ℤ) < space.sz + n by omega), if_pos rfl]
  exact ⟨rfl, by dsimp only at *; omega⟩

theorem sysSbrk_size_page :
    Wp (sysSbrk ⟨0, 4, 9, [0, 1, 2, 3], by decide, by decide⟩ ⟨6000, .empty 0⟩ 4096 true)
      ⟨[1, 2, 3], fun _ _ => 0, [], false⟩ (fun r _ => ∃ mem,
        r.2 = (sbrk mem 4096 ⟨6000, 0⟩).1 ∧ r.1.sz = (sbrk mem 4096 ⟨6000, 0⟩).2.sz)
      fun _ => False := sysSbrk_size (Space.Fits.empty rfl (by decide)) (by decide) 0

/-! ## Taking a block -/

variable {h h' : Heap} {base p q bp n : ℕ} {l live : List ℕ}

/-- What `take` returns: the block at `a` is no longer in the free list. -/
structure Taken (base : ℕ) (h : Heap) (l : List ℕ) (n a : ℕ) (h' : Heap) (l' : List ℕ) : Prop where
  list : FreeList base h' l'
  sub : l' ⊆ l
  units : blocks h' l' + cells a n = blocks h l
  size : h'.size a = n
  pos : ∀ t ∈ l', 0 < h.size t → 0 < h'.size t
  same : ∀ b, b ∉ base :: l → b ≠ a → h'.hdr b = h.hdr b

variable (hlist : FreeList base h l)

include hlist

theorem FreeList.take_exact (hq : q ∈ base :: l) (hnext : h.ptr q = p)
    (hpbase : p ≠ base) (hsize : h.size p = n) :
    ∃ l', Taken base h l n p { h.setHeader q ⟨h.ptr p, h.size q⟩ with freep := q } l' := by
  obtain ⟨xs, ys, hsplit⟩ := hlist.seg.exists_split hq (by rwa [hnext])
  rw [hnext] at hsplit
  have hseg := hlist.seg
  have hapart := hlist.apart
  have hmem : ∀ b, b ∈ base :: l ↔ b ∈ xs ++ q :: p :: ys := fun b => by rw [hsplit]
  rw [hsplit] at hseg hapart
  have hsub : (xs ++ q :: ys).Sublist (xs ++ q :: p :: ys) :=
    Sublist.append_left ((sublist_cons_self p ys).cons_cons q) xs
  have hsizes : ∀ b, (h.setHeader q ⟨h.ptr p, h.size q⟩).size b = h.size b := by
    intro b
    rw [size_setHeader]
    split
    · next hb => rw [hb]
    · rfl
  obtain ⟨l', hl'⟩ : ∃ l', base :: l' = xs ++ q :: ys := by
    rcases xs with _ | ⟨x, xs⟩
    · exact ⟨ys, by rw [nil_append, (cons.inj hsplit).1]⟩
    · exact ⟨xs ++ q :: ys, by rw [cons_append, (cons.inj hsplit).1]⟩
  have hnodup : (xs ++ q :: p :: ys).Nodup := hapart.imp fun hab => hab.lt.ne
  have hlist' : FreeList base { h.setHeader q ⟨h.ptr p, h.size q⟩ with freep := q } l' := by
    refine ⟨?_, ?_, by rw [hl']; simp, (hsizes base).trans hlist.base_size⟩
    · obtain ⟨hsegx, -, hptr, hsegy⟩ := seg_append.mp hseg
      rw [hl']
      refine seg_append.mpr ⟨hsegx.congr fun x hx => ?_, ?_, hsegy.congr fun y hy => ?_⟩
      · refine ptr_eq_of_hdr (hdr_setHeader_of_ne ?_ _)
        rintro rfl
        exact (nodup_append.mp hnodup).2.2 x hx x mem_cons_self rfl
      · exact ((ptr_setHeader q q _).trans (if_pos rfl)).trans hptr
      refine ptr_eq_of_hdr (hdr_setHeader_of_ne ?_ _)
      rintro rfl
      have := (nodup_cons.mp (nodup_append.mp hnodup).2.1).1
      exact this (mem_cons_of_mem p hy)
    · rw [hl']
      exact apart_congr (hapart.sublist hsub) fun t _ => hsizes t
  refine ⟨l', hlist', fun a ha => ?_, ?_, (hsizes p).trans hsize, fun t _ ht => ?_,
    fun b hb _ => ?_⟩
  · have hlt := ((pairwise_cons.mp hlist'.apart).1 a ha).lt
    have hal : a ∈ base :: l := by
      rw [hmem]
      exact hsub.subset (hl' ▸ mem_cons_of_mem base ha)
    exact (mem_cons.mp hal).resolve_left hlt.ne'
  · have hzero : ∀ l, blocks h (base :: l) = blocks h l := by
      intro l
      rw [blocks_cons, hlist.base_size]
      simp [cells]
    have hsame : blocks { h.setHeader q ⟨h.ptr p, h.size q⟩ with freep := q } l' = blocks h l' :=
      blocks_congr fun t _ => hsizes t
    rw [hsame, ← hzero l', ← hzero l, hl', hsplit, blocks_append, blocks_append, blocks_cons,
      blocks_cons, blocks_cons, hsize]
    abel
  · exact (hsizes t).symm ▸ ht
  · refine hdr_setHeader_of_ne ?_ _
    rintro rfl
    exact hb hq

theorem FreeList.apart_of_lt {x y : ℕ} (hx : x ∈ base :: l)
    (hy : y ∈ base :: l) (hlt : x < y) : Apart h x y := by
  obtain ⟨xs, ys, hsplit⟩ := append_of_mem hx
  have hapart := hlist.apart
  rw [hsplit] at hapart hy
  rw [pairwise_append, pairwise_cons] at hapart
  obtain hy | hy := mem_append.mp hy
  · exact absurd (hapart.2.2 y hy x mem_cons_self).lt (by omega)
  · obtain rfl | hy := mem_cons.mp hy
    · exact absurd hlt (lt_irrefl y)
    · exact hapart.2.1.1 y hy

theorem FreeList.take_split (hq : q ∈ base :: l) (hp : p ∈ l)
    (hn : 0 < n) (hsize : n < h.size p) :
    Taken base h l n (p + UNIT * (h.size p - n))
      { (h.setHeader p ⟨h.ptr p, h.size p - n⟩).setHeader (p + UNIT * (h.size p - n))
        ⟨(h.setHeader p ⟨h.ptr p, h.size p - n⟩).ptr (p + UNIT * (h.size p - n)), n⟩
        with freep := q } l := by
  generalize ha : p + UNIT * (h.size p - n) = a
  have hpa : p < a ∧ a < p + UNIT * h.size p := by
    unfold UNIT at *
    omega
  have hp' : p ∈ base :: l := mem_cons_of_mem base hp
  have hanot : a ∉ base :: l := by
    intro hal
    have := hlist.apart_of_lt hp' hal hpa.1
    unfold Apart at this
    omega
  generalize hh' : { (h.setHeader p ⟨h.ptr p, h.size p - n⟩).setHeader a
    ⟨(h.setHeader p ⟨h.ptr p, h.size p - n⟩).ptr a, n⟩ with freep := q } = h'
  have hhdr : ∀ b, b ≠ a → b ≠ p → h'.hdr b = h.hdr b := by
    intro b hba hbp
    rw [← hh']
    exact (hdr_setHeader_of_ne hba _).trans (hdr_setHeader_of_ne hbp _)
  have hhdr_p : h'.hdr p = ⟨h.ptr p, h.size p - n⟩ := by
    rw [← hh']
    exact (hdr_setHeader_of_ne hpa.1.ne _).trans (Function.update_self ..)
  have hsize_a : h'.size a = n := by
    rw [← hh']
    exact (size_setHeader a a _).trans (if_pos rfl)
  have hsize_p : h'.size p = h.size p - n := by rw [Heap.size, hhdr_p]
  have hle : ∀ t ∈ base :: l, h'.size t ≤ h.size t := by
    intro t ht
    by_cases htp : t = p
    · rw [htp, hsize_p]
      omega
    · rw [size_eq_of_hdr (hhdr t (fun hta => hanot (hta ▸ ht)) htp)]
  have hptr : ∀ t ∈ base :: l, h'.ptr t = h.ptr t := by
    intro t ht
    by_cases htp : t = p
    · rw [htp, Heap.ptr, hhdr_p]
    · exact ptr_eq_of_hdr (hhdr t (fun hta => hanot (hta ▸ ht)) htp)
  refine ⟨⟨hlist.seg.congr hptr, ?_, ?_, ?_⟩, Subset.refl l, ?_, hsize_a, fun t ht hpos => ?_,
    fun b hb hba => hhdr b hba fun hbp => hb (hbp ▸ hp')⟩
  · refine hlist.apart.imp_of_mem fun {x y} hx _ hxy => ?_
    have := hle x hx
    unfold Apart UNIT at *
    omega
  · rw [← hh']
    exact hq
  · have := hle base mem_cons_self
    rw [hlist.base_size] at this
    omega
  · obtain ⟨xs, ys, hsplit⟩ := append_of_mem hp
    have hnodup : (xs ++ p :: ys).Nodup := by
      rw [← hsplit]
      exact (pairwise_cons.mp hlist.apart).2.imp fun hab => hab.lt.ne
    have hrest : ∀ t ∈ xs ++ ys, h'.size t = h.size t := by
      intro t ht
      have htl : t ∈ l := by
        rw [hsplit]
        simp only [mem_append, mem_cons] at ht ⊢
        tauto
      refine size_eq_of_hdr (hhdr t (fun hta => hanot (hta ▸ mem_cons_of_mem base htl)) ?_)
      rintro rfl
      rw [nodup_middle, nodup_cons] at hnodup
      exact hnodup.1 ht
    rw [hsplit, blocks_append, blocks_append, blocks_cons, blocks_cons,
      blocks_congr fun t ht => hrest t (mem_append_left ys ht),
      blocks_congr fun t ht => hrest t (mem_append_right xs ht), hsize_p]
    have hcells : cells p (h.size p) = cells p (h.size p - n) + cells a n := by
      rw [← ha, ← cells_add, Nat.sub_add_cancel hsize.le]
    rw [hcells]
    abel
  by_cases htp : t = p
  · rw [htp, hsize_p]
    omega
  · rwa [size_eq_of_hdr (hhdr t (fun hta => hanot (hta ▸ mem_cons_of_mem base ht)) htp)]

theorem FreeList.take_spec (hq : q ∈ base :: l) (hnext : h.ptr q = p)
    (hp : p ∈ base :: l) (hn : 0 < n) (hfit : n ≤ h.size p) :
    ∃ a l', (take h n q p).1 = a + UNIT ∧ Taken base h l n a (take h n q p).2 l' := by
  have hpbase : p ≠ base := by
    rintro rfl
    rw [hlist.base_size] at hfit
    omega
  unfold take
  by_cases hsize : h.size p = n
  · obtain ⟨l', htaken⟩ := hlist.take_exact hq hnext hpbase hsize
    rw [if_pos hsize]
    exact ⟨p, l', rfl, htaken⟩
  have htaken := hlist.take_split hq ((mem_cons.mp hp).resolve_left hpbase) hn
    (lt_of_le_of_ne hfit (Ne.symm hsize))
  rw [if_neg hsize]
  dsimp only
  rw [size_setHeader, if_pos rfl]
  exact ⟨_, l, rfl, htaken⟩

omit hlist

/-! ## The loop of `malloc` -/

section Loop

variable {σ : Type} (sbrk : ℤ → σ → Option ℕ × σ)

theorem mallocLoop_walk {t : List ℕ} {prev k : ℕ} (s : σ) (hseg : Seg h.ptr (prev :: t) h.freep)
    (hfree : h.freep ∉ t) (hk : t.length < k) :
    (∃ q p, q ∈ prev :: t ∧ p ∈ t ++ [h.freep] ∧ h.ptr q = p ∧ n ≤ h.size p
      ∧ mallocLoop sbrk n k h s prev (h.ptr prev) = some ((take h n q p).1, (take h n q p).2, s))
    ∨ (∀ p ∈ t ++ [h.freep], h.size p < n) ∧ ∃ k', k ≤ k' + t.length + 1
      ∧ mallocLoop sbrk n k h s prev (h.ptr prev) = (morecore h sbrk s n).bind fun r =>
        if r.1 = 0 then some (0, r.2)
        else mallocLoop sbrk n k' r.2.1 r.2.2 r.1 (r.2.1.ptr r.1) := by
  induction t generalizing prev k with
  | nil =>
    obtain ⟨k, rfl⟩ := Nat.exists_eq_succ_of_ne_zero (show k ≠ 0 by omega)
    have hnext : h.ptr prev = h.freep := hseg.1
    rw [hnext]
    by_cases hfit : n ≤ h.size h.freep
    · exact .inl ⟨prev, h.freep, by simp, by simp, hnext, hfit, by rw [mallocLoop, if_pos hfit]⟩
    refine .inr ⟨fun p hp => ?_, k, by simp, by rw [mallocLoop, if_neg hfit, if_pos rfl]⟩
    rw [nil_append, mem_singleton] at hp
    rw [hp]
    omega
  | cons y t ih =>
    obtain ⟨k, rfl⟩ := Nat.exists_eq_succ_of_ne_zero (show k ≠ 0 by omega)
    have hnext : h.ptr prev = y := hseg.1
    rw [mem_cons, not_or] at hfree
    rw [hnext]
    by_cases hfit : n ≤ h.size y
    · exact .inl ⟨prev, y, by simp, by simp, hnext, hfit, by rw [mallocLoop, if_pos hfit]⟩
    rw [mallocLoop, if_neg hfit, if_neg (Ne.symm hfree.1)]
    obtain ⟨q, p, hq, hp, hqp, hn, heq⟩ | ⟨hsmall, k', hk', heq⟩ :=
      ih hseg.2 hfree.2 (by simp at hk; omega)
    · exact .inl ⟨q, p, mem_cons_of_mem prev hq, mem_cons_of_mem y hp, hqp, hn, heq⟩
    refine .inr ⟨fun p hp => ?_, k', by simp; omega, heq⟩
    obtain rfl | hp := mem_cons.mp hp
    · omega
    · exact hsmall p hp

include hlist

theorem FreeList.walk (s : σ) {k : ℕ} (hk : l.length < k) :
    (∃ q p, q ∈ base :: l ∧ p ∈ base :: l ∧ h.ptr q = p ∧ n ≤ h.size p
      ∧ mallocLoop sbrk n k h s h.freep (h.ptr h.freep)
        = some ((take h n q p).1, (take h n q p).2, s))
    ∨ (∀ p ∈ base :: l, h.size p < n) ∧ ∃ k', k ≤ k' + l.length + 1
      ∧ mallocLoop sbrk n k h s h.freep (h.ptr h.freep) = (morecore h sbrk s n).bind fun r =>
        if r.1 = 0 then some (0, r.2)
        else mallocLoop sbrk n k' r.2.1 r.2.2 r.1 (r.2.1.ptr r.1) := by
  obtain ⟨xs, ys, hrot⟩ := append_of_mem hlist.freep
  have hseg := hlist.seg
  have hapart := hlist.apart
  rw [hrot] at hseg hapart
  have hcircle := hseg.rotate (by rw [← hrot]; rfl)
  have hall : ∀ x, x ∈ base :: l ↔ x ∈ h.freep :: (ys ++ xs) := by
    intro x
    rw [hrot]
    simp only [mem_cons, mem_append]
    tauto
  have hfree : h.freep ∉ ys ++ xs := by
    rw [pairwise_append, pairwise_cons] at hapart
    rw [mem_append, not_or]
    exact ⟨fun hy => (hapart.2.1.1 _ hy).lt.false,
      fun hx => (hapart.2.2 _ hx _ mem_cons_self).lt.false⟩
  have hlen : (ys ++ xs).length = l.length := by
    have := congrArg length hrot
    simp only [length_cons, length_append] at this ⊢
    omega
  have hends : ∀ x, x ∈ (ys ++ xs) ++ [h.freep] ↔ x ∈ base :: l := by
    intro x
    rw [hall]
    simp only [mem_cons, mem_append]
    tauto
  have hrounds : (ys ++ xs).length < k := by omega
  obtain ⟨q, p, hq, hp, hqp, hn, heq⟩ | ⟨hsmall, k', hk', heq⟩ :=
    mallocLoop_walk sbrk s hcircle hfree hrounds (n := n)
  · exact .inl ⟨q, p, (hall q).mpr hq, (hends p).mp hp, hqp, hn, heq⟩
  · exact .inr ⟨fun p hp => hsmall p ((hends p).mpr hp), k', by omega, heq⟩

end Loop

/-! ## The invariant -/

def PHYSMEM : ℕ := 128 * 1024 * 1024

/-- Where the program has its static variables and where its heap starts. -/
structure Image where
  base : ℕ
  start : ℕ
  base_pos : 0 < base
  base_below : base + UNIT ≤ start
  aligned : UNIT ∣ start
  start_le : start ≤ PHYSMEM

/-- Every unit that `sbrk` has returned is in one block, which is in the free list or belongs to the
program. -/
structure Good (img : Image) (h : Heap) (b : Brk) (live l : List ℕ) : Prop where
  list : FreeList img.base h l
  units : blocks h l + blocks h live = b.got
  nodup : b.got.Nodup
  range : ∀ x ∈ b.got, img.start ≤ x ∧ x + UNIT ≤ b.sz ∧ UNIT ∣ x
  pos : ∀ a ∈ l ++ live, 0 < h.size a
  size_le : b.sz ≤ PHYSMEM
  start_le : img.start ≤ b.sz
  aligned : UNIT ∣ b.sz

namespace Good

variable {img : Image} {b : Brk}

variable {a : ℕ}

variable (hg : Good img h b live l)

include hg

theorem cells_le (ha : a ∈ l ++ live) : cells a (h.size a) ≤ b.got := by
  rw [← hg.units]
  obtain ha | ha := mem_append.mp ha
  · exact (le_blocks ha).trans (Multiset.le_add_right _ _)
  · exact (le_blocks ha).trans (Multiset.le_add_left _ _)

theorem mem_got (ha : a ∈ l ++ live) : a ∈ b.got :=
  Multiset.mem_of_le (hg.cells_le ha) (self_mem_cells (hg.pos a ha))

theorem base_lt (ha : a ∈ l ++ live) : img.base < a := by
  have := (hg.range a (hg.mem_got ha)).1
  have := img.base_below
  unfold UNIT at this
  omega

theorem freep_ne_zero : h.freep ≠ 0 := by
  have := img.base_pos
  obtain heq | hmem := mem_cons.mp hg.list.freep
  · omega
  · have := hg.base_lt (mem_append_left live hmem)
    omega

theorem end_le (ha : a ∈ l ++ live) : a + UNIT * h.size a ≤ b.sz := by
  have hpos := hg.pos a ha
  have hlast : a + UNIT * (h.size a - 1) ∈ b.got :=
    Multiset.mem_of_le (hg.cells_le ha) (mem_cells.mpr ⟨h.size a - 1, by omega, rfl⟩)
  have := (hg.range _ hlast).2.1
  unfold UNIT at *
  omega

theorem card_got : b.got.card ≤ 2 ^ 23 := by
  have hcard : b.got.toFinset.card = b.got.card := by rw [Multiset.toFinset_card_of_nodup hg.nodup]
  rw [← hcard]
  have hsub : b.got.toFinset ⊆ (Finset.range (2 ^ 23)).image (UNIT * ·) := by
    intro x hx
    obtain ⟨-, hle, i, rfl⟩ := hg.range x (Multiset.mem_toFinset.mp hx)
    have := hg.size_le
    unfold PHYSMEM UNIT at *
    exact Finset.mem_image.mpr ⟨i, Finset.mem_range.mpr (by omega), rfl⟩
  exact (Finset.card_le_card hsub).trans (Finset.card_image_le.trans (by rw [Finset.card_range]))

omit hg

theorem length_le_card (hpos : ∀ a ∈ l, 0 < h.size a) : l.length ≤ (blocks h l).card := by
  induction l with
  | nil => exact Nat.zero_le _
  | cons a l ih =>
    have := ih fun x hx => hpos x (mem_cons_of_mem a hx)
    have := hpos a mem_cons_self
    rw [blocks_cons, Multiset.card_add, card_cells, length_cons]
    omega

theorem length_le (hg : Good img h b live l) : l.length ≤ 2 ^ 23 := by
  refine (length_le_card fun a ha => hg.pos a (mem_append_left live ha)).trans ?_
  refine le_trans (Multiset.card_le_card ?_) hg.card_got
  rw [← hg.units]
  exact Multiset.le_add_right _ _

theorem end_le_of_disjoint {a c : ℕ} (hdisj : Disjoint (cells a (h.size a)) (cells c (h.size c)))
    (hc : 0 < h.size c) (haligned : UNIT ∣ a) (hcaligned : UNIT ∣ c) (hlt : a < c) :
    a + UNIT * h.size a ≤ c := by
  by_contra hover
  obtain ⟨i, rfl⟩ := haligned
  obtain ⟨j, rfl⟩ := hcaligned
  refine Multiset.disjoint_left.mp hdisj (mem_cells.mpr ⟨j - i, ?_, ?_⟩) (self_mem_cells hc)
  · unfold UNIT at *
    omega
  · unfold UNIT at *
    omega

theorem blocks_perm {l l' : List ℕ} (hperm : l.Perm l') : blocks h l = blocks h l' :=
  (hperm.map _).sum_eq

variable (hg : Good img h b live l)

include hg

theorem disjoint_of_mem {a c : ℕ} (ha : a ∈ l) (hc : c ∈ live) :
    Disjoint (cells a (h.size a)) (cells c (h.size c)) := by
  have hnodup := hg.nodup
  rw [← hg.units] at hnodup
  have hdisj := (Multiset.nodup_add.mp hnodup).2.2
  exact (hdisj.mono_left (le_blocks ha)).mono_right (le_blocks hc)

theorem live_not_mem {c : ℕ} (hc : c ∈ live) : c ∉ img.base :: l := by
  intro hmem
  have hlt := hg.base_lt (mem_append_right l hc)
  have hcl := (mem_cons.mp hmem).resolve_left hlt.ne'
  have hself : c ∈ cells c (h.size c) := self_mem_cells (hg.pos c (mem_append_right l hc))
  exact Multiset.disjoint_left.mp (hg.disjoint_of_mem hcl hc) hself hself

theorem free (hbp : bp ∈ live) :
    ∃ h' l', Umalloc.free h (bp + UNIT) = some h' ∧ Good img h' b (live.erase bp) l'
      ∧ ∀ t ∈ bp :: l, ∃ t' ∈ img.base :: l', h.size t ≤ h'.size t' := by
  have hbp_mem : bp ∈ l ++ live := mem_append_right l hbp
  have haligned : ∀ a ∈ l ++ live, UNIT ∣ a := fun a ha => (hg.range a (hg.mem_got ha)).2.2
  have hbelow : ∀ a ∈ img.base :: l, a < bp → a + UNIT * h.size a ≤ bp := by
    intro a ha hlt
    obtain rfl | ha := mem_cons.mp ha
    · rw [hg.list.base_size]
      exact hlt.le
    · exact end_le_of_disjoint (hg.disjoint_of_mem ha hbp) (hg.pos bp hbp_mem)
        (haligned a (mem_append_left live ha)) (haligned bp hbp_mem) hlt
  have habove : ∀ a ∈ l, bp < a → bp + UNIT * h.size bp ≤ a := by
    intro a ha hlt
    exact end_le_of_disjoint (hg.disjoint_of_mem ha hbp).symm
      (hg.pos a (mem_append_left live ha)) (haligned bp hbp_mem)
      (haligned a (mem_append_left live ha)) hlt
  have hperm := perm_cons_erase hbp
  have hlive : blocks h live = cells bp (h.size bp) + blocks h (live.erase bp) := by
    rw [blocks_perm hperm, blocks_cons]
  have hcard : (cells bp (h.size bp) + blocks h l).card < 2 ^ 32 := by
    have hcard_got := hg.card_got
    rw [← hg.units, hlive, Multiset.card_add, Multiset.card_add] at hcard_got
    rw [Multiset.card_add]
    omega
  have hrounds : l.length + 1 < LOOPS := by
    have := hg.length_le
    unfold LOOPS
    omega
  have hbp_l : bp ∉ l := fun hmem => hg.live_not_mem hbp (mem_cons_of_mem _ hmem)
  obtain ⟨h', l', hfree, hlist', hsub, hunits, hsame, hmono, hlarge⟩ :=
    hg.list.free_spec (hg.base_lt hbp_mem) hbp_l hbelow habove hcard hrounds
  -- the other blocks of the program are not touched
  have hother : ∀ c ∈ live.erase bp, h'.size c = h.size c := by
    intro c hc
    refine size_eq_of_hdr (hsame c (hg.live_not_mem (mem_of_mem_erase hc)) ?_)
    rintro rfl
    have hnodup := hg.nodup
    rw [← hg.units, hlive] at hnodup
    have hdisj := (Multiset.nodup_add.mp (Multiset.nodup_add.mp hnodup).2.1).2.2
    have hself : c ∈ cells c (h.size c) := self_mem_cells (hg.pos c hbp_mem)
    exact Multiset.disjoint_left.mp hdisj hself (Multiset.mem_of_le (le_blocks hc) hself)
  have hunits' : blocks h' l' + blocks h' (live.erase bp) = b.got := by
    rw [hunits, blocks_congr hother, ← hg.units, hlive]
    abel
  refine ⟨h', l', hfree, ⟨hlist', hunits', hg.nodup, hg.range, fun a ha => ?_, hg.size_le,
    hg.start_le, hg.aligned⟩, hlarge⟩
  obtain ha | ha := mem_append.mp ha
  · refine lt_of_lt_of_le (hg.pos a ?_) (hmono a)
    obtain rfl | ha := mem_cons.mp (hsub ha)
    · exact hbp_mem
    · exact mem_append_left live ha
  · rw [hother a ha]
    exact hg.pos a (mem_append_right l (mem_of_mem_erase ha))

theorem taken {l' : List ℕ} (hn : 0 < n)
    (ht : Taken img.base h l n a h' l') : Good img h' b (a :: live) l' := by
  have hcells : cells a n ≤ blocks h l := by
    rw [← ht.units]
    exact Multiset.le_add_left _ _
  have hother : ∀ c ∈ live, h'.size c = h.size c := by
    intro c hc
    refine size_eq_of_hdr (ht.same c (hg.live_not_mem hc) ?_)
    rintro rfl
    have hnodup := hg.nodup
    rw [← hg.units] at hnodup
    have hdisj := (Multiset.nodup_add.mp hnodup).2.2
    exact Multiset.disjoint_left.mp hdisj (Multiset.mem_of_le hcells (self_mem_cells hn))
      (Multiset.mem_of_le (le_blocks hc) (self_mem_cells (hg.pos c (mem_append_right l hc))))
  refine ⟨ht.list, ?_, hg.nodup, hg.range, fun c hc => ?_, hg.size_le, hg.start_le, hg.aligned⟩
  · rw [blocks_cons, ht.size, blocks_congr hother, ← hg.units, ← ht.units]
    abel
  rw [mem_append, mem_cons] at hc
  obtain hc | rfl | hc := hc
  · exact ht.pos c hc (hg.pos c (mem_append_left live (ht.sub hc)))
  · rw [ht.size]
    exact hn
  · rw [hother c hc]
    exact hg.pos c (mem_append_right l hc)

omit hg

theorem nodup_cells (a s : ℕ) : (cells a s).Nodup := by
  refine (Multiset.nodup_map_iff_of_injective fun i j hij => ?_).mpr (Multiset.nodup_range s)
  unfold UNIT at hij
  omega

theorem grow {nu : ℕ} (hg : Good img h b live l) (hnu : 0 < nu) (hle : b.sz + UNIT * nu ≤ PHYSMEM) :
    Good img (h.setHeader b.sz ⟨h.ptr b.sz, nu⟩) ⟨b.sz + UNIT * nu, b.got + cells b.sz nu⟩
      (b.sz :: live) l := by
  have hne : ∀ a ∈ l ++ live, a ≠ b.sz := by
    intro a ha
    have := (hg.range a (hg.mem_got ha)).2.1
    unfold UNIT at this
    omega
  have hbase : img.base ≠ b.sz := by
    have := img.base_below
    have := hg.start_le
    unfold UNIT at *
    omega
  have hhdr : ∀ a, a ≠ b.sz → (h.setHeader b.sz ⟨h.ptr b.sz, nu⟩).hdr a = h.hdr a :=
    fun a ha => hdr_setHeader_of_ne ha _
  have hhdr_list : ∀ a ∈ img.base :: l, (h.setHeader b.sz ⟨h.ptr b.sz, nu⟩).hdr a = h.hdr a := by
    intro a ha
    obtain rfl | ha := mem_cons.mp ha
    · exact hhdr _ hbase
    · exact hhdr a (hne a (mem_append_left live ha))
  have hsize : ∀ a ∈ l ++ live, (h.setHeader b.sz ⟨h.ptr b.sz, nu⟩).size a = h.size a :=
    fun a ha => size_eq_of_hdr (hhdr a (hne a ha))
  have hself : (h.setHeader b.sz ⟨h.ptr b.sz, nu⟩).size b.sz = nu := by
    rw [size_setHeader, if_pos rfl]
  have hnew : ∀ x ∈ cells b.sz nu, img.start ≤ x ∧ b.sz ≤ x ∧ x + UNIT ≤ b.sz + UNIT * nu
      ∧ UNIT ∣ x := by
    intro x hx
    obtain ⟨i, hi, rfl⟩ := mem_cells.mp hx
    have := hg.start_le
    refine ⟨by omega, by omega, ?_, (hg.aligned).add (Dvd.intro i rfl)⟩
    unfold UNIT
    omega
  refine ⟨⟨hg.list.seg.congr fun a ha => ptr_eq_of_hdr (hhdr_list a ha),
    apart_congr hg.list.apart fun a ha => size_eq_of_hdr (hhdr_list a ha), hg.list.freep, ?_⟩,
    ?_, ?_, ?_, ?_, hle, ?_, ?_⟩
  · rw [size_eq_of_hdr (hhdr _ hbase), hg.list.base_size]
  · rw [blocks_cons, hself, blocks_congr fun a ha => hsize a (mem_append_left live ha),
      blocks_congr fun a ha => hsize a (mem_append_right l ha), ← hg.units]
    ac_rfl
  · refine Multiset.nodup_add.mpr ⟨hg.nodup, nodup_cells _ _, Multiset.disjoint_left.mpr ?_⟩
    intro x hx hx'
    have := (hg.range x hx).2.1
    have := (hnew x hx').2.1
    unfold UNIT at *
    omega
  · intro x hx
    obtain hx | hx := Multiset.mem_add.mp hx
    · obtain ⟨hstart, hend, hdvd⟩ := hg.range x hx
      exact ⟨hstart, hend.trans (Nat.le_add_right _ _), hdvd⟩
    · obtain ⟨hstart, -, hend, hdvd⟩ := hnew x hx
      exact ⟨hstart, hend, hdvd⟩
  · intro a ha
    rw [mem_append, mem_cons] at ha
    obtain ha | rfl | ha := ha
    · rw [hsize a (mem_append_left live ha)]
      exact hg.pos a (mem_append_left live ha)
    · rw [hself]
      exact hnu
    · rw [hsize a (mem_append_right l ha)]
      exact hg.pos a (mem_append_right l ha)
  · exact hg.start_le.trans (Nat.le_add_right _ _)
  · exact hg.aligned.add (Dvd.intro nu rfl)

end Good

theorem sbrk_units (mem : Bool) {nu : ℕ} (hnu : 0 < nu) (hsmall : nu * UNIT < 2 ^ 31) (b : Brk) :
    sbrk mem (int32 (nu * UNIT : ℕ)) b = (none, b) ∨ mem = true ∧ sbrk mem (int32 (nu * UNIT : ℕ)) b
        = (some b.sz, ⟨b.sz + UNIT * nu, b.got + cells b.sz nu⟩) := by
  have hmin : INT_MIN = -2 ^ 31 := rfl
  have hmax : INT_MAX = 2 ^ 31 - 1 := rfl
  rw [int32_of_range (by omega) (by omega), sbrk, if_pos (by unfold UNIT at *; omega)]
  by_cases htop : (TRAPFRAME : ℤ) < b.sz + (nu * UNIT : ℕ)
  · rw [if_pos htop]
    exact .inl rfl
  rw [if_neg htop]
  by_cases hmem : mem = true
  · rw [if_pos hmem, Int.toNat_natCast, Nat.mul_div_cancel nu (by decide), Nat.mul_comm nu UNIT]
    exact .inr ⟨hmem, rfl⟩
  · rw [if_neg hmem]
    exact .inl rfl

theorem Good.mallocLoop_spec {img : Image} {b : Brk} (hg : Good img h b live l) (mem : Bool)
    (hn : 0 < n) (hsmall : n * UNIT < 2 ^ 31)
    (hphys : mem = true → b.sz + UNIT * (if n < 4096 then 4096 else n) ≤ PHYSMEM) :
    ∃ r h' b', mallocLoop (sbrk mem) n LOOPS h b h.freep (h.ptr h.freep) = some (r, h', b')
      ∧ (r = 0 ∧ h' = h ∧ b' = b ∧ (∀ a ∈ l, h.size a < n)
          ∧ (sbrk mem (int32 ((if n < 4096 then 4096 else n) * UNIT : ℕ)) b).1 = none
        ∨ ∃ a l', r = a + UNIT ∧ Good img h' b' (a :: live) l' ∧ h'.size a = n) := by
  have hloops : l.length < LOOPS := by
    have := hg.length_le
    unfold LOOPS
    omega
  obtain ⟨q, p, hq, hp, hnext, hfit, hrun⟩ | ⟨hless, k', hk', hrun⟩ :=
    hg.list.walk (sbrk mem) b hloops (n := n)
  · obtain ⟨a, l', hptr, htaken⟩ := hg.list.take_spec hq hnext hp hn hfit
    exact ⟨_, _, _, hrun, .inr ⟨a, l', hptr, hg.taken hn htaken, htaken.size⟩⟩
  -- no block is large enough, and `morecore` asks the kernel for memory
  rw [hrun, morecore]
  generalize hnu : (if n < 4096 then 4096 else n) = nu at hphys
  have hnu_pos : 0 < nu ∧ n ≤ nu ∧ nu * UNIT < 2 ^ 31 := by
    unfold UNIT at *
    split at hnu <;> omega
  obtain hfail | ⟨hmem, hok⟩ := sbrk_units mem hnu_pos.1 hnu_pos.2.2 b
  · rw [hfail]
    exact ⟨0, h, b, rfl, .inl ⟨rfl, rfl, rfl, fun a ha => hless a (mem_cons_of_mem _ ha), rfl⟩⟩
  rw [hok]
  dsimp only
  obtain ⟨h1, l1, hfree, hg1, hlarge⟩ := (hg.grow hnu_pos.1 (hphys hmem)).free mem_cons_self
  rw [erase_cons_head] at hg1
  rw [hfree]
  dsimp only [map_some, bind_some]
  rw [if_neg hg1.freep_ne_zero]
  -- the new block is found before the loop comes back to `freep`
  obtain ⟨t, ht, hsize⟩ := hlarge b.sz mem_cons_self
  rw [size_setHeader, if_pos rfl] at hsize
  have hloops1 : l1.length < k' := by
    have := hg1.length_le
    have := hg.length_le
    unfold LOOPS at hk'
    omega
  obtain ⟨q, p, hq, hp, hnext, hfit, hrun1⟩ | ⟨hless1, -⟩ :=
    hg1.list.walk (sbrk mem) _ hloops1 (n := n)
  · obtain ⟨a, l', hptr, htaken⟩ := hg1.list.take_spec hq hnext hp hn hfit
    exact ⟨_, _, _, hrun1, .inr ⟨a, l', hptr, hg1.taken hn htaken, htaken.size⟩⟩
  · have := hless1 t ht
    dsimp only at hsize
    omega

/-! ## Runs -/

/-- The heap, the kernel's side of it, and the blocks that the program has got and not given back,
by the addresses of their headers. -/
structure World where
  heap : Heap
  brk : Brk
  live : List ℕ

inductive Act
  /-- `malloc(n)`; the second argument says whether the kernel has memory when `sbrk` asks. -/
  | malloc (n : ℕ) (mem : Bool)
  /-- `free(p)` of a live block. -/
  | free (p : ℕ)
  | grow (units : ℕ)

variable (img : Image)

def step (w : World) : Act → Option World
  | .malloc n mem => (malloc w.heap (sbrk mem) img.base w.brk n).map fun r =>
    ⟨r.2.1, r.2.2, if r.1 = 0 then w.live else (r.1 - UNIT) :: w.live⟩
  | .free p =>
    if p - UNIT ∈ w.live ∧ UNIT ≤ p then
      (free w.heap p).map fun h => { w with heap := h, live := w.live.erase (p - UNIT) }
    else none
  | .grow units =>
    if w.brk.sz + UNIT * units ≤ PHYSMEM then
      some { w with brk := { w.brk with sz := w.brk.sz + UNIT * units } }
    else none

def boot (hdr : ℕ → Header) : World := ⟨⟨0, hdr⟩, ⟨img.start, 0⟩, []⟩

def request (n : ℕ) : ℕ := if unitsOf n < 4096 then 4096 else unitsOf n

def below (bound : ℕ) (w : World) : Act → Bool
  | .malloc n mem => n < bound ∧ (mem = true → w.brk.sz + UNIT * request n ≤ PHYSMEM)
  | _ => true

structure Inv (w : World) : Prop where
  good : ∃ l, Good img (init w.heap img.base) w.brk w.live l
  /-- Before the first call of `malloc` there are no blocks. -/
  fresh : w.heap.freep = 0 → w.live = []

variable {img} {w w' : World}

theorem unitsOf_eq {nbytes : ℕ} (hsmall : nbytes < 2 ^ 31 - 31) :
    unitsOf nbytes = (nbytes + 15) / 16 + 1 ∧ unitsOf nbytes * UNIT < 2 ^ 31 := by
  have heq : unitsOf nbytes = (nbytes + 15) / 16 + 1 := by
    unfold unitsOf uint UNIT
    rw [Nat.mod_eq_of_lt (by omega)]
    rfl
  refine ⟨heq, ?_⟩
  rw [heq, UNIT]
  omega

theorem init_of_ne_zero {h : Heap} (hne : h.freep ≠ 0) (base : ℕ) : init h base = h := by
  rw [init, if_neg hne]

theorem Inv.malloc_spec {l : List ℕ} (hg : Good img (init w.heap img.base) w.brk w.live l) {n : ℕ}
    (hsmall : n < 2 ^ 31 - 31) {mem : Bool}
    (hphys : mem = true → w.brk.sz + UNIT * request n ≤ PHYSMEM) :
    ∃ r h' b', malloc w.heap (sbrk mem) img.base w.brk n = some (r, h', b')
      ∧ Inv img ⟨h', b', if r = 0 then w.live else (r - UNIT) :: w.live⟩
      ∧ (r = 0 → (∀ a ∈ l, (init w.heap img.base).size a < unitsOf n)
        ∧ (sbrk mem (int32 (request n * UNIT : ℕ)) w.brk).1 = none)
      ∧ (r ≠ 0 → UNIT ∣ r ∧ n + UNIT ≤ UNIT * h'.size (r - UNIT) ∧ r + n ≤ b'.sz) := by
  obtain ⟨heq, hproduct⟩ := unitsOf_eq hsmall
  obtain ⟨r, h', b', hrun, hcase⟩ := hg.mallocLoop_spec mem (show 0 < unitsOf n by omega) hproduct
    hphys
  refine ⟨r, h', b', hrun, ?_⟩
  obtain ⟨rfl, rfl, rfl, hless, hfail⟩ | ⟨a, l', rfl, hg', hsize⟩ := hcase
  · have hne := hg.freep_ne_zero
    refine ⟨⟨⟨l, ?_⟩, fun h0 => absurd h0 hne⟩, fun _ => ⟨hless, hfail⟩, fun h0 => absurd rfl h0⟩
    rw [if_pos rfl, init_of_ne_zero hne]
    exact hg
  have hne : a + UNIT ≠ 0 := by
    unfold UNIT
    omega
  have ha : a ∈ l' ++ a :: w.live := mem_append_right l' mem_cons_self
  have hdvd := (hg'.range a (hg'.mem_got ha)).2.2
  have hend := hg'.end_le ha
  refine ⟨⟨⟨l', ?_⟩, fun h0 => absurd h0 hg'.freep_ne_zero⟩, fun h0 => absurd h0 hne, fun _ => ?_⟩
  · rw [if_neg hne, Nat.add_sub_cancel, init_of_ne_zero hg'.freep_ne_zero]
    exact hg'
  rw [Nat.add_sub_cancel]
  rw [hsize, heq] at hend ⊢
  refine ⟨hdvd.add (dvd_refl UNIT), ?_, ?_⟩
  · unfold UNIT
    omega
  · unfold UNIT at *
    omega

theorem Inv.step (hw : Inv img w) {a : Act} (hok : below (2 ^ 31 - 31) w a = true)
    (hs : step img w a = some w') : Inv img w' := by
  obtain ⟨l, hg⟩ := hw.good
  cases a with
  | malloc n mem =>
    rw [below, decide_eq_true_eq] at hok
    obtain ⟨r, h', b', hrun, hinv, -⟩ := Inv.malloc_spec hg hok.1 hok.2
    rw [Umalloc.step, hrun] at hs
    obtain rfl := some.inj hs
    exact hinv
  | free p =>
    rw [Umalloc.step, ite_none_right_eq_some] at hs
    obtain ⟨⟨hlive, hp⟩, hs⟩ := hs
    have hne : w.heap.freep ≠ 0 := fun h0 => by
      rw [hw.fresh h0] at hlive
      exact absurd hlive not_mem_nil
    rw [init_of_ne_zero hne] at hg
    obtain ⟨h', l', hfree, hg', -⟩ := hg.free hlive
    rw [Nat.sub_add_cancel hp] at hfree
    rw [hfree] at hs
    obtain rfl := some.inj hs
    refine ⟨⟨l', ?_⟩, fun h0 => absurd h0 hg'.freep_ne_zero⟩
    rw [init_of_ne_zero hg'.freep_ne_zero]
    exact hg'
  | grow units =>
    rw [Umalloc.step, ite_none_right_eq_some] at hs
    obtain ⟨hle, hs⟩ := hs
    obtain rfl := some.inj hs
    refine ⟨⟨l, hg.list, hg.units, hg.nodup, fun x hx => ?_, hg.pos, hle, ?_, ?_⟩, hw.fresh⟩
    · obtain ⟨hstart, hend, hdvd⟩ := hg.range x hx
      exact ⟨hstart, hend.trans (Nat.le_add_right _ _), hdvd⟩
    · exact hg.start_le.trans (Nat.le_add_right _ _)
    · exact hg.aligned.add (Dvd.intro units rfl)

theorem inv_boot (hdr : ℕ → Header) : Inv img (boot img hdr) := by
  have hself : init (boot img hdr).heap img.base
      = { (boot img hdr).heap.setHeader img.base ⟨img.base, 0⟩ with freep := img.base } :=
    if_pos rfl
  refine ⟨⟨[], ?_⟩, fun _ => rfl⟩
  rw [hself]
  refine ⟨⟨⟨?_, trivial⟩, pairwise_singleton _ _, mem_singleton_self _, ?_⟩, rfl,
    Multiset.nodup_zero, fun x hx => absurd hx (Multiset.notMem_zero x),
    fun a ha => absurd ha not_mem_nil, img.start_le, Nat.le_refl _, img.aligned⟩
  · exact (ptr_setHeader img.base img.base _).trans (if_pos rfl)
  · exact (size_setHeader img.base img.base _).trans (if_pos rfl)

theorem inv_of_reach {hdr : ℕ → Header} {bound : ℕ} (hbound : bound ≤ 2 ^ 31 - 31)
    (hreach : Reach (step img) (fun w a => below bound w a = true) (boot img hdr) w) :
    Inv img w := by
  refine hreach.invariant (inv_boot hdr) fun w1 a w2 hw hok hs => hw.step ?_ hs
  cases a with
  | malloc n mem =>
    rw [below, decide_eq_true_eq] at hok ⊢
    exact ⟨hok.1.trans_le hbound, hok.2⟩
  | free p => rfl
  | grow units => rfl

/-- In every run of calls of `malloc` and `free`: the free list is circular and in the order of the
addresses, without adjacent blocks; the free blocks and those of the program together have exactly
the units that `sbrk` returned, each of them once; `malloc` returns, an aligned block that is large
enough or 0 if there is no such block and `sbrk` failed; and `free` returns. -/
theorem umalloc_correct (img : Image) (hdr : ℕ → Header) (w : World)
    (hreach : Reach (step img) (fun w a => below (2 ^ 30) w a = true) (boot img hdr) w) :
    ∃ l, FreeList img.base (init w.heap img.base) l
      ∧ blocks (init w.heap img.base) l + blocks (init w.heap img.base) w.live = w.brk.got
      ∧ w.brk.got.Nodup
      ∧ (∀ n mem, below (2 ^ 30) w (.malloc n mem) = true →
        ∃ r h' b', malloc w.heap (sbrk mem) img.base w.brk n = some (r, h', b')
          ∧ (r = 0 → (∀ a ∈ l, (init w.heap img.base).size a < unitsOf n)
            ∧ (sbrk mem (int32 (request n * UNIT : ℕ)) w.brk).1 = none)
          ∧ (r ≠ 0 → UNIT ∣ r ∧ n + UNIT ≤ UNIT * h'.size (r - UNIT)))
      ∧ ∀ bp ∈ w.live, (free w.heap (bp + UNIT)).isSome = true := by
  have hw := inv_of_reach (by omega) hreach
  obtain ⟨l, hg⟩ := hw.good
  refine ⟨l, hg.list, hg.units, hg.nodup, fun n mem hok => ?_, fun bp hbp => ?_⟩
  · rw [below, decide_eq_true_eq] at hok
    obtain ⟨r, h', b', hrun, -, hzero, hblock⟩ := Inv.malloc_spec hg (by omega) hok.2
    exact ⟨r, h', b', hrun, hzero, fun hr => ⟨(hblock hr).1, (hblock hr).2.1⟩⟩
  have hne : w.heap.freep ≠ 0 := fun h0 => by
    rw [hw.fresh h0] at hbp
    exact absurd hbp List.not_mem_nil
  rw [init_of_ne_zero hne] at hg
  obtain ⟨h', l', hfree, -⟩ := hg.free hbp
  rw [hfree]
  rfl

def small : Image := ⟨16, 4096, by decide, by decide, by decide, by decide⟩

def smallRun : List Act := [.malloc 100 true, .malloc 200 true, .free 69520]

theorem umalloc_correct_small : ∃ w : World, w.live = [69280]
    ∧ ∃ l, FreeList small.base (init w.heap small.base) l
      ∧ blocks (init w.heap small.base) l + blocks (init w.heap small.base) w.live = w.brk.got
      ∧ w.brk.got.Nodup
      ∧ (∀ n mem, below (2 ^ 30) w (.malloc n mem) = true →
        ∃ r h' b', malloc w.heap (sbrk mem) small.base w.brk n = some (r, h', b')
          ∧ (r = 0 → (∀ a ∈ l, (init w.heap small.base).size a < unitsOf n)
            ∧ (sbrk mem (int32 (request n * UNIT : ℕ)) w.brk).1 = none)
          ∧ (r ≠ 0 → UNIT ∣ r ∧ n + UNIT ≤ UNIT * h'.size (r - UNIT)))
      ∧ ∀ bp ∈ w.live, (free w.heap (bp + UNIT)).isSome = true := by
  obtain ⟨w, hreach, hw⟩ := exists_reach (step small) (below (2 ^ 30)) (boot small fun _ => ⟨0, 0⟩)
    smallRun (fun w => w.live) [69280] (by decide +kernel)
  exact ⟨w, hw, umalloc_correct small _ w hreach⟩

/-- As long as no request is so large that its size in bytes overflows an `int`, and no call of
`sbrk` that succeeds goes beyond 128 MiB, `malloc` returns 0 or memory below the size of the
process. -/
theorem malloc_within (img : Image) (hdr : ℕ → Header) (w : World)
    (hreach : Reach (step img) (fun w a => below (2 ^ 31 - 31) w a = true) (boot img hdr) w)
    (n : ℕ) (mem : Bool) (hok : below (2 ^ 31 - 31) w (.malloc n mem) = true) :
    ∃ r h' b', malloc w.heap (sbrk mem) img.base w.brk n = some (r, h', b')
      ∧ (r = 0 ∨ r + n ≤ b'.sz) := by
  obtain ⟨l, hg⟩ := (inv_of_reach le_rfl hreach).good
  rw [below, decide_eq_true_eq] at hok
  obtain ⟨r, h', b', hrun, -, -, hblock⟩ := Inv.malloc_spec hg hok.1 hok.2
  refine ⟨r, h', b', hrun, ?_⟩
  by_cases hr : r = 0
  · exact .inl hr
  · exact .inr (hblock hr).2.2

/-- A large request after a small one. -/
theorem malloc_within_small : ∃ w : World, w.live = [69504]
    ∧ ∃ r h' b', malloc w.heap (sbrk true) small.base w.brk (2 ^ 20) = some (r, h', b')
      ∧ (r = 0 ∨ r + 2 ^ 20 ≤ b'.sz) := by
  obtain ⟨w, hreach, hw⟩ := exists_reach (step small) (below (2 ^ 31 - 31))
    (boot small fun _ => ⟨0, 0⟩) [.malloc 100 true]
    (fun w => (w.live, below (2 ^ 31 - 31) w (.malloc (2 ^ 20) true))) ([69504], true)
    (by decide +kernel)
  rw [Prod.mk.injEq] at hw
  exact ⟨w, hw.1, malloc_within small _ w hreach (2 ^ 20) true hw.2⟩

/-- For the largest request `morecore` asks for 16 bytes and records a block of 4 GiB. -/
theorem malloc_overflow : ∃ r h' b', malloc (boot small fun _ => ⟨0, 0⟩).heap (sbrk true) small.base
      (boot small fun _ => ⟨0, 0⟩).brk (2 ^ 32 - 1) = some (r, h', b')
    ∧ r ≠ 0 ∧ b'.sz < r + (2 ^ 32 - 1) := by
  have h : (malloc (boot small fun _ => ⟨0, 0⟩).heap (sbrk true) small.base
      (boot small fun _ => ⟨0, 0⟩).brk (2 ^ 32 - 1)).map (fun r => (r.1, r.2.2.sz))
      = some (4112, 4112) := by
    decide +kernel
  obtain ⟨⟨r, h', b'⟩, hrun, hr⟩ := Option.map_eq_some_iff.mp h
  rw [Prod.mk.injEq] at hr
  obtain ⟨rfl, hsz⟩ := hr
  dsimp only at hsz
  exact ⟨_, h', b', hrun, by decide, by rw [hsz]; decide⟩

end Xv6.Umalloc

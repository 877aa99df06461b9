import Xv6.Foundations.Segment

/-!
# The allocator of the user library

`malloc` and `free` of `umalloc.c`.
-/

namespace Xv6.Umalloc

open Segment

def UNIT : ℕ := 16

/-- The fields of a header. -/
structure Header where
  ptr : ℕ
  size : ℕ

/-- The static variables and the headers, by their addresses. -/
structure Heap where
  freep : ℕ
  hdr : ℕ → Header

namespace Heap

variable (h : Heap)

def ptr (a : ℕ) : ℕ := (h.hdr a).ptr

def size (a : ℕ) : ℕ := (h.hdr a).size

def setHeader (a : ℕ) (x : Header) : Heap := { h with hdr := Function.update h.hdr a x }

end Heap

/-- Rounds that a loop makes at most: more than there are units of memory. -/
def LOOPS : ℕ := 2 ^ 25

def uint (x : ℕ) : ℕ := x % 2 ^ 32

section Code

variable (h : Heap)

def stops (bp p : ℕ) : Bool :=
  (p < bp ∧ bp < h.ptr p) ∨ (h.ptr p ≤ p ∧ (p < bp ∨ bp < h.ptr p))

def search (bp : ℕ) : ℕ → ℕ → Option ℕ
  | 0, _ => none
  | k + 1, p => if stops h bp p then some p else search bp k (h.ptr p)

/-- Link the block `q` to the next one `y`, or merge them if they are adjacent. -/
def join (q y : ℕ) : Heap :=
  if q + UNIT * h.size q = y then h.setHeader q ⟨h.ptr y, uint (h.size q + h.size y)⟩
  else h.setHeader q ⟨y, h.size q⟩

def free (ap : ℕ) : Option Heap :=
  let bp := ap - UNIT
  (search h bp LOOPS h.freep).map fun p =>
    { join (join h bp (h.ptr p)) p bp with freep := p }

variable {σ : Type} (sbrk : ℤ → σ → Option ℕ × σ)

def morecore (s : σ) (nu : ℕ) : Option (ℕ × Heap × σ) :=
  let nu := if nu < 4096 then 4096 else nu
  match sbrk (int32 (nu * UNIT : ℕ)) s with
  | (none, s) => some (0, h, s)
  | (some p, s) =>
    (free (h.setHeader p ⟨h.ptr p, nu⟩) (p + UNIT)).map fun h => (h.freep, h, s)

def take (nunits prevp p : ℕ) : ℕ × Heap :=
  if h.size p = nunits then
    (p + UNIT, { h.setHeader prevp ⟨h.ptr p, h.size prevp⟩ with freep := prevp })
  else
    let h₁ := h.setHeader p ⟨h.ptr p, h.size p - nunits⟩
    let p := p + UNIT * h₁.size p
    (p + UNIT, { h₁.setHeader p ⟨h₁.ptr p, nunits⟩ with freep := prevp })

def mallocLoop (nunits : ℕ) : ℕ → Heap → σ → ℕ → ℕ → Option (ℕ × Heap × σ)
  | 0, _, _, _, _ => none
  | k + 1, h, s, prevp, p =>
    if nunits ≤ h.size p then
      let r := take h nunits prevp p
      some (r.1, r.2, s)
    else if p = h.freep then
      (morecore h sbrk s nunits).bind fun r =>
        if r.1 = 0 then some (0, r.2)
        else mallocLoop nunits k r.2.1 r.2.2 r.1 (r.2.1.ptr r.1)
    else mallocLoop nunits k h s p (h.ptr p)

def unitsOf (nbytes : ℕ) : ℕ := uint ((nbytes + UNIT - 1) / UNIT + 1)

def init (base : ℕ) : Heap :=
  if h.freep = 0 then { h.setHeader base ⟨base, 0⟩ with freep := base } else h

def malloc (base : ℕ) (s : σ) (nbytes : ℕ) : Option (ℕ × Heap × σ) :=
  let h := init h base
  mallocLoop sbrk (unitsOf nbytes) LOOPS h s h.freep (h.ptr h.freep)

end Code

/-! ## Blocks -/

def cells (a s : ℕ) : Multiset ℕ := (Multiset.range s).map fun i => a + UNIT * i

theorem cells_add (a s t : ℕ) : cells a (s + t) = cells a s + cells (a + UNIT * s) t := by
  rw [cells, cells, cells, Multiset.range_add, Multiset.map_add, Multiset.map_map]
  congr 1
  refine Multiset.map_congr rfl fun i _ => ?_
  simp only [Function.comp]
  ring

theorem mem_cells {a s x : ℕ} : x ∈ cells a s ↔ ∃ i < s, x = a + UNIT * i := by
  simp [cells, eq_comm]

theorem self_mem_cells {a s : ℕ} (hs : 0 < s) : a ∈ cells a s := mem_cells.mpr ⟨0, hs, rfl⟩

theorem card_cells (a s : ℕ) : (cells a s).card = s := by simp [cells]

def blocks (h : Heap) (l : List ℕ) : Multiset ℕ := (l.map fun a => cells a (h.size a)).sum

variable {h h' : Heap} {base p q bp : ℕ} {l xs ys ts : List ℕ}

theorem blocks_cons (a : ℕ) : blocks h (a :: l) = cells a (h.size a) + blocks h l := by
  simp [blocks]

theorem blocks_append : blocks h (xs ++ ys) = blocks h xs + blocks h ys := by simp [blocks]

theorem blocks_congr (hsize : ∀ a ∈ l, h'.size a = h.size a) : blocks h' l = blocks h l := by
  unfold blocks
  rw [List.map_congr_left fun a ha => by rw [hsize a ha]]

theorem le_blocks {a : ℕ} (ha : a ∈ l) : cells a (h.size a) ≤ blocks h l := by
  obtain ⟨xs, ys, rfl⟩ := List.append_of_mem ha
  rw [blocks_append, blocks_cons]
  exact (Multiset.le_add_right _ _).trans (Multiset.le_add_left _ _)

/-! ## The free list -/

/-- The first block ends before the second one, with a gap. -/
def Apart (h : Heap) (a b : ℕ) : Prop := a + UNIT * h.size a < b

/-- The free list: `base` and the blocks `l` in the order of their addresses. -/
structure FreeList (base : ℕ) (h : Heap) (l : List ℕ) : Prop where
  seg : Seg h.ptr (base :: l) base
  apart : (base :: l).Pairwise (Apart h)
  freep : h.freep ∈ base :: l
  base_size : h.size base = 0

theorem Apart.lt {a b : ℕ} (hab : Apart h a b) : a < b := by
  unfold Apart at hab
  omega

section Headers

variable (a b : ℕ) (x : Header)

theorem ptr_setHeader : (h.setHeader a x).ptr b = if b = a then x.ptr else h.ptr b := by
  by_cases hb : b = a
  · rw [if_pos hb, hb]
    simp [Heap.ptr, Heap.setHeader]
  · rw [if_neg hb]
    simp [Heap.ptr, Heap.setHeader, hb]

theorem size_setHeader : (h.setHeader a x).size b = if b = a then x.size else h.size b := by
  by_cases hb : b = a
  · rw [if_pos hb, hb]
    simp [Heap.size, Heap.setHeader]
  · rw [if_neg hb]
    simp [Heap.size, Heap.setHeader, hb]

end Headers

/-! ## The search -/

theorem FreeList.next_cases (hlist : FreeList base h l) (hq : q ∈ base :: l) :
    (h.ptr q = base ∧ ∀ x ∈ base :: l, x ≤ q)
      ∨ (h.ptr q ∈ base :: l ∧ q < h.ptr q ∧ ∀ x ∈ base :: l, x ≤ q ∨ h.ptr q ≤ x) := by
  obtain ⟨hseg, hapart, -, -⟩ := hlist
  obtain ⟨xs, ys, hsplit⟩ := List.append_of_mem hq
  rw [hsplit] at hseg hapart ⊢
  have hnext := hseg.next_eq
  rw [List.pairwise_append, List.pairwise_cons] at hapart
  obtain ⟨-, ⟨hys, hapart⟩, hxs⟩ := hapart
  have hbefore : ∀ x ∈ xs, x ≤ q := fun x hx => (hxs x hx q List.mem_cons_self).lt.le
  rcases ys with _ | ⟨y, ys⟩
  · refine .inl ⟨hnext, fun x hx => ?_⟩
    rw [List.mem_append, List.mem_singleton] at hx
    obtain hx | rfl := hx
    · exact hbefore x hx
    · exact Nat.le_refl x
  rw [List.headD_cons] at hnext
  rw [hnext]
  refine .inr ⟨by simp, (hys y List.mem_cons_self).lt, fun x hx => ?_⟩
  rw [List.mem_append, List.mem_cons, List.mem_cons] at hx
  obtain hx | rfl | rfl | hx := hx
  · exact .inl (hbefore x hx)
  · exact .inl (Nat.le_refl x)
  · exact .inr (Nat.le_refl x)
  · exact .inr ((List.pairwise_cons.mp hapart).1 x hx).lt.le

theorem FreeList.stops_iff (hlist : FreeList base h l) (hp : p ∈ base :: l) (hlt : p < bp)
    (hplace : ∀ x ∈ base :: l, x ≤ p ∨ bp < x) (hbase : base < bp) (hq : q ∈ base :: l) :
    stops h bp q = true ↔ q = p := by
  rw [stops, decide_eq_true_eq]
  have hqp := hplace q hq
  obtain ⟨hnext, hlast⟩ | ⟨hmem, hlt', hbetween⟩ := hlist.next_cases hq
  · have := hlast p hp
    have := hlast base List.mem_cons_self
    rw [hnext]
    omega
  have := hbetween p hp
  have := hplace _ hmem
  constructor
  · intro hstop
    omega
  · rintro rfl
    omega

theorem exists_place (hapart : (base :: l).Pairwise (Apart h)) (hbase : base < bp) (hbp : bp ∉ l) :
    ∃ xs p ys, base :: l = xs ++ p :: ys ∧ p < bp ∧ ∀ y ∈ ys, bp < y := by
  induction l generalizing base with
  | nil => exact ⟨[], base, [], rfl, hbase, List.forall_mem_nil _⟩
  | cons c l ih =>
    rw [List.pairwise_cons] at hapart
    rw [List.mem_cons, not_or] at hbp
    by_cases hc : bp < c
    · refine ⟨[], base, c :: l, rfl, hbase, fun y hy => ?_⟩
      obtain rfl | hy := List.mem_cons.mp hy
      · exact hc
      · exact hc.trans ((List.pairwise_cons.mp hapart.2).1 y hy).lt
    · obtain ⟨xs, p, ys, hsplit, hp, hys⟩ := ih hapart.2 (by omega) hbp.2
      exact ⟨base :: xs, p, ys, by rw [hsplit, List.cons_append], hp, hys⟩

theorem search_eq {t : List ℕ} {e : ℕ} (hseg : Seg h.ptr (q :: t) e) (hp : p ∈ q :: t)
    (hstops : ∀ x ∈ q :: t, stops h bp x = true ↔ x = p) {k : ℕ} (hk : t.length < k) :
    search h bp k q = some p := by
  induction t generalizing q k with
  | nil =>
    obtain ⟨k, rfl⟩ := Nat.exists_eq_succ_of_ne_zero (show k ≠ 0 by omega)
    rw [List.mem_singleton] at hp
    rw [search, if_pos ((hstops q List.mem_cons_self).mpr hp.symm), hp]
  | cons y t ih =>
    obtain ⟨k, rfl⟩ := Nat.exists_eq_succ_of_ne_zero (show k ≠ 0 by omega)
    rw [search]
    by_cases hqp : q = p
    · rw [if_pos ((hstops q List.mem_cons_self).mpr hqp), hqp]
    rw [if_neg fun hstop => hqp ((hstops q List.mem_cons_self).mp hstop), hseg.1]
    refine ih hseg.2 ((List.mem_cons.mp hp).resolve_left (Ne.symm hqp))
      (fun x hx => hstops x (List.mem_cons_of_mem q hx)) ?_
    rw [List.length_cons] at hk
    omega

theorem FreeList.search_spec (hlist : FreeList base h l) (hbase : base < bp) (hbp : bp ∉ l)
    (hlen : l.length + 1 < LOOPS) :
    ∃ xs p ys, base :: l = xs ++ p :: ys ∧ p < bp ∧ (∀ y ∈ ys, bp < y)
      ∧ search h bp LOOPS h.freep = some p := by
  obtain ⟨xs, p, ys, hsplit, hp, hys⟩ := exists_place hlist.apart hbase hbp
  refine ⟨xs, p, ys, hsplit, hp, hys, ?_⟩
  have hmem : p ∈ base :: l := by
    rw [hsplit]
    simp
  have hplace : ∀ x ∈ base :: l, x ≤ p ∨ bp < x := by
    intro x hx
    have hapart := hlist.apart
    rw [hsplit, List.pairwise_append] at hapart
    rw [hsplit, List.mem_append, List.mem_cons] at hx
    obtain hx | rfl | hx := hx
    · exact .inl (hapart.2.2 x hx p List.mem_cons_self).lt.le
    · exact .inl (Nat.le_refl x)
    · exact .inr (hys x hx)
  -- seen from `freep` the list is a circle that passes `p`
  obtain ⟨xs', ys', hrot⟩ := List.append_of_mem hlist.freep
  have hseg := hlist.seg
  rw [hrot] at hseg
  have hcircle := hseg.rotate (by rw [← hrot]; rfl)
  have hall : ∀ x, x ∈ h.freep :: (ys' ++ xs') ↔ x ∈ base :: l := by
    intro x
    rw [hrot]
    simp only [List.mem_cons, List.mem_append]
    tauto
  refine search_eq hcircle ((hall p).mpr hmem)
    (fun x hx => hlist.stops_iff hmem hp hplace hbase ((hall x).mp hx)) ?_
  have := congrArg List.length hrot
  simp only [List.length_cons, List.length_append] at this ⊢
  omega

/-! ## Merging -/

theorem card_blocks_pair {t : ℕ} (ht : t ∈ ts) :
    h.size q + h.size t ≤ (cells q (h.size q) + blocks h ts).card := by
  have hle := Multiset.card_le_card (le_blocks (h := h) ht)
  rw [card_cells] at hle
  rw [Multiset.card_add, card_cells]
  omega

theorem hdr_setHeader_of_ne {a : ℕ} (ha : a ≠ q) (x : Header) : (h.setHeader q x).hdr a = h.hdr a :=
  Function.update_of_ne ha ..

theorem ptr_eq_of_hdr {a : ℕ} (ha : h'.hdr a = h.hdr a) : h'.ptr a = h.ptr a := by
  rw [Heap.ptr, ha, Heap.ptr]

theorem size_eq_of_hdr {a : ℕ} (ha : h'.hdr a = h.hdr a) : h'.size a = h.size a := by
  rw [Heap.size, ha, Heap.size]

theorem apart_congr (hapart : ts.Pairwise (Apart h)) (hsize : ∀ t ∈ ts, h'.size t = h.size t) :
    ts.Pairwise (Apart h') := hapart.imp_of_mem fun {a b} ha _ hab => by rwa [Apart, hsize a ha]

theorem join_spec (hseg : Seg h.ptr ts base) (hapart : ts.Pairwise (Apart h))
    (hlt : ∀ t ∈ ts, q < t) (hle : ∀ t ∈ ts, q + UNIT * h.size q ≤ t)
    (hend : ts = [] → q + UNIT * h.size q ≠ base)
    (hcard : (cells q (h.size q) + blocks h ts).card < 2 ^ 32) :
    ∃ ts', ts' <:+ ts ∧ Seg (join h q (ts.headD base)).ptr (q :: ts') base
      ∧ (q :: ts').Pairwise (Apart (join h q (ts.headD base)))
      ∧ blocks (join h q (ts.headD base)) (q :: ts') = cells q (h.size q) + blocks h ts
      ∧ (∀ a, a ≠ q → (join h q (ts.headD base)).hdr a = h.hdr a)
      ∧ (∀ a, h.size a ≤ (join h q (ts.headD base)).size a)
      ∧ ∀ t ∈ q :: ts, ∃ t' ∈ q :: ts', h.size t ≤ (join h q (ts.headD base)).size t' := by
  have hne : ∀ t ∈ ts, t ≠ q := fun t ht => (hlt t ht).ne'
  by_cases hadj : q + UNIT * h.size q = ts.headD base
  · -- the next block is absorbed
    rcases ts with _ | ⟨y, ts⟩
    · exact absurd hadj (hend rfl)
    have hsum : uint (h.size q + h.size y) = h.size q + h.size y := by
      have hpair : h.size q + h.size y ≤ (cells q (h.size q) + blocks h (y :: ts)).card :=
        card_blocks_pair List.mem_cons_self
      exact Nat.mod_eq_of_lt (by omega)
    rw [List.pairwise_cons] at hapart
    rw [List.headD_cons] at hadj ⊢
    rw [join, if_pos hadj, hsum]
    have hhdr : ∀ a, a ≠ q →
        (h.setHeader q ⟨h.ptr y, h.size q + h.size y⟩).hdr a = h.hdr a :=
      fun a ha => hdr_setHeader_of_ne ha _
    have htail : ∀ t ∈ ts, t ≠ q := fun t ht => hne t (List.mem_cons_of_mem y ht)
    have hsize : (h.setHeader q ⟨h.ptr y, h.size q + h.size y⟩).size q = h.size q + h.size y := by
      rw [size_setHeader, if_pos rfl]
    refine ⟨ts, List.suffix_cons y ts, ⟨?_, ?_⟩, List.pairwise_cons.mpr ⟨?_, ?_⟩, ?_, hhdr, ?_, ?_⟩
    · rw [ptr_setHeader, if_pos rfl]
      exact hseg.1
    · exact hseg.2.congr fun t ht => ptr_eq_of_hdr (hhdr t (htail t ht))
    · intro t ht
      have := hapart.1 t ht
      unfold Apart at this ⊢
      rw [hsize, Nat.mul_add]
      omega
    · exact apart_congr hapart.2 fun t ht => size_eq_of_hdr (hhdr t (htail t ht))
    · rw [blocks_cons, hsize, cells_add, hadj, blocks_cons,
        blocks_congr fun t ht => size_eq_of_hdr (hhdr t (htail t ht)), add_assoc]
    · intro a
      by_cases ha : a = q
      · rw [ha, hsize]
        omega
      · exact (size_eq_of_hdr (hhdr a ha)).ge
    intro t ht
    rw [List.mem_cons, List.mem_cons] at ht
    obtain rfl | rfl | ht := ht
    · exact ⟨t, List.mem_cons_self, by rw [hsize]; omega⟩
    · exact ⟨q, List.mem_cons_self, by rw [hsize]; omega⟩
    · exact ⟨t, List.mem_cons_of_mem q ht, (size_eq_of_hdr (hhdr t (htail t ht))).ge⟩
  rw [join, if_neg hadj]
  have hhdr : ∀ a, a ≠ q → (h.setHeader q ⟨ts.headD base, h.size q⟩).hdr a = h.hdr a :=
    fun a ha => hdr_setHeader_of_ne ha _
  have hsize : ∀ a, (h.setHeader q ⟨ts.headD base, h.size q⟩).size a = h.size a := by
    intro a
    by_cases ha : a = q
    · rw [size_setHeader, if_pos ha, ha]
    · exact size_eq_of_hdr (hhdr a ha)
  refine ⟨ts, List.suffix_refl ts, ⟨?_, ?_⟩, List.pairwise_cons.mpr ⟨?_, ?_⟩, ?_, hhdr,
    fun a => (hsize a).ge, ?_⟩
  · rw [ptr_setHeader, if_pos rfl]
  · exact hseg.congr fun t ht => ptr_eq_of_hdr (hhdr t (hne t ht))
  · intro t ht
    rw [Apart, hsize]
    have hle' := hle t ht
    rcases ts with _ | ⟨y, ts⟩
    · exact absurd ht List.not_mem_nil
    rw [List.headD_cons] at hadj
    have hy := hle y List.mem_cons_self
    obtain rfl | ht := List.mem_cons.mp ht
    · omega
    · have := ((List.pairwise_cons.mp hapart).1 t ht).lt
      omega
  · exact apart_congr hapart fun t _ => hsize t
  · rw [blocks_cons, hsize, blocks_congr fun t _ => hsize t]
  · exact fun t ht => ⟨t, ht, (hsize t).ge⟩

theorem size_join_of_ne {y : ℕ} (hadj : q + UNIT * h.size q ≠ y) :
    (join h q y).size q = h.size q := by rw [join, if_neg hadj, size_setHeader, if_pos rfl]

theorem FreeList.free_spec (hlist : FreeList base h l) (hbase : base < bp) (hbp : bp ∉ l)
    (hbelow : ∀ a ∈ base :: l, a < bp → a + UNIT * h.size a ≤ bp)
    (habove : ∀ a ∈ l, bp < a → bp + UNIT * h.size bp ≤ a)
    (hcard : (cells bp (h.size bp) + blocks h l).card < 2 ^ 32) (hlen : l.length + 1 < LOOPS) :
    ∃ h' l', free h (bp + UNIT) = some h' ∧ FreeList base h' l' ∧ l' ⊆ bp :: l
      ∧ blocks h' l' = cells bp (h.size bp) + blocks h l
      ∧ (∀ a, a ∉ base :: l → a ≠ bp → h'.hdr a = h.hdr a) ∧ (∀ a, h.size a ≤ h'.size a)
      ∧ ∀ t ∈ bp :: l, ∃ t' ∈ base :: l', h.size t ≤ h'.size t' := by
  obtain ⟨xs, p, ys, hsplit, hp, hys, hsearch⟩ := hlist.search_spec hbase hbp hlen
  have hall := hlist.apart
  have hseg := hlist.seg
  rw [hsplit] at hall hseg
  rw [List.pairwise_append, List.pairwise_cons] at hall
  obtain ⟨hxs, ⟨hpys, hapart⟩, hcross⟩ := hall
  obtain ⟨hsegx, hnext, hsegy⟩ := seg_append.mp hseg
  have hblocks : blocks h l = blocks h xs + (cells p (h.size p) + blocks h ys) := by
    rw [← blocks_cons, ← blocks_append, ← hsplit, blocks_cons, hlist.base_size]
    simp [cells]
  have hmem : ∀ a, a ∈ xs ∨ a = p ∨ a ∈ ys → a ∈ base :: l := by
    intro a ha
    rwa [hsplit, List.mem_append, List.mem_cons]
  have hys_mem : ∀ y ∈ ys, y ∈ l := by
    intro y hy
    have := hys y hy
    exact (List.mem_cons.mp (hmem y (.inr (.inr hy)))).resolve_left (by omega)
  have hcard_l := hcard
  rw [hblocks, Multiset.card_add, Multiset.card_add, Multiset.card_add, card_cells, card_cells]
    at hcard_l
  -- first the block is linked to the rest of the list
  obtain ⟨ys', hsuffix, hseg1, hapart1, hblocks1, hhdr1, hmono1, hlarge1⟩ := join_spec (q := bp)
    hsegy hapart hys (fun y hy => habove y (hys_mem y hy) (hys y hy)) (fun _ => by omega)
    (by rw [Multiset.card_add, card_cells]; omega)
  rw [← hnext] at hseg1 hapart1 hblocks1 hhdr1 hmono1 hlarge1
  have hsize_p : (join h bp (h.ptr p)).size p = h.size p := size_eq_of_hdr (hhdr1 p (by omega))
  have hp_below := hbelow p (hmem p (.inr (.inl rfl))) hp
  -- then the block below it is linked to the block
  have hlt2 : ∀ t ∈ bp :: ys', p < t := by
    intro t ht
    obtain rfl | ht := List.mem_cons.mp ht
    · exact hp
    · exact hp.trans (hys t (hsuffix.subset ht))
  have hle2 : ∀ t ∈ bp :: ys', p + UNIT * (join h bp (h.ptr p)).size p ≤ t := by
    intro t ht
    rw [hsize_p]
    obtain rfl | ht := List.mem_cons.mp ht
    · exact hp_below
    · exact hp_below.trans (hys t (hsuffix.subset ht)).le
  obtain ⟨ts, hsuffix2, hseg2, hapart2, hblocks2, hhdr2, hmono2, hlarge2⟩ := join_spec (q := p)
    hseg1 hapart1 hlt2 hle2 (fun hnil => absurd hnil (List.cons_ne_nil _ _))
    (by rw [hblocks1, hsize_p, Multiset.card_add, Multiset.card_add, card_cells, card_cells]; omega)
  rw [List.headD_cons] at hseg2 hapart2 hblocks2 hhdr2 hmono2 hlarge2
  generalize hh2 : join (join h bp (h.ptr p)) p bp = h2
    at hseg2 hapart2 hblocks2 hhdr2 hmono2 hlarge2
  have hx_ne : ∀ x ∈ xs, x ≠ p ∧ x ≠ bp := by
    intro x hx
    have := (hcross x hx p List.mem_cons_self).lt
    omega
  have hhdr : ∀ a, a ≠ p → a ≠ bp → h2.hdr a = h.hdr a := fun a hap habp =>
    (hhdr2 a hap).trans (hhdr1 a habp)
  have hhdr_x : ∀ x ∈ xs, h2.hdr x = h.hdr x := fun x hx => hhdr x (hx_ne x hx).1 (hx_ne x hx).2
  obtain ⟨l', hl'⟩ : ∃ l', base :: l' = xs ++ p :: ts := by
    rcases xs with _ | ⟨x, xs⟩
    · exact ⟨ts, by rw [List.nil_append, (List.cons.inj hsplit).1]⟩
    · exact ⟨xs ++ p :: ts, by rw [List.cons_append, (List.cons.inj hsplit).1]⟩
  have hbase_size : h2.size base = 0 := by
    by_cases hbp' : base = p
    · rw [← hh2, hbp', size_join_of_ne, hsize_p, ← hbp', hlist.base_size]
      rw [hsize_p, ← hbp', hlist.base_size]
      omega
    · rw [size_eq_of_hdr (hhdr base hbp' (by omega)), hlist.base_size]
  have hlist' : FreeList base { h2 with freep := p } l' := by
    refine ⟨?_, ?_, by rw [hl']; simp, hbase_size⟩
    · rw [hl']
      exact seg_append.mpr ⟨hsegx.congr fun x hx => ptr_eq_of_hdr (hhdr_x x hx), hseg2⟩
    rw [hl', List.pairwise_append]
    refine ⟨apart_congr hxs fun x hx => size_eq_of_hdr (hhdr_x x hx), hapart2,
      fun x hx t ht => ?_⟩
    have hxp := hcross x hx p List.mem_cons_self
    unfold Apart at hxp ⊢
    rw [show Heap.size { h2 with freep := p } x = h.size x from size_eq_of_hdr (hhdr_x x hx)]
    obtain rfl | ht := List.mem_cons.mp ht
    · exact hxp
    · exact hxp.trans ((List.pairwise_cons.mp hapart2).1 t ht).lt
  have hin : ∀ a, a ∈ base :: l' ↔ a ∈ xs ∨ a ∈ p :: ts := by
    intro a
    rw [hl', List.mem_append]
  refine ⟨{ h2 with freep := p }, l', ?_, hlist', ?_, ?_, ?_,
    fun a => (hmono1 a).trans (hmono2 a), ?_⟩
  · rw [free, Nat.add_sub_cancel, hsearch, Option.map_some, hh2]
  · intro a ha
    have hlt := ((List.pairwise_cons.mp hlist'.apart).1 a ha).lt
    rw [List.mem_cons]
    obtain hx | ht := (hin a).mp (List.mem_cons_of_mem base ha)
    · exact .inr ((List.mem_cons.mp (hmem a (.inl hx))).resolve_left (by omega))
    obtain rfl | ht := List.mem_cons.mp ht
    · exact .inr ((List.mem_cons.mp (hmem a (.inr (.inl rfl)))).resolve_left (by omega))
    · obtain rfl | ht := List.mem_cons.mp (hsuffix2.subset ht)
      · exact .inl rfl
      · exact .inr (hys_mem a (hsuffix.subset ht))
  · calc blocks { h2 with freep := p } l'
        = blocks h2 (base :: l') := by rw [blocks_cons, hbase_size]; simp [cells, blocks]; rfl
      _ = blocks h xs + (cells p (h.size p) + (cells bp (h.size bp) + blocks h ys)) := by
          rw [hl', blocks_append, hblocks2, hblocks1, hsize_p,
            blocks_congr fun x hx => size_eq_of_hdr (hhdr_x x hx)]
      _ = cells bp (h.size bp) + blocks h l := by
          rw [hblocks]
          abel
  · intro a ha habp
    exact hhdr a (fun hap => ha (hmem a (.inr (.inl hap)))) habp
  -- a block keeps its size or is part of a larger one
  have hlater : ∀ t ∈ p :: bp :: ys', ∃ t' ∈ base :: l',
      (join h bp (h.ptr p)).size t ≤ h2.size t' := by
    intro t ht
    obtain ⟨t', ht', hle⟩ := hlarge2 t ht
    exact ⟨t', (hin t').mpr (.inr ht'), hle⟩
  have hrest : ∀ t ∈ bp :: ys, ∃ t' ∈ base :: l', h.size t ≤ h2.size t' := by
    intro t ht
    obtain ⟨t1, ht1, hle1⟩ := hlarge1 t ht
    obtain ⟨t', ht', hle'⟩ := hlater t1 (List.mem_cons_of_mem p ht1)
    exact ⟨t', ht', hle1.trans hle'⟩
  intro t ht
  obtain rfl | ht := List.mem_cons.mp ht
  · exact hrest t List.mem_cons_self
  have htl : t ∈ xs ++ p :: ys := by
    rw [← hsplit]
    exact List.mem_cons_of_mem base ht
  obtain hx | hpy := List.mem_append.mp htl
  · exact ⟨t, (hin t).mpr (.inl hx), (size_eq_of_hdr (hhdr_x t hx)).ge⟩
  obtain rfl | hy := List.mem_cons.mp hpy
  · obtain ⟨t', ht', hle'⟩ := hlater t List.mem_cons_self
    exact ⟨t', ht', hsize_p ▸ hle'⟩
  · exact hrest t (List.mem_cons_of_mem bp hy)

end Xv6.Umalloc

import Xv6.Vm.Table

/-!
# Page tables in memory

The other modules see a page table as a tree. Here it is what `vm.c` works on: words in physical
memory, found by shifts and masks.

## Main results

* `page_table_map`: the radix tree is a finite map from pages to entries
-/

namespace Xv6.Vm.Sv39

open Hoare Function Option

/-! ## Entries and addresses -/

def PTE_V : ℕ := 1 <<< 0

def pa2pte (pa : ℕ) : ℕ := (pa >>> 12) <<< 10

def pte2pa (pte : ℕ) : ℕ := u64 ((pte >>> 10) <<< 12)

def pteFlags (pte : ℕ) : ℕ := pte &&& 0x3FF

def PX (level va : ℕ) : ℕ := (va >>> (12 + 9 * level)) &&& 0x1FF

/-- Memory: the 64-bit words by their address, and `kmem.freelist` by the addresses of the pages. -/
structure Phys where
  word : ℕ → ℕ
  free : List ℕ

abbrev PhysM (α : Type) := Prog Phys Halt α

def fill (word : ℕ → ℕ) (p v : ℕ) : ℕ → ℕ := fun a => if p ≤ a ∧ a < p + PGSIZE then v else word a

def memset (p : ℕ) : PhysM Unit := modify fun s => { s with word := fill s.word p 0 }

def store (a v : ℕ) : PhysM Unit := modify fun s => { s with word := update s.word a v }

def JUNK_ALLOC : ℕ := 0x0505050505050505

def JUNK_FREE : ℕ := 0x0101010101010101

def kalloc : PhysM (Option ℕ) := do
  let s ← get
  match s.free with
  | [] => pure none
  | p :: free => do
    set { word := fill s.word p JUNK_ALLOC, free := free : Phys }
    pure (some p)

variable (ly : Layout)

def kfree (pa : ℕ) : PhysM Unit :=
  if pa % PGSIZE ≠ 0 ∨ pa < ly.first * PGSIZE ∨ ly.stop * PGSIZE ≤ pa then throw (.panic "kfree")
  else modify fun s => { word := fill s.word pa JUNK_FREE, free := pa :: s.free }

/-! ## The code of `vm.c` -/

def walkLevel (pagetable i : ℕ) (alloc : Bool) : PhysM (Option ℕ) := do
  let s ← get
  let pte := pagetable + 8 * i
  if s.word pte &&& PTE_V ≠ 0 then pure (some (pte2pa (s.word pte)))
  else if alloc = false then pure none
  else do
    match ← kalloc with
    | none => pure none
    | some p => do
      memset p
      store pte (pa2pte p ||| PTE_V)
      pure (some p)

def walkLoop (va : ℕ) (alloc : Bool) : ℕ → ℕ → PhysM (Option ℕ)
  | 0, pagetable => pure (some (pagetable + 8 * PX 0 va))
  | level + 1, pagetable => do
    match ← walkLevel pagetable (PX (level + 1) va) alloc with
    | none => pure none
    | some p => walkLoop va alloc level p

/-- Return the address of the entry in page table `pagetable` that corresponds to virtual address
`va`; with `alloc`, create the required page-table pages. -/
def walk (pagetable va : ℕ) (alloc : Bool) : PhysM (Option ℕ) :=
  if va ≥ MAXVA then throw (.panic "walk") else walkLoop va alloc 2 pagetable

def mappagesLoop (pagetable perm last : ℕ) : ℕ → ℕ → ℕ → PhysM Bool
  | 0, _, _ => pure true
  | n + 1, a, pa => do
    match ← walk pagetable a true with
    | none => pure false
    | some pte => do
      let s ← get
      if s.word pte &&& PTE_V ≠ 0 then throw (.panic "mappages: remap")
      else do
        store pte (pa2pte pa ||| perm ||| PTE_V)
        if a = last then pure true
        else mappagesLoop pagetable perm last n (u64 (a + PGSIZE)) (u64 (pa + PGSIZE))

/-- Create entries for virtual addresses starting at `va` that refer to physical addresses starting
at `pa`. -/
def mappages (pagetable va size pa perm : ℕ) : PhysM Bool :=
  if va % PGSIZE ≠ 0 then throw (.panic "mappages: va not aligned")
  else if size % PGSIZE ≠ 0 then throw (.panic "mappages: size not aligned")
  else if size = 0 then throw (.panic "mappages: size")
  else mappagesLoop pagetable perm (u64 (va + size + (2 ^ 64 - PGSIZE))) (size / PGSIZE) va pa

def freeIf (doFree : Bool) (pa : ℕ) : PhysM Unit := if doFree then kfree ly pa else pure ()

def uvmunmapLoop (pagetable : ℕ) (doFree : Bool) : ℕ → ℕ → PhysM Unit
  | 0, _ => pure ()
  | n + 1, a => do
    match ← walk pagetable a false with
    | none => uvmunmapLoop pagetable doFree n (a + PGSIZE)
    | some pte => do
      let s ← get
      if s.word pte &&& PTE_V = 0 then uvmunmapLoop pagetable doFree n (a + PGSIZE)
      else do
        freeIf ly doFree (pte2pa (s.word pte))
        store pte 0
        uvmunmapLoop pagetable doFree n (a + PGSIZE)

def uvmunmap (pagetable va npages : ℕ) (doFree : Bool) : PhysM Unit :=
  if va % PGSIZE ≠ 0 then throw (.panic "uvmunmap: not aligned")
  else uvmunmapLoop ly pagetable doFree npages va

/-! ## Arithmetic of entries -/

theorem PX_eq (level va : ℕ) : PX level va = px level va := by
  have hmask : (0x1FF : ℕ) = 2 ^ 9 - 1 := rfl
  have hpow : PGSIZE * 512 ^ level = 2 ^ (12 + 9 * level) := by
    rw [Nat.pow_add, Nat.pow_mul]
    rfl
  rw [PX, hmask, Nat.and_two_pow_sub_one_eq_mod, Nat.shiftRight_eq_div_pow, ← hpow]
  rfl

theorem valid_or (x : ℕ) : (x ||| PTE_V) &&& PTE_V ≠ 0 := by
  have hbit : ((x ||| PTE_V) &&& PTE_V).testBit 0 = true := by
    rw [Nat.testBit_and, Nat.testBit_or]
    simp [PTE_V]
  intro hzero
  rw [hzero] at hbit
  simp at hbit

theorem pte2pa_or {pa flags : ℕ} (hpa : pa < 2 ^ 64) (hflags : flags < 2 ^ 10) :
    pte2pa (pa2pte pa ||| flags) = pa / PGSIZE * PGSIZE := by
  have hshift : (pa2pte pa ||| flags) >>> 10 = pa >>> 12 := by
    rw [Nat.shiftRight_or_distrib, pa2pte, Nat.shiftLeft_shiftRight,
      Nat.shiftRight_eq_div_pow flags, Nat.div_eq_of_lt hflags, Nat.or_zero]
  rw [pte2pa, hshift, Nat.shiftLeft_eq, Nat.shiftRight_eq_div_pow, u64]
  have hsize : PGSIZE = 2 ^ 12 := rfl
  rw [hsize]
  refine Nat.mod_eq_of_lt ?_
  omega

theorem pteFlags_or {pa flags : ℕ} (hflags : flags < 2 ^ 10) :
    pteFlags (pa2pte pa ||| flags) = flags := by
  have hmask : (0x3FF : ℕ) = 2 ^ 10 - 1 := rfl
  rw [pteFlags, hmask, Nat.and_two_pow_sub_one_eq_mod, pa2pte, Nat.shiftLeft_eq, Nat.mul_comm,
    ← Nat.two_pow_add_eq_or_of_lt hflags]
  omega

theorem or_lt {perm : ℕ} (h : perm < 2 ^ 10) : perm ||| PTE_V < 2 ^ 10 :=
  Nat.or_lt_two_pow h (by decide)

/-! ## Nodes -/

/-- The pages of a page table, by the path from the root. -/
inductive Node
  | root
  | mid (i : Fin 512)
  | low (i j : Fin 512)
  deriving DecidableEq

def Node.child : Node → Fin 512 → Option Node
  | .root, i => some (.mid i)
  | .mid i, j => some (.low i j)
  | .low _ _, _ => none

def pointee (w : ℕ) : Option ℕ := if w &&& PTE_V ≠ 0 then some (pte2pa w) else none

def decode (w : ℕ) : Option ℕ := if w &&& PTE_V ≠ 0 then some w else none

@[simp] theorem pointee_zero : pointee 0 = none := by simp [pointee]

@[simp] theorem decode_zero : decode 0 = none := by simp [decode]

def page (word : ℕ → ℕ) (r : ℕ) : Node → Option ℕ
  | .root => some r
  | .mid i => pointee (word (r + 8 * i))
  | .low i j => (pointee (word (r + 8 * i))).bind fun m => pointee (word (m + 8 * j))

def lowNode (va : ℕ) : Node := .low (px 2 va) (px 1 va)

def leafAt (word : ℕ → ℕ) (r va : ℕ) : Option ℕ :=
  (page word r (lowNode va)).bind fun l => decode (word (l + 8 * px 0 va))

/-- The pages of a page table are aligned, and each is reached once. -/
structure Tree (r : ℕ) (word : ℕ → ℕ) : Prop where
  inj : ∀ n n' p, page word r n = some p → page word r n' = some p → n = n'
  aligned : ∀ n p, page word r n = some p → p % PGSIZE = 0

/-- A well-formed page table: its pages are pairwise distinct and not on the free list. -/
structure Wf (r : ℕ) (s : Phys) : Prop extends Tree r s.word where
  fresh : ∀ p ∈ s.free, ∀ n, page s.word r n ≠ some p
  free : ∀ p ∈ s.free, p % PGSIZE = 0 ∧ p < 2 ^ 56
  nodup : s.free.Nodup

variable {r : ℕ} {s : Phys} {word word' : ℕ → ℕ} {E : Halt → Prop}

theorem slot_inj {p q : ℕ} {i j : Fin 512} (hp : p % PGSIZE = 0) (hq : q % PGSIZE = 0)
    (h : p + 8 * i.val = q + 8 * j.val) : p = q ∧ i = j := by
  unfold PGSIZE at *
  have hi := i.isLt
  have hj := j.isLt
  refine ⟨by omega, Fin.ext (by omega)⟩

theorem fill_slot {p q v : ℕ} {i : Fin 512} (hp : p % PGSIZE = 0) (hq : q % PGSIZE = 0) :
    fill word p v (q + 8 * i) = if q = p then v else word (q + 8 * i) := by
  unfold fill
  have hi := i.isLt
  by_cases h : q = p
  · rw [if_pos h, if_pos]
    unfold PGSIZE at *
    omega
  · rw [if_neg h, if_neg]
    unfold PGSIZE at *
    omega

theorem page_attach {n c : Node} {e : Fin 512} {q p w : ℕ} (hn : page word r n = some q)
    (hc : n.child e = some c) (hempty : page word r c = none) (hw : pointee w = some p)
    (hentry : word' (q + 8 * e) = w) (hzero : ∀ k : Fin 512, word' (p + 8 * k) = 0)
    (hsame : ∀ n' p', page word r n' = some p' → ∀ k : Fin 512, (n', k) ≠ (n, e) →
      word' (p' + 8 * k) = word (p' + 8 * k)) : page word' r = update (page word r) c (some p) ∧
      leafAt word' r = leafAt word r := by
  have hroot : ∀ k : Fin 512, (Node.root, k) ≠ (n, e) → word' (r + 8 * k) = word (r + 8 * k) :=
    hsame .root r rfl
  have hpage : page word' r = update (page word r) c (some p) := by
    funext x
    cases x with
    | root =>
      have hne : Node.root ≠ c := by
        rintro rfl
        cases n <;> simp [Node.child] at hc
      rw [update_of_ne hne]
      rfl
    | mid i =>
      by_cases hi : (Node.root, i) = (n, e)
      · cases hi
        cases hc
        cases hn
        rw [update_self, page, hentry, hw]
      have hne : Node.mid i ≠ c := by
        rintro rfl
        cases n with
        | root =>
          cases hc
          exact hi rfl
        | mid i' => cases hc
        | low i' j' => cases hc
      rw [update_of_ne hne, page, page, hroot i hi]
    | low i j =>
      rcases hm : page word r (.mid i) with _ | m
      · -- There was no page between, and the new one, if it is that, has no entries.
        have hnone : page word r (.low i j) = none := by
          simp only [page] at hm ⊢
          rw [hm]
          rfl
        have hne : Node.low i j ≠ c := by
          rintro rfl
          cases n with
          | root => cases hc
          | mid i' =>
            cases hc
            rw [hm] at hn
            cases hn
          | low i' j' => cases hc
        rw [update_of_ne hne, hnone]
        by_cases hi : (Node.root, i) = (n, e)
        · cases hi
          cases hn
          simp only [page]
          rw [hentry, hw, bind_some, hzero j, pointee_zero]
        · simp only [page] at hm ⊢
          rw [hroot i hi, hm]
          rfl
      have hi : (Node.root, i) ≠ (n, e) := by
        intro hi
        cases hi
        cases hc
        rw [hm] at hempty
        cases hempty
      have hmid : pointee (word' (r + 8 * i)) = some m := by
        rw [hroot i hi]
        exact hm
      by_cases hj : (Node.mid i, j) = (n, e)
      · cases hj
        cases hc
        rw [hm] at hn
        cases hn
        rw [update_self]
        simp only [page]
        rw [hmid, bind_some, hentry, hw]
      have hne : Node.low i j ≠ c := by
        rintro rfl
        cases n with
        | root => cases hc
        | mid i' =>
          cases hc
          exact hj rfl
        | low i' j' => cases hc
      rw [update_of_ne hne]
      simp only [page] at hm ⊢
      rw [hmid, hm, bind_some, bind_some, hsame (.mid i) m hm j hj]
  refine ⟨hpage, funext fun va => ?_⟩
  unfold leafAt
  rw [hpage]
  by_cases hlow : lowNode va = c
  · rw [hlow, update_self, hempty, bind_some, hzero, decode_zero]
    rfl
  rw [update_of_ne hlow]
  rcases hl : page word r (lowNode va) with _ | l
  · rfl
  rw [bind_some, bind_some, hsame _ l hl]
  intro heq
  cases heq
  cases hc

/-- **A store to an entry of the lowest level** changes the map at one page, and no node. -/
theorem page_store (h : Tree r word) {i j k : Fin 512} {l w : ℕ}
    (hl : page word r (.low i j) = some l) : page (update word (l + 8 * k) w) r = page word r ∧
      ∀ va, leafAt (update word (l + 8 * k) w) r va =
        if px 2 va = i ∧ px 1 va = j ∧ px 0 va = k then decode w else leafAt word r va := by
  have hother : ∀ n p, page word r n = some p → ∀ e : Fin 512, (n, e) ≠ (.low i j, k) →
      update word (l + 8 * k) w (p + 8 * e) = word (p + 8 * e) := by
    intro n p hp e hne
    refine update_of_ne (fun heq => hne ?_) ..
    obtain ⟨rfl, rfl⟩ := slot_inj (h.aligned n p hp) (h.aligned _ l hl) heq
    rw [h.inj n _ p hp hl]
  have hpage : page (update word (l + 8 * k) w) r = page word r := by
    funext x
    cases x with
    | root => rfl
    | mid i' =>
      simp only [page]
      rw [hother .root r rfl i' (by simp)]
    | low i' j' =>
      simp only [page]
      rw [hother .root r rfl i' (by simp)]
      rcases hm : pointee (word (r + 8 * i')) with _ | m
      · rfl
      · rw [bind_some, bind_some, hother (.mid i') m hm j' (by simp)]
  refine ⟨hpage, fun va => ?_⟩
  unfold leafAt
  rw [hpage]
  split
  · next heq =>
    obtain ⟨h2, h1, h0⟩ := heq
    rw [lowNode, h2, h1, h0, hl, bind_some, update_self]
  next hne =>
  rcases hl' : page word r (lowNode va) with _ | l'
  · rfl
  rw [bind_some, bind_some, hother _ l' hl']
  intro heq
  simp only [lowNode, Prod.mk.injEq, Node.low.injEq] at heq
  exact hne ⟨heq.1.1, heq.1.2, heq.2⟩

theorem Wf.store (h : Wf r s) {i j k : Fin 512} {l w : ℕ}
    (hl : page s.word r (.low i j) = some l) :
    Wf r { s with word := update s.word (l + 8 * k) w } := by
  have hpage := (page_store h.toTree (k := k) (w := w) hl).1
  refine ⟨⟨?_, ?_⟩, ?_, h.free, h.nodup⟩
  · rw [hpage]
    exact h.inj
  · rw [hpage]
    exact h.aligned
  · rw [hpage]
    exact h.fresh

/-! ## walk -/

theorem wp_kalloc {Q : Option ℕ → Phys → Prop} (hnone : s.free = [] → Q none s)
    (hsome : ∀ p free, s.free = p :: free →
      Q (some p) ⟨fill s.word p JUNK_ALLOC, free⟩) : Wp kalloc s Q E := by
  refine Wp.get_seq ?_
  rcases hfree : s.free with _ | ⟨p, free⟩
  · exact hnone hfree
  · exact hsome p free hfree

/-- What a call that may add nodes does: the nodes there were stay, and so does the map. -/
structure Extends (r : ℕ) (s s' : Phys) : Prop where
  wf : Wf r s'
  leaf : leafAt s'.word r = leafAt s.word r
  page : ∀ n p, page s.word r n = some p → page s'.word r n = some p

theorem Extends.refl (h : Wf r s) : Extends r s s := ⟨h, rfl, fun _ _ hp => hp⟩

theorem Extends.trans {s' s'' : Phys} (h : Extends r s s') (h' : Extends r s' s'') :
    Extends r s s'' := ⟨h'.wf, h'.leaf.trans h.leaf, fun n p hp => h'.page n p (h.page n p hp)⟩

theorem walkLevel_spec (h : Wf r s) {n c : Node} {e : Fin 512} {q : ℕ}
    (hn : page s.word r n = some q) (hc : n.child e = some c)
    (hpage : page s.word r c = pointee (s.word (q + 8 * e))) (alloc : Bool) :
    Wp (walkLevel q e alloc) s (fun o s' => Extends r s s' ∧
      (∀ p, o = some p → page s'.word r c = some p) ∧
      (o = none → page s.word r c = none ∧ (alloc = true → s.free = [])) ∧
      (alloc = false → s' = s)) E := by
  refine Wp.get_seq ?_
  dsimp only
  split
  · next hvalid =>
    have hsome : page s.word r c = some (pte2pa (s.word (q + 8 * e))) := by
      rw [hpage, pointee, if_pos hvalid]
    exact ⟨.refl h, fun p hp => by rw [hsome, hp], by simp, fun _ => rfl⟩
  next hvalid =>
  have hnone : page s.word r c = none := by rw [hpage, pointee, if_neg hvalid]
  split
  · next halloc => exact ⟨.refl h, by simp, fun _ => ⟨hnone, by simp [halloc]⟩, fun _ => rfl⟩
  next halloc =>
  refine wp_bind.mpr (wp_kalloc (fun hfree => ?_) fun p free hfree => ?_)
  · exact ⟨.refl h, by simp, fun _ => ⟨hnone, fun _ => hfree⟩, fun _ => rfl⟩
  have hp := h.free p (by simp [hfree])
  have hqa := h.aligned n q hn
  have hpq : ∀ n' p', page s.word r n' = some p' → p' ≠ p := by
    rintro n' p' hp' rfl
    exact h.fresh p' (by simp [hfree]) n' hp'
  refine Wp.modify_seq ?_
  refine Wp.modify_seq ?_
  set word' := update (fill (fill s.word p JUNK_ALLOC) p 0) (q + 8 * e)
    (pa2pte p ||| PTE_V) with hword'
  have hpointee : pointee (pa2pte p ||| PTE_V) = some p := by
    rw [pointee, if_pos (valid_or _), pte2pa_or (by omega) (by decide)]
    rw [Nat.div_mul_cancel (Nat.dvd_of_mod_eq_zero hp.1)]
  have hfill : ∀ q' (k : Fin 512), q' % PGSIZE = 0 → (q' + 8 * k.val ≠ q + 8 * e.val) →
      word' (q' + 8 * k) = if q' = p then 0 else s.word (q' + 8 * k) := by
    intro q' k hq' hne
    rw [hword', update_of_ne hne, fill_slot hp.1 hq', fill_slot hp.1 hq']
    split <;> rfl
  have hentry : word' (q + 8 * e) = pa2pte p ||| PTE_V := by rw [hword', update_self]
  obtain ⟨hpages, hleaf⟩ := page_attach hn hc hnone hpointee hentry
    (fun k => by
      rw [hfill p k hp.1 fun heq => hpq n q hn (slot_inj hp.1 hqa heq).1.symm, if_pos rfl])
    (fun n' p' hp' k hne => by
      rw [hfill p' k (h.aligned n' p' hp') fun heq => hne ?_, if_neg (hpq n' p' hp')]
      obtain ⟨rfl, rfl⟩ := slot_inj (h.aligned n' p' hp') hqa heq
      rw [h.inj n' n p' hp' hn])
  have hcases : ∀ n' p', page word' r n' = some p' →
      (n' = c ∧ p' = p) ∨ (n' ≠ c ∧ page s.word r n' = some p') := by
    intro n' p' hp'
    rw [hpages] at hp'
    by_cases hnc : n' = c
    · rw [hnc, update_self, some.injEq] at hp'
      exact .inl ⟨hnc, hp'.symm⟩
    · rw [update_of_ne hnc] at hp'
      exact .inr ⟨hnc, hp'⟩
  have hnodup := h.nodup
  rw [hfree, List.nodup_cons] at hnodup
  have hwf : Wf r { word := word', free := free } := by
    refine ⟨⟨?inj, ?aligned⟩, ?fresh, ?free, ?nodup⟩
    case inj =>
      intro n1 n2 p1 h1 h2
      rcases hcases n1 p1 h1 with ⟨hn1, hp1⟩ | ⟨-, hp1⟩
      · rcases hcases n2 p1 h2 with ⟨hn2, -⟩ | ⟨-, hp2⟩
        · rw [hn1, hn2]
        · exact absurd hp1 (hpq n2 p1 hp2)
      · rcases hcases n2 p1 h2 with ⟨-, hp2⟩ | ⟨-, hp2⟩
        · exact absurd hp2 (hpq n1 p1 hp1)
        · exact h.inj n1 n2 p1 hp1 hp2
    case aligned =>
      intro n' p' hp'
      rcases hcases n' p' hp' with ⟨-, rfl⟩ | ⟨-, hp''⟩
      · exact hp.1
      · exact h.aligned n' p' hp''
    case fresh =>
      intro p' hp' n' hn'
      rcases hcases n' p' hn' with ⟨-, rfl⟩ | ⟨-, hp''⟩
      · exact hnodup.1 hp'
      · exact h.fresh p' (by rw [hfree]; exact List.mem_cons_of_mem _ hp') n' hp''
    case free =>
      intro p' hp'
      exact h.free p' (by rw [hfree]; exact List.mem_cons_of_mem _ hp')
    case nodup => exact hnodup.2
  refine ⟨⟨hwf, hleaf, fun n' p' hp' => ?_⟩, fun p' hp' => ?_, by simp,
    fun hf => absurd hf halloc⟩
  · have hnc : n' ≠ c := by
      rintro rfl
      rw [hnone] at hp'
      cases hp'
    change page word' r n' = some p'
    rw [hpages, update_of_ne hnc]
    exact hp'
  · cases hp'
    change page word' r c = some p
    rw [hpages, update_self]

/-- **`walk`** finds the entry for an address; with `alloc` it may add nodes on the way. -/
theorem walk_spec (h : Wf r s) {va : ℕ} (hva : va < MAXVA) (alloc : Bool) :
    Wp (walk r va alloc) s (fun o s' => Extends r s s' ∧
      (∀ a, o = some a → ∃ l, page s'.word r (lowNode va) = some l ∧ a = l + 8 * px 0 va) ∧
      (o = none → page s.word r (lowNode va) = none) ∧ (alloc = false → s' = s)) E := by
  rw [walk, if_neg (by omega), walkLoop, PX_eq]
  refine (walkLevel_spec h (n := .root) rfl rfl rfl alloc).seq ?_
  rintro o s1 ⟨hext1, hsome1, hnone1, hsame1⟩
  rcases o with _ | m
  · refine ⟨hext1, by simp, fun _ => ?_, hsame1⟩
    have hmid := (hnone1 rfl).1
    simp only [page] at hmid
    simp only [lowNode, page]
    rw [hmid]
    rfl
  have hm := hsome1 m rfl
  have hlow : page s1.word r (lowNode va) = pointee (s1.word (m + 8 * px 1 va)) := by
    simp only [page] at hm
    simp only [lowNode, page]
    rw [hm, bind_some]
  dsimp only
  rw [walkLoop, PX_eq]
  refine (walkLevel_spec hext1.wf (c := lowNode va) hm rfl hlow alloc).seq ?_
  rintro o s2 ⟨hext2, hsome2, hnone2, hsame2⟩
  rcases o with _ | l
  · refine ⟨hext1.trans hext2, by simp, fun _ => ?_, fun ha => ?_⟩
    · rcases hp : page s.word r (lowNode va) with _ | p
      · rfl
      · have := hext1.page _ p hp
        rw [(hnone2 rfl).1] at this
        cases this
    · rw [hsame2 ha, hsame1 ha]
  refine ⟨hext1.trans hext2, fun a ha => ⟨l, hsome2 l rfl, ?_⟩, by simp, fun ha => ?_⟩
  · cases ha
    rw [PX_eq]
  · rw [hsame2 ha, hsame1 ha]

theorem walkLevel_find (s : Phys) (q : ℕ) (i : Fin 512) :
    Wp (walkLevel q i false) s (fun o s' => s' = s ∧ o = pointee (s.word (q + 8 * i))) E := by
  refine Wp.get_seq ?_
  dsimp only
  rw [pointee]
  split
  · exact ⟨rfl, rfl⟩
  · exact ⟨rfl, rfl⟩

theorem walk_find (s : Phys) (r : ℕ) {va : ℕ} (hva : va < MAXVA) :
    Wp (walk r va false) s (fun o s' => s' = s ∧
      o = (page s.word r (lowNode va)).map (· + 8 * (px 0 va).val)) E := by
  rw [walk, if_neg (by omega), walkLoop, PX_eq]
  refine (walkLevel_find s r (px 2 va)).seq ?_
  rintro o s1 ⟨rfl, rfl⟩
  simp only [lowNode, page]
  rcases pointee (s1.word (r + 8 * (px 2 va).val)) with _ | m
  · exact ⟨rfl, rfl⟩
  dsimp only
  rw [walkLoop, PX_eq, bind_some]
  refine (walkLevel_find s1 m (px 1 va)).seq ?_
  rintro o s2 ⟨rfl, rfl⟩
  rcases pointee (s2.word (m + 8 * (px 1 va).val)) with _ | l
  · exact ⟨rfl, rfl⟩
  · dsimp only
    rw [walkLoop, PX_eq]
    exact ⟨rfl, rfl⟩

theorem px_iff {va a : ℕ} (hva : va < MAXVA) (ha : a < MAXVA) :
    (px 2 va = px 2 a ∧ px 1 va = px 1 a ∧ px 0 va = px 0 a) ↔ va / PGSIZE = a / PGSIZE := by
  constructor
  · rintro ⟨h2, h1, h0⟩
    refine eq_of_px (by unfold MAXVA PGSIZE at *; omega) (by unfold MAXVA PGSIZE at *; omega) ?_
    intro level hl
    rw [← px_div, ← px_div]
    interval_cases level
    exacts [h0, h1, h2]
  · intro heq
    rw [px_div 2 va, px_div 1 va, px_div 0 va, heq, ← px_div, ← px_div, ← px_div]
    exact ⟨rfl, rfl, rfl⟩

/-! ## mappages -/

def leafEntry (pa perm : ℕ) : ℕ := pa2pte pa ||| perm ||| PTE_V

theorem decode_leafEntry (pa perm : ℕ) : decode (leafEntry pa perm) = some (leafEntry pa perm) :=
  if_pos (valid_or _)

def InRange (a n va : ℕ) : Prop := a / PGSIZE ≤ va / PGSIZE ∧ va / PGSIZE < a / PGSIZE + n

theorem leafAt_of_page {va l : ℕ} (hl : page word r (lowNode va) = some l) :
    leafAt word r va = decode (word (l + 8 * px 0 va)) := by rw [leafAt, hl, bind_some]

theorem map_round {a w : ℕ} {rest : PhysM Bool} {Q : Bool → Phys → Prop} (h : Wf r s)
    (ha : a < MAXVA) (hfail : ∀ s', Extends r s s' → Q false s')
    (hremap : leafAt s.word r a ≠ none → E (.panic "mappages: remap"))
    (hrest : ∀ s', Wf r s' → (∀ va < MAXVA, leafAt s'.word r va =
      if va / PGSIZE = a / PGSIZE then decode w else leafAt s.word r va) → Wp rest s' Q E) :
    Wp (do
      match ← walk r a true with
      | none => pure false
      | some pte => do
        let s ← get
        if s.word pte &&& PTE_V ≠ 0 then throw (.panic "mappages: remap")
        else do
          store pte w
          rest) s Q E := by
  refine (walk_spec h ha true).seq ?_
  rintro o s1 ⟨hext, hsome, -, -⟩
  rcases o with _ | pte
  · exact hfail s1 hext
  obtain ⟨l, hl, rfl⟩ := hsome pte rfl
  refine Wp.get_seq ?_
  split
  · next hvalid =>
    refine hremap ?_
    rw [← hext.leaf, leafAt_of_page hl, decode, if_pos hvalid]
    simp
  refine Wp.modify_seq (hrest _ (hext.wf.store hl) fun va hva => ?_)
  change leafAt (update s1.word (l + 8 * px 0 a) w) r va = _
  rw [(page_store hext.wf.toTree hl).2, hext.leaf]
  simp only [px_iff hva ha]

theorem mappagesLoop_spec {n a pa perm : ℕ} (h : Wf r s) (ha : a + (n + 1) * PGSIZE ≤ MAXVA)
    (hpa : pa + n * PGSIZE < 2 ^ 64) :
    Wp (mappagesLoop r perm (a + n * PGSIZE) (n + 1) a pa) s (fun ok s' => Wf r s' ∧
      ∀ va < MAXVA, (¬ InRange a (n + 1) va → leafAt s'.word r va = leafAt s.word r va) ∧
        (ok = true → InRange a (n + 1) va → leafAt s'.word r va =
          some (leafEntry (pa + (va / PGSIZE - a / PGSIZE) * PGSIZE) perm)))
      fun e => e = .panic "mappages: remap" ∧
        ∃ va < MAXVA, InRange a (n + 1) va ∧ leafAt s.word r va ≠ none := by
  have hsize : PGSIZE = 4096 := rfl
  have hmax : MAXVA < 2 ^ 39 := by decide
  induction n generalizing a pa s with
  | zero =>
    have hself : InRange a (0 + 1) a := ⟨le_rfl, by omega⟩
    refine map_round h (by omega) (fun s' hext => ⟨hext.wf, fun va _ => ⟨fun _ => ?_, by simp⟩⟩)
      (fun hmapped => ⟨rfl, a, by omega, hself, hmapped⟩) fun s' hwf hleaf => ?_
    · rw [hext.leaf]
    rw [if_pos (by omega)]
    refine ⟨hwf, fun va hva => ⟨fun hout => ?_, fun _ hin => ?_⟩⟩
    · rw [hleaf va hva, if_neg]
      unfold InRange at hout
      omega
    have hpage : va / PGSIZE = a / PGSIZE := by
      unfold InRange at hin
      omega
    rw [hleaf va hva, if_pos hpage, hpage, Nat.sub_self, Nat.zero_mul, Nat.add_zero]
    exact decode_leafEntry pa perm
  | succ n ih =>
    have hself : InRange a (n + 1 + 1) a := ⟨le_rfl, by omega⟩
    have hmul : (n + 1) * PGSIZE = n * PGSIZE + PGSIZE := Nat.succ_mul ..
    have hmul' : (n + 1 + 1) * PGSIZE = (n + 1) * PGSIZE + PGSIZE := Nat.succ_mul ..
    -- The next addresses get names, or Lean would compare them with `MAXVA` by counting.
    obtain ⟨b, hb⟩ : ∃ b, u64 (a + PGSIZE) = b := ⟨_, rfl⟩
    obtain ⟨pb, hpb⟩ : ∃ pb, u64 (pa + PGSIZE) = pb := ⟨_, rfl⟩
    have hb' : b = a + PGSIZE := hb.symm.trans (Nat.mod_eq_of_lt (by omega))
    have hpb' : pb = pa + PGSIZE := hpb.symm.trans (Nat.mod_eq_of_lt (by omega))
    have hnext : b / PGSIZE = a / PGSIZE + 1 := by
      rw [hb', hsize]
      omega
    refine map_round h (by omega) (fun s' hext => ⟨hext.wf, fun va _ => ⟨fun _ => ?_, by simp⟩⟩)
      (fun hmapped => ⟨rfl, a, by omega, hself, hmapped⟩) fun s' hwf hleaf => ?_
    · rw [hext.leaf]
    have hlast : a + (n + 1) * PGSIZE = b + n * PGSIZE := by omega
    rw [if_neg (by omega), hlast, hb, hpb]
    refine Wp.mono_halt (Wp.mono (ih hwf ?_ ?_) ?_) ?_
    · omega
    · omega
    · rintro ok s2 ⟨hwf2, hleaf2⟩
      refine ⟨hwf2, fun va hva => ⟨fun hout => ?_, fun hok hin => ?_⟩⟩
      · unfold InRange at hout
        rw [(hleaf2 va hva).1 (by unfold InRange; omega), hleaf va hva, if_neg (by omega)]
      unfold InRange at hin
      by_cases hpage : va / PGSIZE = a / PGSIZE
      · rw [(hleaf2 va hva).1 (by unfold InRange; omega), hleaf va hva, if_pos hpage, hpage,
          Nat.sub_self, Nat.zero_mul, Nat.add_zero]
        exact decode_leafEntry pa perm
      have hdiff : va / PGSIZE - a / PGSIZE = va / PGSIZE - b / PGSIZE + 1 := by omega
      have hsum : pb + (va / PGSIZE - b / PGSIZE) * PGSIZE =
          pa + (va / PGSIZE - a / PGSIZE) * PGSIZE := by
        rw [hdiff, Nat.succ_mul]
        omega
      rw [(hleaf2 va hva).2 hok (by unfold InRange; omega), hsum]
    rintro e ⟨he, va, hva, hin, hmapped⟩
    unfold InRange at hin
    rw [hleaf va hva, if_neg (by omega)] at hmapped
    exact ⟨he, va, hva, by unfold InRange; omega, hmapped⟩

/-! ## uvmunmap -/

/-- What `kfree` of the pages mapped in a range needs: they are pages of the allocator and not of
the page table. -/
def Freeable (r : ℕ) (word : ℕ → ℕ) (a n : ℕ) : Prop :=
  ∀ va < MAXVA, InRange a n va → ∀ w, leafAt word r va = some w →
    ly.first * PGSIZE ≤ pte2pa w ∧ pte2pa w < ly.stop * PGSIZE ∧
      ∀ n, page word r n ≠ some (pte2pa w)

theorem page_fill (h : Tree r word) {p v : ℕ} (hp : p % PGSIZE = 0)
    (hnot : ∀ n, page word r n ≠ some p) :
    page (fill word p v) r = page word r ∧ leafAt (fill word p v) r = leafAt word r := by
  have hsame : ∀ n q, page word r n = some q → ∀ e : Fin 512,
      fill word p v (q + 8 * e) = word (q + 8 * e) := by
    intro n q hq e
    rw [fill_slot hp (h.aligned n q hq), if_neg]
    rintro rfl
    exact hnot n hq
  have hpage : page (fill word p v) r = page word r := by
    funext x
    cases x with
    | root => rfl
    | mid i =>
      simp only [page]
      rw [hsame .root r rfl i]
    | low i j =>
      simp only [page]
      rw [hsame .root r rfl i]
      rcases hm : pointee (word (r + 8 * i)) with _ | m
      · rfl
      · rw [bind_some, bind_some, hsame (.mid i) m hm j]
  refine ⟨hpage, funext fun va => ?_⟩
  unfold leafAt
  rw [hpage]
  rcases hl : page word r (lowNode va) with _ | l
  · rfl
  · rw [bind_some, bind_some, hsame _ l hl]

theorem Tree.of_page (h : Tree r word) (hpage : page word' r = page word r) : Tree r word' := by
  refine ⟨?_, ?_⟩
  · rw [hpage]
    exact h.inj
  · rw [hpage]
    exact h.aligned

theorem pte2pa_mod (w : ℕ) : pte2pa w % PGSIZE = 0 := by
  have hsize : PGSIZE = 2 ^ 12 := rfl
  rw [pte2pa, u64, Nat.shiftLeft_eq, hsize]
  omega

theorem freeIf_spec {ly : Layout} {doFree : Bool} {w : ℕ} (h : Tree r s.word)
    (hw : doFree = true → ly.first * PGSIZE ≤ pte2pa w ∧ pte2pa w < ly.stop * PGSIZE ∧
      ∀ n, page s.word r n ≠ some (pte2pa w)) :
    Wp (freeIf ly doFree (pte2pa w)) s (fun _ t => Tree r t.word ∧
      page t.word r = page s.word r ∧ leafAt t.word r = leafAt s.word r) E := by
  rcases hd : doFree with _ | _
  · exact ⟨h, rfl, rfl⟩
  obtain ⟨hlow, hhigh, hnot⟩ := hw hd
  have hmod := pte2pa_mod w
  generalize pte2pa w = p at *
  obtain ⟨hpage, hsame⟩ := page_fill (v := JUNK_FREE) h hmod hnot
  rw [freeIf, if_pos rfl, kfree, if_neg (by omega), wp_modify]
  exact ⟨h.of_page hpage, hpage, hsame⟩

theorem uvmunmapLoop_spec {doFree : Bool} {n a : ℕ} (h : Tree r s.word)
    (ha : a + n * PGSIZE ≤ MAXVA) (hfree : doFree = true → Freeable ly r s.word a n) :
    Wp (uvmunmapLoop ly r doFree n a) s (fun _ s' => Tree r s'.word ∧
      ∀ va < MAXVA, (InRange a n va → leafAt s'.word r va = none) ∧
        (¬ InRange a n va → leafAt s'.word r va = leafAt s.word r va)) E := by
  have hsize : PGSIZE = 4096 := rfl
  induction n generalizing a s with
  | zero =>
    refine ⟨h, fun va _ => ⟨fun hin => ?_, fun _ => rfl⟩⟩
    unfold InRange at hin
    omega
  | succ n ih =>
    rw [Nat.succ_mul] at ha
    have hnext : (a + PGSIZE) / PGSIZE = a / PGSIZE + 1 := by
      rw [hsize]
      omega
    -- The rest of the loop, once the entry of this page is gone.
    have hrest : ∀ s1 : Phys, Tree r s1.word → page s1.word r = page s.word r →
        (∀ va < MAXVA, leafAt s1.word r va =
          if va / PGSIZE = a / PGSIZE then none else leafAt s.word r va) →
        Wp (uvmunmapLoop ly r doFree n (a + PGSIZE)) s1 (fun _ s' => Tree r s'.word ∧
          ∀ va < MAXVA, (InRange a (n + 1) va → leafAt s'.word r va = none) ∧
            (¬ InRange a (n + 1) va → leafAt s'.word r va = leafAt s.word r va)) E := by
      intro s1 htree hpage hleaf
      refine (ih htree (by omega) fun hd va hva hin w hw => ?_).mono ?_
      · unfold InRange at hin
        rw [hleaf va hva, if_neg (by omega)] at hw
        rw [hpage]
        exact hfree hd va hva (by unfold InRange; omega) w hw
      rintro _ s2 ⟨htree2, hleaf2⟩
      refine ⟨htree2, fun va hva => ⟨fun hin => ?_, fun hout => ?_⟩⟩
      · unfold InRange at hin
        by_cases hpg : va / PGSIZE = a / PGSIZE
        · rw [(hleaf2 va hva).2 (by unfold InRange; omega), hleaf va hva, if_pos hpg]
        · exact (hleaf2 va hva).1 (by unfold InRange; omega)
      · unfold InRange at hout
        rw [(hleaf2 va hva).2 (by unfold InRange; omega), hleaf va hva, if_neg (by omega)]
    have hgone : leafAt s.word r a = none → ∀ va < MAXVA, leafAt s.word r va =
        if va / PGSIZE = a / PGSIZE then none else leafAt s.word r va := by
      intro hnone va hva
      split
      · next hpg =>
        obtain ⟨h2, h1, h0⟩ := (px_iff hva (by omega)).mpr hpg
        rw [← hnone, leafAt, leafAt, lowNode, lowNode, h2, h1, h0]
      · rfl
    rw [uvmunmapLoop]
    have hlow : a < MAXVA := by omega
    refine (walk_find s r hlow).seq ?_
    rintro o s1 ⟨rfl, rfl⟩
    rcases hl : page s1.word r (lowNode a) with _ | l
    · refine hrest s1 h rfl (hgone ?_)
      rw [leafAt, hl]
      rfl
    refine Wp.get_seq ?_
    split
    · next hvalid =>
      refine hrest s1 h rfl (hgone ?_)
      rw [leafAt_of_page hl, decode, if_neg (by simpa using hvalid)]
    next hvalid =>
    have hleaf : leafAt s1.word r a = some (s1.word (l + 8 * px 0 a)) := by
      rw [leafAt_of_page hl, decode, if_pos hvalid]
    have hstore : ∀ t : Phys, Tree r t.word → page t.word r = page s1.word r →
        leafAt t.word r = leafAt s1.word r →
        Wp (store (l + 8 * px 0 a) 0 >>= fun _ => uvmunmapLoop ly r doFree n (a + PGSIZE)) t
          (fun _ s' => Tree r s'.word ∧
            ∀ va < MAXVA, (InRange a (n + 1) va → leafAt s'.word r va = none) ∧
              (¬ InRange a (n + 1) va → leafAt s'.word r va = leafAt s1.word r va)) E := by
      intro t htree hpage hsame
      have hlt : page t.word r (.low (px 2 a) (px 1 a)) = some l := by
        rw [hpage]
        exact hl
      obtain ⟨hpage', hleaf'⟩ := page_store htree (k := px 0 a) (w := 0) hlt
      refine Wp.modify_seq (hrest _ (htree.of_page hpage') (hpage'.trans hpage)
        fun va hva => ?_)
      refine (hleaf' va).trans ?_
      simp only [px_iff hva (show a < MAXVA by omega), hsame, decode_zero]
    refine (freeIf_spec h fun hd => hfree hd a (by omega) ⟨le_rfl, by omega⟩ _ hleaf).seq ?_
    rintro _ t ⟨htree, hp, hs⟩
    exact hstore t htree hp hs

/-! ## The results -/

theorem inRange_iff {va size a : ℕ} (hva : va % PGSIZE = 0) (hsize : size % PGSIZE = 0) :
    InRange va (size / PGSIZE) a ↔ va ≤ a ∧ a < va + size := by
  unfold InRange PGSIZE at *
  omega

/-- What `mappages` did to the map: the pages of the range have the entries asked for if it returned
0, and all others are as before. -/
structure Mapped (r va size pa perm : ℕ) (s s' : Phys) (ok : Bool) : Prop where
  wf : Wf r s'
  mapped : ok = true → ∀ a, va ≤ a → a < va + size →
    leafAt s'.word r a = some (leafEntry (pa + (a / PGSIZE - va / PGSIZE) * PGSIZE) perm)
  other : ∀ a < MAXVA, ¬ (va ≤ a ∧ a < va + size) → leafAt s'.word r a = leafAt s.word r a

theorem mappages_spec {va size pa : ℕ} (perm : ℕ) (h : Wf r s) (hva : va % PGSIZE = 0)
    (hsize : size % PGSIZE = 0) (hpos : size ≠ 0) (hmax : va + size ≤ MAXVA) (hpa : pa < 2 ^ 56) :
    Wp (mappages r va size pa perm) s (fun ok s' => Mapped r va size pa perm s s' ok) fun e =>
      e = .panic "mappages: remap" ∧ ∃ a, va ≤ a ∧ a < va + size ∧ leafAt s.word r a ≠ none := by
  have hpg : PGSIZE = 4096 := rfl
  have hmaxva : MAXVA < 2 ^ 39 := by decide
  obtain ⟨n, hn⟩ : ∃ n, size / PGSIZE = n + 1 := ⟨size / PGSIZE - 1, by rw [hpg] at hsize ⊢; omega⟩
  have hmul : size = n * PGSIZE + PGSIZE := by
    have := Nat.div_add_mod size PGSIZE
    rw [hn, hsize, Nat.add_zero, Nat.mul_comm, Nat.succ_mul] at this
    exact this.symm
  have hlast : u64 (va + size + (2 ^ 64 - PGSIZE)) = va + n * PGSIZE := by
    unfold u64
    omega
  rw [mappages, if_neg (not_not.mpr hva), if_neg (not_not.mpr hsize), if_neg hpos, hlast, hn]
  apply Wp.mono_halt
  · apply Wp.mono
    · apply mappagesLoop_spec h
      · rw [Nat.succ_mul]
        omega
      · omega
    rintro ok s' ⟨hwf, hleaf⟩
    refine ⟨hwf, fun hok a hlow hhigh => ?_, fun a ha hout => ?_⟩
    · refine (hleaf a (by omega)).2 hok ?_
      rw [← hn, inRange_iff hva hsize]
      exact ⟨hlow, hhigh⟩
    · refine (hleaf a ha).1 ?_
      rw [← hn, inRange_iff hva hsize]
      exact hout
  · rintro e ⟨he, a, ha, hin, hmapped⟩
    rw [← hn, inRange_iff hva hsize] at hin
    exact ⟨he, a, hin.1, hin.2, hmapped⟩

theorem slot_ne (h : Tree r word) {va a l m : ℕ} (hva : va < MAXVA) (ha : a < MAXVA)
    (hl : page word r (lowNode va) = some l) (hm : page word r (lowNode a) = some m)
    (hne : va / PGSIZE ≠ a / PGSIZE) : l + 8 * (px 0 va).val ≠ m + 8 * (px 0 a).val := by
  intro heq
  obtain ⟨rfl, h0⟩ := slot_inj (h.aligned _ l hl) (h.aligned _ m hm) heq
  have hnode := h.inj _ _ l hl hm
  simp only [lowNode, Node.low.injEq] at hnode
  exact hne ((px_iff hva ha).mp ⟨hnode.1, hnode.2, h0⟩)

/-- **Page tables are finite maps.** For every well-formed page table and every aligned range below
`MAXVA`, `mappages` maps the range if it succeeds, and returns unless a page of it was mapped;
`uvmunmap` removes those of its range; `walk` adds none, and different pages have different
entries. -/
theorem page_table_map (h : Wf r s) :
    (∀ va size pa perm, va % PGSIZE = 0 → size % PGSIZE = 0 → size ≠ 0 → va + size ≤ MAXVA →
      pa < 2 ^ 56 → perm < 2 ^ 10 →
      (∀ ok s', mappages r va size pa perm s = .ok (ok, s') → Wf r s' ∧
        (∀ a < MAXVA, ¬ (va ≤ a ∧ a < va + size) → leafAt s'.word r a = leafAt s.word r a) ∧
        (ok = true → ∀ a, va ≤ a → a < va + size → ∃ pte, leafAt s'.word r a = some pte ∧
          pte2pa pte = (pa + (a / PGSIZE - va / PGSIZE) * PGSIZE) / PGSIZE * PGSIZE ∧
          pteFlags pte = perm ||| PTE_V)) ∧
      ((∀ a, va ≤ a → a < va + size → leafAt s.word r a = none) →
        ∃ ok s', mappages r va size pa perm s = .ok (ok, s'))) ∧
    (∀ va n doFree, va % PGSIZE = 0 → va + n * PGSIZE ≤ MAXVA →
      (doFree = true → Freeable ly r s.word va n) →
      ∃ s', uvmunmap ly r va n doFree s = .ok ((), s') ∧ ∀ a < MAXVA,
        leafAt s'.word r a = if va ≤ a ∧ a < va + n * PGSIZE then none else leafAt s.word r a) ∧
    (∀ va < MAXVA, ∃ o s', walk r va true s = .ok (o, s') ∧ Wf r s' ∧
      (∀ a < MAXVA, leafAt s'.word r a = leafAt s.word r a) ∧
      (∀ pte, o = some pte → walk r va false s' = .ok (some pte, s') ∧
        leafAt s'.word r va = decode (s'.word pte))) ∧
    ∀ va < MAXVA, ∀ a < MAXVA, va / PGSIZE ≠ a / PGSIZE → ∀ pte pte',
      walk r va false s = .ok (some pte, s) → walk r a false s = .ok (some pte', s) → pte ≠ pte' := by
  have hpg : PGSIZE = 4096 := rfl
  have hmaxva : MAXVA < 2 ^ 39 := by decide
  refine ⟨fun va size pa perm hva hsize hpos hmax hpa hperm =>
      ⟨fun ok s' hrun => ?_, fun hfree => ?_⟩,
    fun va n doFree hva hmax hfree => ?_, fun va hva => ?_,
    fun va hva a ha hne pte pte' h1 h2 => ?_⟩
  · have hspec := mappages_spec perm h hva hsize hpos hmax hpa
    have hmapped := hspec.of_ok hrun
    refine ⟨hmapped.wf, hmapped.other, fun hok a hlow hhigh =>
      ⟨_, hmapped.mapped hok a hlow hhigh, ?_⟩⟩
    have hbound : pa + (a / PGSIZE - va / PGSIZE) * PGSIZE < 2 ^ 64 := by
      rw [hpg] at *
      omega
    rw [leafEntry, Nat.or_assoc]
    exact ⟨pte2pa_or hbound (or_lt hperm), pteFlags_or (or_lt hperm)⟩
  · have hspec := mappages_spec perm h hva hsize hpos hmax hpa
    have hok : Wp (mappages r va size pa perm) s (fun _ _ => True) fun _ => False := by
      refine (hspec.mono fun _ _ _ => trivial).mono_halt ?_
      rintro e ⟨-, a, hlow, hhigh, hmapped⟩
      exact hmapped (hfree a hlow hhigh)
    obtain ⟨ok, s', hrun, -⟩ := hok.exists_ok
    exact ⟨ok, s', hrun⟩
  · have hspec := uvmunmapLoop_spec ly (E := fun _ => False) h.toTree hmax hfree
    obtain ⟨_, s', hrun, -, hleaf⟩ := hspec.exists_ok
    refine ⟨s', ?_, fun a ha => ?_⟩
    · rw [uvmunmap, if_neg (not_not.mpr hva)]
      exact hrun
    have hiff : InRange va n a ↔ va ≤ a ∧ a < va + n * PGSIZE := by
      unfold InRange
      rw [hpg] at *
      omega
    split
    · next hin => exact (hleaf a ha).1 (hiff.mpr hin)
    · next hout => exact (hleaf a ha).2 fun hin => hout (hiff.mp hin)
  · have hspec := walk_spec (E := fun _ => False) h hva true
    obtain ⟨o, s', hrun, hext, hsome, -, -⟩ := hspec.exists_ok
    refine ⟨o, s', hrun, hext.wf, fun a _ => by rw [hext.leaf], fun pte hpte => ?_⟩
    obtain ⟨l, hl, rfl⟩ := hsome pte hpte
    have hfind := walk_find (E := fun _ => False) s' r hva
    obtain ⟨o', s'', hrun', rfl, rfl⟩ := hfind.exists_ok
    rw [hl] at hrun'
    exact ⟨hrun', leafAt_of_page hl⟩
  have hfind1 := walk_find (E := fun _ => False) s r hva
  have hfind2 := walk_find (E := fun _ => False) s r ha
  obtain ⟨-, he1⟩ := hfind1.of_ok h1
  obtain ⟨-, he2⟩ := hfind2.of_ok h2
  obtain ⟨l, hl, rfl⟩ := Option.map_eq_some_iff.mp he1.symm
  obtain ⟨m, hm, rfl⟩ := Option.map_eq_some_iff.mp he2.symm
  exact slot_ne h.toTree hva ha hl hm hne

/-- A page is mapped in an empty page table at address 0, with two free pages. -/
theorem page_table_map_empty :
    ∃ s' pte, mappages 0 0x5000 4096 0x80000000 7 ⟨fun _ => 0, [4096, 8192]⟩ = .ok (true, s') ∧
      Wf 0 s' ∧ leafAt s'.word 0 0x5000 = some pte ∧ pte2pa pte = 0x80000000 := by
  have hpage : ∀ n, page (fun _ => 0) 0 n = if n = .root then some 0 else none := by
    intro n
    cases n <;> simp [page, pointee]
  have hwf : Wf 0 ⟨fun _ => 0, [4096, 8192]⟩ := by
    refine ⟨⟨fun n n' p hn hn' => ?_, fun n p hn => ?_⟩, fun p hp n hn => ?_, by decide, by decide⟩
    · rw [hpage] at hn hn'
      split at hn
      · split at hn'
        · next h h' => rw [h, h']
        · cases hn'
      · cases hn
    · rw [hpage] at hn
      split at hn
      · cases hn
        rfl
      · cases hn
    rw [hpage] at hn
    split at hn
    · cases hn
      simp at hp
    · cases hn
  obtain ⟨hmap, -⟩ := page_table_map ⟨0, 1, 2, [], by decide, by decide⟩ hwf
  have hok : (mappages 0 0x5000 4096 0x80000000 7 ⟨fun _ => 0, [4096, 8192]⟩).toOption.map Prod.fst =
      some true := by
    decide +kernel
  rcases hrun : mappages 0 0x5000 4096 0x80000000 7 ⟨fun _ => 0, [4096, 8192]⟩ with e | ⟨ok, s'⟩
  · rw [hrun] at hok
    cases hok
  rw [hrun] at hok
  obtain rfl : ok = true := Option.some.inj hok
  obtain ⟨hwf', -, hleaf⟩ := (hmap 0x5000 4096 0x80000000 7 (by decide) (by decide) (by decide)
    (by decide) (by decide) (by decide)).1 true s' hrun
  obtain ⟨pte, hpte, hpa, -⟩ := hleaf rfl 0x5000 (by decide) (by decide)
  exact ⟨s', pte, rfl, hwf', hpte, hpa⟩

end Xv6.Vm.Sv39

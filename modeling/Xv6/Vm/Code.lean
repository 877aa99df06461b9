import Xv6.Foundations.Hoare
import Xv6.Param

/-!
# Physical memory and page tables

The code of `kalloc.c` and `vm.c` for user memory. A physical page is named by its number, the
address divided by `PGSIZE`.
-/

namespace Xv6.Vm

open Hoare Function

/-! ## Addresses -/

def PGSIZE : ℕ := 4096

def MAXVA : ℕ := 2 ^ 38

/-- The trampoline page is mapped to the highest address. -/
def TRAMPOLINE : ℕ := MAXVA - PGSIZE

def TRAPFRAME : ℕ := TRAMPOLINE - PGSIZE

def u64 (n : ℕ) : ℕ := n % 2 ^ 64

def intU64 (n : ℕ) : ℕ :=
  if n % 2 ^ 32 < 2 ^ 31 then n % 2 ^ 32 else 2 ^ 64 - 2 ^ 32 + n % 2 ^ 32

def pgroundup (sz : ℕ) : ℕ := u64 (sz + PGSIZE - 1) / PGSIZE * PGSIZE

def pgrounddown (a : ℕ) : ℕ := a / PGSIZE * PGSIZE

/-! ## Physical memory -/

abbrev Bytes := ℕ → UInt8

def Bytes.read (b : Bytes) (off n : ℕ) : List UInt8 := (List.range' off n).map b

def Bytes.write (b : Bytes) (off : ℕ) (l : List UInt8) : Bytes := fun k =>
  if off ≤ k ∧ k < off + l.length then l.getD (k - off) 0 else b k

theorem Bytes.write_write (b : Bytes) (off : ℕ) (l l' : List UInt8) :
    (b.write off l).write (off + l.length) l' = b.write off (l ++ l') := by
  funext k
  simp only [Bytes.write, List.length_append, List.getD_eq_getElem?_getD]
  by_cases h1 : off ≤ k ∧ k < off + l.length
  · rw [if_neg (by omega), if_pos h1, if_pos (by omega), List.getElem?_append_left (by omega)]
  by_cases h2 : off + l.length ≤ k ∧ k < off + l.length + l'.length
  · rw [if_pos h2, if_pos (by omega), List.getElem?_append_right (by omega)]
    congr 2
    omega
  · rw [if_neg h2, if_neg h1, if_neg (by omega)]

/-- The physical memory the kernel allocates from: the pages of the first free list. -/
structure Layout where
  /-- First page after the kernel. -/
  first : ℕ
  /-- The page of `PHYSTOP`. -/
  stop : ℕ
  trampoline : ℕ
  pages : List ℕ
  nodup : pages.Nodup
  range : ∀ p ∈ pages, first ≤ p ∧ p < stop

/-- Physical memory. -/
structure Mem where
  free : List ℕ
  /-- The content of the pages. -/
  data : ℕ → Bytes
  /-- Which of the next calls of `kalloc` find the list empty, because other processes have taken
  all pages at that moment. -/
  deny : List Bool
  /-- Has a call of `kalloc` returned 0? -/
  denied : Bool

/-- Why a call does not return. -/
inductive Halt
  | panic (msg : String)
  | null
  deriving DecidableEq, Repr

abbrev VmM (α : Type) := Prog Mem Halt α

def Mem.fill (s : Mem) (p : ℕ) (b : Bytes) : Mem := { s with data := update s.data p b }

def Mem.kalloc (s : Mem) : Option ℕ × Mem :=
  match s.deny.headD false, s.free with
  | false, p :: free =>
    (some p, { s with
      free := free, data := update s.data p fun _ => 5, deny := s.deny.tail })
  | _, _ => (none, { s with deny := s.deny.tail, denied := true })

/-- Allocate one page of physical memory; `none` if the memory cannot be allocated. -/
def kalloc : VmM (Option ℕ) := do
  let s ← get
  set s.kalloc.2
  pure s.kalloc.1

variable (ly : Layout)

def kfree (p : ℕ) : VmM Unit :=
  if p < ly.first ∨ ly.stop ≤ p then throw (.panic "kfree")
  else modify fun s => { s with free := p :: s.free, data := update s.data p fun _ => 1 }

/-! ## Page tables -/

/-- A page-table page: the page and its 512 entries, `none` if not valid. -/
structure Table (α : Type) where
  page : ℕ
  pte : Fin 512 → Option α

def Table.empty {α : Type} (p : ℕ) : Table α := ⟨p, fun _ => none⟩

def Table.set {α : Type} (t : Table α) (i : Fin 512) (e : Option α) : Table α :=
  ⟨t.page, update t.pte i e⟩

/-- The permission bits of an entry. -/
structure Perm where
  r : Bool
  w : Bool
  x : Bool
  /-- User can access. -/
  u : Bool
  deriving DecidableEq, Repr

/-- A valid entry of the lowest level. -/
structure Leaf where
  pa : ℕ
  perm : Perm
  deriving DecidableEq, Repr

/-- A tree of page-table pages of three levels, with entries in `α` at the lowest one. -/
abbrev Radix (α : Type) := Table (Table (Table α))

abbrev PageTable := Radix Leaf

def px (level va : ℕ) : Fin 512 :=
  ⟨va / (PGSIZE * 512 ^ level) % 512, Nat.mod_lt _ (by decide)⟩

/-- The entry for an address, `none` if the table that holds it does not exist. -/
def Table.find {α : Type} (pt : Radix α) (va : ℕ) : Option (Option α) :=
  (pt.pte (px 2 va)).bind fun t₁ => (t₁.pte (px 1 va)).map fun t₀ => t₀.pte (px 0 va)

def Table.leaf {α : Type} (pt : Radix α) (va : ℕ) : Option α := (pt.find va).join

/-- Write the entry for an address through the pointer `walk` returned. -/
def Table.setPte {α : Type} (pt : Radix α) (va : ℕ) (e : Option α) : Radix α :=
  match pt.pte (px 2 va) with
  | none => pt
  | some t₁ =>
    match t₁.pte (px 1 va) with
    | none => pt
    | some t₀ => pt.set (px 2 va) (some (t₁.set (px 1 va) (some (t₀.set (px 0 va) e))))

/-- Return the entry in page table `pt` that corresponds to virtual address `va`. -/
def walk (pt : PageTable) (va : ℕ) : VmM (Option (Option Leaf)) :=
  if va ≥ MAXVA then throw (.panic "walk") else pure (pt.find va)

/-- One level of `walk` that creates a missing page-table page, and goes on below it with `f`. -/
def Table.descend {α : Type} (f : Table α → VmM (Table α × Bool)) (t : Table (Table α))
    (i : Fin 512) : VmM (Table (Table α) × Bool) :=
  match t.pte i with
  | some c => do
    let r ← f c
    pure (t.set i (some r.1), r.2)
  | none => do
    match ← kalloc with
    | none => pure (t, false)
    | some p => do
      let r ← f (.empty p)
      pure (t.set i (some r.1), r.2)

/-- `walk` with `alloc`: the page table with the page-table pages needed for `va`, and whether they
could be allocated. -/
def walkAlloc {α : Type} (pt : Radix α) (va : ℕ) : VmM (Radix α × Bool) :=
  if va ≥ MAXVA then throw (.panic "walk")
  else pt.descend (fun t₁ => t₁.descend (fun t₀ => pure (t₀, true)) (px 1 va)) (px 2 va)

def walkaddr (pt : PageTable) (va : ℕ) : Option ℕ :=
  if va ≥ MAXVA then none
  else (pt.leaf va).bind fun l => if l.perm.u then some l.pa else none

def mappagesLoop (perm : Perm) : ℕ → ℕ → ℕ → PageTable → VmM (PageTable × Bool)
  | 0, _, _, pt => pure (pt, true)
  | n + 1, a, pa, pt => do
    let r ← walkAlloc pt a
    if r.2 = false then pure (r.1, false)
    else if (r.1.leaf a).isSome then throw (.panic "mappages: remap")
    else mappagesLoop perm n (a + PGSIZE) (pa + 1) (r.1.setPte a (some ⟨pa, perm⟩))

/-- Create entries for virtual addresses starting at `va` that refer to the pages from `pa` on. -/
def mappages (pt : PageTable) (va size pa : ℕ) (perm : Perm) : VmM (PageTable × Bool) :=
  if va % PGSIZE ≠ 0 then throw (.panic "mappages: va not aligned")
  else if size % PGSIZE ≠ 0 then throw (.panic "mappages: size not aligned")
  else if size = 0 then throw (.panic "mappages: size")
  else mappagesLoop perm (size / PGSIZE) va pa pt

def uvmunmapPage (doFree : Bool) (pt : PageTable) (a : ℕ) : VmM PageTable := do
  match ← walk pt a with
  | some (some l) =>
    if doFree then do
      kfree ly l.pa
      pure (pt.setPte a none)
    else pure (pt.setPte a none)
  | _ => pure pt

def uvmunmapLoop (doFree : Bool) : ℕ → ℕ → PageTable → VmM PageTable
  | 0, _, pt => pure pt
  | n + 1, a, pt => do
    let pt ← uvmunmapPage ly doFree pt a
    uvmunmapLoop doFree n (a + PGSIZE) pt

/-- Remove `npages` of mappings starting from `va`; optionally free the physical memory. -/
def uvmunmap (pt : PageTable) (va npages : ℕ) (doFree : Bool) : VmM PageTable :=
  if va % PGSIZE ≠ 0 then throw (.panic "uvmunmap: not aligned")
  else uvmunmapLoop ly doFree npages va pt

/-- Deallocate user pages to bring the process size from `oldsz` to `newsz`. -/
def uvmdealloc (pt : PageTable) (oldsz newsz : ℕ) : VmM (PageTable × ℕ) :=
  if newsz ≥ oldsz then pure (pt, oldsz)
  else if pgroundup newsz < pgroundup oldsz then do
    let npages := intU64 ((pgroundup oldsz - pgroundup newsz) / PGSIZE)
    let pt ← uvmunmap ly pt (pgroundup newsz) npages true
    pure (pt, newsz)
  else pure (pt, newsz)

/-- Allocate a page, fill it and map it at `va`: the part that `uvmalloc`, `uvmcopy` and `vmfault`
have in common. -/
def mapFilled (pt : PageTable) (va : ℕ) (perm : Perm) (fill : Mem → Bytes) :
    VmM (PageTable × Option ℕ) := do
  match ← kalloc with
  | none => pure (pt, none)
  | some mem => do
    modify fun s => s.fill mem (fill s)
    let r ← mappages pt va PGSIZE mem perm
    if r.2 then pure (r.1, some mem)
    else do
      kfree ly mem
      pure (r.1, none)

def zeroes : Mem → Bytes := fun _ _ => 0

def uvmallocLoop (oldsz newsz : ℕ) (perm : Perm) : ℕ → ℕ → PageTable → VmM (PageTable × ℕ)
  | 0, _, pt => pure (pt, newsz)
  | n + 1, a, pt => do
    let r ← mapFilled ly pt a perm zeroes
    match r.2 with
    | some _ => uvmallocLoop oldsz newsz perm n (a + PGSIZE) r.1
    | none => do
      let r ← uvmdealloc ly r.1 a oldsz
      pure (r.1, 0)

/-- Allocate entries and physical memory to grow a process from `oldsz` to `newsz`; the new size, or
0 on error. -/
def uvmalloc (pt : PageTable) (oldsz newsz : ℕ) (perm : Perm) : VmM (PageTable × ℕ) :=
  if newsz < oldsz then pure (pt, oldsz)
  else
    let a := pgroundup oldsz
    uvmallocLoop ly a newsz perm ((newsz - a + PGSIZE - 1) / PGSIZE) a pt

/-- The indices of a page-table page. They are not unfolded in proofs. -/
@[irreducible] def slots : List (Fin 512) := List.finRange 512

theorem slots_eq : slots = List.finRange 512 := by
  unfold slots
  rfl

def Table.freewalk {α : Type} (entry : α → VmM Unit) (t : Table α) : VmM Unit := do
  slots.forM fun i => match t.pte i with
    | some c => entry c
    | none => pure ()
  kfree ly t.page

def freewalk (pt : PageTable) : VmM Unit :=
  pt.freewalk ly (Table.freewalk ly (Table.freewalk ly fun l =>
    if l.perm.r ∨ l.perm.w ∨ l.perm.x then throw (.panic "freewalk: leaf") else throw .null))

def uvmfree (pt : PageTable) (sz : ℕ) : VmM Unit := do
  let pt ← if sz > 0 then uvmunmap ly pt 0 (pgroundup sz / PGSIZE) true else pure pt
  freewalk ly pt

def uvmcopyPage (old new : PageTable) (i : ℕ) : VmM (PageTable × Bool) := do
  match ← walk old i with
  | some (some l) => do
    let r ← mapFilled ly new i l.perm fun s => s.data l.pa
    pure (r.1, r.2.isSome)
  | _ => pure (new, true)

def uvmcopyLoop (old : PageTable) : ℕ → ℕ → PageTable → VmM (PageTable × Bool)
  | 0, _, new => pure (new, true)
  | n + 1, i, new => do
    let r ← uvmcopyPage ly old new i
    if r.2 then uvmcopyLoop old n (i + PGSIZE) r.1
    else do
      let new ← uvmunmap ly r.1 0 (i / PGSIZE) true
      pure (new, false)

def uvmcopy (old new : PageTable) (sz : ℕ) : VmM (PageTable × Bool) :=
  uvmcopyLoop ly old ((sz + PGSIZE - 1) / PGSIZE) 0 new

def uvmclear (pt : PageTable) (va : ℕ) : VmM PageTable := do
  match ← walk pt va with
  | none => throw (.panic "uvmclear")
  | some e => pure (pt.setPte va (e.map fun l => { l with perm := { l.perm with u := false } }))

/-! ## Access to user memory -/

/-- The memory of a process. -/
structure Space where
  /-- Size of process memory (bytes). -/
  sz : ℕ
  pagetable : PageTable

def ismapped (pt : PageTable) (va : ℕ) : VmM Bool := do
  match ← walk pt va with
  | some (some _) => pure true
  | _ => pure false

/-- Allocate and map user memory if the process is referencing a page that was lazily allocated. -/
def vmfault (other : Option PageTable) (p : Space) (va : ℕ) : VmM (Space × Option ℕ) :=
  if va ≥ p.sz then pure (p, none)
  else do
    let mapped ← ismapped (other.getD p.pagetable) (pgrounddown va)
    if mapped then pure (p, none)
    else do
      let r ← mapFilled ly p.pagetable (pgrounddown va) ⟨true, true, false, true⟩ zeroes
      pure ({ p with pagetable := r.1 }, r.2)

def userPage (other : Option PageTable) (p : Space) (va₀ : ℕ) : VmM (Space × Option ℕ) :=
  match walkaddr (other.getD p.pagetable) va₀ with
  | some pa => pure (p, some pa)
  | none => vmfault ly other p va₀

def copyoutLoop (other : Option PageTable) :
    ℕ → Space → ℕ → List UInt8 → VmM (Space × Bool)
  | 0, p, _, _ => pure (p, true)
  | k + 1, p, dstva, src =>
    if src = [] then pure (p, true)
    else if pgrounddown dstva ≥ MAXVA then pure (p, false)
    else do
      let r ← userPage ly other p (pgrounddown dstva)
      match r.2 with
      | none => pure (r.1, false)
      | some pa₀ => do
        match ← walk (other.getD r.1.pagetable) (pgrounddown dstva) with
        | none => throw .null
        | some e =>
          -- forbid copyout over read-only user text pages
          if (e.map fun l => l.perm.w) = some true then do
            let off := dstva - pgrounddown dstva
            let n := min (PGSIZE - off) src.length
            modify fun s => s.fill pa₀ ((s.data pa₀).write off (src.take n))
            copyoutLoop other k r.1 (u64 (pgrounddown dstva + PGSIZE)) (src.drop n)
          else pure (r.1, false)

def copyout (other : Option PageTable) (p : Space) (dstva : ℕ) (src : List UInt8) :
    VmM (Space × Bool) :=
  copyoutLoop ly other src.length p dstva src

def copyinLoop : ℕ → Space → ℕ → ℕ → Bytes → ℕ → VmM (Space × Bytes × Bool)
  | 0, p, _, _, dst, _ => pure (p, dst, true)
  | k + 1, p, srcva, len, dst, pos =>
    if len = 0 then pure (p, dst, true)
    else do
      let r ← userPage ly none p (pgrounddown srcva)
      match r.2 with
      | none => pure (r.1, dst, false)
      | some pa₀ => do
        let s ← get
        let off := srcva - pgrounddown srcva
        let n := min (PGSIZE - off) len
        copyinLoop k r.1 (u64 (pgrounddown srcva + PGSIZE)) (len - n)
          (dst.write pos ((s.data pa₀).read off n)) (pos + n)

def copyin (p : Space) (dst : Bytes) (srcva len : ℕ) : VmM (Space × Bytes × Bool) :=
  copyinLoop ly len p srcva len dst 0

def copyinstrLoop (s : Mem) (pt : PageTable) : ℕ → ℕ → ℕ → Bytes → ℕ → Bytes × Bool
  | 0, _, _, dst, _ => (dst, false)
  | k + 1, srcva, max, dst, pos =>
    if max = 0 then (dst, false)
    else
      match walkaddr pt (pgrounddown srcva) with
      | none => (dst, false)
      | some pa₀ =>
        let off := srcva - pgrounddown srcva
        let n := min (PGSIZE - off) max
        let bytes := (s.data pa₀).read off n
        let str := bytes.takeWhile (· ≠ 0)
        if str.length < n then (dst.write pos (str ++ [0]), true)
        else copyinstrLoop s pt k (u64 (pgrounddown srcva + PGSIZE)) (max - n) (dst.write pos bytes)
          (pos + n)

/-- Copy a null-terminated string from user to the kernel buffer `dst`; whether it succeeded. -/
def copyinstr (s : Mem) (pt : PageTable) (dst : Bytes) (srcva max : ℕ) : Bytes × Bool :=
  copyinstrLoop s pt max srcva max dst 0

def strlen (b : Bytes) (max : ℕ) : ℕ := ((b.read 0 max).takeWhile (· ≠ 0)).length

/-- Fetch the nul-terminated string at `addr` from the current process: the buffer, and the length of
the string, `none` for an error. -/
def fetchstr (s : Mem) (p : Space) (addr : ℕ) (buf : Bytes) (max : ℕ) : Bytes × Option ℕ :=
  let r := copyinstr s p.pagetable buf addr max
  (r.1, if r.2 then some (strlen r.1 max) else none)

/-- What the hardware finds for a load or a store of a user program. -/
def translate (store : Bool) (pt : PageTable) (va : ℕ) : Option ℕ :=
  (walkaddr pt va).bind fun pa =>
    if (pt.leaf va).any fun l => if store then l.perm.w else l.perm.r then some pa else none

/-- A load or a store of a user program: a page fault goes to `vmfault`, and the instruction is
executed again unless the process is killed. -/
def userAccess (store : Bool) (p : Space) (va : ℕ) : VmM (Space × Option ℕ) :=
  match translate store p.pagetable va with
  | some pa => pure (p, some pa)
  | none => do
    let r ← vmfault ly none p va
    match r.2 with
    | none => pure (r.1, none)
    | some _ => pure (r.1, translate store r.1.pagetable va)

/-! ## Size of a process -/

def addInt (a : ℕ) (n : ℤ) : ℕ := ((a + n) % 2 ^ 64).toNat

def growproc (p : Space) (n : ℤ) : VmM (Space × Bool) :=
  if n > 0 then
    if addInt p.sz n > TRAPFRAME then pure (p, false)
    else do
      let r ← uvmalloc ly p.pagetable p.sz (addInt p.sz n) ⟨true, true, false, true⟩
      if r.2 = 0 then pure ({ p with pagetable := r.1 }, false)
      else pure (⟨r.2, r.1⟩, true)
  else if n < 0 then do
    let r ← uvmdealloc ly p.pagetable p.sz (addInt p.sz n)
    pure (⟨r.2, r.1⟩, true)
  else pure (p, true)

def sysSbrk (p : Space) (n : ℤ) (eager : Bool) : VmM (Space × Option ℕ) :=
  if eager ∨ n < 0 then do
    let r ← growproc ly p n
    pure (r.1, if r.2 then some p.sz else none)
  else if addInt p.sz n < p.sz then pure (p, none)
  else if addInt p.sz n > TRAPFRAME then pure (p, none)
  else pure (⟨addInt p.sz n, p.pagetable⟩, some p.sz)

end Xv6.Vm

import Xv6.Vm.Code

/-!
# The process table and `kfork`

The code of `proc.c` that makes and frees a process, over the memory of `vm.c`: `allocproc`,
`freeproc`, `proc_pagetable`, `proc_freepagetable` and `kfork`, with the reference counts of
`filedup` and `idup`.
-/

namespace Xv6.Vm

open Hoare Function

inductive ProcState
  | unused | used | sleeping | runnable | running | zombie
  deriving DecidableEq, Repr

/-- Saved registers for kernel context switches. -/
structure Context where
  ra : ℕ
  sp : ℕ
  /-- The registers from `s0` to `s11`. -/
  s : Fin 12 → ℕ
  deriving DecidableEq

/-- The fields of `struct proc`; a null pointer is `none`. -/
structure Proc where
  state : ProcState
  /-- If not zero, sleeping on it. -/
  chan : ℕ
  killed : ℤ
  xstate : ℤ
  pid : ℤ
  parent : Option (Fin NPROC)
  kstack : ℕ
  sz : ℕ
  pagetable : Option PageTable
  trapframe : Option ℕ
  context : Context
  ofile : Fin NOFILE → Option (Fin NFILE)
  cwd : Option (Fin NINODE)
  name : Fin 16 → UInt8

/-- The state of the kernel that `kfork` works on. -/
structure Kernel where
  mem : Mem
  proc : Fin NPROC → Proc
  nextpid : ℤ
  fileRef : Fin NFILE → ℤ
  inodeRef : Fin NINODE → ℤ

abbrev ProcM (α : Type) := Prog Kernel Halt α

abbrev onMem {α : Type} (x : VmM α) : ProcM α :=
  zoom Kernel.mem (fun k s => { k with mem := s }) id x

def Kernel.setProc (k : Kernel) (i : Fin NPROC) (f : Proc → Proc) : Kernel :=
  { k with proc := update k.proc i (f (k.proc i)) }

def allocpid : ProcM ℤ := do
  let k ← get
  set { k with nextpid := int32 (k.nextpid + 1) }
  pure k.nextpid

variable (ly : Layout)

/-! ## The page table of a process -/

def uvmcreate : VmM (Option PageTable) := do
  match ← kalloc with
  | none => pure none
  | some p => pure (some (.empty p))

/-- Create a user page table for a process with the given trapframe, with no user memory, but with
trampoline and trapframe pages. -/
def procPagetable (trapframe : ℕ) : VmM (Option PageTable) := do
  match ← uvmcreate with
  | none => pure none
  | some pt => do
    let r ← mappages pt TRAMPOLINE PGSIZE ly.trampoline ⟨true, false, true, false⟩
    if r.2 then do
      let q ← mappages r.1 TRAPFRAME PGSIZE trapframe ⟨true, true, false, false⟩
      if q.2 then pure (some q.1)
      else do
        let pt ← uvmunmap ly q.1 TRAMPOLINE 1 false
        uvmfree ly pt 0
        pure none
    else do
      uvmfree ly r.1 0
      pure none

def procFreepagetable (pt : PageTable) (sz : ℕ) : VmM Unit := do
  let pt ← uvmunmap ly pt TRAMPOLINE 1 false
  let pt ← uvmunmap ly pt TRAPFRAME 1 false
  uvmfree ly pt sz

/-! ## Allocating and freeing a process -/

def Proc.freed (r : Proc) : Proc :=
  { r with
    trapframe := none, pagetable := none, sz := 0, pid := 0, parent := none,
    name := update r.name 0 0, chan := 0, killed := 0, xstate := 0, state := .unused }

/-- Free a proc structure and the data hanging from it, including user pages. -/
def freeproc (i : Fin NPROC) : ProcM Unit := do
  let k ← get
  onMem ((k.proc i).trapframe.elim (pure ()) fun tf => kfree ly tf)
  onMem ((k.proc i).pagetable.elim (pure ()) fun pt => procFreepagetable ly pt (k.proc i).sz)
  modify fun k => k.setProc i Proc.freed

def Context.start (forkret kstack : ℕ) : Context := ⟨forkret, kstack + PGSIZE, fun _ => 0⟩

def Kernel.unused (k : Kernel) : Option (Fin NPROC) :=
  (List.finRange NPROC).find? fun i => (k.proc i).state = .unused

def allocproc (forkret : ℕ) : ProcM (Option (Fin NPROC)) := do
  let k ← get
  match k.unused with
  | none => pure none
  | some i => do
    let pid ← allocpid
    modify fun k => k.setProc i fun r => { r with pid := pid, state := .used }
    let trapframe ← onMem kalloc
    modify fun k => k.setProc i fun r => { r with trapframe := trapframe }
    match trapframe with
    | none => do
      freeproc ly i
      pure none
    | some tf => do
      let pagetable ← onMem (procPagetable ly tf)
      modify fun k => k.setProc i fun r => { r with pagetable := pagetable }
      match pagetable with
      | none => do
        freeproc ly i
        pure none
      | some _ => do
        modify fun k => k.setProc i fun r => { r with context := .start forkret r.kstack }
        pure (some i)

/-! ## kfork -/

def filedup (f : Fin NFILE) : ProcM Unit := do
  let k ← get
  if k.fileRef f < 1 then throw (.panic "filedup")
  else set { k with fileRef := update k.fileRef f (k.fileRef f + 1) }

def idup (ip : Fin NINODE) : ProcM Unit :=
  modify fun k => { k with inodeRef := update k.inodeRef ip (k.inodeRef ip + 1) }

def TRAPFRAMESIZE : ℕ := 288

def A0 : ℕ := 112

/-- Copy the saved registers, except that `fork` returns 0 in the child. -/
def copyTrapframe (dst src : ℕ) : VmM Unit := do
  modify fun s => s.fill dst ((s.data dst).write 0 ((s.data src).read 0 TRAPFRAMESIZE))
  modify fun s => s.fill dst ((s.data dst).write A0 (List.replicate 8 0))

def dupFile (p np : Fin NPROC) (fd : Fin NOFILE) : ProcM Unit := do
  let k ← get
  match (k.proc p).ofile fd with
  | some f => do
    filedup f
    modify fun k => k.setProc np fun r =>
      { r with ofile := update r.ofile fd (some f) }
  | none => pure ()

/-- The name that `safestrcpy` leaves in `dst`: the bytes up to the first null or the fifteenth
byte, and a null behind them. -/
def copyName (dst src : Fin 16 → UInt8) : Fin 16 → UInt8 := fun i =>
  let last := ((List.range 15).find? fun j => src (Fin.ofNat 16 j) = 0).getD 14
  if i.val ≤ last then src i else if i.val = last + 1 then 0 else dst i

def kforkRest (p np : Fin NPROC) : ProcM ℤ := do
  let k ← get
  modify fun k => k.setProc np fun c => { c with sz := (k.proc p).sz }
  match (k.proc np).trapframe, (k.proc p).trapframe with
  | some dst, some src => do
    onMem (copyTrapframe dst src)
    (List.finRange NOFILE).forM (dupFile p np)
    match (k.proc p).cwd with
    | some ip => do
      idup ip
      modify fun k => k.setProc np fun c =>
        { c with cwd := some ip, name := copyName c.name (k.proc p).name }
      modify fun k => k.setProc np fun c => { c with parent := some p }
      modify fun k => k.setProc np fun c => { c with state := .runnable }
      pure (k.proc np).pid
    | none => throw .null
  | _, _ => throw .null

def kfork (forkret : ℕ) (p : Fin NPROC) : ProcM ℤ := do
  match ← allocproc ly forkret with
  | none => pure (-1)
  | some np => do
    let k ← get
    match (k.proc p).pagetable, (k.proc np).pagetable with
    | some old, some new => do
      let r ← onMem (uvmcopy ly old new (k.proc p).sz)
      modify fun k => k.setProc np fun c => { c with pagetable := some r.1 }
      if r.2 then kforkRest p np
      else do
        freeproc ly np
        pure (-1)
    | _, _ => throw .null

end Xv6.Vm

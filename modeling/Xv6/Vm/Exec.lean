import Xv6.Fs.Path
import Xv6.Vm.Process

/-!
# `kexec`

The code of `exec.c`, over the memory of `vm.c` and the file system of `fs.c`. What `readi` reads of
the inode that `kexec` has locked is a slice of the content of the file (`Xv6.Fs.readi_spec`).
-/

namespace Xv6.Vm

open Hoare

def MAXARG : ℕ := 32

def USERSTACK : ℕ := 1

def ELF_MAGIC : ℕ := 0x464C457F

def ELF_PROG_LOAD : ℕ := 1

def u32 (n : ℕ) : ℕ := n % 2 ^ 32

def usub (a b : ℕ) : ℕ := u64 (a + 2 ^ 64 - b)

/-! ## The headers of the file -/

/-- The `n` bytes at offset `off` as a little-endian number. -/
def field (l : List UInt8) (off n : ℕ) : ℕ :=
  ((l.drop off).take n).foldr (fun b acc => b.toNat + 256 * acc) 0

/-- The fields of `struct elfhdr` that are read. -/
structure Elfhdr where
  magic : ℕ
  entry : ℕ
  phoff : ℕ
  phnum : ℕ
  deriving DecidableEq

def ELFHDRSIZE : ℕ := 64

def Elfhdr.decode (l : List UInt8) : Elfhdr where
  magic := field l 0 4
  entry := field l 24 8
  phoff := field l 32 8
  phnum := field l 56 2

/-- The fields of `struct proghdr` that are read. -/
structure Proghdr where
  type : ℕ
  flags : ℕ
  off : ℕ
  vaddr : ℕ
  filesz : ℕ
  memsz : ℕ

def PROGHDRSIZE : ℕ := 56

def Proghdr.decode (l : List UInt8) : Proghdr where
  type := field l 0 4
  flags := field l 4 4
  off := field l 8 8
  vaddr := field l 16 8
  filesz := field l 32 8
  memsz := field l 40 8

/-- Map ELF permissions to those of a page, which the user can read in any case. -/
def flags2perm (flags : ℕ) : Perm := ⟨true, flags.testBit 1, flags.testBit 0, true⟩

/-! ## Loading -/

def loadsegLoop (pt : PageTable) (va : ℕ) (file : List UInt8) (offset sz : ℕ) : ℕ → ℕ → VmM Bool
  | 0, _ => pure true
  | k + 1, i =>
    if i < sz then
      match walkaddr pt (u64 (va + i)) with
      | none => throw (.panic "loadseg: address should exist")
      | some pa => do
        let n := if sz - i < PGSIZE then sz - i else PGSIZE
        let bytes := Fs.slice file (Fs.uadd offset i) n
        modify fun s => s.fill pa ((s.data pa).write 0 bytes)
        if bytes.length ≠ n then pure false
        else loadsegLoop pt va file offset sz k (Fs.uadd i PGSIZE)
    else pure true

def loadseg (pt : PageTable) (va : ℕ) (file : List UInt8) (offset sz : ℕ) : VmM Bool :=
  loadsegLoop pt va file offset sz (sz / PGSIZE + 1) 0

variable (ly : Layout)

/-- What `kexec` does for one program header: the new memory, and `false` for `goto bad`. -/
def loadPhdr (file : List UInt8) (ph : Proghdr) (p : Space) : VmM (Space × Bool) :=
  if ph.type ≠ ELF_PROG_LOAD then pure (p, true)
  else if ph.memsz < ph.filesz then pure (p, false)
  else if u64 (ph.vaddr + ph.memsz) < ph.vaddr then pure (p, false)
  else if ph.vaddr % PGSIZE ≠ 0 then pure (p, false)
  else do
    let r ← uvmalloc ly p.pagetable p.sz (u64 (ph.vaddr + ph.memsz)) (flags2perm ph.flags)
    if r.2 = 0 then pure (⟨p.sz, r.1⟩, false)
    else do
      let ok ← loadseg r.1 ph.vaddr file (u32 ph.off) (u32 ph.filesz)
      pure (⟨r.2, r.1⟩, ok)

def loadLoop (file : List UInt8) : ℕ → ℤ → Space → VmM (Space × Bool)
  | 0, _, p => pure (p, true)
  | n + 1, off, p =>
    let ph := Fs.slice file (uint32 off) PROGHDRSIZE
    if ph.length ≠ PROGHDRSIZE then pure (p, false)
    else do
      let r ← loadPhdr ly file (.decode ph) p
      if r.2 then loadLoop file n (int32 (off + PROGHDRSIZE)) r.1 else pure r

def stackPages (p : Space) : VmM (Space × Bool) := do
  let sz := pgroundup p.sz
  let r ← uvmalloc ly p.pagetable sz (u64 (sz + (USERSTACK + 1) * PGSIZE)) ⟨true, true, false, true⟩
  if r.2 = 0 then pure (⟨sz, r.1⟩, false)
  else do
    let pt ← uvmclear r.1 (usub r.2 ((USERSTACK + 1) * PGSIZE))
    pure (⟨r.2, pt⟩, true)

/-! ## The arguments -/

def wordBytes (n : ℕ) : List UInt8 := (List.range 8).map fun i => UInt8.ofNat (n / 256 ^ i)

def lower (sp n : ℕ) : ℕ := usub sp n - usub sp n % 16

/-- Copy the argument strings into the new stack and remember their addresses in `ustack`, which has
as many entries as arguments were copied; `none` for `goto bad`. -/
def pushArgs (pt : PageTable) (stackbase : ℕ) :
    List (List UInt8) → Space → ℕ → List ℕ → VmM (Space × Option (ℕ × List ℕ))
  | [], q, sp, ustack => pure (q, some (sp, ustack))
  | arg :: argv, q, sp, ustack =>
    if ustack.length ≥ MAXARG then pure (q, none)
    else if lower sp (arg.length + 1) < stackbase then pure (q, none)
    else do
      let r ← copyout ly (some pt) q (lower sp (arg.length + 1)) (arg ++ [0])
      if r.2 then
        pushArgs pt stackbase argv r.1 (lower sp (arg.length + 1))
          (ustack ++ [lower sp (arg.length + 1)])
      else pure (r.1, none)

/-- Set up the stack of the new memory `p`: the stack pointer and the number of arguments. -/
def copyArgs (p : Space) (argv : List (List UInt8)) (q : Space) :
    VmM (Space × Option (ℕ × ℕ)) := do
  let stackbase := usub p.sz (USERSTACK * PGSIZE)
  let r ← pushArgs ly p.pagetable stackbase argv q p.sz []
  match r.2 with
  | none => pure (r.1, none)
  | some (sp, ustack) =>
    -- `ustack[argc] = 0` would be past the end
    if ustack.length ≥ MAXARG then throw .null
    else if lower sp ((ustack.length + 1) * 8) < stackbase then pure (r.1, none)
    else do
      let w ← copyout ly (some p.pagetable) r.1 (lower sp ((ustack.length + 1) * 8))
        ((ustack ++ [0]).flatMap wordBytes)
      pure (w.1, if w.2 then some (lower sp ((ustack.length + 1) * 8), ustack.length) else none)

/-! ## kexec -/

/-- The state `kexec` works on: the memory, the fields of the calling process, and the file system.
-/
structure Caller where
  mem : Mem
  sz : ℕ
  pagetable : PageTable
  trapframe : ℕ
  name : Fin 16 → UInt8
  fs : Fs.Kernel
  /-- The entry of the process in the process table. -/
  proc : Fs.ProcId

/-- Why a call of `kexec` does not return. -/
inductive ExecHalt
  | vm (e : Halt)
  | fs (e : Fs.Halt)
  deriving DecidableEq, Repr

abbrev ExecM (α : Type) := Prog Caller ExecHalt α

abbrev inMem {α : Type} (x : VmM α) : ExecM α :=
  zoom Caller.mem (fun t s => { t with mem := s }) .vm x

abbrev inFs {α : Type} (x : Fs.FsM α) : ExecM α :=
  zoom Caller.fs (fun t s => { t with fs := s }) .fs x

variable (sb : Fs.Superblock)

/-- Give back the inode, unless `ip` has been set to 0. -/
def release (ip : Option Fs.InodeId) : ExecM Unit :=
  match ip with
  | some ip => do
    inFs (Fs.iunlockput sb ip)
    inFs Fs.endOp
  | none => pure ()

/-- The code at the label `bad`: the new memory, if there is a page table, and the inode, if it is
still held. -/
def bad (p : Option Space) (ip : Option Fs.InodeId) : ExecM Unit :=
  match p with
  | some p => do
    inMem (procFreepagetable ly p.pagetable p.sz)
    release sb ip
  | none => release sb ip

/-- The bytes of the file of a locked inode. -/
def Caller.content (t : Caller) (ip : Fs.InodeId) : List UInt8 :=
  (t.fs.eff ip).content (t.fs.itable ip).inum

/-- The part of `kexec` before the arguments are copied: the header and the new memory. -/
def loadImage (path : List UInt8) : ExecM (Option (Elfhdr × Space)) := do
  inFs Fs.beginOp
  let t ← get
  match ← inFs (Fs.namei sb t.proc path) with
  | none => do
    inFs Fs.endOp
    pure none
  | some ip => do
    inFs (Fs.ilock sb ip)
    let t ← get
    let file := t.content ip
    let elf := Fs.slice file 0 ELFHDRSIZE
    if elf.length ≠ ELFHDRSIZE then do
      bad ly sb none (some ip)
      pure none
    else if (Elfhdr.decode elf).magic ≠ ELF_MAGIC then do
      bad ly sb none (some ip)
      pure none
    else do
      match ← inMem (procPagetable ly t.trapframe) with
      | none => do
        bad ly sb none (some ip)
        pure none
      | some pt => do
        let r ← inMem (loadLoop ly file (Elfhdr.decode elf).phnum (int32 (Elfhdr.decode elf).phoff)
          ⟨0, pt⟩)
        if r.2 then do
          release sb (some ip)
          let r ← inMem (stackPages ly r.1)
          if r.2 then pure (some (.decode elf, r.1))
          else do
            bad ly sb (some r.1) none
            pure none
        else do
          bad ly sb (some r.1) (some ip)
          pure none

/-- Offset of the saved program counter in the trapframe. -/
def EPC : ℕ := 24

def SP : ℕ := 48

def A1 : ℕ := 120

def setReg (off n : ℕ) : ExecM Unit :=
  modify fun t => { t with
    mem := t.mem.fill t.trapframe ((t.mem.data t.trapframe).write off (wordBytes n)) }

/-- The part of a path behind the last slash; `last` is the result so far. -/
def lastElem : List UInt8 → List UInt8 → List UInt8
  | last, [] => last
  | last, b :: s => if b = 47 then lastElem s s else lastElem last s

def commitImage (path : List UInt8) (elf : Elfhdr) (p : Space) (sp : ℕ) : ExecM Unit := do
  setReg A1 sp
  let t ← get
  modify fun t => { t with
    name := copyName t.name fun i => (lastElem path path).getD i 0
    pagetable := p.pagetable
    sz := p.sz }
  setReg EPC elf.entry
  setReg SP sp
  inMem (procFreepagetable ly t.pagetable t.sz)

/-- The part of `kexec` from the arguments on, for the new memory `p`. -/
def execArgs (path : List UInt8) (argv : List (List UInt8)) (elf : Elfhdr) (p : Space) :
    ExecM ℤ := do
  let t ← get
  let r ← inMem (copyArgs ly p argv ⟨t.sz, t.pagetable⟩)
  modify fun t => { t with sz := r.1.sz, pagetable := r.1.pagetable }
  match r.2 with
  | none => do
    bad ly sb (some p) none
    pure (-1)
  | some (sp, argc) => do
    commitImage ly path elf p sp
    pure argc

def kexec (path : List UInt8) (argv : List (List UInt8)) : ExecM ℤ := do
  match ← loadImage ly sb path with
  | none => pure (-1)
  | some (elf, p) => execArgs ly sb path argv elf p

end Xv6.Vm

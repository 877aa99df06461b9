import Xv6.Fs.File

/-!
# System calls

`sysfile.c` and the part of `exec.c` that reads the executable.
-/

namespace Xv6.Fs

open Hoare

variable (sb : Superblock)

/-! ## Descriptors -/

def argfd (s : Kernel) (p : ProcId) (fd : ℤ) : Option (Fin NOFILE × FileId) :=
  if h : 0 ≤ fd ∧ fd < NOFILE then
    let n : Fin NOFILE := ⟨fd.toNat, by omega⟩
    ((s.files.proc p).ofile n).map fun f => (n, f)
  else none

def fdalloc (p : ProcId) (f : FileId) : FsM (Option (Fin NOFILE)) := do
  let s ← get
  match (List.finRange NOFILE).find? fun fd => decide ((s.files.proc p).ofile fd = none) with
  | some fd => do
    modify fun s => s.setOfile p fd (some f)
    pure (some fd)
  | none => pure none

def sysDup (p : ProcId) (fd : ℤ) : FsM ℤ := do
  let s ← get
  match argfd s p fd with
  | none => pure (-1)
  | some (_, f) => do
    let fd ← fdalloc p f
    match fd with
    | none => pure (-1)
    | some fd => do
      filedup f
      pure fd

def sysClose (p : ProcId) (fd : ℤ) : FsM ℤ := do
  let s ← get
  match argfd s p fd with
  | none => pure (-1)
  | some (fd, f) => do
    modify fun s => s.setOfile p fd none
    fileclose sb f
    pure 0

/-! ## Links -/

def addLinks (ip : InodeId) (k : ℤ) : FsM Unit := do
  modify fun s => s.setCopy ip { (s.itable ip).d with nlink := int16 ((s.itable ip).d.nlink + k) }
  iupdate sb ip

def addLinksOfParent (dp : InodeId) (type : FileType) (k : ℤ) : FsM Unit :=
  if type = .dir then addLinks sb dp k else pure ()

def sysLinkBad (ip : InodeId) : FsM ℤ := do
  ilock sb ip
  addLinks sb ip (-1)
  iunlockput sb ip
  endOp
  pure (-1)

def sysLinkTo (p : ProcId) (ip : InodeId) (new : List UInt8) : FsM ℤ := do
  let r ← nameiparent sb p new
  match r with
  | none => sysLinkBad sb ip
  | some (dp, name) => do
    ilock sb dp
    let s ← get
    let r ← dirlink sb dp name (s.itable ip).inum
    if r < 0 then do
      iunlockput sb dp
      sysLinkBad sb ip
    else do
      iunlockput sb dp
      iput sb ip
      endOp
      pure 0

def sysLink (p : ProcId) (old new : Option (List UInt8)) : FsM ℤ :=
  match old, new with
  | some old, some new => do
    beginOp
    let r ← namei sb p old
    match r with
    | none => do
      endOp
      pure (-1)
    | some ip => do
      ilock sb ip
      let s ← get
      if (s.itable ip).d.type = .dir then do
        iunlockput sb ip
        endOp
        pure (-1)
      else do
        addLinks sb ip 1
        iunlock ip
        sysLinkTo sb p ip new
  | _, _ => pure (-1)

def isdiremptyLoop (dp : InodeId) : ℕ → ℕ → FsM Bool
  | 0, _ => pure true
  | k + 1, off => do
    let s ← get
    if off < (s.itable dp).d.size then do
      let de ← readDirent sb dp off "isdirempty: readi"
      if de.inum ≠ 0 then pure false else isdiremptyLoop dp k (off + DIRENT)
    else pure true

def isdirempty (dp : InodeId) : FsM Bool := do
  let s ← get
  isdiremptyLoop sb dp ((s.itable dp).d.size / DIRENT + 1) (2 * DIRENT)

/-- The test of `sys_unlink`: anything but a directory with entries may be removed. -/
def removable (ip : InodeId) : FsM Bool := do
  let s ← get
  if (s.itable ip).d.type = .dir then isdirempty sb ip else pure true

def sysUnlinkBad (dp : InodeId) : FsM ℤ := do
  iunlockput sb dp
  endOp
  pure (-1)

def sysUnlinkEntry (dp ip : InodeId) (off : ℕ) : FsM ℤ := do
  let r ← writei sb dp (Src.kernel Dirent.zero.toBytes) off DIRENT
  if r ≠ DIRENT then throw (.panic "unlink: writei")
  else do
    let s ← get
    addLinksOfParent sb dp (s.itable ip).d.type (-1)
    iunlockput sb dp
    addLinks sb ip (-1)
    iunlockput sb ip
    endOp
    pure 0

def sysUnlinkIn (dp : InodeId) (name : List UInt8) : FsM ℤ := do
  ilock sb dp
  -- Cannot unlink "." or "..".
  if namecmp name dot = 0 ∨ namecmp name dotdot = 0 then sysUnlinkBad sb dp
  else do
    let r ← dirlookup sb dp name
    match r with
    | none => sysUnlinkBad sb dp
    | some (ip, off) => do
      ilock sb ip
      let s ← get
      if (s.itable ip).d.nlink < 1 then throw (.panic "unlink: nlink < 1")
      else do
        let ok ← removable sb ip
        if ok = false then do
          iunlockput sb ip
          sysUnlinkBad sb dp
        else sysUnlinkEntry sb dp ip off

def sysUnlink (p : ProcId) (path : Option (List UInt8)) : FsM ℤ :=
  match path with
  | none => pure (-1)
  | some path => do
    beginOp
    let r ← nameiparent sb p path
    match r with
    | none => do
      endOp
      pure (-1)
    | some (dp, name) => sysUnlinkIn sb dp name

/-! ## Creating files -/

/-- The error exit of `create`: de-allocate the new inode. -/
def createFail (dp ip : InodeId) : FsM (Option InodeId) := do
  modify fun s => s.setCopy ip { (s.itable ip).d with nlink := 0 }
  iupdate sb ip
  iunlockput sb ip
  iunlockput sb dp
  pure none

/-- The `.` and `..` entries of a new directory; whether they could be written. -/
def createDots (dp ip : InodeId) (type : FileType) : FsM Bool :=
  if type = .dir then do
    -- No ip->nlink++ for ".": avoid cyclic ref count.
    let s ← get
    let r ← dirlink sb ip dot (s.itable ip).inum
    if r < 0 then pure false
    else do
      let s ← get
      let r ← dirlink sb ip dotdot (s.itable dp).inum
      pure (decide (0 ≤ r))
  else pure true

/-- The part of `create` that enters the new inode `ip` in the directory `dp`. -/
def createEntry (dp ip : InodeId) (name : List UInt8) (type : FileType) :
    FsM (Option InodeId) := do
  let s ← get
  let r ← dirlink sb dp name (s.itable ip).inum
  if r < 0 then createFail sb dp ip
  else do
    -- now that success is guaranteed: for ".."
    addLinksOfParent sb dp type 1
    iunlockput sb dp
    pure (some ip)

def createNew (dp : InodeId) (name : List UInt8) (type : FileType) (major minor : ℤ) :
    FsM (Option InodeId) := do
  let r ← ialloc sb type
  match r with
  | none => do
    iunlockput sb dp
    pure none
  | some ip => do
    ilock sb ip
    modify fun s =>
      s.setCopy ip { (s.itable ip).d with major := int16 major, minor := int16 minor, nlink := 1 }
    iupdate sb ip
    let ok ← createDots sb dp ip type
    if ok then createEntry sb dp ip name type else createFail sb dp ip

def createFound (dp ip : InodeId) (type : FileType) : FsM (Option InodeId) := do
  iunlockput sb dp
  ilock sb ip
  let s ← get
  if type = .file ∧ ((s.itable ip).d.type = .file ∨ (s.itable ip).d.type = .device) then
    pure (some ip)
  else do
    iunlockput sb ip
    pure none

def create (p : ProcId) (path : List UInt8) (type : FileType) (major minor : ℤ) :
    FsM (Option InodeId) := do
  let r ← nameiparent sb p path
  match r with
  | none => pure none
  | some (dp, name) => do
    ilock sb dp
    let r ← dirlookup sb dp name
    match r with
    | some (ip, _) => createFound sb dp ip type
    | none => createNew sb dp name type major minor

def O_WRONLY : ℕ := 0x001

def O_RDWR : ℕ := 0x002

def O_CREATE : ℕ := 0x200

def O_TRUNC : ℕ := 0x400

def hasFlag (omode flag : ℕ) : Bool := omode &&& flag ≠ 0

def sysOpenBad (ip : InodeId) : FsM ℤ := do
  iunlockput sb ip
  endOp
  pure (-1)

def openAlloc (p : ProcId) : FsM (Option (FileId × Fin NOFILE)) := do
  let r ← filealloc
  match r with
  | none => pure none
  | some f => do
    let r ← fdalloc p f
    match r with
    | none => do
      fileclose sb f
      pure none
    | some fd => pure (some (f, fd))

def File.openOn (file : File) (ip : InodeId) (d : Dinode) (omode : ℕ) : File :=
  let file := if d.type = .device then { file with type := .device, major := d.major }
    else { file with type := .inode, off := 0 }
  { file with
    ip := ip
    readable := !hasFlag omode O_WRONLY
    writable := hasFlag omode O_WRONLY || hasFlag omode O_RDWR }

def openTrunc (ip : InodeId) (omode : ℕ) (type : FileType) : FsM Unit :=
  if hasFlag omode O_TRUNC ∧ type = .file then itrunc sb ip else pure ()

def sysOpenInode (p : ProcId) (ip : InodeId) (omode : ℕ) : FsM ℤ := do
  let s ← get
  let d := (s.itable ip).d
  if d.type = .device ∧ (d.major < 0 ∨ d.major ≥ NDEV) then sysOpenBad sb ip
  else do
    let r ← openAlloc sb p
    match r with
    | none => sysOpenBad sb ip
    | some (f, fd) => do
      modify fun s => s.setFile f ((s.files.ftable f).openOn ip d omode)
      openTrunc sb ip omode d.type
      iunlock ip
      endOp
      pure fd

def sysOpen (p : ProcId) (path : Option (List UInt8)) (omode : ℕ) : FsM ℤ :=
  match path with
  | none => pure (-1)
  | some path => do
    beginOp
    if hasFlag omode O_CREATE then do
      let r ← create sb p path .file 0 0
      match r with
      | none => do
        endOp
        pure (-1)
      | some ip => sysOpenInode sb p ip omode
    else do
      let r ← namei sb p path
      match r with
      | none => do
        endOp
        pure (-1)
      | some ip => do
        ilock sb ip
        let s ← get
        if (s.itable ip).d.type = .dir ∧ omode ≠ 0 then sysOpenBad sb ip
        else sysOpenInode sb p ip omode

def sysMake (p : ProcId) (path : Option (List UInt8)) (type : FileType) (major minor : ℤ) :
    FsM ℤ := do
  beginOp
  match path with
  | none => do
    endOp
    pure (-1)
  | some path => do
    let r ← create sb p path type major minor
    match r with
    | none => do
      endOp
      pure (-1)
    | some ip => do
      iunlockput sb ip
      endOp
      pure 0

def sysMkdir (p : ProcId) (path : Option (List UInt8)) : FsM ℤ := sysMake sb p path .dir 0 0

def sysMknod (p : ProcId) (path : Option (List UInt8)) (major minor : ℤ) : FsM ℤ :=
  sysMake sb p path .device major minor

def sysChdir (p : ProcId) (path : Option (List UInt8)) : FsM ℤ := do
  beginOp
  match path with
  | none => do
    endOp
    pure (-1)
  | some path => do
    let r ← namei sb p path
    match r with
    | none => do
      endOp
      pure (-1)
    | some ip => do
      ilock sb ip
      let s ← get
      if (s.itable ip).d.type ≠ .dir then do
        iunlockput sb ip
        endOp
        pure (-1)
      else do
        iunlock ip
        match (s.files.proc p).cwd with
        | none => throw .null
        | some cwd => do
          iput sb cwd
          endOp
          modify fun s => s.setProc p { s.files.proc p with cwd := some ip }
          pure 0

/-! ## exec -/

/-- What the memory of a new image does: whether a page table can be made, whether the segment of a
program header can be allocated, whether a page is mapped, and the number of arguments on the stack
of the new image if they fit. -/
structure ExecMem where
  pagetable : Bool
  uvmalloc : ℕ → Bool
  walkaddr : ℕ → Bool
  stack : Option ℕ

def PGSIZE : ℕ := 4096

def ELF_MAGIC : ℕ := 0x464C457F

def field (bytes : List UInt8) (off len : ℕ) : ℕ := leNum ((bytes.drop off).take len)

def loadseg (mem : ExecMem) (va : ℕ) (ip : InodeId) (offset sz : ℕ) : ℕ → ℕ → FsM Bool
  | 0, _ => pure true
  | k + 1, i =>
    if i < sz then
      if mem.walkaddr (va + i) = false then throw (.panic "loadseg: address should exist")
      else do
        let n := if sz - i < PGSIZE then sz - i else PGSIZE
        let (r, _) ← readi sb ip Dst.kernel (uadd offset i) n
        if r ≠ n then pure false else loadseg mem va ip offset sz k (i + PGSIZE)
    else pure true

/-- Load the segments of the program headers from number `i` on, at offset `off`. -/
def loadProgram (mem : ExecMem) (ip : InodeId) : ℕ → ℕ → ℕ → FsM Bool
  | 0, _, _ => pure true
  | k + 1, i, off => do
    let (r, ph) ← readi sb ip Dst.kernel off 56
    if r ≠ 56 then pure false
    else if field ph 0 4 ≠ 1 then loadProgram mem ip k (i + 1) (uadd off 56)
    else
      let phOff := field ph 8 8
      let vaddr := field ph 16 8
      let filesz := field ph 32 8
      let memsz := field ph 40 8
      if memsz < filesz then pure false
      else if (vaddr + memsz) % 2 ^ 64 < vaddr then pure false
      else if vaddr % PGSIZE ≠ 0 then pure false
      else if mem.uvmalloc i = false then pure false
      else do
        let sz := filesz % 2 ^ 32
        let ok ← loadseg sb mem vaddr ip (phOff % 2 ^ 32) sz (sz / PGSIZE + 1) 0
        if ok then loadProgram mem ip k (i + 1) (uadd off 56) else pure false

def loadImage (mem : ExecMem) (ip : InodeId) : FsM Bool := do
  let (r, elf) ← readi sb ip Dst.kernel 0 64
  if r ≠ 64 then pure false
  else if field elf 0 4 ≠ ELF_MAGIC then pure false
  else if mem.pagetable = false then pure false
  else loadProgram sb mem ip (field elf 56 2) 0 (field elf 32 8 % 2 ^ 32)

/-- The `exec` system call: what it does to the file system. -/
def kexec (p : ProcId) (path : List UInt8) (mem : ExecMem) : FsM ℤ := do
  beginOp
  let r ← namei sb p path
  match r with
  | none => do
    endOp
    pure (-1)
  | some ip => do
    ilock sb ip
    let ok ← loadImage sb mem ip
    iunlockput sb ip
    endOp
    if ok then pure (match mem.stack with | some argc => argc | none => -1)
    else pure (-1)

/-- The `exec` system call; `args` is whether the arguments could be fetched. -/
def sysExec (p : ProcId) (path : Option (List UInt8)) (args : Bool) (mem : ExecMem) : FsM ℤ :=
  match path with
  | some path => if args then kexec sb p path mem else pure (-1)
  | none => pure (-1)

/-! ## Pipes -/

def sysPipeBad (rf wf : FileId) : FsM ℤ := do
  fileclose sb rf
  fileclose sb wf
  pure (-1)

/-- The `pipe` system call; `page` is whether there is memory for the pipe, `copyout` whether the
descriptors can be copied to the caller. -/
def sysPipe (p : ProcId) (page copyout : Bool) : FsM ℤ := do
  let r ← pipealloc sb page
  match r with
  | none => pure (-1)
  | some (rf, wf) => do
    let fd0 ← fdalloc p rf
    match fd0 with
    | none => sysPipeBad sb rf wf
    | some fd0 => do
      let fd1 ← fdalloc p wf
      match fd1 with
      | none => do
        modify fun s => s.setOfile p fd0 none
        sysPipeBad sb rf wf
      | some fd1 =>
        if copyout then pure 0
        else do
          modify fun s => s.setOfile p fd0 none
          modify fun s => s.setOfile p fd1 none
          sysPipeBad sb rf wf

end Xv6.Fs

import Xv6.Foundations.Hoare
import Xv6.Fs.Format

/-!
# Blocks and inodes

The state of the file system and the code of `fs.c` up to `writei`.
-/

namespace Xv6.Fs

open Hoare Function

/-- Index of an entry of the inode table, what a `struct inode *` points to. -/
abbrev InodeId := Fin NINODE

/-- Index of an entry of the file table, what a `struct file *` points to. -/
abbrev FileId := Fin NFILE

abbrev ProcId := Fin NPROC

/-! ## The state -/

/-- The content of the disk: the inodes, the free map and the data blocks. -/
structure Volume where
  dinode : ℕ → Dinode
  bit : ℕ → Bool
  data : ℕ → Block

/-- The in-memory copy of an inode. -/
structure Inode where
  inum : ℕ
  ref : ℤ
  locked : Bool
  /-- Has the inode been read from disk? -/
  valid : Bool
  /-- Copy of the disk inode. -/
  d : Dinode

/-- What the log knows of the running operations. -/
structure OpLog where
  /-- Number of operations between `begin_op` and `end_op`. -/
  outstanding : ℤ
  /-- The blocks logged by each section, the latest section first. -/
  ops : List (Finset ℕ)

/-- What a `struct file` is. -/
inductive FdType
  | none
  | pipe
  | inode
  | device
  deriving DecidableEq, Repr

/-- An open file. -/
structure File where
  type : FdType
  ref : ℤ
  readable : Bool
  writable : Bool
  pipe : ℕ
  ip : InodeId
  off : ℕ
  major : ℤ

/-- A pipe: whether its ends are open, and how often its page was freed. -/
structure Pipe where
  readopen : Bool
  writeopen : Bool
  kfrees : ℕ
  deriving DecidableEq, Repr

inductive ProcState
  | unused
  | used
  | zombie
  deriving DecidableEq, Repr

/-- The part of a process the file system uses. -/
structure Proc where
  state : ProcState
  pid : ℤ
  ofile : Fin NOFILE → Option FileId
  cwd : Option InodeId

/-- The open files, the pipes and the processes. -/
structure Files where
  ftable : FileId → File
  /-- The pipes allocated so far are the numbers below `npipe`. -/
  pipe : ℕ → Pipe
  npipe : ℕ
  proc : ProcId → Proc
  nextpid : ℤ
  initproc : ProcId

/-- The state of the kernel. -/
structure Kernel where
  vol : Volume
  itable : InodeId → Inode
  log : OpLog
  files : Files

/-- Why a call does not return. -/
inductive Halt
  | panic (msg : String)
  /-- The call waits for a sleep-lock it holds itself. -/
  | deadlock
  /-- An inode number points past the inode area. -/
  | wild
  | null
  deriving DecidableEq, Repr

abbrev FsM (α : Type) := Prog Kernel Halt α

namespace Kernel

def setInode (s : Kernel) (ip : InodeId) (i : Inode) : Kernel :=
  { s with itable := update s.itable ip i }

def setCopy (s : Kernel) (ip : InodeId) (d : Dinode) : Kernel :=
  s.setInode ip { s.itable ip with d := d }

def addRef (s : Kernel) (ip : InodeId) (k : ℤ) : Kernel :=
  s.setInode ip { s.itable ip with ref := (s.itable ip).ref + k }

def setLocked (s : Kernel) (ip : InodeId) (b : Bool) : Kernel :=
  s.setInode ip { s.itable ip with locked := b }

def setDinode (s : Kernel) (inum : ℕ) (d : Dinode) : Kernel :=
  { s with vol := { s.vol with dinode := update s.vol.dinode inum d } }

def setBit (s : Kernel) (b : ℕ) (v : Bool) : Kernel :=
  { s with vol := { s.vol with bit := update s.vol.bit b v } }

def setData (s : Kernel) (b : ℕ) (a : Block) : Kernel :=
  { s with vol := { s.vol with data := update s.vol.data b a } }

end Kernel

/-! ## The log -/

def beginOp : FsM Unit :=
  modify fun s => { s with log := ⟨s.log.outstanding + 1, ∅ :: s.log.ops⟩ }

/-- The state after `begin_op`. -/
def Kernel.begun (s : Kernel) : Kernel :=
  { s with log := ⟨s.log.outstanding + 1, ∅ :: s.log.ops⟩ }

def endOp : FsM Unit :=
  modify fun s => { s with log := ⟨s.log.outstanding - 1, s.log.ops⟩ }

def OpLog.write (l : OpLog) (b : ℕ) : OpLog := ⟨l.outstanding, l.ops.modifyHead (insert b)⟩

/-- The caller has modified the block and is done with the buffer. -/
def logWrite (b : ℕ) : FsM Unit := do
  let s ← get
  if s.log.outstanding < 1 then throw (.panic "log_write outside of trans")
  else modify fun s => { s with log := s.log.write b }

/-! ## Blocks -/

def bzero (bno : ℕ) : FsM Unit := do
  modify fun s => s.setData bno Block.zero
  logWrite bno

/-- The scan of `balloc` over one block of the free map, from bit `bi` on. -/
def ballocBits (bit : ℕ → Bool) (size b : ℕ) : ℕ → ℕ → Option ℕ
  | 0, _ => none
  | k + 1, bi =>
    if b + bi < size then
      if bit (b + bi) then ballocBits bit size b k (bi + 1) else some (b + bi)
    else none

def ballocScan (bit : ℕ → Bool) (size : ℕ) : ℕ → ℕ → Option ℕ
  | 0, _ => none
  | k + 1, b =>
    if b < size then
      match ballocBits bit size b BPB 0 with
      | some r => some r
      | none => ballocScan bit size k (b + BPB)
    else none

variable (sb : Superblock)

/-- Allocate a zeroed disk block; 0 if out of disk space. -/
def balloc : FsM ℕ := do
  let s ← get
  match ballocScan s.vol.bit sb.size (sb.size / BPB + 1) 0 with
  | some b => do
    modify fun s => s.setBit b true
    logWrite (sb.bblock b)
    bzero b
    pure b
  | none => pure 0

def bfree (b : ℕ) : FsM Unit := do
  let s ← get
  if s.vol.bit b = false then throw (.panic "freeing free block")
  else do
    modify fun s => s.setBit b false
    logWrite (sb.bblock b)

/-! ## The inode table -/

def iget (inum : ℕ) : FsM InodeId := do
  let s ← get
  match (List.finRange NINODE).find?
      fun ip => decide ((s.itable ip).ref > 0 ∧ (s.itable ip).inum = inum) with
  | some ip => do
    modify fun s => s.addRef ip 1
    pure ip
  | none =>
    match (List.finRange NINODE).find? fun ip => decide ((s.itable ip).ref = 0) with
    | some ip => do
      modify fun s => s.setInode ip { s.itable ip with inum := inum, ref := 1, valid := false }
      pure ip
    | none => throw (.panic "iget: no inodes")

def ialloc (type : FileType) : FsM (Option InodeId) := do
  let s ← get
  match (List.range' 1 (sb.ninodes - 1)).find?
      fun inum => decide ((s.vol.dinode inum).type = .free) with
  | some inum => do
    modify fun s => s.setDinode inum { Dinode.zero with type := type }
    logWrite (sb.iblock inum)
    let ip ← iget inum
    pure (some ip)
  | none => pure none

def iupdate (ip : InodeId) : FsM Unit := do
  modify fun s => s.setDinode (s.itable ip).inum (s.itable ip).d
  let s ← get
  logWrite (sb.iblock (s.itable ip).inum)

def idup (ip : InodeId) : FsM InodeId := do
  modify fun s => s.addRef ip 1
  pure ip

def ilock (ip : InodeId) : FsM Unit := do
  let s ← get
  let i := s.itable ip
  if i.ref < 1 then throw (.panic "ilock")
  else if i.locked then throw .deadlock
  else if i.valid then modify fun s => s.setLocked ip true
  else if i.inum ≥ sb.ninodes then throw .wild
  else if (s.vol.dinode i.inum).type = .free then throw (.panic "ilock: no type")
  else modify fun s => s.setInode ip { i with locked := true, valid := true, d := s.vol.dinode i.inum }

def iunlock (ip : InodeId) : FsM Unit := do
  let s ← get
  if (s.itable ip).locked = false ∨ (s.itable ip).ref < 1 then throw (.panic "iunlock")
  else modify fun s => s.setLocked ip false

/-! ## Inode content -/

/-- The block address in slot `k` of the inode, allocating a block if there is none; 0 if out of
disk space. -/
def bmapSlot (ip : InodeId) (k : ℕ) : FsM ℕ := do
  let s ← get
  let d := (s.itable ip).d
  if d.addrs k = 0 then do
    let addr ← balloc sb
    if addr = 0 then pure 0
    else do
      modify fun s => s.setCopy ip { d with addrs := update d.addrs k addr }
      pure addr
  else pure (d.addrs k)

/-- The block address in entry `j` of the indirect block `ind`, allocating a block if there is
none; 0 if out of disk space. -/
def bmapEntry (ind j : ℕ) : FsM ℕ := do
  let s ← get
  if (s.vol.data ind).word j = 0 then do
    let addr ← balloc sb
    if addr = 0 then pure 0
    else do
      modify fun s => s.setData ind ((s.vol.data ind).setWord j addr)
      logWrite ind
      pure addr
  else pure ((s.vol.data ind).word j)

/-- Return the disk block address of the `bn`th block of the inode, allocating one if there is
none; 0 if out of disk space. -/
def bmap (ip : InodeId) (bn : ℕ) : FsM ℕ :=
  if bn < NDIRECT then bmapSlot sb ip bn
  else if bn - NDIRECT < NINDIRECT then do
    -- Load indirect block, allocating if necessary.
    let ind ← bmapSlot sb ip NDIRECT
    if ind = 0 then pure 0 else bmapEntry sb ind (bn - NDIRECT)
  else throw (.panic "bmap: out of range")

def itruncDirect (ip : InodeId) (i : ℕ) : FsM Unit := do
  let s ← get
  let d := (s.itable ip).d
  if d.addrs i = 0 then pure ()
  else do
    bfree sb (d.addrs i)
    modify fun s => s.setCopy ip { d with addrs := update d.addrs i 0 }

def itruncIndirect (ip : InodeId) : FsM Unit := do
  let s ← get
  let d := (s.itable ip).d
  if d.addrs NDIRECT = 0 then pure ()
  else do
    let a := s.vol.data (d.addrs NDIRECT)
    (List.range NINDIRECT).forM fun j => if a.word j = 0 then pure () else bfree sb (a.word j)
    bfree sb (d.addrs NDIRECT)
    modify fun s => s.setCopy ip { d with addrs := update d.addrs NDIRECT 0 }

def itrunc (ip : InodeId) : FsM Unit := do
  (List.range NDIRECT).forM (itruncDirect sb ip)
  itruncIndirect sb ip
  modify fun s => s.setCopy ip { (s.itable ip).d with size := 0 }
  iupdate sb ip

def iputFree (ip : InodeId) : FsM Unit := do
  let s ← get
  if (s.itable ip).locked then throw .deadlock
  else do
    modify fun s => s.setLocked ip true
    itrunc sb ip
    modify fun s => s.setCopy ip { (s.itable ip).d with type := .free }
    iupdate sb ip
    modify fun s => s.setInode ip { s.itable ip with valid := false, locked := false }

def iputLast (ip : InodeId) : FsM Unit := do
  let s ← get
  let i := s.itable ip
  if i.ref = 1 ∧ i.valid = true ∧ i.d.nlink = 0 then iputFree sb ip else pure ()

def iput (ip : InodeId) : FsM Unit := do
  iputLast sb ip
  modify fun s => s.addRef ip (-1)

def iunlockput (ip : InodeId) : FsM Unit := do
  iunlock ip
  iput sb ip

def ireclaimInode (inum : ℕ) : FsM Unit := do
  let s ← get
  if (s.vol.dinode inum).type ≠ .free ∧ (s.vol.dinode inum).nlink = 0 then do
    let ip ← iget inum
    beginOp
    ilock sb ip
    iunlock ip
    iput sb ip
    endOp
  else pure ()

/-- Free the inodes without links a crash left allocated. -/
def ireclaim : FsM Unit :=
  (List.range' 1 (sb.ninodes - 1)).forM (ireclaimInode sb)

/-! ## Reading and writing -/

def uadd (a b : ℕ) : ℕ := (a + b) % 2 ^ 32

/-- Whether copying `m` bytes to the destination succeeds, by the offset in it. -/
abbrev Dst := ℕ → ℕ → Bool

def Dst.kernel : Dst := fun _ _ => true

def readiLoop (ip : InodeId) (dst : Dst) (n : ℕ) :
    ℕ → ℕ → ℕ → List UInt8 → FsM (ℤ × List UInt8)
  | 0, tot, _, acc => pure (tot, acc)
  | k + 1, tot, off, acc =>
    if tot < n then do
      let addr ← bmap sb ip (off / BSIZE)
      if addr = 0 then pure (tot, acc)
      else do
        let s ← get
        let m := min (n - tot) (BSIZE - off % BSIZE)
        if dst tot m then
          readiLoop ip dst n k (tot + m) (off + m)
            (acc ++ (s.vol.data addr).read (off % BSIZE) m)
        else pure (-1, acc)
    else pure (tot, acc)

/-- Read data from inode: the value returned and the bytes copied out. -/
def readi (ip : InodeId) (dst : Dst) (off n : ℕ) : FsM (ℤ × List UInt8) := do
  let s ← get
  let size := (s.itable ip).d.size
  if off > size ∨ uadd off n < off then pure (0, [])
  else
    let n := if uadd off n > size then size - off else n
    readiLoop sb ip dst n n 0 off []

/-- The bytes of a source, by offset. A byte that cannot be read is `none`. -/
abbrev Src := ℕ → Option UInt8

def Src.kernel (bytes : List UInt8) : Src := fun k => some (bytes.getD k 0)

/-- The bytes a copy of `m` bytes from offset `tot` transfers; it fails unless these are all. -/
def Src.copyin (src : Src) : ℕ → ℕ → List UInt8
  | _, 0 => []
  | tot, m + 1 =>
    match src tot with
    | some b => b :: src.copyin (tot + 1) m
    | none => []

def writeiLoop (ip : InodeId) (src : Src) (n : ℕ) : ℕ → ℕ → ℕ → FsM (ℕ × ℕ)
  | 0, tot, off => pure (tot, off)
  | k + 1, tot, off =>
    if tot < n then do
      let addr ← bmap sb ip (off / BSIZE)
      if addr = 0 then pure (tot, off)
      else do
        let m := min (n - tot) (BSIZE - off % BSIZE)
        let bytes := src.copyin tot m
        modify fun s => s.setData addr ((s.vol.data addr).write (off % BSIZE) bytes)
        if bytes.length < m then pure (tot, off)
        else do
          logWrite addr
          writeiLoop ip src n k (tot + m) (off + m)
    else pure (tot, off)

def writei (ip : InodeId) (src : Src) (off n : ℕ) : FsM ℤ := do
  let s ← get
  if off > (s.itable ip).d.size ∨ uadd off n < off then pure (-1)
  else if uadd off n > MAXFILE * BSIZE then pure (-1)
  else do
    let (tot, off) ← writeiLoop sb ip src n n 0 off
    modify fun s =>
      if off > (s.itable ip).d.size then s.setCopy ip { (s.itable ip).d with size := off } else s
    -- write the i-node back to disk even if the size didn't change, because the loop above might
    -- have called bmap and added a new block
    iupdate sb ip
    pure tot

end Xv6.Fs

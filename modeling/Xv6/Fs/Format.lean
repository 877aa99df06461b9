import Xv6.Param

/-!
# The on-disk format

`fs.h`: the super block, the inodes, the directory entries, and where each of them lies.
-/

namespace Xv6.Fs

def ROOTINO : ℕ := 1

def FSMAGIC : ℕ := 0x10203040

def NDIRECT : ℕ := 12

def NINDIRECT : ℕ := BSIZE / 4

def MAXFILE : ℕ := NDIRECT + NINDIRECT

def IPB : ℕ := BSIZE / 64

def BPB : ℕ := BSIZE * 8

def DIRSIZ : ℕ := 14

def DIRENT : ℕ := 16

/-- The super block. -/
structure Superblock where
  /-- Must be `FSMAGIC`. -/
  magic : ℕ
  /-- Number of blocks of the image. -/
  size : ℕ
  /-- Number of data blocks. -/
  nblocks : ℕ
  /-- Number of inodes. -/
  ninodes : ℕ
  /-- Number of log blocks. -/
  nlog : ℕ
  /-- First block of the log. -/
  logstart : ℕ
  inodestart : ℕ
  /-- First block of the free map. -/
  bmapstart : ℕ
  deriving DecidableEq, Repr

variable (sb : Superblock)

def Superblock.iblock (i : ℕ) : ℕ := i / IPB + sb.inodestart

/-- Block of the free map that holds the bit of block `b`. -/
def Superblock.bblock (b : ℕ) : ℕ := b / BPB + sb.bmapstart

def Superblock.datastart : ℕ := sb.size - sb.nblocks

/-- The areas of the disk lie one after the other: boot block, super block, log, inodes, free map
and data. -/
structure Superblock.Ok : Prop where
  log : 2 ≤ sb.logstart
  inodes : sb.logstart + sb.nlog ≤ sb.inodestart
  bmap : ∀ i < sb.ninodes, sb.iblock i < sb.bmapstart
  map : sb.bmapstart < sb.datastart
  data : ∀ b < sb.size, sb.bblock b < sb.datastart
  size : sb.datastart ≤ sb.size
  /-- The scan for a free block counts in an `int`. -/
  int : sb.size ≤ 2 ^ 31
  root : ROOTINO < sb.ninodes
  /-- A directory entry holds the inode number in two bytes. -/
  inum : sb.ninodes ≤ 2 ^ 16

theorem Superblock.Ok.uint {sb : Superblock} (h : sb.Ok) : sb.size < 2 ^ 32 :=
  lt_of_le_of_lt h.int (by decide)

inductive FileType
  | free
  | dir
  | file
  | device
  deriving DecidableEq, Repr

/-- The on-disk inode. -/
structure Dinode where
  type : FileType
  major : ℤ
  minor : ℤ
  nlink : ℤ
  size : ℕ
  addrs : ℕ → ℕ

def Dinode.zero : Dinode := ⟨.free, 0, 0, 0, 0, fun _ => 0⟩

/-! ## Blocks -/

abbrev Block := ℕ → UInt8

def Block.zero : Block := fun _ => 0

def Block.read (a : Block) (off m : ℕ) : List UInt8 := (List.range m).map fun k => a (off + k)

def Block.write (a : Block) (off : ℕ) (bytes : List UInt8) : Block := fun o =>
  if off ≤ o ∧ o < off + bytes.length then bytes.getD (o - off) 0 else a o

def leByte (v k : ℕ) : UInt8 := UInt8.ofNat (v / 256 ^ k)

def leNum : List UInt8 → ℕ
  | [] => 0
  | b :: bs => b.toNat + 256 * leNum bs

/-- Entry `j` of an indirect block. -/
def Block.word (a : Block) (j : ℕ) : ℕ := leNum (a.read (4 * j) 4)

def Block.setWord (a : Block) (j v : ℕ) : Block :=
  a.write (4 * j) [leByte v 0, leByte v 1, leByte v 2, leByte v 3]

/-! ## Strings -/

def strncmp : ℕ → List UInt8 → List UInt8 → ℤ
  | 0, _, _ => 0
  | n + 1, p, q =>
    if p.headD 0 ≠ 0 ∧ p.headD 0 = q.headD 0 then strncmp n p.tail q.tail
    else ((p.headD 0).toNat : ℤ) - (q.headD 0).toNat

/-- The `n` bytes `strncpy` stores: the string, then zeros. -/
def strncpy : ℕ → List UInt8 → List UInt8
  | 0, _ => []
  | n + 1, t => if t.headD 0 = 0 then List.replicate (n + 1) 0 else t.headD 0 :: strncpy n t.tail

def namecmp (s t : List UInt8) : ℤ := strncmp DIRSIZ s t

def dot : List UInt8 := [46]

def dotdot : List UInt8 := [46, 46]

def slash : UInt8 := 47

/-- A byte of a path element. -/
def inElem (c : UInt8) : Bool := c ≠ slash ∧ c ≠ 0

def skipelem (path : List UInt8) : Option (List UInt8 × List UInt8) :=
  let s := path.dropWhile (· = slash)
  if s.headD 0 = 0 then none
  else
    some ((s.takeWhile inElem).take DIRSIZ, (s.dropWhile inElem).dropWhile (· = slash))

/-! ## Directory entries -/

/-- A directory entry. -/
structure Dirent where
  inum : ℕ
  name : List UInt8
  deriving DecidableEq, Repr

def Dirent.zero : Dirent := ⟨0, List.replicate DIRSIZ 0⟩

def Dirent.ofBytes (l : List UInt8) : Dirent := ⟨leNum (l.take 2), l.drop 2⟩

def Dirent.toBytes (de : Dirent) : List UInt8 := leByte de.inum 0 :: leByte de.inum 1 :: de.name

end Xv6.Fs

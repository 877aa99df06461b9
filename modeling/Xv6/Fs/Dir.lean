import Xv6.Fs.Inode

/-!
# Directories and paths

The rest of `fs.c`: looking up and adding directory entries, and resolving paths.
-/

namespace Xv6.Fs

open Hoare

variable (sb : Superblock)

/-! ## Directories -/

def readDirent (dp : InodeId) (off : ℕ) (msg : String) : FsM Dirent := do
  let (r, bytes) ← readi sb dp Dst.kernel off DIRENT
  if r ≠ DIRENT then throw (.panic msg) else pure (Dirent.ofBytes bytes)

def dirlookupLoop (dp : InodeId) (name : List UInt8) : ℕ → ℕ → FsM (Option (ℕ × ℕ))
  | 0, _ => pure none
  | k + 1, off => do
    let s ← get
    if off < (s.itable dp).d.size then do
      let de ← readDirent sb dp off "dirlookup read"
      if de.inum = 0 then dirlookupLoop dp name k (off + DIRENT)
      else if namecmp name de.name = 0 then pure (some (de.inum, off))
      else dirlookupLoop dp name k (off + DIRENT)
    else pure none

def dirlookup (dp : InodeId) (name : List UInt8) : FsM (Option (InodeId × ℕ)) := do
  let s ← get
  if (s.itable dp).d.type ≠ .dir then throw (.panic "dirlookup not DIR")
  else do
    let found ← dirlookupLoop sb dp name ((s.itable dp).d.size / DIRENT + 1) 0
    match found with
    | some (inum, off) => do
      let ip ← iget inum
      pure (some (ip, off))
    | none => pure none

def dirlinkLoop (dp : InodeId) : ℕ → ℕ → FsM ℕ
  | 0, off => pure off
  | k + 1, off => do
    let s ← get
    if off < (s.itable dp).d.size then do
      let de ← readDirent sb dp off "dirlink read"
      if de.inum = 0 then pure off else dirlinkLoop dp k (off + DIRENT)
    else pure off

def dirlink (dp : InodeId) (name : List UInt8) (inum : ℕ) : FsM ℤ := do
  let found ← dirlookup sb dp name
  match found with
  | some (ip, _) => do
    iput sb ip
    pure (-1)
  | none => do
    let s ← get
    let off ← dirlinkLoop sb dp ((s.itable dp).d.size / DIRENT + 1) 0
    let de : Dirent := ⟨inum % 2 ^ 16, strncpy DIRSIZ name⟩
    let r ← writei sb dp (Src.kernel de.toBytes) off DIRENT
    if r ≠ DIRENT then pure (-1) else pure 0

/-! ## Paths -/

def namexLoop (parent : Bool) :
    ℕ → InodeId → List UInt8 → List UInt8 → FsM (Option (InodeId × List UInt8))
  | 0, ip, _, name => pure (some (ip, name))
  | k + 1, ip, path, name =>
    match skipelem path with
    | none =>
      if parent then do
        iput sb ip
        pure none
      else pure (some (ip, name))
    | some (name, path) => do
      ilock sb ip
      let s ← get
      if (s.itable ip).d.type ≠ .dir then do
        iunlockput sb ip
        pure none
      else if parent ∧ path.headD 0 = 0 then do
        -- Stop one level early.
        iunlock ip
        pure (some (ip, name))
      else do
        let next ← dirlookup sb ip name
        iunlockput sb ip
        match next with
        | none => pure none
        | some (next, _) => namexLoop parent k next path name

def namexStart (p : ProcId) (path : List UInt8) : FsM InodeId := do
  let s ← get
  if path.headD 0 = slash then iget ROOTINO
  else
    match (s.files.proc p).cwd with
    | some cwd => idup cwd
    | none => throw .null

def namex (p : ProcId) (path : List UInt8) (parent : Bool) :
    FsM (Option (InodeId × List UInt8)) := do
  let ip ← namexStart p path
  namexLoop sb parent (path.length + 1) ip path []

def namei (p : ProcId) (path : List UInt8) : FsM (Option InodeId) := do
  let r ← namex sb p path false
  pure (r.map Prod.fst)

def nameiparent (p : ProcId) (path : List UInt8) : FsM (Option (InodeId × List UInt8)) :=
  namex sb p path true

end Xv6.Fs

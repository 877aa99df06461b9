import Xv6.Fs.Dir

/-!
# Open files, pipes and processes

`file.c`, the allocation and closing of pipes in `pipe.c`, and the parts of `kfork` and `kexit` that
copy and release open files and current directories.
-/

namespace Xv6.Fs

open Hoare Function

variable (sb : Superblock)

namespace Files

def setFile (s : Files) (f : FileId) (file : File) : Files :=
  { s with ftable := update s.ftable f file }

def setProc (s : Files) (p : ProcId) (proc : Proc) : Files :=
  { s with proc := update s.proc p proc }

def setOfile (s : Files) (p : ProcId) (fd : Fin NOFILE) (f : Option FileId) : Files :=
  s.setProc p { s.proc p with ofile := update (s.proc p).ofile fd f }

def setPipe (s : Files) (pi : ℕ) (pipe : Pipe) : Files :=
  { s with pipe := update s.pipe pi pipe }

end Files

namespace Kernel

def setFile (s : Kernel) (f : FileId) (file : File) : Kernel :=
  { s with files := s.files.setFile f file }

def setProc (s : Kernel) (p : ProcId) (proc : Proc) : Kernel :=
  { s with files := s.files.setProc p proc }

def setOfile (s : Kernel) (p : ProcId) (fd : Fin NOFILE) (f : Option FileId) : Kernel :=
  { s with files := s.files.setOfile p fd f }

def setPipe (s : Kernel) (pi : ℕ) (pipe : Pipe) : Kernel :=
  { s with files := s.files.setPipe pi pipe }

end Kernel

/-! ## The file table -/

def filealloc : FsM (Option FileId) := do
  let s ← get
  match (List.finRange NFILE).find? fun f => decide ((s.files.ftable f).ref = 0) with
  | some f => do
    modify fun s => s.setFile f { s.files.ftable f with ref := 1 }
    pure (some f)
  | none => pure none

def filedup (f : FileId) : FsM Unit := do
  let s ← get
  if (s.files.ftable f).ref < 1 then throw (.panic "filedup")
  else modify fun s => s.setFile f { s.files.ftable f with ref := (s.files.ftable f).ref + 1 }

def Pipe.close (pi : Pipe) (writable : Bool) : Pipe :=
  let pi := if writable then { pi with writeopen := false } else { pi with readopen := false }
  if pi.readopen = false ∧ pi.writeopen = false then { pi with kfrees := pi.kfrees + 1 } else pi

def pipeclose (pi : ℕ) (writable : Bool) : FsM Unit :=
  modify fun s => s.setPipe pi ((s.files.pipe pi).close writable)

/-- Close a file: decrement the reference count, close when it reaches 0. -/
def fileclose (f : FileId) : FsM Unit := do
  let s ← get
  let ff := s.files.ftable f
  if ff.ref < 1 then throw (.panic "fileclose")
  else if ff.ref - 1 > 0 then modify fun s => s.setFile f { ff with ref := ff.ref - 1 }
  else do
    modify fun s => s.setFile f { ff with ref := 0, type := .none }
    match ff.type with
    | .pipe => pipeclose ff.pipe ff.writable
    | .inode | .device => do
      beginOp
      iput sb ff.ip
      endOp
    | .none => pure ()

def fileMax : ℕ := (MAXOPBLOCKS - 1 - 1 - 2) / 2 * BSIZE

def filewriteChunk (f : FileId) (src : Src) (n1 : ℕ) : FsM ℤ := do
  beginOp
  let s ← get
  let ip := (s.files.ftable f).ip
  ilock sb ip
  let s ← get
  let r ← writei sb ip src (s.files.ftable f).off n1
  modify fun s =>
    if r > 0 then
      s.setFile f { s.files.ftable f with off := uadd (s.files.ftable f).off r.toNat }
    else s
  iunlock ip
  endOp
  pure r

def filewriteLoop (f : FileId) (src : Src) (n : ℕ) : ℕ → ℕ → FsM ℕ
  | 0, i => pure i
  | k + 1, i =>
    if i < n then do
      let n1 := min (n - i) fileMax
      let r ← filewriteChunk sb f (fun k => src (i + k)) n1
      if r ≠ n1 then pure i else filewriteLoop f src n k (i + n1)
    else pure i

def filewrite (f : FileId) (src : Src) (n other : ℤ) : FsM ℤ := do
  let s ← get
  let ff := s.files.ftable f
  if ff.writable = false then pure (-1)
  else
    match ff.type with
    | .pipe => pure other
    | .device => if ff.major < 0 ∨ ff.major ≥ NDEV then pure (-1) else pure other
    | .inode => do
      let i ← filewriteLoop sb f src n.toNat n.toNat 0
      pure (if (i : ℤ) = n then n else -1)
    | .none => throw (.panic "filewrite")

/-! ## Pipes -/

def pipealloc (page : Bool) : FsM (Option (FileId × FileId)) := do
  let f0 ← filealloc
  match f0 with
  | none => pure none
  | some f0 => do
    let f1 ← filealloc
    match f1 with
    | none => do
      fileclose sb f0
      pure none
    | some f1 =>
      if page = false then do
        fileclose sb f0
        fileclose sb f1
        pure none
      else do
        let s ← get
        let pi := s.files.npipe
        modify fun s => { s with files := { s.files with npipe := pi + 1 } }
        modify fun s => s.setPipe pi ⟨true, true, 0⟩
        modify fun s => s.setFile f0
          { s.files.ftable f0 with type := .pipe, readable := true, writable := false, pipe := pi }
        modify fun s => s.setFile f1
          { s.files.ftable f1 with type := .pipe, readable := false, writable := true, pipe := pi }
        pure (some (f0, f1))

/-! ## Processes -/

/-- Memory for a new process: the trapframe, the page table, and the copy of the parent's memory. -/
structure ForkMem where
  trapframe : Bool
  pagetable : Bool
  uvmcopy : Bool

def allocproc (mem : ForkMem) : FsM (Option ProcId) := do
  let s ← get
  match (List.finRange NPROC).find? fun p => decide ((s.files.proc p).state = .unused) with
  | none => pure none
  | some p => do
    let pid := s.files.nextpid
    modify fun s => { s with files := { s.files with nextpid := int32 (pid + 1) } }
    modify fun s => s.setProc p { s.files.proc p with state := .used, pid := pid }
    if mem.trapframe = false ∨ mem.pagetable = false then do
      modify fun s => s.setProc p { s.files.proc p with state := .unused, pid := 0 }
      pure none
    else pure (some p)

/-- One round of the loop of `kfork` over the descriptors. -/
def forkFile (p np : ProcId) (i : Fin NOFILE) : FsM Unit := do
  let s ← get
  match (s.files.proc p).ofile i with
  | some f => do
    filedup f
    modify fun s => s.setOfile np i (some f)
  | none => pure ()

def kfork (p : ProcId) (mem : ForkMem) : FsM ℤ := do
  let np ← allocproc mem
  match np with
  | none => pure (-1)
  | some np =>
    if mem.uvmcopy = false then do
      modify fun s => s.setProc np { s.files.proc np with state := .unused, pid := 0 }
      pure (-1)
    else do
      (List.finRange NOFILE).forM (forkFile p np)
      let s ← get
      match (s.files.proc p).cwd with
      | none => throw .null
      | some cwd => do
        let cwd ← idup cwd
        modify fun s => s.setProc np { s.files.proc np with cwd := some cwd }
        let s ← get
        pure (s.files.proc np).pid

/-- One round of the loop of `kexit` over the descriptors. -/
def exitFile (p : ProcId) (fd : Fin NOFILE) : FsM Unit := do
  let s ← get
  match (s.files.proc p).ofile fd with
  | some f => do
    fileclose sb f
    modify fun s => s.setOfile p fd none
  | none => pure ()

def kexit (p : ProcId) : FsM Unit := do
  let s ← get
  if p = s.files.initproc then throw (.panic "init exiting")
  else do
    (List.finRange NOFILE).forM (exitFile sb p)
    beginOp
    let s ← get
    match (s.files.proc p).cwd with
    | none => throw .null
    | some cwd => do
      iput sb cwd
      endOp
      modify fun s => s.setProc p { s.files.proc p with cwd := none, state := .zombie }

end Xv6.Fs

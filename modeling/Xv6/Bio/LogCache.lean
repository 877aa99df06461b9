import Xv6.Bio.Refinement
import Xv6.Log.Disk

/-!
# The log on top of the buffer cache

`begin_op`, `log_write`, `end_op` and `commit` of `log.c` as users of the buffer cache.
-/

namespace Xv6.Bio

open Thread Transition

inductive Pass
  | log
  | install
  deriving DecidableEq

/-- The buffer a pass copies from, of those of the log block and of the home block. -/
def Pass.src (k : Pass) (x y : BufId) : BufId :=
  match k with
  | log => y
  | install => x

def Pass.dst (k : Pass) (x y : BufId) : BufId :=
  match k with
  | log => x
  | install => y

/-- Where `commit` is: `x` is the buffer of the log block, or of the header, and `y` that of the
home block. -/
inductive Point
  | getLog (k : Pass) (tail : ℕ)
  | readLog (k : Pass) (tail : ℕ)
  /-- `bread(log.dev, log.lh.block[tail])`. -/
  | getHome (k : Pass) (tail : ℕ) (x : BufId)
  | readHome (k : Pass) (tail : ℕ) (x : BufId)
  /-- `memmove`. -/
  | copy (k : Pass) (tail : ℕ) (x y : BufId)
  | bwrite (k : Pass) (tail : ℕ) (x y : BufId)
  /-- `bunpin`, in `install_trans` only. -/
  | bunpin (tail : ℕ) (x y : BufId)
  | brelseSrc (k : Pass) (tail : ℕ) (x y : BufId)
  | unrefSrc (k : Pass) (tail : ℕ) (x y : BufId)
  | brelseDst (k : Pass) (tail : ℕ) (x y : BufId)
  | unrefDst (k : Pass) (tail : ℕ)
  /-- `write_head`, the first or the second call. -/
  | getHead (erase : Bool)
  | readHead (erase : Bool)
  | putHead (erase : Bool) (x : BufId)
  | bwriteHead (erase : Bool) (x : BufId)
  | brelseHead (erase : Bool) (x : BufId)
  | unrefHead (erase : Bool)
  /-- `log.lh.n = 0`. -/
  | clear
  /-- `commit` returns, and `end_op` clears `log.committing`. -/
  | finish
  deriving DecidableEq

structure LogCache where
  cache : Cache Log.Block
  start : ℕ
  /-- `log.lh`. -/
  lh : List ℕ
  outstanding : ℕ
  /-- The processes between `begin_op` and `end_op`. -/
  inOp : Slot → Bool
  committing : Option (Slot × Point)

def ROOTDEV : ℕ := 1

inductive LogAct
  /-- A process that is not in `commit` uses the cache. -/
  | access (a : Act Log.Block)
  | beginOp (p : Slot)
  | logWrite (p : Slot) (b : BufId)
  | endOp (p : Slot)
  /-- The next step of the process in `commit`. -/
  | commit

def Act.proc {D : Type} : Act D → Slot
  | .bget p _ _ | .bread p | .modify p _ _ | .bwrite p _ | .brelse p _ | .unref p | .bpin p _
  | .bunpin p _ => p

/-- The code of the file system uses `bread` and `brelse` only, on the device of the log. -/
def Act.plain {D : Type} : Act D → Bool
  | .bget _ dev _ => dev = ROOTDEV
  | .bread _ | .modify _ _ _ | .brelse _ _ | .unref _ => true
  | .bwrite _ _ | .bpin _ _ | .bunpin _ _ => false

namespace LogCache

variable (s : LogCache)

def full : Bool := s.lh.length + (s.outstanding + 1) * MAXOPBLOCKS > LOGBLOCKS

def absorbs (b : BufId) : Bool := (s.cache.buf b).blockno ∈ s.lh

def commitAct (p : Slot) : Point → Option (Act Log.Block)
  | .getLog _ tail => some (.bget p ROOTDEV (s.start + tail + 1))
  | .getHome _ tail _ => some (.bget p ROOTDEV (s.lh.getD tail 0))
  | .getHead _ => some (.bget p ROOTDEV s.start)
  | .readLog _ _ | .readHome _ _ _ | .readHead _ => some (.bread p)
  | .copy k _ x y => some (.modify p (k.dst x y) (s.cache.buf (k.src x y)).data)
  | .putHead _ x => some (.modify p x (Log.putHead (s.cache.buf x).data s.lh))
  | .bwrite k _ x y => some (.bwrite p (k.dst x y))
  | .bwriteHead _ x => some (.bwrite p x)
  | .bunpin _ _ y => some (.bunpin p y)
  | .brelseSrc k _ x y => some (.brelse p (k.src x y))
  | .brelseDst k _ x y => some (.brelse p (k.dst x y))
  | .brelseHead _ x => some (.brelse p x)
  | .unrefSrc _ _ _ _ | .unrefDst _ _ | .unrefHead _ => some (.unref p)
  | .clear | .finish => none

def found (p : Slot) : Option BufId :=
  match s.cache.ctl p with
  | .getting b _ _ => some b
  | _ => none

def commitNext (p : Slot) : Point → Option Point
  | .getLog k tail => some (.readLog k tail)
  | .readLog k tail => (s.found p).map fun x => .getHome k tail x
  | .getHome k tail x => some (.readHome k tail x)
  | .readHome k tail x => (s.found p).map fun y => .copy k tail x y
  | .copy k tail x y => some (.bwrite k tail x y)
  | .bwrite .log tail x y => some (.brelseSrc .log tail x y)
  | .bwrite .install tail x y => some (.bunpin tail x y)
  | .bunpin tail x y => some (.brelseSrc .install tail x y)
  | .brelseSrc k tail x y => some (.unrefSrc k tail x y)
  | .unrefSrc k tail x y => some (.brelseDst k tail x y)
  | .brelseDst k tail _ _ => some (.unrefDst k tail)
  | .unrefDst k tail =>
    if tail + 1 < s.lh.length then some (.getLog k (tail + 1))
    else match k with
      | .log => some (.getHead false)
      | .install => some .clear
  | .getHead erase => some (.readHead erase)
  | .readHead erase => (s.found p).map fun x => .putHead erase x
  | .putHead erase x => some (.bwriteHead erase x)
  | .bwriteHead erase x => some (.brelseHead erase x)
  | .brelseHead erase _ => some (.unrefHead erase)
  | .unrefHead false => some (.getLog .install 0)
  | .unrefHead true => some .finish
  | .clear | .finish => none

def action : LogAct → Option (Act Log.Block)
  | .access a => some a
  | .logWrite p b => if s.absorbs b then none else some (.bpin p b)
  | .commit => s.committing.bind fun c => s.commitAct c.1 c.2
  | .beginOp _ | .endOp _ => none

/-- What a step does to the log; `none` if it is not enabled, or panics. -/
def moveLog : LogAct → Option LogCache
  | .access a => if a.plain ∧ s.committing.map Prod.fst ≠ some a.proc then some s else none
  | .beginOp p =>
    if s.inOp p = false ∧ s.committing = none ∧ s.full = false then
      some { s with outstanding := s.outstanding + 1, inOp := Function.update s.inOp p true }
    else none
  | .logWrite p b =>
    if s.inOp p ∧ s.cache.ctl p = .idle ∧ s.cache.lock b = some p ∧ s.lh.length < LOGBLOCKS ∧
        1 ≤ s.outstanding then
      some { s with lh := if s.absorbs b then s.lh else s.lh ++ [(s.cache.buf b).blockno] }
    else none
  | .endOp p =>
    if s.inOp p ∧ s.cache.ctl p = .idle ∧ s.committing = none then
      some { s with
        outstanding := s.outstanding - 1
        inOp := Function.update s.inOp p false
        committing :=
          if s.outstanding - 1 = 0 then some (p, if s.lh = [] then .finish else .getLog .log 0)
          else none }
    else none
  | .commit =>
    match s.committing with
    | some (_, .finish) => some { s with committing := none }
    | some (p, .clear) => some { s with lh := [], committing := some (p, .getHead true) }
    | some (p, pt) => (s.commitNext p pt).map fun pt' => { s with committing := some (p, pt') }
    | none => none

def step (a : LogAct) : Option LogCache :=
  (s.moveLog a).bind fun s' =>
    match s.action a with
    | none => some s'
    | some b => (s.cache.step b).map fun c => { s' with cache := c }

def boot (disk : ℕ → ℕ → Log.Block) (start : ℕ) : LogCache where
  cache := binit disk fun _ => 0
  start := start
  lh := []
  outstanding := 0
  inOp _ := false
  committing := none

end LogCache

end Xv6.Bio

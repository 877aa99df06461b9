import Xv6.Proc.Machine

/-!
# Interrupts, locks and context switches

`push_off`, `pop_off`, `acquire` and `release` of `spinlock.c` with the functions of `proc.c` that
switch contexts, on any number of CPUs. A context is the scheduler of a CPU or the kernel thread of
a process. `noff` and `intena` belong to the CPU, and `sched` carries `intena` from the CPU that a
thread leaves to the one that it returns on, in a local variable.

`push_off` reads the interrupt state before it turns interrupts off. A trap between the two may
take the thread to another CPU, so they are two steps; what a context does with interrupts off
between two operations on a lock is one step. A context also carries what no variable of the kernel
holds: the locks that it has acquired, its open `push_off`s, and the interrupt state at the
outermost one.
-/

namespace Xv6.Interrupts

open Thread Transition Function

/-- A spinlock: `p->lock` of a process, or another one. -/
inductive Lk (P L : Type*)
  | own (p : P)
  | other (l : L)
  deriving DecidableEq

/-- `struct cpu`, with the interrupt enable bit of the CPU. A CPU that has called `panic` does
nothing more. -/
structure Cpu where
  noff : ℤ := 0
  intena : Bool := false
  intr : Bool := false
  panicked : Bool := false

namespace Cpu

def panic (u : Cpu) : Cpu := { u with panicked := true }

/-- `push_off`, after it has read the interrupt state `old`. -/
def pushOff (u : Cpu) (old : Bool) : Cpu :=
  { u with
    intr := false
    intena := if u.noff = 0 then old else u.intena
    noff := u.noff + 1 }

def popOff (u : Cpu) : Cpu :=
  if u.intr then u.panic
  else if u.noff < 1 then u.panic
  else { u with
    noff := u.noff - 1
    intr := if u.noff - 1 = 0 ∧ u.intena = true then true else u.intr }

end Cpu

/-- What a context does once it has acquired a lock. -/
inductive Then (P L : Type*)
  | run
  /-- `scheduler` tests the state of `p` -/
  | scan (p : P)
  /-- release `lk`, store the state `st` and call `sched`: `yield` has no `lk`, `sleep` and `kexit`
  have one -/
  | pause (lk : Option (Lk P L)) (st : ProcState)
  deriving DecidableEq

/-- Why a context calls `push_off`. -/
inductive Task (P L : Type*)
  | pushOff
  | acquire (l : Lk P L) (th : Then P L)
  deriving DecidableEq

/-- Where a context is. -/
inductive Ctl (P L : Type*)
  /-- in none of the functions below -/
  | run
  /-- `push_off` is about to read the interrupt state -/
  | enter (t : Task P L)
  /-- `push_off` has read `old` and is about to turn interrupts off -/
  | off (old : Bool) (t : Task P L)
  /-- in the loop of `acquire` -/
  | spin (l : Lk P L) (th : Then P L)
  /-- holds `p->lock` and is about to release `lk` -/
  | cond (lk : Lk P L) (st : ProcState)
  /-- is about to store the state and call `sched` -/
  | sched (lk : Option (Lk P L)) (st : ProcState)
  /-- behind the `swtch` of `sched` -/
  | resumed (lk : Option (Lk P L)) (st : ProcState)
  /-- `scheduler` is about to test the state of `p` -/
  | pick (p : P)
  /-- is about to release `l`, and to acquire `next` then -/
  | unlock (l : Lk P L) (next : Option (Lk P L))
  deriving DecidableEq

/-- The context has to restore `intena` first. -/
def Ctl.isResumed {P L : Type*} : Ctl P L → Bool
  | .resumed _ _ => true
  | _ => false

def Then.next {P L : Type*} : Then P L → Ctl P L
  | .run => .run
  | .scan p => .pick p
  | .pause none st => .sched none st
  | .pause (some lk) st => .cond lk st

/-- A context. -/
structure Thr (P L : Type*) where
  ctl : Ctl P L := .run
  /-- where the traps being handled have interrupted the context -/
  traps : List (Ctl P L) := []
  /-- `intena` of `sched` -/
  saved : Bool := false
  /-- the locks it holds -/
  held : List (Lk P L) := []
  /-- its open `push_off`s, without those of the locks it holds -/
  opens : ℕ := 0
  /-- the interrupt state at the outermost open `push_off` -/
  start : Bool := false

def Thr.depth {P L : Type*} (t : Thr P L) : ℕ := t.held.length + t.opens

/-- What a context changes unless it switches to another one. -/
structure View (K P L : Type*) where
  cpu : Cpu
  thr : Thr P L
  /-- the CPU that holds the lock: `lk->locked` and `lk->cpu` -/
  lock : Lk P L → Option K

/-- What the code of a context may do next. -/
inductive Op (P L : Type*)
  /-- the next statement of the function it is in -/
  | step
  | pushOff
  | popOff
  | acquire (l : Lk P L)
  | release (l : Lk P L)
  | yield
  | sleep (lk : Lk P L)
  /-- `kexit`, which holds `wait_lock` -/
  | exit (lk : Lk P L)
  /-- `scheduler` comes to the entry `p` -/
  | scan (p : P)
  /-- `intr_on` or `intr_off` -/
  | intr (b : Bool)
  | trap
  | sret
  /-- `wakeup` or `kkill` makes a sleeping process `RUNNABLE` -/
  | wake (q : P)
  /-- `allocproc` and `kfork` set up a process -/
  | fork (q : P)
  /-- `kwait` frees a zombie -/
  | reap (q : P)

section Model

variable {K P L : Type*} [DecidableEq K] [DecidableEq P] [DecidableEq L]

namespace View

variable (v : View K P L)

def goto (c : Ctl P L) : View K P L := { v with thr := { v.thr with ctl := c } }

def panic : View K P L := { v with cpu := v.cpu.panic }

/-- The rest of `push_off`. The context notes the interrupt state it finds if no other `push_off` is
open. -/
def pushOff (old : Bool) : View K P L :=
  { v with
    cpu := v.cpu.pushOff old
    thr := { v.thr with
      opens := v.thr.opens + 1
      start := if v.thr.depth = 0 then v.cpu.intr else v.thr.start } }

def popOff : View K P L :=
  { v with cpu := v.cpu.popOff, thr := { v.thr with opens := v.thr.opens - 1 } }

/-- The exchange in `acquire` has read zero: the open `push_off` becomes that of the lock. -/
def take (k : K) (l : Lk P L) : View K P L :=
  { v with
    thr := { v.thr with held := l :: v.thr.held, opens := v.thr.opens - 1 }
    lock := update v.lock l (some k) }

def release (k : K) (l : Lk P L) : View K P L :=
  if v.lock l = some k then
    { cpu := v.cpu.popOff
      thr := { v.thr with held := v.thr.held.erase l }
      lock := update v.lock l none }
  else v.panic

/-- One statement of the function that the context is in; `me` is `myproc()`. -/
def step (k : K) (me : Option P) : Ctl P L → Option (View K P L)
  | .run => none
  | .enter t => some (v.goto (.off v.cpu.intr t))
  | .off old .pushOff => some ((v.pushOff old).goto .run)
  | .off old (.acquire l th) =>
    -- if (holding(lk)) panic("acquire")
    if v.lock l = some k then some (v.pushOff old).panic
    else some ((v.pushOff old).goto (.spin l th))
  | .spin l th => if v.lock l = none then some ((v.take k l).goto th.next) else none
  | .cond lk st => some ((v.release k lk).goto (.sched (some lk) st))
  | .resumed lk st =>
    -- kexit() does not come back from sched(): panic("zombie exit")
    if st = .zombie then none
    else me.map fun p =>
      { v with cpu := { v.cpu with intena := v.thr.saved } }.goto (.unlock (.own p) lk)
  | .unlock l next =>
    some ((v.release k l).goto (next.elim .run fun lk => .enter (.acquire lk .run)))
  -- these two switch contexts
  | .sched _ _ => none
  | .pick _ => none

/-- `acquire(&p->lock)` at the start of `yield`, `sleep` and the end of `kexit`. -/
def pause (me : Option P) (lk : Option (Lk P L)) (st : ProcState) : Option (View K P L) :=
  me.map fun p => v.goto (.enter (.acquire (.own p) (.pause lk st)))

/-- The return from the newest trap: `kerneltrap` restores `sstatus`. -/
def sret : Option (View K P L) :=
  v.thr.traps.head?.map fun c =>
    { v with
      cpu := { v.cpu with intr := true }
      thr := { v.thr with ctl := c, traps := v.thr.traps.tail } }

/-- A call from code that is in none of the functions. -/
def call (k : K) (me : Option P) : Op P L → Option (View K P L)
  | .pushOff => some (v.goto (.enter .pushOff))
  | .popOff => some v.popOff
  | .acquire l => some (v.goto (.enter (.acquire l .run)))
  | .release l => some ((v.release k l).goto .run)
  | .yield => v.pause me none .runnable
  | .sleep lk => v.pause me (some lk) .sleeping
  | .exit lk => v.pause me (some lk) .zombie
  | .scan p => if me = none then some (v.goto (.enter (.acquire (.own p) (.scan p)))) else none
  | .intr b => some { v with cpu := { v.cpu with intr := b } }
  | .sret => v.sret
  | _ => none

/-- A trap comes when interrupts are on, and turns them off. -/
def trap : Option (View K P L) :=
  if v.cpu.intr then
    some { v with
      cpu := { v.cpu with intr := false }
      thr := { v.thr with ctl := .run, traps := v.thr.ctl :: v.thr.traps } }
  else none

end View

/-- The kernel: its CPUs, contexts, locks and process states, and the process that each CPU runs
(`c->proc`). -/
structure Machine (K P L : Type*) where
  cpu : K → Cpu
  thr : K ⊕ P → Thr P L
  lock : Lk P L → Option K
  state : P → ProcState
  run : K → Option P

/-- A context that has not run: the `context` that `allocproc` makes leads to `forkret`, which
releases `p->lock`. -/
def fresh (p : P) : Thr P L := { ctl := .unlock (.own p) none }

def boot (K : Type*) {P : Type*} (L : Type*) [DecidableEq P] (first : P) : Machine K P L where
  cpu _ := {}
  thr := Sum.elim (fun _ => {}) fresh
  lock _ := none
  state p := if p = first then .runnable else .unused
  run _ := none

namespace Machine

variable (m : Machine K P L) (k : K)

/-- The context that the CPU executes. -/
def ctx : K ⊕ P := (m.run k).elim (.inl k) .inr

def cur : Thr P L := m.thr (m.ctx k)

def view : View K P L := ⟨m.cpu k, m.cur k, m.lock⟩

def setView (v : View K P L) : Machine K P L :=
  { m with
    cpu := update m.cpu k v.cpu
    thr := update m.thr (m.ctx k) v.thr
    lock := v.lock }

def setState (q : P) (st : ProcState) : Machine K P L :=
  { m with state := update m.state q st }

def renew (q : P) : Machine K P L := { m with thr := update m.thr (.inr q) (fresh q) }

/-- `swtch` on the CPU, between its scheduler and the process `p`: the CPU runs `r` then, and the
two contexts are `s` and `t`. -/
def swtch (p : P) (r : Option P) (st : ProcState) (s t : Thr P L) : Machine K P L :=
  { m.setState p st with
    run := update m.run k r
    thr := update (update m.thr (.inl k) s) (.inr p) t }

/-- `scheduler` at the entry `q`, whose lock it holds: `swtch(&c->context, &p->context)` if the
process is `RUNNABLE`. The lock goes with the CPU to the other context, and so does the `push_off`
of the lock if that context has none of its own. -/
def pick (q : P) : Machine K P L :=
  let s := m.thr (.inl k)
  let t := m.thr (.inr q)
  if m.state q = .runnable then
    m.swtch k q (some q) .running { s with ctl := .unlock (.own q) none, held := [] }
      { t with held := s.held, start := if t.ctl.isResumed then t.start else s.start }
  else m.setView k ((m.view k).goto (.unlock (.own q) none))

/-- `p->state = st; sched()` of the process `p`, up to `swtch(&p->context, &mycpu()->context)`. -/
def sched (p : P) (lk : Option (Lk P L)) (st : ProcState) : Machine K P L :=
  let s := m.thr (.inl k)
  let t := m.thr (.inr p)
  if m.lock (.own p) = some k ∧ (m.cpu k).noff = 1 ∧ st ≠ .running ∧ (m.cpu k).intr = false then
    m.swtch k p none st { s with held := t.held, start := (m.cpu k).intena }
      { t with ctl := .resumed lk st, saved := (m.cpu k).intena, held := [] }
  else m.setView k (m.view k).panic

/-- One statement of the CPU. -/
def stepCtl : Ctl P L → Option (Machine K P L)
  | .sched lk st => (m.run k).map fun p => m.sched k p lk st
  | .pick q => if m.run k = none then some (m.pick k q) else none
  | c => ((m.view k).step k (m.run k) c).map (m.setView k)

/-- A call by the context that the CPU executes. -/
def call : Op P L → Option (Machine K P L)
  | .wake q => if m.state q = .sleeping then some (m.setState q .runnable) else none
  | .fork q =>
    if m.state q = .unused then some ((m.setState q .runnable).renew q) else none
  | .reap q => if m.state q = .zombie then some (m.setState q .unused) else none
  | op => ((m.view k).call k (m.run k) op).map (m.setView k)

end Machine

def step (m : Machine K P L) (a : K × Op P L) : Option (Machine K P L) :=
  if (m.cpu a.1).panicked then none
  else match a.2 with
    | .step => m.stepCtl a.1 (m.cur a.1).ctl
    | .trap => (m.view a.1).trap.map (m.setView a.1)
    | op => if (m.cur a.1).ctl = .run then m.call a.1 op else none

/-- The discipline of the callers. A context acquires locks that it does not hold and releases those
it holds, and closes `push_off`s that it has opened; it calls `yield` with none open, and `sleep`
and `kexit` with the one of the lock they release; it turns interrupts on and off, goes through the
process table and returns from a trap with none open. The state of another process is stored under
its lock. -/
def Op.allowed (me : Option P) (t : Thr P L) : Op P L → Bool
  | .step | .pushOff | .trap => true
  | .popOff => 0 < t.opens
  | .acquire l => l ∉ t.held
  | .release l => l ∈ t.held
  | .sleep lk | .exit lk => t.held = [lk] ∧ t.opens = 0 ∧ me.map .own ≠ some lk
  | .yield | .scan _ | .intr _ | .sret => t.depth = 0
  | .wake q | .fork q | .reap q => Lk.own q ∈ t.held

def wellNested (m : Machine K P L) (a : K × Op P L) : Bool :=
  a.2.allowed (m.run a.1) (m.cur a.1)

end Model

end Xv6.Interrupts

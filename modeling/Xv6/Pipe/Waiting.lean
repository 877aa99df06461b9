import Xv6.Pipe.Fifo

/-!
# Who sleeps on a pipe

Readers sleep on `&pi->nread` while the pipe is empty and its write end open, writers on
`&pi->nwrite` while it is full and its read end open: two monitors on `pi->lock`.

## Main results

* `sleepers_wait`: nobody sleeps in vain, if no writer is killed in its loop
-/

namespace Xv6.Pipe

open Thread Machine Transition Function

/-! ## A writer in its loop -/

/-- A `pipewrite` that has passed its test of `pi->readopen` and `killed()`, and has the lock since
then. -/
def steady : Label → Bool
  | .writeLoop w | .writeOpen w => w.dirty
  | .writeFull _ | .writeCopy _ => true
  | _ => false

def hits (m : State) (r q : Slot) : Bool :=
  match m.ctl r with
  | .kkillAt pid i _ _ => i = q.val ∧ (m.proc q).pid = pid
  | _ => false

/-- No `kkill` hits a process that is about to append a byte, or has done so, and still has the
lock. -/
def Spares (m : State) : Act Label → Prop
  | .step r => ∀ q, hits m r q = true → steady (base (m.ctl q)) = false
  | _ => True

instance (m : State) : DecidablePred (Spares m)
  | .step _ => inferInstanceAs (Decidable (∀ _, _))
  | .call _ _ | .dispatch _ | .preempt _ | .exit _ | .reap _ | .fork _ _ _ | .tick =>
    inferInstanceAs (Decidable True)

theorem carries_steady : Carries code steady := by
  refine .of_instr fun l => ?_
  cases l <;> simp [code, instr, CarriesAt, steady]

theorem holds_of_steady {c : Ctl Unit Chan Label} (hc : CtlOk code c)
    (h : steady (base c) = true) : holdsCtl () holds c = true := by
  obtain ⟨l, rfl⟩ := run_of_base (Q := fun l => steady l = true)
    (fun l => by cases l <;> simp [code, instr, ReturnsNotTo, steady]) hc h
  cases l <;> simp_all [base, steady, holdsCtl, holds]

theorem killed_of_step {m m' : State} {a : Act Label} (hs : StepCase code m a m') {q : Slot}
    (hq : (m'.proc q).killed = true) :
    (m.proc q).killed = true ∨ ∃ r, a = .step r ∧ hits m r q = true := by
  cases hs with
  | @kkillHit p v found notFound hst hctl hfree =>
    by_cases hqv : q = v
    · subst hqv
      exact .inr ⟨p, rfl, by simp [hits, hctl]⟩
    · left
      simpa [update_of_ne hqv] using hq
  | @reap p hst =>
    left
    by_cases hqp : q = p
    · subst hqp
      simp [Proc.free] at hq
    · simpa [update_of_ne hqp] using hq
  | @fork p pid name hst =>
    left
    by_cases hqp : q = p
    · subst hqp
      simp [Proc.forked, Proc.free] at hq
    · simpa [update_of_ne hqp] using hq
  | @sleepEnter p _ _ _ _ _ _ | @sleepReleased p _ _ _ _ _ | @dispatchSleep p _ _ _ _ _ _
  | @dispatch p _ _ _ | @preempt p _ _ | @exit p _ _ =>
    left
    by_cases hqp : q = p
    · subst hqp
      simpa using hq
    · simpa [update_of_ne hqp] using hq
  | @wakeupHit p v _ _ _ _ _ _ _ _ =>
    left
    by_cases hqv : q = v
    · subst hqv
      simpa using hq
    · simpa [update_of_ne hqv] using hq
  | exec | acquire | release | sleep | wakeup | wakeupOne | kkill | sleepLocked | sleepReturn
  | wakeupSkip | wakeupEnd | kkillSkip | kkillEnd | call | tick => exact .inl hq

structure Steady (m : State) : Prop where
  fifo : Fifo m
  opened : ∀ p, steady (base (m.ctl p)) = true → m.shared.readopen = true
  spared : ∀ p, steady (base (m.ctl p)) = true → (m.proc p).killed = false

namespace Steady

variable {m m' : State} {p : Slot} {l : Label}

theorem exec {f : Proc Chan → Shared → Shared × Label} (h : Steady m) (hctl : m.ctl p = .run l)
    (hinstr : code.instr l = .exec f)
    (hfifo : Fifo ({ m with shared := (f (m.proc p) m.shared).1 }.goto p
      (.run (f (m.proc p) m.shared).2))) :
    Steady ({ m with shared := (f (m.proc p) m.shared).1 }.goto p
      (.run (f (m.proc p) m.shared).2)) := by
  have hbase : base (m.ctl p) = l := by rw [hctl]; rfl
  -- where the process gets to, it has just made the test or has kept its result
  have hself : steady (f (m.proc p) m.shared).2 = true →
      (f (m.proc p) m.shared).1.readopen = true ∧ (m.proc p).killed = false := by
    have hopened := h.opened p
    have hspared := h.spared p
    rw [hbase] at hopened hspared
    cases l <;> simp only [code, instr, Instr.exec.injEq, reduceCtorEq] at hinstr <;> subst hinstr
    case writeLoop w =>
      intro hs
      dsimp only at hs ⊢
      split at hs
      · exact ⟨hopened hs, hspared hs⟩
      · cases hs
    case writeOpen w =>
      intro hs
      dsimp only at hs ⊢
      split at hs
      · cases hs
      · rename_i hcond
        simpa using hcond
    case writeFull w => exact fun _ => ⟨hopened rfl, hspared rfl⟩
    case writeCopy w =>
      intro _
      dsimp only
      split
      · exact ⟨hopened rfl, hspared rfl⟩
      · exact ⟨hopened rfl, hspared rfl⟩
    all_goals
      intro hs
      dsimp only at hs
      (try split at hs) <;> cases hs
  -- another writer in its loop has the lock, so the read end is not being closed
  have hother : ∀ q, q ≠ p → steady (base (m.ctl q)) = true →
      (f (m.proc p) m.shared).1.readopen = true := by
    intro q hqp hq
    have hpfree := h.fifo.excl.others (holds_of_steady (h.fifo.wf.ctlOk q) hq) (Ne.symm hqp)
    rw [hctl] at hpfree
    have hopened := h.opened q hq
    cases l <;> simp only [code, instr, Instr.exec.injEq, reduceCtorEq] at hinstr <;>
      subst hinstr <;> first
        | exact hopened
        | cases hpfree
  refine ⟨hfifo, fun q hq => ?_, fun q hq => ?_⟩
  · rw [goto_ctl] at hq
    by_cases hqp : q = p
    · subst hqp
      rw [update_self] at hq
      exact (hself hq).1
    · rw [update_of_ne hqp] at hq
      exact hother q hqp hq
  rw [goto_ctl] at hq
  by_cases hqp : q = p
  · subst hqp
    rw [update_self] at hq
    exact (hself hq).2
  · rw [update_of_ne hqp] at hq
    exact h.spared q hq

/-- **Every move that spares the writers in their loops keeps what they have found out.** -/
theorem step {a : Act Label} (h : Steady m) (hok : Spares m a) (hs : StepCase code m a m') :
    Steady m' := by
  have hfifo := h.fifo.step hs
  rcases carries_steady.step h.fifo.wf hs with ⟨p, l, f, -, hctl, hinstr, rfl⟩ |
    ⟨p, cur, l, hctl, hinstr, he, rfl⟩ | rfl | ⟨hshared, hkeep⟩
  · exact h.exec hctl hinstr hfifo
  · have hl : steady l = false := by
      cases cur <;> simp only [code, instr, reduceCtorEq] at hinstr
      cases l <;> simp_all [code, entry, steady]
    have hold : ∀ q, steady (base ((m.goto p (.run l)).ctl q)) = true →
        steady (base (m.ctl q)) = true := by
      intro q hq
      rw [goto_ctl] at hq
      by_cases hqp : q = p
      · subst hqp
        rw [update_self, base, hl] at hq
        cases hq
      · rwa [update_of_ne hqp] at hq
    exact ⟨hfifo, fun q hq => h.opened q (hold q hq), fun q hq => h.spared q (hold q hq)⟩
  · exact h
  refine ⟨hfifo, fun q hq => ?_, fun q hq => ?_⟩
  · rw [hshared]
    exact h.opened q (hkeep q ▸ hq)
  by_contra hkilled
  have hold := hkeep q ▸ hq
  rcases killed_of_step hs (by simpa using hkilled) with hk | ⟨r, rfl, hhit⟩
  · simp [h.spared q hold] at hk
  · simp [hok q hhit] at hold

theorem init : Steady boot := ⟨.init, fun p hp => (by cases hp), fun p hp => (by cases hp)⟩

end Steady

/-! ## The two monitors -/

namespace Shared

/-- A reader has something to do: there is a byte, or there will be none. -/
def readable (s : Shared) : Bool := !(s.empty && s.writeopen)

def writable (s : Shared) : Bool := !(s.full && s.readopen)

end Shared

def owesByte : Label → Bool
  | .writeLoop w | .writeOpen w | .writeFull w | .writeCopy w => w.dirty
  | .writeWake _ | .writeEnd _ => true
  | .closeWake writable _ => writable
  | _ => false

def sawEmpty : Label → Bool
  | .readKilled _ | .readSleep _ => true
  | _ => false

def owesRoom : Label → Bool
  | .readLoop _ | .readCopy _ | .readEnd _ _ => true
  | .closeWake writable _ => !writable
  | _ => false

def sawFull : Label → Bool
  | .writeWake _ | .writeSleep _ => true
  | _ => false

structure Knows (l : Label) (me : Proc Chan) (s : Shared) : Prop where
  opened : steady l = true → s.readopen = true
  spared : steady l = true → me.killed = false
  room : writesNow l = true → s.full = false
  some : readsNow l = true → s.empty = false

theorem Steady.knows {m : State} (h : Steady m) {p : Slot} {l : Label} (hctl : m.ctl p = .run l) :
    Knows l (m.proc p) m.shared := by
  have hbase : base (m.ctl p) = l := by rw [hctl]; rfl
  refine ⟨fun hl => h.opened p (hbase ▸ hl), fun hl => h.spared p (hbase ▸ hl), fun hl => ?_,
    fun hl => ?_⟩
  · have hlt := h.fifo.room p (hbase ▸ hl)
    rw [← Bool.not_eq_true, h.fifo.ring.full_iff]
    omega
  · have hlt := h.fifo.some p (hbase ▸ hl)
    rw [← Bool.not_eq_true, h.fifo.ring.empty_iff]
    omega

theorem monitor_nread : Monitor code () .nread Shared.readable holds owesByte sawEmpty Knows := by
  refine .of_instr guards (fun l => ?_) (fun l => ?_) (fun cur l h => ?_) (fun _ => rfl)
    (fun l f me s h hfree => ?_) (fun l f me s h hk htrue hor => ?_)
    fun l f me s h hk hsawl hsaw => ?_
  · cases l <;> simp [owesByte, sawEmpty, holds]
  · cases l <;> simp [code, instr, MonitorAt, owesByte, sawEmpty, holds]
  · cases cur <;> cases l <;> simp_all [code, entry, sawEmpty]
  · cases l <;> simp only [code, instr, Instr.exec.injEq, reduceCtorEq] at h <;> subst h <;> first
      | rfl
      | cases hfree
  · cases l <;> simp only [code, instr, Instr.exec.injEq, reduceCtorEq] at h <;> subst h
    case writeLoop w =>
      have hd : w.dirty = true := hor.resolve_left (by simp [htrue])
      dsimp only
      split
      · exact hd
      · rfl
    case writeOpen w =>
      have hd : w.dirty = true := hor.resolve_left (by simp [htrue])
      have hcond : ¬ (s.readopen = false ∨ me.killed = true) := by simp [hk.opened hd, hk.spared hd]
      dsimp only
      rw [if_neg hcond]
      exact hd
    case writeFull w =>
      have hd : w.dirty = true := hor.resolve_left (by simp [htrue])
      dsimp only
      split
      · rfl
      · exact hd
    case writeCopy w =>
      dsimp only
      split <;> rfl
    case readCopy r =>
      -- there was a byte already
      have hfalse : s.readable = false := hor.resolve_right (by simp [owesByte])
      simp [Shared.readable, hk.some rfl] at hfalse
    case closeSet writable call =>
      cases writable
      · have hfalse : s.readable = false := hor.resolve_right (by simp [owesByte])
        exact absurd (show s.readable = true from htrue) (by simp [hfalse])
      · rfl
    all_goals
      have hfalse : s.readable = false := hor.resolve_right (by simp [owesByte])
      exact absurd (show s.readable = true from htrue) (by simp [hfalse])
  cases l <;> simp only [code, instr, Instr.exec.injEq, reduceCtorEq] at h <;> subst h
  case readWait r =>
    dsimp only at hsaw ⊢
    split at hsaw
    · rename_i hcond
      simp [Shared.readable, hcond.1, hcond.2]
    · cases hsaw
  case readKilled r => exact hsawl rfl
  all_goals
    dsimp only at hsaw
    (try split at hsaw) <;> cases hsaw

theorem monitor_nwrite : Monitor code () .nwrite Shared.writable holds owesRoom sawFull Knows := by
  refine .of_instr guards (fun l => ?_) (fun l => ?_) (fun cur l h => ?_) (fun _ => rfl)
    (fun l f me s h hfree => ?_) (fun l f me s h hk htrue hor => ?_)
    fun l f me s h hk hsawl hsaw => ?_
  · cases l <;> simp [owesRoom, sawFull, holds]
  · cases l <;> simp [code, instr, MonitorAt, owesRoom, sawFull, holds]
  · cases cur <;> cases l <;> simp_all [code, entry, sawFull]
  · cases l <;> simp only [code, instr, Instr.exec.injEq, reduceCtorEq] at h <;> subst h <;> first
      | rfl
      | cases hfree
  · cases l <;> simp only [code, instr, Instr.exec.injEq, reduceCtorEq] at h <;> subst h
    case writeCopy w =>
      -- there was room already
      have hfalse : s.writable = false := hor.resolve_right (by simp [owesRoom])
      simp [Shared.writable, hk.room rfl] at hfalse
    case readLoop r =>
      dsimp only
      split <;> rfl
    case readCopy r =>
      dsimp only
      split <;> rfl
    case closeSet writable call =>
      cases writable
      · rfl
      · have hfalse : s.writable = false := hor.resolve_right (by simp [owesRoom])
        exact absurd (show s.writable = true from htrue) (by simp [hfalse])
    all_goals
      have hfalse : s.writable = false := hor.resolve_right (by simp [owesRoom])
      exact absurd (show s.writable = true from htrue) (by simp [hfalse])
  cases l <;> simp only [code, instr, Instr.exec.injEq, reduceCtorEq] at h <;> subst h
  case writeFull w =>
    dsimp only at hsaw ⊢
    split at hsaw
    · rename_i hfull
      simp [Shared.writable, hfull, hk.opened rfl]
    · cases hsaw
  all_goals
    dsimp only at hsaw
    (try split at hsaw) <;> cases hsaw

/-! ## The law -/

structure Attentive (m : State) : Prop where
  steady : Steady m
  nread : Alert code () .nread Shared.readable holds owesByte sawEmpty m
  nwrite : Alert code () .nwrite Shared.writable holds owesRoom sawFull m

namespace Attentive

variable {m m' : State}

theorem init : Attentive boot where
  steady := .init
  nread := by
    refine ⟨Fifo.init.wf, Fifo.init.excl, fun p hp => (by cases hp), fun q hq => ?_⟩
    simp [boot, SleepingOn, Proc.free, commits] at hq
  nwrite := by
    refine ⟨Fifo.init.wf, Fifo.init.excl, fun p hp => (by cases hp), fun q hq => ?_⟩
    simp [boot, SleepingOn, Proc.free, commits] at hq

theorem step {a : Act Label} (h : Attentive m) (hok : Spares m a) (hs : StepCase code m a m') :
    Attentive m' :=
  ⟨h.steady.step hok hs, h.nread.step monitor_nread (fun _ _ _ hctl => h.steady.knows hctl) hs,
    h.nwrite.step monitor_nwrite (fun _ _ _ hctl => h.steady.knows hctl) hs⟩

end Attentive

/-- **Nobody sleeps on a pipe in vain**, in runs in which no `kkill` hits a writer in its loop. -/
theorem sleepers_wait {m : State} (h : Reach step Spares boot m) (hfree : m.lock () = none) :
    (∀ q, m.SleepingOn .nread q → m.shared.empty = true ∧ m.shared.writeopen = true) ∧
    ∀ q, m.SleepingOn .nwrite q → m.shared.full = true ∧ m.shared.readopen = true := by
  have hatt : Attentive m := h.invariant .init fun _ _ _ h1 hok hs => h1.step hok (.of_step hs)
  refine ⟨fun q hq => ?_, fun q hq => ?_⟩
  · have hfalse := hatt.nread.awake monitor_nread hfree (mem_sleepers.mpr (.inl hq))
    simpa [Shared.readable] using hfalse
  · have hfalse := hatt.nwrite.awake monitor_nwrite hfree (mem_sleepers.mpr (.inl hq))
    simpa [Shared.writable] using hfalse

def sleepingReader : List (Act Label) := spawn 0 1 ++ calls 0 (.piperead 1 1) 8

theorem sleepers_wait_reader : ∃ m, Reach step Spares boot m ∧ m.lock () = none ∧
    m.SleepingOn .nread 0 ∧ m.shared.empty = true ∧ m.shared.writeopen = true := by
  obtain ⟨m, hreach, hm⟩ := exists_reach step (fun m a => decide (Spares m a)) boot sleepingReader
    (fun m => (m.lock (), (m.proc 0).state, (m.proc 0).chan))
    (none, .sleeping, some .nread) (by decide +kernel)
  simp only [Prod.mk.injEq] at hm
  have hreach := hreach.mono fun _ _ hok => of_decide_eq_true hok
  exact ⟨m, hreach, hm.1, hm.2, (sleepers_wait hreach hm.1).1 0 hm.2⟩

def killedWriter : List (Act Label) :=
  sleepingReader ++ spawn 1 2 ++ calls 1 (.pipewrite [7, 8] 2) 6 ++
    spawn 2 3 ++ calls 2 (.kkill 2) 3 ++ steps 1 3

/-- The killed writer leaves a byte in the pipe and the reader asleep. -/
theorem killed_writer_strands_reader : ∃ m, Reach step (fun _ _ => True) boot m ∧
    m.lock () = none ∧ m.SleepingOn .nread 0 ∧ m.shared.content = [7] ∧
    m.ctl 1 = .run (.done (-1) 1) := by
  obtain ⟨m, hreach, hm⟩ := exists_reach step (fun _ _ => true) boot killedWriter
    (fun m => decide (m.lock () = none ∧ m.SleepingOn .nread 0 ∧ m.shared.content = [7] ∧
      labelOf (m.ctl 1) = some (.done (-1) 1))) true (by decide +kernel)
  obtain ⟨hfree, hsleep, hcontent, hlabel⟩ := of_decide_eq_true hm
  exact ⟨m, hreach.mono fun _ _ _ => trivial, hfree, hsleep, hcontent, eq_run_of_labelOf hlabel⟩

end Xv6.Pipe

import Xv6.Proc.Monitor
import Xv6.Semaphore.Gantt

/-!
# Recorders and the snapshot of `sem_gantt`

`sem_wait` and `sem_signal` read `ticks` as an argument of `sem_record_event`, before the call takes
`sem_event_lock`: other recorders and the clock may come in between.
-/

namespace Xv6.Semaphore

open Thread Machine Transition Mutex

def Shared.recordAt (s : Shared) (o : Op) (me : Proc SemId) (type : SemEventType) (ticks : ℕ) :
    Shared :=
  let idx := s.semEventIndex.tmod SEM_EVENT_LOG_SIZE
  let e : SemEvent :=
    { semId := o.id.val, pid := me.pid, ticks := ticks, type := type
      pname := safestrcpy me.name 16, inc := o.inc }
  { s with
    semEventLog := Function.update s.semEventLog idx e
    semEventIndex := int32 (s.semEventIndex + 1) }

namespace Fine

/-- The labels: those of the semaphore code, and the call of `sem_record_event` with its arguments
evaluated, after which the code goes on at `next`. -/
inductive FLabel
  | stmt (l : Label)
  | record (o : Op) (type : SemEventType) (ticks : ℕ) (next : Label)
  deriving DecidableEq

structure FShared where
  base : Shared
  history : List SemEvent
  wrapped : Bool

def recordOf : Label → Option (Op × SemEventType × Label)
  | .semWaitRecord o => some (o, .wait, .semWaitSleep o)
  | .semWaitAcquired o => some (o, .acquire, .semWaitRelease o)
  | .semSignalRecord o => some (o, .release, .semSignalCount o)
  | _ => none

def eventOf (o : Op) (me : Proc SemId) (type : SemEventType) (ticks : ℕ) : SemEvent :=
  { semId := o.id.val, pid := me.pid, ticks := ticks, type := type
    pname := safestrcpy me.name 16, inc := o.inc }

def lift : Instr Lk SemId Shared Label → Instr Lk SemId FShared FLabel
  | .choose => .choose
  | .panic msg => .panic msg
  | .exec f => .exec fun me s => ({ s with base := (f me s.base).1 }, .stmt (f me s.base).2)
  | .acquire lk next => .acquire lk (.stmt next)
  | .release lk next => .release lk (.stmt next)
  | .sleep chan lk next => .sleep chan lk (.stmt next)
  | .wakeup chan next => .wakeup chan (.stmt next)
  | .wakeupOne chan next => .wakeupOne chan (.stmt next)
  | .kkill pid found notFound => .kkill pid (.stmt found) (.stmt notFound)

def fineInstr : FLabel → Instr Lk SemId FShared FLabel
  | .stmt l =>
    match recordOf l with
    | some (o, type, next) => .exec fun _ s => (s, .record o type s.base.ticks next)
    | none => lift (instr l)
  | .record o type ticks next => .exec fun me s =>
    ({ s with
        base := s.base.recordAt o me type ticks
        history := s.history ++ [eventOf o me type ticks] }, .stmt next)

def fine : Code Lk SemId FShared FLabel where
  instr := fineInstr
  user := .stmt .user
  entry
    | .stmt l, .stmt l' => entry l l'
    | _, _ => false
  intrOn
    | .stmt l => intrOn l
    | .record _ _ _ _ => false
  tick s :=
    { s with base := code.tick s.base, wrapped := s.wrapped || s.base.ticks + 1 == 2 ^ 32 }

abbrev FState := Machine Lk SemId FShared FLabel

abbrev fineStep : FState → Act FLabel → Option FState := Machine.step fine

def fineBoot : FState where
  shared := { base := boot.shared, history := [], wrapped := false }
  lock := fun _ => none
  proc := fun _ => .free
  ctl := fun _ => .run (.stmt .user)

/-! ## The lock of a semaphore -/

def lockOf : Label → Option SemId
  | .semWaitCount o | .semWaitRecord o | .semWaitSleep o | .semWaitAcquired o | .semWaitRelease o
  | .semSignalRecord o | .semSignalCount o | .semSignalWake o | .semSignalRelease o => some o.id
  | _ => none

def holds (id : SemId) : FLabel → Bool
  | .stmt l => lockOf l = some id
  | .record _ _ _ next => lockOf next = some id

/-- The pending call of `sem_record_event`: its operation, the `ticks` it read, and the semaphore whose
lock is held after it. -/
def pending : FLabel → Option (Op × ℕ × Option SemId)
  | .stmt _ => none
  | .record o _ ticks next => some (o, ticks, lockOf next)

theorem lockOf_recordOf {l next : Label} {o : Op} {type : SemEventType}
    (h : recordOf l = some (o, type, next)) : lockOf l = some o.id ∧ lockOf next = some o.id := by
  cases l <;> simp only [recordOf, Option.some.injEq, Prod.mk.injEq, reduceCtorEq] at h
  all_goals
    obtain ⟨rfl, rfl, rfl⟩ := h
    exact ⟨rfl, rfl⟩

theorem instr_of_not_exec {l : FLabel} {i : Instr Lk SemId FShared FLabel}
    (h : fine.instr l = i) (hi : ∀ f, i ≠ .exec f) : ∃ l', l = .stmt l' ∧ lift (instr l') = i := by
  cases l with
  | record o type ticks next => exact absurd h.symm (hi _)
  | stmt l =>
    refine ⟨l, rfl, ?_⟩
    cases hrec : recordOf l with
    | none => simpa [fine, fineInstr, hrec] using h
    | some r => exact absurd h.symm (by simpa [fine, fineInstr, hrec] using hi _)

theorem lockOf_exec {l : Label} {f : Proc SemId → Shared → Shared × Label}
    (h : instr l = .exec f) (me : Proc SemId) (s : Shared) : lockOf (f me s).2 = lockOf l := by
  cases l <;> simp only [instr, Instr.exec.injEq, reduceCtorEq] at h <;> subst h <;>
    dsimp only <;> (try split) <;> rfl

theorem guardsAt_base (id : SemId) (l : Label) :
    GuardsAt (.sem id) (fun l => lockOf l = some id) l (instr l) := by
  cases hi : instr l with
  | exec f => exact fun me s => by simp only [lockOf_exec hi]
  | _ => cases l <;> simp only [instr, reduceCtorEq] at hi <;> cases hi <;> simp [GuardsAt, lockOf]

/-- The calls of the finer code are the same, and so are its statements but for the two halves of
`sem_record_event`. -/
theorem guards (id : SemId) : Guards fine (.sem id) (holds id) := by
  refine .of_instr (fun l => ?_) fun cur l h he => ?_
  · cases l with
    | record o type ticks next => exact fun _ _ => rfl
    | stmt l =>
      cases hrec : recordOf l with
      | some r =>
        obtain ⟨o, type, next⟩ := r
        obtain ⟨hl, hnext⟩ := lockOf_recordOf hrec
        simp [fine, fineInstr, hrec, GuardsAt, holds, hl, hnext]
      | none =>
        have hbase := guardsAt_base id l
        simp only [fine, fineInstr, hrec]
        cases hi : instr l <;> rw [hi] at hbase <;>
          first | exact hbase | exact fun me s => hbase me s.base
  obtain ⟨cur, rfl, hl⟩ := instr_of_not_exec h (by simp)
  cases l with
  | record o type ticks next => simp [fine] at he
  | stmt l =>
    cases cur <;> simp only [instr, lift, reduceCtorEq] at hl
    cases l <;> simp_all [fine, entry, holds, lockOf]

theorem pending_of_not_exec {l : FLabel} {i : Instr Lk SemId FShared FLabel}
    (h : fine.instr l = i) (hi : ∀ f, i ≠ .exec f) : pending l = none := by
  obtain ⟨l, rfl, -⟩ := instr_of_not_exec h hi
  rfl

theorem carries : Carries fine pending := by
  refine .of_instr fun l => ?_
  cases l with
  | record o type ticks next => trivial
  | stmt l =>
    cases hrec : recordOf l with
    | some r => simp [fine, fineInstr, hrec, CarriesAt]
    | none => cases hi : instr l <;> simp [fine, fineInstr, hrec, hi, lift, CarriesAt, pending]

theorem run_of_pending {c : Ctl Lk SemId FLabel} {r : Op × ℕ × Option SemId} (hc : CtlOk fine c)
    (h : pending (Machine.base c) = some r) : ∃ l, c = .run l := by
  refine Machine.run_of_base (Q := fun l => pending l = some r) (fun l => ?_) hc h
  have hno {next : FLabel} (hne : ∀ f, fine.instr l ≠ .exec f) (heq : pending next = pending l) :
      pending next ≠ some r := by simp [heq, pending_of_not_exec rfl hne]
  cases hi : fine.instr l with
  | sleep => exact hno (by simp [hi]) (carries.sleep _ _ _ _ hi)
  | wakeup => exact hno (by simp [hi]) (carries.wakeup _ _ _ hi)
  | wakeupOne => exact hno (by simp [hi]) (carries.wakeupOne _ _ _ hi)
  | kkill => exact hno (by simp [hi]) (carries.kkill _ _ _ _ hi).1
  | _ => trivial

theorem exec_log {l : Label} {f : Proc SemId → Shared → Shared × Label} (hrec : recordOf l = none)
    (h : instr l = .exec f) (me : Proc SemId) (s : Shared) :
    (f me s).1.semEventLog = s.semEventLog ∧ (f me s).1.semEventIndex = s.semEventIndex ∧
      (f me s).1.ticks = s.ticks := by
  cases l <;> simp only [instr, Instr.exec.injEq, reduceCtorEq] at h <;>
    simp only [recordOf, reduceCtorEq] at hrec <;> subst h <;>
    dsimp only <;> (try split) <;> exact ⟨rfl, rfl, rfl⟩

end Fine

end Xv6.Semaphore

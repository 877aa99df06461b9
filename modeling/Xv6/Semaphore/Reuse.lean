import Xv6.Semaphore.Simulation
import Xv6.Semaphore.EventLog

/-!
# Reuse of a slot

The check of a system call and the operation itself are separate steps, so that a slot may be closed
and opened again in between; and the ring of events knows slots by their number only. `sem_gantt`
collects events in one step, under `sem_event_lock`, into an array that all calls share, and prints
from it afterwards (`printStep`).

## Main results

* `reuse_isolated`: incarnations are isolated where a slot is settled when it is taken and calls of
  `sem_gantt` do not overlap.
* `reuse_not_isolated`: runs in which a stale call, an old event and an overlapping call show.
-/

namespace Xv6.Semaphore

open Thread Machine Transition Function Shared Phase

namespace Phase

/-- The incarnation of a call that still has an effect to come on the slot or on the ring of
events: all that is left to the others is to release a lock and to return. -/
def pending : Phase → Option ℕ
  | waitCall k | waitIn k | blocking k | committed k | falling k | asleep k | woken k | granted k
  | signalCall k | signalIn k | signalWake k _ | closeCall k | closeWake k _ | closeActive k
  | gantt k => some k
  | _ => none

end Phase

/-- Every call with an effect to come is about the incarnation of the slot. -/
def Current (v : View) : Prop := ∀ q k, (v.phase q).pending = some k → k = v.inc

variable {v v' : View} {p : Slot} {ph : Phase}

theorem Current.to (hc : Current v) (hinc : v'.inc = v.inc)
    (hphase : v'.phase = update v.phase p ph)
    (hph : ∀ k, ph.pending = some k → (v.phase p).pending = some k ∨ k = v.inc) : Current v' := by
  intro q k hq
  rw [hphase] at hq
  rw [hinc]
  by_cases hqp : q = p
  · subst hqp
    rw [update_self] at hq
    rcases hph k hq with h | h
    · exact hc q k h
    · exact h
  · rw [update_of_ne hqp] at hq
    exact hc q k hq

/-- **A slot that is taken only when no effect is to come keeps its calls apart.** -/
theorem Current.step {e : SlotEvent} (hc : Current v) (hs : SlotStep v e v')
    (hok : e = .taken → ∀ q, (v.phase q).pending = none) : Current v' := by
  cases hs with
  | stutter => exact hc
  | waitCheck | signalCheck | closeCheck | ganttCheck => exact hc.to rfl rfl (by simp [pending])
  | waitAcquire hp _ | waitBlock hp _ | waitGrant hp _ | commit hp | unlock hp _ | fall hp
  | relock hp _ | record hp | waitReturn hp _ | signalAcquire hp _ | signalWakes hp _
  | signalFree hp _ | signalSkip hp _ _ | signalEnd hp _ | signalReturn hp _ | closeAcquire hp _
  | closeSkip hp _ _ | closeEnd hp _ | closeOff hp | closeReturn hp _ | tableAcquire hp _
  | tableRelease hp _ | allocSet hp | ganttDone hp | kill hp =>
    exact hc.to rfl rfl (by simp [hp, pending])
  | @signalHit p q k k' hp hne hq | @closeHit p q k k' hp hne hq =>
    have hwake : Current (v.to q (.woken k')) := hc.to rfl rfl (by simp [hq, pending])
    have hp' : (v.to q (.woken k')).phase p = v.phase p := by simp [View.to, hne.symm]
    exact hwake.to rfl rfl (by simp [hp', hp, pending])
  | @allocTake p x hp _ =>
    intro q k hq
    by_cases hqp : q = p
    · subst hqp
      simp [View.to, pending] at hq
    · simp [View.to, hqp, hok rfl q] at hq

/-! ## The operation of a call -/

def labelOp : Label → Option Op
  | .semWait o | .semWaitCount o | .semWaitRecord o | .semWaitSleep o | .semWaitAcquired o
  | .semWaitRelease o | .semSignal o | .semSignalRecord o | .semSignalCount o | .semSignalWake o
  | .semSignalRelease o | .semFree o | .semFreeWake o | .semFreeActive o | .semFreeRelease o
  | .semGantt o => some o
  | _ => none

def opOf : Ctl Lk SemId Label → Option Op
  | .run l | .sleepEnter _ _ l | .sleepLocked _ _ l | .sleepReleased _ _ l | .sched _ _ l
  | .sleepReturn _ l | .wakeupAt _ _ _ l => labelOp l
  | .kkillAt _ _ _ _ => none

variable {id : SemId} {m m' : State} {o : Op}

theorem pending_or_release (hwf : Wf code m) (hop : opOf (m.ctl p) = some o) (hid : o.id = id) :
    ((view id m).phase p).pending = some o.inc ∨
      ∃ lk r l, m.ctl p = .run l ∧ instr l = .release lk (.done r) := by
  have hstands := Stands.of_wf hwf p
  subst hid
  rw [view_phase]
  generalize m.ctl p = c at hop hstands
  cases hstands with
  | run l =>
    cases l <;> cases hop <;>
      first | exact .inr ⟨_, _, _, rfl, rfl⟩ | exact .inl (by simp [labelPhase, pending])
  | sched o' =>
    cases hop
    simp only [phaseOf, onOp_self]
    split <;> exact .inl rfl
  | kkillAt => cases hop
  | _ =>
    cases hop
    exact .inl (by simp [phaseOf, pending])

theorem release_keeps (id : SemId) {lk : Lk} {r : ℤ} {l : Label} (hctl : m.ctl p = .run l)
    (hinstr : instr l = .release lk (.done r)) (hs : step m (.step p) = some m') :
    m'.shared = m.shared ∧ m'.sleepers id = m.sleepers id := by
  have hcode : code.instr l = .release lk (.done r) := hinstr
  cases StepCase.of_step hs with
  | @release _ l' lk' next _ hc hi _ =>
    refine ⟨rfl, ?_⟩
    ext q
    by_cases hq : q = p
    · subst hq
      simp [SleepingOn, commits, hctl]
    · simp [SleepingOn, hq]
  | _ => simp_all

/-! ## The events of an incarnation -/

theorem exec_ring {l : Label} {f : Proc SemId → Shared → Shared × Label}
    (hinstr : instr l = .exec f) (me : Proc SemId) (s : Shared) (p : Slot) :
    (∃ o type, (f me s).1 = s.semRecordEvent o me type ∧ (labelPhase o.id l).pending = some o.inc) ∨
    (f me s).1.semEventLog = s.semEventLog ∧ (f me s).1.semEventIndex = s.semEventIndex ∧
      ∀ id, labelEvent id s p l ≠ .taken → ((f me s).1.semTable id).inc = (s.semTable id).inc := by
  have hset : ∀ (i : SemId) (x : Sem), x.inc = (s.semTable i).inc → ∀ id,
      ((s.setSem i x).semTable id).inc = (s.semTable id).inc := by
    intro i x hx id
    by_cases hid : id = i
    · subst hid
      simpa [setSem] using hx
    · simp [setSem, hid]
  cases l with
  | semWaitRecord o | semWaitAcquired o | semSignalRecord o =>
    obtain rfl := Instr.exec.inj hinstr
    exact .inl ⟨o, _, rfl, by simp [labelPhase, pending]⟩
  | semAlloc value name =>
    obtain rfl := Instr.exec.inj hinstr
    refine .inr ?_
    dsimp only
    cases hfirst : s.firstInactive with
    | none => exact ⟨rfl, rfl, fun _ _ => rfl⟩
    | some i =>
      refine ⟨rfl, rfl, fun id hne => ?_⟩
      have hid : id ≠ i := by
        rintro rfl
        simp [labelEvent, hfirst] at hne
      simp [setSem, hid]
  | semAllocCount i value name | semAllocName i name =>
    obtain rfl := Instr.exec.inj hinstr
    refine .inr ⟨rfl, rfl, fun id _ => hset i _ ?_ id⟩
    rfl
  | semWaitCount o | semSignalCount o | semFreeActive o =>
    obtain rfl := Instr.exec.inj hinstr
    refine .inr ⟨rfl, rfl, fun id _ => hset o.id _ ?_ id⟩
    rfl
  | sysSemWait i | sysSemSignal i | sysSemClose i | sysSemGantt i =>
    obtain rfl := Instr.exec.inj hinstr
    refine .inr ?_
    dsimp only
    cases s.checked i <;> exact ⟨rfl, rfl, fun _ _ => rfl⟩
  | done r | semGantt o =>
    obtain rfl := Instr.exec.inj hinstr
    exact .inr ⟨rfl, rfl, fun _ _ => rfl⟩
  | _ => cases hinstr

/-- The moves that take slot `id` only when it is settled: no call that passed its check has an
effect to come, and `sem_gantt` would show no event of the slot. -/
def Settled (id : SemId) (m : State) (a : Act Label) : Prop :=
  event id m a = .taken → (∀ q, ((view id m).phase q).pending = none) ∧
    ∀ e ∈ m.shared.ganttWindow, e.semId ≠ id.val

instance (id : SemId) (m : State) (a : Act Label) : Decidable (Settled id m a) :=
  inferInstanceAs (Decidable (_ → _))

def OwnEvents (id : SemId) (s : Shared) : Prop :=
  (INT_MIN ≤ s.semEventIndex ∧ s.semEventIndex ≤ INT_MAX) ∧
    ∀ e ∈ s.ganttWindow, e.semId = id.val → e.inc = (s.semTable id).inc

theorem OwnEvents.congr {s s' : Shared} (h : OwnEvents id s)
    (hlog : s'.semEventLog = s.semEventLog) (hindex : s'.semEventIndex = s.semEventIndex)
    (hinc : (s'.semTable id).inc = (s.semTable id).inc ∨
      ∀ e ∈ s.ganttWindow, e.semId ≠ id.val) : OwnEvents id s' := by
  have hwindow : s'.ganttWindow = s.ganttWindow := by
    simp only [ganttWindow, ganttTotal, ganttStart, hlog, hindex]
  refine ⟨hindex ▸ h.1, fun e he heid => ?_⟩
  rw [hwindow] at he
  rcases hinc with hinc | hnone
  · rw [hinc]
    exact h.2 e he heid
  · exact absurd heid (hnone e he)

theorem OwnEvents.semRecordEvent {s : Shared} {me : Proc SemId} {type : SemEventType}
    (h : OwnEvents id s) (ho : o.id = id → o.inc = (s.semTable id).inc) :
    OwnEvents id (s.semRecordEvent o me type) := by
  refine ⟨⟨le_int32 _, int32_le _⟩, fun e he heid => ?_⟩
  rcases mem_ganttWindow_semRecordEvent h.1.1 h.1.2 he with hold | ⟨hid, hinc⟩
  · exact h.2 e hold heid
  · have hoid : o.id = id := Fin.ext (by omega)
    exact hinc.trans (ho hoid)

theorem OwnEvents.step {a : Act Label} (h : OwnEvents id m.shared) (hc : Current (view id m))
    (hok : Settled id m a) (hs : step m a = some m') : OwnEvents id m'.shared := by
  cases StepCase.of_step hs with
  | @exec p l f _ hctl hinstr =>
    have hev : event id m (.step p) = labelEvent id m.shared p l := by simp [event, hctl]
    rcases exec_ring hinstr (m.proc p) m.shared p with ⟨o, type, heq, hpend⟩ | ⟨hlog, hidx, hinc⟩
    · rw [goto_shared, heq]
      refine h.semRecordEvent fun hid => ?_
      subst hid
      exact hc p o.inc (by simpa [view_phase, hctl] using hpend)
    refine h.congr hlog hidx ?_
    by_cases htaken : labelEvent id m.shared p l = .taken
    · exact .inr (hok (hev.trans htaken)).2
    · exact .inl (hinc id htaken)
  | tick => exact h.congr rfl rfl (.inl rfl)
  | _ => exact h

/-! ## Printing -/

/-- The static array `events` of `sem_gantt`, and the calls that have collected and still print: a
call prints from as many entries as it has collected. -/
structure Printer where
  events : List SemEvent
  call : Slot → Option (Op × ℕ)

inductive Move
  | act (a : Act Label)
  /-- a call of `sem_gantt` has printed its chart -/
  | printed (p : Slot)

def Printer.busy (w : Printer) : Act Label → Bool
  | .step p => (w.call p).isSome
  | _ => false

/-- The call of `sem_gantt` whose collection the action is. -/
def ganttCall (m : State) : Act Label → Option (Slot × Op)
  | .step p =>
    match m.ctl p with
    | .run (.semGantt o) => some (p, o)
    | _ => none
  | _ => none

/-- The collected events overwrite the first entries. -/
def Printer.collect (w : Printer) (s : Shared) : Option (Slot × Op) → Printer
  | some (p, o) =>
    let l := s.ganttEvents o.id.val
    ⟨l ++ w.events.drop l.length, update w.call p (some (o, l.length))⟩
  | none => w

def printStep : State × Printer → Move → Option (State × Printer)
  | (m, w), .act a =>
    if w.busy a then none
    else (step m a).map fun m' => (m', w.collect m.shared (ganttCall m a))
  | (m, w), .printed p =>
    if (w.call p).isSome then some (m, { w with call := update w.call p none }) else none

def idlePrinter : Printer := ⟨[], fun _ => none⟩

/-- The slot is settled when it is taken, and no call of `sem_gantt` collects before the one before
it has printed. -/
def Apart (id : SemId) (x : State × Printer) : Move → Prop
  | .act a => Settled id x.1 a ∧ ((ganttCall x.1 a).isSome → ∀ q, x.2.call q = none)
  | .printed _ => True

instance (id : SemId) (x : State × Printer) : ∀ a, Decidable (Apart id x a)
  | .act _ => inferInstanceAs (Decidable (_ ∧ _))
  | .printed _ => inferInstanceAs (Decidable True)

/-- What a call about slot `id` prints are events of its incarnation. -/
def Printer.Shows (id : SemId) (w : Printer) : Prop :=
  ∀ p o n, w.call p = some (o, n) → o.id = id →
    n ≤ w.events.length ∧ ∀ e ∈ w.events.take n, e.semId = id.val ∧ e.inc = o.inc

theorem own_of_ganttCall {a : Act Label} (hc : Current (view id m)) (hev : OwnEvents id m.shared)
    (hcall : ganttCall m a = some (p, o)) (hid : o.id = id) :
    ∀ e ∈ m.shared.ganttEvents o.id.val, e.semId = id.val ∧ e.inc = o.inc := by
  have hctl : m.ctl p = .run (.semGantt o) := by
    unfold ganttCall at hcall
    split at hcall
    · split at hcall
      · next hctl =>
        cases hcall
        exact hctl
      · cases hcall
    · cases hcall
  intro e he
  obtain ⟨hwin, heid⟩ := List.mem_filter.mp (List.mem_of_mem_take he)
  subst hid
  refine ⟨of_decide_eq_true heid, ?_⟩
  rw [hev.2 e hwin (of_decide_eq_true heid)]
  refine (hc p o.inc ?_).symm
  simp [view_phase, hctl, labelPhase, Phase.pending]

theorem Printer.Shows.collect {w : Printer} {a : Act Label} (h : w.Shows id)
    (hc : Current (view id m)) (hev : OwnEvents id m.shared)
    (halone : (ganttCall m a).isSome → ∀ q, w.call q = none) :
    (w.collect m.shared (ganttCall m a)).Shows id := by
  rcases hcall : ganttCall m a with _ | ⟨p, o⟩
  · exact h
  intro q o' n hq hid
  rw [hcall] at halone
  by_cases hqp : q = p
  · subst hqp
    simp only [Printer.collect, update_self, Option.some.injEq, Prod.mk.injEq] at hq
    obtain ⟨rfl, rfl⟩ := hq
    refine ⟨by simp [Printer.collect], fun e he => own_of_ganttCall hc hev hcall hid e ?_⟩
    rwa [Printer.collect, List.take_left] at he
  · simp [Printer.collect, hqp, halone rfl q] at hq

/-- **Where a slot is settled when it is taken and charts are printed one at a time, incarnations are
isolated.** -/
theorem reuse_isolated {w : Printer}
    (hrun : Reach printStep (Apart id) (boot, idlePrinter) (m, w)) :
    (∀ p o m', opOf (m.ctl p) = some o → o.id = id → o.inc < (m.shared.semTable id).inc →
      step m (.step p) = some m' →
      (m'.shared.semTable id).count = (m.shared.semTable id).count ∧
      (m'.shared.semTable id).active = (m.shared.semTable id).active ∧
      m'.sleepers id = m.sleepers id) ∧ w.Shows id := by
  obtain ⟨hwf, hc, hev, hshows⟩ := hrun.invariant
    (I := fun x => Wf code x.1 ∧ Current (view id x.1) ∧ OwnEvents id x.1.shared ∧ x.2.Shows id)
    ⟨wf_boot, show Current (view id boot) from nofun,
      ⟨by decide, by simp [boot, Shared.ganttWindow, Shared.ganttTotal]⟩,
      fun _ _ _ h => nomatch h⟩ (by
      rintro ⟨m, w⟩ (a | p) x ⟨hwf, hc, hev, hshows⟩ hok hs
      · simp only [printStep] at hs
        split at hs
        · cases hs
        · obtain ⟨m', hm', rfl⟩ := Option.map_eq_some_iff.mp hs
          exact ⟨hwf.stepCase (.of_step hm'), hc.step (slotStep_of_step hwf hm') fun h => (hok.1 h).1,
            hev.step hc hok.1 hm', hshows.collect hc hev hok.2⟩
      simp only [printStep] at hs
      split at hs
      · cases hs
        refine ⟨hwf, hc, hev, fun q o n hq => hshows q o n ?_⟩
        by_cases hqp : q = p
        · simp [hqp] at hq
        · simpa [hqp] using hq
      · cases hs)
  refine ⟨fun p o m' hop hid hlt hs => ?_, hshows⟩
  rcases pending_or_release hwf hop hid with hpend | ⟨lk, r, l, hctl, hinstr⟩
  · have hcur := hc p o.inc hpend
    rw [view_inc] at hcur
    exact absurd hlt (by rw [hcur]; exact lt_irrefl _)
  · obtain ⟨hshared, hsleepers⟩ := release_keeps id hctl hinstr hs
    exact ⟨by rw [hshared], by rw [hshared], hsleepers⟩

/-- The slot is opened, closed and opened again, and the second incarnation shows its own event. -/
theorem reuse_isolated_gantt : ∃ m w, Reach printStep (Apart 0) (boot, idlePrinter) (m, w) ∧
    w.call 0 = some (⟨0, 2⟩, 1) ∧ ∀ e ∈ w.events.take 1, e.semId = 0 ∧ e.inc = 2 := by
  obtain ⟨⟨m, w⟩, hrun, hf⟩ := exists_reach printStep (fun x a => decide (Apart 0 x a))
    (boot, idlePrinter)
    ((List.flatten [spawn 0 1, calls 0 (.sysSemOpen 0 []) 6, calls 0 (.sysSemClose 0) 71,
      calls 0 (.sysSemOpen 1 []) 6, calls 0 (.sysSemWait 0) 6, calls 0 (.sysSemGantt 0) 2]).map .act)
    (fun x => x.2.call 0) (some (⟨0, 2⟩, 1)) (by decide +kernel)
  have hrun' := hrun.mono fun _ _ h => of_decide_eq_true h
  exact ⟨m, w, hrun', hf, ((reuse_isolated hrun').2 0 _ _ hf rfl).2⟩

/-- **Stale calls and old events reach the next incarnation, and calls of `sem_gantt` each other's
chart.** First, two processes pass the check of `sys_sem_close`; one closes the slot, it is opened
again, and the other one closes it. Last, the call about slot 1 collects while the one about slot 0
prints. -/
theorem reuse_not_isolated :
    (∃ m m' o, Reach step (fun _ _ => True) boot m ∧ opOf (m.ctl 1) = some o ∧ o.id = 0 ∧
      o.inc < (m.shared.semTable 0).inc ∧ (m.shared.semTable 0).active = true ∧
      step m (.step 1) = some m' ∧ (m'.shared.semTable 0).active = false) ∧
    (∃ m, Reach step (fun _ _ => True) boot m ∧ m.ctl 0 = .run (.semGantt ⟨0, 2⟩) ∧
      ∃ e ∈ m.shared.ganttEvents 0, e.inc = 1) ∧
    ∃ m w, Reach printStep (fun _ _ => True) (boot, idlePrinter) (m, w) ∧
      w.call 0 = some (⟨0, 1⟩, 1) ∧ ∃ e ∈ w.events.take 1, e.semId = 1 := by
  refine ⟨?_, ?_, ?_⟩
  · obtain ⟨m, hrun, hf⟩ := exists_reach step (fun _ _ => true) boot
      (List.flatten [spawn 0 1, spawn 1 2, calls 0 (.sysSemOpen 0 []) 6, calls 1 (.sysSemClose 0) 1,
        calls 0 (.sysSemClose 0) 71, calls 0 (.sysSemOpen 0 []) 6, steps 1 67])
      (fun m => (opOf (m.ctl 1), (m.shared.semTable 0).inc, (m.shared.semTable 0).active,
        (step m (.step 1)).map fun m' => (m'.shared.semTable 0).active))
      (some ⟨0, 1⟩, 2, true, some false) (by decide +kernel)
    simp only [Prod.mk.injEq] at hf
    obtain ⟨hop, hinc, hact, hstep⟩ := hf
    obtain ⟨m', hm', hact'⟩ := Option.map_eq_some_iff.mp hstep
    exact ⟨m, m', _, hrun.mono fun _ _ _ => trivial, hop, rfl, by rw [hinc]; decide, hact, hm',
      hact'⟩
  · obtain ⟨m, hrun, hf⟩ := exists_reach step (fun _ _ => true) boot
      (List.flatten [spawn 0 1, calls 0 (.sysSemOpen 1 []) 6, calls 0 (.sysSemWait 0) 6,
        calls 0 (.sysSemClose 0) 71, calls 0 (.sysSemOpen 1 []) 6, calls 0 (.sysSemGantt 0) 1])
      (fun m => (labelOf (m.ctl 0), decide (∃ e ∈ m.shared.ganttEvents 0, e.inc = 1)))
      (some (.semGantt ⟨0, 2⟩), true) (by decide +kernel)
    simp only [Prod.mk.injEq] at hf
    exact ⟨m, hrun.mono fun _ _ _ => trivial, eq_run_of_labelOf hf.1, of_decide_eq_true hf.2⟩
  obtain ⟨⟨m, w⟩, hrun, hf⟩ := exists_reach printStep (fun _ _ => true) (boot, idlePrinter)
    ((List.flatten [spawn 0 1, spawn 1 2, calls 0 (.sysSemOpen 1 []) 6,
      calls 1 (.sysSemOpen 1 []) 6, calls 0 (.sysSemWait 0) 6, calls 1 (.sysSemWait 1) 6,
      calls 0 (.sysSemGantt 0) 2, calls 1 (.sysSemGantt 1) 2]).map .act)
    (fun x => (x.2.call 0, decide (∃ e ∈ x.2.events.take 1, e.semId = 1)))
    (some (⟨0, 1⟩, 1), true) (by decide +kernel)
  simp only [Prod.mk.injEq] at hf
  exact ⟨m, w, hrun.mono fun _ _ _ => trivial, hf.1, of_decide_eq_true hf.2⟩

end Xv6.Semaphore

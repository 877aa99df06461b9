import Xv6.Semaphore.Recorder

/-!
# The snapshot of `sem_gantt`

The invariant of the recorders, and what `sem_gantt` collects from the log in a state they can reach:
the first events of the semaphore among the last ones recorded, in the order of their ticks.

## Main results

* `gantt_snapshot`: what `sem_gantt` collects
-/

namespace Xv6.Semaphore

open Thread Machine Transition Mutex Function Machine List

namespace Logs

variable {s s' : Shared} {h : List SemEvent}

theorem recordAt (hl : Logs s h) (hlen : h.length + 1 < 2 ^ 31) (o : Op) (me : Proc SemId)
    (type : SemEventType) (ticks : ℕ) :
    Logs (s.recordAt o me type ticks) (h ++ [Fine.eventOf o me type ticks]) := by
  constructor
  · simp only [Shared.recordAt, length_append, length_singleton, hl.index]
    rw [int32_of_range (by simp only [INT_MIN]; omega) (by simp only [INT_MAX]; omega)]
    push_cast
    rfl
  intro n e hn hwin
  rw [length_append, length_singleton] at hwin
  have hidx : s.semEventIndex.tmod SEM_EVENT_LOG_SIZE =
      ((h.length % SEM_EVENT_LOG_SIZE : ℕ) : ℤ) := by
    rw [hl.index, Int.tmod_eq_emod_of_nonneg (by omega)]
    push_cast
    rfl
  simp only [Shared.recordAt, hidx]
  rcases lt_trichotomy n h.length with hlt | rfl | hgt
  · -- an entry of the window is not the one overwritten
    have hne : ((n % SEM_EVENT_LOG_SIZE : ℕ) : ℤ) ≠ ((h.length % SEM_EVENT_LOG_SIZE : ℕ) : ℤ) := by
      simp only [SEM_EVENT_LOG_SIZE] at hwin ⊢
      omega
    rw [update_of_ne hne]
    rw [getElem?_append_left hlt] at hn
    exact hl.entry n e hn (by omega)
  · rw [update_self]
    simpa [Fine.eventOf] using hn
  · rw [getElem?_eq_none (by simp; omega)] at hn
    exact absurd hn (by simp)

theorem congr (hl : Logs s h) (hlog : s'.semEventLog = s.semEventLog)
    (hidx : s'.semEventIndex = s.semEventIndex) : Logs s' h :=
  ⟨hidx.trans hl.index, fun n e hn hwin => by rw [hlog]; exact hl.entry n e hn hwin⟩

end Logs

theorem safestrcpy_safestrcpy (name : List UInt8) (n : ℕ) :
    safestrcpy (safestrcpy name n) n = safestrcpy name n := by
  have hall : ((name.takeWhile (· ≠ 0)).take (n - 1)).takeWhile (· ≠ 0) =
      (name.takeWhile (· ≠ 0)).take (n - 1) := by
    rw [takeWhile_eq_self_iff]
    intro x hx
    have hx := mem_of_mem_take hx
    simpa using mem_takeWhile_imp hx
  rw [safestrcpy, safestrcpy, hall, take_take, min_self]

namespace Fine

/-- What has been recorded agrees with the clock, and with what the pending calls read of it. -/
structure Clock (s : FShared) (pend : Slot → Option (Op × ℕ × Option SemId)) : Prop where
  le : ∀ e ∈ s.history, e.ticks ≤ s.base.ticks
  read : ∀ p o t k, pend p = some (o, t, k) → t ≤ s.base.ticks
  after : ∀ p o t k, pend p = some (o, t, k) → ∀ e ∈ s.history, e.semId = o.id.val → e.ticks ≤ t
  sorted : ∀ id : ℤ, (s.history.filter fun e => e.semId = id).Pairwise fun e e' => e.ticks ≤ e'.ticks

structure Recording (m : FState) : Prop where
  wf : Wf fine m
  excl : ∀ id, Exclusion (.sem id) (holds id) m
  logs : m.shared.history.length < 2 ^ 31 → Logs m.shared.base m.shared.history
  names : ∀ e ∈ m.shared.history, safestrcpy e.pname 16 = e.pname
  small : m.shared.base.ticks < 2 ^ 32
  uint : ∀ e ∈ m.shared.history, e.ticks < 2 ^ 32
  locked : ∀ p o t k, pending (Machine.base (m.ctl p)) = some (o, t, k) → k = some o.id ∧ t < 2 ^ 32
  clock : m.shared.wrapped = false → Clock m.shared fun p => pending (Machine.base (m.ctl p))

namespace Recording

variable {m m' : FState} {a : Act FLabel} {p : Slot}

variable (h : Recording m)

include h

theorem unique {q : Slot} {o o' : Op} {t t' : ℕ} {k k' : Option SemId}
    (hp : pending (base (m.ctl p)) = some (o, t, k))
    (hq : pending (base (m.ctl q)) = some (o', t', k')) (hid : o.id = o'.id) : p = q := by
  have hholds : ∀ {r : Slot} {o : Op} {t : ℕ} {k : Option SemId},
      pending (base (m.ctl r)) = some (o, t, k) →
        holdsCtl (.sem o.id) (holds o.id) (m.ctl r) = true := by
    intro r o t k hr
    obtain ⟨hk, -⟩ := h.locked r o t k hr
    obtain ⟨l, hl⟩ := run_of_pending (h.wf.ctlOk r) hr
    rw [hl] at hr ⊢
    cases l with
    | stmt l => simp [base, pending] at hr
    | record o' type ticks next =>
      simp only [base, pending, Option.some.injEq, Prod.mk.injEq] at hr
      simp [holdsCtl, holds, hr.2.2, hk]
  have hq' := hholds hq
  rw [← hid] at hq'
  exact (h.excl o.id).unique (hholds hp) hq'

theorem keep (hwf : Wf fine m') (hexcl : ∀ id, Exclusion (.sem id) (holds id) m')
    (hhist : m'.shared.history = m.shared.history) (hwrap : m'.shared.wrapped = m.shared.wrapped)
    (hlog : m'.shared.base.semEventLog = m.shared.base.semEventLog)
    (hidx : m'.shared.base.semEventIndex = m.shared.base.semEventIndex)
    (hticks : m'.shared.base.ticks = m.shared.base.ticks)
    (hpend : ∀ p o t k, pending (base (m'.ctl p)) = some (o, t, k) →
      pending (base (m.ctl p)) = some (o, t, k) ∨
        k = some o.id ∧ t = m.shared.base.ticks) : Recording m' := by
  refine ⟨hwf, hexcl, fun hlen => ?_, ?_, ?_, ?_, fun q o t k hq => ?_, fun hw => ?_⟩
  · rw [hhist] at hlen ⊢
    exact (h.logs hlen).congr hlog hidx
  · rw [hhist]
    exact h.names
  · rw [hticks]
    exact h.small
  · rw [hhist]
    exact h.uint
  · rcases hpend q o t k hq with hq | ⟨hk, rfl⟩
    · exact h.locked q o t k hq
    · exact ⟨hk, h.small⟩
  have hc := h.clock (hwrap ▸ hw)
  refine ⟨?_, fun q o t k hq => ?_, fun q o t k hq e he hid => ?_, ?_⟩
  · rw [hhist, hticks]
    exact hc.le
  · rw [hticks]
    rcases hpend q o t k hq with hq | ⟨-, rfl⟩
    · exact hc.read q o t k hq
    · exact le_rfl
  · rw [hhist] at he
    rcases hpend q o t k hq with hq | ⟨-, rfl⟩
    · exact hc.after q o t k hq e he hid
    · exact hc.le e he
  · rw [hhist]
    exact hc.sorted

theorem record {o : Op} {type : SemEventType} {t : ℕ} {next : Label}
    (hctl : m.ctl p = .run (.record o type t next)) (hwf : Wf fine m')
    (hexcl : ∀ id, Exclusion (.sem id) (holds id) m')
    (hshared : m'.shared = { m.shared with
      base := m.shared.base.recordAt o (m.proc p) type t
      history := m.shared.history ++ [eventOf o (m.proc p) type t] })
    (hctl' : m'.ctl = update m.ctl p (.run (.stmt next))) : Recording m' := by
  have hp : pending (base (m.ctl p)) = some (o, t, lockOf next) := by
    rw [hctl]
    rfl
  have hold : ∀ {q o' t' k'}, pending (base (m'.ctl q)) = some (o', t', k') →
      q ≠ p ∧ pending (base (m.ctl q)) = some (o', t', k') := by
    intro q o' t' k' hq
    rw [hctl'] at hq
    by_cases hqp : q = p
    · subst hqp
      simp [base, pending] at hq
    · rw [update_of_ne hqp] at hq
      exact ⟨hqp, hq⟩
  have hmem : ∀ {e}, e ∈ m'.shared.history →
      e ∈ m.shared.history ∨ e = eventOf o (m.proc p) type t := by
    intro e he
    rw [hshared] at he
    simpa using he
  have hticks : m'.shared.base.ticks = m.shared.base.ticks := by
    rw [hshared]
    rfl
  refine ⟨hwf, hexcl, fun hlen => ?_, fun e he => ?_, ?_, fun e he => ?_, fun q o' t' k' hq => ?_,
    fun hw => ?_⟩
  · rw [hshared] at hlen ⊢
    rw [length_append, length_singleton] at hlen
    exact (h.logs (by omega)).recordAt hlen o (m.proc p) type t
  · rcases hmem he with he | rfl
    · exact h.names e he
    · exact safestrcpy_safestrcpy _ _
  · rw [hticks]
    exact h.small
  · rcases hmem he with he | rfl
    · exact h.uint e he
    · exact (h.locked p o t _ hp).2
  · exact h.locked q o' t' k' (hold hq).2
  have hc := h.clock (by rw [hshared] at hw; exact hw)
  refine ⟨fun e he => ?_, fun q o' t' k' hq => ?_, fun q o' t' k' hq e he hid => ?_, fun id => ?_⟩
  · rw [hticks]
    rcases hmem he with he | rfl
    · exact hc.le e he
    · exact hc.read p o t _ hp
  · rw [hticks]
    exact hc.read q o' t' k' (hold hq).2
  · obtain ⟨hqp, hq⟩ := hold hq
    rcases hmem he with he | rfl
    · exact hc.after q o' t' k' hq e he hid
    · -- another recorder of this semaphore would hold its lock too
      refine absurd (h.unique hp hq ?_).symm hqp
      exact Fin.ext (by simpa [eventOf] using hid)
  rw [hshared, filter_append, pairwise_append]
  refine ⟨hc.sorted id, (pairwise_singleton _ _).sublist filter_sublist, ?_⟩
  intro e he e' he'
  obtain ⟨he, hid⟩ := mem_filter.mp he
  obtain ⟨he', hid'⟩ := mem_filter.mp he'
  obtain rfl := mem_singleton.mp he'
  simp only [decide_eq_true_eq] at hid hid'
  exact hc.after p o t _ hp e he (by rw [hid, ← hid']; rfl)

theorem tick (hwf : Wf fine { m with shared := fine.tick m.shared })
    (hexcl : ∀ id, Exclusion (.sem id) (holds id) { m with shared := fine.tick m.shared }) :
    Recording { m with shared := fine.tick m.shared } := by
  refine ⟨hwf, hexcl, fun hlen => (h.logs hlen).congr rfl rfl, h.names, ?_, h.uint, h.locked,
    fun hw => ?_⟩
  · exact Nat.mod_lt _ (by decide)
  simp only [fine, Bool.or_eq_false_iff, beq_eq_false_iff_ne] at hw
  have hc := h.clock hw.1
  have hticks : (fine.tick m.shared).base.ticks = m.shared.base.ticks + 1 := by
    have hsmall := h.small
    exact Nat.mod_eq_of_lt (by omega)
  refine ⟨fun e he => ?_, fun q o t k hq => ?_, hc.after, hc.sorted⟩
  · have := hc.le e he
    simp only [hticks]
    omega
  · have := hc.read q o t k hq
    simp only [hticks]
    omega

theorem step (hs : fineStep m a = some m') : Recording m' := by
  have hcase := StepCase.of_step hs
  have hwf := h.wf.stepCase hcase
  have hexcl : ∀ id, Exclusion (.sem id) (holds id) m' :=
    fun id => (h.excl id).step (guards id) h.wf hcase
  rcases carries.step h.wf hcase with ⟨p, l, f, -, hctl, hinstr, rfl⟩ |
    ⟨p, cur, l, -, hchoose, hentry, rfl⟩ | rfl | ⟨hshared, hpend⟩
  · cases l with
    | record o type t next =>
      obtain rfl := Instr.exec.inj hinstr
      exact h.record hctl hwf hexcl rfl rfl
    | stmt l =>
      cases hrec : recordOf l with
      | some r =>
        obtain ⟨o, type, next⟩ := r
        simp only [fine, fineInstr, hrec, Instr.exec.injEq] at hinstr
        subst hinstr
        refine h.keep hwf hexcl rfl rfl rfl rfl rfl fun q o' t' k' hq => ?_
        by_cases hqp : q = p
        · subst hqp
          simp only [goto_ctl, update_self, base, pending, Option.some.injEq, Prod.mk.injEq] at hq
          obtain ⟨rfl, rfl, rfl⟩ := hq
          exact .inr ⟨(lockOf_recordOf hrec).2, rfl⟩
        · exact .inl (by simpa [update_of_ne hqp] using hq)
      | none =>
        simp only [fine, fineInstr, hrec] at hinstr
        cases hi : instr l <;> simp only [hi, lift, Instr.exec.injEq, reduceCtorEq] at hinstr
        subst hinstr
        obtain ⟨hlog, hidx, hticks⟩ := exec_log hrec hi (m.proc p) m.shared.base
        refine h.keep hwf hexcl rfl rfl hlog hidx hticks fun q o' t' k' hq => .inl ?_
        by_cases hqp : q = p
        · subst hqp
          simp [base, pending] at hq
        · simpa [update_of_ne hqp] using hq
  · refine h.keep hwf hexcl rfl rfl rfl rfl rfl fun q o' t' k' hq => .inl ?_
    obtain ⟨cur, rfl, -⟩ := instr_of_not_exec hchoose (by simp)
    cases l with
    | record o type t next => simp [fine] at hentry
    | stmt l =>
      by_cases hqp : q = p
      · subst hqp
        simp [base, pending] at hq
      · simpa [update_of_ne hqp] using hq
  · exact h.tick hwf hexcl
  refine h.keep hwf hexcl (by rw [hshared]) (by rw [hshared]) (by rw [hshared]) (by rw [hshared])
    (by rw [hshared]) fun q o' t' k' hq => .inl ?_
  rw [← hpend q]
  exact hq

end Recording

attribute [local simp] fineBoot

theorem recording_boot : Recording fineBoot := by
  refine ⟨⟨fun p => ?_, fun p => trivial⟩, fun id p => ?_, fun _ => ?_, by simp,
    by decide, by simp, fun p o t k hp => ?_, fun _ => ?_⟩
  · simp [ProcOk, Proc.free, fine]
  · simp [holdsCtl, holds, lockOf]
  · exact ⟨rfl, fun n e hn => by simp at hn⟩
  · simp [base, pending] at hp
  · exact ⟨by simp, by simp [base, pending],
      by simp, by simp⟩

variable {m : FState}

theorem recording_of_reach (hrun : Reach fineStep (fun _ _ => True) fineBoot m) : Recording m :=
  hrun.invariant recording_boot fun _ _ _ h _ hs => h.step hs

def lastEvents (h : List SemEvent) (id : ℤ) : List SemEvent :=
  (h.drop (h.length - SEM_EVENT_LOG_SIZE)).filter fun e => e.semId = id

/-- **The snapshot of `sem_gantt`.** -/
theorem gantt_snapshot (hrun : Reach fineStep (fun _ _ => True) fineBoot m)
    (hlen : m.shared.history.length < 2 ^ 31) (id : ℤ) :
    let g := m.shared.base.semGantt id
    let l := (lastEvents m.shared.history id).take MAX_GANTT_EVENTS
    g.events = l.map (fun e => ⟨e.pid, e.ticks, e.type, e.pname⟩) ∧
    (m.shared.wrapped = false → g.events.Pairwise fun e e' => e.ticks ≤ e'.ticks) ∧
    (∀ e ∈ g.events, g.tMin ≤ e.ticks ∧ e.ticks ≤ g.tMax) ∧
    (g.events ≠ [] → (∃ e ∈ g.events, e.ticks = g.tMin) ∧ ∃ e ∈ g.events, e.ticks = g.tMax) ∧
    g.pids = ((g.events.map GanttEvent.pid).eraseDups).take MAX_GANTT_PIDS ∧ g.pids.Nodup := by
  intro g l
  have h := recording_of_reach hrun
  have hsub : l.Sublist m.shared.history :=
    (List.take_sublist _ _).trans (List.filter_sublist.trans (List.drop_sublist _ _))
  have hg : g = l.foldl Gantt.add Gantt.empty := by
    simp only [g, l, Shared.semGantt, Gantt.collect_eq, (h.logs hlen).ganttWindow_eq, lastEvents]
    rfl
  have hsorted : m.shared.wrapped = false → l.Pairwise fun e e' => e.ticks ≤ e'.ticks := fun hw =>
    ((h.clock hw).sorted id).sublist
      ((List.take_sublist _ _).trans ((List.drop_sublist _ _).filter _))
  clear_value g l
  have hcopy : ∀ e ∈ l, e.copied = ⟨e.pid, e.ticks, e.type, e.pname⟩ := by
    intro e he
    rw [SemEvent.copied, h.names e (hsub.subset he)]
  have hevents : g.events = l.map fun e => ⟨e.pid, e.ticks, e.type, e.pname⟩ := by
    rw [hg, Gantt.events_foldl]
    exact List.map_congr_left hcopy
  obtain ⟨hmin, hmin'⟩ := Gantt.tMin_foldl l fun e he => h.uint e (hsub.subset he)
  obtain ⟨hmax, hmax'⟩ := Gantt.tMax_foldl l
  have hpids : g.pids = ((g.events.map GanttEvent.pid).eraseDups).take MAX_GANTT_PIDS := by
    rw [hevents, List.map_map, hg, Gantt.pids_foldl]
    rfl
  refine ⟨hevents, fun hw => ?_, fun e he => ?_, fun hne => ?_, hpids, ?_⟩
  · rw [hevents, List.pairwise_map]
    exact hsorted hw
  · rw [hevents] at he
    obtain ⟨e', he', rfl⟩ := List.mem_map.mp he
    rw [hg]
    exact ⟨hmin e' he', hmax e' he'⟩
  · have hl : l ≠ [] := by
      rintro hl
      exact hne (by rw [hevents, hl, List.map_nil])
    obtain ⟨e, he, heq⟩ := hmin' hl
    obtain ⟨e', he', heq'⟩ := hmax' hl
    rw [hevents, hg]
    exact ⟨⟨_, List.mem_map_of_mem he, heq⟩, ⟨_, List.mem_map_of_mem he', heq'⟩⟩
  · rw [hpids]
    exact (Gantt.nodup_eraseDups _).sublist (List.take_sublist _ _)

/-- A process takes the unit of a new semaphore and gives it back. -/
theorem gantt_snapshot_pair : ∃ m, Reach fineStep (fun _ _ => True) fineBoot m ∧
    m.shared.history.length = 2 ∧
    (m.shared.base.semGantt 0).events.Pairwise fun e e' => e.ticks ≤ e'.ticks := by
  obtain ⟨m, hrun, hf⟩ := exists_reach fineStep (fun _ _ => true) fineBoot
    (List.flatten [spawn 0 1, calls 0 (.stmt (.sysSemOpen 1 [])) 6,
      calls 0 (.stmt (.sysSemWait 0)) 7, [.tick], calls 0 (.stmt (.sysSemSignal 0)) 4])
    (fun m => decide (m.shared.history.length = 2 ∧ m.shared.wrapped = false)) true
    (by decide +kernel)
  obtain ⟨hlen, hwrap⟩ := of_decide_eq_true hf
  have hrun : Reach fineStep (fun _ _ => True) fineBoot m := hrun.mono fun _ _ _ => trivial
  exact ⟨m, hrun, hlen, (gantt_snapshot hrun (by omega) 0).2.1 hwrap⟩

end Fine

end Xv6.Semaphore

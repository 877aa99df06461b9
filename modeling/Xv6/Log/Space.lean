import Xv6.Log.GroupCommitLaw

/-!
# Log space

`begin_op` admits an operation only if the header, with `MAXOPBLOCKS` more blocks for each operation
under way, fits the log.

## Main results

* `log_space`: the reserved space suffices where full logs absorb nothing
-/

namespace Xv6.Log

open Thread Machine Transition Tally Function

/-- The blocks each process has passed to `log_write` in its operation. -/
abbrev Own := Slot → Finset ℕ

def noteOwn (own : Own) : LogEvent → Own
  | .begun p => update own p ∅
  | .logged p b _ | .refused p b => update own p (insert b (own p))
  | _ => own

/-- An operation passes at most `MAXOPBLOCKS` distinct blocks to `log_write`. -/
def Budgeted (own : Own) : LogEvent → Prop
  | .logged p b _ | .refused p b => (insert b (own p)).card ≤ MAXOPBLOCKS
  | _ => True

/-- A block that is in the header is passed to `log_write` only while the log is not full. -/
def AbsorbsInTime (s : Shared) : LogEvent → Prop
  | .logged _ b _ | .refused _ b => b ∈ s.store.lh → s.store.lh.length < LOGBLOCKS
  | _ => True

instance (own : Own) : DecidablePred (Budgeted own)
  | .logged _ _ _ | .refused _ _ => inferInstanceAs (Decidable (_ ≤ _))
  | .silent | .begun _ | .ended _ | .advanced _ | .finished | .syncCalled _ | .syncReturned _ =>
    inferInstanceAs (Decidable True)

instance (s : Shared) : DecidablePred (AbsorbsInTime s)
  | .logged _ _ _ | .refused _ _ => inferInstanceAs (Decidable (_ → _))
  | .silent | .begun _ | .ended _ | .advanced _ | .finished | .syncCalled _ | .syncReturned _ =>
    inferInstanceAs (Decidable True)

def budget (x : Phase × Finset ℕ) : ℕ := if x.1.inOp then MAXOPBLOCKS - x.2.card else 0

def ops (v : View) (own : Own) (p : Slot) : Phase × Finset ℕ := (v.phase p, own p)

structure Space (v : View) (own : Own) : Prop where
  room : v.shared.store.lh.length + total budget (ops v own) ≤ LOGBLOCKS
  own : ∀ p, (v.phase p).inOp = true → ∀ b ∈ own p, b ∈ v.shared.store.lh
  noPanic : ∀ p, v.phase p ≠ .panicked "too big a transaction"

theorem ops_update {v v' : View} {p : Slot} {ph : Phase} (own : Own) (o : Finset ℕ)
    (hphase : v'.phase = update v.phase p ph) :
    ops v' (update own p o) = update (ops v own) p (ph, o) := by
  funext q
  by_cases hq : q = p
  · subst hq
    simp [ops, hphase]
  · simp [ops, hphase, hq]

namespace Space

variable {start : ℕ} {v v' : View} {own : Own} {logged : Finset ℕ} {p : Slot} {ph : Phase}

theorem move (h : Space v own) (hlen : v'.shared.store.lh.length ≤ v.shared.store.lh.length)
    (hlh : ∀ q, (v.phase q).inOp = true → v'.shared.store.lh = v.shared.store.lh)
    (hphase : v'.phase = update v.phase p ph)
    (hop : ph.inOp = true → (v.phase p).inOp = true) (hph : ph ≠ .panicked "too big a transaction") :
    Space v' own := by
  have htotal := total_update budget (ops v own) p (ph, own p)
  have hle : budget (ph, own p) ≤ budget (ops v own p) := by
    unfold budget ops
    split
    · rename_i hin
      rw [if_pos (hop hin)]
    · exact Nat.zero_le _
  have hroom := h.room
  refine ⟨?_, ?_, ?_⟩
  · have hops : ops v' own = update (ops v own) p (ph, own p) := by
      have := ops_update own (own p) hphase
      rwa [update_eq_self] at this
    rw [hops]
    omega
  · rw [hphase, forall_update_iff v.phase fun q x =>
      x.inOp = true → ∀ b ∈ own q, b ∈ v'.shared.store.lh]
    refine ⟨fun hin => ?_, fun q _ hin => ?_⟩
    · rw [hlh p (hop hin)]
      exact h.own p (hop hin)
    · rw [hlh q hin]
      exact h.own q hin
  · rw [hphase, forall_update_iff v.phase fun _ x => x ≠ .panicked "too big a transaction"]
    exact ⟨hph, fun q _ => h.noPanic q⟩

theorem lt_of_fresh (h : Space v own) {b : ℕ} (hp : (v.phase p).inOp = true)
    (hcard : (insert b (own p)).card ≤ MAXOPBLOCKS) (hb : b ∉ v.shared.store.lh) :
    b ∉ own p ∧ v.shared.store.lh.length < LOGBLOCKS := by
  have hown : b ∉ own p := fun hmem => hb (h.own p hp b hmem)
  rw [Finset.card_insert_of_notMem hown] at hcard
  have hle := le_total budget (ops v own) p
  have hbudget : budget (ops v own p) = MAXOPBLOCKS - (own p).card := if_pos hp
  have hroom := h.room
  exact ⟨hown, by omega⟩

theorem enter (h : Space v own) (hg : Group ((v.share v.shared.enter).go p .beginOut) logged)
    (hroom : v.shared.full = false) :
    Space ((v.share v.shared.enter).go p .beginOut) (update own p ∅) := by
  refine ⟨?_, ?_, ?_⟩
  · -- the test of begin_op covers all operations at their full budget
    have htotal : total budget (ops ((v.share v.shared.enter).go p .beginOut)
        (update own p ∅)) ≤ MAXOPBLOCKS * tally (fun x : Phase × Finset ℕ => x.1.inOp)
          (ops ((v.share v.shared.enter).go p .beginOut) (update own p ∅)) := by
      refine total_le_mul_tally fun x => ?_
      unfold budget
      split
      · omega
      · exact le_rfl
    have hcount := hg.outstanding
    simp only [View.go_shared, View.share_shared, Shared.enter] at hcount
    simp only [Shared.full, decide_eq_false_iff_not, not_lt] at hroom
    rw [hcount] at hroom
    have hfit : v.shared.store.lh.length + tally Phase.inOp
        ((v.share v.shared.enter).go p .beginOut).phase * MAXOPBLOCKS ≤ LOGBLOCKS := by
      exact_mod_cast hroom
    rw [Nat.mul_comm] at hfit
    exact (Nat.add_le_add_left htotal _).trans hfit
  · intro q hq b hb
    by_cases hqp : q = p
    · subst hqp
      simp at hb
    · simp only [View.go_phase, View.share_phase, update_of_ne hqp] at hq hb
      exact h.own q hq b hb
  · exact (forall_update_iff v.phase fun _ x => x ≠ .panicked "too big a transaction").mpr
      ⟨by decide, fun q _ => h.noPanic q⟩

theorem logRecord {b : ℕ} {x : Block} (h : Space v own) (hp : v.phase p = .logIn b x)
    (hcard : (insert b (own p)).card ≤ MAXOPBLOCKS) :
    Space ((v.share { v.shared with store := v.shared.store.logWrite b x }).go p .logOut)
      (update own p (insert b (own p))) := by
  have hop : (v.phase p).inOp = true := by rw [hp]; rfl
  refine ⟨?_, ?_, ?_⟩
  · rw [ops_update own (insert b (own p)) (v := v) rfl]
    have htotal := total_update budget (ops v own) p (.logOut, insert b (own p))
    have hold : budget (ops v own p) = MAXOPBLOCKS - (own p).card := if_pos hop
    have hnew : budget (.logOut, insert b (own p)) = MAXOPBLOCKS - (insert b (own p)).card := rfl
    have hroom := h.room
    change (v.shared.store.logWrite b x).lh.length + _ ≤ _
    by_cases hb : b ∈ v.shared.store.lh
    · have hlh : (v.shared.store.logWrite b x).lh = v.shared.store.lh := by
        simp [Store.logWrite, hb]
      have hmono := Finset.card_le_card (Finset.subset_insert b (own p))
      rw [hlh]
      omega
    have hlen := Store.length_logWrite_lh_le v.shared.store b x
    have hown := (h.lt_of_fresh hop hcard hb).1
    rw [Finset.card_insert_of_notMem hown] at hnew hcard
    omega
  · intro q hq c hc
    change c ∈ (v.shared.store.logWrite b x).lh
    rw [Store.mem_logWrite_lh]
    by_cases hqp : q = p
    · subst hqp
      rw [update_self, Finset.mem_insert] at hc
      exact hc.symm.imp_left (h.own q hop c)
    · simp only [View.go_phase, View.share_phase, update_of_ne hqp] at hq hc
      exact .inl (h.own q hq c hc)
  · exact (forall_update_iff v.phase fun _ x => x ≠ .panicked "too big a transaction").mpr
      ⟨(by rintro ⟨⟩), fun q _ => h.noPanic q⟩

theorem length_advance_le {s : Store} {pt : Point} (hpt : pt.inCommit = true) :
    (advance start s pt).1.lh.length ≤ s.lh.length := by
  cases pt with
  | readHead => cases hpt
  | install r i =>
    cases r with
    | true => cases hpt
    | false =>
      simp only [advance]
      cases s.lh[i]? with
      | none => exact Nat.zero_le _
      | some b => exact le_rfl
  | writeLog i =>
    simp only [advance]
    cases s.lh[i]? <;> exact le_rfl
  | _ => exact le_rfl

theorem step {e : LogEvent} (h : Space v own) (hg : Group v logged) (hs : LogStep start v e v')
    (hbudget : Budgeted own e) (habsorb : AbsorbsInTime v.shared e) : Space v' (noteOwn own e) := by
  have hg' := hg.step hs
  cases hs with
  | stutter => exact h
  | beginAcquire hp _ | beginWait hp _ | beginRelease hp _ | logAcquire hp _ | logRelease hp _
  | endCall hp | endAcquire hp _ | wakeSkip hp _ _ | wakeEnd hp _ | endReturn hp _ | commitCall hp _
  | commitAcquire hp _ | syncEnter hp | syncAcquire hp _ | syncIdle hp _ | syncBusy hp _
  | syncWait hp _ | syncDone hp _ | syncReturn hp _ | fall hp _ | kill hp | endLast hp _ _
  | endOther hp _ _ | commitFinish hp =>
    exact h.move le_rfl (fun _ _ => rfl) rfl (by simp [hp, Phase.inOp]) (by rintro ⟨⟩)
  | @relock p w hp _ =>
    cases w <;> exact h.move le_rfl (fun _ _ => rfl) rfl (by simp [Wait.resume, Phase.inOp]) (by rintro ⟨⟩)
  | @wakeHit p q w hp hne hq =>
    have hwoken : Space (v.go q (.woken w)) own :=
      h.move le_rfl (fun _ _ => rfl) rfl (by simp [Phase.inOp]) (by rintro ⟨⟩)
    exact hwoken.move le_rfl (fun _ _ => rfl) rfl (by simp [Phase.inOp]) (by rintro ⟨⟩)
  | beginPass _ _ hroom => exact h.enter hg' hroom
  | logRecord hp _ _ => exact h.logRecord hp hbudget
  | @logBig p b x hp hbig =>
    have hop : (v.phase p).inOp = true := by rw [hp]; rfl
    by_cases hb : b ∈ v.shared.store.lh
    · exact absurd (habsorb hb) (not_lt.mpr hbig)
    · exact absurd (h.lt_of_fresh hop hbudget hb).2 (not_lt.mpr hbig)
  | @logOutside p b x hp hop =>
    have := hg.outstanding_pos (p := p) (by rw [hp]; rfl)
    omega
  | @endPanic p hp hcom =>
    have := hg.not_committing (p := p) (by rw [hp]; rfl)
    simp [hcom] at this
  | @commitAdvance p pt hp _ =>
    have hlegal := hg.legal p
    rw [hp] at hlegal
    have hcom := hg.committing_of (p := p) (by rw [hp]; rfl)
    refine h.move (length_advance_le hlegal) (fun q hq => ?_) rfl (by simp [Phase.inOp]) (by rintro ⟨⟩)
    exact absurd (hg.not_committing hq) (by simp [hcom])

end Space

/-! ## Runs of the machine -/

def ownStep (start : ℕ) : State × Own → Act Label → Option (State × Own) :=
  withHistory (step start) fun own m a => noteOwn own (event m a)

theorem space_boot (d : ℕ → Block) : Space (view (boot d)) fun _ => ∅ where
  room := by
    have hzero : total budget (ops (view (boot d)) fun _ => ∅) = 0 :=
      total_eq_zero_iff.mpr fun _ => rfl
    rw [hzero]
    exact Nat.zero_le _
  own _ := nofun
  noPanic _ := nofun

/-- **Log space reservation is sound where full logs absorb nothing.** -/
theorem log_space {start : ℕ} {d : ℕ → Block} {m : State} {own : Own}
    (hrun : Reach (ownStep start) (fun s a => Budgeted s.2 (event s.1 a) ∧
      AbsorbsInTime s.1.shared (event s.1 a)) (boot d, fun _ => ∅) (m, own)) :
    (∀ p, m.ctl p ≠ .run (.panic "too big a transaction")) ∧
      m.shared.store.lh.length ≤ LOGBLOCKS := by
  obtain ⟨-, -, hspace⟩ := hrun.invariant (I := fun s => Wf (code start) s.1 ∧
    (∃ logged, Group (view s.1) logged) ∧ Space (view s.1) s.2)
    ⟨wf_boot start d, ⟨∅, group_boot d⟩, space_boot d⟩ (by
      rintro s a s' ⟨hwf, ⟨logged, hg⟩, hspace⟩ ⟨hbudget, habsorb⟩ hs
      obtain ⟨hstep, hhist⟩ := withHistory_eq_some.mp hs
      have hlog := logStep_of_step hwf hstep
      rw [hhist]
      exact ⟨hwf.stepCase (.of_step hstep), ⟨_, hg.step hlog⟩,
        hspace.step hg hlog hbudget habsorb⟩)
  refine ⟨fun p hp => hspace.noPanic p ?_, (Nat.le_add_right _ _).trans hspace.room⟩
  rw [view_phase, hp]
  rfl

def fillLog : List (Act Label) :=
  List.flatten [spawn 0 1, spawn 1 2, spawn 2 3, calls 0 .beginOp 3, calls 1 .beginOp 3,
    calls 2 .beginOp 3, (List.range 30).flatMap fun i =>
      calls (if i < 10 then 0 else if i < 20 then 1 else 2) (.logWrite (40 + i) fun _ => 7) 3]

/-- The log may be filled to the brim. -/
theorem log_space_fill : ∃ m own,
    Reach (ownStep 2) (fun s a => Budgeted s.2 (event s.1 a) ∧
      AbsorbsInTime s.1.shared (event s.1 a)) (boot fun _ _ => 0, fun _ => ∅) (m, own) ∧
    m.shared.store.lh.length = LOGBLOCKS ∧
    (∀ p, m.ctl p ≠ .run (.panic "too big a transaction")) ∧
      m.shared.store.lh.length ≤ LOGBLOCKS := by
  obtain ⟨⟨m, own⟩, hrun, hf⟩ := exists_reach (ownStep 2) (fun s a =>
      decide (Budgeted s.2 (event s.1 a) ∧ AbsorbsInTime s.1.shared (event s.1 a)))
    (boot fun _ _ => 0, fun _ => ∅) fillLog (fun s => s.1.shared.store.lh.length) LOGBLOCKS
    (by decide +kernel)
  have hrun' := hrun.mono fun _ _ h => of_decide_eq_true h
  exact ⟨m, own, hrun', hf, log_space hrun'⟩

/-- **A full log panics on a block that it holds.** After three operations have logged ten blocks
each, the first one logs its first block again. -/
theorem full_log_panics : ∃ m own,
    Reach (ownStep 2) (fun s a => Budgeted s.2 (event s.1 a)) (boot fun _ _ => 0, fun _ => ∅)
      (m, own) ∧
    40 ∈ m.shared.store.lh ∧ m.ctl 0 = .run (.panic "too big a transaction") := by
  obtain ⟨⟨m, own⟩, hrun, hf⟩ := exists_reach (ownStep 2)
    (fun s a => decide (Budgeted s.2 (event s.1 a))) (boot fun _ _ => 0, fun _ => ∅)
    (fillLog ++ calls 0 (.logWrite 40 fun _ => 8) 2)
    (fun s => (decide (40 ∈ s.1.shared.store.lh), labelOf (s.1.ctl 0)))
    (true, some (.panic "too big a transaction")) (by decide +kernel)
  simp only [Prod.mk.injEq, decide_eq_true_eq] at hf
  exact ⟨m, own, hrun.mono fun _ _ h => of_decide_eq_true h, hf.1, eq_run_of_labelOf hf.2⟩

end Xv6.Log

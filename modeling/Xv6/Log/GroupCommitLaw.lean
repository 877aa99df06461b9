import Xv6.Log.Waiting

/-!
# Group commit, in every run

The invariants of `Xv6/Log/GroupCommit.lean` and `Xv6/Log/Waiting.lean`, for the machine that runs
the logging layer: `group_commit`.

## Main results

* `group_commit`: who may be inside an operation, commit, or sleep
-/

namespace Xv6.Log

open Thread Machine Transition Function

structure History where
  /-- The blocks logged since a commit last emptied the header. -/
  logged : Finset ℕ
  commits : ℕ

def History.note (h : History) (m : State) (a : Act Label) : History where
  logged := noteLogged m.shared h.logged (event m a)
  commits := noteCommits h.commits (event m a)

def historyStep (start : ℕ) : State × History → Act Label → Option (State × History) :=
  withHistory (step start) History.note

variable {start : ℕ} {d : ℕ → Block} {m : State} {h : History}

theorem group_boot (d : ℕ → Block) : Group (view (boot d)) ∅ where
  locking := locking_boot d
  outstanding := by
    have hzero : Tally.tally Phase.inOp (view (boot d)).phase = 0 :=
      Tally.tally_eq_zero_iff.mpr fun _ => rfl
    rw [hzero]
    rfl
  committer := ⟨none, fun _ => ⟨nofun, nofun⟩, rfl⟩
  alone := nofun
  settled _ _ := rfl
  erased _ := nofun
  legal _ := rfl
  nodup := List.nodup_nil
  logged _ := by simp [boot, Store.boot]
  pinned _ _ := rfl
  unpinned _ := nofun

theorem waiting_boot (d : ℕ → Block) : Waiting (view (boot d)) 0 where
  ncommit := rfl
  drowsy _ _ := nofun
  target _ _ := nofun
  asleep _ := nofun

theorem le_noteCommits (c : ℕ) (e : LogEvent) : c ≤ noteCommits c e := by
  cases e <;> simp [noteCommits]

theorem invariants_of_reach
    (hrun : Reach (historyStep start) (fun _ _ => True) (boot d, ⟨∅, 0⟩) (m, h)) :
    Wf (code start) m ∧ Group (view m) h.logged ∧
      (h.commits < 2 ^ 31 - 1 → Waiting (view m) h.commits) := by
  refine hrun.invariant (I := fun s => Wf (code start) s.1 ∧ Group (view s.1) s.2.logged ∧
    (s.2.commits < 2 ^ 31 - 1 → Waiting (view s.1) s.2.commits))
    ⟨wf_boot start d, group_boot d, fun _ => waiting_boot d⟩ ?_
  rintro s a s' ⟨hwf, hg, hw⟩ - hs
  obtain ⟨hstep, hhist⟩ := withHistory_eq_some.mp hs
  have hlog := logStep_of_step hwf hstep
  rw [hhist]
  refine ⟨hwf.stepCase (.of_step hstep), hg.step hlog, fun hfew => ?_⟩
  exact (hw ((le_noteCommits _ _).trans_lt hfew)).step hg hlog hfew

theorem LogStep.phase_of_logged {v v' : View} {p : Slot} {b : ℕ} {x : Block}
    (hs : LogStep start v (.logged p b x) v') : v.phase p = .logIn b x := by
  cases hs
  assumption

theorem Group.pinned_of_not_install {v : View} {logged : Finset ℕ} (hg : Group v logged)
    (hnot : ∀ p i, v.phase p ≠ .committing (.install false i)) : Pinned v.shared.store 0 := by
  cases hcom : v.shared.committing with
  | false => exact hg.pinned hcom
  | true =>
    obtain ⟨c, hheld, hc⟩ := hg.committer
    obtain ⟨p, rfl⟩ := Option.isSome_iff_exists.mp (hc.symm.trans hcom)
    have hp := (hheld p).mp rfl
    have hpin := hg.unpinned p hp
    have hlegal := hg.legal p
    cases hph : v.phase p with
    | endOut c =>
      rw [hph] at hp hpin
      cases c with
      | true => exact hpin
      | false => cases hp
    | commitIn =>
      rw [hph] at hpin
      exact hpin
    | committing pt =>
      rw [hph] at hpin hlegal
      cases pt with
      | install r i =>
        cases r with
        | false => exact absurd hph (hnot p i)
        | true => cases hlegal
      | _ => exact hpin
    | _ =>
      rw [hph] at hp
      cases hp

/-- **The invariant of group commit**, in every state that the logging layer reaches. That nobody
sleeps in vain is so whenever `log.lock` is free, all else also while somebody holds it. -/
theorem group_commit
    (hrun : Reach (historyStep start) (fun _ _ => True) (boot d, ⟨∅, 0⟩) (m, h)) :
    (m.shared.committing = true → m.shared.outstanding = 0 ∧
      ∀ a m' p b x, step start m a = some m' → event m a ≠ .logged p b x) ∧
    (m.shared.committing = false → m.shared.outstanding = 0 → m.shared.store.lh = []) ∧
    (m.shared.store.lh.Nodup ∧ ∀ b, b ∈ m.shared.store.lh ↔ b ∈ h.logged) ∧
    ((∀ p i, m.ctl p ≠ .run (.commit (.install false i))) →
      ∀ b, m.shared.store.pins b = if b ∈ m.shared.store.lh then 1 else 0) ∧
    (∀ p i, m.ctl p = .run (.commit (.install false i)) →
      ∀ b, m.shared.store.pins b = if b ∈ m.shared.store.lh.drop i then 1 else 0) ∧
    (∀ p, m.ctl p ≠ .run (.panic "log.committing")) ∧
    (m.lock .log = none → h.commits < 2 ^ 31 - 1 → (∃ p, m.SleepingOn .log p) →
      m.shared.committing = true ∨ m.shared.outstanding > 0) := by
  obtain ⟨hwf, hg, hw⟩ := invariants_of_reach hrun
  refine ⟨fun hcom => ⟨hg.alone hcom, fun a m' p b x hs he => ?_⟩, hg.settled, ⟨hg.nodup, hg.logged⟩,
    fun hnot => ?_, fun p i hp => ?_, fun p hp => ?_, fun hfree hfew ⟨p, hp⟩ => ?_⟩
  · have hlog := logStep_of_step hwf hs
    rw [he] at hlog
    have hidle := hg.not_committing (p := p) (by rw [hlog.phase_of_logged]; rfl)
    exact absurd (hcom.symm.trans hidle) (by decide)
  · refine hg.pinned_of_not_install fun p i hp => hnot p i ?_
    rw [view_phase] at hp
    cases hctl : m.ctl p with
    | run l =>
      rw [hctl] at hp
      cases l <;> cases hp
      rfl
    | sched chan lk next =>
      rw [hctl, phaseOf] at hp
      split at hp <;> cases hp
    | _ =>
      rw [hctl] at hp
      cases hp
  · have hph : (view m).phase p = .committing (.install false i) := by
      rw [view_phase, hp]
      rfl
    have hpin := hg.unpinned p (by rw [hph]; rfl)
    rw [hph] at hpin
    exact hpin
  · have hlegal := hg.legal p
    rw [view_phase, hp] at hlegal
    change (Phase.panicked "log.committing").legal = true at hlegal
    exact absurd hlegal (by decide)
  have hsleeps : ((view m).phase p).sleeps = true := (sleeps_iff hwf).mpr (.inl hp)
  refine Shared.busy_iff.mp (((hw hfew).asleep p hsleeps).resolve_right ?_)
  rintro ⟨q, i, hq, -⟩
  have hout := Mutex.Held.outside hg.locking hfree q
  rw [hq] at hout
  cases hout

/-- Two processes, of which the first is in an operation and has logged block 40. -/
def loggedOne : List (Act Label) :=
  List.flatten [spawn 0 1, spawn 1 2, calls 0 .beginOp 3, calls 0 (.logWrite 40 fun _ => 7) 3]

/-- The first process is in an operation, the second one sleeps in `sys_sync`. -/
theorem group_commit_sync : ∃ m h,
    Reach (historyStep 2) (fun _ _ => True) (boot fun _ _ => 0, ⟨∅, 0⟩) (m, h) ∧
    m.lock .log = none ∧ m.SleepingOn .log 1 ∧ m.shared.store.lh = [40] ∧ h.logged = {40} ∧
    (m.shared.committing = true ∨ m.shared.outstanding > 0) := by
  obtain ⟨⟨m, h⟩, hrun, hf⟩ := exists_reach (historyStep 2) (fun _ _ => true)
    (boot fun _ _ => 0, ⟨∅, 0⟩) (List.flatten [loggedOne, calls 1 .sysSync 7])
    (fun s => (s.1.lock .log, decide (s.1.SleepingOn .log 1), s.1.shared.store.lh, s.2.logged,
      s.2.commits)) (none, true, [40], {40}, 0) (by decide +kernel)
  simp only [Prod.mk.injEq, decide_eq_true_eq] at hf
  obtain ⟨hfree, hsleep, hlh, hlogged, hcommits⟩ := hf
  have hrun' := hrun.mono fun _ _ _ => trivial
  obtain ⟨-, -, -, -, -, -, hwait⟩ := group_commit hrun'
  exact ⟨m, h, hrun', hfree, hsleep, hlh, hlogged, hwait hfree (by rw [hcommits]; decide) ⟨1, hsleep⟩⟩

/-! ## Runs of a single process -/

def twoProcs : Slot → Proc Chan :=
  update (update (fun _ => .free) 0 { Proc.forked 1 [] with state := .running }) 1
    { Proc.forked 2 [] with state := .running }

def solo (s : Shared) (h : Option Slot) (c : Ctl Lk Chan Label) : State where
  shared := s
  lock := fun _ => h
  proc := twoProcs
  ctl := update (fun _ => .run .user) 0 c

section Solo

variable {s : Shared} {hold : Option Slot} {c c' : Ctl Lk Chan Label} {l next : Label}

@[simp] theorem solo_ctl : (solo s hold c).ctl 0 = c := by simp [solo]

@[simp] theorem solo_state : ((solo s hold c).proc 0).state = .running := rfl

@[simp] theorem solo_lock (lk : Lk) : (solo s hold c).lock lk = hold := rfl

@[simp] theorem solo_goto : (solo s hold c).goto 0 c' = solo s hold c' := by
  simp [solo, Machine.goto]

@[simp] theorem solo_setLock (lk : Lk) (hold' : Option Slot) :
    (solo s hold c).setLock lk hold' = solo s hold' c := by
  cases lk
  simp only [solo, Machine.setLock, Machine.mk.injEq, true_and, and_true]
  funext lk
  cases lk
  simp

theorem solo_run : step start (solo s hold (.run l)) (.step 0) =
    (solo s hold (.run l)).stepInstr 0 (instr start l) := by
  simp [step, Machine.step, stepProc, code]

theorem solo_exec (s' : Shared) {f : Proc Chan → Shared → Shared × Label}
    (hi : instr start l = .exec f) (hf : f (twoProcs 0) s = (s', next)) :
    step start (solo s hold (.run l)) (.step 0) = some (solo s' hold (.run next)) := by
  rw [solo_run, hi]
  change some (Machine.goto (solo (f (twoProcs 0) s).1 hold (.run l)) 0
    (.run (f (twoProcs 0) s).2)) = _
  rw [solo_goto, hf]

theorem solo_acquire {lk : Lk} (hi : instr start l = .acquire lk next) :
    step start (solo s none (.run l)) (.step 0) = some (solo s (some 0) (.run next)) := by
  simp [solo_run, hi, stepInstr]

theorem solo_release {lk : Lk} (hi : instr start l = .release lk next) :
    step start (solo s (some 0) (.run l)) (.step 0) = some (solo s none (.run next)) := by
  simp [solo_run, hi, stepInstr]

theorem solo_call (next : Label) (hi : instr start l = .choose) (he : entry l next = true) :
    step start (solo s hold (.run l)) (.call 0 next) = some (solo s hold (.run next)) := by
  have hkilled : ((solo s hold (.run l)).proc 0).killed = false := rfl
  simp [step, Machine.step, code, hi, he, hkilled]

theorem solo_wakeup (i : ℕ) (hi : i ≤ NPROC) :
    Reach (step start) (fun _ _ => True) (solo s hold (.wakeupAt .log false i next))
      (solo s hold (.run next)) := by
  induction hn : NPROC - i generalizing i with
  | zero =>
    refine .tail (a := .step 0) .refl trivial ?_
    simp [step, Machine.step, stepProc, stepWakeup, not_lt.mpr (show NPROC ≤ i by omega)]
  | succ n ih =>
    have hlt : i < NPROC := by omega
    have hone : step start (solo s hold (.wakeupAt .log false i next)) (.step 0) =
        some (solo s hold (.wakeupAt .log false (i + 1) next)) := by
      have hawake : ∀ q, (twoProcs q).locked = false ∧ (twoProcs q).state ≠ .sleeping := by decide
      have hq := hawake ⟨i, hlt⟩
      have hnot : ¬ (solo s hold (.wakeupAt .log false i next)).SleepingOn .log ⟨i, hlt⟩ :=
        fun hs => hq.2 hs.1
      have hlocked : ((solo s hold (.wakeupAt .log false i next)).proc ⟨i, hlt⟩).locked = false := hq.1
      simp [step, Machine.step, stepProc, stepWakeup, hlt, hnot, hlocked]
    exact (Reach.tail (a := .step 0) .refl trivial hone).trans (ih (i + 1) (by omega) (by omega))

end Solo

def still (d : ℕ → Block) (n : ℤ) : Shared :=
  { store := .boot d, outstanding := 0, committing := false, ncommit := n }

theorem solo_round (start : ℕ) (d : ℕ → Block) (n : ℤ) :
    Reach (step start) (fun _ _ => True) (solo (still d n) none (.run .user))
      (solo (still d (int32 (n + 1))) none (.run .user)) := by
  let inOp : Shared := { still d n with outstanding := 1 }
  let committing : Shared := { still d n with committing := true }
  have hbegin : Reach (step start) (fun _ _ => True) (solo (still d n) none (.run .user))
      (solo inOp none (.run .inOp)) :=
    (((Reach.refl.tail trivial (solo_call .beginOp rfl rfl)).tail trivial
      (solo_acquire rfl)).tail trivial (solo_exec inOp rfl rfl)).tail trivial
      (solo_release rfl)
  have hend : Reach (step start) (fun _ _ => True) (solo inOp none (.run .inOp))
      (solo committing none (.run (.commit .idle))) :=
    ((((Reach.refl.tail trivial (solo_call .endOp rfl rfl)).tail trivial
      (solo_acquire rfl)).tail trivial (solo_exec committing rfl rfl)).tail trivial
      (solo_release rfl)).tail trivial (solo_exec committing rfl rfl)
  have hwake : Reach (step start) (fun _ _ => True) (solo committing none (.run (.commit .idle)))
      (solo (still d (int32 (n + 1))) (some 0) (.wakeupAt .log false 0 (.endOpRelease false))) := by
    refine ((Reach.refl.tail (a := .step 0) trivial (solo_acquire rfl)).tail (a := .step 0) trivial
      (solo_exec (still d (int32 (n + 1))) rfl rfl)).tail (a := .step 0) trivial ?_
    rw [solo_run]
    change some ((solo _ _ _).goto 0 _) = _
    rw [solo_goto]
  exact (((hbegin.trans hend).trans hwake).trans (solo_wakeup 0 (Nat.zero_le _))).tail
    (a := .step 0) trivial (solo_release rfl)

theorem reach_solo (start : ℕ) (d : ℕ → Block) (k : ℕ) :
    Reach (step start) (fun _ _ => True) (boot d) (solo (still d (int32 k)) none (.run .user)) := by
  induction k with
  | zero =>
    have hne : (1 : Slot) ≠ 0 := by decide
    have hrun : runActs (step start) (boot d) [.fork 0 1 [], .dispatch 0, .fork 1 2 [], .dispatch 1] =
        some (solo (still d 0) none (.run .user)) := by
      simp [runActs, step, Machine.step, stepDispatch, boot, solo, still, twoProcs, setState, setProc,
        Proc.forked, Proc.free, hne]
    exact reach_of_runActs hrun
  | succ k ih =>
    have hround := solo_round start d (int32 k)
    rw [int32_add_int32] at hround
    exact_mod_cast ih.trans hround

/-- A `sys_sync` of the second process waits for the last value of `log.ncommit`, two commits go by
before it runs again, and it goes back to sleep. -/
def wrapRun : List (Act Label) :=
  List.flatten [calls 0 .beginOp 3, calls 1 .sysSync 7, calls 0 .endOp 73, calls 0 .beginOp 3,
    calls 0 .endOp 73, [.dispatch 1], steps 1 6]

/-- **While `install_trans` runs, and once `log.ncommit` has wrapped around, `log.lock` may be free
with part of the invariant broken**: a block of the header is not pinned, and a process sleeps on
`&log` while no commit runs and no operation is outstanding. -/
theorem install_unpins_and_count_wraps :
    (∃ m, Reach (step 2) (fun _ _ => True) (boot fun _ _ => 0) m ∧ m.lock .log = none ∧
      m.shared.store.lh = [40] ∧ m.shared.store.pins 40 = 0) ∧
    ∃ m, Reach (step 2) (fun _ _ => True) (boot fun _ _ => 0) m ∧ m.lock .log = none ∧
      m.SleepingOn .log 1 ∧ m.shared.committing = false ∧ m.shared.outstanding = 0 := by
  constructor
  · obtain ⟨m, hrun, hf⟩ := exists_reach (step 2) (fun _ _ => true) (boot fun _ _ => 0)
      (List.flatten [loggedOne, calls 0 .endOp 8])
      (fun m => (m.lock .log, m.shared.store.lh, m.shared.store.pins 40)) (none, [40], 0)
      (by decide +kernel)
    simp only [Prod.mk.injEq] at hf
    exact ⟨m, hrun.mono fun _ _ _ => trivial, hf⟩
  obtain ⟨m, hrun, hf⟩ := exists_reach (step 2) (fun _ _ => true)
    (solo (still (fun _ _ => 0) (2 ^ 31 - 2)) none (.run .user)) wrapRun
    (fun m => (m.lock .log, decide (m.SleepingOn .log 1), m.shared.committing,
      m.shared.outstanding)) (none, true, false, 0) (by decide +kernel)
  simp only [Prod.mk.injEq, decide_eq_true_eq] at hf
  have hcount := reach_solo 2 (fun _ _ => 0) (2 ^ 31 - 2)
  rw [int32_of_range (by decide) (by decide)] at hcount
  exact ⟨m, hcount.trans (hrun.mono fun _ _ _ => trivial), hf⟩

end Xv6.Log

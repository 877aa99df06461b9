import Xv6.Log.Protocol

/-!
# The machine simulates the protocol of group commit

`view m` is what the state `m` of the machine looks like to the protocol of `Xv6/Log/Protocol.lean`,
and `event m a` is what the move `a` means to it.
-/

namespace Xv6.Log

open Thread Machine LogStep Instr View

def waitOf : Label → Wait
  | .sysSyncLoop n => .commit n
  | _ => .space

def labelPhase : Label → Phase
  | .user | .beginOp | .kkill _ => .out
  | .panic msg => .panicked msg
  | .beginOpTest => .beginIn
  | .beginOpSleep => .drowsy .space
  | .beginOpRelease => .beginOut
  | .inOp | .logWrite _ _ => .op
  | .logWriteTest b x => .logIn b x
  | .logWriteRelease => .logOut
  | .endOp => .ending
  | .endOpTest => .endIn
  | .endOpWake => .wake 0
  | .endOpRelease c => .endOut c
  | .commit pt => .committing pt
  | .endOpDone => .commitIn
  | .sysSync => .syncCall
  | .sysSyncTest => .syncIn
  | .sysSyncLoop n => .syncLoop n
  | .sysSyncSleep n => .drowsy (.commit n)
  | .sysSyncRelease => .syncOut

def phaseOf (st : ProcState) : Ctl Lk Chan Label → Phase
  | .run l => labelPhase l
  | .sleepEnter _ _ next | .sleepLocked _ _ next => .drowsy (waitOf next)
  | .sleepReleased _ _ next => .asleep (waitOf next)
  | .sched _ _ next => if st = .sleeping then .asleep (waitOf next) else .woken (waitOf next)
  | .sleepReturn _ next => .woken (waitOf next)
  | .wakeupAt _ _ i _ => .wake i
  | .kkillAt _ _ _ _ => .out

def view (m : State) : View where
  shared := m.shared
  lock := m.lock .log
  phase p := phaseOf (m.proc p).state (m.ctl p)

def labelEvent (s : Shared) (p : Slot) : Label → LogEvent
  | .beginOpTest => if s.committing || s.full then .silent else .begun p
  | .logWriteTest b x =>
    if s.store.lh.length ≥ LOGBLOCKS || s.outstanding < 1 then .refused p b else .logged p b x
  | .endOpTest => .ended p
  | .commit pt => if pt = .idle then .silent else .advanced pt
  | .endOpDone => .finished
  | .sysSyncRelease => .syncReturned p
  | _ => .silent

def event (m : State) : Act Label → LogEvent
  | .step p =>
    match m.ctl p with
    | .run l => labelEvent m.shared p l
    | _ => .silent
  | .call p .sysSync => .syncCalled p
  | _ => .silent

/-! ## The view of an updated state -/

section Update

variable (m : State) (p : Slot)

theorem view_phase : (view m).phase p = phaseOf (m.proc p).state (m.ctl p) := rfl

@[simp] theorem view_shared : (view m).shared = m.shared := rfl
@[simp] theorem view_lock : (view m).lock = m.lock .log := rfl

@[simp] theorem phaseOf_run (st : ProcState) (l : Label) : phaseOf st (.run l) = labelPhase l := rfl

@[simp] theorem view_setProc_goto (r : Proc Chan) (c : Ctl Lk Chan Label) :
    view ((m.setProc p r).goto p c) = (view m).go p (phaseOf r.state c) := by
  simp only [view, View.go, goto_shared, goto_lock, goto_proc, goto_ctl, setProc_shared,
    setProc_lock, setProc_proc, setProc_ctl, View.mk.injEq, true_and]
  funext q
  by_cases hq : q = p
  · subst hq
    simp
  · simp [hq]

@[simp] theorem view_goto (c : Ctl Lk Chan Label) :
    view (m.goto p c) = (view m).go p (phaseOf (m.proc p).state c) := by
  have hself : (m.setProc p (m.proc p)).goto p c = m.goto p c := by
    simp [Machine.setProc, Machine.goto]
  rw [← hself, view_setProc_goto]

@[simp] theorem view_setProc (r : Proc Chan) :
    view (m.setProc p r) = (view m).go p (phaseOf r.state (m.ctl p)) := by
  have hself : (m.setProc p r).goto p (m.ctl p) = m.setProc p r := by
    simp [Machine.setProc, Machine.goto]
  rw [← hself, view_setProc_goto]

@[simp] theorem view_setState (st : ProcState) :
    view (m.setState p st) = (view m).go p (phaseOf st (m.ctl p)) := view_setProc m p _

@[simp] theorem view_setLock (lk : Lk) (h : Option Slot) :
    view (m.setLock lk h) = (view m).hold h := by
  cases lk
  simp [view, hold]

theorem view_exec (s : Shared) (l : Label) :
    view ({ m with shared := s }.goto p (.run l)) = ((view m).share s).go p (labelPhase l) :=
  view_goto { m with shared := s } p (.run l)

@[simp] theorem view_share_self : (view m).share m.shared = view m := rfl

end Update

/-! ## Where a process can stand -/

attribute [local simp] view_phase labelEvent phaseOf event

section Stands

variable {start : ℕ} {m : State} {l : Label}

variable {next : Label} {chan : Chan}

theorem instr_eq_sleep {lk : Lk} (h : instr start l = .sleep chan lk next) :
    l = .beginOpSleep ∧ next = .beginOpTest ∨ ∃ n, l = .sysSyncSleep n ∧ next = .sysSyncLoop n := by
  cases l with
  | beginOpSleep =>
    obtain ⟨-, -, rfl⟩ := sleep.inj h
    exact .inl ⟨rfl, rfl⟩
  | sysSyncSleep n =>
    obtain ⟨-, -, rfl⟩ := sleep.inj h
    exact .inr ⟨n, rfl, rfl⟩
  | endOpRelease c => cases c <;> cases h
  | commit pt => cases pt <;> cases h
  | _ => cases h

theorem instr_eq_wakeup (h : instr start l = .wakeup chan next) :
    l = .endOpWake ∧ next = .endOpRelease false := by
  cases l with
  | endOpWake =>
    obtain ⟨-, rfl⟩ := wakeup.inj h
    exact ⟨rfl, rfl⟩
  | endOpRelease c => cases c <;> cases h
  | commit pt => cases pt <;> cases h
  | _ => cases h

theorem instr_ne_wakeupOne : instr start l ≠ .wakeupOne chan next := by
  intro h
  cases l with
  | endOpRelease c => cases c <;> cases h
  | commit pt => cases pt <;> cases h
  | _ => cases h

theorem instr_eq_kkill {pid : ℤ} {found notFound : Label}
    (h : instr start l = .kkill pid found notFound) :
    l = .kkill pid ∧ found = .user ∧ notFound = .user := by
  cases l with
  | kkill pid' =>
    obtain ⟨rfl, rfl, rfl⟩ := kkill.inj h
    exact ⟨rfl, rfl, rfl⟩
  | endOpRelease c => cases c <;> cases h
  | commit pt => cases pt <;> cases h
  | _ => cases h

theorem labelPhase_of_sleep {lk : Lk} (h : instr start l = .sleep chan lk next) :
    labelPhase l = .drowsy (waitOf next) ∧ labelPhase next = (waitOf next).resume := by
  rcases instr_eq_sleep h with ⟨rfl, rfl⟩ | ⟨n, rfl, rfl⟩ <;> exact ⟨rfl, rfl⟩

theorem sleeps_labelPhase (l : Label) : (labelPhase l).sleeps = false := by
  cases l <;> rfl

theorem sleeps_iff (hwf : Wf (code start) m) {q : Slot} : ((view m).phase q).sleeps = true ↔
      m.SleepingOn .log q ∨ ∃ chan lk next, m.ctl q = .sleepReleased chan lk next := by
  have hproc := hwf.procOk q
  have hnot : (m.proc q).state ≠ .sleeping → ¬ m.SleepingOn .log q := fun h hs => h hs.1
  rw [view_phase]
  cases hctl : m.ctl q with
  | run l =>
    rw [hctl] at hproc
    simp [sleeps_labelPhase, hnot hproc.2.1]
  | sched chan lk next =>
    rw [hctl] at hproc
    obtain ⟨-, hchan, hst⟩ := hproc
    rcases hst with hst | hst <;> simp [SleepingOn, hst, hchan, Phase.sleeps]
  | sleepReleased chan lk next => exact ⟨fun _ => .inr ⟨chan, lk, next, rfl⟩, fun _ => rfl⟩
  | sleepEnter | sleepLocked =>
    rw [hctl] at hproc
    have hns := hnot (by simp [hproc.2])
    simp [Phase.sleeps, hns]
  | sleepReturn | wakeupAt | kkillAt =>
    rw [hctl] at hproc
    have hns := hnot (by rcases hproc.2 with h | h <;> simp [h])
    simp [Phase.sleeps, hns]

theorem phaseOf_congr {c : Ctl Lk Chan Label} (hc : ∀ chan lk next, c ≠ .sched chan lk next)
    (st st' : ProcState) : phaseOf st c = phaseOf st' c := by
  cases c with
  | sched chan lk next => exact absurd rfl (hc chan lk next)
  | _ => rfl

end Stands

/-! ## The simulation -/

section Simulation

variable {start : ℕ} {m : State} {p : Slot} {l : Label}

theorem logStep_exec {f : Proc Chan → Shared → Shared × Label} (hctl : m.ctl p = .run l)
    (hinstr : instr start l = .exec f) :
    LogStep start (view m) (labelEvent m.shared p l)
      (view ({ m with shared := (f (m.proc p) m.shared).1 }.goto p
        (.run (f (m.proc p) m.shared).2))) := by
  have hp : (view m).phase p = labelPhase l := by simp [hctl]
  rw [view_exec]
  cases l with
  | beginOpTest =>
    obtain rfl := exec.inj hinstr
    by_cases hcom : m.shared.committing = true
    · simpa [hcom, labelPhase] using beginWait hp (.inl hcom)
    by_cases hfull : m.shared.full = true
    · simpa [hcom, hfull, labelPhase] using beginWait hp (.inr hfull)
    · simpa [hcom, hfull, labelPhase] using
        beginPass hp (by simpa using hcom) (by simpa using hfull)
  | logWriteTest b x =>
    obtain rfl := exec.inj hinstr
    by_cases hbig : m.shared.store.lh.length ≥ LOGBLOCKS
    · simpa [hbig, labelPhase] using logBig hp hbig
    by_cases hop : m.shared.outstanding < 1
    · simpa [hbig, hop, labelPhase] using logOutside hp hop
    · simpa [hbig, hop, labelPhase] using
        logRecord hp (not_le.mp hbig) (not_lt.mp hop)
  | endOpTest =>
    obtain rfl := exec.inj hinstr
    by_cases hcom : m.shared.committing = true
    · simpa [hcom, labelPhase] using endPanic hp hcom
    have hcom' : m.shared.committing = false := by simpa using hcom
    by_cases hlast : m.shared.outstanding - 1 = 0
    · simpa [hcom, hlast, labelPhase] using endLast hp hcom' hlast
    · simpa [hcom, hlast, labelPhase] using endOther hp hcom' hlast
  | commit pt =>
    by_cases hpt : pt = .idle
    · subst hpt
      cases hinstr
    have hf : f = fun _ s => ({ s with store := (advance start s.store pt).1 },
        .commit (advance start s.store pt).2) := by
      cases pt with
      | idle => exact absurd rfl hpt
      | _ => exact (exec.inj hinstr).symm
    subst hf
    simpa [hpt, labelPhase] using commitAdvance hp hpt
  | endOpDone =>
    obtain rfl := exec.inj hinstr
    exact commitFinish hp
  | sysSyncTest =>
    obtain rfl := exec.inj hinstr
    by_cases hbusy : m.shared.busy = true
    · simpa [hbusy, labelPhase] using syncBusy hp hbusy
    · simpa [hbusy, labelPhase] using syncIdle hp (by simpa using hbusy)
  | sysSyncLoop n =>
    obtain rfl := exec.inj hinstr
    by_cases hn : m.shared.ncommit < n
    · simpa [hn, labelPhase] using syncWait hp hn
    · simpa [hn, labelPhase] using syncDone hp (not_lt.mp hn)
  | endOpRelease c => cases c <;> cases hinstr
  | _ => cases hinstr

theorem logStep_acquire {lk : Lk} {next : Label} (hctl : m.ctl p = .run l)
    (hinstr : instr start l = .acquire lk next) (hfree : m.lock lk = none) :
    LogStep start (view m) (labelEvent m.shared p l)
      (view ((m.setLock lk (some p)).goto p (.run next))) := by
  have hp : (view m).phase p = labelPhase l := by simp [hctl]
  rw [view_goto, phaseOf_run, view_setLock]
  cases l with
  | beginOp =>
    obtain ⟨-, rfl⟩ := acquire.inj hinstr
    exact .beginAcquire hp hfree
  | logWrite b x =>
    obtain ⟨-, rfl⟩ := acquire.inj hinstr
    exact .logAcquire hp hfree
  | endOp =>
    obtain ⟨-, rfl⟩ := acquire.inj hinstr
    exact .endAcquire hp hfree
  | commit pt =>
    cases pt with
    | idle =>
      obtain ⟨-, rfl⟩ := acquire.inj hinstr
      exact .commitAcquire hp hfree
    | _ => cases hinstr
  | sysSync =>
    obtain ⟨-, rfl⟩ := acquire.inj hinstr
    exact .syncAcquire hp hfree
  | endOpRelease c => cases c <;> cases hinstr
  | _ => cases hinstr

theorem logStep_release {lk : Lk} {next : Label} (hctl : m.ctl p = .run l)
    (hinstr : instr start l = .release lk next) (hheld : m.lock lk = some p) :
    LogStep start (view m) (labelEvent m.shared p l)
      (view ((m.setLock lk none).goto p (.run next))) := by
  have hp : (view m).phase p = labelPhase l := by simp [hctl]
  rw [view_goto, phaseOf_run, view_setLock]
  cases l with
  | beginOpRelease =>
    obtain ⟨-, rfl⟩ := release.inj hinstr
    exact .beginRelease hp hheld
  | logWriteRelease =>
    obtain ⟨-, rfl⟩ := release.inj hinstr
    exact .logRelease hp hheld
  | endOpRelease c =>
    cases c with
    | true =>
      obtain ⟨-, rfl⟩ := release.inj hinstr
      exact .commitCall hp hheld
    | false =>
      obtain ⟨-, rfl⟩ := release.inj hinstr
      exact .endReturn hp hheld
  | sysSyncRelease =>
    obtain ⟨-, rfl⟩ := release.inj hinstr
    exact .syncReturn hp hheld
  | commit pt => cases pt <;> cases hinstr
  | _ => cases hinstr

theorem logStep_unseen {r : Proc Chan} {c : Ctl Lk Chan Label} {e : LogEvent} (he : e = .silent)
    (hph : (view m).phase p = phaseOf r.state c) :
    LogStep start (view m) e (view ((m.setProc p r).goto p c)) := by
  rw [he, view_setProc_goto, go_self hph]
  exact .stutter

theorem logStep_goto {c : Ctl Lk Chan Label} {e : LogEvent} (he : e = .silent)
    (hph : (view m).phase p = phaseOf (m.proc p).state c) :
    LogStep start (view m) e (view (m.goto p c)) := by
  rw [he, view_goto, go_self hph]
  exact .stutter

theorem logStep_setProc {r : Proc Chan} (hctl : ∀ chan lk next, m.ctl p ≠ .sched chan lk next) :
    LogStep start (view m) .silent (view (m.setProc p r)) := by
  rw [view_setProc, go_self (phaseOf_congr hctl _ _)]
  exact .stutter

theorem logStep_call {cur : Label} (hctl : m.ctl p = .run cur) (hentry : entry cur l = true) :
    LogStep start (view m) (event m (.call p l)) (view (m.goto p (.run l))) := by
  have hp : (view m).phase p = labelPhase cur := by simp [hctl]
  cases cur with
  | user =>
    cases l with
    | sysSync =>
      rw [view_goto]
      exact .syncEnter hp
    | beginOp | kkill pid => exact logStep_goto rfl hp
    | _ => cases hentry
  | inOp =>
    cases l with
    | endOp =>
      rw [view_goto]
      exact .endCall hp
    | logWrite b x => exact logStep_goto rfl hp
    | _ => cases hentry
  | _ => cases l <;> cases hentry

theorem view_wake (hwf : Wf (code start) m) {q : Slot} {r : Proc Chan} (hr : r.state = .runnable)
    (hsleep : (m.proc q).state = .sleeping) :
    ∃ w, (view m).phase q = .asleep w ∧ view (m.setProc q r) = (view m).go q (.woken w) := by
  obtain ⟨chan, lk, next, hctl⟩ := (hwf.procOk q).sched_of_sleeping hsleep
  refine ⟨waitOf next, ?_, ?_⟩
  · simp [hctl, hsleep]
  · simp [hctl, hr]

theorem sleeps_of_skip (hwf : Wf (code start) m) {q : Slot} {i : ℕ}
    (hp : (view m).phase p = .wake i)
    (hskip : q = p ∨ (m.proc q).locked = false ∧ ¬ m.SleepingOn .log q) :
    ((view m).phase q).sleeps = false := by
  rcases hskip with rfl | ⟨hfree, hsleep⟩
  · rw [hp]
    rfl
  rw [← Bool.not_eq_true, sleeps_iff hwf]
  rintro (h | ⟨chan, lk, next, h⟩)
  · exact hsleep h
  · have hproc := hwf.procOk q
    rw [h] at hproc
    simp [hproc.1] at hfree

theorem logStep_kkillHit {q : Slot} (hwf : Wf (code start) m) (hrun : (m.proc p).state = .running)
    (hp : (view m).phase p = .out) :
    LogStep start (view m) .silent (view ((m.setProc q { m.proc q with
      killed := true
      state := if (m.proc q).state = .sleeping then .runnable
        else (m.proc q).state }).goto p (.run .user))) := by
  rw [view_goto, phaseOf_run]
  by_cases hsleep : (m.proc q).state = .sleeping
  · have hqp : p ≠ q := by
      rintro rfl
      simp [hsleep] at hrun
    obtain ⟨w, hw, hv⟩ := view_wake hwf (r := { m.proc q with
        killed := true
        state := if (m.proc q).state = .sleeping then .runnable
          else (m.proc q).state }) (by simp [hsleep]) hsleep
    have hback : ((view m).go q (.woken w)).go p .out = (view m).go q (.woken w) :=
      go_self (by simpa [hqp] using hp)
    rw [hv, labelPhase, hback]
    exact .kill hw
  have hq : (view m).go q (phaseOf (m.proc q).state (m.ctl q)) = view m := go_self rfl
  rw [view_setProc]
  simp only [hsleep, if_false]
  rw [hq, labelPhase, go_self hp]
  exact .stutter

/-- **Every move of the machine is a transition of the protocol.** -/
theorem logStep_of_step {m' : State} {a : Act Label} (hwf : Wf (code start) m)
    (h : step start m a = some m') : LogStep start (view m) (event m a) (view m') := by
  cases StepCase.of_step h with
  | @exec p l f _ hctl hinstr => simpa [hctl] using logStep_exec hctl hinstr
  | @acquire p l lk next _ hctl hinstr hfree => simpa [hctl] using logStep_acquire hctl hinstr hfree
  | @release p l lk next _ hctl hinstr hheld => simpa [hctl] using logStep_release hctl hinstr hheld
  | @sleep p l chan lk next _ hctl hinstr =>
    have hl := (labelPhase_of_sleep hinstr).1
    refine logStep_goto ?_ (by simp [hctl, hl])
    rcases instr_eq_sleep hinstr with ⟨rfl, -⟩ | ⟨n, rfl, -⟩ <;> simp [hctl]
  | @wakeup p l chan next _ hctl hinstr =>
    obtain ⟨rfl, rfl⟩ := instr_eq_wakeup hinstr
    exact logStep_goto (by simp [hctl]) (by simp [hctl, labelPhase])
  | wakeupOne _ _ hinstr => exact absurd hinstr instr_ne_wakeupOne
  | @kkill p l pid found notFound _ hctl hinstr =>
    obtain ⟨rfl, rfl, rfl⟩ := instr_eq_kkill hinstr
    exact logStep_goto (by simp [hctl]) (by simp [hctl, labelPhase])
  | @call p cur l _ hctl _ hentry _ => exact logStep_call hctl hentry
  | @sleepEnter p chan lk next _ hctl _ => exact logStep_unseen (by simp [hctl]) (by simp [hctl])
  | @sleepLocked p chan lk next _ hctl hheld =>
    have hw : (view m).phase p = .drowsy (waitOf next) := by simp [hctl]
    simpa [hctl] using fall hw hheld
  | @sleepReleased p chan lk next _ hctl => exact logStep_unseen (by simp [hctl]) (by simp [hctl])
  | @sleepReturn p lk next _ hctl hfree =>
    have hw : (view m).phase p = .woken (waitOf next) := by simp [hctl]
    have hcode := hwf.ctlOk p
    rw [hctl] at hcode
    obtain ⟨l, chan, hl⟩ := hcode
    simpa [hctl, (labelPhase_of_sleep hl).2] using relock hw hfree
  | @wakeupSkip p chan one next i hrun hctl hi hskip =>
    have hp : (view m).phase p = .wake i := by simp [hctl]
    have hnot := sleeps_of_skip hwf hp hskip
    simpa [hctl] using wakeSkip hp hi hnot
  | @wakeupHit p q chan one next _ hctl hne _ hsleep =>
    have hp : (view m).phase p = .wake q.val := by simp [hctl]
    have hcode := hwf.ctlOk p
    rw [hctl] at hcode
    obtain ⟨l, hl⟩ := hcode
    cases one with
    | true => exact absurd hl instr_ne_wakeupOne
    | false =>
      obtain ⟨w, hw, hv⟩ := view_wake hwf (r := { m.proc q with state := .runnable }) rfl hsleep.1
      rw [view_goto, setState, hv]
      simpa [hctl] using wakeHit hp hne hw
  | @wakeupEnd p chan one next i _ hctl hi =>
    have hp : (view m).phase p = .wake i := by simp [hctl]
    have hcode := hwf.ctlOk p
    rw [hctl] at hcode
    obtain ⟨l, hl⟩ := hcode
    cases one with
    | true => exact absurd hl instr_ne_wakeupOne
    | false =>
      obtain ⟨-, rfl⟩ := instr_eq_wakeup hl
      simpa [hctl, labelPhase] using wakeEnd hp hi
  | @kkillSkip p pid found notFound i _ hctl _ _ _ =>
    exact logStep_goto (by simp [hctl]) (by simp [hctl])
  | @kkillHit p q found notFound hrun hctl _ =>
    have hp : (view m).phase p = .out := by simp [hctl]
    have hcode := hwf.ctlOk p
    rw [hctl] at hcode
    obtain ⟨l, hl⟩ := hcode
    obtain ⟨-, rfl, -⟩ := instr_eq_kkill hl
    have he : event m (.step p) = .silent := by simp [hctl]
    exact he ▸ logStep_kkillHit hwf hrun hp
  | @kkillEnd p pid found notFound i _ hctl _ =>
    have hcode := hwf.ctlOk p
    rw [hctl] at hcode
    obtain ⟨l, hl⟩ := hcode
    obtain ⟨-, -, rfl⟩ := instr_eq_kkill hl
    exact logStep_goto (by simp [hctl]) (by simp [hctl, labelPhase])
  | @dispatchSleep p chan lk next hst _ hctl => exact logStep_unseen rfl (by simp [hctl, hst])
  | @dispatch p _ _ hctl => exact logStep_setProc hctl
  | @preempt p _ hintr =>
    refine logStep_setProc fun chan lk next hctl => ?_
    simp [hctl, Machine.intrOn] at hintr
  | @exit p _ hctl =>
    refine logStep_setProc fun chan lk next hc => ?_
    simp [hctl] at hc
  | @reap p hst | @fork p pid name hst =>
    refine logStep_setProc fun chan lk next hctl => ?_
    have hproc := hwf.procOk p
    simp [hctl, ProcOk, hst] at hproc
  | tick => exact .stutter

end Simulation

/-! ## Reachable states -/

theorem wf_boot (start : ℕ) (d : ℕ → Block) : Wf (code start) (boot d) :=
  ⟨fun p => by simp [boot, ProcOk, Proc.free, code], fun _ => trivial⟩

theorem locking_boot (d : ℕ → Block) : Locking (view (boot d)) := fun _ => ⟨nofun, nofun⟩

end Xv6.Log

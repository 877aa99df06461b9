import Xv6.Proc.Lifecycle

/-!
# The steps of the process table

The effect of each primitive of the machine on the fields of its state, and the transitions of the
machine with one constructor for each branch of the code (`StepCase`).
-/

namespace Xv6.Life

open Thread Transition Function Option State

section Effects

variable (m : State) (p q : Slot) (r : Proc) (c : Ctl) (ch : Option Chan)

@[simp, grind =]
theorem State.goto_proc : (m.goto p c).proc = m.proc := rfl

@[simp, grind =]
theorem State.goto_waitLock : (m.goto p c).waitLock = m.waitLock := rfl

@[simp, grind =]
theorem State.goto_blamed : (m.goto p c).blamed = m.blamed := rfl

@[grind =]
theorem State.goto_ctl : (m.goto p c).ctl q = if q = p then c else m.ctl q := update_apply ..

@[grind =]
theorem State.setProc_proc : (m.setProc p r).proc q = if q = p then r else m.proc q :=
  update_apply ..

@[simp, grind =]
theorem State.setProc_waitLock : (m.setProc p r).waitLock = m.waitLock := rfl

@[simp, grind =]
theorem State.setProc_ctl : (m.setProc p r).ctl = m.ctl := rfl

@[simp, grind =]
theorem State.setProc_blamed : (m.setProc p r).blamed = m.blamed := rfl

@[grind =]
theorem State.wake_proc : (m.wake ch p).proc q =
    if q = p ∧ (m.proc p).state = .sleeping ∧ (m.proc p).chan = ch then
      { m.proc p with state := .runnable } else m.proc q := by
  unfold wake
  split_ifs <;> grind

@[simp, grind =]
theorem State.wake_ctl : (m.wake ch p).ctl = m.ctl := by
  unfold wake
  split_ifs <;> rfl

@[simp, grind =]
theorem State.wake_waitLock : (m.wake ch p).waitLock = m.waitLock := by
  unfold wake
  split_ifs <;> rfl

@[simp, grind =]
theorem State.wake_blamed : (m.wake ch p).blamed = m.blamed := by
  unfold wake
  split_ifs <;> rfl

end Effects

/-- The transitions, one constructor for each branch of the code. -/
inductive StepCase (m : State) : Act → State → Prop
  | ret {p : Slot} {e : Env} {r : ℤ} (hrun : (m.proc p).state = .running) (hc : m.ctl p = .done r) :
    StepCase m (.step p e) (m.goto p .user)
  | forkSkip {p np : Slot} {e : Env}
      (hrun : (m.proc p).state = .running) (hc : m.ctl p = .forkScan np)
      (hs : (m.proc np).state ≠ .unused) :
    StepCase m (.step p e) (m.goto p (.forkScan (np + 1)))
  | forkNone {p : Slot} {e : Env} {i : ℕ}
      (hrun : (m.proc p).state = .running) (hc : m.ctl p = .forkScan i) :
    StepCase m (.step p e) (m.goto p (.done (-1)))
  | forkFound {p np : Slot} {e : Env} (hrun : (m.proc p).state = .running)
      (hc : m.ctl p = .forkScan np) (hs : (m.proc np).state = .unused)
      (hl : (m.proc np).locked = false) :
    StepCase m (.step p e) ((({ m with
      nextpid := m.nextpid + 1
      blamed := update m.blamed np false }.setProc np
        ((m.proc np).copied (m.proc p) m.nextpid e.trapframe e.pagetable)).goto np .user).goto p
          (.forkParent np m.nextpid))
  | forkFail {p np : Slot} {e : Env} (hrun : (m.proc p).state = .running)
      (hc : m.ctl p = .forkScan np) (hs : (m.proc np).state = .unused)
      (hl : (m.proc np).locked = false) :
    StepCase m (.step p e) (({ m with nextpid := m.nextpid + 1 }.setProc np
      (m.proc np).freeproc).goto p (.done (-1)))
  | forkParent {p np : Slot} {e : Env} {pid : ℤ} (hrun : (m.proc p).state = .running)
      (hc : m.ctl p = .forkParent np pid) (hw : m.waitLock = none) :
    StepCase m (.step p e)
      ((m.setProc np { m.proc np with parent := some p }).goto p (.forkRun np pid))
  | forkRun {p np : Slot} {e : Env} {pid : ℤ} (hrun : (m.proc p).state = .running)
      (hc : m.ctl p = .forkRun np pid) (hl : (m.proc np).locked = false) :
    StepCase m (.step p e)
      ((m.setProc np { m.proc np with state := .runnable }).goto p (.done pid))
  | exitFiles {p : Slot} {e : Env} {status : ℤ}
      (hrun : (m.proc p).state = .running) (hc : m.ctl p = .exitFiles status) :
    StepCase m (.step p e)
      ((m.setProc p { m.proc p with ofile := fun _ => 0, cwd := 0 }).goto p (.exitWait status))
  | exitWait {p : Slot} {e : Env} {status : ℤ} (hrun : (m.proc p).state = .running)
      (hc : m.ctl p = .exitWait status) (hw : m.waitLock = none) :
    StepCase m (.step p e) ({ m with waitLock := some p }.goto p (.exitReparent status 0))
  | reparent {p q : Slot} {e : Env} {status : ℤ} (hrun : (m.proc p).state = .running)
      (hc : m.ctl p = .exitReparent status q) (hp : (m.proc q).parent = some p) :
    StepCase m (.step p e) ((m.setProc q { m.proc q with parent := some initproc }).goto p
      (.exitReparentWake status q 0))
  | reparentSkip {p q : Slot} {e : Env} {status : ℤ}
      (hrun : (m.proc p).state = .running)
      (hc : m.ctl p = .exitReparent status q) (hp : (m.proc q).parent ≠ some p) :
    StepCase m (.step p e) (m.goto p (.exitReparent status (q + 1)))
  | reparentEnd {p : Slot} {e : Env} {status : ℤ} {i : ℕ}
      (hrun : (m.proc p).state = .running)
      (hc : m.ctl p = .exitReparent status i) (hi : NPROC ≤ i) :
    StepCase m (.step p e) (m.goto p (.exitWake status (m.proc p).parent 0))
  | reparentWake {p q : Slot} {e : Env} {status : ℤ} {i : ℕ} (hrun : (m.proc p).state = .running)
      (hc : m.ctl p = .exitReparentWake status i q) (hne : q ≠ p)
      (hl : (m.proc q).locked = false) :
    StepCase m (.step p e)
      ((m.wake (some (.proc initproc)) q).goto p (.exitReparentWake status i (q + 1)))
  | reparentWakeSelf {p : Slot} {e : Env} {status : ℤ} {i : ℕ}
      (hrun : (m.proc p).state = .running) (hc : m.ctl p = .exitReparentWake status i p) :
    StepCase m (.step p e) (m.goto p (.exitReparentWake status i (p + 1)))
  | reparentWakeEnd {p : Slot} {e : Env} {status : ℤ} {i j : ℕ}
      (hrun : (m.proc p).state = .running)
      (hc : m.ctl p = .exitReparentWake status i j) (hj : NPROC ≤ j) :
    StepCase m (.step p e) (m.goto p (.exitReparent status (i + 1)))
  | exitWake {p q : Slot} {e : Env} {status : ℤ} {c : Option Slot}
      (hrun : (m.proc p).state = .running) (hc : m.ctl p = .exitWake status c q) (hne : q ≠ p)
      (hl : (m.proc q).locked = false) :
    StepCase m (.step p e) ((m.wake (c.map .proc) q).goto p (.exitWake status c (q + 1)))
  | exitWakeSelf {p : Slot} {e : Env} {status : ℤ} {c : Option Slot}
      (hrun : (m.proc p).state = .running) (hc : m.ctl p = .exitWake status c p) :
    StepCase m (.step p e) (m.goto p (.exitWake status c (p + 1)))
  | exitWakeEnd {p : Slot} {e : Env} {status : ℤ} {c : Option Slot} {j : ℕ}
      (hrun : (m.proc p).state = .running) (hc : m.ctl p = .exitWake status c j) (hj : NPROC ≤ j) :
    StepCase m (.step p e) (m.goto p (.exitZombie status))
  | exitZombie {p : Slot} {e : Env} {status : ℤ} (hrun : (m.proc p).state = .running)
      (hc : m.ctl p = .exitZombie status) :
    StepCase m (.step p e) ((m.setProc p { m.proc p with
      xstate := status, state := .zombie, locked := true }).goto p (.exitUnlock status))
  | exitUnlock {p : Slot} {e : Env} {status : ℤ} (hc : m.ctl p = .exitUnlock status)
      (hw : m.waitLock = some p) :
    StepCase m (.step p e) ({ m with waitLock := none }.goto p (.exitSched status))
  | exitSched {p : Slot} {e : Env} {status : ℤ} (hc : m.ctl p = .exitSched status) :
    StepCase m (.step p e)
      ((m.setProc p { m.proc p with locked := false }).goto p (.dead status))
  | waitEnter {p : Slot} {e : Env} {addr : Bool} (hrun : (m.proc p).state = .running)
      (hc : m.ctl p = .waitEnter addr ∨ m.ctl p = .waitReturn addr) (hw : m.waitLock = none) :
    StepCase m (.step p e) ({ m with waitLock := some p }.goto p (.waitScan addr 0 false))
  | waitSkip {p q : Slot} {e : Env} {addr havekids : Bool}
      (hrun : (m.proc p).state = .running)
      (hc : m.ctl p = .waitScan addr q havekids) (hp : (m.proc q).parent ≠ some p) :
    StepCase m (.step p e) (m.goto p (.waitScan addr (q + 1) havekids))
  | waitAlive {p q : Slot} {e : Env} {addr havekids : Bool}
      (hrun : (m.proc p).state = .running)
      (hc : m.ctl p = .waitScan addr q havekids) (hp : (m.proc q).parent = some p)
      (hz : (m.proc q).state ≠ .zombie) :
    StepCase m (.step p e) (m.goto p (.waitScan addr (q + 1) true))
  | waitFault {p q : Slot} {e : Env} {havekids : Bool}
      (hrun : (m.proc p).state = .running)
      (hc : m.ctl p = .waitScan true q havekids) (hp : (m.proc q).parent = some p)
      (hz : (m.proc q).state = .zombie) (hok : e.ok = false) :
    StepCase m (.step p e) (m.goto p (.waitUnlock (-1) none))
  | waitReap {p q : Slot} {e : Env} {addr havekids : Bool} (hrun : (m.proc p).state = .running)
      (hc : m.ctl p = .waitScan addr q havekids) (hp : (m.proc q).parent = some p)
      (hz : (m.proc q).state = .zombie) (hl : (m.proc q).locked = false)
      (hok : addr = true → e.ok = true) :
    StepCase m (.step p e) ((m.setProc q (m.proc q).freeproc).goto p
      (.waitUnlock (m.proc q).pid (if addr then some (m.proc q).xstate else none)))
  | waitScanEnd {p : Slot} {e : Env} {addr havekids : Bool} {i : ℕ}
      (hrun : (m.proc p).state = .running)
      (hc : m.ctl p = .waitScan addr i havekids) (hi : NPROC ≤ i) :
    StepCase m (.step p e) (m.goto p (.waitEnd addr havekids))
  | waitFail {p : Slot} {e : Env} {addr havekids : Bool}
      (hrun : (m.proc p).state = .running) (hc : m.ctl p = .waitEnd addr havekids) :
    StepCase m (.step p e) (m.goto p (.waitUnlock (-1) none))
  | waitSleep {p : Slot} {e : Env} {addr havekids : Bool}
      (hrun : (m.proc p).state = .running) (hc : m.ctl p = .waitEnd addr havekids) :
    StepCase m (.step p e) (m.goto p (.waitSleep addr))
  | sleepLock {p : Slot} {e : Env} {addr : Bool}
      (hrun : (m.proc p).state = .running) (hc : m.ctl p = .waitSleep addr) :
    StepCase m (.step p e)
      ((m.setProc p { m.proc p with locked := true }).goto p (.waitSleepLocked addr))
  | sleepRelease {p : Slot} {e : Env} {addr : Bool}
      (hrun : (m.proc p).state = .running) (hc : m.ctl p = .waitSleepLocked addr)
      (hw : m.waitLock = some p) :
    StepCase m (.step p e) ({ m with waitLock := none }.goto p (.waitSleepReleased addr))
  | sleepSwitch {p : Slot} {e : Env} {addr : Bool} (hrun : (m.proc p).state = .running)
      (hc : m.ctl p = .waitSleepReleased addr) :
    StepCase m (.step p e) ((m.setProc p { m.proc p with
      chan := some (.proc p), state := .sleeping, locked := false }).goto p (.waitSched addr))
  | waitUnlock {p : Slot} {e : Env} {r : ℤ} {status : Option ℤ}
      (hrun : (m.proc p).state = .running)
      (hc : m.ctl p = .waitUnlock r status) (hw : m.waitLock = some p) :
    StepCase m (.step p e) ({ m with waitLock := none }.goto p (.done r))
  | kkillHit {p q : Slot} {e : Env} (hrun : (m.proc p).state = .running)
      (hc : m.ctl p = .kkillAt (m.proc q).pid q) :
    StepCase m (.step p e) (({ m with blamed := update m.blamed q true }.setProc q
      (m.proc q).kill).goto p (.done 0))
  | kkillSkip {p : Slot} {e : Env} {pid : ℤ} {i : ℕ}
      (hrun : (m.proc p).state = .running) (hc : m.ctl p = .kkillAt pid i) :
    StepCase m (.step p e) (m.goto p (.kkillAt pid (i + 1)))
  | kkillNone {p : Slot} {e : Env} {pid : ℤ} {i : ℕ}
      (hrun : (m.proc p).state = .running) (hc : m.ctl p = .kkillAt pid i) :
    StepCase m (.step p e) (m.goto p (.done (-1)))
  | call {p : Slot} {c : Call} (hrun : (m.proc p).state = .running) (hc : m.ctl p = .user)
      (hinit : ∀ status, c = .kexit status → p ≠ initproc) :
    StepCase m (.call p c) (m.goto p c.entry)
  | kexec {p : Slot} {sz pagetable : ℕ} (hrun : (m.proc p).state = .running)
      (hc : m.ctl p = .user) :
    StepCase m (.kexec p sz pagetable)
      (m.setProc p { m.proc p with sz := sz, pagetable := pagetable })
  | fault {p : Slot} (hrun : (m.proc p).state = .running) (hc : m.ctl p = .user) :
    StepCase m (.fault p) ({ m with blamed := update m.blamed p true }.setProc p
      { m.proc p with killed := true })
  | sleepOther {p : Slot} {n : ℕ} (hrun : (m.proc p).state = .running) (hc : m.ctl p = .user) :
    StepCase m (.sleepOther p n)
      ((m.setProc p { m.proc p with chan := some (.other n), state := .sleeping }).goto p
        .otherSched)
  | wakeOther {p : Slot} (hc : m.ctl p = .otherSched) (hs : (m.proc p).state = .sleeping) :
    StepCase m (.wakeOther p) (m.setProc p { m.proc p with state := .runnable })
  | dispatch {p : Slot} (hs : (m.proc p).state = .runnable) (hl : (m.proc p).locked = false) :
    StepCase m (.dispatch p)
      ((m.setProc p ((m.proc p).dispatched (m.ctl p))).goto p (m.ctl p).resume)
  | yield {p : Slot} (hrun : (m.proc p).state = .running) (hl : (m.proc p).locked = false)
      (hw : (m.ctl p).holdsWait = false) :
    StepCase m (.yield p) (m.setProc p { m.proc p with state := .runnable })

variable {m m' : State} {p : Slot} {e : Env}

theorem StepCase.of_forkAt {q : Slot} (hrun : (m.proc p).state = .running)
    (hc : m.ctl p = .forkScan q) (h : m.forkAt p e q (.forkScan (q + 1)) = some m') :
    StepCase m (.step p e) m' := by
  unfold forkAt at h
  split_ifs at h with hl hs hok
  · obtain rfl := some.inj h
    exact .forkFound hrun hc hs (by simpa using hl)
  · obtain rfl := some.inj h
    exact .forkFail hrun hc hs (by simpa using hl)
  · obtain rfl := some.inj h
    exact .forkSkip hrun hc hs

theorem StepCase.of_waitAt {q : Slot} {addr havekids : Bool} (hrun : (m.proc p).state = .running)
    (hc : m.ctl p = .waitScan addr q havekids) (h : m.waitAt p e addr havekids q q = some m') :
    StepCase m (.step p e) m' := by
  unfold waitAt at h
  split_ifs at h with hp hl hz hok ha
  · obtain rfl := some.inj h
    obtain ⟨rfl, hok⟩ := hok
    exact .waitFault hrun hc hp hz (by simpa using hok)
  · obtain rfl := some.inj h
    have hreap := StepCase.waitReap (e := e) hrun hc hp hz (by simpa using hl)
      (fun ha => by simpa [ha] using hok)
    simpa [ha] using hreap
  · obtain rfl := some.inj h
    have hreap := StepCase.waitReap (e := e) hrun hc hp hz (by simpa using hl)
      (fun ha => by simpa [ha] using hok)
    simpa [ha] using hreap
  · obtain rfl := some.inj h
    exact .waitAlive hrun hc hp hz
  · obtain rfl := some.inj h
    exact .waitSkip hrun hc hp

theorem StepCase.of_stepProc (hrun : (m.proc p).state = .running ∨ (m.ctl p).leaving = true)
    (h : m.stepProc p e = some m') : StepCase m (.step p e) m' := by
  cases hc : m.ctl p <;> simp only [stepProc, hc, Ctl.leaving, or_false, reduceCtorEq,
    Bool.false_eq_true, acquireWait, releaseWait, wakeAt, kkillAt,
    ite_none_right_eq_some, some.injEq, ite_none_left_eq_some] at h hrun
  case done => exact h ▸ .ret hrun hc
  case forkScan i =>
    split_ifs at h with hi
    · exact .of_forkAt (q := ⟨i, hi⟩) hrun hc h
    · exact some.inj h ▸ .forkNone hrun hc
  case forkParent => exact h.2 ▸ .forkParent hrun hc h.1
  case forkRun => exact h.2 ▸ .forkRun hrun hc (by simpa using h.1)
  case exitFiles => exact h ▸ .exitFiles hrun hc
  case exitWait => exact h.2 ▸ .exitWait hrun hc h.1
  case exitReparent status i =>
    split_ifs at h with hi hp
    · exact some.inj h ▸ .reparent (q := ⟨i, hi⟩) hrun hc hp
    · exact some.inj h ▸ .reparentSkip (q := ⟨i, hi⟩) hrun hc hp
    · exact some.inj h ▸ .reparentEnd hrun hc (not_lt.mp hi)
  case exitReparentWake status i j =>
    split_ifs at h with hj hjp hl
    · subst hjp
      exact some.inj h ▸ .reparentWakeSelf hrun hc
    · exact some.inj h ▸ .reparentWake (q := ⟨j, hj⟩) hrun hc hjp (by simpa using hl)
    · exact some.inj h ▸ .reparentWakeEnd hrun hc (not_lt.mp hj)
  case exitWake status c j =>
    split_ifs at h with hj hjp hl
    · subst hjp
      exact some.inj h ▸ .exitWakeSelf hrun hc
    · exact some.inj h ▸ .exitWake (q := ⟨j, hj⟩) hrun hc hjp (by simpa using hl)
    · exact some.inj h ▸ .exitWakeEnd hrun hc (not_lt.mp hj)
  case exitZombie => exact h.2 ▸ .exitZombie hrun hc
  case exitUnlock => exact h.2 ▸ .exitUnlock hc h.1
  case exitSched => exact h ▸ .exitSched hc
  case waitEnter => exact h.2 ▸ .waitEnter hrun (.inl hc) h.1
  case waitReturn => exact h.2 ▸ .waitEnter hrun (.inr hc) h.1
  case waitScan addr i havekids =>
    split_ifs at h with hi
    · exact .of_waitAt (q := ⟨i, hi⟩) hrun hc h
    · exact some.inj h ▸ .waitScanEnd hrun hc (not_lt.mp hi)
  case waitEnd =>
    obtain ⟨-, h⟩ := h
    split_ifs at h
    · exact some.inj h ▸ .waitFail hrun hc
    · exact some.inj h ▸ .waitSleep hrun hc
  case waitSleep => exact h.2 ▸ .sleepLock hrun hc
  case waitSleepLocked => exact h.2 ▸ .sleepRelease hrun hc h.1
  case waitSleepReleased => exact h ▸ .sleepSwitch hrun hc
  case waitUnlock => exact h.2 ▸ .waitUnlock hrun hc h.1
  case kkillAt pid i =>
    split_ifs at h with hi hl hpid
    · subst hpid
      exact some.inj h ▸ .kkillHit (q := ⟨i, hi⟩) hrun hc
    · exact some.inj h ▸ .kkillSkip hrun hc
    · exact some.inj h ▸ .kkillNone hrun hc

theorem StepCase.of_step {a : Act} (h : step m a = some m') : StepCase m a m' := by
  cases a with
  | step p e =>
    simp only [step, ite_none_right_eq_some] at h
    exact .of_stepProc h.1 h.2
  | call p c =>
    simp only [step, ite_none_right_eq_some] at h
    obtain ⟨⟨hrun, hc⟩, h⟩ := h
    cases c with
    | kexit status =>
      simp only [ite_none_left_eq_some, some.injEq] at h
      exact h.2 ▸ .call hrun hc fun _ _ => h.1
    | kfork => exact some.inj h ▸ .call hrun hc (by rintro status ⟨⟩)
    | kwait addr => exact some.inj h ▸ .call hrun hc (by rintro status ⟨⟩)
    | kkill pid => exact some.inj h ▸ .call hrun hc (by rintro status ⟨⟩)
  | kexec p sz pagetable =>
    simp only [step, ite_none_right_eq_some, some.injEq] at h
    obtain ⟨⟨hrun, hc⟩, rfl⟩ := h
    exact .kexec hrun hc
  | fault p =>
    simp only [step, ite_none_right_eq_some, some.injEq] at h
    obtain ⟨⟨hrun, hc, -⟩, rfl⟩ := h
    exact .fault hrun hc
  | sleepOther p n =>
    simp only [step, ite_none_right_eq_some, some.injEq] at h
    obtain ⟨⟨hrun, hc, -⟩, rfl⟩ := h
    exact .sleepOther hrun hc
  | wakeOther p =>
    simp only [step, ite_none_right_eq_some, some.injEq] at h
    obtain ⟨⟨hc, -, hs⟩, rfl⟩ := h
    exact .wakeOther hc hs
  | dispatch p =>
    simp only [step, ite_none_right_eq_some, some.injEq] at h
    obtain ⟨⟨hs, hl⟩, rfl⟩ := h
    exact .dispatch hs hl
  | yield p =>
    simp only [step, ite_none_right_eq_some, some.injEq] at h
    obtain ⟨⟨hrun, hl, hw⟩, rfl⟩ := h
    exact .yield hrun hl hw

end Xv6.Life

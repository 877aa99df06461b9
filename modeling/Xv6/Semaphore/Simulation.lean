import Xv6.Semaphore.View

/-!
# The machine simulates the protocol of each slot

The main result, `slotStep_of_step`, says that every move of the machine is a transition of the
protocol of `Xv6/Semaphore/Slot.lean`, for every slot at once.
-/

namespace Xv6.Semaphore

open Thread Machine SlotStep Instr Stands View

theorem Shared.checked_eq_some {s : Shared} {i : ℤ} {o : Op} (h : s.checked i = some o) :
    (s.semTable o.id).active = true ∧ o.inc = (s.semTable o.id).inc := by
  unfold Shared.checked at h
  split at h
  · split at h
    · rename_i hact
      obtain rfl := Option.some.inj h
      exact ⟨hact, rfl⟩
    · cases h
  · cases h

theorem Shared.firstInactive_eq_some {s : Shared} {i : SemId} (h : s.firstInactive = some i) :
    (s.semTable i).active = false := by simpa using List.find?_some h

attribute [local simp] event onOp view_setLock_sem

section Simulation

variable {id : SemId} {m : State} {p : Slot} {l : Label}

variable {c : Ctl Lk SemId Label}

theorem slotStep_silent {s : Shared} {e : SlotEvent} (he : e = .silent)
    (hs : view id { m with shared := s } = view id m)
    (hph : (view id m).phase p = phaseOf id (m.proc p).state c) :
    SlotStep (view id m) e (view id ({ m with shared := s }.goto p c)) := by
  rw [he, view_goto, hs, to_self (v := view id m) hph]
  exact .stutter

theorem slotStep_check {i : ℤ} {ph : ℕ → Phase} {f : Op → Label} {e : ℕ → SlotEvent} {r : ℤ}
    (hp : (view id m).phase p = .out) (hf : ∀ o, labelPhase id (f o) = onOp id o (ph o.inc) .out)
    (hpass : (view id m).active = true → SlotStep (view id m) (e (view id m).inc)
      ((view id m).to p (ph (view id m).inc))) :
    SlotStep (view id m)
      (match m.shared.checked i with
        | some o => if o.id = id then e o.inc else .silent
        | none => .silent)
      (view id (m.goto p (.run
        (match m.shared.checked i with
          | none => .done r
          | some o => f o)))) := by
  cases hc : m.shared.checked i with
  | none => exact slotStep_silent rfl rfl hp
  | some o =>
    obtain ⟨hact, hinc⟩ := Shared.checked_eq_some hc
    by_cases ho : o.id = id
    · subst ho
      have h := hpass hact
      simpa [hf, hinc] using h
    · exact slotStep_silent (s := m.shared) (if_neg ho) rfl (hp.trans (by simp [hf, ho]))

attribute [local simp] labelPhase labelEvent phaseOf view_phase

theorem slotStep_exec {f : Proc SemId → Shared → Shared × Label} (hctl : m.ctl p = .run l)
    (hinstr : instr l = .exec f) :
    SlotStep (view id m) (labelEvent id m.shared p l)
      (view id ({ m with shared := (f (m.proc p) m.shared).1 }.goto p
        (.run (f (m.proc p) m.shared).2))) := by
  have hp : (view id m).phase p = labelPhase id l := by simp [hctl]
  cases l with
  | user | sysSemOpen | semAllocRelease | semWait | semWaitSleep | semWaitRelease | semSignal
  | semSignalWake | semSignalRelease | semFree | semFreeWake | semFreeRelease | kkill =>
    cases hinstr
  | done r | semWaitRecord o | semSignalRecord o =>
    obtain rfl := exec.inj hinstr
    exact slotStep_silent rfl rfl hp
  | semAllocName i name =>
    obtain rfl := exec.inj hinstr
    refine slotStep_silent rfl ?_ hp
    by_cases hi : i = id
    · subst hi
      exact view_setSem i m _
    · exact view_setSem_of_ne id m hi _
  | sysSemWait i =>
    obtain rfl := exec.inj hinstr
    have h := slotStep_check (i := i) (f := .semWait) (e := fun _ => .waitChecked p) (r := -1) hp
      (fun _ => rfl) (.waitCheck hp)
    cases hc : m.shared.checked i <;> simpa [hc] using h
  | sysSemSignal i =>
    obtain rfl := exec.inj hinstr
    have h := slotStep_check (i := i) (f := .semSignal) (e := .signalChecked) (r := -1) hp
      (fun _ => rfl) (.signalCheck hp)
    cases hc : m.shared.checked i <;> simpa [hc] using h
  | sysSemClose i =>
    obtain rfl := exec.inj hinstr
    have h := slotStep_check (i := i) (f := .semFree) (e := fun _ => .silent) (r := -1) hp
      (fun _ => rfl) (.closeCheck hp)
    cases hc : m.shared.checked i <;> simpa [hc] using h
  | sysSemGantt i =>
    obtain rfl := exec.inj hinstr
    have h := slotStep_check (i := i) (f := .semGantt) (e := fun _ => .silent) (r := 0) hp
      (fun _ => rfl) (.ganttCheck hp)
    cases hc : m.shared.checked i <;> simpa [hc] using h
  | semGantt o =>
    obtain rfl := exec.inj hinstr
    by_cases ho : o.id = id
    · subst ho
      rw [view_goto]
      exact ganttDone (hp.trans (onOp_self o _ _))
    · exact slotStep_silent rfl rfl (hp.trans (by simp [ho]))
  | semWaitAcquired o =>
    obtain rfl := exec.inj hinstr
    by_cases ho : o.id = id
    · subst ho
      have h := record (hp.trans (onOp_self o _ _))
      simpa using h
    · exact slotStep_silent rfl rfl (hp.trans (by simp [ho]))
  | semAlloc value name =>
    obtain rfl := exec.inj hinstr
    simp only [labelEvent]
    cases hf : m.shared.firstInactive with
    | none => exact slotStep_silent rfl rfl hp
    | some i =>
      by_cases hi : i = id
      · subst hi
        have h := allocTake (x := value) hp (Shared.firstInactive_eq_some hf)
        simpa [view_setSem] using h
      · exact slotStep_silent (by simp [hi]) (view_setSem_of_ne id m hi _)
          (hp.trans (by simp [hi]))
  | semAllocCount i value name =>
    obtain rfl := exec.inj hinstr
    by_cases hi : i = id
    · subst hi
      have h := allocSet (hp.trans (if_pos rfl))
      simpa [view_setSem] using h
    · exact slotStep_silent (if_neg hi) (view_setSem_of_ne id m hi _)
        (hp.trans (by simp [hi]))
  | semWaitCount o =>
    obtain rfl := exec.inj hinstr
    by_cases ho : o.id = id
    · subst ho
      have hin := hp.trans (onOp_self o _ _)
      by_cases hneg : int32 ((m.shared.semTable o.id).count - 1) < 0
      · have h := waitBlock hin hneg
        simpa [view_setSem, hneg, not_le.mpr hneg] using h
      · have h := waitGrant hin (not_lt.mp hneg)
        simpa [view_setSem, hneg, not_lt.mp hneg] using h
    · refine slotStep_silent (if_neg ho) (view_setSem_of_ne id m ho _) (hp.trans ?_)
      dsimp only
      split <;> simp [ho]
  | semSignalCount o =>
    obtain rfl := exec.inj hinstr
    by_cases ho : o.id = id
    · subst ho
      have hin := hp.trans (onOp_self o _ _)
      by_cases hle : int32 ((m.shared.semTable o.id).count + 1) ≤ 0
      · have h := signalWakes hin hle
        simpa [view_setSem, hle] using h
      · have h := signalFree hin (not_le.mp hle)
        simpa [view_setSem, hle] using h
    · refine slotStep_silent (if_neg ho) (view_setSem_of_ne id m ho _) (hp.trans ?_)
      dsimp only
      split <;> simp [ho]
  | semFreeActive o =>
    obtain rfl := exec.inj hinstr
    by_cases ho : o.id = id
    · subst ho
      have h := closeOff (hp.trans (onOp_self o _ _))
      simpa [view_setSem] using h
    · exact slotStep_silent (if_neg ho) (view_setSem_of_ne id m ho _)
        (hp.trans (by simp [ho]))

theorem slotStep_otherLock {i : SemId} {h : Option Slot} {e : SlotEvent}
    (hi : i ≠ id) (he : e = .silent) (hph : (view id m).phase p = phaseOf id (m.proc p).state c) :
    SlotStep (view id m) e (view id ((m.setLock (.sem i) h).goto p c)) := by
  have hv : (view id m).to p (phaseOf id (m.proc p).state c) = view id m := to_self hph
  rw [he, view_goto, view_setLock_of_ne id m hi, setLock_proc, hv]
  exact .stutter

theorem slotStep_acquire {lk : Lk} {next : Label} (hctl : m.ctl p = .run l)
    (hinstr : instr l = .acquire lk next) (hfree : m.lock lk = none) :
    SlotStep (view id m) (labelEvent id m.shared p l)
      (view id ((m.setLock lk (some p)).goto p (.run next))) := by
  have hp : (view id m).phase p = labelPhase id l := by simp [hctl]
  cases l with
  | sysSemOpen value name =>
    obtain ⟨rfl, rfl⟩ := acquire.inj hinstr
    rw [view_goto, view_setLock_table]
    exact .tableAcquire hp hfree
  | semWait o =>
    obtain ⟨rfl, rfl⟩ := acquire.inj hinstr
    by_cases ho : o.id = id
    · subst ho
      have h := waitAcquire (hp.trans (onOp_self o _ _)) hfree
      simpa using h
    · exact slotStep_otherLock ho (if_neg ho) (hp.trans (by simp [ho]))
  | semSignal o =>
    obtain ⟨rfl, rfl⟩ := acquire.inj hinstr
    by_cases ho : o.id = id
    · subst ho
      have h := signalAcquire (hp.trans (onOp_self o _ _)) hfree
      simpa using h
    · exact slotStep_otherLock ho (if_neg ho) (hp.trans (by simp [ho]))
  | semFree o =>
    obtain ⟨rfl, rfl⟩ := acquire.inj hinstr
    rw [view_goto, view_setLock_table]
    by_cases ho : o.id = id
    · subst ho
      have h := closeAcquire (hp.trans (onOp_self o _ _)) hfree
      simpa using h
    · have h := tableAcquire (hp.trans (if_neg ho)) hfree
      simpa [ho] using h
  | _ => cases hinstr

theorem slotStep_release {lk : Lk} {next : Label} (hctl : m.ctl p = .run l)
    (hinstr : instr l = .release lk next) (hheld : m.lock lk = some p) :
    SlotStep (view id m) (labelEvent id m.shared p l)
      (view id ((m.setLock lk none).goto p (.run next))) := by
  have hp : (view id m).phase p = labelPhase id l := by simp [hctl]
  cases l with
  | semAllocRelease r =>
    obtain ⟨rfl, rfl⟩ := release.inj hinstr
    rw [view_goto, view_setLock_table]
    exact .tableRelease hp hheld
  | semWaitRelease o =>
    obtain ⟨rfl, rfl⟩ := release.inj hinstr
    by_cases ho : o.id = id
    · subst ho
      have h := waitReturn (hp.trans (onOp_self o _ _)) hheld
      simpa using h
    · exact slotStep_otherLock ho (if_neg ho) (hp.trans (by simp [ho]))
  | semSignalRelease o =>
    obtain ⟨rfl, rfl⟩ := release.inj hinstr
    by_cases ho : o.id = id
    · subst ho
      have h := signalReturn (hp.trans (onOp_self o _ _)) hheld
      simpa using h
    · exact slotStep_otherLock ho (if_neg ho) (hp.trans (by simp [ho]))
  | semFreeRelease o =>
    obtain ⟨rfl, rfl⟩ := release.inj hinstr
    rw [view_goto, view_setLock_table]
    by_cases ho : o.id = id
    · subst ho
      have h := closeReturn (hp.trans (onOp_self o _ _)) hheld
      simpa using h
    · have h := tableRelease (hp.trans (if_neg ho)) hheld
      simpa [ho] using h
  | _ => cases hinstr

variable {r : Proc SemId}

theorem slotStep_unseen (hph : (view id m).phase p = phaseOf id r.state c) :
    SlotStep (view id m) .silent (view id ((m.setProc p r).goto p c)) := by
  have hv : view id ((m.setProc p r).goto p c) = view id m := by
    rw [view_goto, view_setProc, to_to, setProc_proc, Function.update_self, to_self hph]
  rw [hv]
  exact .stutter

variable {q : Slot}

theorem slotStep_setProc (hph : (view id m).phase q = phaseOf id r.state (m.ctl q)) :
    SlotStep (view id m) .silent (view id (m.setProc q r)) := by
  rw [view_setProc, to_self hph]
  exact .stutter

variable {o : Op}

theorem slotStep_sleepEnter (hctl : m.ctl p = .sleepEnter o.id (.sem o.id) (.semWaitAcquired o)) :
    SlotStep (view id m) .silent (view id ((m.setProc p r).goto p
      (.sleepLocked o.id (.sem o.id) (.semWaitAcquired o)))) := by
  by_cases ho : o.id = id
  · subst ho
    have hp : (view o.id m).phase p = .blocking o.inc := by simp [hctl]
    have h := commit hp
    simpa using h
  · exact slotStep_unseen (by simp [hctl, ho])

theorem slotStep_sleepLocked (hctl : m.ctl p = .sleepLocked o.id (.sem o.id) (.semWaitAcquired o))
    (hheld : m.lock (.sem o.id) = some p) :
    SlotStep (view id m) .silent (view id ((m.setLock (.sem o.id) none).goto p
      (.sleepReleased o.id (.sem o.id) (.semWaitAcquired o)))) := by
  by_cases ho : o.id = id
  · subst ho
    have hp : (view o.id m).phase p = .committed o.inc := by simp [hctl]
    have h := unlock hp hheld
    simpa using h
  · exact slotStep_otherLock ho rfl (by simp [hctl, ho])

theorem slotStep_sleepReleased (hr : r.state = .sleeping)
    (hctl : m.ctl p = .sleepReleased o.id (.sem o.id) (.semWaitAcquired o)) :
    SlotStep (view id m) .silent (view id ((m.setProc p r).goto p
      (.sched o.id (.sem o.id) (.semWaitAcquired o)))) := by
  by_cases ho : o.id = id
  · subst ho
    have hp : (view o.id m).phase p = .falling o.inc := by simp [hctl]
    have h := fall hp
    simpa [hr] using h
  · exact slotStep_unseen (by simp [hctl, ho])

theorem slotStep_sleepReturn (hctl : m.ctl p = .sleepReturn (.sem o.id) (.semWaitAcquired o))
    (hfree : m.lock (.sem o.id) = none) :
    SlotStep (view id m) .silent (view id ((m.setLock (.sem o.id) (some p)).goto p
      (.run (.semWaitAcquired o)))) := by
  by_cases ho : o.id = id
  · subst ho
    have hp : (view o.id m).phase p = .woken o.inc := by simp [hctl]
    have h := relock hp hfree
    simpa using h
  · exact slotStep_otherLock ho rfl (by simp [hctl, ho])

variable (hwf : Wf code m)

include hwf

theorem view_wake (hr : r.state = .runnable) (hsleep : m.SleepingOn id q) :
    ∃ k, (view id m).phase q = .asleep k ∧ view id (m.setProc q r) = (view id m).to q (.woken k) := by
  obtain ⟨k, hk⟩ := (sleepingOn_iff hwf).mp hsleep
  obtain ⟨chan, lk, next, hctl⟩ := (hwf.procOk q).sched_of_sleeping hsleep.1
  have hstands := of_wf hwf q
  rw [hctl] at hstands
  cases hstands with
  | sched o =>
    refine ⟨k, hk, ?_⟩
    simp only [view_phase, hctl, phaseOf, onOp, hsleep.1] at hk
    split at hk
    · rename_i ho
      cases hk
      simp [hctl, ho, hr]
    · cases hk

theorem view_wake_other (hsleep : ¬ m.SleepingOn id q)
    (hr : (m.proc q).state ≠ .sleeping → r.state = (m.proc q).state) :
    view id (m.setProc q r) = view id m := by
  rw [view_setProc]
  refine to_self ?_
  by_cases hst : (m.proc q).state = .sleeping
  · obtain ⟨chan, lk, next, hctl⟩ := (hwf.procOk q).sched_of_sleeping hst
    have hproc := hwf.procOk q
    have hstands := of_wf hwf q
    rw [hctl] at hstands hproc
    cases hstands with
    | sched o =>
      have ho : o.id ≠ id := fun ho => hsleep ⟨hst, ho ▸ hproc.2.1⟩
      simp [hctl, ho]
  · rw [view_phase, hr hst]

omit hwf

variable {i : ℕ}

include hwf

theorem roundEvent_skip {chan : SemId} (hit miss : Slot → SlotEvent)
    (hrun : (m.proc p).state = .running) (hi : i < NPROC) (hskip : (⟨i, hi⟩ : Slot) = p ∨
      (m.proc ⟨i, hi⟩).locked = false ∧ ¬ m.SleepingOn chan ⟨i, hi⟩)
    (hp : ((view chan m).phase p).sleeps = false) : roundEvent chan m i hit miss = miss ⟨i, hi⟩ ∧
      ((view chan m).phase ⟨i, hi⟩).sleeps = false := by
  rcases hskip with rfl | ⟨hfree, hsleep⟩
  · exact ⟨by simp [roundEvent, SleepingOn, hrun, hi], hp⟩
  refine ⟨by simp [roundEvent, hsleep, hi], ?_⟩
  rw [← Bool.not_eq_true, sleeps_iff hwf]
  rintro (h | h)
  · exact hsleep h
  · simp [locked_of_commits hwf h] at hfree

theorem slotStep_signalSkip (hrun : (m.proc p).state = .running)
    (hctl : m.ctl p = .wakeupAt o.id true i (.semSignalRelease o)) (hi : i < NPROC)
    (hskip : (⟨i, hi⟩ : Slot) = p ∨ (m.proc ⟨i, hi⟩).locked = false ∧ ¬ m.SleepingOn o.id ⟨i, hi⟩) :
    SlotStep (view id m) (event id m (.step p))
      (view id (m.goto p (.wakeupAt o.id true (i + 1) (.semSignalRelease o)))) := by
  by_cases ho : o.id = id
  · subst ho
    have hp : (view o.id m).phase p = .signalWake o.inc i := by simp [hctl]
    obtain ⟨he, hnot⟩ := roundEvent_skip hwf (.woke p) (fun _ => .silent) hrun hi hskip
      (by rw [hp]; rfl)
    have h := signalSkip hp hi hnot
    simpa [hctl, he] using h
  · exact slotStep_silent (s := m.shared) (by simp [hctl, ho]) rfl
      (by simp [hctl, ho])

theorem slotStep_closeSkip (hrun : (m.proc p).state = .running)
    (hctl : m.ctl p = .wakeupAt o.id false i (.semFreeActive o)) (hi : i < NPROC)
    (hskip : (⟨i, hi⟩ : Slot) = p ∨ (m.proc ⟨i, hi⟩).locked = false ∧ ¬ m.SleepingOn o.id ⟨i, hi⟩) :
    SlotStep (view id m) (event id m (.step p))
      (view id (m.goto p (.wakeupAt o.id false (i + 1) (.semFreeActive o)))) := by
  by_cases ho : o.id = id
  · subst ho
    have hp : (view o.id m).phase p = .closeWake o.inc i := by simp [hctl]
    obtain ⟨he, hnot⟩ := roundEvent_skip hwf .closeWoke .closePassed hrun hi hskip (by rw [hp]; rfl)
    have h := closeSkip hp hi hnot
    simpa [hctl, he] using h
  · exact slotStep_silent (s := m.shared) (by simp [hctl, ho]) rfl
      (by simp [hctl, ho])

omit hwf

theorem slotStep_signalEnd
    (hctl : m.ctl p = .wakeupAt o.id true i (.semSignalRelease o)) (hi : NPROC ≤ i) :
    SlotStep (view id m) (event id m (.step p))
      (view id (m.goto p (.run (.semSignalRelease o)))) := by
  by_cases ho : o.id = id
  · subst ho
    have h := signalEnd (v := view o.id m) (p := p) (k := o.inc) (by simp [hctl]) hi
    simpa [hctl, roundEvent, not_lt.mpr hi] using h
  · exact slotStep_silent (s := m.shared) (by simp [hctl, ho]) rfl
      (by simp [hctl, ho])

theorem slotStep_closeEnd
    (hctl : m.ctl p = .wakeupAt o.id false i (.semFreeActive o)) (hi : NPROC ≤ i) :
    SlotStep (view id m) (event id m (.step p)) (view id (m.goto p (.run (.semFreeActive o)))) := by
  by_cases ho : o.id = id
  · subst ho
    have h := closeEnd (v := view o.id m) (p := p) (k := o.inc) (by simp [hctl]) hi
    simpa [hctl, roundEvent, not_lt.mpr hi] using h
  · exact slotStep_silent (s := m.shared) (by simp [hctl, ho]) rfl
      (by simp [hctl, ho])

include hwf

theorem slotStep_signalHit
    (hctl : m.ctl p = .wakeupAt o.id true q.val (.semSignalRelease o)) (hne : q ≠ p)
    (hsleep : m.SleepingOn o.id q) : SlotStep (view id m) (event id m (.step p))
      (view id ((m.setState q .runnable).goto p (.run (.semSignalRelease o)))) := by
  by_cases ho : o.id = id
  · subst ho
    obtain ⟨k, hk, hv⟩ := view_wake hwf (r := { m.proc q with state := .runnable }) rfl hsleep
    have h := signalHit (v := view o.id m) (p := p) (k := o.inc) (by simp [hctl]) hne hk
    rw [view_goto, setState, hv]
    simpa [hctl, roundEvent, hsleep] using h
  have hother : ¬ m.SleepingOn id q := fun h => ho (Option.some.inj (hsleep.2.symm.trans h.2))
  rw [view_goto, setState, view_wake_other hwf hother (fun h => absurd hsleep.1 h)]
  have hp : (view id m).phase p = .out := by simp [hctl, ho]
  have hv : (view id m).to p .out = view id m := to_self hp
  simpa [hctl, ho, hv] using stutter

theorem slotStep_closeHit
    (hctl : m.ctl p = .wakeupAt o.id false q.val (.semFreeActive o)) (hne : q ≠ p)
    (hsleep : m.SleepingOn o.id q) : SlotStep (view id m) (event id m (.step p))
      (view id ((m.setState q .runnable).goto p
        (.wakeupAt o.id false (q.val + 1) (.semFreeActive o)))) := by
  by_cases ho : o.id = id
  · subst ho
    obtain ⟨k, hk, hv⟩ := view_wake hwf (r := { m.proc q with state := .runnable }) rfl hsleep
    have h := closeHit (v := view o.id m) (p := p) (k := o.inc) (by simp [hctl]) hne hk
    rw [view_goto, setState, hv]
    simpa [hctl, roundEvent, hsleep] using h
  have hother : ¬ m.SleepingOn id q := fun h => ho (Option.some.inj (hsleep.2.symm.trans h.2))
  rw [view_goto, setState, view_wake_other hwf hother (fun h => absurd hsleep.1 h)]
  have hp : (view id m).phase p = .otherTable := by simp [hctl, ho]
  have hv : (view id m).to p .otherTable = view id m := to_self hp
  simpa [hctl, ho, hv] using stutter

theorem slotStep_kkillHit (hrun : (m.proc p).state = .running)
    (hctl : m.ctl p = .kkillAt (m.proc q).pid q.val (.done 0) (.done (-1))) :
    SlotStep (view id m) (event id m (.step p))
      (view id ((m.setProc q { m.proc q with
        killed := true
        state := if (m.proc q).state = .sleeping then .runnable
          else (m.proc q).state }).goto p (.run (.done 0)))) := by
  have hp : (view id m).phase p = .out := by simp [hctl]
  rw [view_goto]
  by_cases hsleep : m.SleepingOn id q
  · have hqp : p ≠ q := by
      rintro rfl
      simp [hsleep.1] at hrun
    obtain ⟨k, hk, hv⟩ := view_wake hwf (r := { m.proc q with
        killed := true
        state := if (m.proc q).state = .sleeping then .runnable
          else (m.proc q).state }) (by simp [hsleep.1]) hsleep
    have hback : ((view id m).to q (.woken k)).to p .out = (view id m).to q (.woken k) :=
      View.to_self (by simpa [View.to, hqp] using hp)
    rw [hv]
    simpa [hctl, roundEvent, hsleep, hback] using SlotStep.kill hk
  · rw [view_wake_other hwf hsleep (fun h => by simp [h])]
    have hv : (view id m).to p .out = view id m := View.to_self hp
    simpa [hctl, roundEvent, hsleep, hv] using SlotStep.stutter

omit hwf

/-- **Every move of the machine is a transition of the protocol of each slot.** -/
theorem slotStep_of_step {m' : State} {a : Act Label} (hwf : Wf code m) (h : step m a = some m') :
    SlotStep (view id m) (event id m a) (view id m') := by
  cases StepCase.of_step h with
  | @exec p l f _ hctl hinstr => simpa [hctl] using slotStep_exec hctl hinstr
  | @acquire p l lk next _ hctl hinstr hfree =>
    simpa [hctl] using slotStep_acquire hctl hinstr hfree
  | @release p l lk next _ hctl hinstr hheld =>
    simpa [hctl] using slotStep_release hctl hinstr hheld
  | @sleep p l chan lk next _ hctl hinstr =>
    obtain ⟨o, rfl, rfl, rfl, rfl⟩ := instr_eq_sleep hinstr
    exact slotStep_silent (s := m.shared) (by simp [hctl]) rfl (by simp [hctl])
  | @wakeup p l chan next _ hctl hinstr =>
    obtain ⟨o, rfl, rfl, rfl⟩ := instr_eq_wakeup hinstr
    exact slotStep_silent (s := m.shared) (by simp [hctl]) rfl (by simp [hctl])
  | @wakeupOne p l chan next _ hctl hinstr =>
    obtain ⟨o, rfl, rfl, rfl⟩ := instr_eq_wakeupOne hinstr
    exact slotStep_silent (s := m.shared) (by simp [hctl]) rfl (by simp [hctl])
  | @kkill p l pid found notFound _ hctl hinstr =>
    obtain ⟨rfl, rfl, rfl⟩ := instr_eq_kkill hinstr
    exact slotStep_silent (s := m.shared) (by simp [hctl]) rfl (by simp [hctl])
  | @call p cur l _ hctl hinstr hentry hkilled =>
    obtain rfl : cur = .user := by cases cur <;> first | rfl | cases hinstr
    refine slotStep_silent (s := m.shared) rfl rfl ?_
    simp only [view_phase, hctl, phaseOf]
    cases l <;> first | rfl | cases hentry
  | @sleepEnter p chan lk next _ hctl _ =>
    have hstands := of_wf hwf p
    rw [hctl] at hstands
    cases hstands with
    | sleepEnter o => simpa only [event, hctl] using slotStep_sleepEnter hctl
  | @sleepLocked p chan lk next _ hctl hheld =>
    have hstands := of_wf hwf p
    rw [hctl] at hstands
    cases hstands with
    | sleepLocked o => simpa [hctl] using slotStep_sleepLocked hctl hheld
  | @sleepReleased p chan lk next _ hctl =>
    have hstands := of_wf hwf p
    rw [hctl] at hstands
    cases hstands with
    | sleepReleased o =>
      have he : event id m (.step p) = .silent := by simp [hctl]
      exact he ▸ slotStep_sleepReleased rfl hctl
  | @sleepReturn p lk next _ hctl hfree =>
    have hstands := of_wf hwf p
    rw [hctl] at hstands
    cases hstands with
    | sleepReturn o => simpa [hctl] using slotStep_sleepReturn hctl hfree
  | @dispatchSleep p chan lk next hst hfree hctl =>
    have hstands := of_wf hwf p
    rw [hctl] at hstands
    cases hstands with
    | sched o => exact slotStep_unseen (by simp [hctl, hst])
  | @dispatch p _ _ hctl => exact slotStep_setProc (phaseOf_congr hctl _ _)
  | @preempt p _ hintr =>
    refine slotStep_setProc (phaseOf_congr (fun chan lk next hctl => ?_) _ _)
    simp [hctl, Machine.intrOn] at hintr
  | @exit p _ hctl =>
    refine slotStep_setProc (phaseOf_congr (fun chan lk next hc => ?_) _ _)
    simp [hctl] at hc
  | @reap p hst | @fork p pid name hst =>
    refine slotStep_setProc (phaseOf_congr (fun chan lk next hctl => ?_) _ _)
    have hproc := hwf.procOk p
    simp [hctl, ProcOk, hst] at hproc
  | tick => exact stutter
  | @wakeupEnd p chan one next i _ hctl hi =>
    have hstands := of_wf hwf p
    rw [hctl] at hstands
    cases hstands with
    | signalWake o i => exact slotStep_signalEnd hctl hi
    | closeWake o i => exact slotStep_closeEnd hctl hi
  | @wakeupSkip p chan one next i hrun hctl hi hskip =>
    have hstands := of_wf hwf p
    rw [hctl] at hstands
    cases hstands with
    | signalWake o i => exact slotStep_signalSkip hwf hrun hctl hi hskip
    | closeWake o i => exact slotStep_closeSkip hwf hrun hctl hi hskip
  | @wakeupHit p q chan one next _ hctl hne _ hsleep =>
    have hstands := of_wf hwf p
    rw [hctl] at hstands
    generalize hq : q.val = i at hstands
    cases hstands with
    | signalWake o i => exact slotStep_signalHit hwf hctl hne hsleep
    | closeWake o i =>
      subst hq
      exact slotStep_closeHit hwf hctl hne hsleep
  | @kkillSkip p pid found notFound i _ hctl hi _ hpid =>
    refine slotStep_silent (s := m.shared) ?_ rfl (by simp [hctl])
    simp [hctl, roundEvent, hi, hpid]
  | @kkillEnd p pid found notFound i _ hctl hi =>
    have hstands := of_wf hwf p
    rw [hctl] at hstands
    cases hstands with
    | kkillAt pid i =>
    refine slotStep_silent (s := m.shared) ?_ rfl (by simp [hctl])
    simp [hctl, roundEvent, not_lt.mpr hi]
  | @kkillHit p q found notFound hrun hctl _ =>
    have hstands := of_wf hwf p
    rw [hctl] at hstands
    generalize hi : q.val = i at hstands
    generalize hpid : (m.proc q).pid = pid at hstands
    cases hstands with
    | kkillAt pid i =>
    subst hi hpid
    exact slotStep_kkillHit hwf hrun hctl

end Simulation

/-! ## Reachable states -/

theorem wf_boot : Wf code boot :=
  ⟨fun p => by simp [boot, ProcOk, Proc.free, code], fun _ => trivial⟩

theorem locking_boot (id : SemId) : Locking (view id boot) where
  lock _ := ⟨nofun, nofun⟩
  table _ := ⟨nofun, nofun⟩
  active _ _ h := nomatch h

theorem wf_and_locking_of_reach (id : SemId) {m : State} {ok : Transition.Guard State (Act Label)}
    (h : Transition.Reach step ok boot m) : Wf code m ∧ Locking (view id m) := by
  refine h.invariant (I := fun m => Wf code m ∧ Locking (view id m)) ⟨wf_boot, locking_boot id⟩ ?_
  rintro m a m' ⟨hwf, hl⟩ - hs
  exact ⟨hwf.stepCase (.of_step hs), hl.step (slotStep_of_step hwf hs)⟩

end Xv6.Semaphore

import Xv6.Proc.LifecycleMoves

/-!
# Control points, states and locks

`Wf` ties the control points of the processes to the process states, to `wait_lock` and to the
embryos of `kfork`.
-/

namespace Xv6.Life

open Thread Transition Mutex State Ctl

variable {m m' : State} {a : Act}

/-- The states and the control points belong together, `wait_lock` is where the control points say,
and the embryos are the `USED` entries that some `kfork` works on. -/
structure Wf (m : State) : Prop where
  lock : Held m.waitLock Ctl.holdsWait m.ctl
  fine : ∀ q, Fine (m.proc q) (m.ctl q)
  embryo : ∀ p np, (m.ctl p).embryo = some np → (m.proc np).state = .used
  alone : ∀ p q np, (m.ctl p).embryo = some np → (m.ctl q).embryo = some np → p = q
  init : (m.proc initproc).state ≠ .unused ∧ (m.ctl initproc).exiting = false

namespace Wf

theorem of_index {P : Slot → Prop} {q : Slot} (h : P q) : ∀ t : Slot, (t : ℕ) = q → P t := by
  intro t ht
  obtain rfl := Fin.ext ht
  exact h

theorem awake_wake {p q : Slot} {ch : Option Chan} {c : Ctl} (hl : (m.proc q).locked = false) :
    Awake ch (((m.wake ch q).goto p c).proc q) := by
  rw [goto_proc, wake_proc]
  split_ifs with hs
  · exact ⟨hl, by simp⟩
  · exact ⟨hl, fun hs' => hs ⟨rfl, hs'⟩⟩

theorem goes (h : Wf m) {p : Slot} {c c' : Ctl} (hc : m.ctl p = c)
    (hrun : (m.proc p).state = .running ∨ c.leaving = true) (hn : Next m m' a p c c') (q : Slot) :
    Goes m m' a q (m.proc q) (m.ctl q) ((m.goto p c').ctl q) := by
  rw [goto_ctl]
  split_ifs with hq
  · subst hq hc
    exact .inr ⟨hn, hn.fits (h.fine q).fits hrun⟩
  · exact .inl rfl

attribute [local simp] setProc_proc goto_ctl

theorem touch {p t : Slot} {c : Ctl} {r : Proc}
    (hgo : ∀ q, q ≠ t → Goes m m' a q (m.proc q) (m.ctl q) ((m.goto p c).ctl q))
    (hm : Move m m' a t (m.proc t) (m.ctl t) (m.blamed t) r ((m.goto p c).ctl t) (m.blamed t)) (q : Slot) :
    Move m m' a q (m.proc q) (m.ctl q) (m.blamed q) (((m.setProc t r).goto p c).proc q)
      (((m.setProc t r).goto p c).ctl q) (m.blamed q) := by
  by_cases hq : q = t
  · subst hq
    simpa using hm
  · simpa [hq] using Move.goes (hgo q hq)

theorem own {p : Slot} {c : Ctl} {r : Proc}
    (hm : Move m m' a p (m.proc p) (m.ctl p) (m.blamed p) r c (m.blamed p)) (q : Slot) :
    Move m m' a q (m.proc q) (m.ctl q) (m.blamed q) (((m.setProc p r).goto p c).proc q)
      (((m.setProc p r).goto p c).ctl q) (m.blamed q) :=
  touch (fun q hq => .inl (by simp [hq])) (by simpa using hm) q

theorem alter {p : Slot} {r : Proc}
    (hm : Move m m' a p (m.proc p) (m.ctl p) (m.blamed p) r (m.ctl p) (m.blamed p)) (q : Slot) :
    Move m m' a q (m.proc q) (m.ctl q) (m.blamed q) ((m.setProc p r).proc q) (m.ctl q) (m.blamed q) := by
  by_cases hq : q = p
  · subst hq
    simpa using hm
  · simpa [hq] using Move.goes (.inl rfl)

theorem wake_move {p t : Slot} {c : Ctl} {ch : Option Chan}
    (hgo : ∀ q, Goes m m' a q (m.proc q) (m.ctl q) ((m.goto p c).ctl q)) (hne : t ≠ p) (q : Slot) :
    Move m m' a q (m.proc q) (m.ctl q) (m.blamed q) (((m.wake ch t).goto p c).proc q)
      (((m.wake ch t).goto p c).ctl q) (((m.wake ch t).goto p c).blamed q) := by
  unfold wake
  split_ifs with hs
  · refine touch (fun q _ => hgo q) ?_ q
    simpa [hne] using Move.woken hs.1
  · exact .goes (hgo q)

theorem ne_of_state {p q : Slot} {s t : ProcState} (hp : (m.proc p).state = s)
    (hq : (m.proc q).state = t) (hst : s ≠ t) : q ≠ p := by
  rintro rfl
  exact hst (hp.symm.trans hq)

theorem move (h : Wf m) (hc : StepCase m a m') (q : Slot) :
    Move m m' a q (m.proc q) (m.ctl q) (m.blamed q) (m'.proc q) (m'.ctl q) (m'.blamed q) := by
  cases hc
  case ret hrun hc => exact .goes (h.goes hc (.inl hrun) .ret q)
  case forkSkip hrun hc _ => exact .goes (h.goes hc (.inl hrun) .forkScan q)
  case forkNone hrun hc => exact .goes (h.goes hc (.inl hrun) .forkFail q)
  case forkFound p np e hrun hc hs hl =>
    have hne := ne_of_state hrun hs (by decide)
    by_cases hq : q = np
    · subst hq
      have hr : ((m.setProc q ((m.proc q).copied (m.proc p) m.nextpid e.trapframe
          e.pagetable)).proc q) = (m.proc q).copied (m.proc p) m.nextpid e.trapframe e.pagetable :=
        by simp
      refine .of_alloc hs hl ⟨p, m.nextpid, ?_⟩ hr ?_ ?_
      · simp
      · simp [hne]
      · simp
    refine .of_goes (h.goes hc (.inl hrun) (.forkFound np m.nextpid) q) ?_ ?_ ?_
    · simp [hq]
    · simp [hq]
    · simp [hq]
  case forkFail p np e hrun hc hs hl =>
    have hne := ne_of_state hrun hs (by decide)
    exact touch (fun q _ => h.goes hc (.inl hrun) .forkFail q)
      (by simpa [hne] using Move.allocFail hs) q
  case forkParent p np e pid hrun hc hw =>
    have hp : (((m.setProc np { m.proc np with parent := some p }).goto p
        (.forkRun np pid)).proc np).parent = some p := by simp
    exact touch (fun q _ => h.goes hc (.inl hrun) (.forkParent hp) q)
      (.parent (.adopted (h.embryo p np (by rw [hc]; rfl)) hw hc (by simp))
        (h.goes hc (.inl hrun) (.forkParent hp) np)) q
  case forkRun p np e pid hrun hc _ =>
    have hs := h.embryo p np (by rw [hc]; rfl)
    have hne := ne_of_state hrun hs (by decide)
    exact touch (fun q _ => h.goes hc (.inl hrun) .forkRun q) (by simpa [hne] using Move.start hs) q
  case exitFiles hrun hc => exact own (hc ▸ .files) q
  case exitWait hrun hc _ => exact .goes (h.goes hc (.inl hrun) .exitWait q)
  case reparent p pp e status hrun hc hp =>
    have hinit : ∀ t : Slot, (t : ℕ) = pp →
        (((m.setProc pp { m.proc pp with parent := some initproc }).goto p
          (.exitReparentWake status pp 0)).proc t).parent = some initproc := of_index (by simp)
    exact touch (fun q _ => h.goes hc (.inl hrun) (.reparent hinit) q)
      (.parent (.orphaned rfl hp hc (by simp)) (h.goes hc (.inl hrun) (.reparent hinit) pp)) q
  case reparentSkip hrun hc hp =>
    exact .goes (h.goes hc (.inl hrun) (.reparentSkip (of_index hp)) q)
  case reparentEnd hrun hc hi => exact .goes (h.goes hc (.inl hrun) (.reparentEnd hi) q)
  case reparentWake hrun hc hne hl =>
    exact wake_move (h.goes hc (.inl hrun) (.reparentWake (of_index fun _ => awake_wake hl))) hne q
  case reparentWakeSelf hrun hc =>
    exact .goes (h.goes hc (.inl hrun) (.reparentWake (of_index fun hne => absurd rfl hne)) q)
  case reparentWakeEnd hrun hc hj => exact .goes (h.goes hc (.inl hrun) (.reparentWakeEnd hj) q)
  case exitWake hrun hc hne hl =>
    exact wake_move (h.goes hc (.inl hrun) (.exitWake (of_index fun _ => awake_wake hl))) hne q
  case exitWakeSelf hrun hc =>
    exact .goes (h.goes hc (.inl hrun) (.exitWake (of_index fun hne => absurd rfl hne)) q)
  case exitWakeEnd hrun hc hj => exact .goes (h.goes hc (.inl hrun) (.exitWakeEnd hj) q)
  case exitZombie hrun hc => exact own (hc ▸ .zombie) q
  case exitUnlock hc _ => exact .goes (h.goes hc (.inr rfl) .exitUnlock q)
  case exitSched hc => exact own (hc ▸ .switched) q
  case waitEnter hrun hc _ =>
    obtain hc | hc := hc
    · exact .goes (h.goes hc (.inl hrun) .waitEnter q)
    · exact .goes (h.goes hc (.inl hrun) .waitReturn q)
  case waitSkip hrun hc hp =>
    exact .goes (h.goes hc (.inl hrun) (.waitScan (of_index fun hp' => absurd hp' hp)) q)
  case waitAlive hrun hc _ hz =>
    exact .goes (h.goes hc (.inl hrun) (.waitScan (of_index fun _ => hz)) q)
  case waitFault hrun hc _ _ _ => exact .goes (h.goes hc (.inl hrun) .waitFound q)
  case waitReap p pp e addr havekids hrun hc hp hz hl _ =>
    have hne := ne_of_state hrun hz (by decide)
    refine touch (fun q _ => h.goes hc (.inl hrun) .waitFound q) ?_ q
    rw [goto_ctl, if_neg hne]
    exact .reaped hz hl ⟨p, e, addr, havekids, rfl, hp, hc, by simp⟩
  case waitScanEnd hrun hc hi => exact .goes (h.goes hc (.inl hrun) (.waitScanEnd hi) q)
  case waitFail hrun hc => exact .goes (h.goes hc (.inl hrun) .waitFail q)
  case waitSleep hrun hc => exact .goes (h.goes hc (.inl hrun) .waitSleep q)
  case sleepLock hrun hc => exact own (hc ▸ .sleepLock) q
  case sleepRelease hrun hc _ => exact .goes (h.goes hc (.inl hrun) .sleepRelease q)
  case sleepSwitch hrun hc => exact own (hc ▸ .asleep) q
  case waitUnlock hrun hc _ => exact .goes (h.goes hc (.inl hrun) .waitUnlock q)
  case kkillHit p t e hrun hc =>
    by_cases hq : q = t
    · subst hq
      refine .of_kill ⟨p, q, hc⟩ (h.goes hc (.inl hrun) .kkillHit q) ?_ rfl ?_
      · simp
      · simp
    · refine .of_goes (h.goes hc (.inl hrun) .kkillHit q) ?_ rfl ?_
      · simp [hq]
      · simp [hq]
  case kkillSkip hrun hc => exact .goes (h.goes hc (.inl hrun) .kkillSkip q)
  case kkillNone hrun hc => exact .goes (h.goes hc (.inl hrun) .kkillHit q)
  case call hrun hc hinit => exact .goes (h.goes hc (.inl hrun) (.call rfl hinit) q)
  case kexec hrun hc => exact alter (hc ▸ .kexec hrun) q
  case fault p hrun hc =>
    by_cases hq : q = p
    · subst hq
      simpa [hc] using Move.fault hrun
    · simpa [hq] using Move.goes (.inl rfl)
  case sleepOther hrun hc => exact own (hc ▸ .sleepOther hrun) q
  case wakeOther hs => exact alter (.woken hs) q
  case dispatch hs _ => exact own (.dispatch hs) q
  case yield hrun hl hw => exact alter (.yield hrun hl hw) q

theorem lock_step (h : Wf m) (hc : StepCase m a m') : Held m'.waitLock holdsWait m'.ctl := by
  have hl := h.lock
  cases hc
  case forkFound p np e hrun hc hs _ =>
    -- the child's control point is reset too; it was idle before
    have hne := ne_of_state hrun hs (by decide)
    refine Held.stay (hl.stay ?_) ?_
    · exact (holdsWait_of_unused (hs ▸ (h.fine np).fits)).symm
    · rw [Function.update_of_ne hne.symm]
      exact (congrArg holdsWait hc).symm
  case exitWait hw => exact hl.acquire hw rfl
  case waitEnter hw => exact hl.acquire hw rfl
  case exitUnlock hw => exact hl.release hw rfl
  case sleepRelease hw => exact hl.release hw rfl
  case waitUnlock hw => exact hl.release hw rfl
  case kexec => exact hl
  case fault => exact hl
  case wakeOther => exact hl
  case yield => exact hl
  case reparentWake hc _ _ =>
    rw [goto_waitLock, wake_waitLock]
    exact Held.stay (by rwa [wake_ctl]) (by rw [wake_ctl, hc]; rfl)
  case exitWake hc _ _ =>
    rw [goto_waitLock, wake_waitLock]
    exact Held.stay (by rwa [wake_ctl]) (by rw [wake_ctl, hc]; rfl)
  case call hc _ => exact hl.stay (by rw [hc]; exact Call.holdsWait_entry _)
  case dispatch => exact hl.stay (by simp)
  all_goals exact hl.stay (by simp [*, holdsWait])

theorem embryo_of_goto {p q np : Slot} {c c' : Ctl}
    (hq : ((m.goto p c').ctl q).embryo = some np) (hc : m.ctl p = c) (he : c'.embryo = c.embryo) :
    (m.ctl q).embryo = some np := by
  rw [goto_ctl] at hq
  split_ifs at hq with hqp
  · rwa [hqp, hc, ← he]
  · exact hq

/-- **The embryos of a step**: `kfork` takes up an `UNUSED` entry or lets go of the one it has, and
otherwise they stay. -/
theorem embryo_cases (hc : StepCase m a m') :
    (∀ q np, (m'.ctl q).embryo = some np → (m.ctl q).embryo = some np) ∨
      ∃ p np, (m.proc np).state = .unused ∧ (m'.proc np).state = .used ∧
        ∀ q np', (m'.ctl q).embryo = some np' → q = p ∧ np' = np ∨ (m.ctl q).embryo = some np' := by
  cases hc
  case forkFound p np e hrun hc hs _ =>
    refine .inr ⟨p, np, hs, ?_, ?_⟩
    · simp [State.setProc_proc, Proc.copied]
    intro q np' hq
    simp only [State.goto_ctl, State.setProc_ctl] at hq
    split_ifs at hq with hqp hqn
    · exact .inl ⟨hqp, (Option.some.inj hq).symm⟩
    · simp [Ctl.embryo] at hq
    · exact .inr hq
  case forkRun p np e pid _ hc _ =>
    refine .inl fun q np' hq => ?_
    simp only [State.goto_ctl, State.setProc_ctl] at hq
    split_ifs at hq
    · simp [Ctl.embryo] at hq
    · exact hq
  case waitEnter hc _ =>
    obtain hc | hc := hc
    all_goals exact .inl fun q np hq => embryo_of_goto hq hc rfl
  case reparentWake hc _ _ =>
    refine .inl fun q np hq => ?_
    have hq' := embryo_of_goto hq ((congrFun (State.wake_ctl ..) _).trans hc) rfl
    rwa [State.wake_ctl] at hq'
  case exitWake hc _ _ =>
    refine .inl fun q np hq => ?_
    have hq' := embryo_of_goto hq ((congrFun (State.wake_ctl ..) _).trans hc) rfl
    rwa [State.wake_ctl] at hq'
  case call hc _ => exact .inl fun q np hq => embryo_of_goto hq hc (Call.embryo_entry _)
  case dispatch => exact .inl fun q np hq => embryo_of_goto hq rfl (Ctl.embryo_resume _)
  case kexec => exact .inl fun _ _ hq => hq
  case fault => exact .inl fun _ _ hq => hq
  case wakeOther => exact .inl fun _ _ hq => hq
  case yield => exact .inl fun _ _ hq => hq
  all_goals exact .inl fun q np hq => embryo_of_goto hq (by assumption) (by rfl)

theorem alone_step (h : Wf m) (hc : StepCase m a m') (p q np : Slot)
    (hp : (m'.ctl p).embryo = some np) (hq : (m'.ctl q).embryo = some np) : p = q := by
  obtain hsame | ⟨p1, np1, hs, -, hnew⟩ := embryo_cases hc
  · exact h.alone p q np (hsame p np hp) (hsame q np hq)
  have hfresh : ∀ q, (m.ctl q).embryo ≠ some np1 := by
    intro q hq
    simp [h.embryo q np1 hq] at hs
  obtain ⟨rfl, rfl⟩ | hp := hnew p np hp
  · obtain ⟨rfl, -⟩ | hq := hnew q np hq
    · rfl
    · exact absurd hq (hfresh q)
  · obtain ⟨rfl, rfl⟩ | hq := hnew q np hq
    · exact absurd hp (hfresh p)
    · exact h.alone p q np hp hq

theorem used_setProc {np t : Slot} {r : Proc} (hs : (m.proc np).state = .used)
    (hr : (m.proc t).state = .used → r.state = .used) :
    ((m.setProc t r).proc np).state = .used := by
  rw [setProc_proc]
  split_ifs with ht
  · exact hr (ht ▸ hs)
  · exact hs

theorem used_step (hc : StepCase m a m') {np : Slot} (hs : (m.proc np).state = .used) :
    (m'.proc np).state = .used ∨ ∃ p, (m.ctl p).embryo = some np ∧ (m'.ctl p).embryo = none := by
  cases hc
  case forkRun p np' e pid _ hc _ =>
    by_cases hnp : np = np'
    · subst hnp
      exact .inr ⟨p, by rw [hc]; rfl, by simp [State.goto_ctl, Ctl.embryo]⟩
    · simp [State.setProc_proc, hnp, hs]
  case forkFound hs' _ => exact .inl (used_setProc hs (by simp [hs']))
  case forkFail hs' _ => exact .inl (used_setProc hs (by simp [hs']))
  case exitZombie hrun _ => exact .inl (used_setProc hs (by simp [hrun]))
  case sleepSwitch hrun _ => exact .inl (used_setProc hs (by simp [hrun]))
  case waitReap hz _ _ => exact .inl (used_setProc hs (by simp [hz]))
  case kkillHit => exact .inl (used_setProc hs (fun hu => (if_neg (by rw [hu]; decide)).trans hu))
  case sleepOther hrun _ => exact .inl (used_setProc hs (by simp [hrun]))
  case wakeOther hs' => exact .inl (used_setProc hs (by simp [hs']))
  case dispatch hs' _ => exact .inl (used_setProc hs (by simp [hs']))
  case yield hrun _ _ => exact .inl (used_setProc hs (by simp [hrun]))
  case reparentWake => 
    refine .inl ?_
    rw [State.goto_proc, State.wake_proc]
    split_ifs with hw
    · simp_all
    · exact hs
  case exitWake =>
    refine .inl ?_
    rw [State.goto_proc, State.wake_proc]
    split_ifs with hw
    · simp_all
    · exact hs
  all_goals first | exact .inl hs | exact .inl (used_setProc hs id)

theorem embryo_step (h : Wf m) (hc : StepCase m a m') (p np : Slot)
    (hp : (m'.ctl p).embryo = some np) : (m'.proc np).state = .used := by
  have hkept : (m.ctl p).embryo = some np → (m'.proc np).state = .used := by
    intro hold
    obtain hs | ⟨q, hq, hq'⟩ := used_step hc (h.embryo p np hold)
    · exact hs
    · obtain rfl := h.alone p q np hold hq
      simp [hp] at hq'
  obtain hsame | ⟨p1, np1, -, hs, hnew⟩ := embryo_cases hc
  · exact hkept (hsame p np hp)
  · obtain ⟨rfl, rfl⟩ | hold := hnew p np hp
    · exact hs
    · exact hkept hold

theorem init_fits (h : Wf m) : (m.proc initproc).state ≠ .zombie := by
  intro hz
  have hfits := (h.fine initproc).fits
  have he := h.init.2
  rw [hz] at hfits
  cases hc : m.ctl initproc <;> simp_all [fits, exiting]

theorem step (h : Wf m) (hc : StepCase m a m') : Wf m' where
  lock := h.lock_step hc
  fine q := (h.fine q).move (h.move hc q)
  embryo := h.embryo_step hc
  alone := h.alone_step hc
  init := (h.move hc initproc).init h.init (h.fine initproc).fits

theorem boot : Wf boot where
  lock _ := ⟨(by rintro ⟨⟩), (by rintro ⟨⟩)⟩
  fine q := by
    by_cases hq : q = initproc
    · simp only [Life.boot, hq, if_true]
      exact ⟨rfl, rfl, (by rintro ⟨⟩)⟩
    · simp only [Life.boot, hq, if_false]
      exact ⟨rfl, rfl, (by rintro ⟨⟩)⟩
  embryo := (by rintro p np ⟨⟩)
  alone := (by rintro p q np ⟨⟩)
  init := ⟨(by rintro ⟨⟩), rfl⟩

end Wf

end Xv6.Life

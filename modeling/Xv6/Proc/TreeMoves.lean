import Xv6.Proc.LifecycleInv

/-!
# Parents, children and sleepers under one step

What a step can change of the facts that the process tree rests on: how far `reparent`, the scan of
`kwait` and the two `wakeup`s of `kexit` have come, who is asleep in `kwait`, who is a zombie, and
who is whose parent.
-/

namespace Xv6.Life

open Thread Transition Mutex Proc Ctl

def Ctl.passed : Ctl → Slot → Prop
  | .exitReparent _ i, q => q < i
  | .exitReparentWake _ i _, q => q ≤ i
  | .exitWake .., _ | .exitZombie _, _ => True
  | _, _ => False

def Ctl.told : Ctl → Slot → Prop
  | .exitWake _ _ j, r => r < j
  | .exitZombie _, _ => True
  | _, _ => False

/-- The entries at which the scan of `kwait` has found no zombie child. -/
def Ctl.saw : Ctl → Slot → Prop
  | .waitScan _ i _, q => q < i
  | .waitEnd .., _ | .waitSleep _, _ | .waitSleepLocked _, _ => True
  | _, _ => False

def Asleep (r : Proc) : Ctl → Prop
  | .waitSleepReleased _ => True
  | .waitSched _ => r.state = .sleeping
  | _ => False

def Proc.Alive (r : Proc) : Prop :=
  r.state ≠ .unused ∧ r.state ≠ .zombie

section Local

variable {m m' : State} {a : Act} {q t : Slot} {r r' : Proc} {c c' : Ctl} {b b' : Bool}

theorem Ctl.holdsWait_of_passed (h : c.passed q) : c.holdsWait = true := by
  cases c <;> first | rfl | exact h.elim

theorem Ctl.exiting_of_passed (h : c.passed q) : c.exiting = true := by
  cases c <;> first | rfl | exact h.elim

theorem Ctl.holdsWait_of_told (h : c.told q) : c.holdsWait = true := by
  cases c <;> first | rfl | exact h.elim

theorem Ctl.holdsWait_of_saw (h : c.saw q) : c.holdsWait = true := by
  cases c <;> first | rfl | exact h.elim

variable (h : Next m m' a q c c')

include h

theorem Next.passed (hp : c'.passed t) :
    c.passed t ∨ (m.proc t).parent ≠ some q ∨ (m'.proc t).parent = some initproc := by
  cases h
  case exitWait => exact absurd hp (Nat.not_lt_zero _)
  case reparent i hi =>
    obtain hlt | heq := Nat.lt_or_eq_of_le hp
    · exact .inl hlt
    · exact .inr (.inr (hi t heq))
  case reparentSkip i hi =>
    obtain hlt | heq := Nat.lt_or_eq_of_le (Nat.le_of_lt_succ hp)
    · exact .inl hlt
    · exact .inr (.inl (hi t heq))
  case reparentEnd hi => exact .inl (lt_of_lt_of_le t.isLt hi)
  case reparentWake => exact .inl hp
  case reparentWakeEnd => exact .inl (Nat.le_of_lt_succ hp)
  case exitWake => exact .inl trivial
  case exitWakeEnd => exact .inl trivial
  case call k _ _ => cases k <;> exact hp.elim
  all_goals exact hp.elim

theorem Next.told (hp : c'.told t) : c.told t ∨ ∃ status x, c = .exitWake status x t ∧
      (t ≠ q → Awake (x.map .proc) (m'.proc t)) := by
  cases h
  case reparentEnd => exact absurd hp (Nat.not_lt_zero _)
  case exitWake status x j hw =>
    obtain hlt | heq := Nat.lt_or_eq_of_le (Nat.le_of_lt_succ hp)
    · exact .inl hlt
    · exact .inr ⟨status, x, by rw [heq], hw t heq⟩
  case exitWakeEnd hj => exact .inl (lt_of_lt_of_le t.isLt hj)
  case call k _ _ => cases k <;> exact hp.elim
  all_goals exact hp.elim

theorem Next.saw (hp : c'.saw t) : c.holdsWait = true ∧
      (c.saw t ∨ ((m.proc t).parent = some q → (m.proc t).state ≠ .zombie)) := by
  cases h
  case waitEnter => exact absurd hp (Nat.not_lt_zero _)
  case waitReturn => exact absurd hp (Nat.not_lt_zero _)
  case waitScan i hz =>
    obtain hlt | heq := Nat.lt_or_eq_of_le (Nat.le_of_lt_succ hp)
    · exact ⟨rfl, .inl hlt⟩
    · exact ⟨rfl, .inr (hz t heq)⟩
  case waitScanEnd hi => exact ⟨rfl, .inl (lt_of_lt_of_le t.isLt hi)⟩
  case waitSleep => exact ⟨rfl, .inl trivial⟩
  case call k _ _ => cases k <;> exact hp.elim
  all_goals exact hp.elim

theorem Next.asleep (hs : Asleep r c') : ∃ addr, c = .waitSleepLocked addr := by
  cases h
  case sleepRelease addr => exact ⟨addr, rfl⟩
  case call k _ _ => cases k <;> exact hs.elim
  all_goals exact hs.elim

omit h

theorem Asleep.mono (h : Asleep r' c) (hs : r'.state = .sleeping → r.state = .sleeping) :
    Asleep r c := by
  cases c <;> first | exact h.elim | exact trivial | exact hs h

theorem Goes.asleep (h : Goes m m' a q r c c') (hs : Asleep r' c') :
    Asleep r' c ∨ ∃ addr, c = .waitSleepLocked addr := by
  obtain rfl | ⟨hn, -⟩ := h
  · exact .inl hs
  · exact .inr (hn.asleep hs)

theorem Proc.kill_state_ne (r : Proc) : r.kill.state ≠ .sleeping := by
  unfold kill
  split_ifs with hs
  · simp
  · exact hs

theorem Proc.kill_state_eq {s : ProcState} (h : r.kill.state = s) (hs : s ≠ .runnable) :
    r.state = s := by
  unfold kill at h
  split_ifs at h
  · exact absurd h.symm hs
  · exact h

theorem Goes.forkParent {np : Slot} {pid : ℤ} (h : Goes m m' a q r (.forkParent np pid) c') :
    c' = .forkParent np pid ∨ (m'.proc np).parent = some q := by
  obtain rfl | ⟨hn, -⟩ := h
  · exact .inl rfl
  · cases hn with
    | forkParent hp => exact .inr hp

theorem Asleep.not_awake (h : Asleep r c) (hfine : Fine r c)
    (hchan : ∀ addr, c = .waitSched addr → r.state = .sleeping → r.chan = some (.proc q)) :
    ¬ Awake (some (.proc q)) r := by
  rintro ⟨hl, hs⟩
  have hown := hfine.locked
  cases c with
  | waitSleepReleased addr => simp [hl, holdsOwn] at hown
  | waitSched addr => exact hs ⟨h, hchan addr rfl h⟩
  | _ => exact h.elim

@[simp]
theorem Proc.parent_dispatched : (r.dispatched c).parent = r.parent := by
  cases c <;> rfl

variable (hm : Move m m' a q r c b r' c' b')

include hm

theorem Move.ctl :
    Goes m m' a q r c c' ∨ c'.holdsWait = false ∨ (∃ status, c' = .exitUnlock status) ∨
      ∃ addr, c = .waitSleep addr ∧ c' = .waitSleepLocked addr := by
  cases hm with
  | goes hg => exact .inl hg
  | parent _ hg => exact .inl hg
  | kill _ hg => exact .inl hg
  | zombie => exact .inr (.inr (.inl ⟨_, rfl⟩))
  | sleepLock => exact .inr (.inr (.inr ⟨_, rfl, rfl⟩))
  | dispatch _ => cases c <;> first | exact .inl (.inl rfl) | exact .inr (.inl rfl)
  | yield _ _ _ => exact .inl (.inl rfl)
  | woken _ => exact .inl (.inl rfl)
  | allocFail _ => exact .inl (.inl rfl)
  | start _ => exact .inl (.inl rfl)
  | reaped _ _ _ => exact .inl (.inl rfl)
  | _ => exact .inr (.inl rfl)

theorem Move.passed (hp : c'.passed t) :
    c.passed t ∨ (m.proc t).parent ≠ some q ∨ (m'.proc t).parent = some initproc := by
  obtain hg | hw | ⟨status, rfl⟩ | ⟨addr, rfl, rfl⟩ := hm.ctl
  · obtain rfl | ⟨hn, -⟩ := hg
    · exact .inl hp
    · exact hn.passed hp
  · simp [holdsWait_of_passed hp] at hw
  · exact hp.elim
  · exact hp.elim

theorem Move.told (hp : c'.told t) : c.told t ∨ ∃ status x, c = .exitWake status x t ∧
      (t ≠ q → Awake (x.map .proc) (m'.proc t)) := by
  obtain hg | hw | ⟨status, rfl⟩ | ⟨addr, rfl, rfl⟩ := hm.ctl
  · obtain rfl | ⟨hn, -⟩ := hg
    · exact .inl hp
    · exact hn.told hp
  · simp [holdsWait_of_told hp] at hw
  · exact hp.elim
  · exact hp.elim

theorem Move.saw (hp : c'.saw t) : c.holdsWait = true ∧
      (c.saw t ∨ ((m.proc t).parent = some q → (m.proc t).state ≠ .zombie)) := by
  obtain hg | hw | ⟨status, rfl⟩ | ⟨addr, rfl, rfl⟩ := hm.ctl
  · obtain rfl | ⟨hn, -⟩ := hg
    · exact ⟨holdsWait_of_saw hp, .inl hp⟩
    · exact hn.saw hp
  · simp [holdsWait_of_saw hp] at hw
  · exact hp.elim
  · exact ⟨rfl, .inl trivial⟩

theorem Move.of_asleep (hs : Asleep r' c') : Asleep r c ∨ ∃ addr, c = .waitSleepLocked addr := by
  cases hm with
  | goes hg => exact hg.asleep hs
  | parent _ hg => exact hg.asleep (hs.mono id)
  | kill _ hg => exact hg.asleep (hs.mono fun h => absurd h r.kill_state_ne)
  | asleep => exact .inl trivial
  | dispatch _ => cases c <;> first | exact hs.elim | exact .inl trivial
  | yield _ _ _ => exact .inl (hs.mono (by simp))
  | woken _ => exact .inl (hs.mono (by simp))
  | start _ => exact .inl (hs.mono (by simp))
  | allocFail _ => exact .inl (hs.mono (by simp [freeproc]))
  | reaped _ _ _ => exact .inl (hs.mono (by simp [freeproc]))
  | _ => exact hs.elim

theorem Move.of_zombie (hz : r'.state = .zombie) :
    r.state = .zombie ∨ (∃ status, c = .exitZombie status) ∧ r'.parent = r.parent := by
  cases hm with
  | kill _ _ => exact .inl (kill_state_eq hz (by decide))
  | zombie => exact .inr ⟨⟨_, rfl⟩, rfl⟩
  | dispatch _ => simp at hz
  | asleep => cases hz
  | sleepOther _ => cases hz
  | yield _ _ _ => cases hz
  | woken _ => cases hz
  | alloc _ _ _ => cases hz
  | allocFail _ => cases hz
  | start _ => cases hz
  | reaped _ _ _ => cases hz
  | _ => exact .inl hz

theorem Move.alive (h : r.Alive) : r'.Alive ∨ ∃ status, c = .exitZombie status := by
  obtain ⟨hu, hz⟩ := h
  cases hm with
  | kill _ _ =>
    exact .inl ⟨fun h => hu (kill_state_eq h (by decide)),
      fun h => hz (kill_state_eq h (by decide))⟩
  | zombie => exact .inr ⟨_, rfl⟩
  | reaped hs _ _ => exact absurd hs hz
  | alloc hs _ _ => exact absurd hs hu
  | allocFail hs => exact absurd hs hu
  | dispatch _ => exact .inl ⟨by simp, by simp⟩
  | asleep => exact .inl ⟨by simp, by simp⟩
  | sleepOther _ => exact .inl ⟨by simp, by simp⟩
  | yield _ _ _ => exact .inl ⟨by simp, by simp⟩
  | woken _ => exact .inl ⟨by simp, by simp⟩
  | start _ => exact .inl ⟨by simp, by simp⟩
  | _ => exact .inl ⟨hu, hz⟩

theorem Move.of_parent (hp : r'.parent = some t) : r.parent = some t ∨ NewParent m m' q r t := by
  cases hm with
  | parent hs _ =>
    obtain rfl := Option.some.inj hp
    exact .inr hs
  | dispatch _ => exact .inl (by simpa using hp)
  | allocFail _ => cases hp
  | reaped _ _ _ => cases hp
  | _ => exact .inl hp

theorem Move.of_parent_none (hp : r'.parent = none) : r.parent = none ∨ r'.state = .unused := by
  cases hm with
  | parent _ _ => cases hp
  | dispatch _ => exact .inl (by simpa using hp)
  | allocFail _ => exact .inr rfl
  | reaped _ _ _ => exact .inr rfl
  | _ => exact .inl hp

theorem Move.orphan_of_unused
    (h : r.state = .unused → r.parent = none) (hu : r'.state = .unused) : r'.parent = none := by
  cases hm with
  | kill _ _ => exact h (kill_state_eq hu (by decide))
  | parent hs _ =>
    cases hs with
    | adopted hs _ _ _ => simp [hs] at hu
    | orphaned _ hp _ _ => simp [h hu] at hp
  | dispatch _ => simp at hu
  | allocFail _ => rfl
  | reaped _ _ _ => rfl
  | zombie => cases hu
  | asleep => cases hu
  | sleepOther _ => cases hu
  | yield _ _ _ => cases hu
  | woken _ => cases hu
  | alloc _ _ _ => cases hu
  | start _ => cases hu
  | _ => exact h hu

theorem Move.of_unused (hfine : Fine r c)
    (hu : r.state = .unused) (hu' : r'.state ≠ .unused) : ∃ p pid, m'.ctl p = .forkParent q pid := by
  have hfits := hfine.fits
  rw [hu] at hfits
  cases hm with
  | kill _ _ =>
    refine absurd ?_ hu'
    simp [Proc.kill, hu]
  | alloc _ _ hnew => exact hnew
  | goes _ => exact absurd hu hu'
  | parent _ _ => exact absurd hu hu'
  | allocFail _ => exact absurd rfl hu'
  | dispatch hs => simp [hu] at hs
  | yield hs _ _ => simp [hu] at hs
  | woken hs => simp [hu] at hs
  | start hs => simp [hu] at hs
  | reaped hs _ _ => simp [hu] at hs
  | kexec hs => simp [hu] at hs
  | fault hs => simp [hu] at hs
  | sleepOther hs => simp [hu] at hs
  | _ => simp [Ctl.fits] at hfits

theorem Move.forkParent {np : Slot} {pid : ℤ} (hc : c = .forkParent np pid) (hfine : Fine r c) :
    c' = .forkParent np pid ∨ (m'.proc np).parent = some q := by
  have hfits := hfine.fits
  cases hm with
  | goes hg => exact (hc ▸ hg).forkParent
  | parent _ hg => exact (hc ▸ hg).forkParent
  | kill _ hg => exact (hc ▸ hg).forkParent
  | dispatch _ => exact .inl (by rw [hc]; rfl)
  | alloc hs _ _ => simp [hc, hs, fits] at hfits
  | yield _ _ _ => exact .inl hc
  | woken _ => exact .inl hc
  | allocFail _ => exact .inl hc
  | start _ => exact .inl hc
  | reaped _ _ _ => exact .inl hc
  | _ => cases hc

theorem Move.chan
    (h : ∀ addr, c = .waitSched addr → r.state = .sleeping → r.chan = some (.proc q)) {addr : Bool}
    (hc : c' = .waitSched addr) (hs : r'.state = .sleeping) : r'.chan = some (.proc q) := by
  have hgo : Goes m m' a q r c c' → c = .waitSched addr := by
    rintro (rfl | ⟨hn, -⟩)
    · exact hc
    subst hc
    generalize hc : waitSched addr = c' at hn
    cases hn
    case call k _ _ => cases k <;> cases hc
    all_goals cases hc
  cases hm with
  | goes hg => exact h addr (hgo hg) hs
  | parent _ hg => exact h addr (hgo hg) hs
  | kill _ _ => exact absurd hs r.kill_state_ne
  | asleep => rfl
  | dispatch _ => simp at hs
  | yield _ _ _ => cases hs
  | woken _ => cases hs
  | start _ => cases hs
  | allocFail _ => cases hs
  | reaped _ _ _ => cases hs
  | _ => cases hc

theorem Move.exitWake {status : ℤ} {x : Option Slot} {j : ℕ} (hc : c' = .exitWake status x j) :
    (∃ j', c = .exitWake status x j') ∨
      ∃ i, c = .exitReparent status i ∧ x = (m.proc q).parent := by
  obtain hg | hw | ⟨status, rfl⟩ | ⟨addr, rfl, rfl⟩ := hm.ctl
  · obtain rfl | ⟨hn, -⟩ := hg
    · exact .inl ⟨j, hc⟩
    cases hn
    case exitWake =>
      cases hc
      exact .inl ⟨_, rfl⟩
    case reparentEnd =>
      cases hc
      exact .inr ⟨_, rfl, rfl⟩
    case call k _ _ => cases k <;> cases hc
    all_goals cases hc
  · simp [hc, holdsWait] at hw
  · cases hc
  · cases hc

theorem Move.reparentWake {status : ℤ} {i j : ℕ}
    (hfine : Fine r c) (hc : c = .exitReparentWake status i j) (hj : j < NPROC) :
    c' = .exitReparentWake status i j ∨ c' = .exitReparentWake status i (j + 1) ∧
      ∀ t : Slot, t = j → t ≠ q → Awake (some (.proc initproc)) (m'.proc t) := by
  have hfits := hfine.fits
  have hgo : Goes m m' a q r c c' → c' = .exitReparentWake status i j ∨
      c' = .exitReparentWake status i (j + 1) ∧
        ∀ t : Slot, t = j → t ≠ q → Awake (some (.proc initproc)) (m'.proc t) := by
    subst hc
    rintro (rfl | ⟨hn, -⟩)
    · exact .inl rfl
    · cases hn with
      | reparentWake hw => exact .inr ⟨rfl, hw⟩
      | reparentWakeEnd hj' => omega
  cases hm with
  | goes hg => exact hgo hg
  | parent _ hg => exact hgo hg
  | kill _ hg => exact hgo hg
  | dispatch hs => simp [hc, hs, fits] at hfits
  | alloc hs _ _ => simp [hc, hs, fits] at hfits
  | yield _ _ _ => exact .inl hc
  | woken _ => exact .inl hc
  | allocFail _ => exact .inl hc
  | start _ => exact .inl hc
  | reaped _ _ _ => exact .inl hc
  | _ => cases hc

end Local

end Xv6.Life

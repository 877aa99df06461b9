import Xv6.Foundations.Mutex
import Xv6.Proc.Steps

/-!
# Monitors

A spinlock that protects some shared data, and a channel on which processes sleep until the data
satisfies a condition.
-/

namespace Xv6.Thread.Machine

open Mutex Function Held Ctl

variable {L C σ ℓ : Type} [DecidableEq L] {code : Code L C σ ℓ} {m m' : Machine L C σ ℓ}

/-! ## Holding a lock -/

def holdsCtl (lk : L) (holds : ℓ → Bool) : Ctl L C ℓ → Bool
  | .run l => holds l
  | .sleepEnter _ _ next => holds next
  | .sleepLocked _ _ next => holds next
  | .sleepReleased _ k next => if k = lk then false else holds next
  | .sched _ k next => if k = lk then false else holds next
  | .sleepReturn k next => if k = lk then false else holds next
  | .wakeupAt _ _ _ next => holds next
  | .kkillAt _ _ found _ => holds found

/-- The code takes and releases `lk` where `holds` says so. -/
structure Guards (code : Code L C σ ℓ) (lk : L) (holds : ℓ → Bool) : Prop where
  exec : ∀ l f me s, code.instr l = .exec f → holds (f me s).2 = holds l
  acquire : ∀ l next, code.instr l = .acquire lk next → holds l = false ∧ holds next = true
  acquireOther : ∀ l k next, code.instr l = .acquire k next → k ≠ lk → holds next = holds l
  release : ∀ l next, code.instr l = .release lk next → holds l = true ∧ holds next = false
  releaseOther : ∀ l k next, code.instr l = .release k next → k ≠ lk → holds next = holds l
  sleep : ∀ l chan k next, code.instr l = .sleep chan k next →
    holds next = holds l ∧ (k = lk → holds l = true)
  wakeup : ∀ l chan next, code.instr l = .wakeup chan next → holds next = holds l
  wakeupOne : ∀ l chan next, code.instr l = .wakeupOne chan next → holds next = holds l
  kkill : ∀ l pid found notFound, code.instr l = .kkill pid found notFound →
    holds found = holds l ∧ holds notFound = holds l
  call : ∀ cur l, code.instr cur = .choose → code.entry cur l = true → holds l = holds cur

/-- The rules of `Guards` for the statement at `l`. -/
def GuardsAt (lk : L) (holds : ℓ → Bool) (l : ℓ) : Instr L C σ ℓ → Prop
  | .choose | .panic _ => True
  | .exec f => ∀ me s, holds (f me s).2 = holds l
  | .acquire k next =>
    (k = lk → holds l = false ∧ holds next = true) ∧ (k ≠ lk → holds next = holds l)
  | .release k next =>
    (k = lk → holds l = true ∧ holds next = false) ∧ (k ≠ lk → holds next = holds l)
  | .sleep _ k next => holds next = holds l ∧ (k = lk → holds l = true)
  | .wakeup _ next | .wakeupOne _ next => holds next = holds l
  | .kkill _ found notFound => holds found = holds l ∧ holds notFound = holds l

omit [DecidableEq L] in
theorem Guards.of_instr {lk : L} {holds : ℓ → Bool} (h : ∀ l, GuardsAt lk holds l (code.instr l))
    (hcall : ∀ cur l, code.instr cur = .choose → code.entry cur l = true → holds l = holds cur) :
    Guards code lk holds := by
  have hat {l i} (hi : code.instr l = i) : GuardsAt lk holds l i := hi ▸ h l
  exact ⟨fun _ _ me s hi => hat hi me s, fun _ _ hi => (hat hi).1 rfl, fun _ _ _ hi => (hat hi).2,
    fun _ _ hi => (hat hi).1 rfl, fun _ _ _ hi => (hat hi).2, fun _ _ _ _ hi => hat hi,
    fun _ _ _ hi => hat hi, fun _ _ _ hi => hat hi, fun _ _ _ _ hi => hat hi, hcall⟩

/-- Exactly the process that stands in a critical section holds the lock. -/
abbrev Exclusion (lk : L) (holds : ℓ → Bool) (m : Machine L C σ ℓ) : Prop :=
  Held (m.lock lk) (holdsCtl lk holds) m.ctl

variable {lk : L} {holds : ℓ → Bool}

theorem Exclusion.goto {p : Slot} {c : Ctl L C ℓ} (h : Exclusion lk holds m)
    (hc : holdsCtl lk holds c = holdsCtl lk holds (m.ctl p)) : Exclusion lk holds (m.goto p c) :=
  stay h hc

theorem Exclusion.step {a : Act ℓ} (hg : Guards code lk holds) (hwf : Wf code m)
    (h : Exclusion lk holds m) (hs : StepCase code m a m') : Exclusion lk holds m' := by
  cases hs with
  | @exec p l f hst hctl hinstr =>
    refine Exclusion.goto (m := { m with shared := _ }) h ?_
    simp only [hctl, holdsCtl, hg.exec _ _ _ _ hinstr]
  | @acquire p l k next hst hctl hinstr hfree =>
    by_cases hk : k = lk
    · subst hk
      have hnext := (hg.acquire _ _ hinstr).2
      have hheld := acquire (i := p) (b := run next) h hfree hnext
      simpa [Exclusion] using hheld
    · refine Exclusion.goto (m := m.setLock k _) ?_ ?_
      · simpa [Exclusion, update_of_ne (Ne.symm hk)] using h
      · simp only [setLock_ctl, hctl, holdsCtl, hg.acquireOther _ _ _ hinstr hk]
  | @release p l k next hst hctl hinstr hheld =>
    by_cases hk : k = lk
    · subst hk
      have hnext := (hg.release _ _ hinstr).2
      have hfree := release (b := run next) h hheld hnext
      simpa [Exclusion] using hfree
    · refine Exclusion.goto (m := m.setLock k _) ?_ ?_
      · simpa [Exclusion, update_of_ne (Ne.symm hk)] using h
      · simp only [setLock_ctl, hctl, holdsCtl, hg.releaseOther _ _ _ hinstr hk]
  | @sleep p l chan k next hst hctl hinstr =>
    refine h.goto ?_
    simp only [hctl, holdsCtl, (hg.sleep _ _ _ _ hinstr).1]
  | @wakeup p l chan next hst hctl hinstr =>
    refine h.goto ?_
    simp only [hctl, holdsCtl, hg.wakeup _ _ _ hinstr]
  | @wakeupOne p l chan next hst hctl hinstr =>
    refine h.goto ?_
    simp only [hctl, holdsCtl, hg.wakeupOne _ _ _ hinstr]
  | @kkill p l pid found notFound hst hctl hinstr =>
    refine h.goto ?_
    simp only [hctl, holdsCtl, (hg.kkill _ _ _ _ hinstr).1]
  | @sleepEnter p chan k next hst hctl hfree =>
    refine Exclusion.goto (m := m.setProc p _) h ?_
    simp only [setProc_ctl, hctl, holdsCtl]
  | @sleepLocked p chan k next hst hctl hheld =>
    by_cases hk : k = lk
    · subst hk
      have hfree := release (b := sleepReleased chan k next) h hheld (by simp [holdsCtl])
      simpa [Exclusion] using hfree
    · refine Exclusion.goto (m := m.setLock k _) ?_ ?_
      · simpa [Exclusion, update_of_ne (Ne.symm hk)] using h
      · simp only [setLock_ctl, hctl, holdsCtl, if_neg hk]
  | @sleepReleased p chan k next hst hctl =>
    refine Exclusion.goto (m := m.setProc p _) h ?_
    simp only [setProc_ctl, hctl, holdsCtl]
  | @sleepReturn p k next hst hctl hfree =>
    have hc := hwf.ctlOk p
    rw [hctl] at hc
    obtain ⟨l, chan, hinstr⟩ := hc
    have hsleep := hg.sleep _ _ _ _ hinstr
    by_cases hk : k = lk
    · subst hk
      have hheld := acquire (i := p) (b := run next) h hfree
        (by simp [holdsCtl, hsleep.1, hsleep.2 rfl])
      simpa [Exclusion] using hheld
    · refine Exclusion.goto (m := m.setLock k _) ?_ ?_
      · simpa [Exclusion, update_of_ne (Ne.symm hk)] using h
      · simp only [setLock_ctl, hctl, holdsCtl, if_neg hk]
  | @wakeupSkip p chan one next i hst hctl hi hskip =>
    refine h.goto ?_
    simp only [hctl, holdsCtl]
  | @wakeupHit p q chan one next hst hctl hne hfree hsleep =>
    refine Exclusion.goto (m := m.setState q _) h ?_
    cases one <;> simp [hctl, holdsCtl]
  | @wakeupEnd p chan one next i hst hctl hi =>
    refine h.goto ?_
    simp only [hctl, holdsCtl]
  | @kkillSkip p pid found notFound i hst hctl hi hfree hpid =>
    refine h.goto ?_
    simp only [hctl, holdsCtl]
  | @kkillHit p q found notFound hst hctl hfree =>
    refine Exclusion.goto (m := m.setProc q _) h ?_
    simp only [setProc_ctl, hctl, holdsCtl]
  | @kkillEnd p pid found notFound i hst hctl hi =>
    have hc := hwf.ctlOk p
    rw [hctl] at hc
    obtain ⟨l, hinstr⟩ := hc
    refine h.goto ?_
    simp only [hctl, holdsCtl, (hg.kkill _ _ _ _ hinstr).1, (hg.kkill _ _ _ _ hinstr).2]
  | @call p cur l hst hctl hinstr hentry hkilled =>
    refine h.goto ?_
    simp only [hctl, holdsCtl, hg.call _ _ hinstr hentry]
  | @dispatchSleep p chan k next hst hfree hctl =>
    refine Exclusion.goto (m := m.setProc p _) h ?_
    simp only [setProc_ctl, hctl, holdsCtl]
  | dispatch | preempt | exit | reap | fork | tick => exact h

/-! ## What a process carries along -/

/-- The label a process stands at, or returns to from the function of `proc.c` it is in. -/
def base : Ctl L C ℓ → ℓ
  | .run l => l
  | .sleepEnter _ _ next => next
  | .sleepLocked _ _ next => next
  | .sleepReleased _ _ next => next
  | .sched _ _ next => next
  | .sleepReturn _ next => next
  | .wakeupAt _ _ _ next => next
  | .kkillAt _ _ found _ => found

/-- The functions of `proc.c` that the statement calls do not return to a label of the kind `Q`. -/
def ReturnsNotTo (Q : ℓ → Prop) : Instr L C σ ℓ → Prop
  | .sleep _ _ next | .wakeup _ next | .wakeupOne _ next => ¬ Q next
  | .kkill _ found _ => ¬ Q found
  | _ => True

omit [DecidableEq L] in
theorem run_of_base {Q : ℓ → Prop} (hQ : ∀ l, ReturnsNotTo Q (code.instr l)) {c : Ctl L C ℓ}
    (hc : CtlOk code c) (h : Q (base c)) : ∃ l, c = .run l := by
  have hat {l i} (hi : code.instr l = i) : ReturnsNotTo Q i := hi ▸ hQ l
  cases c with
  | run l => exact ⟨l, rfl⟩
  | sleepEnter | sleepLocked | sleepReleased | sched => exact absurd h (hat hc.choose_spec)
  | sleepReturn => exact absurd h (hat hc.choose_spec.choose_spec)
  | wakeupAt _ one => cases one <;> exact absurd h (hat hc.choose_spec)
  | kkillAt => exact absurd h (hat hc.choose_spec)

/-- What `f` reads of the labels changes only with statements and calls. -/
structure Carries {β : Type} (code : Code L C σ ℓ) (f : ℓ → β) : Prop where
  acquire : ∀ l k next, code.instr l = .acquire k next → f next = f l
  release : ∀ l k next, code.instr l = .release k next → f next = f l
  sleep : ∀ l chan k next, code.instr l = .sleep chan k next → f next = f l
  wakeup : ∀ l chan next, code.instr l = .wakeup chan next → f next = f l
  wakeupOne : ∀ l chan next, code.instr l = .wakeupOne chan next → f next = f l
  kkill : ∀ l pid found notFound, code.instr l = .kkill pid found notFound →
    f found = f l ∧ f notFound = f l

/-- The rules of `Carries` for the statement at `l`. -/
def CarriesAt {β : Type} (f : ℓ → β) (l : ℓ) : Instr L C σ ℓ → Prop
  | .choose | .panic _ | .exec _ => True
  | .acquire _ next | .release _ next | .sleep _ _ next | .wakeup _ next | .wakeupOne _ next =>
    f next = f l
  | .kkill _ found notFound => f found = f l ∧ f notFound = f l

omit [DecidableEq L] in
theorem Carries.of_instr {β : Type} {f : ℓ → β} (h : ∀ l, CarriesAt f l (code.instr l)) :
    Carries code f := by
  have hat {l i} (hi : code.instr l = i) : CarriesAt f l i := hi ▸ h l
  exact ⟨fun _ _ _ hi => hat hi, fun _ _ _ hi => hat hi, fun _ _ _ _ hi => hat hi,
    fun _ _ _ hi => hat hi, fun _ _ _ hi => hat hi, fun _ _ _ _ hi => hat hi⟩

theorem Carries.step {β : Type} {f : ℓ → β} {a : Act ℓ} (hc : Carries code f) (hwf : Wf code m)
    (hs : StepCase code m a m') :
    (∃ p l g, (m.proc p).state = .running ∧ m.ctl p = .run l ∧ code.instr l = .exec g ∧
      m' = { m with shared := (g (m.proc p) m.shared).1 }.goto p (.run (g (m.proc p) m.shared).2)) ∨
    (∃ p cur l, m.ctl p = .run cur ∧ code.instr cur = .choose ∧ code.entry cur l = true ∧
      m' = m.goto p (.run l)) ∨
    m' = { m with shared := code.tick m.shared } ∨
    m'.shared = m.shared ∧ ∀ p, f (base (m'.ctl p)) = f (base (m.ctl p)) := by
  -- one process moves, and what is read of its label stays
  have hmove : ∀ {p : Slot} {c : Ctl L C ℓ}, m'.ctl = update m.ctl p c →
      f (base c) = f (base (m.ctl p)) → ∀ q, f (base (m'.ctl q)) = f (base (m.ctl q)) := by
    intro p c hctl hf q
    rw [hctl]
    by_cases hqp : q = p
    · subst hqp
      rw [update_self, hf]
    · rw [update_of_ne hqp]
  cases hs with
  | exec hst hctl hinstr => exact .inl ⟨_, _, _, hst, hctl, hinstr, rfl⟩
  | call hst hctl hinstr hentry _ => exact .inr (.inl ⟨_, _, _, hctl, hinstr, hentry, rfl⟩)
  | tick => exact .inr (.inr (.inl rfl))
  | acquire hst hctl hinstr _ =>
    exact .inr (.inr (.inr ⟨rfl, hmove rfl (by rw [hctl]; exact hc.acquire _ _ _ hinstr)⟩))
  | release hst hctl hinstr _ =>
    exact .inr (.inr (.inr ⟨rfl, hmove rfl (by rw [hctl]; exact hc.release _ _ _ hinstr)⟩))
  | sleep hst hctl hinstr =>
    exact .inr (.inr (.inr ⟨rfl, hmove rfl (by rw [hctl]; exact hc.sleep _ _ _ _ hinstr)⟩))
  | wakeup hst hctl hinstr =>
    exact .inr (.inr (.inr ⟨rfl, hmove rfl (by rw [hctl]; exact hc.wakeup _ _ _ hinstr)⟩))
  | wakeupOne hst hctl hinstr =>
    exact .inr (.inr (.inr ⟨rfl, hmove rfl (by rw [hctl]; exact hc.wakeupOne _ _ _ hinstr)⟩))
  | kkill hst hctl hinstr =>
    exact .inr (.inr (.inr ⟨rfl, hmove rfl (by rw [hctl]; exact (hc.kkill _ _ _ _ hinstr).1)⟩))
  | sleepEnter _ hctl _ | sleepLocked _ hctl _ | sleepReleased _ hctl | sleepReturn _ hctl _
  | wakeupSkip _ hctl _ _ | wakeupEnd _ hctl _ | kkillSkip _ hctl _ _ _ | kkillHit _ hctl _
  | dispatchSleep _ _ hctl => exact .inr (.inr (.inr ⟨rfl, hmove rfl (by rw [hctl]; rfl)⟩))
  | @wakeupHit p q chan one next _ hctl _ _ _ =>
    refine .inr (.inr (.inr ⟨rfl, hmove rfl ?_⟩))
    rw [hctl]
    cases one <;> rfl
  | @kkillEnd p pid found notFound i _ hctl _ =>
    have hok := hwf.ctlOk p
    rw [hctl] at hok
    obtain ⟨l, hinstr⟩ := hok
    have hkkill := hc.kkill _ _ _ _ hinstr
    refine .inr (.inr (.inr ⟨rfl, hmove rfl ?_⟩))
    rw [hctl]
    exact hkkill.2.trans hkkill.1.symm
  | dispatch | preempt | exit | reap | fork => exact .inr (.inr (.inr ⟨rfl, fun _ => rfl⟩))

/-! ## Conditions -/

/-- The rules of a condition. -/
structure Monitor (code : Code L C σ ℓ) (lk : L) (chan : C) (need : σ → Bool)
    (holds owes saw : ℓ → Bool) (fine : ℓ → Proc C → σ → Prop) : Prop extends
    Guards code lk holds where
  owes_holds : ∀ l, owes l = true → holds l = true
  saw_holds : ∀ l, saw l = true → holds l = true
  /-- Without the lock the condition is not changed. -/
  still : ∀ l f me s, code.instr l = .exec f → holds l = false → need (f me s).1 = need s
  /-- A process that makes the condition true, or has made it true, owes a `wakeup`. -/
  pays : ∀ l f me s, code.instr l = .exec f → fine l me s → need (f me s).1 = true →
    need s = false ∨ owes l = true → owes (f me s).2 = true
  tests : ∀ l f me s, code.instr l = .exec f → fine l me s → (saw l = true → need s = false) →
    saw (f me s).2 = true → need (f me s).1 = false
  acquires : ∀ l k next, code.instr l = .acquire k next →
    (owes l = true → owes next = true) ∧ (saw next = true → saw l = true)
  releases : ∀ l k next, code.instr l = .release k next → (k = lk → owes l = false) ∧
    (owes l = true → owes next = true) ∧ (saw next = true → saw l = true)
  wakes : ∀ l c next, code.instr l = .wakeup c next → (c = chan → holds l = true) ∧
    (c ≠ chan → owes l = true → owes next = true) ∧ (saw next = true → saw l = true)
  wakesOne : ∀ l c next, code.instr l = .wakeupOne c next →
    (owes l = true → owes next = true) ∧ (saw next = true → saw l = true)
  kills : ∀ l pid found notFound, code.instr l = .kkill pid found notFound →
    (owes l = true → owes found = true ∧ owes notFound = true) ∧
    (saw found = true → saw l = true) ∧ (saw notFound = true → saw l = true)
  sleeps : ∀ l c k next, code.instr l = .sleep c k next → owes l = false ∧ saw next = false ∧
    (c = chan → k = lk ∧ saw l = true)
  calls : ∀ cur l, code.instr cur = .choose → code.entry cur l = true →
    owes cur = false ∧ saw l = false
  tick : ∀ s, need (code.tick s) = need s

/-- The rules of `Monitor` for the statement at `l`, if it is no `exec`. -/
def MonitorAt (lk : L) (chan : C) (holds owes saw : ℓ → Bool) (l : ℓ) : Instr L C σ ℓ → Prop
  | .choose => owes l = false
  | .panic _ | .exec _ => True
  | .acquire _ next | .wakeupOne _ next =>
    (owes l = true → owes next = true) ∧ (saw next = true → saw l = true)
  | .release k next => (k = lk → owes l = false) ∧ (owes l = true → owes next = true) ∧
    (saw next = true → saw l = true)
  | .wakeup c next => (c = chan → holds l = true) ∧ (c ≠ chan → owes l = true → owes next = true) ∧
    (saw next = true → saw l = true)
  | .kkill _ found notFound => (owes l = true → owes found = true ∧ owes notFound = true) ∧
    (saw found = true → saw l = true) ∧ (saw notFound = true → saw l = true)
  | .sleep c k next => owes l = false ∧ saw next = false ∧ (c = chan → k = lk ∧ saw l = true)

/-- A process that stands at `c` is going to make entry `q` of the table runnable. -/
def Owing (chan : C) (owes : ℓ → Bool) (q : Slot) : Ctl L C ℓ → Prop
  | .run l => owes l = true
  | .wakeupAt c one i next => owes next = true ∨ c = chan ∧ one = false ∧ i ≤ q.val
  | .kkillAt _ _ found notFound => owes found = true ∧ owes notFound = true
  | _ => False

def Saw (chan : C) (saw : ℓ → Bool) : Ctl L C ℓ → Prop
  | .run l => saw l = true
  | .sleepEnter c _ _ => c = chan
  | .sleepLocked c _ _ => c = chan
  | .wakeupAt _ _ _ next => saw next = true
  | .kkillAt _ _ found notFound => saw found = true ∨ saw notFound = true
  | _ => False

variable {chan : C} {need : σ → Bool} {owes saw : ℓ → Bool} {fine : ℓ → Proc C → σ → Prop}

namespace Monitor

omit [DecidableEq L] in
theorem of_instr (hg : Guards code lk holds)
    (hholds : ∀ l, owes l = true ∨ saw l = true → holds l = true)
    (h : ∀ l, MonitorAt lk chan holds owes saw l (code.instr l))
    (hentry : ∀ cur l, code.entry cur l = true → saw l = false)
    (htick : ∀ s, need (code.tick s) = need s)
    (still : ∀ l f me s, code.instr l = .exec f → holds l = false → need (f me s).1 = need s)
    (pays : ∀ l f me s, code.instr l = .exec f → fine l me s → need (f me s).1 = true →
      need s = false ∨ owes l = true → owes (f me s).2 = true)
    (tests : ∀ l f me s, code.instr l = .exec f → fine l me s → (saw l = true → need s = false) →
      saw (f me s).2 = true → need (f me s).1 = false) :
    Monitor code lk chan need holds owes saw fine := by
  have hat {l i} (hi : code.instr l = i) : MonitorAt lk chan holds owes saw l i := hi ▸ h l
  exact ⟨hg, fun l hl => hholds l (.inl hl), fun l hl => hholds l (.inr hl), still, pays, tests,
    fun _ _ _ hi => hat hi, fun _ _ _ hi => hat hi, fun _ _ _ hi => hat hi,
    fun _ _ _ hi => hat hi, fun _ _ _ _ hi => hat hi, fun _ _ _ _ hi => hat hi,
    fun cur l hi he => ⟨hat hi, hentry cur l he⟩, htick⟩

theorem holds_of_owing (hm : Monitor code lk chan need holds owes saw fine) {c : Ctl L C ℓ}
    (hc : CtlOk code c) {q : Slot} (h : Owing chan owes q c) : holdsCtl lk holds c = true := by
  cases c with
  | run l => exact hm.owes_holds l h
  | wakeupAt c one i next =>
    rcases h with h | ⟨rfl, rfl, -⟩
    · exact hm.owes_holds next h
    · obtain ⟨l, hinstr⟩ := hc
      have hinstr : code.instr l = .wakeup c next := by simpa using hinstr
      simp only [holdsCtl, hm.wakeup _ _ _ hinstr, (hm.wakes _ _ _ hinstr).1 rfl]
  | kkillAt pid i found notFound => exact hm.owes_holds found h.1
  | sleepEnter | sleepLocked | sleepReleased | sched | sleepReturn => exact h.elim

theorem holds_of_saw (hm : Monitor code lk chan need holds owes saw fine) {c : Ctl L C ℓ}
    (hc : CtlOk code c) (h : Saw chan saw c) : holdsCtl lk holds c = true := by
  cases c with
  | run l => exact hm.saw_holds l h
  | sleepEnter c k next | sleepLocked c k next =>
    obtain ⟨l, hinstr⟩ := hc
    have hsaw := ((hm.sleeps _ _ _ _ hinstr).2.2 h).2
    simp only [holdsCtl, (hm.sleep _ _ _ _ hinstr).1, hm.saw_holds l hsaw]
  | wakeupAt c one i next => exact hm.saw_holds next h
  | kkillAt pid i found notFound =>
    obtain ⟨l, hinstr⟩ := hc
    have hkkill := hm.kkill _ _ _ _ hinstr
    rcases h with h | h
    · exact hm.saw_holds found h
    · simp only [holdsCtl, hkkill.1, ← hkkill.2, hm.saw_holds notFound h]
  | sleepReleased | sched | sleepReturn => exact h.elim

end Monitor

variable [DecidableEq C]

structure Alert (code : Code L C σ ℓ) (lk : L) (chan : C) (need : σ → Bool)
    (holds owes saw : ℓ → Bool) (m : Machine L C σ ℓ) : Prop where
  wf : Wf code m
  excl : Exclusion lk holds m
  saw : ∀ p, Saw chan saw (m.ctl p) → need m.shared = false
  owed : ∀ q ∈ m.sleepers chan, need m.shared = true → ∃ p, Owing chan owes q (m.ctl p)

namespace Alert

variable {c : Ctl L C ℓ}

omit [DecidableEq L] in
/-- A process that stands at `c` sleeps, or is about to, only if it did where it stood before. -/
theorem sleepers_subset {p : Slot} (hctl : m'.ctl = update m.ctl p c)
    (hc : commits chan c = true → p ∈ m.sleepers chan)
    (hsleep : ∀ q, m'.SleepingOn chan q → q ∈ m.sleepers chan) {q : Slot}
    (hq : q ∈ m'.sleepers chan) : q ∈ m.sleepers chan := by
  rcases mem_sleepers.mp hq with hq | hq
  · exact hsleep q hq
  rw [hctl] at hq
  by_cases hqp : q = p
  · subst hqp
    rw [update_self] at hq
    exact hc hq
  · rw [update_of_ne hqp] at hq
    exact mem_sleepers.mpr (.inr hq)

theorem move {p : Slot} (h : Alert code lk chan need holds owes saw m)
    (hwf : Wf code m') (hexcl : Exclusion lk holds m') (hneed : need m'.shared = need m.shared)
    (hctl : m'.ctl = update m.ctl p c) (hsaw : Saw chan saw c → Saw chan saw (m.ctl p))
    (hc : commits chan c = true → p ∈ m.sleepers chan ∨ Saw chan saw (m.ctl p))
    (hsleep : ∀ q, m'.SleepingOn chan q → q ∈ m.sleepers chan)
    (howe : ∀ q, q ∈ m'.sleepers chan → Owing chan owes q (m.ctl p) → Owing chan owes q c) :
    Alert code lk chan need holds owes saw m' := by
  refine ⟨hwf, hexcl, fun r hr => ?_, fun q hq htrue => ?_⟩
  · rw [hneed]
    rw [hctl] at hr
    by_cases hrp : r = p
    · subst hrp
      rw [update_self] at hr
      exact h.saw r (hsaw hr)
    · rw [update_of_ne hrp] at hr
      exact h.saw r hr
  rw [hneed] at htrue
  have hnot : ¬ Saw chan saw (m.ctl p) := fun hs => by simp [h.saw p hs] at htrue
  have hold := sleepers_subset hctl (fun hcc => (hc hcc).resolve_right hnot) hsleep hq
  obtain ⟨r, hr⟩ := h.owed q hold htrue
  by_cases hrp : r = p
  · subst hrp
    exact ⟨r, by rw [hctl, update_self]; exact howe q hq hr⟩
  · exact ⟨r, by rw [hctl, update_of_ne hrp]; exact hr⟩

theorem still (h : Alert code lk chan need holds owes saw m) (hwf : Wf code m')
    (hexcl : Exclusion lk holds m') (hneed : need m'.shared = need m.shared)
    (hctl : m'.ctl = m.ctl) (hsleep : ∀ q, m'.SleepingOn chan q → m.SleepingOn chan q) :
    Alert code lk chan need holds owes saw m' := by
  refine ⟨hwf, hexcl, fun r hr => ?_, fun q hq htrue => ?_⟩
  · rw [hneed]
    exact h.saw r (hctl ▸ hr)
  rw [hctl]
  refine h.owed q (mem_sleepers.mpr ?_) (hneed ▸ htrue)
  rw [mem_sleepers, hctl] at hq
  exact hq.imp_left (hsleep q)

theorem exec {p : Slot} {l : ℓ} {f : Proc C → σ → σ × ℓ}
    (hm : Monitor code lk chan need holds owes saw fine)
    (h : Alert code lk chan need holds owes saw m) (hctl : m.ctl p = .run l)
    (hinstr : code.instr l = .exec f) (hfine : fine l (m.proc p) m.shared)
    (hwf : Wf code ({ m with shared := (f (m.proc p) m.shared).1 }.goto p
      (.run (f (m.proc p) m.shared).2)))
    (hexcl : Exclusion lk holds ({ m with shared := (f (m.proc p) m.shared).1 }.goto p
      (.run (f (m.proc p) m.shared).2))) :
    Alert code lk chan need holds owes saw ({ m with shared := (f (m.proc p) m.shared).1 }.goto p
      (.run (f (m.proc p) m.shared).2)) := by
  have hsawl : saw l = true → need m.shared = false := fun hl => h.saw p (by rw [hctl]; exact hl)
  refine ⟨hwf, hexcl, fun r hr => ?_, fun q hq htrue => ?_⟩
  · simp only [goto_ctl] at hr
    by_cases hrp : r = p
    · subst hrp
      rw [update_self] at hr
      exact hm.tests _ _ _ _ hinstr hfine hsawl hr
    rw [update_of_ne hrp] at hr
    -- the other process holds the lock, so this one does not
    have hrhold := hm.holds_of_saw (h.wf.ctlOk r) hr
    have hpfree := h.excl.others hrhold (Ne.symm hrp)
    rw [hctl] at hpfree
    rw [goto_shared, hm.still _ _ _ _ hinstr hpfree]
    exact h.saw r hr
  have hold : q ∈ m.sleepers chan := by
    refine sleepers_subset (m := m) (p := p) rfl (fun hc => ?_) (fun r hr => ?_) hq
    · simp [commits] at hc
    · exact mem_sleepers.mpr (.inl hr)
  by_cases hneed : need m.shared = true
  · obtain ⟨r, hr⟩ := h.owed q hold hneed
    by_cases hrp : r = p
    · subst hrp
      rw [hctl] at hr
      refine ⟨r, ?_⟩
      rw [goto_ctl, update_self]
      exact hm.pays _ _ _ _ hinstr hfine htrue (.inr hr)
    · exact ⟨r, by rw [goto_ctl, update_of_ne hrp]; exact hr⟩
  · refine ⟨p, ?_⟩
    rw [goto_ctl, update_self]
    exact hm.pays _ _ _ _ hinstr hfine htrue (.inl (by simpa using hneed))

theorem goto {p : Slot} (h : Alert code lk chan need holds owes saw m)
    (hwf : Wf code (m.goto p c)) (hexcl : Exclusion lk holds (m.goto p c))
    (hsaw : Saw chan saw c → Saw chan saw (m.ctl p)) (hc : commits chan c = false)
    (howe : ∀ q, q ∈ (m.goto p c).sleepers chan → Owing chan owes q (m.ctl p) →
      Owing chan owes q c) : Alert code lk chan need holds owes saw (m.goto p c) :=
  h.move hwf hexcl rfl rfl hsaw (fun hcc => by simp [hc] at hcc)
    (fun _ hq => mem_sleepers.mpr (.inl hq)) howe

omit [DecidableEq L] [DecidableEq C] in
theorem sleepingOn_of_setProc {p q : Slot} {r : Proc C} (hr : r.state ≠ .sleeping)
    (hq : (m.setProc p r).SleepingOn chan q) : m.SleepingOn chan q := by
  by_cases hqp : q = p
  · subst hqp
    simp only [SleepingOn, setProc_proc, update_self] at hq
    exact absurd hq.1 hr
  · simpa [SleepingOn, hqp] using hq

theorem not_sleeper (h : Alert code lk chan need holds owes saw m) {p q : Slot}
    (hrun : (m.proc p).state = .running) (hcommits : commits chan (m.ctl p) = false)
    (hskip : q = p ∨ (m.proc q).locked = false ∧ ¬ m.SleepingOn chan q) : q ∉ m.sleepers chan := by
  intro hq
  rcases mem_sleepers.mp hq with hs | hs
  · rcases hskip with rfl | ⟨-, hnot⟩
    · simp [SleepingOn, hrun] at hs
    · exact hnot hs
  rcases hskip with rfl | ⟨hfree, -⟩
  · simp [hcommits] at hs
  · have hok := h.wf.procOk q
    cases hc : m.ctl q <;> simp_all [ProcOk, commits]

theorem step {a : Act ℓ} (hm : Monitor code lk chan need holds owes saw fine)
    (h : Alert code lk chan need holds owes saw m)
    (hfine : ∀ p l, (m.proc p).state = .running → m.ctl p = .run l → fine l (m.proc p) m.shared)
    (hs : StepCase code m a m') : Alert code lk chan need holds owes saw m' := by
  have hwf := h.wf.stepCase hs
  have hexcl := h.excl.step hm.toGuards h.wf hs
  cases hs with
  | @exec p l f hst hctl hinstr => exact h.exec hm hctl hinstr (hfine p l hst hctl) hwf hexcl
  | @acquire p l k next hst hctl hinstr hfree =>
    obtain ⟨ho, hsaw⟩ := hm.acquires _ _ _ hinstr
    refine h.move (p := p) (c := .run next) hwf hexcl rfl rfl ?_ (by simp [commits])
      (fun _ hq => mem_sleepers.mpr (.inl hq)) ?_
    · rw [hctl]
      exact hsaw
    · rw [hctl]
      exact fun _ _ => ho
  | @release p l k next hst hctl hinstr hheld =>
    obtain ⟨-, ho, hsaw⟩ := hm.releases _ _ _ hinstr
    refine h.move (p := p) (c := .run next) hwf hexcl rfl rfl ?_ (by simp [commits])
      (fun _ hq => mem_sleepers.mpr (.inl hq)) ?_
    · rw [hctl]
      exact hsaw
    · rw [hctl]
      exact fun _ _ => ho
  | @sleep p l c k next hst hctl hinstr =>
    obtain ⟨ho, -, hsaw⟩ := hm.sleeps _ _ _ _ hinstr
    refine h.goto hwf hexcl ?_ rfl ?_
    · rw [hctl]
      exact fun hc => (hsaw hc).2
    · rw [hctl]
      intro q _ hq
      simp [Owing, ho] at hq
  | @wakeup p l c next hst hctl hinstr =>
    obtain ⟨-, ho, hsaw⟩ := hm.wakes _ _ _ hinstr
    refine h.goto hwf hexcl ?_ rfl ?_
    · rw [hctl]
      exact hsaw
    rw [hctl]
    intro q _ hq
    by_cases hc : c = chan
    · exact .inr ⟨hc, rfl, Nat.zero_le _⟩
    · exact .inl (ho hc hq)
  | @wakeupOne p l c next hst hctl hinstr =>
    obtain ⟨ho, hsaw⟩ := hm.wakesOne _ _ _ hinstr
    refine h.goto hwf hexcl ?_ rfl ?_
    · rw [hctl]
      exact hsaw
    · rw [hctl]
      exact fun q _ hq => .inl (ho hq)
  | @kkill p l pid found notFound hst hctl hinstr =>
    obtain ⟨ho, hfound, hnot⟩ := hm.kills _ _ _ _ hinstr
    refine h.goto hwf hexcl ?_ rfl ?_
    · rw [hctl]
      exact fun hs => hs.elim hfound hnot
    · rw [hctl]
      exact fun q _ hq => ho hq
  | @sleepEnter p c k next hst hctl hfree =>
    refine h.move (p := p) (c := .sleepLocked c k next) hwf hexcl rfl rfl ?_ ?_ ?_ ?_
    · rw [hctl]
      exact id
    · rw [hctl]
      intro hc
      exact .inr (show c = chan by simpa [commits] using hc)
    · intro q hq
      refine mem_sleepers.mpr (.inl (sleepingOn_of_setProc (p := p) ?_ hq))
      simp [hst]
    · rw [hctl]
      exact fun _ _ hq => hq
  | @sleepLocked p c k next hst hctl hheld =>
    refine h.move (p := p) (c := .sleepReleased c k next) hwf hexcl rfl rfl False.elim ?_
      (fun _ hq => mem_sleepers.mpr (.inl hq)) ?_
    · intro hc
      refine .inl (mem_sleepers.mpr (.inr ?_))
      rw [hctl]
      simpa [commits] using hc
    · rw [hctl]
      exact fun _ _ hq => hq
  | @sleepReleased p c k next hst hctl =>
    refine h.move (p := p) (c := .sched c k next) hwf hexcl rfl rfl False.elim (by simp [commits])
      ?_ ?_
    · intro q hq
      by_cases hqp : q = p
      · subst hqp
        have hc : c = chan := by simpa [SleepingOn] using hq
        refine mem_sleepers.mpr (.inr ?_)
        rw [hctl]
        simp [commits, hc]
      · exact mem_sleepers.mpr (.inl (by simpa [SleepingOn, hqp] using hq))
    · rw [hctl]
      exact fun _ _ hq => hq
  | @sleepReturn p k next hst hctl hfree =>
    have hc := h.wf.ctlOk p
    rw [hctl] at hc
    obtain ⟨l, c, hinstr⟩ := hc
    refine h.move (p := p) (c := .run next) hwf hexcl rfl rfl ?_ (by simp [commits])
      (fun _ hq => mem_sleepers.mpr (.inl hq)) ?_
    · intro hs
      simp [Saw, (hm.sleeps _ _ _ _ hinstr).2.1] at hs
    · rw [hctl]
      exact fun _ _ hq => hq.elim
  | @wakeupSkip p c one next i hst hctl hi hskip =>
    refine h.goto hwf hexcl ?_ rfl ?_
    · rw [hctl]
      exact id
    intro q hq hp
    rw [hctl] at hp
    rcases hp with hp | ⟨rfl, rfl, hle⟩
    · exact .inl hp
    refine .inr ⟨rfl, rfl, ?_⟩
    -- the entry that was passed is no sleeper
    have hne : i ≠ q.val := by
      rintro rfl
      have hnot : q ∉ m.sleepers c := h.not_sleeper hst (by rw [hctl]; rfl) hskip
      have hc : commits c (wakeupAt c false (q.val + 1) next : Ctl L C ℓ) = true →
          p ∈ m.sleepers c := by simp [commits]
      exact hnot (sleepers_subset (goto_ctl m p _) hc
        (fun r hr => mem_sleepers.mpr (.inl hr)) hq)
    omega
  | @wakeupHit p q c one next hst hctl hne hfree hsleep =>
    have hsub : ∀ r, (m.setState q .runnable).SleepingOn chan r → m.SleepingOn chan r := fun r hr =>
      sleepingOn_of_setProc (by simp) hr
    refine h.move (p := p) (c := if one then .run next else .wakeupAt c one (q.val + 1) next) hwf
      hexcl rfl rfl ?_ ?_ (fun r hr => mem_sleepers.mpr (.inl (hsub r hr))) ?_
    · rw [hctl]
      cases one <;> exact id
    · cases one <;> simp [commits]
    intro r hr hp
    rw [hctl] at hp
    rcases hp with hp | ⟨rfl, rfl, hle⟩
    · cases one
      · exact .inl hp
      · exact hp
    refine .inr ⟨rfl, rfl, ?_⟩
    have hrq : r ≠ q := by
      rintro rfl
      have hctlq : ∃ c' k next', m.ctl r = .sched c' k next' :=
        (h.wf.procOk r).sched_of_sleeping hsleep.1
      obtain ⟨c', k, next', hctlq⟩ := hctlq
      rcases mem_sleepers.mp hr with hr | hr
      · simp [SleepingOn] at hr
      · simp [hctlq, update_of_ne hne, commits] at hr
    have : r.val ≠ q.val := fun he => hrq (Fin.ext he)
    omega
  | @wakeupEnd p c one next i hst hctl hi =>
    refine h.goto hwf hexcl ?_ rfl ?_
    · rw [hctl]
      exact id
    intro q _ hp
    rw [hctl] at hp
    rcases hp with hp | ⟨-, -, hle⟩
    · exact hp
    · exact absurd q.isLt (by omega)
  | @kkillSkip p pid found notFound i hst hctl hi hfree hpid =>
    refine h.goto hwf hexcl ?_ rfl ?_
    · rw [hctl]
      exact id
    · rw [hctl]
      exact fun _ _ hq => hq
  | @kkillHit p q found notFound hst hctl hfree =>
    refine h.move (p := p) (c := .run found) hwf hexcl rfl rfl ?_ (by simp [commits]) ?_ ?_
    · rw [hctl]
      exact .inl
    · intro r hr
      refine mem_sleepers.mpr (.inl ?_)
      by_cases hrq : r = q
      · subst hrq
        by_cases hsl : (m.proc r).state = .sleeping <;> simp [SleepingOn, hsl] at hr
      · simpa [SleepingOn, hrq] using hr
    · rw [hctl]
      exact fun _ _ hq => hq.1
  | @kkillEnd p pid found notFound i hst hctl hi =>
    refine h.goto hwf hexcl ?_ rfl ?_
    · rw [hctl]
      exact .inr
    · rw [hctl]
      exact fun _ _ hq => hq.2
  | @call p cur l hst hctl hinstr hentry hkilled =>
    obtain ⟨ho, hsaw⟩ := hm.calls _ _ hinstr hentry
    refine h.goto hwf hexcl ?_ rfl ?_
    · intro hs
      simp [Saw, hsaw] at hs
    · rw [hctl]
      intro q _ hq
      simp [Owing, ho] at hq
  | @dispatchSleep p c k next hst hfree hctl =>
    refine h.move (p := p) (c := .sleepReturn k next) hwf hexcl rfl rfl False.elim
      (by simp [commits]) ?_ ?_
    · intro q hq
      refine mem_sleepers.mpr (.inl (sleepingOn_of_setProc (p := p) ?_ hq))
      simp
    · rw [hctl]
      exact fun _ _ hq => hq
  | dispatch hst _ _ | preempt hst _ | exit hst _ =>
    exact h.still hwf hexcl rfl rfl fun q hq => sleepingOn_of_setProc (by simp) hq
  | reap hst =>
    exact h.still hwf hexcl rfl rfl fun q hq => sleepingOn_of_setProc (by simp [Proc.free]) hq
  | fork hst =>
    exact h.still hwf hexcl rfl rfl fun q hq => sleepingOn_of_setProc (by simp [Proc.forked]) hq
  | tick => exact h.still hwf hexcl (hm.tick _) rfl fun _ hq => hq

/-- **No lost wakeup**: when the lock is free, nobody sleeps, or is about to, while the condition
holds. -/
theorem awake (hm : Monitor code lk chan need holds owes saw fine)
    (h : Alert code lk chan need holds owes saw m) (hfree : m.lock lk = none) {q : Slot}
    (hq : q ∈ m.sleepers chan) : need m.shared = false := by
  by_contra hneed
  obtain ⟨p, hp⟩ := h.owed q hq (by simpa using hneed)
  have hholds := hm.holds_of_owing (h.wf.ctlOk p) hp
  simp [h.excl.outside hfree p] at hholds

end Alert

end Xv6.Thread.Machine

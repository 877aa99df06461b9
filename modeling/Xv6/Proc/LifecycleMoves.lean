import Xv6.Proc.LifecycleSteps

/-!
# What a step does to one process

Most of what is proved about the process table speaks of one entry and the control point of its
process.
-/

namespace Xv6.Life

open Thread Transition Mutex Ctl

def Ctl.fits : Ctl → ProcState → Bool
  | .user, s => s ≠ .sleeping ∧ s ≠ .zombie
  | .forkScan _, s | .forkParent .., s | .forkRun .., s | .exitFiles _, s | .exitWait _, s => s = .running ∨ s = .runnable
  | .waitEnter _, s | .waitReturn _, s | .kkillAt .., s | .done _, s => s = .running ∨ s = .runnable
  | .exitReparent .., s | .exitReparentWake .., s | .exitWake .., s | .exitZombie _, s => s = .running
  | .waitScan .., s | .waitEnd .., s | .waitSleep _, s | .waitSleepLocked _, s => s = .running
  | .waitSleepReleased _, s | .waitUnlock .., s => s = .running
  | .exitUnlock _, s | .exitSched _, s => s = .zombie
  | .dead _, s => s = .zombie ∨ s = .unused
  | .waitSched _, s | .otherSched, s => s = .sleeping ∨ s = .runnable

def Ctl.holdsOwn : Ctl → Bool
  | .waitSleepLocked _ | .waitSleepReleased _ | .exitUnlock _ | .exitSched _ => true
  | _ => false

def Ctl.exiting : Ctl → Bool
  | .exitFiles _ | .exitWait _ | .exitReparent .. | .exitReparentWake .. | .exitWake .. => true
  | .exitZombie _ | .exitUnlock _ | .exitSched _ | .dead _ => true
  | _ => false

/-- The status given to `kexit`, from the point on at which it has been stored. -/
def Ctl.status : Ctl → Option ℤ
  | .exitUnlock status | .exitSched status | .dead status => some status
  | _ => none

/-- The entry that `kfork` has allocated and not yet made `RUNNABLE`. -/
def Ctl.embryo : Ctl → Option Slot
  | .forkParent np _ | .forkRun np _ => some np
  | _ => none

section Fits

variable {c : Ctl}

@[grind →]
theorem Ctl.fits_woken (h : c.fits .sleeping) : c.fits .runnable := by
  cases c <;> simp_all [fits]

@[grind →]
theorem Ctl.fits_started (h : c.fits .used) : c.fits .runnable := by
  cases c <;> simp_all [fits]

@[grind →]
theorem Ctl.fits_reaped (h : c.fits .zombie) (hl : c.holdsOwn = false) : c.fits .unused := by
  cases c <;> simp_all [fits, holdsOwn]

@[grind →]
theorem Ctl.fits_dispatched (h : c.fits .runnable) : c.resume.fits .running := by
  cases c <;> simp_all [fits, resume]

@[grind →]
theorem Ctl.fits_yielded (h : c.fits .running) (hl : c.holdsOwn = false)
    (hw : c.holdsWait = false) : c.fits .runnable := by
  cases c <;> simp_all [fits, holdsOwn, holdsWait]

theorem Ctl.holdsWait_of_unused (h : c.fits .unused) : c.holdsWait = false := by
  cases c <;> simp_all [fits, holdsWait]

theorem Call.fits_entry (c : Call) : c.entry.fits .running := by
  cases c <;> rfl

end Fits

section Resume

variable (r : Proc) (c : Ctl) (k : Call)

@[simp, grind =]
theorem Proc.state_dispatched : (r.dispatched c).state = .running := by
  cases c <;> rfl

@[simp, grind =]
theorem Proc.locked_dispatched : (r.dispatched c).locked = r.locked := by
  cases c <;> rfl

@[simp, grind =]
theorem Ctl.holdsOwn_resume : c.resume.holdsOwn = c.holdsOwn := by
  cases c <;> rfl

@[simp, grind =]
theorem Ctl.holdsWait_resume : c.resume.holdsWait = c.holdsWait := by
  cases c <;> rfl

@[simp, grind =]
theorem Ctl.embryo_resume : c.resume.embryo = c.embryo := by
  cases c <;> rfl

@[simp, grind =]
theorem Ctl.exiting_resume : c.resume.exiting = c.exiting := by
  cases c <;> rfl

@[simp, grind =]
theorem Call.holdsOwn_entry : k.entry.holdsOwn = false := by
  cases k <;> rfl

@[simp, grind =]
theorem Call.holdsWait_entry : k.entry.holdsWait = false := by
  cases k <;> rfl

@[simp, grind =]
theorem Call.embryo_entry : k.entry.embryo = none := by
  cases k <;> rfl

end Resume

variable {m m' : State} {a : Act}

/-! ## What a step does to one process -/

def Awake (ch : Option Chan) (r : Proc) : Prop :=
  r.locked = false ∧ ¬ (r.state = .sleeping ∧ r.chan = ch)

/-- The moves of process `q` in a step from `m` to `m'` that leave its entry alone, with what the
process has read. -/
inductive Next (m m' : State) (a : Act) (q : Slot) : Ctl → Ctl → Prop
  | ret {r : ℤ} : Next m m' a q (.done r) .user
  | call {k : Call} (ha : a = .call q k) (hinit : ∀ status, k = .kexit status → q ≠ initproc) :
    Next m m' a q .user k.entry
  | forkScan {i : ℕ} : Next m m' a q (.forkScan i) (.forkScan (i + 1))
  | forkFound {i : ℕ} (np : Slot) (pid : ℤ) : Next m m' a q (.forkScan i) (.forkParent np pid)
  | forkFail {i : ℕ} : Next m m' a q (.forkScan i) (.done (-1))
  | forkParent {np : Slot} {pid : ℤ} (hp : (m'.proc np).parent = some q) :
    Next m m' a q (.forkParent np pid) (.forkRun np pid)
  | forkRun {np : Slot} {pid : ℤ} : Next m m' a q (.forkRun np pid) (.done pid)
  | exitWait {status : ℤ} : Next m m' a q (.exitWait status) (.exitReparent status 0)
  | reparent {status : ℤ} {i : ℕ}
      (hp : ∀ t : Slot, t = i → (m'.proc t).parent = some initproc) :
    Next m m' a q (.exitReparent status i) (.exitReparentWake status i 0)
  | reparentSkip {status : ℤ} {i : ℕ} (hp : ∀ t : Slot, t = i → (m.proc t).parent ≠ some q) :
    Next m m' a q (.exitReparent status i) (.exitReparent status (i + 1))
  | reparentEnd {status : ℤ} {i : ℕ} (hi : NPROC ≤ i) :
    Next m m' a q (.exitReparent status i) (.exitWake status (m.proc q).parent 0)
  | reparentWake {status : ℤ} {i j : ℕ}
      (hw : ∀ t : Slot, t = j → t ≠ q → Awake (some (.proc initproc)) (m'.proc t)) :
    Next m m' a q (.exitReparentWake status i j) (.exitReparentWake status i (j + 1))
  | reparentWakeEnd {status : ℤ} {i j : ℕ} (hj : NPROC ≤ j) :
    Next m m' a q (.exitReparentWake status i j) (.exitReparent status (i + 1))
  | exitWake {status : ℤ} {c : Option Slot} {j : ℕ}
      (hw : ∀ t : Slot, t = j → t ≠ q → Awake (c.map .proc) (m'.proc t)) :
    Next m m' a q (.exitWake status c j) (.exitWake status c (j + 1))
  | exitWakeEnd {status : ℤ} {c : Option Slot} {j : ℕ} (hj : NPROC ≤ j) :
    Next m m' a q (.exitWake status c j) (.exitZombie status)
  | exitUnlock {status : ℤ} : Next m m' a q (.exitUnlock status) (.exitSched status)
  | waitEnter {addr : Bool} : Next m m' a q (.waitEnter addr) (.waitScan addr 0 false)
  | waitReturn {addr : Bool} : Next m m' a q (.waitReturn addr) (.waitScan addr 0 false)
  | waitScan {addr havekids havekids' : Bool} {i : ℕ}
      (hz : ∀ t : Slot, t = i → (m.proc t).parent = some q → (m.proc t).state ≠ .zombie) :
    Next m m' a q (.waitScan addr i havekids) (.waitScan addr (i + 1) havekids')
  | waitFound {addr havekids : Bool} {i : ℕ} {r : ℤ} {status : Option ℤ} :
    Next m m' a q (.waitScan addr i havekids) (.waitUnlock r status)
  | waitScanEnd {addr havekids : Bool} {i : ℕ} (hi : NPROC ≤ i) :
    Next m m' a q (.waitScan addr i havekids) (.waitEnd addr havekids)
  | waitFail {addr havekids : Bool} : Next m m' a q (.waitEnd addr havekids) (.waitUnlock (-1) none)
  | waitSleep {addr havekids : Bool} : Next m m' a q (.waitEnd addr havekids) (.waitSleep addr)
  | sleepRelease {addr : Bool} : Next m m' a q (.waitSleepLocked addr) (.waitSleepReleased addr)
  | waitUnlock {r : ℤ} {status : Option ℤ} : Next m m' a q (.waitUnlock r status) (.done r)
  | kkillHit {pid : ℤ} {i : ℕ} {r : ℤ} : Next m m' a q (.kkillAt pid i) (.done r)
  | kkillSkip {pid : ℤ} {i : ℕ} : Next m m' a q (.kkillAt pid i) (.kkillAt pid (i + 1))

section Next

variable {q : Slot} {c c' : Ctl} {s : ProcState}

variable (h : Next m m' a q c c')

include h

theorem Next.fits (hf : c.fits s) (hrun : s = .running ∨ c.leaving = true) : c'.fits s := by
  cases h
  case call k _ _ =>
    obtain rfl | hl := hrun
    · exact k.fits_entry
    · exact absurd hl (by decide)
  all_goals simp_all [fits, leaving]

theorem Next.holdsOwn : c'.holdsOwn = c.holdsOwn := by
  cases h
  case call k _ _ => exact k.holdsOwn_entry
  all_goals rfl

theorem Next.exiting (hq : q = initproc) : c'.exiting = c.exiting := by
  cases h
  case call k _ hinit =>
    cases k with
    | kexit status => exact absurd hq (hinit status rfl)
    | _ => rfl
  all_goals rfl

theorem Next.status (hf : c'.fits .zombie) : c'.status = c.status := by
  cases h
  case call k _ _ => cases k <;> simp [Ctl.fits, Call.entry] at hf
  all_goals simp_all [Ctl.fits, Ctl.status]

end Next

def Goes (m m' : State) (a : Act) (q : Slot) (r : Proc) (c c' : Ctl) : Prop :=
  c' = c ∨ Next m m' a q c c' ∧ c'.fits r.state

/-- The parent `x` that a step stores into the entry `r` of `q`: the process that forked it, or
`initproc` when the parent exits. -/
inductive NewParent (m m' : State) (q : Slot) (r : Proc) (x : Slot) : Prop
  | adopted {pid : ℤ} (hs : r.state = .used) (hw : m.waitLock = none)
      (hc : m.ctl x = .forkParent q pid) (hc' : m'.ctl x = .forkRun q pid)
  | orphaned {p : Slot} {status : ℤ} (hx : x = initproc) (hp : r.parent = some p)
      (hc : m.ctl p = .exitReparent status q) (hc' : m'.ctl p = .exitReparentWake status q 0)

def Reaping (m m' : State) (a : Act) (q : Slot) (r : Proc) : Prop :=
  ∃ p e addr havekids, a = .step p e ∧ r.parent = some p ∧
    m.ctl p = .waitScan addr q havekids ∧
    m'.ctl p = .waitUnlock r.pid (if addr then some r.xstate else none)

/-- What one step can do to the entry, the control point and the history of one process, by the
process itself or by another one. -/
inductive Move (m m' : State) (a : Act) (q : Slot) (r : Proc) : Ctl → Bool → Proc → Ctl → Bool → Prop
  | goes {c c' : Ctl} {b : Bool} (h : Goes m m' a q r c c') : Move m m' a q r c b r c' b
  | files {b : Bool} {status : ℤ} : Move m m' a q r (.exitFiles status) b
      { r with ofile := fun _ => 0, cwd := 0 } (.exitWait status) b
  | zombie {b : Bool} {status : ℤ} : Move m m' a q r (.exitZombie status) b
      { r with xstate := status, state := .zombie, locked := true } (.exitUnlock status) b
  | switched {b : Bool} {status : ℤ} : Move m m' a q r (.exitSched status) b
      { r with locked := false } (.dead status) b
  | sleepLock {b : Bool} {addr : Bool} : Move m m' a q r (.waitSleep addr) b
      { r with locked := true } (.waitSleepLocked addr) b
  | asleep {b : Bool} {addr : Bool} : Move m m' a q r (.waitSleepReleased addr) b
      { r with chan := some (.proc q), state := .sleeping, locked := false } (.waitSched addr) b
  | kexec {b : Bool} {sz pagetable : ℕ} (hrun : r.state = .running) :
    Move m m' a q r .user b { r with sz := sz, pagetable := pagetable } .user b
  | fault {b : Bool} (hrun : r.state = .running) :
    Move m m' a q r .user b { r with killed := true } .user true
  | sleepOther {b : Bool} {n : ℕ} (hrun : r.state = .running) :
    Move m m' a q r .user b { r with chan := some (.other n), state := .sleeping } .otherSched b
  | dispatch {c : Ctl} {b : Bool} (hs : r.state = .runnable) :
    Move m m' a q r c b (r.dispatched c) c.resume b
  | yield {c : Ctl} {b : Bool} (hrun : r.state = .running) (hl : r.locked = false)
      (hw : c.holdsWait = false) : Move m m' a q r c b { r with state := .runnable } c b
  | woken {c : Ctl} {b : Bool} (hs : r.state = .sleeping) :
    Move m m' a q r c b { r with state := .runnable } c b
  | alloc {parent : Proc} {c : Ctl} {b : Bool} {pid : ℤ} {trapframe pagetable : ℕ}
      (hs : r.state = .unused) (hl : r.locked = false)
      (hnew : ∃ p pid, m'.ctl p = .forkParent q pid) :
    Move m m' a q r c b (r.copied parent pid trapframe pagetable) .user false
  | allocFail {c : Ctl} {b : Bool} (hs : r.state = .unused) : Move m m' a q r c b r.freeproc c b
  | parent {c c' : Ctl} {b : Bool} {x : Slot} (hs : NewParent m m' q r x)
      (h : Goes m m' a q r c c') : Move m m' a q r c b { r with parent := some x } c' b
  | start {c : Ctl} {b : Bool} (hs : r.state = .used) :
    Move m m' a q r c b { r with state := .runnable } c b
  | reaped {c : Ctl} {b : Bool} (hs : r.state = .zombie) (hl : r.locked = false)
      (hr : Reaping m m' a q r) :
    Move m m' a q r c b r.freeproc c b
  | kill {c c' : Ctl} {b : Bool} (hk : ∃ p i, m.ctl p = .kkillAt r.pid i) (h : Goes m m' a q r c c') :
    Move m m' a q r c b r.kill c' true

section Move

variable {m m' : State} {a : Act} {q : Slot} {r r' : Proc} {c c' c'' : Ctl} {b b' : Bool}

theorem Move.of_goes (h : Goes m m' a q r c c') (hr : r' = r) (hc : c'' = c') (hb : b' = b) :
    Move m m' a q r c b r' c'' b' := by
  subst hr hc hb
  exact .goes h

theorem Move.of_alloc {parent : Proc} {pid : ℤ} {trapframe pagetable : ℕ}
    (hs : r.state = .unused) (hl : r.locked = false) (hnew : ∃ p pid, m'.ctl p = .forkParent q pid)
    (hr : r' = r.copied parent pid trapframe pagetable) (hc : c' = .user) (hb : b' = false) :
    Move m m' a q r c b r' c' b' := by
  subst hr hc hb
  exact .alloc hs hl hnew

theorem Move.of_kill (hk : ∃ p i, m.ctl p = .kkillAt r.pid i) (h : Goes m m' a q r c c')
    (hr : r' = r.kill) (hc : c'' = c') (hb : b' = true) : Move m m' a q r c b r' c'' b' := by
  subst hr hc hb
  exact .kill hk h

end Move

/-- The state, the lock and the exit status of an entry are those of the control point. -/
structure Fine (r : Proc) (c : Ctl) : Prop where
  fits : c.fits r.state
  locked : r.locked = c.holdsOwn
  xstate : r.state = .zombie → c.status = some r.xstate

theorem Fine.move {q : Slot} {r r' : Proc} {c c' : Ctl} {b b' : Bool} (h : Fine r c)
    (hm : Move m m' a q r c b r' c' b') : Fine r' c' := by
  obtain ⟨hfits, hl, hx⟩ := h
  cases hm with
  | goes hg =>
    obtain rfl | ⟨hn, hf⟩ := hg
    · exact ⟨hfits, hl, hx⟩
    · exact ⟨hf, hl.trans hn.holdsOwn.symm, fun hz => hn.status (hz ▸ hf) ▸ hx hz⟩
  | parent _ hg =>
    obtain rfl | ⟨hn, hf⟩ := hg
    · exact ⟨hfits, hl, hx⟩
    · exact ⟨hf, hl.trans hn.holdsOwn.symm, fun hz => hn.status (hz ▸ hf) ▸ hx hz⟩
  | kill _ hg =>
    have hfits' : c'.fits r.state ∧ c'.holdsOwn = c.holdsOwn ∧
        (r.state = .zombie → c'.status = some r.xstate) := by
      obtain rfl | ⟨hn, hf⟩ := hg
      · exact ⟨hfits, rfl, hx⟩
      · exact ⟨hf, hn.holdsOwn, fun hz => hn.status (hz ▸ hf) ▸ hx hz⟩
    obtain ⟨hf, ho, hx'⟩ := hfits'
    refine ⟨?_, hl.trans ho.symm, ?_⟩
    · unfold Proc.kill
      split_ifs with hs
      · exact Ctl.fits_woken (hs ▸ hf)
      · exact hf
    intro hz
    refine hx' ?_
    unfold Proc.kill at hz
    split_ifs at hz
    exact hz
  | files => exact ⟨by simpa [Ctl.fits] using hfits, hl, fun hz => by simp_all [Ctl.fits]⟩
  | zombie => exact ⟨rfl, rfl, fun _ => rfl⟩
  | switched => exact ⟨by simp_all [Ctl.fits], rfl, hx⟩
  | sleepLock => exact ⟨hfits, rfl, fun hz => by simp_all [Ctl.fits]⟩
  | asleep => exact ⟨rfl, rfl, (by rintro ⟨⟩)⟩
  | kexec hrun => exact ⟨hfits, hl, hx⟩
  | fault hrun => exact ⟨hfits, hl, hx⟩
  | sleepOther hrun => exact ⟨rfl, hl, (by rintro ⟨⟩)⟩
  | dispatch hs =>
    exact ⟨by rw [Proc.state_dispatched]; exact Ctl.fits_dispatched (hs ▸ hfits),
      by simpa using hl, by simp⟩
  | yield hrun hl' hw => exact ⟨Ctl.fits_yielded (hrun ▸ hfits) (hl ▸ hl') hw, hl, (by rintro ⟨⟩)⟩
  | woken hs => exact ⟨Ctl.fits_woken (hs ▸ hfits), hl, (by rintro ⟨⟩)⟩
  | alloc hs hl' _ => exact ⟨rfl, hl', (by rintro ⟨⟩)⟩
  | allocFail hs =>
    rw [hs] at hfits
    exact ⟨hfits, hl, (by rintro ⟨⟩)⟩
  | start hs => exact ⟨Ctl.fits_started (hs ▸ hfits), hl, (by rintro ⟨⟩)⟩
  | reaped hs hl' _ => exact ⟨Ctl.fits_reaped (hs ▸ hfits) (hl ▸ hl'), hl, (by rintro ⟨⟩)⟩

theorem Move.init {r r' : Proc} {c c' : Ctl} {b b' : Bool} (hm : Move m m' a initproc r c b r' c' b')
    (h : r.state ≠ .unused ∧ c.exiting = false) (hfits : c.fits r.state) :
    r'.state ≠ .unused ∧ c'.exiting = false := by
  obtain ⟨hs, he⟩ := h
  have hgoes : Goes m m' a initproc r c c' → c'.exiting = false := by
    rintro (rfl | ⟨hn, -⟩)
    · exact he
    · rw [hn.exiting rfl, he]
  cases hm with
  | goes hg => exact ⟨hs, hgoes hg⟩
  | parent _ hg => exact ⟨hs, hgoes hg⟩
  | kill _ hg =>
    refine ⟨?_, hgoes hg⟩
    unfold Proc.kill
    split_ifs <;> simp_all
  | files => simp [exiting] at he
  | zombie => simp [exiting] at he
  | switched => simp [exiting] at he
  | dispatch _ => exact ⟨by simp, by simpa using he⟩
  | alloc hs' _ _ => exact absurd hs' hs
  | allocFail hs' => exact absurd hs' hs
  | reaped hs' _ _ =>
    rw [hs'] at hfits
    cases c <;> simp_all [fits, exiting]
  | sleepLock => exact ⟨hs, rfl⟩
  | asleep => exact ⟨by simp, rfl⟩
  | kexec _ => exact ⟨hs, rfl⟩
  | fault _ => exact ⟨hs, rfl⟩
  | sleepOther _ => exact ⟨by simp, rfl⟩
  | yield _ _ _ => exact ⟨by simp, he⟩
  | woken _ => exact ⟨by simp, he⟩
  | start _ => exact ⟨by simp, he⟩

end Xv6.Life

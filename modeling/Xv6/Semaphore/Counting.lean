import Xv6.Semaphore.Slot

/-!
# The counting law

What `sem_wait` and `sem_signal` do to the count of an open slot, over whole runs.
-/

namespace Xv6.Semaphore

open Thread Tally Function Phase View

namespace Phase

def entering : Phase → Bool
  | waitIn _ => true
  | _ => false

def signalled : Phase → Bool
  | signalWake _ _ | signalOut _ => true
  | _ => false

def signals : Phase → Bool
  | signalIn _ | signalWake _ _ | signalOut _ => true
  | _ => false

def profile (x : Phase) : Bool × Bool × Bool × Bool × Bool :=
  (x.blocked, x.wakes, x.entering, x.signalled, x.sleeps)

theorem locks_of_signals (x : Phase) (h : x.signals = true) : x.locks = true := by
  cases x <;> simp_all [signals, locks]

theorem locks_of_entering (x : Phase) (h : x.entering = true) : x.locks = true := by
  cases x <;> simp_all [entering, locks]

theorem locks_of_signalled (x : Phase) (h : x.signalled = true) : x.locks = true := by
  cases x <;> simp_all [signalled, locks]

theorem locks_of_wakes (x : Phase) (h : x.wakes = true) : x.locks = true := by
  cases x <;> simp_all [wakes, locks]

theorem sleeps_of_blocked {x : Phase} (h : x.blocked = true) (hlock : x.locks = false) :
    x.sleeps = true := by
  cases x <;> simp_all [blocked, locks, sleeps]

theorem blocked_of_sleeps {x : Phase} (h : x.sleeps = true) : x.blocked = true := by
  cases x <;> simp_all [blocked, sleeps]

end Phase

structure Ledger where
  /-- The `sem_wait` calls begun: those that acquired `sem->lock`. -/
  waits : ℕ
  /-- The `sem_signal` calls done: those that released `sem->lock`. -/
  signals : ℕ
  /-- The `sem_wait` calls granted: those that took the non-negative branch, and those that
  `wakeup_one` made `RUNNABLE`. -/
  granted : ℕ
  /-- The processes asleep when the latest `sem_signal` of each process acquired `sem->lock`. -/
  found : Slot → Finset Slot
  /-- The processes that this `sem_signal` made `RUNNABLE`. -/
  woken : Slot → List Slot

namespace Ledger

def empty : Ledger :=
  { waits := 0, signals := 0, granted := 0, found := fun _ => ∅, woken := fun _ => [] }

def observe (h : Ledger) (asleep : Finset Slot) : SlotEvent → Ledger
  | .waitLocked _ => { h with waits := h.waits + 1 }
  | .waitCounted _ true => { h with granted := h.granted + 1 }
  | .signalLocked p =>
    { h with found := update h.found p asleep, woken := update h.woken p [] }
  | .woke p q =>
    { h with granted := h.granted + 1, woken := update h.woken p (h.woken p ++ [q]) }
  | .signalReturned _ => { h with signals := h.signals + 1 }
  | _ => h

end Ledger

/-! ## The invariant -/

structure Sums (value count : ℤ) (phase : Slot → Phase) (h : Ledger) : Prop where
  count_eq : count = value + h.signals + tally Phase.signalled phase - h.waits +
    tally Phase.entering phase
  granted_add : h.granted + tally Phase.blocked phase + tally Phase.entering phase = h.waits
  /-- There are as many blocked processes as the count is below zero, and one more for a
  `wakeup_one` that has not found its waiter yet. -/
  blocked_eq : (tally Phase.blocked phase : ℤ) = max 0 (-count) + tally Phase.wakes phase

def SignalOk (v : View) (h : Ledger) (p : Slot) : Prop :=
  match v.phase p with
  | .signalIn _ => h.found p = v.sleepers ∧ h.woken p = []
  | .signalWake _ i => h.found p = v.sleepers ∧ h.woken p = [] ∧
      ∀ q : Slot, q.val < i → (v.phase q).blocked = false
  | .signalOut _ => v.count ≤ 0 ∨ (h.found p).Nonempty → ∃ q ∈ h.found p, h.woken p = [q]
  | _ => True

structure Counting (value : ℤ) (v : View) (h : Ledger) : Prop where
  locking : Locking v
  active : v.active = true
  le_max : v.count ≤ INT_MAX
  opened : ∀ p x, v.phase p ≠ .allocCount x
  sums : Sums value v.count v.phase h
  signal : ∀ p, SignalOk v h p

/-- The transitions that leave the waiters of the slot to its own operations. -/
def Uncut (v : View) : SlotEvent → Prop
  | .signalCounted _ => v.count < INT_MAX
  | .killed _ | .closeWoke _ | .deactivated => False
  | _ => True

theorem signalOk_of_not_signals {v : View} {h : Ledger} {p : Slot}
    (hp : (v.phase p).signals = false) : SignalOk v h p := by
  unfold SignalOk
  split <;> simp_all [signals]

/-! ## One transition -/

variable {value : ℤ} {v v' : View} {h : Ledger} {p : Slot} {ph old : Phase}

theorem tallies (f : Slot → Phase) (hp : f p = old) (ph : Phase) :
    tally blocked (update f p ph) + (if old.blocked then 1 else 0) =
      tally blocked f + (if ph.blocked then 1 else 0) ∧
    tally wakes (update f p ph) + (if old.wakes then 1 else 0) =
      tally wakes f + (if ph.wakes then 1 else 0) ∧
    tally entering (update f p ph) + (if old.entering then 1 else 0) =
      tally entering f + (if ph.entering then 1 else 0) ∧
    tally signalled (update f p ph) + (if old.signalled then 1 else 0) =
      tally signalled f + (if ph.signalled then 1 else 0) := by
  subst hp
  exact ⟨tally_update .., tally_update .., tally_update .., tally_update ..⟩

variable {phase : Slot → Phase}

theorem Sums.neg_count_le {count : ℤ} (hs : Sums value count phase h) : -count ≤ NPROC := by
  have hcard : tally blocked phase ≤ NPROC := by simpa using tally_le_card blocked phase
  have hb := hs.blocked_eq
  omega

theorem Sums.int32_pred {count : ℤ} (hs : Sums value count phase h)
    (hmax : count ≤ INT_MAX) : int32 (count - 1) = count - 1 := by
  have hn := hs.neg_count_le
  refine int32_of_range ?_ ?_
  all_goals simp only [INT_MIN, INT_MAX, NPROC] at *; omega

theorem Sums.int32_succ {count : ℤ} (hs : Sums value count phase h)
    (hmax : count < INT_MAX) : int32 (count + 1) = count + 1 := by
  have hn := hs.neg_count_le
  refine int32_of_range ?_ ?_
  all_goals simp only [INT_MIN, INT_MAX, NPROC] at *; omega

theorem Counting.neutral (hc : Counting value v h) (hl : Locking v') (hcount : v'.count = v.count)
    (hact : v'.active = v.active) (hphase : v'.phase = update v.phase p ph)
    (hp : v.phase p = old) (hprof : ph.profile = old.profile) (hsig : ph.signals = false)
    (hopen : ∀ x, ph ≠ .allocCount x) : Counting value v' h := by
  simp only [profile, Prod.mk.injEq] at hprof
  obtain ⟨hb, hw, he, hs, hsl⟩ := hprof
  obtain ⟨hb', hw', he', hs'⟩ := tallies v.phase hp ph
  have hsame : ∀ q, (v'.phase q).blocked = (v.phase q).blocked ∧
      (v'.phase q).sleeps = (v.phase q).sleeps := by
    intro q
    rw [hphase]
    by_cases hq : q = p
    · subst hq
      simp [hp, hb, hsl]
    · simp [hq]
  have hsleepers : v'.sleepers = v.sleepers := by simp [sleepers, hsame]
  refine ⟨hl, hact.trans hc.active, hcount ▸ hc.le_max, fun q x => ?_, ?_, fun q => ?_⟩
  · rw [hphase]
    by_cases hq : q = p
    · subst hq
      simpa using hopen x
    · simpa [hq] using hc.opened q x
  · obtain ⟨h1, h2, h3⟩ := hc.sums
    rw [hb] at hb'
    rw [hw] at hw'
    rw [he] at he'
    rw [hs] at hs'
    rw [hcount, hphase]
    constructor <;> omega
  by_cases hq : q = p
  · subst hq
    exact signalOk_of_not_signals (by simpa [hphase] using hsig)
  have hok := hc.signal q
  unfold SignalOk at hok ⊢
  have hqp : v'.phase q = v.phase q := by simp [hphase, hq]
  simpa [hqp, hcount, hsleepers, hsame] using hok

theorem opened_to (ho : ∀ q x, v.phase q ≠ .allocCount x) (hph : ∀ x, ph ≠ .allocCount x) :
    ∀ q x, (v.to p ph).phase q ≠ .allocCount x := by
  intro q x
  by_cases hq : q = p
  · subst hq
    simpa [View.to] using hph x
  · simpa [View.to, hq] using ho q x

theorem Counting.inside {h' : Ledger} (hl : Locking v') (hact : v'.active = true)
    (hle : v'.count ≤ INT_MAX) (hopen : ∀ q x, v'.phase q ≠ .allocCount x)
    (hsums : Sums value v'.count v'.phase h') (hin : (v'.phase p).locks = true)
    (hp : SignalOk v' h' p) : Counting value v' h' := by
  refine ⟨hl, hact, hle, hopen, hsums, fun q => ?_⟩
  by_cases hq : q = p
  · exact hq ▸ hp
  refine signalOk_of_not_signals ?_
  have hout := hl.lock.others hin hq
  rw [← Bool.not_eq_true]
  exact fun hsig => by simp [locks_of_signals _ hsig] at hout

attribute [local simp] Phase.wakes Phase.signalled Phase.entering

section Steps

variable {k : ℕ} (hc : Counting value v h)

include hc

theorem Counting.waitAcquire (hp : v.phase p = .waitCall k)
    (hl : Locking ({ v with lock := some p }.to p (.waitIn k))) :
    Counting value ({ v with lock := some p }.to p (.waitIn k)) { h with waits := h.waits + 1 } := by
  obtain ⟨hb, hw, he, hs⟩ := tallies v.phase hp (.waitIn k)
  obtain ⟨h1, h2, h3⟩ := hc.sums
  refine .inside hl hc.active hc.le_max (opened_to hc.opened (by simp)) ?_
    (p := p) (by simp [View.to, Phase.locks]) (by simp [SignalOk, View.to])
  simp [Phase.blocked] at hb hw he hs
  constructor <;> simp only [View.to] <;> omega

theorem Counting.wakes_eq_zero (hp : (v.phase p).locks = true) (hnot : (v.phase p).wakes = false) :
    tally wakes v.phase = 0 := hc.locking.tally_eq_zero locks_of_wakes hp hnot

theorem Counting.waitBlock (hp : v.phase p = .waitIn k) (hneg : int32 (v.count - 1) < 0)
    (hl : Locking ({ v with count := int32 (v.count - 1) }.to p (.blocking k))) :
    Counting value ({ v with count := int32 (v.count - 1) }.to p (.blocking k)) h := by
  obtain ⟨hb, hw, he, hs⟩ := tallies v.phase hp (.blocking k)
  obtain ⟨h1, h2, h3⟩ := hc.sums
  have hz := hc.wakes_eq_zero (p := p) (by simp [hp, Phase.locks]) (by simp [hp])
  have hle := hc.le_max
  rw [hc.sums.int32_pred hle] at hneg hl ⊢
  refine .inside hl hc.active ?_ (opened_to hc.opened (by simp)) ?_
    (p := p) (by simp [View.to, Phase.locks]) (by simp [SignalOk, View.to])
  · simp only [View.to]
    omega
  · simp [Phase.blocked] at hb hw he hs
    constructor <;> simp only [View.to] <;> omega

theorem Counting.waitGrant (hp : v.phase p = .waitIn k) (hnonneg : 0 ≤ int32 (v.count - 1))
    (hl : Locking ({ v with count := int32 (v.count - 1) }.to p (.granted k))) :
    Counting value ({ v with count := int32 (v.count - 1) }.to p (.granted k))
      { h with granted := h.granted + 1 } := by
  obtain ⟨hb, hw, he, hs⟩ := tallies v.phase hp (.granted k)
  obtain ⟨h1, h2, h3⟩ := hc.sums
  have hz := hc.wakes_eq_zero (p := p) (by simp [hp, Phase.locks]) (by simp [hp])
  have hle := hc.le_max
  rw [hc.sums.int32_pred hle] at hnonneg hl ⊢
  refine .inside hl hc.active ?_ (opened_to hc.opened (by simp)) ?_
    (p := p) (by simp [View.to, Phase.locks]) (by simp [SignalOk, View.to])
  · simp only [View.to]
    omega
  · simp [Phase.blocked] at hb hw he hs
    constructor <;> simp only [View.to] <;> omega

theorem Counting.commit (hp : v.phase p = .blocking k) (hl : Locking (v.to p (.committed k))) :
    Counting value (v.to p (.committed k)) h := by
  obtain ⟨hb, hw, he, hs⟩ := tallies v.phase hp (.committed k)
  obtain ⟨h1, h2, h3⟩ := hc.sums
  refine .inside hl hc.active hc.le_max (opened_to hc.opened (by simp)) ?_
    (p := p) (by simp [View.to, Phase.locks]) (by simp [SignalOk, View.to])
  simp [Phase.blocked] at hb hw he hs
  constructor <;> simp only [View.to] <;> omega

theorem Counting.signalAcquire (hp : v.phase p = .signalCall k)
    (hl : Locking ({ v with lock := some p }.to p (.signalIn k))) :
    Counting value ({ v with lock := some p }.to p (.signalIn k))
      { h with found := update h.found p v.sleepers
               woken := update h.woken p [] } := by
  obtain ⟨hb, hw, he, hs⟩ := tallies v.phase hp (.signalIn k)
  obtain ⟨h1, h2, h3⟩ := hc.sums
  have hsl : ({ v with lock := some p }.to p (.signalIn k)).sleepers = v.sleepers :=
    View.sleepers_to (by simp [hp, Phase.sleeps])
  refine .inside hl hc.active hc.le_max (opened_to hc.opened (by simp)) ?_
    (p := p) (by simp [View.to, Phase.locks]) ?_
  · simp [Phase.blocked] at hb hw he hs
    constructor <;> simp only [View.to] <;> omega
  · simp only [SignalOk, hsl]
    simp [View.to]

theorem Counting.blocked_eq_sleeps (hp : (v.phase p).locks = true)
    (hnot : (v.phase p).blocked = false) (q : Slot) : (v.phase q).blocked = (v.phase q).sleeps := by
  by_cases hq : q = p
  · subst hq
    rw [hnot, eq_comm, ← Bool.not_eq_true]
    exact fun hsl => by simp [blocked_of_sleeps hsl] at hnot
  · have hout := hc.locking.lock.others hp hq
    rw [Bool.eq_iff_iff]
    exact ⟨fun hb => sleeps_of_blocked hb hout, blocked_of_sleeps⟩

theorem Counting.signalWakes (hp : v.phase p = .signalIn k) (hle : int32 (v.count + 1) ≤ 0)
    (hmax : v.count < INT_MAX)
    (hl : Locking ({ v with count := int32 (v.count + 1) }.to p (.signalWake k 0))) :
    Counting value ({ v with count := int32 (v.count + 1) }.to p (.signalWake k 0)) h := by
  obtain ⟨hb, hw, he, hs⟩ := tallies v.phase hp (.signalWake k 0)
  obtain ⟨h1, h2, h3⟩ := hc.sums
  have hok := hc.signal p
  have hz := hc.wakes_eq_zero (p := p) (by simp [hp, Phase.locks]) (by simp [hp])
  rw [hc.sums.int32_succ hmax] at hle hl ⊢
  have hsl : ({ v with count := v.count + 1 }.to p (.signalWake k 0)).sleepers = v.sleepers :=
    View.sleepers_to (by simp [hp, Phase.sleeps])
  refine .inside hl hc.active ?_ (opened_to hc.opened (by simp)) ?_
    (p := p) (by simp [View.to, Phase.locks]) ?_
  · simp only [View.to]
    omega
  · simp [Phase.blocked] at hb hw he hs
    constructor <;> simp only [View.to] <;> omega
  · simp only [SignalOk, hp] at hok
    simp only [SignalOk, hsl]
    simpa [View.to] using hok

theorem Counting.signalFree (hp : v.phase p = .signalIn k) (hgt : 0 < int32 (v.count + 1))
    (hmax : v.count < INT_MAX)
    (hl : Locking ({ v with count := int32 (v.count + 1) }.to p (.signalOut k))) :
    Counting value ({ v with count := int32 (v.count + 1) }.to p (.signalOut k)) h := by
  obtain ⟨hb, hw, he, hs⟩ := tallies v.phase hp (.signalOut k)
  obtain ⟨h1, h2, h3⟩ := hc.sums
  have hok := hc.signal p
  have hz := hc.wakes_eq_zero (p := p) (by simp [hp, Phase.locks]) (by simp [hp])
  rw [hc.sums.int32_succ hmax] at hgt hl ⊢
  refine .inside hl hc.active ?_ (opened_to hc.opened (by simp)) ?_
    (p := p) (by simp [View.to, Phase.locks]) ?_
  · simp only [View.to]
    omega
  · simp [Phase.blocked] at hb hw he hs
    constructor <;> simp only [View.to] <;> omega
  -- a count that is not negative leaves nobody to be found
  have hnone : tally Phase.blocked v.phase = 0 := by omega
  have hempty : h.found p = ∅ := by
    simp only [SignalOk, hp] at hok
    rw [hok.1, Finset.eq_empty_iff_forall_notMem]
    intro q hq
    have hbq := Phase.blocked_of_sleeps (View.mem_sleepers.mp hq)
    simp [tally_eq_zero_iff.mp hnone q] at hbq
  simp only [SignalOk, View.to, update_self, hempty]
  rintro (hle | hne)
  · omega
  · simp at hne

theorem Counting.signalSkip {i : ℕ} (hp : v.phase p = .signalWake k i) (hi : i < NPROC)
    (hskip : (v.phase ⟨i, hi⟩).sleeps = false) (hl : Locking (v.to p (.signalWake k (i + 1)))) :
    Counting value (v.to p (.signalWake k (i + 1))) h := by
  obtain ⟨hb, hw, he, hs⟩ := tallies v.phase hp (.signalWake k (i + 1))
  obtain ⟨h1, h2, h3⟩ := hc.sums
  have hok := hc.signal p
  have hbs := hc.blocked_eq_sleeps (p := p) (by simp [hp, Phase.locks]) (by simp [hp, Phase.blocked])
  have hsl : (v.to p (.signalWake k (i + 1))).sleepers = v.sleepers :=
    View.sleepers_to (by simp [hp, Phase.sleeps])
  refine .inside hl hc.active hc.le_max (opened_to hc.opened (by simp)) ?_
    (p := p) (by simp [View.to, Phase.locks]) ?_
  · simp [Phase.blocked] at hb hw he hs
    constructor <;> simp only [View.to] <;> omega
  simp only [SignalOk, hp] at hok
  obtain ⟨hfound, hwoken, hscan⟩ := hok
  simp only [SignalOk, View.to, update_self]
  refine ⟨hfound.trans hsl.symm, hwoken, fun q hq => ?_⟩
  by_cases hqp : q = p
  · subst hqp
    simp [Phase.blocked]
  rw [update_of_ne hqp]
  rcases Nat.lt_succ_iff_lt_or_eq.mp hq with hlt | heq
  · exact hscan q hlt
  · obtain rfl : q = ⟨i, hi⟩ := Fin.ext heq
    rw [hbs, hskip]

theorem Counting.signalEnd_false {i : ℕ} (hp : v.phase p = .signalWake k i) (hi : NPROC ≤ i) :
    False := by
  have hok := hc.signal p
  simp only [SignalOk, hp] at hok
  have hnone : tally blocked v.phase = 0 :=
    tally_eq_zero_iff.mpr fun q => hok.2.2 q (lt_of_lt_of_le q.isLt hi)
  have hone : tally wakes v.phase = 1 := by
    refine tally_eq_one (i := p) (by simp [hp, wakes]) fun q hq => ?_
    exact hc.locking.lock.unique (locks_of_wakes _ hq) (by simp [hp, locks])
  have hb := hc.sums.blocked_eq
  omega

theorem Counting.signalHit {k' : ℕ} {q : Slot} (hp : v.phase p = .signalWake k q.val) (hne : q ≠ p)
    (hq : v.phase q = .asleep k') (hl : Locking ((v.to q (.woken k')).to p (.signalOut k))) :
    Counting value ((v.to q (.woken k')).to p (.signalOut k))
      { h with granted := h.granted + 1
               woken := update h.woken p (h.woken p ++ [q]) } := by
  have hp' : (v.to q (.woken k')).phase p = .signalWake k q.val := by
    simpa [View.to, hne.symm] using hp
  obtain ⟨hbq, hwq, heq, hsq⟩ := tallies v.phase hq (.woken k')
  obtain ⟨hb, hw, he, hs⟩ := tallies (v.to q (.woken k')).phase hp' (.signalOut k)
  obtain ⟨h1, h2, h3⟩ := hc.sums
  have hok := hc.signal p
  refine .inside hl hc.active hc.le_max (opened_to (opened_to hc.opened (by simp)) (by simp)) ?_
    (p := p) (by simp [View.to, Phase.locks]) ?_
  · simp [Phase.blocked] at hb hw he hs hbq hwq heq hsq
    simp only [View.to] at hb hw he hs
    constructor <;> simp only [View.to] <;> omega
  simp only [SignalOk, hp] at hok
  simp only [SignalOk, View.to, update_self]
  refine fun _ => ⟨q, ?_, by simp [hok.2.1]⟩
  rw [hok.1, View.mem_sleepers, hq]
  rfl

theorem Counting.signalReturn (hp : v.phase p = .signalOut k)
    (hl : Locking ({ v with lock := none }.to p .out)) :
    Counting value ({ v with lock := none }.to p .out) { h with signals := h.signals + 1 } := by
  obtain ⟨hb, hw, he, hs⟩ := tallies v.phase hp .out
  obtain ⟨h1, h2, h3⟩ := hc.sums
  refine ⟨hl, hc.active, hc.le_max, opened_to hc.opened (by simp), ?_, fun q => ?_⟩
  · simp [Phase.blocked] at hb hw he hs
    constructor <;> simp only [View.to] <;> omega
  refine signalOk_of_not_signals ?_
  have hout := hl.lock.outside rfl q
  rw [← Bool.not_eq_true]
  exact fun hsig => by simp [Phase.locks_of_signals _ hsig] at hout

/-- **Every transition that meets `Uncut` keeps the counting law.** -/
theorem Counting.step {e : SlotEvent} (hs : SlotStep v e v') (hok : Uncut v e) :
    Counting value v' (h.observe v.sleepers e) := by
  have hl := hc.locking.step hs
  cases hs with
  | stutter => exact hc
  | waitCheck hp _ | unlock hp _ | fall hp | relock hp _ | record hp | waitReturn hp _
  | signalCheck hp _ | closeCheck hp _ | closeAcquire hp _ | closeSkip hp _ _ | closeEnd hp _
  | closeReturn hp _ | tableAcquire hp _ | tableRelease hp _ | ganttCheck hp _ | ganttDone hp =>
    exact hc.neutral hl rfl rfl rfl hp rfl rfl (by simp)
  | waitAcquire hp _ => exact hc.waitAcquire hp hl
  | waitBlock hp hneg => exact hc.waitBlock hp hneg hl
  | waitGrant hp hnonneg => exact hc.waitGrant hp hnonneg hl
  | commit hp => exact hc.commit hp hl
  | signalAcquire hp _ => exact hc.signalAcquire hp hl
  | signalWakes hp hle => exact hc.signalWakes hp hle hok hl
  | signalFree hp hgt => exact hc.signalFree hp hgt hok hl
  | signalSkip hp hi hskip => exact hc.signalSkip hp hi hskip hl
  | signalHit hp hne hq => exact hc.signalHit hp hne hq hl
  | signalEnd hp hi => exact (hc.signalEnd_false hp hi).elim
  | signalReturn hp _ => exact hc.signalReturn hp hl
  | closeHit _ _ _ | closeOff _ | kill _ => exact hok.elim
  | allocTake _ hact => simp [hc.active] at hact
  | allocSet hp => exact absurd hp (hc.opened _ _)

end Steps

end Xv6.Semaphore

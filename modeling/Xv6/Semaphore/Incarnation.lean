import Xv6.Semaphore.Simulation

/-!
# The incarnations of a slot

A slot is opened, closed and opened again; every `sem_alloc` of it begins an incarnation.

## Main results

* `returns_le_of_separate`: when a wait that returns 0 is an acquisition
-/

namespace Xv6.Semaphore

open Thread Machine Tally Transition Function Phase View

namespace Phase

/-- The incarnation a `sys_sem_wait` or `sys_sem_signal` in flight is about. -/
def serves : Phase → Option ℕ
  | waitCall k | waitIn k | blocking k | committed k | falling k | asleep k | woken k | granted k
  | waitOut k | signalCall k | signalIn k | signalWake k _ | signalOut k => some k
  | _ => none

def holds : Phase → Bool
  | woken _ | granted _ | waitOut _ => true
  | _ => false

/-- A `sys_sem_signal` that passed its check and has not executed `sem->count++` yet. -/
def unsignalled : Phase → Bool
  | signalCall _ | signalIn _ => true
  | _ => false

def standing (x : Phase) : Bool × Bool × Bool × Bool :=
  (x.holds, x.unsignalled, x.blocked, x.wakes)

theorem wants_ne_of_not_locksTable {x : Phase} (h : x.locksTable = false) :
    x.wants ≠ some true := by
  cases x <;> simp_all [locksTable, wants]

theorem standing_of_serves_none {x : Phase} (h : x.serves = none) :
    x.standing = (false, false, false, false) := by
  cases x <;> simp_all [serves, standing, holds, unsignalled, blocked, wakes]

end Phase

structure Account where
  /-- The value the incarnation was opened with. -/
  value : ℕ → ℤ
  /-- The `sys_sem_signal` calls that passed their check on the incarnation. -/
  signals : ℕ → ℕ
  /-- The `sys_sem_wait` calls on the incarnation that returned 0. -/
  returns : ℕ → ℕ

namespace Account

def empty : Account := { value := fun _ => 0, signals := fun _ => 0, returns := fun _ => 0 }

def observe (h : Account) (inc : ℕ) : SlotEvent → Account
  | .opened x => { h with value := update h.value inc x }
  | .signalChecked k => { h with signals := update h.signals k (h.signals k + 1) }
  | .waitReturned k => { h with returns := update h.returns k (h.returns k + 1) }
  | _ => h

end Account

/-- The transitions that keep the incarnations of a slot apart: no waiter is woken by a close or by
`kkill`, the slot is taken only when no wait or signal on it is in flight, none of them passes its
check before the count is stored, and the value is not negative. -/
def Separate (v : View) : SlotEvent → Prop
  | .closeWoke _ | .killed _ => False
  | .taken => ∀ q, (v.phase q).serves = none
  | .waitChecked _ | .signalChecked _ => ∀ q, (v.phase q).wants ≠ some true
  | .opened x => 0 ≤ x ∧ x ≤ INT_MAX
  | _ => True

instance (v : View) : DecidablePred (Separate v)
  | .closeWoke _ | .killed _ => inferInstanceAs (Decidable False)
  | .taken | .waitChecked _ | .signalChecked _ => inferInstanceAs (Decidable (∀ _, _))
  | .opened _ => inferInstanceAs (Decidable (_ ∧ _))
  | .silent | .waitLocked _ | .waitCounted _ _ | .waitReturned _ | .signalLocked _
  | .signalCounted _ | .woke _ _ | .signalReturned _ | .closePassed _ | .deactivated | .freed =>
    inferInstanceAs (Decidable True)

/-- The count of an incarnation, and the bound on the waits it lets return. -/
structure Balance (value : ℤ) (signals returns : ℕ) (count : ℤ) (phase : Slot → Phase) : Prop where
  count_eq : count = int32 (value + signals - tally Phase.unsignalled phase - returns -
    tally Phase.holds phase - tally Phase.blocked phase)
  le : (returns : ℤ) + tally Phase.holds phase + tally Phase.wakes phase ≤
    value + signals - tally Phase.unsignalled phase

structure Accounting (v : View) (h : Account) : Prop where
  locking : Locking v
  current : ∀ q k, (v.phase q).serves = some k → k = v.inc
  /-- While `sem_alloc` fills the slot in, nobody uses it. -/
  filling : ∀ q, (v.phase q).wants = some true → (∀ q', (v.phase q').serves = none) ∧
    h.value v.inc = 0 ∧ h.signals v.inc = 0 ∧ h.returns v.inc = 0
  balance : (∀ q, (v.phase q).wants ≠ some true) →
    Balance (h.value v.inc) (h.signals v.inc) (h.returns v.inc) v.count v.phase
  past : ∀ k, k < v.inc → (h.returns k : ℤ) ≤ h.value k + h.signals k
  future : ∀ k, v.inc < k → h.value k = 0 ∧ h.signals k = 0 ∧ h.returns k = 0

/-! ## One transition -/

variable {v v' : View} {h h' : Account} {p : Slot} {ph old : Phase}

theorem standings (f : Slot → Phase) (hp : f p = old) (ph : Phase) :
    tally holds (update f p ph) + (if old.holds then 1 else 0) =
      tally holds f + (if ph.holds then 1 else 0) ∧
    tally unsignalled (update f p ph) + (if old.unsignalled then 1 else 0) =
      tally unsignalled f + (if ph.unsignalled then 1 else 0) ∧
    tally blocked (update f p ph) + (if old.blocked then 1 else 0) =
      tally blocked f + (if ph.blocked then 1 else 0) ∧
    tally wakes (update f p ph) + (if old.wakes then 1 else 0) =
      tally wakes f + (if ph.wakes then 1 else 0) := by
  subst hp
  exact ⟨tally_update .., tally_update .., tally_update .., tally_update ..⟩

variable (hc : Accounting v h)

include hc

theorem Accounting.not_filling {k : ℕ} (hp : (v.phase p).serves = some k) :
    ∀ q, (v.phase q).wants ≠ some true := by
  intro q hq
  have hnone := (hc.filling q hq).1 p
  simp [hp] at hnone

theorem Accounting.not_filling_of_table
    (hp : (v.phase p).locksTable = true) (hwants : (v.phase p).wants ≠ some true) :
    ∀ q, (v.phase q).wants ≠ some true := by
  intro q
  by_cases hqp : q = p
  · rwa [hqp]
  · exact wants_ne_of_not_locksTable (hc.locking.table.others hp hqp)

theorem Accounting.within (hl : Locking v') (hinc : v'.inc = v.inc)
    (hcur : ∀ q k, (v'.phase q).serves = some k → k = v.inc)
    (hfill : ∀ q, (v'.phase q).wants ≠ some true) (hother : ∀ k, k ≠ v.inc →
      h'.value k = h.value k ∧ h'.signals k = h.signals k ∧ h'.returns k = h.returns k)
    (hbal : Balance (h'.value v.inc) (h'.signals v.inc) (h'.returns v.inc) v'.count v'.phase) :
    Accounting v' h' := by
  refine ⟨hl, by rwa [hinc], fun q hq => absurd hq (hfill q), fun _ => by rwa [hinc], ?_, ?_⟩
  · intro k hk
    obtain ⟨h1, h2, h3⟩ := hother k (by omega)
    rw [h1, h2, h3]
    exact hc.past k (hinc ▸ hk)
  intro k hk
  obtain ⟨h1, h2, h3⟩ := hother k (by omega)
  rw [h1, h2, h3]
  exact hc.future k (hinc ▸ hk)

omit hc

theorem update_current {n : ℕ} {f : Slot → Phase} (hcur : ∀ q k, (f q).serves = some k → k = n)
    (hph : ∀ k, ph.serves = some k → k = n) : ∀ q k, (update f p ph q).serves = some k → k = n := by
  intro q k hq
  by_cases hqp : q = p
  · subst hqp
    exact hph k (by simpa using hq)
  · exact hcur q k (by simpa [hqp] using hq)

theorem update_filling {f : Slot → Phase} (hfill : ∀ q, (f q).wants ≠ some true)
    (hph : ph.wants ≠ some true) : ∀ q, (update f p ph q).wants ≠ some true := by
  intro q
  by_cases hqp : q = p
  · subst hqp
    simpa using hph
  · simpa [hqp] using hfill q

theorem Balance.stay {value count : ℤ} {signals returns : ℕ} {f : Slot → Phase}
    (hb : Balance value signals returns count f) (hp : f p = old)
    (hstand : ph.standing = old.standing) :
    Balance value signals returns count (update f p ph) := by
  simp only [standing, Prod.mk.injEq] at hstand
  obtain ⟨hh, hu, hbl, hw⟩ := hstand
  obtain ⟨t1, t2, t3, t4⟩ := standings f hp ph
  rw [hh] at t1
  rw [hu] at t2
  rw [hbl] at t3
  rw [hw] at t4
  obtain ⟨h1, h2⟩ := hb
  refine ⟨?_, by omega⟩
  rw [h1]
  congr 1
  omega

theorem Accounting.neutral (hc : Accounting v h) (hl : Locking v') (hcount : v'.count = v.count)
    (hinc : v'.inc = v.inc) (hphase : v'.phase = update v.phase p ph)
    (hp : v.phase p = old) (hserves : ph.serves = old.serves)
    (hstand : ph.standing = old.standing) (hold : old.wants ≠ some true)
    (hwants : ph.wants ≠ some true) : Accounting v' h := by
  have hsame : ∀ q, (v'.phase q).serves = (v.phase q).serves ∧
      ((v'.phase q).wants = some true ↔ (v.phase q).wants = some true) := by
    intro q
    rw [hphase]
    by_cases hq : q = p
    · subst hq
      simp [hp, hserves, hold, hwants]
    · simp [hq]
  refine ⟨hl, fun q k => ?_, fun q hq => ?_, fun hfill => ?_, by rw [hinc]; exact hc.past,
    by rw [hinc]; exact hc.future⟩
  · rw [(hsame q).1, hinc]
    exact hc.current q k
  · rw [hinc]
    refine ⟨fun q' => ?_, (hc.filling q ((hsame q).2.mp hq)).2⟩
    rw [(hsame q').1]
    exact (hc.filling q ((hsame q).2.mp hq)).1 q'
  · rw [hinc, hcount, hphase]
    exact (hc.balance fun q hq => hfill q ((hsame q).2.mpr hq)).stay hp hstand

theorem Balance.of_idle {f : Slot → Phase} {x : ℤ} (hidle : ∀ q, (f q).serves = none)
    (hx : 0 ≤ x ∧ x ≤ INT_MAX) : Balance x 0 0 x f := by
  have hstand := fun q => standing_of_serves_none (hidle q)
  simp only [standing, Prod.mk.injEq] at hstand
  have hh := tally_eq_zero_iff.mpr fun q => (hstand q).1
  have hu := tally_eq_zero_iff.mpr fun q => (hstand q).2.1
  have hb := tally_eq_zero_iff.mpr fun q => (hstand q).2.2.1
  have hw := tally_eq_zero_iff.mpr fun q => (hstand q).2.2.2
  refine ⟨?_, by omega⟩
  rw [hh, hu, hb, int32_of_range (by simp only [INT_MIN]; omega) (by omega)]
  omega

section Steps

variable {value count : ℤ} {signals returns k : ℕ} {f : Slot → Phase}
  (hb : Balance value signals returns count f)

include hb

theorem Balance.waitBlock (hp : f p = .waitIn k) :
    Balance value signals returns (int32 (count - 1)) (update f p (.blocking k)) := by
  obtain ⟨t1, t2, t3, t4⟩ := standings f hp (.blocking k)
  obtain ⟨h1, h2⟩ := hb
  simp [holds, unsignalled, blocked, wakes] at t1 t2 t3 t4
  refine ⟨?_, by omega⟩
  rw [h1, int32_sub_int32]
  congr 1
  omega

theorem Balance.waitGrant (hp : f p = .waitIn k) (hnonneg : 0 ≤ int32 (count - 1))
    (hnone : tally wakes f = 0) :
    Balance value signals returns (int32 (count - 1)) (update f p (.granted k)) := by
  obtain ⟨t1, t2, t3, t4⟩ := standings f hp (.granted k)
  obtain ⟨h1, h2⟩ := hb
  have hcard : tally blocked f ≤ NPROC := by simpa using tally_le_card blocked f
  simp [holds, unsignalled, blocked, wakes] at t1 t2 t3 t4
  rw [h1, int32_sub_int32] at hnonneg
  rw [h1, int32_sub_int32]
  refine ⟨?_, ?_⟩
  · congr 1
    omega
  by_contra hlt
  rw [int32_of_range (by simp only [INT_MIN, NPROC] at *; omega)
    (by simp only [INT_MAX] at *; omega)] at hnonneg
  omega

theorem Balance.signalCount {i : ℕ} (hp : f p = .signalIn k) :
    Balance value signals returns (int32 (count + 1)) (update f p (.signalWake k i)) ∧
    Balance value signals returns (int32 (count + 1)) (update f p (.signalOut k)) := by
  obtain ⟨t1, t2, t3, t4⟩ := standings f hp (.signalWake k i)
  obtain ⟨u1, u2, u3, u4⟩ := standings f hp (.signalOut k)
  obtain ⟨h1, h2⟩ := hb
  simp [holds, unsignalled, blocked, wakes] at t1 t2 t3 t4 u1 u2 u3 u4
  rw [h1, int32_add_int32]
  refine ⟨⟨?_, by omega⟩, ⟨?_, by omega⟩⟩ <;> congr 1 <;> omega

theorem Balance.signalHit {k' : ℕ} {q : Slot} (hp : f p = .signalWake k q.val) (hne : q ≠ p)
    (hq : f q = .asleep k') : Balance value signals returns count
      (update (update f q (.woken k')) p (.signalOut k)) := by
  have hp' : update f q (.woken k') p = .signalWake k q.val := by simpa [hne.symm] using hp
  obtain ⟨t1, t2, t3, t4⟩ := standings f hq (.woken k')
  obtain ⟨u1, u2, u3, u4⟩ := standings (update f q (.woken k')) hp' (.signalOut k)
  obtain ⟨h1, h2⟩ := hb
  simp [holds, unsignalled, blocked, wakes] at t1 t2 t3 t4 u1 u2 u3 u4
  refine ⟨?_, by omega⟩
  rw [h1]
  congr 1
  omega

theorem Balance.signalEnd {i : ℕ} (hp : f p = .signalWake k i) :
    Balance value signals returns count (update f p (.signalOut k)) := by
  obtain ⟨t1, t2, t3, t4⟩ := standings f hp (.signalOut k)
  obtain ⟨h1, h2⟩ := hb
  simp [holds, unsignalled, blocked, wakes] at t1 t2 t3 t4
  refine ⟨?_, by omega⟩
  rw [h1]
  congr 1
  omega

theorem Balance.waitReturn (hp : f p = .waitOut k) :
    Balance value signals (returns + 1) count (update f p .out) := by
  obtain ⟨t1, t2, t3, t4⟩ := standings f hp .out
  obtain ⟨h1, h2⟩ := hb
  simp [holds, unsignalled, blocked, wakes] at t1 t2 t3 t4
  refine ⟨?_, by omega⟩
  rw [h1]
  congr 1
  omega

theorem Balance.signalCheck (hp : f p = .out) :
    Balance value (signals + 1) returns count (update f p (.signalCall k)) := by
  obtain ⟨t1, t2, t3, t4⟩ := standings f hp (.signalCall k)
  obtain ⟨h1, h2⟩ := hb
  simp [holds, unsignalled, blocked, wakes] at t1 t2 t3 t4
  refine ⟨?_, by omega⟩
  rw [h1]
  congr 1
  omega

end Steps

theorem Accounting.serve {k : ℕ} (hc : Accounting v h) (hl : Locking v') (hinc : v'.inc = v.inc)
    (hp : (v.phase p).serves = some k) (hphase : v'.phase = update v.phase p ph)
    (hserves : ph.serves = some k) (hwants : ph.wants ≠ some true)
    (hbal : Balance (h.value v.inc) (h.signals v.inc) (h.returns v.inc) v.count v.phase →
      Balance (h.value v.inc) (h.signals v.inc) (h.returns v.inc) v'.count v'.phase) :
    Accounting v' h := by
  have hnone := hc.not_filling hp
  refine hc.within hl hinc ?_ ?_ (fun _ _ => ⟨rfl, rfl, rfl⟩) (hbal (hc.balance hnone))
  · rw [hphase]
    refine update_current hc.current fun k' hk' => ?_
    rw [hserves] at hk'
    exact Option.some.inj hk' ▸ hc.current p k hp
  · rw [hphase]
    exact update_filling hnone hwants

attribute [local simp] Account.observe

include hc

theorem Accounting.waitReturn {k : ℕ} (hp : v.phase p = .waitOut k)
    (hl : Locking ({ v with lock := none }.to p .out)) :
    Accounting ({ v with lock := none }.to p .out) (h.observe v.inc (.waitReturned k)) := by
  have hserves : (v.phase p).serves = some k := by rw [hp]; rfl
  have hnone := hc.not_filling hserves
  obtain rfl := hc.current p k hserves
  refine hc.within hl rfl (update_current hc.current (by simp [Phase.serves]))
    (update_filling hnone (by simp [Phase.wants])) (fun k hk => ?_) ?_
  · simp [hk]
  · simpa [View.to] using (hc.balance hnone).waitReturn hp

theorem Accounting.signalReturn {k : ℕ} (hp : v.phase p = .signalOut k)
    (hl : Locking ({ v with lock := none }.to p .out)) :
    Accounting ({ v with lock := none }.to p .out) h := by
  have hnone := hc.not_filling (p := p) (k := k) (by rw [hp]; rfl)
  refine hc.within hl rfl (update_current hc.current (by simp [serves]))
    (update_filling hnone (by simp [wants])) (fun _ _ => ⟨rfl, rfl, rfl⟩) ?_
  exact (hc.balance hnone).stay hp rfl

theorem Accounting.waitCheck (hp : v.phase p = .out)
    (hfill : ∀ q, (v.phase q).wants ≠ some true) (hl : Locking (v.to p (.waitCall v.inc))) :
    Accounting (v.to p (.waitCall v.inc)) h := by
  refine hc.within hl rfl (update_current hc.current (by simp [serves]))
    (update_filling hfill (by simp [wants])) (fun _ _ => ⟨rfl, rfl, rfl⟩) ?_
  exact (hc.balance hfill).stay hp rfl

theorem Accounting.signalCheck (hp : v.phase p = .out)
    (hfill : ∀ q, (v.phase q).wants ≠ some true) (hl : Locking (v.to p (.signalCall v.inc))) :
    Accounting (v.to p (.signalCall v.inc)) (h.observe v.inc (.signalChecked v.inc)) := by
  refine hc.within hl rfl (update_current hc.current (by simp [Phase.serves]))
    (update_filling hfill (by simp [Phase.wants])) (fun k hk => ?_) ?_
  · simp [hk]
  · simpa [View.to] using (hc.balance hfill).signalCheck hp

theorem Accounting.allocTake {x : ℤ} (hp : v.phase p = .otherTable)
    (hidle : ∀ q, (v.phase q).serves = none)
    (hl : Locking ({ v with active := true, inc := v.inc + 1 }.to p (.allocCount x))) :
    Accounting ({ v with active := true, inc := v.inc + 1 }.to p (.allocCount x)) h := by
  have hidle' : ∀ q, (update v.phase p (.allocCount x) q).serves = none := by
    intro q
    by_cases hqp : q = p
    · subst hqp
      simp [Phase.serves]
    · simpa [hqp] using hidle q
  refine ⟨hl, fun q k hq => ?_, fun q _ => ⟨hidle', hc.future _ (Nat.lt_succ_self _)⟩,
    fun hfill => ?_, fun k hk => ?_, fun k hk => hc.future k (Nat.lt_of_succ_lt hk)⟩
  · simp [View.to, hidle' q] at hq
  · exact absurd (by simp [View.to, Phase.wants]) (hfill p)
  rcases Nat.lt_succ_iff_lt_or_eq.mp hk with hlt | rfl
  · exact hc.past k hlt
  · obtain ⟨-, hle⟩ := hc.balance (hc.not_filling_of_table (by rw [hp]; rfl) (by simp [hp, Phase.wants]))
    omega

theorem Accounting.allocSet {x : ℤ} (hp : v.phase p = .allocCount x)
    (hx : 0 ≤ x ∧ x ≤ INT_MAX) (hl : Locking ({ v with count := x }.to p .otherTable)) :
    Accounting ({ v with count := x }.to p .otherTable) (h.observe v.inc (.opened x)) := by
  obtain ⟨hidle, -, hsig, hret⟩ := hc.filling p (by rw [hp]; rfl)
  have hidle' : ∀ q, (update v.phase p .otherTable q).serves = none := by
    intro q
    by_cases hqp : q = p
    · subst hqp
      simp [Phase.serves]
    · simpa [hqp] using hidle q
  refine hc.within hl rfl (fun q k hq => ?_) (fun q => ?_) (fun k hk => ?_) ?_
  · simp [View.to, hidle' q] at hq
  · by_cases hqp : q = p
    · subst hqp
      simp [View.to, Phase.wants]
    · have hout := hc.locking.table.others (i := p) (by rw [hp]; rfl) hqp
      simp only [View.to, update_of_ne hqp]
      exact Phase.wants_ne_of_not_locksTable hout
  · simp [hk]
  · simpa [hsig, hret, View.to] using Balance.of_idle hidle' hx

theorem Accounting.step {e : SlotEvent} (hs : SlotStep v e v')
    (hok : Separate v e) : Accounting v' (h.observe v.inc e) := by
  have hl := hc.locking.step hs
  cases hs with
  | stutter => exact hc
  | waitAcquire hp _ | commit hp | unlock hp _ | fall hp | relock hp _ | record hp
  | signalAcquire hp _ | signalSkip hp _ _ | closeCheck hp _ | closeAcquire hp _
  | closeSkip hp _ _ | closeEnd hp _ | closeOff hp | closeReturn hp _ | tableAcquire hp _
  | tableRelease hp _ | ganttCheck hp _ | ganttDone hp =>
    exact hc.neutral hl rfl rfl rfl hp rfl rfl (by simp [wants]) (by simp [wants])
  | @waitBlock p k hp _ =>
    exact hc.serve hl rfl (k := k) (by rw [hp]; rfl) rfl rfl (by simp [wants])
      fun hb => hb.waitBlock hp
  | @waitGrant p k hp hnonneg =>
    have hz := hc.locking.tally_eq_zero (p := p) (P := wakes)
      (by intro x hx; cases x <;> simp_all [wakes, locks]) (by rw [hp]; rfl)
      (by rw [hp]; rfl)
    exact hc.serve hl rfl (k := k) (by rw [hp]; rfl) rfl rfl (by simp [wants])
      fun hb => hb.waitGrant hp hnonneg hz
  | @signalWakes p k hp _ =>
    exact hc.serve hl rfl (k := k) (by rw [hp]; rfl) rfl rfl (by simp [wants])
      fun hb => (hb.signalCount hp).1
  | @signalFree p k hp _ =>
    exact hc.serve hl rfl (k := k) (by rw [hp]; rfl) rfl rfl (by simp [wants])
      fun hb => (hb.signalCount (i := 0) hp).2
  | @signalEnd p k i hp _ =>
    exact hc.serve hl rfl (k := k) (by rw [hp]; rfl) rfl rfl (by simp [wants])
      fun hb => hb.signalEnd hp
  | @signalHit p q k k' hp hne hq =>
    have hnone := hc.not_filling (p := p) (k := k) (by rw [hp]; rfl)
    refine hc.within hl rfl (update_current (update_current hc.current ?_) ?_)
      (update_filling (update_filling hnone (by simp [wants])) (by simp [wants]))
      (fun _ _ => ⟨rfl, rfl, rfl⟩) ((hc.balance hnone).signalHit hp hne hq)
    · rintro _ ⟨rfl⟩
      exact hc.current q k' (by rw [hq]; rfl)
    · rintro _ ⟨rfl⟩
      exact hc.current p k (by rw [hp]; rfl)
  | waitReturn hp _ => exact hc.waitReturn hp hl
  | signalReturn hp _ => exact hc.signalReturn hp hl
  | waitCheck hp _ => exact hc.waitCheck hp hok hl
  | signalCheck hp _ => exact hc.signalCheck hp hok hl
  | closeHit _ _ _ | kill _ => exact hok.elim
  | allocTake hp _ => exact hc.allocTake hp hok hl
  | allocSet hp => exact hc.allocSet hp hok hl

omit hc

/-! ## Runs of the machine -/

def accountStep (id : SemId) : State × Account → Act Label → Option (State × Account) :=
  withHistory step fun h m a => h.observe (m.shared.semTable id).inc (event id m a)

theorem accounting_boot (id : SemId) : Accounting (view id boot) .empty where
  locking := locking_boot id
  current _ _ h := nomatch h
  filling _ h := nomatch h
  balance _ := .of_idle (fun _ => rfl) ⟨Int.le_refl 0, show (0 : ℤ) ≤ INT_MAX by decide⟩
  past _ h := absurd h (Nat.not_lt_zero _)
  future _ _ := ⟨rfl, rfl, rfl⟩

theorem Accounting.returns_le (hc : Accounting v h) (k : ℕ) :
    (h.returns k : ℤ) ≤ h.value k + h.signals k := by
  rcases Nat.lt_trichotomy k v.inc with hlt | rfl | hgt
  · exact hc.past k hlt
  · by_cases hfill : ∀ q, (v.phase q).wants ≠ some true
    · have hle := (hc.balance hfill).le
      omega
    simp only [not_forall, not_not] at hfill
    obtain ⟨q, hq⟩ := hfill
    obtain ⟨-, hval, hsig, hret⟩ := hc.filling q hq
    omega
  · obtain ⟨hval, hsig, hret⟩ := hc.future k hgt
    omega

/-- **Where the incarnations of a slot are kept apart, a successful wait is an acquisition.** -/
theorem returns_le_of_separate {id : SemId} {m : State}
    (hrun : Reach (accountStep id) (fun s a => Separate (view id s.1) (event id s.1 a))
      (boot, .empty) (m, h)) (k : ℕ) :
    (h.returns k : ℤ) ≤ h.value k + h.signals k ∧
      (h.value k = 1 → h.signals k = 0 → h.returns k ≤ 1) := by
  obtain ⟨-, hc⟩ := hrun.invariant (I := fun s => Wf code s.1 ∧ Accounting (view id s.1) s.2)
    ⟨wf_boot, accounting_boot id⟩ (by
      rintro s a s' ⟨hwf, hc⟩ hok hs
      obtain ⟨hstep, hhist⟩ := withHistory_eq_some.mp hs
      rw [hhist]
      exact ⟨hwf.stepCase (.of_step hstep), hc.step (slotStep_of_step hwf hstep) hok⟩)
  have hle := hc.returns_le k
  refine ⟨hle, fun hval hsig => ?_⟩
  simp only at hle
  omega

/-- Three processes. -/
def contended : List (Act Label) :=
  List.flatten [spawn 0 1, spawn 1 2, spawn 2 3, calls 0 (.sysSemOpen 1 []) 6,
    calls 0 (.sysSemWait 0) 6, calls 1 (.sysSemWait 0) 8]

/-- The first process signals, and the wait of the second one returns too. -/
theorem returns_le_of_separate_signal : ∃ m h,
    Reach (accountStep 0) (fun s a => Separate (view 0 s.1) (event 0 s.1 a)) (boot, .empty) (m, h) ∧
    h.value 1 = 1 ∧ h.signals 1 = 1 ∧ h.returns 1 = 2 ∧
    (h.returns 1 : ℤ) ≤ h.value 1 + h.signals 1 := by
  obtain ⟨⟨m, h⟩, hrun, hf⟩ := exists_reach (accountStep 0)
    (fun s a => decide (Separate (view 0 s.1) (event 0 s.1 a))) (boot, .empty)
    (List.flatten [contended, calls 0 (.sysSemSignal 0) 8, [.dispatch 1], steps 1 3])
    (fun s => (s.2.value 1, s.2.signals 1, s.2.returns 1)) (1, 1, 2) (by decide +kernel)
  simp only [Prod.mk.injEq] at hf
  have hrun' := hrun.mono fun _ _ h => of_decide_eq_true h
  exact ⟨m, h, hrun', hf.1, hf.2.1, hf.2.2, (returns_le_of_separate hrun' 1).1⟩

/-- **A close grants a unit that is not there.** The third process closes the slot, and the wait of
the second one returns 0 although the first one has not signalled. -/
theorem close_grants_unit : ∃ m h,
    Reach (accountStep 0) (fun s a => killsNobody s.1 a = true) (boot, .empty) (m, h) ∧
    h.value 1 = 1 ∧ h.signals 1 = 0 ∧ h.returns 1 = 2 := by
  obtain ⟨⟨m, h⟩, hrun, hf⟩ := exists_reach (accountStep 0) (fun s a => killsNobody s.1 a)
    (boot, .empty)
    (List.flatten [contended, calls 2 (.sysSemClose 0) 71, [.dispatch 1], steps 1 3])
    (fun s => (s.2.value 1, s.2.signals 1, s.2.returns 1)) (1, 0, 2) (by decide +kernel)
  simp only [Prod.mk.injEq] at hf
  exact ⟨m, h, hrun, hf⟩

end Xv6.Semaphore

import Xv6.Proc.Monitor

/-!
# Sleep-locks

`acquiresleep`, `releasesleep` and `holdingsleep` of `sleeplock.c`, run by the processes of the
machine.

## Main results

* `sleeplock_correct`: mutual exclusion, and no lost wakeup
-/

namespace Xv6.Thread.Sleeplock

open Machine Transition Function

structure SleepLock where
  locked : Bool
  pid : ℤ
  deriving DecidableEq

inductive Label
  | user
  | inside
  | acquiresleep
  | acquireTest
  | acquireSleep
  | acquireUnlock
  | releasesleep
  | releaseClear
  | releaseWakeup
  | releaseUnlock
  | holdingsleep (has : Bool)
  | holdingTest (has : Bool)
  | holdingUnlock (has r : Bool)
  | kkill (has : Bool) (pid : ℤ)
  deriving DecidableEq

def back (has : Bool) : Label := if has then .inside else .user

def holdingsleep {C : Type} (me : Proc C) (lk : SleepLock) : Bool := lk.locked && lk.pid = me.pid

def instr : Label → Instr Unit Unit SleepLock Label
  | .user => .choose
  | .inside => .choose
  | .acquiresleep => .acquire () .acquireTest
  | .acquireTest => .exec fun me lk =>
    if lk.locked then (lk, .acquireSleep) else (⟨true, me.pid⟩, .acquireUnlock)
  | .acquireSleep => .sleep () () .acquireTest
  | .acquireUnlock => .release () .inside
  | .releasesleep => .acquire () .releaseClear
  | .releaseClear => .exec fun _ _ => (⟨false, 0⟩, .releaseWakeup)
  | .releaseWakeup => .wakeup () .releaseUnlock
  | .releaseUnlock => .release () .user
  | .holdingsleep has => .acquire () (.holdingTest has)
  | .holdingTest has => .exec fun me lk => (lk, .holdingUnlock has (holdingsleep me lk))
  | .holdingUnlock has _ => .release () (back has)
  | .kkill has pid => .kkill pid (back has) (back has)

def entry : Label → Label → Bool
  | .user, .acquiresleep => true
  | .inside, .releasesleep => true
  | .user, .holdingsleep has => !has
  | .inside, .holdingsleep has => has
  | .user, .kkill has _ => !has
  | .inside, .kkill has _ => has
  | _, _ => false

def holds : Label → Bool
  | .acquireTest | .acquireSleep | .acquireUnlock | .releaseClear | .releaseWakeup
  | .releaseUnlock | .holdingTest _ | .holdingUnlock _ _ => true
  | _ => false

/-- The sleep-lock was released and its sleepers are not woken yet. -/
def owes : Label → Bool
  | .releaseWakeup => true
  | _ => false

def saw : Label → Bool
  | .acquireSleep => true
  | _ => false

def owns : Label → Bool
  | .inside | .acquireUnlock | .releasesleep | .releaseClear => true
  | .holdingsleep has | .holdingTest has | .holdingUnlock has _ | .kkill has _ => has
  | _ => false

def available (lk : SleepLock) : Bool := !lk.locked

def code : Code Unit Unit SleepLock Label where
  instr := instr
  user := .user
  entry := entry
  intrOn l := !holds l
  tick := id

def boot : Machine Unit Unit SleepLock Label where
  shared := ⟨false, 0⟩
  lock _ := none
  proc _ := .free
  ctl _ := .run .user

def freshPid (m : Machine Unit Unit SleepLock Label) : Act Label → Bool
  | .fork _ pid _ => ∀ q, (m.proc q).state ≠ .unused → (m.proc q).pid ≠ pid
  | _ => true

theorem monitor : Monitor code () () available holds owes saw fun _ _ _ => True := by
  refine .of_instr (.of_instr (fun l => ?_) fun cur l h he => ?_) (fun l => ?_) (fun l => ?_)
    (fun cur l h => ?_) (fun _ => rfl) (fun l f me s h hfree => ?_)
    (fun l f me s h _ htrue hor => ?_) fun l f me s h _ _ hsaw => ?_
  · cases l <;> simp only [code, instr, GuardsAt] <;>
      first | (intros; (try split) <;> rfl) | simp [holds] <;> rename_i has _ <;> cases has <;> rfl
  · cases cur <;> simp [code, instr] at h <;> cases l <;> simp_all [code, entry, holds]
  · cases l <;> simp [owes, saw, holds]
  · cases l <;> simp [code, instr, MonitorAt, owes, saw, holds] <;> rename_i has _ <;>
      cases has <;> rfl
  · cases cur <;> cases l <;> simp_all [code, entry, saw]
  · cases l <;> simp [code, instr, holds] at h hfree
  · cases l <;> simp only [code, instr, Instr.exec.injEq, reduceCtorEq] at h <;> subst h
    · dsimp only at htrue ⊢
      split at htrue
      · simp_all [available, owes]
      · simp [available] at htrue
    · rfl
    · simp_all [owes]
  cases l <;> simp only [code, instr, Instr.exec.injEq, reduceCtorEq] at h <;> subst h
  · dsimp only at hsaw ⊢
    split at hsaw
    · simp_all [available]
    · simp [saw] at hsaw
  · simp [saw] at hsaw
  · simp [saw] at hsaw

theorem carries : Carries code owns := by
  refine .of_instr fun l => ?_
  cases l <;> simp [code, instr, CarriesAt, owns] <;> rename_i has _ <;> cases has <;> rfl

/-! ## The owner -/

variable {m m' : Machine Unit Unit SleepLock Label}

def Owns (m : Machine Unit Unit SleepLock Label) (p : Slot) : Prop := owns (base (m.ctl p)) = true

structure Owned (m : Machine Unit Unit SleepLock Label) : Prop where
  recorded : ∀ p, Owns m p → m.shared = ⟨true, (m.proc p).pid⟩
  unique : ∀ p q, Owns m p → Owns m q → p = q
  taken : m.shared.locked = true → ∃ p, Owns m p
  distinct : ∀ p q, (m.proc p).state ≠ .unused → (m.proc q).state ≠ .unused →
    (m.proc p).pid = (m.proc q).pid → p = q

theorem Owns.used {p : Slot} (h : Owns m p) (hwf : Wf code m) : (m.proc p).state ≠ .unused := by
  intro hst
  have hok := hwf.procOk p
  unfold Owns at h
  cases hc : m.ctl p <;> simp_all [ProcOk, base, owns, code]

theorem Owned.holdingsleep_iff (h : Owned m) (hwf : Wf code m) {p : Slot}
    (hp : (m.proc p).state ≠ .unused) : holdingsleep (m.proc p) m.shared = true ↔ Owns m p := by
  constructor
  · intro hr
    rw [holdingsleep, Bool.and_eq_true, decide_eq_true_eq] at hr
    obtain ⟨q, hq⟩ := h.taken hr.1
    have hpid : (m.proc q).pid = (m.proc p).pid := by rw [← hr.2, h.recorded q hq]
    rwa [← h.distinct q p (hq.used hwf) hp hpid]
  · intro hown
    rw [h.recorded p hown]
    simp [holdingsleep]

theorem proc_step {a : Act Label} (hs : StepCase code m a m') (q : Slot)
    (hq : (m'.proc q).state ≠ .unused) :
    (m.proc q).state ≠ .unused ∧ (m'.proc q).pid = (m.proc q).pid
      ∨ (m.proc q).state = .unused ∧ ∃ name, a = .fork q (m'.proc q).pid name := by
  -- the entry of one process `p` may change
  have hone : ∀ (p : Slot) (r : Proc Unit), m'.proc = update m.proc p r →
      (r.state ≠ .unused → (m.proc p).state ≠ .unused ∧ r.pid = (m.proc p).pid) →
      (m.proc q).state ≠ .unused ∧ (m'.proc q).pid = (m.proc q).pid := by
    intro p r hproc hr
    rw [hproc] at hq ⊢
    by_cases hqp : q = p
    · subst hqp
      rw [update_self] at hq ⊢
      exact hr hq
    · rw [update_of_ne hqp] at hq ⊢
      exact ⟨hq, rfl⟩
  cases hs with
  | exec | acquire | release | sleep | wakeup | wakeupOne | kkill | sleepLocked | sleepReturn
  | wakeupSkip | wakeupEnd | kkillSkip | kkillEnd | call | tick => exact .inl ⟨hq, rfl⟩
  | sleepEnter hrun | sleepReleased hrun | preempt hrun | exit hrun =>
    exact .inl (hone _ _ rfl fun _ => ⟨by rw [hrun]; decide, rfl⟩)
  | wakeupHit _ _ _ _ hsleep => exact .inl (hone _ _ rfl fun _ => ⟨by rw [hsleep.1]; decide, rfl⟩)
  | @kkillHit p r found notFound hrun hctl hfree =>
    refine .inl (hone r _ rfl fun hst => ⟨fun hunused => hst ?_, rfl⟩)
    dsimp only
    rw [if_neg (by rw [hunused]; decide), hunused]
  | dispatchSleep hst | dispatch hst =>
    exact .inl (hone _ _ rfl fun _ => ⟨by rw [hst]; decide, rfl⟩)
  | reap hst => exact .inl (hone _ _ rfl fun hne => absurd rfl hne)
  | @fork p pid name hst =>
    by_cases hqp : q = p
    · subst hqp
      refine .inr ⟨hst, name, ?_⟩
      rw [setProc_proc, update_self]
      rfl
    · refine .inl ?_
      rw [setProc_proc, update_of_ne hqp] at hq ⊢
      exact ⟨hq, rfl⟩

theorem Owned.distinct_step {a : Act Label} (h : Owned m) (hfresh : freshPid m a = true)
    (hs : StepCase code m a m') (p q : Slot) (hp : (m'.proc p).state ≠ .unused)
    (hq : (m'.proc q).state ≠ .unused) (hpid : (m'.proc p).pid = (m'.proc q).pid) : p = q := by
  obtain ⟨hp0, hp1⟩ | ⟨hp0, name, rfl⟩ := proc_step hs p hp
  · obtain ⟨hq0, hq1⟩ | ⟨-, name, rfl⟩ := proc_step hs q hq
    · exact h.distinct p q hp0 hq0 (by rw [← hp1, ← hq1, hpid])
    · rw [freshPid, decide_eq_true_eq] at hfresh
      exact absurd (hp1.symm.trans hpid) (hfresh p hp0)
  obtain ⟨hq0, hq1⟩ | ⟨-, name', heq⟩ := proc_step hs q hq
  · rw [freshPid, decide_eq_true_eq] at hfresh
    exact absurd (hq1.symm.trans hpid.symm) (hfresh q hq0)
  · exact (Act.fork.inj heq).1

theorem Owned.keep (h : Owned m) (hwf : Wf code m) (hwf' : Wf code m')
    (hpid : ∀ q, (m.proc q).state ≠ .unused → (m'.proc q).state ≠ .unused →
      (m'.proc q).pid = (m.proc q).pid)
    (hdistinct : ∀ p q, (m'.proc p).state ≠ .unused → (m'.proc q).state ≠ .unused →
      (m'.proc p).pid = (m'.proc q).pid → p = q) (hshared : m'.shared = m.shared)
    (howns : ∀ p, owns (base (m'.ctl p)) = owns (base (m.ctl p))) : Owned m' := by
  have hiff : ∀ p, Owns m' p ↔ Owns m p := fun p => by rw [Owns, Owns, howns]
  refine ⟨fun p hp => ?_, fun p q hp hq => ?_, fun hlocked => ?_, hdistinct⟩
  · have hold := (hiff p).mp hp
    rw [hshared, hpid p (hold.used hwf) (hp.used hwf'), h.recorded p hold]
  · exact h.unique p q ((hiff p).mp hp) ((hiff q).mp hq)
  · rw [hshared] at hlocked
    obtain ⟨p, hp⟩ := h.taken hlocked
    exact ⟨p, (hiff p).mpr hp⟩

section Exec

variable {p : Slot} {lk : SleepLock} {l : Label}

theorem owns_goto_self : Owns ({ m with shared := lk }.goto p (.run l)) p ↔ owns l = true := by
  rw [Owns, goto_ctl, update_self, base]

theorem owns_goto_of_ne {q : Slot} (hq : q ≠ p) :
    Owns ({ m with shared := lk }.goto p (.run l)) q ↔ Owns m q := by
  rw [Owns, Owns, goto_ctl, update_of_ne hq]

theorem Owned.take (h : Owned m) (hfree : m.shared.locked = false) :
    Owned ({ m with shared := (⟨true, (m.proc p).pid⟩ : SleepLock) }.goto p
      (.run .acquireUnlock)) := by
  have hnone : ∀ q, ¬ Owns m q := by
    intro q hq
    rw [h.recorded q hq] at hfree
    cases hfree
  have honly : ∀ q, Owns ({ m with shared := (⟨true, (m.proc p).pid⟩ : SleepLock) }.goto p
      (.run .acquireUnlock)) q → q = p := by
    intro q hq
    by_contra hne
    exact hnone q ((owns_goto_of_ne hne).mp hq)
  refine ⟨fun q hq => ?_, fun q r hq hr => ?_, fun _ => ⟨p, owns_goto_self.mpr rfl⟩, h.distinct⟩
  · rw [honly q hq]
    rfl
  · rw [honly q hq, honly r hr]

theorem Owned.clear (h : Owned m) (hp : Owns m p) :
    Owned ({ m with shared := (⟨false, 0⟩ : SleepLock) }.goto p (.run .releaseWakeup)) := by
  have hnone : ∀ q, ¬ Owns ({ m with shared := (⟨false, 0⟩ : SleepLock) }.goto p
      (.run .releaseWakeup)) q := by
    intro q hq
    by_cases hqp : q = p
    · rw [hqp, owns_goto_self] at hq
      cases hq
    · exact hqp (h.unique q p ((owns_goto_of_ne hqp).mp hq) hp)
  exact ⟨fun q hq => absurd hq (hnone q), fun q _ hq => absurd hq (hnone q),
    fun hlocked => Bool.noConfusion hlocked, h.distinct⟩

end Exec

theorem owns_goto {p : Slot} {l l' : Label} {lk : SleepLock} (hctl : m.ctl p = .run l)
    (hl : owns l' = owns l) (q : Slot) :
    owns (base (({ m with shared := lk }.goto p (.run l')).ctl q)) = owns (base (m.ctl q)) := by
  by_cases hqp : q = p
  · rw [hqp, goto_ctl, update_self, hctl]
    exact hl
  · rw [goto_ctl, update_of_ne hqp]

theorem owns_of_entry {cur l : Label} (hinstr : code.instr cur = .choose)
    (hentry : code.entry cur l = true) : owns l = owns cur := by
  cases cur <;> simp [code, instr] at hinstr <;> cases l <;> simp_all [code, entry, owns]

theorem Owned.step {a : Act Label} (h : Owned m) (hwf : Wf code m) (hfresh : freshPid m a = true)
    (hs : StepCase code m a m') : Owned m' := by
  have hwf' := hwf.stepCase hs
  have hdistinct := h.distinct_step hfresh hs
  have hpid : ∀ q, (m.proc q).state ≠ .unused → (m'.proc q).state ≠ .unused →
      (m'.proc q).pid = (m.proc q).pid := by
    intro q hq hq'
    obtain ⟨-, hsame⟩ | ⟨hunused, -⟩ := proc_step hs q hq'
    · exact hsame
    · exact absurd hunused hq
  obtain ⟨p, l, g, hrun, hctl, hinstr, rfl⟩ | ⟨p, cur, l, hctl, hinstr, hentry, rfl⟩ | rfl
    | ⟨hshared, howns⟩ := carries.step hwf hs
  · cases l with
    | acquireTest =>
      cases hinstr
      by_cases hlocked : m.shared.locked = true
      · refine h.keep hwf hwf' hpid hdistinct ?_ (owns_goto hctl ?_)
        · rw [goto_shared]
          beta_reduce
          rw [if_pos hlocked]
        · beta_reduce
          rw [if_pos hlocked]
          rfl
      · beta_reduce
        rw [if_neg hlocked]
        exact h.take (Bool.not_eq_true _ ▸ hlocked)
    | releaseClear =>
      cases hinstr
      refine h.clear ?_
      rw [Owns, hctl]
      rfl
    | holdingTest has =>
      cases hinstr
      exact h.keep hwf hwf' hpid hdistinct rfl (owns_goto hctl rfl)
    | _ => cases hinstr
  · exact h.keep hwf hwf' hpid hdistinct rfl (owns_goto hctl (owns_of_entry hinstr hentry))
  · exact h
  · exact h.keep hwf hwf' hpid hdistinct hshared howns

theorem owned_boot : Owned boot where
  recorded p hp := by cases hp
  unique p q hp := by cases hp
  taken h := by cases h
  distinct p q hp := absurd rfl hp

theorem alert_boot : Alert code () () available holds owes saw boot where
  wf := ⟨fun _ => ⟨rfl, by simp [boot, Proc.free], fun _ => rfl⟩, fun _ => trivial⟩
  excl _ := by simp [boot, holdsCtl, holds]
  saw p h := by simp [boot, Saw, saw] at h
  owed q hq := by simp [boot, SleepingOn, Proc.free, commits] at hq

/-- What holds in every run of the users of a sleep-lock: at most one process has it, `holdingsleep`
tells exactly that process so, and nobody sleeps on a sleep-lock that is free. -/
theorem sleeplock_correct {m : Machine Unit Unit SleepLock Label}
    (hreach : Reach (step code) (fun m a => freshPid m a = true) boot m) :
    (∀ p q, Owns m p → Owns m q → p = q)
    ∧ (∀ p, (m.proc p).state ≠ .unused → (holdingsleep (m.proc p) m.shared = true ↔ Owns m p))
    ∧ (∀ p has, m.ctl p = .run (.holdingTest has) → holdingsleep (m.proc p) m.shared = has)
    ∧ (m.lock () = none → m.shared.locked = false → ∀ q, ¬ m.SleepingOn () q) := by
  have hinv : Alert code () () available holds owes saw m ∧ Owned m := by
    refine hreach.invariant (I := fun m => Alert code () () available holds owes saw m ∧ Owned m)
      ⟨alert_boot, owned_boot⟩ fun m1 a m2 h1 hok hs => ?_
    exact ⟨h1.1.step monitor (fun _ _ _ _ => trivial) (.of_step hs),
      h1.2.step h1.1.wf hok (.of_step hs)⟩
  obtain ⟨halert, howned⟩ := hinv
  refine ⟨howned.unique, fun p hp => howned.holdingsleep_iff halert.wf hp, fun p has hctl => ?_,
    fun hfree hlocked q hq => ?_⟩
  · have hused : (m.proc p).state ≠ .unused := by
      intro hst
      have hok := halert.wf.procOk p
      rw [hctl] at hok
      cases hok.2.2 (.inr hst)
    have hiff := howned.holdingsleep_iff halert.wf hused
    rw [Owns, hctl] at hiff
    exact Bool.eq_iff_iff.mpr hiff
  · have hfalse := halert.awake monitor hfree (mem_sleepers.mpr (.inl hq))
    rw [available, hlocked] at hfalse
    cases hfalse

/-- A process takes the sleep-lock, a second one sleeps on it and is woken by `kkill`, and the first
one gives it up while a third one sleeps. -/
def contended : List (Act Label) :=
  [spawn 0 1, calls 0 .acquiresleep 3, spawn 1 2, calls 1 .acquiresleep 6, spawn 2 3,
    calls 2 .acquiresleep 6, calls 0 (.kkill true 2) 3, [.dispatch 1],
    calls 0 .releasesleep (NPROC + 5), [.dispatch 2]].flatten

theorem sleeplock_correct_contended : ∃ m : Machine Unit Unit SleepLock Label,
    (m.lock () = none ∧ m.shared = ⟨false, 0⟩ ∧ (m.proc 2).state = .running)
    ∧ (∀ p q, Owns m p → Owns m q → p = q)
    ∧ (∀ p, (m.proc p).state ≠ .unused → (holdingsleep (m.proc p) m.shared = true ↔ Owns m p))
    ∧ (∀ p has, m.ctl p = .run (.holdingTest has) → holdingsleep (m.proc p) m.shared = has)
    ∧ (m.lock () = none → m.shared.locked = false → ∀ q, ¬ m.SleepingOn () q) := by
  obtain ⟨m, hreach, hm⟩ := exists_reach (step code) freshPid boot contended
    (fun m => (m.lock (), m.shared, (m.proc 2).state)) (none, ⟨false, 0⟩, .running)
    (by decide +kernel)
  simp only [Prod.mk.injEq] at hm
  exact ⟨m, hm, sleeplock_correct hreach⟩

end Xv6.Thread.Sleeplock

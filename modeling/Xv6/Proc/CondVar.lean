import Xv6.Proc.Monitor

/-!
# `sleep` and `wakeup` lose no wakeup

The use of `sleep` and `wakeup` that `proc.c` is made for, over any shared data.

## Main results

* `no_lost_wakeup`: nobody sleeps on a condition that holds
-/

namespace Xv6.Thread.CondVar

open Machine Transition

/-- The shared data `σ`, the condition on it, and the updates of those who hold the lock. -/
structure Client (σ U N K : Type) where
  cond : σ → Bool
  /-- What a waiter does when the condition holds. -/
  use : U → σ → σ
  /-- What a notifier does. -/
  update : N → σ → σ
  spoil : K → σ → σ
  cond_update : ∀ n s, cond (update n s) = true
  cond_spoil : ∀ k s, cond (spoil k s) = true → cond s = true

inductive Label (U N K : Type)
  | user
  | wait (u : U)
  | waitTest (u : U)
  | waitSleep (u : U)
  | notify (n : N)
  | notifyUpdate (n : N)
  | notifyWake
  | other (k : K)
  | otherSpoil (k : K)
  /-- The end of a critical section. -/
  | unlock
  | kkill (pid : ℤ)
  deriving DecidableEq

variable {σ U N K : Type} (cl : Client σ U N K)

/-- The statements at each label, with `lk` the only lock and `chan` the only channel. -/
def instr : Label U N K → Instr Unit Unit σ (Label U N K)
  | .user => .choose
  | .wait u => .acquire () (.waitTest u)
  | .waitTest u => .exec fun _ s =>
    if cl.cond s then (cl.use u s, .unlock) else (s, .waitSleep u)
  | .waitSleep u => .sleep () () (.waitTest u)
  | .notify n => .acquire () (.notifyUpdate n)
  | .notifyUpdate n => .exec fun _ s => (cl.update n s, .notifyWake)
  | .notifyWake => .wakeup () .unlock
  | .other k => .acquire () (.otherSpoil k)
  | .otherSpoil k => .exec fun _ s => (cl.spoil k s, .unlock)
  | .unlock => .release () .user
  | .kkill pid => .kkill pid .user .user

def entry : Label U N K → Label U N K → Bool
  | .user, .wait _ | .user, .notify _ | .user, .other _ | .user, .kkill _ => true
  | _, _ => false

def holds : Label U N K → Bool
  | .waitTest _ | .waitSleep _ | .notifyUpdate _ | .notifyWake | .otherSpoil _ | .unlock => true
  | _ => false

def owes : Label U N K → Bool
  | .notifyWake => true
  | _ => false

def saw : Label U N K → Bool
  | .waitSleep _ => true
  | _ => false

def code : Code Unit Unit σ (Label U N K) where
  instr := instr cl
  user := .user
  entry := entry
  intrOn l := !holds l
  tick := id

def boot (s : σ) : Machine Unit Unit σ (Label U N K) where
  shared := s
  lock _ := none
  proc _ := .free
  ctl _ := .run .user

theorem monitor : Monitor (code cl) () () cl.cond holds owes saw fun _ _ _ => True := by
  refine .of_instr (.of_instr (fun l => ?_) fun cur l h he => ?_) (fun l => ?_) (fun l => ?_)
    (fun cur l h => ?_) (fun _ => rfl) (fun l f me s h hfree => ?_)
    (fun l f me s h _ htrue hor => ?_) fun l f me s h _ _ hsaw => ?_
  · cases l <;> simp only [code, instr, GuardsAt] <;>
      first | (intros; (try split) <;> rfl) | simp [holds]
  · cases cur <;> simp [code, instr] at h
    cases l <;> simp_all [code, entry, holds]
  · cases l <;> simp [owes, saw, holds]
  · cases l <;> simp [code, instr, MonitorAt, owes, saw, holds]
  · cases cur <;> cases l <;> simp_all [code, entry, saw]
  · cases l <;> simp [code, instr, holds] at h hfree
  · cases l <;> simp only [code, instr, Instr.exec.injEq, reduceCtorEq] at h <;> subst h
    · simp only [owes, Bool.false_eq_true, or_false] at hor
      simp [hor] at htrue
    · rfl
    · simp only [owes, Bool.false_eq_true, or_false] at hor
      simp [cl.cond_spoil _ _ htrue] at hor
  cases l <;> simp only [code, instr, Instr.exec.injEq, reduceCtorEq] at h <;> subst h
  · dsimp only at hsaw ⊢
    split at hsaw
    · simp [saw] at hsaw
    · rename_i hcond
      simp [hcond]
  · simp [saw] at hsaw
  · simp [saw] at hsaw

theorem alert_boot (s : σ) : Alert (code cl) () () cl.cond holds owes saw (boot s) where
  wf := ⟨fun _ => ⟨rfl, by simp [boot, Proc.free], fun _ => rfl⟩, fun _ => trivial⟩
  excl _ := by simp [boot, holdsCtl, holds]
  saw p h := by simp [boot, Saw, saw] at h
  owed q hq := by simp [boot, SleepingOn, Proc.free, commits] at hq

variable [DecidableEq U] [DecidableEq N] [DecidableEq K]

/-- **No lost wakeup.** In every reachable state in which `lk` is free and the condition holds, no
process is `SLEEPING` on `chan`. -/
theorem no_lost_wakeup {s : σ} {m : Machine Unit Unit σ (Label U N K)}
    (hreach : Reach (step (code cl)) (fun _ _ => True) (boot s) m) (hfree : m.lock () = none)
    (hcond : cl.cond m.shared = true) (q : Slot) : ¬ m.SleepingOn () q := by
  have halert : Alert (code cl) () () cl.cond holds owes saw m := by
    refine hreach.invariant (alert_boot cl s) fun m1 a m2 h1 _ hs => ?_
    exact h1.step (monitor cl) (fun _ _ _ _ => trivial) (.of_step hs)
  intro hq
  have hfalse := halert.awake (monitor cl) hfree (mem_sleepers.mpr (.inl hq))
  rw [hcond] at hfalse
  cases hfalse

def flag : Client Bool Unit Unit Unit where
  cond := id
  use _ := id
  update _ _ := true
  spoil _ _ := false
  cond_update _ _ := rfl
  cond_spoil _ _ h := by simp at h

/-- A process sleeps until the flag is set, and a second one sets it. -/
def flagRun : List (Act (Label Unit Unit Unit)) :=
  spawn 0 1 ++ calls 0 (.wait ()) 6 ++ spawn 1 2 ++ calls 1 (.notify ()) (NPROC + 5)

/-- The waiter that slept is `RUNNABLE` when the notifier has released the lock. -/
theorem no_lost_wakeup_flag : ∃ m : Machine Unit Unit Bool (Label Unit Unit Unit),
    Reach (step (code flag)) (fun _ _ => True) (boot false) m ∧
    (m.lock () = none ∧ m.shared = true ∧ (m.proc 0).state = .runnable) ∧
    ∀ q, ¬ m.SleepingOn () q := by
  obtain ⟨m, hreach, hm⟩ := exists_reach (step (code flag)) (fun _ _ => true) (boot false) flagRun
    (fun m => (m.lock (), m.shared, (m.proc 0).state)) (none, true, .runnable) (by decide +kernel)
  simp only [Prod.mk.injEq] at hm
  have hreach := hreach.mono fun _ _ _ => trivial
  exact ⟨m, hreach, hm, no_lost_wakeup flag hreach hm.1 hm.2.1⟩

end Xv6.Thread.CondVar

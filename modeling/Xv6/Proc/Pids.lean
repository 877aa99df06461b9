import Xv6.Proc.Sleeplock

/-!
# Process ids

`allocpid` hands out the numbers of an `int` counter.

## Main results

* `pids_distinct`: pids are positive and distinct before the counter overflows
-/

namespace Xv6.Thread.Pids

open Machine Transition Sleeplock Function ProcState Option

/-- The users of a sleep-lock and the counter of `allocpid`. -/
structure Kernel where
  nextpid : ℤ
  machine : Machine Unit Unit SleepLock Label

inductive Move
  | allocproc (p : Slot)
  /-- `kfork()` makes the process in the slot runnable and returns its pid. -/
  | forked (p : Slot) (name : List UInt8)
  /-- `allocproc()` or `kfork()` gives up and calls `freeproc()`. -/
  | failed (p : Slot)
  /-- Any other move: `kexit`, the `freeproc` of `kwait`, the scheduler, and the calls on the
  sleep-lock and of `kkill`. -/
  | other (a : Act Label)
  deriving DecidableEq

def isFork : Act Label → Bool
  | .fork _ _ _ => true
  | _ => false

def step (k : Kernel) : Move → Option Kernel
  | .allocproc p =>
    if (k.machine.proc p).state = .unused then
      some ⟨int32 (k.nextpid + 1),
        k.machine.setProc p { Proc.free with state := .used, pid := k.nextpid }⟩
    else none
  | .forked p name =>
    if (k.machine.proc p).state = .used then
      some { k with machine := k.machine.setProc p { k.machine.proc p with
        state := .runnable, name := name } }
    else none
  | .failed p =>
    if (k.machine.proc p).state = .used then
      some { k with machine := k.machine.setProc p .free }
    else none
  | .other a =>
    if isFork a then none
    else (k.machine.step code a).map fun m => { k with machine := m }

def boot : Kernel := ⟨1, Sleeplock.boot⟩

def counts (k : Kernel) : Move → Bool
  | .allocproc _ => 0 < k.nextpid
  | _ => true

/-! ## The invariant -/

variable {m m' : Machine Unit Unit SleepLock Label}

theorem used_step {a : Act Label} (hs : StepCase code m a m') {p : Slot}
    (hp : (m'.proc p).state = .used) : (m.proc p).state = .used ∧ m'.ctl p = m.ctl p := by
  -- the process `q` that moves is not the one in question
  have hother : ∀ (q : Slot) (c : Ctl Unit Unit Label), m'.ctl = update m.ctl q c →
      (m.proc q).state ≠ .used → (m.proc p).state = .used →
      (m.proc p).state = .used ∧ m'.ctl p = m.ctl p := by
    intro q c hctl hq hp0
    refine ⟨hp0, ?_⟩
    rw [hctl, update_of_ne]
    rintro rfl
    exact hq hp0
  -- the entry of `q` changes
  have hentry : ∀ (q : Slot) (r : Proc Unit), m'.proc = update m.proc q r →
      (r.state = .used → (m.proc q).state = .used) → (m.proc p).state = .used := by
    intro q r hproc hr
    rw [hproc] at hp
    by_cases hpq : p = q
    · subst hpq
      rw [update_self] at hp
      exact hr hp
    · rwa [update_of_ne hpq] at hp
  have hrunning : ∀ q, (m.proc q).state = .running → (m.proc q).state ≠ .used := by
    intro q hq
    rw [hq]
    decide
  cases hs with
  | exec hrun | acquire hrun | release hrun | sleep hrun | wakeup hrun | wakeupOne hrun
  | kkill hrun | sleepLocked hrun | sleepReturn hrun | wakeupSkip hrun | wakeupEnd hrun
  | kkillSkip hrun | kkillEnd hrun | call hrun => exact hother _ _ rfl (hrunning _ hrun) hp
  | tick => exact ⟨hp, rfl⟩
  | sleepEnter hrun => exact hother _ _ rfl (hrunning _ hrun) (hentry _ _ rfl id)
  | sleepReleased hrun => exact hother _ _ rfl (hrunning _ hrun) (hentry _ _ rfl noConfusion)
  | preempt hrun | exit hrun => exact ⟨hentry _ _ rfl noConfusion, rfl⟩
  | wakeupHit hrun => exact hother _ _ rfl (hrunning _ hrun) (hentry _ _ rfl noConfusion)
  | @kkillHit q r found notFound hrun =>
    refine hother _ _ rfl (hrunning _ hrun) (hentry r _ rfl fun hused => ?_)
    dsimp only at hused
    split at hused
    · cases hused
    · exact hused
  | dispatchSleep hst => exact hother _ _ rfl (by rw [hst]; decide) (hentry _ _ rfl noConfusion)
  | dispatch hst => exact ⟨hentry _ _ rfl noConfusion, rfl⟩
  | reap hst => exact ⟨hentry _ _ rfl noConfusion, rfl⟩
  | fork hst => exact ⟨hentry _ _ rfl noConfusion, rfl⟩

structure Inv (k : Kernel) : Prop where
  wf : Wf code k.machine
  owned : Owned k.machine
  passed : ∀ p, (k.machine.proc p).state ≠ .unused → 0 < (k.machine.proc p).pid
    ∧ (0 < k.nextpid → (k.machine.proc p).pid < k.nextpid)
  start : ∀ p, (k.machine.proc p).state = .used → k.machine.ctl p = .run .user
  small : k.nextpid ≤ INT_MAX

variable {k k' : Kernel}

theorem ctl_of_unused (hwf : Wf code m) {p : Slot} (hp : (m.proc p).state = .unused) :
    m.ctl p = .run .user := by
  have hok := hwf.procOk p
  cases hc : m.ctl p with
  | run l =>
    rw [hc] at hok
    rw [hok.2.2 (.inr hp)]
    rfl
  | sleepEnter | sleepLocked | sleepReleased | sched | sleepReturn | wakeupAt | kkillAt =>
    simp_all [ProcOk]

theorem Inv.setProc (h : Inv k) {p : Slot} {r : Proc Unit} {n : ℤ}
    (hctl : k.machine.ctl p = .run .user) (hlocked : r.locked = false)
    (hstate : r.state ≠ .sleeping) (hn : n ≤ INT_MAX)
    (hpid : (k.machine.proc p).state ≠ .unused → r.state ≠ .unused → r.pid = (k.machine.proc p).pid)
    (hpassed : r.state ≠ .unused → 0 < r.pid ∧ (0 < n → r.pid < n))
    (hnext : 0 < n → k.nextpid ≤ n ∧ 0 < k.nextpid)
    (hnew : ∀ q, q ≠ p → (k.machine.proc q).state ≠ .unused → r.state ≠ .unused →
      (k.machine.proc q).pid ≠ r.pid) : Inv ⟨n, k.machine.setProc p r⟩ := by
  have hself : (k.machine.setProc p r).proc p = r := update_self ..
  have hne : ∀ q, q ≠ p → (k.machine.setProc p r).proc q = k.machine.proc q :=
    fun q hq => update_of_ne hq ..
  have hwf : Wf code (k.machine.setProc p r) := by
    refine h.wf.setProc ?_
    rw [hctl]
    exact ⟨hlocked, hstate, fun _ => rfl⟩
  refine ⟨hwf, h.owned.keep h.wf hwf ?_ ?_ rfl fun _ => rfl, ?_, ?_, hn⟩
  · intro q hq hq'
    by_cases hqp : q = p
    · subst hqp
      rw [hself] at hq' ⊢
      exact hpid hq hq'
    · rw [hne q hqp]
  · intro q q' hq hq' heq
    by_cases hqp : q = p
    · by_cases hqp' : q' = p
      · rw [hqp, hqp']
      · rw [hqp, hself] at heq hq
        rw [hne q' hqp'] at heq hq'
        exact absurd heq.symm (hnew q' hqp' hq' hq)
    by_cases hqp' : q' = p
    · rw [hqp', hself] at heq hq'
      rw [hne q hqp] at heq hq
      exact absurd heq (hnew q hqp hq hq')
    · rw [hne q hqp] at heq hq
      rw [hne q' hqp'] at heq hq'
      exact h.owned.distinct q q' hq hq' heq
  · intro q hq
    by_cases hqp : q = p
    · subst hqp
      rw [hself] at hq ⊢
      exact hpassed hq
    dsimp only at hq ⊢
    rw [hne q hqp] at hq ⊢
    obtain ⟨hpos, hlt⟩ := h.passed q hq
    refine ⟨hpos, fun hn' => ?_⟩
    obtain ⟨hle, hpos'⟩ := hnext hn'
    exact lt_of_lt_of_le (hlt hpos') hle
  intro q hq
  by_cases hqp : q = p
  · rw [hqp]
    exact hctl
  · dsimp only at hq
    rw [hne q hqp] at hq
    exact h.start q hq

theorem int32_succ {n : ℤ} (hpos : 0 < n) (hmax : n ≤ INT_MAX) (h : 0 < int32 (n + 1)) :
    int32 (n + 1) = n + 1 := by
  by_cases hlast : n = INT_MAX
  · rw [hlast] at h
    exact absurd h (by decide)
  · have hmin : INT_MIN < 0 := by decide
    exact int32_of_range (by omega) (by omega)

theorem Inv.step (h : Inv k) {a : Move} (hok : counts k a = true) (hs : step k a = some k') :
    Inv k' := by
  cases a with
  | allocproc p =>
    rw [counts, decide_eq_true_eq] at hok
    rw [Pids.step, ite_none_right_eq_some] at hs
    obtain ⟨hst, hs⟩ := hs
    obtain rfl := some.inj hs
    refine h.setProc (ctl_of_unused h.wf hst) rfl noConfusion (int32_le _) (absurd hst) ?_ ?_ ?_
    · intro _
      refine ⟨hok, fun hn => ?_⟩
      rw [int32_succ hok h.small hn]
      exact Int.lt_succ_self _
    · intro hn
      refine ⟨?_, hok⟩
      rw [int32_succ hok h.small hn]
      exact (Int.lt_succ_self _).le
    intro q _ hq _
    have := (h.passed q hq).2 hok
    dsimp only
    omega
  | forked p name =>
    rw [Pids.step, ite_none_right_eq_some] at hs
    obtain ⟨hst, hs⟩ := hs
    obtain rfl := some.inj hs
    have hne : (k.machine.proc p).state ≠ .unused := by rw [hst]; decide
    have hlocked := h.wf.procOk p
    rw [h.start p hst] at hlocked
    refine h.setProc (h.start p hst) hlocked.1 noConfusion h.small (fun _ _ => rfl)
      (fun _ => h.passed p hne) (fun hn => ⟨le_refl _, hn⟩) ?_
    intro q hqp hq _ heq
    exact hqp (h.owned.distinct q p hq hne heq)
  | failed p =>
    rw [Pids.step, ite_none_right_eq_some] at hs
    obtain ⟨hst, hs⟩ := hs
    obtain rfl := some.inj hs
    exact h.setProc (h.start p hst) rfl (by decide) h.small (fun _ hr => absurd rfl hr)
      (fun hr => absurd rfl hr) (fun hn => ⟨le_refl _, hn⟩) (fun _ _ _ hr => absurd rfl hr)
  | other a =>
    rw [Pids.step, ite_none_left_eq_some] at hs
    obtain ⟨hfork, hs⟩ := hs
    obtain ⟨m, hm, rfl⟩ := map_eq_some_iff.mp hs
    have hcase := StepCase.of_step hm
    have hfresh : freshPid k.machine a = true := by
      cases a with
      | fork => exact absurd rfl hfork
      | _ => rfl
    refine ⟨h.wf.stepCase hcase, h.owned.step h.wf hfresh hcase, fun p hp => ?_, fun p hp => ?_,
      h.small⟩
    · obtain ⟨hp0, hpid⟩ | ⟨-, name, rfl⟩ := proc_step hcase p hp
      · dsimp only
        rw [hpid]
        exact h.passed p hp0
      · exact absurd rfl hfork
    · obtain ⟨hp0, hctl⟩ := used_step hcase hp
      exact hctl.trans (h.start p hp0)

theorem inv_boot : Inv boot where
  wf := alert_boot.wf
  owned := owned_boot
  passed p hp := absurd rfl hp
  start p hp := rfl
  small := by decide

/-- As long as the counter of `allocpid` has not overflowed, the processes in use have positive and
distinct pids, that of a process that `kfork` returns included, and `holdingsleep` is true only in
the process that has the sleep-lock. -/
theorem pids_distinct {k : Kernel} (hreach : Reach step (fun k a => counts k a = true) boot k) :
    (∀ p, (k.machine.proc p).state ≠ .unused → 0 < (k.machine.proc p).pid
      ∧ ∀ q, q ≠ p → (k.machine.proc q).state ≠ .unused →
        (k.machine.proc q).pid ≠ (k.machine.proc p).pid)
    ∧ ∀ p, (k.machine.proc p).state ≠ .unused →
      holdingsleep (k.machine.proc p) k.machine.shared = true → Owns k.machine p := by
  have h : Inv k := hreach.invariant inv_boot fun _ _ _ h hok hs => h.step hok hs
  refine ⟨fun p hp => ⟨(h.passed p hp).1, fun q hqp hq heq => ?_⟩, fun p hp hholding => ?_⟩
  · exact hqp (h.owned.distinct q p hq hp heq)
  · exact (h.owned.holdingsleep_iff h.wf hp).mp hholding

/-- Two processes are forked and the first one takes the sleep-lock. -/
def twoForks : List Move :=
  [.allocproc 0, .forked 0 [], .other (.dispatch 0), .allocproc 1, .forked 1 [],
    .other (.dispatch 1)] ++ (calls 0 Label.acquiresleep 3).map .other

theorem pids_distinct_two : ∃ k : Kernel,
    ((k.machine.proc 0).state = .running ∧ (k.machine.proc 1).state = .running)
    ∧ (∀ p, (k.machine.proc p).state ≠ .unused → 0 < (k.machine.proc p).pid
      ∧ ∀ q, q ≠ p → (k.machine.proc q).state ≠ .unused →
        (k.machine.proc q).pid ≠ (k.machine.proc p).pid)
    ∧ ∀ p, (k.machine.proc p).state ≠ .unused →
      holdingsleep (k.machine.proc p) k.machine.shared = true → Owns k.machine p := by
  obtain ⟨k, hreach, hk⟩ := exists_reach step counts boot twoForks
    (fun k => ((k.machine.proc 0).state, (k.machine.proc 1).state)) (.running, .running)
    (by decide +kernel)
  rw [Prod.mk.injEq] at hk
  exact ⟨k, hk, pids_distinct hreach⟩

/-! ## The overflow -/

/-- The first process has the sleep-lock, slot 1 is free, and the counter stands at `n`. -/
structure Idle (n : ℤ) (k : Kernel) : Prop where
  next : k.nextpid = n
  unused : (k.machine.proc 1).state = .unused
  ctl : k.machine.ctl 1 = .run .user
  first : (k.machine.proc 0).state = .running ∧ (k.machine.proc 0).pid = 1
  owns : Owns k.machine 0
  shared : k.machine.shared = ⟨true, 1⟩

def child (st : ProcState) (pid : ℤ) : Proc Unit := { Proc.free with state := st, pid := pid }

theorem setProc_child (st : ProcState) (pid : ℤ) :
    (m.setProc 1 (child st pid)).proc 1 = child st pid := by rw [setProc_proc, update_self]

variable {n x : ℤ}

theorem step_dispatch (hctl : m.ctl 1 = .run .user) :
    (m.setProc 1 (child .runnable n)).step code (.dispatch 1)
      = some (m.setProc 1 (child .running n)) := by
  simp [Machine.step, stepDispatch, setState, hctl, setProc, child, Proc.free]

theorem step_exit (hctl : m.ctl 1 = .run .user) :
    (m.setProc 1 (child .running n)).step code (.exit 1)
      = some (m.setProc 1 (child .zombie n)) := by
  simp [Machine.step, setState, hctl, setProc, child, Proc.free, labelOf, code]

theorem step_reap : (m.setProc 1 (child .zombie n)).step code (.reap 1)
    = some (m.setProc 1 .free) := by simp [Machine.step, setProc, child, Proc.free]

theorem step_other {a : Act Label} (ha : isFork a = false) (hm : m.step code a = some m') :
    step ⟨x, m⟩ (.other a) = some ⟨x, m'⟩ := by simp [step, ha, hm]

theorem Idle.fork (h : Idle n k) :
    Reach step (fun _ _ => True) k ⟨int32 (n + 1), k.machine.setProc 1 (child .running n)⟩ := by
  have halloc : step k (.allocproc 1)
      = some ⟨int32 (n + 1), k.machine.setProc 1 (child .used n)⟩ := by
    rw [step, if_pos h.unused, h.next]
    rfl
  have hfork : step ⟨int32 (n + 1), k.machine.setProc 1 (child .used n)⟩ (.forked 1 [])
      = some ⟨int32 (n + 1), k.machine.setProc 1 (child .runnable n)⟩ := by
    simp [step, setProc, child, Proc.free]
  exact ((Reach.refl.tail trivial halloc).tail trivial hfork).tail trivial
    (step_other rfl (step_dispatch h.ctl))

theorem Idle.exit (h : Idle n k) :
    Reach step (fun _ _ => True) ⟨x, k.machine.setProc 1 (child .running n)⟩
      ⟨x, k.machine.setProc 1 .free⟩ :=
  (Reach.refl.tail trivial (step_other rfl (step_exit h.ctl))).tail trivial
    (step_other rfl step_reap)

theorem Idle.setProc (h : Idle n k) (r : Proc Unit) :
    (((k.machine.setProc 1 r).proc 0).state = .running ∧ ((k.machine.setProc 1 r).proc 0).pid = 1)
      ∧ Owns (k.machine.setProc 1 r) 0 ∧ (k.machine.setProc 1 r).ctl 1 = .run .user
      ∧ (k.machine.setProc 1 r).shared = ⟨true, 1⟩ :=
  ⟨by rw [setProc_proc, update_of_ne (by decide)]; exact h.first, h.owns, h.ctl, h.shared⟩

theorem Idle.cycle (h : Idle n k) :
    ∃ k', Reach step (fun _ _ => True) k k' ∧ Idle (int32 (n + 1)) k' := by
  obtain ⟨hfirst, howns, hctl, hshared⟩ := h.setProc .free
  refine ⟨_, h.fork.trans h.exit, rfl, ?_, hctl, hfirst, howns, hshared⟩
  rw [setProc_proc, update_self]
  rfl

theorem Idle.cycles (h : Idle (int32 n) k) (j : ℕ) :
    ∃ k', Reach step (fun _ _ => True) k k' ∧ Idle (int32 (n + j)) k' := by
  induction j with
  | zero => exact ⟨k, .refl, by simpa using h⟩
  | succ j ih =>
    obtain ⟨k1, hreach1, hidle1⟩ := ih
    obtain ⟨k2, hreach2, hidle2⟩ := hidle1.cycle
    rw [int32_add_int32, show n + j + 1 = n + (j + 1 : ℕ) by push_cast; ring] at hidle2
    exact ⟨k2, hreach1.trans hreach2, hidle2⟩

theorem idle_first : ∃ k, Reach step (fun _ _ => True) boot k ∧ Idle (int32 2) k := by
  obtain ⟨k, hreach, hk⟩ := exists_reach step (fun _ _ => true) boot
    ([.allocproc 0, .forked 0 [], .other (.dispatch 0)]
      ++ (calls 0 Label.acquiresleep 3).map .other)
    (fun k => decide (k.nextpid = 2 ∧ (k.machine.proc 1).state = .unused
      ∧ labelOf (k.machine.ctl 1) = some .user ∧ (k.machine.proc 0).state = .running
      ∧ (k.machine.proc 0).pid = 1 ∧ labelOf (k.machine.ctl 0) = some .inside
      ∧ k.machine.shared = ⟨true, 1⟩)) true (by decide +kernel)
  rw [decide_eq_true_eq] at hk
  obtain ⟨hnext, hunused, hctl, hrun, hpid, hin, hshared⟩ := hk
  refine ⟨k, hreach.mono fun _ _ _ => trivial, hnext, hunused, eq_run_of_labelOf hctl,
    ⟨hrun, hpid⟩, ?_, hshared⟩
  rw [Owns, eq_run_of_labelOf hin]
  rfl

/-- With 2^32 forks the counter comes back to the pid of a process that still runs, and
`holdingsleep` is true in a process that never took the sleep-lock. -/
theorem pid_repeats : ∃ k, Reach step (fun _ _ => True) boot k
    ∧ (k.machine.proc 0).state = .running ∧ (k.machine.proc 1).state = .running
    ∧ (k.machine.proc 1).pid = (k.machine.proc 0).pid ∧ Owns k.machine 0 ∧ ¬ Owns k.machine 1
    ∧ holdingsleep (k.machine.proc 1) k.machine.shared = true := by
  obtain ⟨k1, hreach1, hidle1⟩ := idle_first
  obtain ⟨k2, hreach2, hidle2⟩ := hidle1.cycles (2 ^ 32 - 1)
  have hback : int32 (2 + (2 ^ 32 - 1 : ℕ)) = 1 := by decide
  rw [hback] at hidle2
  obtain ⟨hfirst, howns, hctl, hshared⟩ := hidle2.setProc (child .running 1)
  refine ⟨_, (hreach1.trans hreach2).trans hidle2.fork, hfirst.1, ?_, ?_, howns, ?_, ?_⟩
  · rw [setProc_child]
    rfl
  · rw [setProc_child, hfirst.2]
    rfl
  · rw [Owns, hctl]
    exact Bool.false_ne_true
  · rw [setProc_child, hshared]
    rfl

end Xv6.Thread.Pids

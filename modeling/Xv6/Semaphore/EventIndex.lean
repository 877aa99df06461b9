import Xv6.Semaphore.Reuse

/-!
# The index of the event ring

`sem_event_index` is an `int` that is only incremented, and `sem_record_event` writes the ring at
its remainder.

## Main results

* `event_index_in_range`: the ring index is in range before it wraps
-/

namespace Xv6.Semaphore

open Thread Machine Transition

variable {m m' : State} {a : Act Label}

/-! ## Before the wrap -/

def beforeWrap (m : State) (a : Act Label) : Bool :=
  match step m a with
  | some m' => m'.shared.semEventIndex = m.shared.semEventIndex ∨ m.shared.semEventIndex < INT_MAX
  | none => true

theorem index_step (hs : step m a = some m') : m'.shared.semEventIndex = m.shared.semEventIndex ∨
      m'.shared.semEventIndex = int32 (m.shared.semEventIndex + 1) := by
  cases StepCase.of_step hs with
  | @exec p l f hrun hctl hinstr =>
    rcases exec_ring hinstr (m.proc p) m.shared p with ⟨o, type, heq, -⟩ | ⟨-, hidx, -⟩
    · refine .inr ?_
      simp [heq]
    · exact .inl hidx
  | _ => exact .inl rfl

/-- **Before the wrap every index is in range.** In every run in which no event is recorded at index
`INT_MAX`, the index at which `sem_record_event` writes the ring and the indices at which `sem_gantt`
reads it lie in the ring. -/
theorem event_index_in_range (hrun : Reach step (fun m a => beforeWrap m a = true) boot m) :
    (0 ≤ m.shared.semEventIndex.tmod SEM_EVENT_LOG_SIZE ∧
      m.shared.semEventIndex.tmod SEM_EVENT_LOG_SIZE < SEM_EVENT_LOG_SIZE) ∧
    ∀ i : ℕ, (i : ℤ) < m.shared.ganttTotal →
      0 ≤ (m.shared.ganttStart + i).tmod SEM_EVENT_LOG_SIZE ∧
        (m.shared.ganttStart + i).tmod SEM_EVENT_LOG_SIZE < SEM_EVENT_LOG_SIZE := by
  have hinv : 0 ≤ m.shared.semEventIndex ∧ m.shared.semEventIndex ≤ INT_MAX := by
    refine hrun.invariant (I := fun m => 0 ≤ m.shared.semEventIndex ∧
      m.shared.semEventIndex ≤ INT_MAX) (by decide) fun m a m' hm hok hs => ?_
    simp only [beforeWrap, hs, decide_eq_true_eq] at hok
    rcases index_step hs with hsame | hnext
    · rw [hsame]
      exact hm
    rcases hok with hsame | hlt
    · rw [hsame]
      exact hm
    have hmin : INT_MIN ≤ m.shared.semEventIndex + 1 := by
      simp only [INT_MIN]
      omega
    rw [hnext, int32_of_range hmin (by omega)]
    omega
  have hrange : ∀ n : ℤ, 0 ≤ n →
      0 ≤ n.tmod SEM_EVENT_LOG_SIZE ∧ n.tmod SEM_EVENT_LOG_SIZE < SEM_EVENT_LOG_SIZE :=
    fun n hn => ⟨Int.tmod_nonneg _ hn, Int.tmod_lt_of_pos _ (by decide)⟩
  refine ⟨hrange _ hinv.1, fun i _ => hrange _ ?_⟩
  have hstart : 0 ≤ m.shared.ganttStart := by
    simp only [Shared.ganttStart]
    split <;> omega
  omega

/-- The first process opens a semaphore and is about to record that it took the unit. -/
theorem event_index_in_range_first : ∃ m, Reach step (fun m a => beforeWrap m a = true) boot m ∧
    m.ctl 0 = .run (.semWaitAcquired ⟨0, 1⟩) ∧
    0 ≤ m.shared.semEventIndex.tmod SEM_EVENT_LOG_SIZE := by
  obtain ⟨m, hrun, hf⟩ := exists_reach step beforeWrap boot
    (List.flatten [spawn 0 1, calls 0 (.sysSemOpen 1 []) 6, calls 0 (.sysSemWait 0) 3])
    (fun m => labelOf (m.ctl 0)) (some (.semWaitAcquired ⟨0, 1⟩)) (by decide +kernel)
  exact ⟨m, hrun, eq_run_of_labelOf hf, (event_index_in_range hrun).1.1⟩

/-! ## After the wrap -/

/-- The first process is about to execute the statement at `l`; the lock of the first slot, its
count, and the index of the ring. -/
structure Here (m : State) (l : Label) (lk : Option Slot) (count index : ℤ) : Prop where
  running : (m.proc 0).state = .running
  alive : (m.proc 0).killed = false
  ctl : m.ctl 0 = .run l
  lock : m.lock (.sem 0) = lk
  active : (m.shared.semTable 0).active = true
  inc : (m.shared.semTable 0).inc = 1
  count : (m.shared.semTable 0).count = count
  index : m.shared.semEventIndex = index

namespace Here

variable {l l' : Label} {lk : Option Slot} {c c' i i' : ℤ}

def Leads (m : State) (l : Label) (lk : Option Slot) (c i : ℤ) : Prop :=
  ∃ m', Reach step (fun _ _ => True) m m' ∧ Here m' l lk c i

theorem call (h : Here m .user lk c i) (l' : Label) (hentry : entry .user l' = true) :
    Leads m l' lk c i := by
  have hs : step m (.call 0 l') = some (m.goto 0 (.run l')) := by
    simp [step, Machine.step, h.ctl, h.running, h.alive, code, instr, hentry]
  refine ⟨_, Reach.refl.tail trivial hs, ?_⟩
  constructor <;> simp [Machine.goto, h.running, h.alive, h.lock, h.active, h.inc, h.count, h.index]

theorem exec {f : Proc SemId → Shared → Shared × Label} (h : Here m l lk c i) (l' : Label)
    (c' i' : ℤ) (hi : instr l = .exec f)
    (hf : ∀ me s, (s.semTable 0).active = true → (s.semTable 0).inc = 1 →
      (s.semTable 0).count = c → s.semEventIndex = i → (f me s).2 = l' ∧
      ((f me s).1.semTable 0).active = true ∧ ((f me s).1.semTable 0).inc = 1 ∧
      ((f me s).1.semTable 0).count = c' ∧ (f me s).1.semEventIndex = i') :
    Leads m l' lk c' i' := by
  obtain ⟨hl, hact, hinc, hcount, hidx⟩ := hf (m.proc 0) m.shared h.active h.inc h.count h.index
  have hs : step m (.step 0) = some ({ m with shared := (f (m.proc 0) m.shared).1 }.goto 0
      (.run (f (m.proc 0) m.shared).2)) := by
    simp [step, Machine.step, stepProc, h.ctl, h.running, code, hi, stepInstr]
  refine ⟨_, Reach.refl.tail trivial hs, ?_⟩
  constructor <;> simp [Machine.goto, h.running, h.alive, h.lock, hl, hact, hinc, hcount, hidx]

theorem acquire (h : Here m l none c i) (hi : instr l = .acquire (.sem 0) l') :
    Leads m l' (some 0) c i := by
  have hs : step m (.step 0) = some ((m.setLock (.sem 0) (some 0)).goto 0 (.run l')) := by
    simp [step, Machine.step, stepProc, h.ctl, h.running, code, hi, stepInstr, h.lock]
  refine ⟨_, Reach.refl.tail trivial hs, ?_⟩
  constructor <;> simp [Machine.goto, Machine.setLock, h.running, h.alive, h.active, h.inc, h.count,
    h.index]

theorem release (h : Here m l (some 0) c i) (hi : instr l = .release (.sem 0) l') :
    Leads m l' none c i := by
  have hs : step m (.step 0) = some ((m.setLock (.sem 0) none).goto 0 (.run l')) := by
    simp [step, Machine.step, stepProc, h.ctl, h.running, code, hi, stepInstr, h.lock]
  refine ⟨_, Reach.refl.tail trivial hs, ?_⟩
  constructor <;> simp [Machine.goto, Machine.setLock, h.running, h.alive, h.active, h.inc, h.count,
    h.index]

theorem Leads.seq {l'' : Label} {lk' lk'' : Option Slot} {c'' i'' : ℤ} (h : Leads m l' lk' c' i')
    (hnext : ∀ m', Here m' l' lk' c' i' → Leads m' l'' lk'' c'' i'') : Leads m l'' lk'' c'' i'' := by
  obtain ⟨m1, hr1, h1⟩ := h
  obtain ⟨m2, hr2, h2⟩ := hnext m1 h1
  exact ⟨m2, hr1.trans hr2, h2⟩

theorem checked_zero {s : Shared} (hact : (s.semTable 0).active = true)
    (hinc : (s.semTable 0).inc = 1) : s.checked 0 = some ⟨0, 1⟩ := by
  rw [Shared.checked, dif_pos (by decide)]
  change (if (s.semTable 0).active = true then some (⟨0, (s.semTable 0).inc⟩ : Op) else none) = _
  rw [if_pos hact, hinc]

theorem waits (h : Here m .user none 1 i) :
    Leads m (.semSignalRecord ⟨0, 1⟩) (some 0) 0 (int32 (i + 1)) := by
  refine (h.call (.sysSemWait 0) (by decide)).seq fun m1 h1 => ?_
  refine (h1.exec (.semWait ⟨0, 1⟩) 1 i rfl fun me s hact hinc hc hi => ?_).seq fun m2 h2 => ?_
  · simp [checked_zero hact hinc, hact, hinc, hc, hi]
  refine (h2.acquire rfl).seq fun m3 h3 => ?_
  refine (h3.exec (.semWaitAcquired ⟨0, 1⟩) 0 i rfl fun me s hact hinc hc hi => ?_).seq
    fun m4 h4 => ?_
  · simp [Shared.setSem, hc, hact, hinc, hi, int32]
  refine (h4.exec (.semWaitRelease ⟨0, 1⟩) 0 (int32 (i + 1)) rfl
    fun me s hact hinc hc hi => ?_).seq fun m5 h5 => ?_
  · simp [Shared.semRecordEvent, hc, hact, hinc, hi]
  refine (h5.release rfl).seq fun m6 h6 => ?_
  refine (h6.exec .user _ _ rfl fun me s hact hinc hc hi => ⟨rfl, hact, hinc, hc, hi⟩).seq
    fun m7 h7 => ?_
  refine (h7.call (.sysSemSignal 0) (by decide)).seq fun m8 h8 => ?_
  refine (h8.exec (.semSignal ⟨0, 1⟩) 0 (int32 (i + 1)) rfl fun me s hact hinc hc hi => ?_).seq
    fun m9 h9 => ?_
  · simp [checked_zero hact hinc, hact, hinc, hc, hi]
  exact h9.acquire rfl

theorem signals (h : Here m (.semSignalRecord ⟨0, 1⟩) (some 0) 0 i) :
    Leads m .user none 1 (int32 (i + 1)) := by
  refine (h.exec (.semSignalCount ⟨0, 1⟩) 0 (int32 (i + 1)) rfl
    fun me s hact hinc hc hi => ?_).seq fun m1 h1 => ?_
  · simp [Shared.semRecordEvent, hc, hact, hinc, hi]
  refine (h1.exec (.semSignalRelease ⟨0, 1⟩) 1 (int32 (i + 1)) rfl fun me s hact hinc hc hi => ?_).seq
    fun m2 h2 => ?_
  · simp [Shared.setSem, hc, hact, hinc, hi, int32]
  refine (h2.release rfl).seq fun m3 h3 => ?_
  exact h3.exec _ _ _ rfl fun me s hact hinc hc hi => ⟨rfl, hact, hinc, hc, hi⟩

theorem rounds (n : ℕ) : Leads boot .user none 1 (int32 (2 * n)) := by
  induction n with
  | zero =>
    obtain ⟨m, hrun, hf⟩ := exists_reach step (fun _ _ => true) boot
      (List.flatten [spawn 0 1, calls 0 (.sysSemOpen 1 []) 6])
      (fun m => decide ((m.proc 0).state = .running ∧ (m.proc 0).killed = false ∧
        labelOf (m.ctl 0) = some .user ∧ m.lock (.sem 0) = none ∧
        m.shared.semTable 0 = ⟨1, true, [], 1⟩ ∧ m.shared.semEventIndex = 0)) true
      (by decide +kernel)
    obtain ⟨hrunning, hkilled, hctl, hlock, hsem, hidx⟩ := of_decide_eq_true hf
    exact ⟨m, hrun.mono fun _ _ _ => trivial, ⟨hrunning, hkilled, eq_run_of_labelOf hctl, hlock,
      by rw [hsem], by rw [hsem], by rw [hsem], hidx⟩⟩
  | succ n ih =>
    refine ih.seq fun m h => h.waits.seq fun m' h' => ?_
    have hnext := h'.signals
    rw [int32_add_int32, add_assoc, int32_add_int32] at hnext
    have hsum : 2 * (n : ℤ) + (1 + 1) = 2 * ((n + 1 : ℕ) : ℤ) := by
      push_cast
      ring
    rwa [hsum] at hnext

end Here

/-- **After the wrap the index is negative.** The first process takes and gives back a unit `2 ^ 30`
times, which records `2 ^ 31` events, and takes it once more. When the `sem_signal` that follows
records its event, the index into the ring is -1023. -/
theorem event_index_negative : ∃ m, Reach step (fun _ _ => True) boot m ∧
    m.ctl 0 = .run (.semSignalRecord ⟨0, 1⟩) ∧
    m.shared.semEventIndex.tmod SEM_EVENT_LOG_SIZE = -1023 := by
  obtain ⟨m, hreach, h⟩ := (Here.rounds (2 ^ 30)).seq fun m h => h.waits
  refine ⟨m, hreach, h.ctl, ?_⟩
  rw [h.index]
  decide

end Xv6.Semaphore

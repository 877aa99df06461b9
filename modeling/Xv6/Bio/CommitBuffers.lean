import Xv6.Bio.CommitPoint

/-!
# Buffers for `commit`

`log_write` pins the buffer of every block of the header, and `commit` needs one buffer more, for
the blocks of the log.

## Main results

* `commit_finds_buffer`: `bget` has a buffer for `commit`, cached or to recycle
-/

namespace Xv6.Bio

open Thread Transition Tally

structure LogHistory where
  ghost : Ghost Log.Block
  /-- The blocks each operation has passed to `log_write`. -/
  own : Slot → Finset ℕ

def LogHistory.note (h : LogHistory) (s : LogCache) (a : LogAct) : LogHistory where
  ghost := (s.action a).elim h.ghost (h.ghost.note s.cache)
  own :=
    match a with
    | .beginOp p => Function.update h.own p ∅
    | .logWrite p b => Function.update h.own p (insert (s.cache.buf b).blockno (h.own p))
    | .access _ | .endOp _ | .commit => h.own

/-- The rules for operations: they keep to the rules of the cache, log at most `MAXOPBLOCKS` distinct
blocks each, of the device of the log, and have released their buffers when they end. -/
def OpRules (h : LogHistory) (s : LogCache) : LogAct → Prop
  | .access a => Disciplined h.ghost a
  | .logWrite p b => (insert (s.cache.buf b).blockno (h.own p)).card ≤ MAXOPBLOCKS
  | .endOp p => ∀ b, s.cache.lock b ≠ some p
  | .beginOp _ | .commit => True

instance (h : LogHistory) (s : LogCache) : DecidablePred (OpRules h s)
  | .access a => inferInstanceAs (Decidable (Disciplined h.ghost a))
  | .logWrite _ _ => inferInstanceAs (Decidable (_ ≤ _))
  | .endOp _ => inferInstanceAs (Decidable (∀ _, _))
  | .beginOp _ | .commit => inferInstanceAs (Decidable True)

def Spare (s : LogCache) : LogAct → Prop
  | .logWrite _ b => s.absorbs b = true ∨ s.lh.length + 1 < NBUF
  | .access _ | .beginOp _ | .endOp _ | .commit => True

instance (s : LogCache) : DecidablePred (Spare s)
  | .logWrite _ _ => inferInstanceAs (Decidable (_ ∨ _))
  | .access _ | .beginOp _ | .endOp _ | .commit => inferInstanceAs (Decidable True)

structure Pins (s : LogCache) (g : Ghost Log.Block) : Prop where
  coherent : Coherent s.cache g
  device : ∀ b, (s.cache.buf b).dev = 0 ∨ (s.cache.buf b).dev = ROOTDEV
  nodup : s.lh.Nodup
  pinned : Pinned s.cache g (s.committing.elim s.lh fun c => c.2.pinned s.lh)
  alone : s.committing.isSome = true → s.outstanding = 0
  point : ∀ p pt, s.committing = some (p, pt) → AtPoint s.cache s.lh g p pt

namespace Pins

variable {s s' : LogCache} {g : Ghost Log.Block} {h : LogHistory} {a : Act Log.Block}
  {c : Cache Log.Block} {p : Slot} {pt pt' : Point}

theorem device_step (hp : Pins s g) (hs : s.cache.step a = some c)
    (ha : ∀ q dev n, a = .bget q dev n → dev = ROOTDEV) (b : BufId) :
    (c.buf b).dev = 0 ∨ (c.buf b).dev = ROOTDEV := by
  obtain ⟨hdev, -⟩ | ⟨-, -, q, rfl⟩ := block_step hs b
  · rw [hdev]
    exact hp.device b
  · exact .inr (ha q _ _ rfl)

theorem access (hp : Pins s g) (hok : Disciplined g a) (hplain : a.plain = true)
    (hne : s.committing.map Prod.fst ≠ some a.proc) (hs : s.cache.step a = some c) :
    Pins { s with cache := c } (g.note s.cache a) := by
  have hkeep : ∀ q b, a ≠ .bpin q b ∧ a ≠ .bunpin q b := fun q b => by
    constructor <;> rintro rfl <;> simp [Act.plain] at hplain
  have hdev : ∀ q dev n, a = .bget q dev n → dev = ROOTDEV := by
    rintro q dev n rfl
    simpa [Act.plain] using hplain
  refine ⟨hp.coherent.step hp.pinned.few hok hs, hp.device_step hs hdev, hp.nodup,
    hp.pinned.keep hp.coherent.counted hp.coherent.lru hs hkeep, hp.alone, fun q pt hq => ?_⟩
  refine (hp.point q pt hq).access hp.coherent hs fun heq => hne ?_
  rw [hq, heq]
  rfl

theorem logWrite {b : BufId} (hp : Pins s g) (hcom : s.committing = none)
    (hlock : s.cache.lock b = some p) (hb : s.absorbs b = false)
    (hs : s.cache.step (.bpin p b) = some c) :
    Pins { s with cache := c, lh := s.lh ++ [(s.cache.buf b).blockno] }
      (g.note s.cache (.bpin p b)) := by
  have hnot : (s.cache.buf b).blockno ∉ s.lh := by simpa [LogCache.absorbs] using hb
  have hvalid := hp.coherent.content.valid b (hp.coherent.content.held b p hlock)
  have hdev := (hp.device b).resolve_left hvalid.1
  have hpinned := hp.pinned
  rw [hcom] at hpinned
  have hcoh := hp.coherent.step hp.pinned.few (a := .bpin p b) trivial hs
  cases Cache.StepCase.of_step hs with
  | bpin =>
    refine ⟨hcoh, hp.device_step hs (by simp), ?_, ?_, by simp [hcom], by simp [hcom]⟩
    · exact List.nodup_append.mpr ⟨hp.nodup, List.nodup_singleton _, fun n hn n' hn' heq => hnot (by
        rw [← List.mem_singleton.mp hn', ← heq]
        exact hn)⟩
    · rw [hcom]
      exact hpinned.pin hp.coherent.content hdev hnot

theorem commit (hp : Pins s g) (hcom : s.committing = some (p, pt))
    (ha : s.commitAct p pt = some a) (hnext : s.commitNext p pt = some pt')
    (hs : s.cache.step a = some c) :
    Pins { s with cache := c, committing := some (p, pt') } (g.note s.cache a) := by
  have hpoint := hp.point p pt hcom
  have hpinned := hp.pinned
  rw [hcom] at hpinned
  have hok := hpoint.disciplined hpinned ha
  have hcoh := hp.coherent.step hp.pinned.few hok hs
  have hdev : ∀ q dev n, a = .bget q dev n → dev = ROOTDEV := by
    rintro q dev n rfl
    cases pt <;> simp [LogCache.commitAct] at ha
    all_goals exact ha.2.1.symm
  refine ⟨hcoh, hp.device_step hs hdev, hp.nodup, ?_, fun _ => hp.alone (by simp [hcom]), ?_⟩
  · by_cases hunpin : ∃ t x y, pt = .bunpin t x y
    · obtain ⟨t, x, y, rfl⟩ := hunpin
      obtain rfl := Option.some.inj ha
      obtain rfl := Option.some.inj hnext
      obtain ⟨hdev, hblockno⟩ := hpoint.home y t rfl
      cases Cache.StepCase.of_step hs with
      | bunpin => exact hpinned.unpin hp.coherent.content hp.nodup (hpoint.tail t rfl) hdev hblockno
    push Not at hunpin
    have hkeep : ∀ q b, a ≠ .bpin q b ∧ a ≠ .bunpin q b := fun q b => by
      constructor <;> rintro rfl <;> cases pt <;> simp [LogCache.commitAct] at ha
      exact hunpin _ _ _ rfl
    have := hpinned.keep hp.coherent.counted hp.coherent.lru hs hkeep
    simpa [pinned_commitNext hnext hunpin] using this
  · rintro q pt'' ⟨⟩
    exact hpoint.commit hp.coherent ha hs hnext

theorem step {a : LogAct} (hp : Pins s h.ghost) (hok : OpRules h s a) (hs : s.step a = some s') :
    Pins s' (h.note s a).ghost := by
  obtain ⟨s1, hmove, hs⟩ := Option.bind_eq_some_iff.mp hs
  cases a with
  | access a =>
    simp only [LogCache.moveLog, Option.ite_none_right_eq_some, Option.some.injEq] at hmove
    obtain ⟨⟨hplain, hne⟩, rfl⟩ := hmove
    obtain ⟨c, hc, rfl⟩ := Option.map_eq_some_iff.mp hs
    exact hp.access hok hplain hne hc
  | beginOp p =>
    simp only [LogCache.moveLog, Option.ite_none_right_eq_some, Option.some.injEq] at hmove
    obtain ⟨⟨-, hcom, -⟩, rfl⟩ := hmove
    obtain rfl := Option.some.inj hs
    exact ⟨hp.coherent, hp.device, hp.nodup, hp.pinned, by simp [hcom], hp.point⟩
  | logWrite p b =>
    simp only [LogCache.moveLog, Option.ite_none_right_eq_some, Option.some.injEq] at hmove
    obtain ⟨⟨-, -, hlock, -, hop⟩, rfl⟩ := hmove
    have hcom : s.committing = none := by
      by_contra hsome
      have := hp.alone (Option.isSome_iff_ne_none.mpr hsome)
      omega
    cases hb : s.absorbs b with
    | true =>
      simp only [LogCache.action, hb, if_true, Option.some.injEq] at hs
      subst hs
      simpa [LogHistory.note, LogCache.action, hb] using hp
    | false =>
      simp only [LogCache.action, hb, Bool.false_eq_true, if_false] at hs
      obtain ⟨c, hc, rfl⟩ := Option.map_eq_some_iff.mp hs
      simpa [LogHistory.note, LogCache.action, hb] using hp.logWrite hcom hlock hb hc
  | endOp p =>
    simp only [LogCache.moveLog, Option.ite_none_right_eq_some, Option.some.injEq] at hmove
    obtain ⟨⟨-, hidle, hcom⟩, rfl⟩ := hmove
    obtain rfl := Option.some.inj hs
    have hpinned := hp.pinned
    rw [hcom] at hpinned
    refine ⟨hp.coherent, hp.device, hp.nodup, ?_, ?_, ?_⟩
    · dsimp only
      split
      · split <;> exact hpinned
      · exact hpinned
    · dsimp only
      split
      · exact fun _ => ‹_›
      · simp
    rintro q pt hq
    dsimp only at hq
    split at hq
    · cases hq
      exact .start hidle hok
    · cases hq
  | commit =>
    simp only [LogCache.moveLog] at hmove
    split at hmove
    · rename_i p hcom
      obtain rfl := Option.some.inj hmove
      have hpinned := hp.pinned
      simp only [LogCache.action, hcom, Option.bind_some, LogCache.commitAct, Option.some.injEq] at hs
      subst hs
      rw [hcom] at hpinned
      simpa [LogHistory.note, LogCache.action, hcom, LogCache.commitAct] using
        (⟨hp.coherent, hp.device, hp.nodup, hpinned, by simp, by simp⟩ :
          Pins { s with committing := none } h.ghost)
    · rename_i p hcom
      obtain rfl := Option.some.inj hmove
      have hpinned := hp.pinned
      have hpoint := hp.point p .clear hcom
      simp only [LogCache.action, hcom, Option.bind_some, LogCache.commitAct, Option.some.injEq] at hs
      subst hs
      rw [hcom] at hpinned
      have hnew : Pins { s with lh := [], committing := some (p, .getHead true) } h.ghost := by
        refine ⟨hp.coherent, hp.device, List.nodup_nil, hpinned, fun _ => hp.alone (by simp [hcom]), ?_⟩
        rintro q pt ⟨⟩
        exact .plain (by simp [Point.tail]) List.nodup_nil hpoint.locks (fun _ => hpoint.idle rfl)
          (by simp) rfl (by simp [Point.held])
      simpa [LogHistory.note, LogCache.action, hcom, LogCache.commitAct] using hnew
    · rename_i p pt hfinish hclear hcom
      obtain ⟨pt', hnext, rfl⟩ := Option.map_eq_some_iff.mp hmove
      have hact : s.action .commit = s.commitAct p pt := by
        rw [LogCache.action, hcom, Option.bind_some]
      cases ha : s.commitAct p pt with
      | none => cases pt <;> simp [LogCache.commitAct] at ha hfinish hclear
      | some a =>
        rw [hact, ha] at hs
        obtain ⟨c, hc, rfl⟩ := Option.map_eq_some_iff.mp hs
        simpa [LogHistory.note, hact, ha] using hp.commit hcom ha hnext hc
    · cases hmove

end Pins

abbrev logStep : LogCache × LogHistory → LogAct → Option (LogCache × LogHistory) :=
  withHistory LogCache.step LogHistory.note

abbrev LogRun (disk : ℕ → ℕ → Log.Block) (start : ℕ) (ok : LogCache → LogAct → Prop)
    (s : LogCache × LogHistory) : Prop :=
  Reach logStep (fun s a => OpRules s.2 s.1 a ∧ ok s.1 a)
    (LogCache.boot disk start, ⟨Ghost.init disk, fun _ => ∅⟩) s

theorem pins_of_run {disk : ℕ → ℕ → Log.Block} {start : ℕ} {ok : LogCache → LogAct → Prop}
    {s : LogCache × LogHistory} (h : LogRun disk start ok s) : Pins s.1 s.2.ghost := by
  refine h.invariant (I := fun s => Pins s.1 s.2.ghost) ?_ ?_
  · refine ⟨coherent_binit disk _, fun _ => .inl rfl, List.nodup_nil, ⟨fun b => ?_, ?_⟩, ?_, ?_⟩
    · simp [LogCache.boot, Ghost.init]
    · simp [LogCache.boot]
    · simp [LogCache.boot]
    · simp [LogCache.boot]
  rintro s a s' hi ⟨hok, -⟩ hs
  obtain ⟨hs, hnote⟩ := withHistory_eq_some.mp hs
  rw [hnote]
  exact hi.step hok hs

theorem length_of_run {disk : ℕ → ℕ → Log.Block} {start : ℕ} {s : LogCache × LogHistory}
    (h : LogRun disk start Spare s) : s.1.lh.length < NBUF := by
  refine h.invariant (I := fun s => s.1.lh.length < NBUF) (Nat.pos_of_neZero NBUF) ?_
  rintro ⟨s, h⟩ a ⟨s', h'⟩ hi ⟨-, hspare⟩ hs
  obtain ⟨s1, hmove, hs⟩ := Option.bind_eq_some_iff.mp (withHistory_eq_some.mp hs).1
  have hlh : s'.lh = s1.lh := by
    split at hs
    · rw [Option.some.inj hs]
    · obtain ⟨c, -, rfl⟩ := Option.map_eq_some_iff.mp hs
      rfl
  rw [hlh]
  cases a with
  | access | beginOp | endOp =>
    simp only [LogCache.moveLog, Option.ite_none_right_eq_some, Option.some.injEq] at hmove
    obtain ⟨-, rfl⟩ := hmove
    exact hi
  | logWrite p b =>
    simp only [LogCache.moveLog, Option.ite_none_right_eq_some, Option.some.injEq] at hmove
    obtain ⟨-, rfl⟩ := hmove
    dsimp only
    split
    · exact hi
    · have := hspare.resolve_left ‹_›
      rw [List.length_append, List.length_singleton]
      exact this
  | commit =>
    simp only [LogCache.moveLog] at hmove
    split at hmove
    · obtain rfl := Option.some.inj hmove
      exact hi
    · obtain rfl := Option.some.inj hmove
      exact Nat.pos_of_neZero NBUF
    · obtain ⟨pt, -, rfl⟩ := Option.map_eq_some_iff.mp hmove
      exact hi
    · cases hmove

def Alone (m : Cache Log.Block) (p : Slot) : Prop :=
  ∀ q, q ≠ p → ∀ b, m.lock b ≠ some q ∧ (m.ctl q).on b = false

instance (m : Cache Log.Block) (p : Slot) : Decidable (Alone m p) :=
  inferInstanceAs (Decidable (∀ _, _))

theorem length_pinned (lh : List ℕ) (pt : Point) : (pt.pinned lh).length ≤ lh.length := by
  unfold Point.pinned
  split
  all_goals simp

theorem Pins.victim_isSome {s : LogCache} {g : Ghost Log.Block} {p : Slot} {pt : Point}
    (h : Pins s g) (hlen : s.lh.length < NBUF) (hcom : s.committing = some (p, pt))
    (halone : Alone s.cache p) (hfree : pt.free = true) (hheld : pt.held = []) :
    s.cache.victim.isSome = true := by
  have hpoint := h.point p pt hcom
  have hpinned := h.pinned
  rw [hcom] at hpinned
  obtain ⟨b, hb⟩ := hpinned.exists_unpinned h.coherent.content.unique
    ((length_pinned s.lh pt).trans_lt hlen)
  refine h.coherent.lru.victim_isSome (b := b) ?_
  have hlock : s.cache.lock b = none := by
    by_contra hsome
    obtain ⟨q, hq⟩ := Option.ne_none_iff_exists'.mp hsome
    by_cases hqp : q = p
    · subst hqp
      have := (hpoint.locks b).mp hq
      rw [hheld] at this
      cases this
    · exact (halone q hqp b).1 hq
  have htally : tally (Ctl.on b) s.cache.ctl = 0 := by
    refine tally_eq_zero_iff.mpr fun q => ?_
    by_cases hqp : q = p
    · subst hqp
      rw [hpoint.idle hfree]
      rfl
    · exact (halone q hqp b).2
  rw [h.coherent.counted b, Cache.breads, hlock, htally, hb]
  rfl

/-- **`commit` finds its buffers.** -/
theorem commit_finds_buffer {disk : ℕ → ℕ → Log.Block} {start : ℕ} {s : LogCache} {h : LogHistory}
    {p : Slot} {pt : Point} {dev n : ℕ} (hrun : LogRun disk start Spare (s, h))
    (hcom : s.committing = some (p, pt)) (halone : Alone s.cache p)
    (ha : s.commitAct p pt = some (.bget p dev n)) :
    (s.cache.lookup dev n).isSome = true ∨ s.cache.victim.isSome = true := by
  have hpins : Pins s h.ghost := pins_of_run hrun
  have hlen : s.lh.length < NBUF := length_of_run hrun
  have hpinned := hpins.pinned
  rw [hcom] at hpinned
  cases pt with
  | getLog | getHead => exact .inr (hpins.victim_isSome hlen hcom halone rfl rfl)
  | getHome k t x =>
    -- the home block is in the header, so its buffer is pinned
    left
    simp only [LogCache.commitAct, Option.some.injEq, Act.bget.injEq, true_and] at ha
    obtain ⟨rfl, rfl⟩ := ha
    have ht := (hpins.point p _ hcom).tail t rfl
    have hmem : s.lh.getD t 0 ∈ (Point.getHome k t x).pinned s.lh := by
      cases k with
      | log => exact List.mem_of_mem_drop (AtPoint.mem_drop ht)
      | install => exact AtPoint.mem_drop ht
    obtain ⟨b, hb⟩ := hpinned.cached _ hmem
    rw [Option.isSome_iff_ne_none]
    exact fun hnone => hpins.coherent.lru.lookup_eq_none hnone b hb
  | _ => simp [LogCache.commitAct] at ha

def logBlocks (p : Slot) (bs : List BufId) : List LogAct :=
  bs.flatMap fun b =>
    [.access (.bget p ROOTDEV (100 + b.val)), .access (.bread p), .access (.modify p b fun _ => 1),
      .logWrite p b, .access (.brelse p b), .access (.unref p)]

/-- An operation that logs two blocks comes to `commit` and finds a buffer. -/
theorem commit_finds_buffer_two : ∃ s h, LogRun (fun _ _ _ => 0) 2 Spare (s, h) ∧
    s.committing = some (0, .getLog .log 0) ∧ s.lh = [100, 101] ∧
    ((s.cache.lookup ROOTDEV 3).isSome = true ∨ s.cache.victim.isSome = true) := by
  obtain ⟨⟨s, h⟩, hs, heq⟩ := exists_reach logStep
    (fun s a => decide (OpRules s.2 s.1 a ∧ Spare s.1 a))
    (LogCache.boot (fun _ _ _ => 0) 2, ⟨Ghost.init fun _ _ _ => 0, fun _ => ∅⟩)
    ([.beginOp 0] ++ logBlocks 0 [0, 1] ++ [.endOp 0])
    (fun s => (s.1.committing, s.1.lh, s.1.start, decide (Alone s.1.cache 0)))
    (some (0, .getLog .log 0), [100, 101], 2, true) (by decide +kernel)
  simp only [Prod.mk.injEq, decide_eq_true_eq] at heq
  obtain ⟨hcom, hlh, hstart, halone⟩ := heq
  have hrun : LogRun (fun _ _ _ => 0) 2 Spare (s, h) := hs.mono fun _ _ => of_decide_eq_true
  have ha : s.commitAct 0 (.getLog .log 0) = some (.bget 0 ROOTDEV 3) := by
    simp [LogCache.commitAct, hstart]
  exact ⟨s, h, hrun, hcom, hlh, commit_finds_buffer hrun hcom halone ha⟩

/-- **A full log leaves no buffer for `commit`.** -/
theorem commit_without_buffer : ∃ s h, LogRun (fun _ _ _ => 0) 2 (fun _ _ => True) (s, h) ∧
    s.committing = some (2, .getLog .log 0) ∧ Alone s.cache 2 ∧
    s.commitAct 2 (.getLog .log 0) = some (.bget 2 ROOTDEV 3) ∧
    s.cache.lookup ROOTDEV 3 = none ∧ s.cache.victim = none := by
  obtain ⟨⟨s, h⟩, hs, heq⟩ := exists_reach logStep (fun s a => decide (OpRules s.2 s.1 a))
    (LogCache.boot (fun _ _ _ => 0) 2, ⟨Ghost.init fun _ _ _ => 0, fun _ => ∅⟩)
    (List.flatten [[.beginOp 0, .beginOp 1, .beginOp 2],
      logBlocks 0 [0, 1, 2, 3, 4, 5, 6, 7, 8, 9],
      logBlocks 1 [10, 11, 12, 13, 14, 15, 16, 17, 18, 19],
      logBlocks 2 [20, 21, 22, 23, 24, 25, 26, 27, 28, 29],
      [.endOp 0, .endOp 1, .endOp 2]])
    (fun s => (s.1.committing, s.1.start, decide (Alone s.1.cache 2), s.1.cache.lookup ROOTDEV 3,
      s.1.cache.victim))
    (some (2, .getLog .log 0), 2, true, none, none) (by decide +kernel)
  simp only [Prod.mk.injEq, decide_eq_true_eq] at heq
  obtain ⟨hcom, hstart, halone, hlookup, hvictim⟩ := heq
  refine ⟨s, h, hs.mono fun _ _ hok => ⟨of_decide_eq_true hok, trivial⟩, hcom, halone, ?_, hlookup,
    hvictim⟩
  simp [LogCache.commitAct, hstart]

end Xv6.Bio

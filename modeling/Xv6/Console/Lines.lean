import Xv6.Console.Editor

/-!
# The line discipline

Characters and calls of `consoleread` come in any order.

## Main results

* `line_discipline`: what a reader gets is what was typed and edited
-/

namespace Xv6.Console

open Thread Machine Transition Function Read List Cons Console

/-! ## What the calls have done -/

def Event.handedByte : Event → Option UInt8
  | .handed c => some c
  | .typed _ | .dropped _ => none

def handed (trace : List Event) : List UInt8 := trace.filterMap Event.handedByte

def CopiesSucceed (trace : List Event) : Prop := ∀ c, .dropped c ∉ trace

theorem CopiesSucceed.of_append {trace : List Event} {ev : Event}
    (h : CopiesSucceed (trace ++ [ev])) : CopiesSucceed trace :=
  fun c hc => h c (mem_append_left _ hc)

/-- The call returned the number of bytes it copied: for a positive length at most one line, and
nothing exactly when the next byte of the edited input was `^D`. -/
structure ReadLog.Ok (input : List UInt8) (l : ReadLog) : Prop where
  ret : l.ret = l.bytes.length
  le : 0 < l.target → l.ret ≤ l.target
  line : newline ∉ l.bytes.dropLast
  eof : 0 < l.target → ∃ c, input[l.pos]? = some c ∧ (l.ret = 0 ↔ c = ctrl 'D')

theorem ReadLog.Ok.mono {input input' : List UInt8} {l : ReadLog} (h : l.Ok input)
    (hpre : input <+: input') : l.Ok input' where
  ret := h.ret
  le := h.le
  line := h.line
  eof hpos := by
    obtain ⟨c, hc, hret⟩ := h.eof hpos
    exact ⟨c, getElem?_mono hpre hc, hret⟩

/-- What a call has copied: part of a line, or a whole one. -/
structure Read.Copied (input : List UInt8) (k : Read) : Prop where
  n : k.n = k.target - k.got.length
  nonneg : k.got ≠ [] → 0 ≤ k.n
  line : newline ∉ k.got.dropLast
  eof : ctrl 'D' ∉ k.got
  first : ∀ c, k.got.head? = some c → input[k.pos]? = some c

/-- A call in progress has not come to the end of a line. -/
structure Read.Ok (input : List UInt8) (k : Read) : Prop extends k.Copied input where
  newline : newline ∉ k.got

namespace Read

variable {input : List UInt8} {k : Read} {c : UInt8} {t : ℕ}

@[simp] theorem found_got : (k.found t).got = k.got := by
  rw [found]
  split <;> rfl

@[simp] theorem found_n : (k.found t).n = k.n := by
  rw [found]
  split <;> rfl

@[simp] theorem found_target : (k.found t).target = k.target := by
  rw [found]
  split <;> rfl

theorem found_of_got (h : k.got ≠ []) : k.found t = k := if_neg h

theorem Ok.mono {input' : List UInt8} (h : k.Ok input) (hpre : input <+: input') : k.Ok input' :=
  { h with first := fun c hc => getElem?_mono hpre (h.first c hc) }

theorem ok_start (n : ℤ) (room : ℕ) : (start n room).Ok input where
  n := by simp [start]
  nonneg h := absurd rfl h
  line := by simp [start]
  eof := by simp [start]
  first c h := by simp [start] at h
  newline := by simp [start]

theorem Copied.log (h : k.Copied input) (hgot : k.got ≠ []) : k.log.Ok input := by
  have hret : k.log.ret = k.got.length := by
    simp only [Read.log, h.n]
    omega
  have hpos := List.length_pos_of_ne_nil hgot
  refine ⟨hret, fun _ => ?_, h.line, fun _ => ?_⟩
  · have := h.nonneg hgot
    simp only [Read.log]
    omega
  have hhead := List.head?_eq_some_head hgot
  refine ⟨k.got.head hgot, h.first _ hhead, ?_⟩
  rw [hret]
  refine ⟨fun h0 => by omega, fun hD => ?_⟩
  exact absurd (hD ▸ List.head_mem hgot) h.eof

theorem Ok.log_of_nonpos (h : k.Ok input) (hgot : k.got = []) (htarget : k.target ≤ 0) :
    k.log.Ok input where
  ret := by
    simp only [log, h.n, hgot, length_nil]
    omega
  le hpos := absurd hpos (not_lt.2 htarget)
  line := by simp [log, hgot]
  eof hpos := absurd hpos (not_lt.2 htarget)

theorem Ok.log_of_eof (h : k.Ok input) (hgot : k.got = []) (ht : input[t]? = some (ctrl 'D')) :
    (k.found t).log.Ok input where
  ret := by simp [log, h.n, hgot]
  le hpos := by
    have htarget : 0 < k.target := by simpa [log] using hpos
    simp only [log, found_target, found_n, h.n, hgot, length_nil]
    omega
  line := by simp [found, log, hgot]
  eof hpos := by
    refine ⟨ctrl 'D', ?_, ?_⟩
    · simpa [found, log, hgot] using ht
    · simp [log, h.n, hgot]

theorem Ok.copied (h : k.Ok input) (hn : 0 < k.n) (ht : input[t]? = some c)
    (hc : c ≠ ctrl 'D') : ((k.found t).copied c).Copied input where
  n := by
    simp only [Read.copied, found_n, found_target, found_got, List.length_append,
      List.length_singleton, h.n]
    omega
  nonneg _ := by
    simp only [Read.copied, found_n]
    omega
  line := by simpa [Read.copied] using h.newline
  eof := by
    simp only [Read.copied, found_got, List.mem_append, List.mem_singleton, not_or]
    exact ⟨h.eof, fun hD => hc hD.symm⟩
  first b hb := by
    by_cases hgot : k.got = []
    · have hcb : c = b := by simpa [Read.copied, hgot] using hb
      simpa [Read.copied, found, hgot, hcb] using hcb ▸ ht
    · rw [found_of_got hgot] at hb ⊢
      refine h.first b ?_
      rwa [Read.copied, List.head?_append_of_ne_nil _ hgot] at hb

end Read

/-! ## The invariant -/

def readOf : Label → Option Read
  | .consoleread n room => some (.start n room)
  | .readLoop k | .readKilled k | .readSleep k => some k
  | _ => none

/-- The buffer represents the edited input; `rd` is the call each process is in. -/
structure Lines (s : Cons) (rd : Slot → Option Read) : Prop where
  rep : s.Rep (edited s.trace)
  takes : s.takes = (edited s.trace).taken
  reads : ∀ p k, rd p = some k → k.Ok (edited s.trace).committed
  handed : CopiesSucceed s.trace →
    handed s.trace = (edited s.trace).committed.take (edited s.trace).taken
  logs : CopiesSucceed s.trace → ∀ l ∈ s.reads, l.Ok (edited s.trace).committed

namespace Cons

theorem killLine_trace (k : ℕ) (s : Cons) :
    (s.killLine k).trace = s.trace ∧ (s.killLine k).reads = s.reads := by
  induction k generalizing s with
  | zero => exact ⟨rfl, rfl⟩
  | succ k ih =>
    rw [killLine]
    split
    · exact ih s.erase
    · exact ⟨rfl, rfl⟩

theorem intr_trace (s : Cons) (c : UInt8) :
    (s.intr c).1.trace = s.trace ∧ (s.intr c).1.reads = s.reads := by
  simp only [intr]
  split
  · exact ⟨rfl, rfl⟩
  split
  · exact s.killLine_trace _
  split
  · split <;> exact ⟨rfl, rfl⟩
  split
  · generalize (if c = carriageReturn then newline else c) = b
    split <;> exact ⟨rfl, rfl⟩
  · exact ⟨rfl, rfl⟩

end Cons

namespace Lines

variable {s : Cons} {rd : Slot → Option Read} {p : Slot} {k : Read}

theorem move {x : Option Read} (h : Lines s rd)
    (hx : ∀ k, x = some k → k.Ok (edited s.trace).committed) : Lines s (update rd p x) :=
  { h with
    reads := by
      intro q k hq
      by_cases hqp : q = p
      · subst hqp
        rw [update_self] at hq
        exact hx k hq
      · rw [update_of_ne hqp] at hq
        exact h.reads q k hq }

theorem typed (h : Lines s rd) (c : UInt8) : Lines ((s.intr c).1.typed c) rd := by
  obtain ⟨htrace, hreads⟩ := s.intr_trace c
  have hedit : edited ((s.intr c).1.typed c).trace = (edited s.trace).type c := by
    simp only [Cons.typed, htrace, edited_append, Editor.event]
  obtain ⟨hpre, htaken⟩ := (edited s.trace).type_grows c
  have hsucc : CopiesSucceed ((s.intr c).1.typed c).trace → CopiesSucceed s.trace := by
    simp only [Cons.typed, htrace]
    exact CopiesSucceed.of_append
  refine ⟨?_, ?_, fun q k hq => ?_, fun hc => ?_, fun hc l hl => ?_⟩
  · rw [hedit]
    exact (h.rep.intr c).congr rfl rfl rfl rfl
  · rw [hedit, htaken, ← h.takes]
    simp [Cons.takes, Cons.typed, htrace, Event.isTaken]
  · rw [hedit]
    exact (h.reads q k hq).mono hpre
  · have hhanded : Console.handed ((s.intr c).1.typed c).trace = Console.handed s.trace := by
      simp [Console.handed, Cons.typed, htrace, Event.handedByte]
    obtain ⟨more, hmore⟩ := hpre
    rw [hhanded, hedit, htaken, ← hmore, List.take_append_of_le_length (edited s.trace).taken_le]
    exact h.handed (hsucc hc)
  · rw [hedit]
    refine (h.logs (hsucc hc) l ?_).mono hpre
    rwa [← hreads]

/-- **A byte is taken**, and goes to its reader or is lost. -/
theorem next {c : UInt8} {ev : Event} (h : Lines s rd)
    (hc : (edited s.trace).committed[(edited s.trace).taken]? = some c)
    (hev : ev = .handed c ∨ ev = .dropped c) : Lines (s.next ev) rd := by
  obtain ⟨hlt, -⟩ := List.getElem?_eq_some_iff.1 hc
  have hedit : edited (s.next ev).trace = (edited s.trace).take := by
    rw [Cons.next, edited_append]
    rcases hev with rfl | rfl <;> rfl
  have hcom := (edited s.trace).take_committed
  have htaken := Editor.take_taken hlt
  refine ⟨?_, ?_, fun q k hq => ?_, fun hsucc => ?_, fun hsucc l hl => ?_⟩
  · rw [hedit]
    exact h.rep.next hlt ev
  · rw [hedit, htaken, ← h.takes]
    rcases hev with rfl | rfl <;> simp [Cons.takes, Cons.next, Event.isTaken]
  · rw [hedit, hcom]
    exact h.reads q k hq
  · rcases hev with rfl | rfl
    · have hhanded : Console.handed (s.next (.handed c)).trace = Console.handed s.trace ++ [c] := by
        simp [Console.handed, Cons.next, Event.handedByte]
      rw [hhanded, hedit, hcom, htaken, List.take_add_one, hc, h.handed hsucc.of_append]
      rfl
    · exact absurd (List.mem_append_right _ (List.mem_singleton_self _)) (hsucc c)
  · rw [hedit, hcom]
    exact h.logs hsucc.of_append l hl

theorem finish (h : Lines s rd)
    (hlog : CopiesSucceed s.trace → k.log.Ok (edited s.trace).committed) :
    Lines (s.finish k).1 (update rd p (readOf (s.finish k).2)) := by
  have hlines : Lines (s.finish k).1 rd := by
    refine ⟨h.rep.congr rfl rfl rfl rfl, h.takes, h.reads, h.handed, fun hsucc l hl => ?_⟩
    rcases mem_append.1 hl with hl | hl
    · exact h.logs hsucc l hl
    · rw [mem_singleton.1 hl]
      exact hlog hsucc
  exact hlines.move fun k hk => by cases hk

/-- **The body of the loop** of `consoleread`, once there is a byte. -/
theorem take (h : Lines s rd) (hk : k.Ok (edited s.trace).committed) (hn : 0 < k.n)
    (hne : s.r ≠ s.w) : Lines (s.take k).1 (update rd p (readOf (s.take k).2)) := by
  have hlt : (edited s.trace).taken < (edited s.trace).committed.length :=
    lt_of_le_of_ne (edited s.trace).taken_le fun heq => hne (h.rep.r_eq_w.2 heq)
  have hbyte := h.rep.next_byte hlt
  have hkn := hk.n
  simp only [Cons.take, h.takes]
  generalize s.buf (s.r % INPUT_BUF_SIZE) = c at hbyte ⊢
  -- the editor does not change what is committed when a byte is taken
  have hcom : ∀ ev, ev = .handed c ∨ ev = .dropped c →
      (edited (s.next ev).trace).committed = (edited s.trace).committed := by
    rintro ev hev
    rw [Cons.next, edited_append]
    rcases hev with rfl | rfl <;> exact (edited s.trace).take_committed
  split
  case isTrue hD =>
    subst hD
    rw [Read.found_n, Read.found_target]
    split
    case isTrue hlt =>
      have hgot : k.got ≠ [] := by
        intro hnil
        simp only [hnil, List.length_nil] at hkn
        omega
      rw [Read.found_of_got hgot]
      exact h.finish fun _ => hk.toCopied.log hgot
    case isFalse hge =>
      have hgot : k.got = [] := by
        rw [← List.length_eq_zero_iff]
        omega
      refine (h.next hbyte (.inl rfl)).finish fun _ => ?_
      rw [hcom _ (.inl rfl)]
      exact hk.log_of_eof hgot hbyte
  case isFalse hD =>
    have hcopied := hk.copied hn hbyte hD
    split
    · split
      case isTrue hnl =>
        refine (h.next hbyte (.inl rfl)).finish fun _ => ?_
        rw [hcom _ (.inl rfl)]
        exact hcopied.log (by simp [Read.copied])
      case isFalse hnl =>
        refine (h.next hbyte (.inl rfl)).move fun k' hk' => ?_
        rw [hcom _ (.inl rfl), ← Option.some.inj hk']
        refine ⟨hcopied, ?_⟩
        simp only [Read.copied, Read.found_got, List.mem_append, List.mem_singleton, not_or]
        exact ⟨hk.newline, fun hb => hnl hb.symm⟩
    · refine (h.next hbyte (.inr rfl)).finish fun hsucc => ?_
      exact absurd (List.mem_append_right _ (List.mem_singleton_self _)) (hsucc c)

theorem readLoop (h : Lines s rd) (hk : rd p = some k) :
    let next := if k.n > 0 then if s.r = s.w then (s, .readKilled k) else s.take k else s.finish k
    Lines next.1 (update rd p (readOf next.2)) := by
  have hok := h.reads p k hk
  dsimp only
  split
  case isTrue hn =>
    split
    · exact h.move fun k' hk' => Option.some.inj hk' ▸ hok
    case isFalse hne => exact h.take hok hn hne
  case isFalse hn =>
    refine h.finish fun _ => ?_
    by_cases hgot : k.got = []
    · refine hok.log_of_nonpos hgot ?_
      have := hok.n
      simp only [hgot, length_nil] at this
      omega
    · exact hok.toCopied.log hgot

end Lines

/-! ## Runs -/

theorem carries : Carries code readOf := by
  refine .of_instr fun l => ?_
  cases l <;> simp [code, instr, CarriesAt, readOf]

def readsOf (m : State) : Slot → Option Read := fun p => readOf (base (m.ctl p))

theorem readsOf_goto (m : State) (p : Slot) (l : Label) :
    readsOf (m.goto p (.run l)) = update (readsOf m) p (readOf l) := by
  funext q
  by_cases hqp : q = p
  · subst hqp
    simp [readsOf, base]
  · simp [readsOf, update_of_ne hqp]

theorem Lines.exec {s : Cons} {rd : Slot → Option Read} {p : Slot} {l : Label} {me : Proc Unit}
    {g : Proc Unit → Cons → Cons × Label} (h : Lines s rd) (hp : rd p = readOf l)
    (hinstr : instr l = .exec g) : Lines (g me s).1 (update rd p (readOf (g me s).2)) := by
  cases l <;> simp only [instr, Instr.exec.injEq, reduceCtorEq] at hinstr <;> subst hinstr
  case done => exact h.move fun k hk => by cases hk
  case readLoop k => exact h.readLoop hp
  case readKilled k =>
    dsimp only
    split
    · exact h.move fun k hk => by cases hk
    · exact h.move fun k' hk' => h.reads p k' (hp.trans hk')
  case intrSwitch c =>
    refine (h.typed c).move fun k hk => ?_
    dsimp only at hk
    split at hk <;> cases hk

/-- **The invariant is kept** by every move of the machine. -/
theorem Lines.step {m m' : State} {a : Act Label} (hwf : Wf code m)
    (h : Lines m.shared (readsOf m)) (hs : StepCase code m a m') :
    Lines m'.shared (readsOf m') := by
  rcases carries.step hwf hs with ⟨p, l, g, -, hctl, hinstr, rfl⟩ |
    ⟨p, cur, l, -, hinstr, hentry, rfl⟩ | rfl | ⟨hshared, hreads⟩
  · rw [readsOf_goto]
    exact h.exec (by rw [readsOf, hctl]; rfl) hinstr
  · rw [readsOf_goto]
    refine h.move fun k hk => ?_
    cases l <;> simp only [readOf, reduceCtorEq, Option.some.injEq] at hk
    case consoleread n room => exact hk ▸ ok_start n room
    -- no call starts in the middle of `consoleread`
    all_goals cases cur <;> simp [code, entry] at hentry
  · exact h
  · rw [hshared, show readsOf m' = readsOf m from funext hreads]
    exact h

theorem wf_boot : Wf code boot :=
  ⟨fun p => by simp [boot, ProcOk, Proc.free, code], fun _ => trivial⟩

theorem lines_boot : Lines boot.shared (readsOf boot) where
  rep := ⟨rfl, rfl, rfl, fun k c _ hc => by simp [boot, edited, Editor.empty] at hc⟩
  takes := rfl
  reads p k h := by cases h
  handed _ := rfl
  logs _ l hl := by cases hl

theorem lines_of_reach {m : State} (h : Reach step (fun _ _ => True) boot m) :
    Wf code m ∧ Lines m.shared (readsOf m) := by
  refine h.invariant (I := fun m => Wf code m ∧ Lines m.shared (readsOf m)) ⟨wf_boot, lines_boot⟩ ?_
  rintro m a m' ⟨hwf, hlines⟩ - hstep
  have hs := StepCase.of_step hstep
  exact ⟨hwf.stepCase hs, hlines.step hwf hs⟩

/-- **The line discipline of the console.** -/
theorem line_discipline {m : State} (h : Reach step (fun _ _ => True) boot m) :
    (usub m.shared.w m.shared.r + usub m.shared.e m.shared.w = usub m.shared.e m.shared.r ∧
      usub m.shared.e m.shared.r ≤ INPUT_BUF_SIZE) ∧
    (CopiesSucceed m.shared.trace →
      handed m.shared.trace <+: (edited m.shared.trace).committed ∧
      ∀ l ∈ m.shared.reads, l.Ok (edited m.shared.trace).committed) := by
  obtain ⟨-, hlines⟩ := lines_of_reach h
  have hused : usub m.shared.e m.shared.r = _ := hlines.rep.used_eq
  have htaken := (edited m.shared.trace).taken_le
  have hfits := (edited m.shared.trace).fits
  refine ⟨?_, fun hsucc => ⟨?_, hlines.logs hsucc⟩⟩
  · rw [hlines.rep.length_ready, hlines.rep.length_line, hused]
    exact ⟨rfl, by omega⟩
  · rw [hlines.handed hsucc]
    exact List.take_prefix _ _

/-- A process types `ab`, erases the `b` and ends the line; another one reads it. The end of file
that is typed next is the result of its second call. -/
theorem line_discipline_ab : ∃ m : State, Reach step (fun _ _ => True) boot m ∧
    CopiesSucceed m.shared.trace ∧ m.shared.reads = [⟨10, 2, [97, 10], 0⟩, ⟨10, 0, [], 2⟩] ∧
    handed m.shared.trace = [97, 10, 4] ∧
    handed m.shared.trace <+: (edited m.shared.trace).committed ∧
    ∀ l ∈ m.shared.reads, l.Ok (edited m.shared.trace).committed := by
  obtain ⟨m, hrun, hf⟩ := exists_reach step (fun _ _ => true) boot
    (List.flatten [spawn 0 1, spawn 1 2, calls 0 (.consoleintr 97) 4, calls 0 (.consoleintr 98) 4,
      calls 0 (.consoleintr 8) 4, calls 0 (.consoleintr 13) 70, calls 1 (.consoleread 10 10) 5,
      calls 0 (.consoleintr 4) 70, calls 1 (.consoleread 10 10) 4])
    (fun m => (m.shared.trace, m.shared.reads))
    ([.typed 97, .typed 98, .typed 8, .typed 13, .handed 97, .handed 10, .typed 4, .handed 4],
      [⟨10, 2, [97, 10], 0⟩, ⟨10, 0, [], 2⟩]) (by decide +kernel)
  rw [Prod.mk.injEq] at hf
  have hreach : Reach step (fun _ _ => True) boot m := hrun.mono fun _ _ _ => trivial
  have hsucc : CopiesSucceed m.shared.trace := by
    intro c hc
    simp [hf.1] at hc
  refine ⟨m, hreach, hsucc, hf.2, ?_, (line_discipline hreach).2 hsucc⟩
  rw [hf.1]
  rfl

end Xv6.Console

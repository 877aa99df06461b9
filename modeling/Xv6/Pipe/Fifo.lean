import Xv6.Pipe.Code

/-!
# A pipe is a queue

The counters of a pipe run freely and wrap; the bytes between them are the content of the pipe.

## Main results

* `pipe_fifo`: what is read is what was written, in order
-/

namespace Xv6.Pipe

open Thread Machine Transition Function Shared Instr List

/-! ## The ring -/

namespace Shared

/-- The number of bytes in the pipe, `pi->nwrite - pi->nread` in `uint` arithmetic. -/
def used (s : Shared) : ℕ := (s.nwrite + 2 ^ 32 - s.nread) % 2 ^ 32

def content (s : Shared) : List UInt8 :=
  (List.range s.used).map fun k => s.data ((s.nread + k) % PIPESIZE)

end Shared

def Event.appendedByte : Event → Option UInt8
  | .appended _ b => some b
  | .removed _ _ => none

def Event.removedByte : Event → Option UInt8
  | .appended _ _ => none
  | .removed _ b => some b

def Event.call : Event → ℕ
  | .appended c _ => c
  | .removed c _ => c

def Shared.appended (s : Shared) : List UInt8 := s.log.filterMap Event.appendedByte

def Shared.removed (s : Shared) : List UInt8 := s.log.filterMap Event.removedByte

/-- What was appended is what was removed and what is in the pipe. -/
structure Ring (s : Shared) : Prop where
  nread : s.nread < 2 ^ 32
  nwrite : s.nwrite < 2 ^ 32
  used : s.used ≤ PIPESIZE
  queue : s.appended = s.removed ++ s.content

namespace Ring

variable {s : Shared}

variable (h : Ring s)

include h

theorem full_iff : s.full = true ↔ s.used = PIPESIZE := by
  have hr := h.nread
  have hw := h.nwrite
  have hu := h.used
  rw [Shared.full, decide_eq_true_eq]
  simp only [Shared.used, PIPESIZE] at hu ⊢
  omega

theorem empty_iff : s.empty = true ↔ s.used = 0 := by
  have hr := h.nread
  have hw := h.nwrite
  simp only [Shared.empty, Shared.used, decide_eq_true_eq]
  omega

theorem used_append (hroom : s.used < PIPESIZE) (call : ℕ) (ch : UInt8) :
    (s.append call ch).used = s.used + 1 := by
  have hr := h.nread
  have hw := h.nwrite
  simp only [Shared.append, Shared.used, PIPESIZE] at *
  omega

theorem used_remove (hsome : 0 < s.used) (call : ℕ) (ch : UInt8) :
    (s.remove call ch).used + 1 = s.used := by
  have hr := h.nread
  have hw := h.nwrite
  simp only [Shared.remove, Shared.used] at *
  omega

theorem content_append (hroom : s.used < PIPESIZE) (call : ℕ) (ch : UInt8) :
    (s.append call ch).content = s.content ++ [ch] := by
  have hr := h.nread
  have hw := h.nwrite
  have hpos : s.nwrite % PIPESIZE = (s.nread + s.used) % PIPESIZE := by
    simp only [Shared.used, PIPESIZE]
    omega
  rw [Shared.content, h.used_append hroom, List.range_succ, List.map_append]
  congr 1
  · refine List.map_congr_left fun k hk => ?_
    rw [List.mem_range] at hk
    refine update_of_ne ?_ ..
    rw [hpos]
    simp only [Shared.append, PIPESIZE] at *
    omega
  · simp [Shared.append, hpos]

theorem content_remove (hsome : 0 < s.used) (call : ℕ) (ch : UInt8) :
    s.content = s.data (s.nread % PIPESIZE) :: (s.remove call ch).content := by
  have hused := h.used_remove hsome call ch
  rw [content, ← hused, range_succ_eq_map, map_cons, map_map, Nat.add_zero]
  congr 1
  refine map_congr_left fun k _ => ?_
  simp only [Function.comp_apply, remove]
  congr 1
  simp only [PIPESIZE]
  omega

theorem append (hroom : s.used < PIPESIZE) (call : ℕ) (ch : UInt8) : Ring (s.append call ch) where
  nread := h.nread
  nwrite := Nat.mod_lt _ (by decide)
  used := by
    rw [h.used_append hroom]
    exact hroom
  queue := by
    have happ : (s.append call ch).appended = s.appended ++ [ch] := by
      simp [Shared.appended, Shared.append, Event.appendedByte]
    have hrem : (s.append call ch).removed = s.removed := by
      simp [Shared.removed, Shared.append, Event.removedByte]
    rw [happ, hrem, h.content_append hroom, h.queue, List.append_assoc]

theorem remove (hsome : 0 < s.used) (call : ℕ) :
    Ring (s.remove call (s.data (s.nread % PIPESIZE))) where
  nread := Nat.mod_lt _ (by decide)
  nwrite := h.nwrite
  used := by
    have := h.used_remove hsome call (s.data (s.nread % PIPESIZE))
    have := h.used
    omega
  queue := by
    have happ : ∀ ch, (s.remove call ch).appended = s.appended := by
      simp [Shared.appended, Shared.remove, Event.appendedByte]
    have hrem : ∀ ch, (s.remove call ch).removed = s.removed ++ [ch] := by
      simp [Shared.removed, Shared.remove, Event.removedByte]
    rw [happ, hrem, h.queue, h.content_remove hsome call (s.data (s.nread % PIPESIZE)),
      List.append_assoc]
    rfl

end Ring

/-! ## What a call has done -/

def Shared.moved (s : Shared) (call : ℕ) : ℕ := s.log.countP fun e => e.call = call

/-- The call a process is in, and the number of bytes it has counted; `none` outside a call and in
one that fails. -/
def progress : Label → Option (ℕ × ℕ)
  | .writeLock w | .writeLoop w | .writeOpen w | .writeFull w | .writeWake w | .writeSleep w
  | .writeCopy w | .writeEnd w => some (w.call, w.i)
  | .readLock r | .readWait r | .readKilled r | .readSleep r | .readLoop r | .readCopy r =>
    some (r.call, r.i)
  | .readEnd i call | .unlock i call | .done i call =>
    if 0 ≤ i then some (call, i.toNat) else none
  | .closeLock _ call | .closeSet _ call | .closeWake _ call | .closeTest call
  | .closeUnlock call | .closeFree call => some (call, 0)
  | _ => none

/-- Every call has moved as many bytes as it counted; `pr` is the progress of each process. -/
structure Calls (s : Shared) (pr : Slot → Option (ℕ × ℕ)) : Prop where
  count : ∀ p c k, pr p = some (c, k) → c < s.calls ∧ s.moved c = k
  unique : ∀ p q c k k', pr p = some (c, k) → pr q = some (c, k') → p = q
  fresh : ∀ c, s.calls ≤ c → s.moved c = 0

namespace Calls

variable {s s' : Shared} {pr : Slot → Option (ℕ × ℕ)} {p : Slot} {x : Option (ℕ × ℕ)}

theorem stay (h : Calls s pr) (hlog : s'.log = s.log) (hcalls : s'.calls = s.calls)
    (hx : x = pr p ∨ x = none) : Calls s' (update pr p x) := by
  have hold : ∀ q c k, update pr p x q = some (c, k) → pr q = some (c, k) := by
    intro q c k hq
    by_cases hqp : q = p
    · subst hqp
      rw [update_self] at hq
      rcases hx with rfl | rfl
      · exact hq
      · cases hq
    · rwa [update_of_ne hqp] at hq
  have hmoved : s'.moved = s.moved := by
    funext c
    rw [moved, hlog, moved]
  refine ⟨fun q c k hq => ?_, fun q r c k k' hq hr => ?_, fun c hc => ?_⟩
  · rw [hcalls, hmoved]
    exact h.count q c k (hold q c k hq)
  · exact h.unique q r c k k' (hold q c k hq) (hold r c k' hr)
  · rw [hmoved]
    exact h.fresh c (hcalls ▸ hc)

theorem enter (h : Calls s pr) (p : Slot) : Calls s.enter (update pr p (some (s.calls, 0))) := by
  have hold : ∀ {q c k}, update pr p (some (s.calls, 0)) q = some (c, k) →
      (q = p ∧ c = s.calls ∧ k = 0) ∨ (q ≠ p ∧ pr q = some (c, k)) := by
    intro q c k hq
    by_cases hqp : q = p
    · subst hqp
      rw [update_self, Option.some.injEq, Prod.mk.injEq] at hq
      exact .inl ⟨rfl, hq.1.symm, hq.2.symm⟩
    · rw [update_of_ne hqp] at hq
      exact .inr ⟨hqp, hq⟩
  refine ⟨fun q c k hq => ?_, fun q r c k k' hq hr => ?_, fun c hc => ?_⟩
  · rcases hold hq with ⟨-, rfl, rfl⟩ | ⟨-, hq⟩
    · exact ⟨Nat.lt_succ_self _, h.fresh _ le_rfl⟩
    · exact ⟨(h.count q c k hq).1.trans (Nat.lt_succ_self _), (h.count q c k hq).2⟩
  · rcases hold hq with ⟨rfl, rfl, -⟩ | ⟨-, hq'⟩ <;> rcases hold hr with ⟨rfl, hrc, -⟩ | ⟨-, hr'⟩
    · rfl
    · exact absurd (h.count r _ _ hr').1 (lt_irrefl _)
    · rw [hrc] at hq'
      exact absurd (h.count q _ _ hq').1 (lt_irrefl _)
    · exact h.unique q r c k k' hq' hr'
  · exact h.fresh c (Nat.le_of_succ_le hc)

theorem event (h : Calls s pr) {c k : ℕ} {e : Event} (hp : pr p = some (c, k)) (he : e.call = c)
    (hlog : s'.log = s.log ++ [e]) (hcalls : s'.calls = s.calls) :
    Calls s' (update pr p (some (c, k + 1))) := by
  have hmoved : ∀ d, s'.moved d = s.moved d + if d = c then 1 else 0 := by
    intro d
    by_cases hd : d = c
    · simp [moved, hlog, he, hd]
    · simp [moved, hlog, he, hd, Ne.symm hd]
  have hold : ∀ {q d j}, update pr p (some (c, k + 1)) q = some (d, j) →
      (q = p ∧ d = c ∧ j = k + 1) ∨ (q ≠ p ∧ pr q = some (d, j)) := by
    intro q d j hq
    by_cases hqp : q = p
    · subst hqp
      rw [update_self, Option.some.injEq, Prod.mk.injEq] at hq
      exact .inl ⟨rfl, hq.1.symm, hq.2.symm⟩
    · rw [update_of_ne hqp] at hq
      exact .inr ⟨hqp, hq⟩
  refine ⟨fun q d j hq => ?_, fun q r d j j' hq hr => ?_, fun d hd => ?_⟩
  · rw [hcalls, hmoved]
    rcases hold hq with ⟨rfl, rfl, rfl⟩ | ⟨hqp, hq⟩
    · rw [if_pos rfl, (h.count _ _ _ hp).2]
      exact ⟨(h.count _ _ _ hp).1, rfl⟩
    · have hdc : d ≠ c := fun hdc => hqp (h.unique q p d j k hq (by rw [hdc]; exact hp))
      rw [if_neg hdc]
      exact h.count q d j hq
  · rcases hold hq with ⟨rfl, rfl, -⟩ | ⟨hqp, hq'⟩ <;>
      rcases hold hr with ⟨rfl, hrc, -⟩ | ⟨hrp, hr'⟩
    · rfl
    · exact absurd (h.unique r _ _ _ _ hr' hp) hrp
    · rw [hrc] at hq'
      exact absurd (h.unique q _ _ _ _ hq' hp) hqp
    · exact h.unique q r d j j' hq' hr'
  · rw [hmoved, h.fresh d (hcalls ▸ hd)]
    have hlt := (h.count _ _ _ hp).1
    rw [if_neg (by omega)]

end Calls

/-! ## The invariant -/

def writesNow : Label → Bool
  | .writeCopy _ => true
  | _ => false

def readsNow : Label → Bool
  | .readCopy _ => true
  | _ => false

theorem guards : Guards code () holds := by
  refine .of_instr (fun l => ?_) fun cur l h he => ?_
  · cases l <;> simp only [code, instr, GuardsAt] <;>
      first | (intros; (try split) <;> rfl) | simp [holds]
  · cases cur <;> simp only [code, instr, reduceCtorEq] at h
    cases l <;> simp_all [code, entry, holds]

attribute [local simp] progress

theorem carries : Carries code fun l => (progress l, writesNow l, readsNow l) := by
  refine .of_instr fun l => ?_
  cases l <;> simp [code, instr, CarriesAt, writesNow, readsNow]

/-- The pipe is a queue, and what a process has found out about it holds. -/
structure Fifo (m : State) : Prop where
  wf : Wf code m
  excl : Exclusion () holds m
  ring : Ring m.shared
  room : ∀ p, writesNow (base (m.ctl p)) = true → m.shared.used < PIPESIZE
  some : ∀ p, readsNow (base (m.ctl p)) = true → 0 < m.shared.used
  calls : Calls m.shared fun p => progress (base (m.ctl p))

theorem holds_of_copies {c : Ctl Unit Chan Label} (hc : CtlOk code c)
    (h : writesNow (base c) = true ∨ readsNow (base c) = true) : holdsCtl () holds c = true := by
  obtain ⟨l, rfl⟩ := run_of_base (Q := fun l => writesNow l = true ∨ readsNow l = true)
    (fun l => by cases l <;> simp [code, instr, ReturnsNotTo, writesNow, readsNow]) hc h
  cases l <;> simp_all [base, writesNow, readsNow, holdsCtl, holds]

theorem progress_goto (m : State) (p : Slot) (l : Label) :
    (fun q => progress (base ((m.goto p (.run l)).ctl q))) =
      update (fun q => progress (base (m.ctl q))) p (progress l) := by
  funext q
  by_cases hqp : q = p
  · subst hqp
    simp [base]
  · simp [update_of_ne hqp]

namespace Fifo

variable {m m' : State} {p : Slot} {l l' : Label} {s : Shared}

theorem quiet (h : Fifo m) (hwf : Wf code ({ m with shared := s }.goto p (.run l')))
    (hexcl : Exclusion () holds ({ m with shared := s }.goto p (.run l')))
    (hsame : s.data = m.shared.data ∧ s.nread = m.shared.nread ∧ s.nwrite = m.shared.nwrite ∧
      s.log = m.shared.log)
    (hroom : writesNow l' = true → m.shared.used < PIPESIZE)
    (hsome : readsNow l' = true → 0 < m.shared.used)
    (hcalls : Calls s (update (fun p => progress (base (m.ctl p))) p (progress l'))) :
    Fifo ({ m with shared := s }.goto p (.run l')) := by
  obtain ⟨hdata, hread, hwrite, hlog⟩ := hsame
  have hused : s.used = m.shared.used := by rw [used, hread, hwrite, used]
  have hring : Ring s := by
    refine ⟨hread ▸ h.ring.nread, hwrite ▸ h.ring.nwrite, hused ▸ h.ring.used, ?_⟩
    have hcontent : s.content = m.shared.content := by rw [content, hused, hdata, hread, content]
    rw [hcontent, appended, removed, hlog]
    exact h.ring.queue
  refine ⟨hwf, hexcl, hring, fun q hq => ?_, fun q hq => ?_, ?_⟩
  · rw [goto_shared, hused]
    rw [goto_ctl] at hq
    by_cases hqp : q = p
    · subst hqp
      rw [update_self] at hq
      exact hroom hq
    · rw [update_of_ne hqp] at hq
      exact h.room q hq
  · rw [goto_shared, hused]
    rw [goto_ctl] at hq
    by_cases hqp : q = p
    · subst hqp
      rw [update_self] at hq
      exact hsome hq
    · rw [update_of_ne hqp] at hq
      exact h.some q hq
  · rw [progress_goto]
    exact hcalls

theorem moved (h : Fifo m) (hctl : m.ctl p = .run l) (hl : holds l = true)
    (hwf : Wf code ({ m with shared := s }.goto p (.run l')))
    (hexcl : Exclusion () holds ({ m with shared := s }.goto p (.run l'))) (hring : Ring s)
    (hl' : writesNow l' = false ∧ readsNow l' = false) {c k : ℕ} {e : Event}
    (hp : progress l = Option.some (c, k)) (hp' : progress l' = Option.some (c, k + 1))
    (he : e.call = c)
    (hlog : s.log = m.shared.log ++ [e]) (hcalls : s.calls = m.shared.calls) :
    Fifo ({ m with shared := s }.goto p (.run l')) := by
  -- nobody else is about to copy a byte, since this process has the lock
  have hother : ∀ q, writesNow (base (({ m with shared := s }.goto p (.run l')).ctl q)) = false ∧
      readsNow (base (({ m with shared := s }.goto p (.run l')).ctl q)) = false := by
    intro q
    rw [goto_ctl]
    by_cases hqp : q = p
    · subst hqp
      rw [update_self]
      exact hl'
    rw [update_of_ne hqp]
    have hfree := h.excl.others (i := p) (by rw [hctl]; exact hl) hqp
    rw [← Bool.not_eq_true, ← Bool.not_eq_true, ← not_or]
    exact fun hcopies => by simp [holds_of_copies (h.wf.ctlOk q) hcopies] at hfree
  refine ⟨hwf, hexcl, hring, fun q hq => ?_, fun q hq => ?_, ?_⟩
  · rw [(hother q).1] at hq
    cases hq
  · rw [(hother q).2] at hq
    cases hq
  · rw [progress_goto, hp']
    exact h.calls.event (by rw [hctl]; exact hp) he hlog hcalls

theorem test (h : Fifo m) (hctl : m.ctl p = .run l)
    (hwf : Wf code ({ m with shared := m.shared }.goto p (.run l')))
    (hexcl : Exclusion () holds ({ m with shared := m.shared }.goto p (.run l')))
    (hroom : writesNow l' = true → m.shared.used < PIPESIZE)
    (hsome : readsNow l' = true → 0 < m.shared.used)
    (hpr : progress l' = progress l ∨ progress l' = none) :
    Fifo ({ m with shared := m.shared }.goto p (.run l')) := by
  refine h.quiet hwf hexcl ⟨rfl, rfl, rfl, rfl⟩ hroom hsome (h.calls.stay rfl rfl ?_)
  rw [hctl]
  exact hpr

theorem enter (h : Fifo m)
    (hwf : Wf code ({ m with shared := m.shared.enter }.goto p (.run l')))
    (hexcl : Exclusion () holds ({ m with shared := m.shared.enter }.goto p (.run l')))
    (hl' : writesNow l' = false ∧ readsNow l' = false)
    (hpr : progress l' = Option.some (m.shared.calls, 0)) :
    Fifo ({ m with shared := m.shared.enter }.goto p (.run l')) := by
  refine h.quiet hwf hexcl ⟨rfl, rfl, rfl, rfl⟩ (by simp [hl'.1]) (by simp [hl'.2]) ?_
  rw [hpr]
  exact h.calls.enter p

/-- **Every statement of the code keeps the pipe a queue.** -/
theorem exec {f : Proc Chan → Shared → Shared × Label} (h : Fifo m) (hctl : m.ctl p = .run l)
    (hinstr : code.instr l = .exec f)
    (hwf : Wf code ({ m with shared := (f (m.proc p) m.shared).1 }.goto p
      (.run (f (m.proc p) m.shared).2)))
    (hexcl : Exclusion () holds ({ m with shared := (f (m.proc p) m.shared).1 }.goto p
      (.run (f (m.proc p) m.shared).2))) :
    Fifo ({ m with shared := (f (m.proc p) m.shared).1 }.goto p
      (.run (f (m.proc p) m.shared).2)) := by
  have hbase : base (m.ctl p) = l := by rw [hctl]; rfl
  cases l <;> simp only [code, instr, exec.injEq, reduceCtorEq] at hinstr <;> subst hinstr
  case done | killed => exact h.test hctl hwf hexcl (by rintro ⟨⟩) (by rintro ⟨⟩) (.inr rfl)
  case pipewrite | piperead | pipeclose => exact h.enter hwf hexcl ⟨rfl, rfl⟩ rfl
  case writeLoop w =>
    refine h.test hctl hwf hexcl ?_ ?_ ?_ <;> dsimp only <;> split <;>
      simp [writesNow, readsNow]
  case writeOpen w =>
    refine h.test hctl hwf hexcl ?_ ?_ ?_ <;> dsimp only <;> split <;>
      simp [writesNow, readsNow]
  case writeFull w =>
    refine h.test hctl hwf hexcl (fun hw => ?_) ?_ ?_
    · dsimp only at hw
      split at hw
      · simp [writesNow] at hw
      · rename_i hfull
        have hne := fun he => hfull (h.ring.full_iff.mpr he)
        exact lt_of_le_of_ne h.ring.used hne
    · dsimp only
      split <;> simp [readsNow]
    · dsimp only
      split <;> simp
  case writeCopy w =>
    have hroom := h.room p (by rw [hbase]; rfl)
    cases hch : w.src[w.i]? with
    | none =>
      simp only [hch] at hwf hexcl ⊢
      exact h.test hctl hwf hexcl (by rintro ⟨⟩) (by rintro ⟨⟩) (.inl rfl)
    | some ch =>
      simp only [hch] at hwf hexcl ⊢
      exact h.moved hctl rfl hwf hexcl (h.ring.append hroom w.call ch) ⟨rfl, rfl⟩ rfl rfl rfl rfl rfl
  case readWait r =>
    refine h.test hctl hwf hexcl ?_ ?_ ?_ <;> dsimp only <;> split <;>
      simp [writesNow, readsNow]
  case readKilled r =>
    refine h.test hctl hwf hexcl ?_ ?_ ?_ <;> dsimp only <;> split <;>
      simp [writesNow, readsNow]
  case readLoop r =>
    refine h.test hctl hwf hexcl ?_ (fun hr => ?_) ?_
    · dsimp only
      split <;> simp [writesNow]
    · dsimp only at hr
      split at hr
      · rename_i hcond
        have hne : m.shared.used ≠ 0 := fun he => by simp [h.ring.empty_iff.mpr he] at hcond
        exact Nat.pos_of_ne_zero hne
      · simp [readsNow] at hr
    · dsimp only
      split <;> simp
  case readCopy r =>
    have hsome := h.some p (by rw [hbase]; rfl)
    by_cases hroom : r.i < r.room
    · simp only [hroom, if_true] at hwf hexcl ⊢
      exact h.moved hctl rfl hwf hexcl (h.ring.remove hsome r.call) ⟨rfl, rfl⟩ rfl rfl rfl rfl rfl
    simp only [hroom, if_false] at hwf hexcl ⊢
    refine h.test hctl hwf hexcl (by rintro ⟨⟩) (by rintro ⟨⟩) ?_
    by_cases hi : r.i = 0
    · simp [hi]
    · simp [hi]
  case closeSet writable call =>
    refine h.quiet hwf hexcl ?_ (by rintro ⟨⟩) (by rintro ⟨⟩) (h.calls.stay ?_ ?_ (.inl ?_))
    · cases writable <;> exact ⟨rfl, rfl, rfl, rfl⟩
    · cases writable <;> rfl
    · cases writable <;> rfl
    · rw [hbase]
      rfl
  case closeTest call =>
    refine h.test hctl hwf hexcl ?_ ?_ ?_ <;> dsimp only <;> split <;>
      simp [writesNow, readsNow]
  case closeFree call =>
    refine h.quiet hwf hexcl ⟨rfl, rfl, rfl, rfl⟩ (by rintro ⟨⟩) (by rintro ⟨⟩) (h.calls.stay rfl rfl (.inl ?_))
    rw [hbase]
    rfl

theorem step {a : Act Label} (h : Fifo m) (hs : StepCase code m a m') : Fifo m' := by
  have hwf := h.wf.stepCase hs
  have hexcl := h.excl.step guards h.wf hs
  rcases carries.step h.wf hs with ⟨p, l, f, -, hctl, hinstr, rfl⟩ | ⟨p, cur, l, hctl, hinstr, he, rfl⟩ |
    rfl | ⟨hshared, hkeep⟩
  · exact h.exec hctl hinstr hwf hexcl
  · have hpr : progress l = none ∧ writesNow l = false ∧ readsNow l = false := by
      cases cur <;> simp only [code, instr, reduceCtorEq] at hinstr
      cases l <;> simp_all [code, entry, writesNow, readsNow]
    exact h.test hctl hwf hexcl (by simp [hpr.2.1]) (by simp [hpr.2.2]) (.inr hpr.1)
  · exact h
  have hpr : ∀ p, progress (base (m'.ctl p)) = progress (base (m.ctl p)) := fun p =>
    congrArg Prod.fst (hkeep p)
  have hcopies : ∀ p, _ := fun p => congrArg Prod.snd (hkeep p)
  refine ⟨hwf, hexcl, hshared ▸ h.ring, fun p hp => ?_, fun p hp => ?_, ?_⟩
  · rw [hshared]
    exact h.room p ((congrArg Prod.fst (hcopies p)).symm.trans hp)
  · rw [hshared]
    exact h.some p ((congrArg Prod.snd (hcopies p)).symm.trans hp)
  · rw [hshared, funext hpr]
    exact h.calls

theorem init : Fifo boot where
  wf := ⟨fun _ => ⟨rfl, by simp [boot, Proc.free], fun _ => rfl⟩, fun _ => trivial⟩
  excl _ := by simp [boot, holdsCtl, holds]
  ring := ⟨by simp [boot], by simp [boot], by simp [boot, used], rfl⟩
  room p hp := by cases hp
  some p hp := by cases hp
  calls := ⟨fun p c k hp => (by cases hp), fun p q c k k' hp => (by cases hp), fun _ _ => rfl⟩

theorem reach (h : Reach Pipe.step (fun _ _ => True) boot m) : Fifo m :=
  h.invariant init fun _ _ _ h1 _ hs => h1.step (.of_step hs)

end Fifo

/-- **A pipe is a FIFO.** -/
theorem pipe_fifo {m : State} (h : Reach step (fun _ _ => True) boot m) :
    m.shared.used ≤ PIPESIZE ∧
    m.shared.removed <+: m.shared.appended ∧
    m.shared.appended = m.shared.removed ++ m.shared.content ∧
    (∀ p r m', m.ctl p = .run (.readCopy r) → r.room ≤ r.i → step m (.step p) = some m' →
      m'.shared = m.shared) ∧
    ∀ p r c, m.ctl p = .run (.done r c) → 0 ≤ r → r = m.shared.moved c := by
  have hf := Fifo.reach h
  refine ⟨hf.ring.used, ⟨_, hf.ring.queue.symm⟩, hf.ring.queue, fun p r m' hctl hr hs => ?_,
    fun p r c hctl hr => ?_⟩
  · have hrun : (m.proc p).state = .running := by
      simp only [step, Machine.step, Option.ite_none_right_eq_some] at hs
      exact hs.1
    simp only [step, Machine.step, hrun, if_true, stepProc, hctl, stepInstr, code, instr,
      Option.some.injEq] at hs
    subst hs
    simp [not_lt.mpr hr]
  · have hcount := hf.calls.count p c r.toNat (by rw [hctl]; simp [base, progress, hr])
    rw [hcount.2]
    omega

/-- Three bytes are written, and a reader that asks for two has room for one. -/
def shortRead : List (Act Label) :=
  spawn 0 1 ++ calls 0 (.pipewrite [1, 2, 3] 3) (17 + NPROC + 1) ++
    spawn 1 2 ++ calls 1 (.piperead 1 2) (9 + NPROC + 1)

theorem pipe_fifo_shortRead : ∃ m, Reach step (fun _ _ => True) boot m ∧
    m.shared.removed = [1] ∧ m.shared.content = [2, 3] ∧ m.ctl 1 = .run (.done 1 1) ∧
    (1 : ℤ) = m.shared.moved 1 := by
  obtain ⟨m, hreach, hm⟩ := exists_reach step (fun _ _ => true) boot shortRead
    (fun m => (m.shared.removed, m.shared.content, labelOf (m.ctl 1)))
    ([1], [2, 3], some (.done 1 1)) (by decide +kernel)
  simp only [Prod.mk.injEq] at hm
  have hreach := hreach.mono fun _ _ _ => trivial
  have hctl := eq_run_of_labelOf hm.2.2
  exact ⟨m, hreach, hm.1, hm.2.1, hctl, (pipe_fifo hreach).2.2.2.2 1 1 1 hctl (by decide)⟩

end Xv6.Pipe

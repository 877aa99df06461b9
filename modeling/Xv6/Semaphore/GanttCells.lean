import Xv6.Semaphore.Gantt

/-!
# The cells of the chart

`sem_gantt` prints one row per process and one character per column of `tick_per_char` ticks.

## Main results

* `cells_faithful`: the chart shows what the events say if and only if no sum that matters wraps and
  what the code misses in a column is hidden by what it draws there.
* `cells_hide`: two charts that hide a holder.
-/

namespace Xv6.Semaphore

namespace Gantt

def tRange (g : Gantt) : ℕ := uint32 ((g.tMax : ℤ) - g.tMin + 1)

def charWidth (g : Gantt) : ℕ := if g.tRange ≤ 80 then g.tRange else 80

def tickPerChar (g : Gantt) : ℕ := if g.tRange ≤ 80 then 1 else uint32 (g.tRange + 79) / 80

def tStart (g : Gantt) (c : ℕ) : ℕ := uint32 (g.tMin + c * g.tickPerChar)

def tEnd (g : Gantt) (c : ℕ) : ℕ :=
  let e := uint32 (g.tStart c + g.tickPerChar - 1)
  if e > g.tMax then g.tMax else e

def nextTick (pid : ℤ) (type : SemEventType) (dflt : ℕ) : List GanttEvent → ℕ
  | [] => dflt
  | e :: rest => if e.pid = pid ∧ e.type = type then e.ticks else nextTick pid type dflt rest

def meets (tStart tEnd a b : ℕ) : Bool :=
  (tStart < b && tEnd ≥ a) || (a == b && tStart == a && tEnd == a)

def cellLoop (g : Gantt) (pid : ℤ) (c : ℕ) : List GanttEvent → Bool → Bool → Bool × Bool
  | [], holding, waiting => (holding, waiting)
  | e :: rest, holding, waiting =>
    if e.pid ≠ pid then cellLoop g pid c rest holding waiting
    else
      match e.type with
      | .acquire =>
        let relTick := nextTick pid .release (uint32 (g.tMax + 1)) rest
        cellLoop g pid c rest (holding || meets (g.tStart c) (g.tEnd c) e.ticks relTick) waiting
      | .wait =>
        let acqTick := nextTick pid .acquire (uint32 (g.tMax + 1)) rest
        cellLoop g pid c rest holding (waiting || meets (g.tStart c) (g.tEnd c) e.ticks acqTick)
      | .release => cellLoop g pid c rest holding waiting

def cell (g : Gantt) (pid : ℤ) (c : ℕ) : Char :=
  let r := g.cellLoop pid c g.events false false
  if r.1 then '#' else if r.2 then 'W' else '.'

def row (g : Gantt) (pid : ℤ) : List Char := (List.range g.charWidth).map (g.cell pid)

/-! ## What the chart is to show -/

def Covers (a b t : ℕ) : Prop := a ≤ t ∧ t < b ∨ a = b ∧ t = b

/-- An interval of the process, from an event of type `first` to its next one of type `last`, or to
the end of the chart. -/
def Span (g : Gantt) (pid : ℤ) (first last : SemEventType) (a b : ℕ) : Prop :=
  ∃ e rest, e :: rest <:+ g.events ∧ e.pid = pid ∧ e.type = first ∧ e.ticks = a ∧
    nextTick pid last (g.tMax + 1) rest = b

def Spans (g : Gantt) (pid : ℤ) (first last : SemEventType) (t : ℕ) : Prop :=
  ∃ a b, g.Span pid first last a b ∧ Covers a b t

def InColumn (g : Gantt) (c t : ℕ) : Prop := g.tStart c ≤ t ∧ t ≤ g.tEnd c

/-- A chart as the collection loop leaves it when the ticks have not wrapped, in the range the scale
is made for. -/
structure Collected (g : Gantt) : Prop where
  sorted : g.events.Pairwise fun e e' => e.ticks ≤ e'.ticks
  le_ticks : ∀ e ∈ g.events, g.tMin ≤ e.ticks
  ticks_le : ∀ e ∈ g.events, e.ticks ≤ g.tMax
  le : g.tMin ≤ g.tMax
  lt : g.tMax < 2 ^ 32
  range : g.tMax - g.tMin + 1 < 2 ^ 31 - 80

/-- The chart shows what the events say: the columns divide the ticks, `#` stands for the columns with
a tick at which the process holds the semaphore, and `W` or `#` for those with one at which it
waits. -/
structure Faithful (g : Gantt) : Prop where
  column : ∀ t, g.tMin ≤ t → t ≤ g.tMax → ∃! c, c < g.charWidth ∧ g.InColumn c t
  inside : ∀ c < g.charWidth, ∀ t, g.InColumn c t → g.tMin ≤ t ∧ t ≤ g.tMax
  row : ∀ pid ∈ g.pids, (g.row pid).length = g.charWidth ∧
    ∀ c < g.charWidth, (g.row pid)[c]? = some (g.cell pid c)
  hold : ∀ pid ∈ g.pids, ∀ c < g.charWidth,
    (g.cell pid c = '#' ↔ ∃ t, g.InColumn c t ∧ g.Spans pid .acquire .release t)
  wait : ∀ pid ∈ g.pids, ∀ c < g.charWidth,
    ((∃ t, g.InColumn c t ∧ g.Spans pid .wait .acquire t) →
      g.cell pid c = 'W' ∨ g.cell pid c = '#') ∧
    (g.cell pid c = 'W' → ∃ t, g.InColumn c t ∧ g.Spans pid .wait .acquire t)

/-! ## When it does -/

/-- The first tick of no column wraps, nor the last tick of a column that has one of the chart. -/
structure NoWrap (g : Gantt) : Prop where
  start : g.tMin + (g.charWidth - 1) * g.tickPerChar < 2 ^ 32
  stop : g.tMin + ((g.tMax - g.tMin) / g.tickPerChar + 1) * g.tickPerChar ≤ 2 ^ 32

/-- The code marks the column for an interval of the process. -/
def Drawn (g : Gantt) (pid : ℤ) (first last : SemEventType) (c : ℕ) : Prop :=
  ∃ e rest, e :: rest <:+ g.events ∧ e.pid = pid ∧ e.type = first ∧
    meets (g.tStart c) (g.tEnd c) e.ticks (nextTick pid last (uint32 (g.tMax + 1)) rest) = true

/-- The code misses an interval of the process in the column: one of length zero at the first tick
of a wider column, or one that is still open when `t_max + 1` wraps. -/
def Missed (g : Gantt) (pid : ℤ) (first last : SemEventType) (c : ℕ) : Prop :=
  ∃ a b, g.Span pid first last a b ∧ (∃ t, g.InColumn c t ∧ Covers a b t) ∧
    (a = b ∧ g.tStart c = a ∧ a < g.tEnd c ∨ b = 2 ^ 32)

/-- Where the code misses an interval, it marks the column for another one. -/
structure Shown (g : Gantt) : Prop where
  hold : ∀ pid ∈ g.pids, ∀ c < g.charWidth,
    g.Missed pid .acquire .release c → g.Drawn pid .acquire .release c
  wait : ∀ pid ∈ g.pids, ∀ c < g.charWidth, g.Missed pid .wait .acquire c →
    g.Drawn pid .wait .acquire c ∨ g.Drawn pid .acquire .release c

variable {g : Gantt} {pid : ℤ} {c t : ℕ}

/-! ## The scale -/

theorem uint32_of_lt {n : ℕ} (h : n < 2 ^ 32) : uint32 n = n := by
  simp only [uint32]
  omega

theorem tEnd_le (g : Gantt) (c : ℕ) : g.tEnd c ≤ g.tMax := by
  unfold tEnd
  dsimp only
  split <;> omega

theorem tStart_of_lt (h : g.tMin + c * g.tickPerChar < 2 ^ 32) :
    g.tStart c = g.tMin + c * g.tickPerChar := by
  rw [tStart, ← Nat.cast_mul, ← Nat.cast_add, uint32_of_lt h]

theorem NoWrap.tStart_eq (hw : g.NoWrap) (hc : c < g.charWidth) :
    g.tStart c = g.tMin + c * g.tickPerChar := by
  have hstart := hw.start
  have hmul : c * g.tickPerChar ≤ (g.charWidth - 1) * g.tickPerChar :=
    Nat.mul_le_mul_right _ (by omega)
  exact tStart_of_lt (by omega)

namespace Collected

variable (h : g.Collected)

include h

theorem tRange_eq : g.tRange = g.tMax - g.tMin + 1 := by
  have hle := h.le
  have hrange := h.range
  simp only [tRange, uint32]
  omega

theorem tickPerChar_pos : 0 < g.tickPerChar := by
  have hr := h.tRange_eq
  have hrange := h.range
  simp only [tickPerChar, uint32]
  split <;> omega

theorem width_bounds : g.tMax - g.tMin + 1 ≤ g.charWidth * g.tickPerChar ∧ g.charWidth ≤ 80 ∧
      g.charWidth * g.tickPerChar ≤ g.tMax - g.tMin + 80 := by
  have hr := h.tRange_eq
  have hrange := h.range
  simp only [charWidth, tickPerChar, uint32]
  split <;> omega

variable (hw : g.NoWrap)

include hw

theorem tEnd_eq (hc : c < g.charWidth) (hlast : c ≤ (g.tMax - g.tMin) / g.tickPerChar) :
    g.tEnd c = min (g.tMin + c * g.tickPerChar + g.tickPerChar - 1) g.tMax := by
  have hstop := hw.stop
  have hpos := h.tickPerChar_pos
  have hmul : (c + 1) * g.tickPerChar ≤ ((g.tMax - g.tMin) / g.tickPerChar + 1) * g.tickPerChar :=
    Nat.mul_le_mul_right _ (by omega)
  rw [Nat.succ_mul] at hmul
  have hu : uint32 ((g.tStart c : ℤ) + g.tickPerChar - 1) =
      g.tMin + c * g.tickPerChar + g.tickPerChar - 1 := by
    rw [hw.tStart_eq hc]
    have hcast : ((g.tMin + c * g.tickPerChar : ℕ) : ℤ) + g.tickPerChar - 1 =
        ((g.tMin + c * g.tickPerChar + g.tickPerChar - 1 : ℕ) : ℤ) := by
      rw [Nat.cast_sub (by omega)]
      push_cast
      ring
    rw [hcast, uint32_of_lt (by omega)]
  simp only [tEnd, hu]
  split <;> omega

theorem inColumn_iff (hc : c < g.charWidth) :
    g.InColumn c t ↔ g.tMin ≤ t ∧ t ≤ g.tMax ∧ (t - g.tMin) / g.tickPerChar = c := by
  have hpos := h.tickPerChar_pos
  rw [InColumn, hw.tStart_eq hc]
  by_cases hlast : c ≤ (g.tMax - g.tMin) / g.tickPerChar
  · rw [h.tEnd_eq hw hc hlast, Nat.div_eq_iff hpos]
    constructor
    · rintro ⟨hstart, hend⟩
      have hend' := le_min_iff.mp hend
      omega
    · rintro ⟨hmin, hle, hlow, hhigh⟩
      exact ⟨by omega, le_min (by omega) hle⟩
  -- a surplus column
  have hend := g.tEnd_le c
  have hpast : g.tMax - g.tMin < c * g.tickPerChar :=
    (Nat.div_lt_iff_lt_mul hpos).mp (not_le.mp hlast)
  constructor
  · omega
  · rintro ⟨hmin, hle, rfl⟩
    exact absurd (Nat.div_le_div_right (Nat.sub_le_sub_right hle _)) hlast

theorem partition (hmin : g.tMin ≤ t)
    (hle : t ≤ g.tMax) : ∃! c, c < g.charWidth ∧ g.InColumn c t := by
  have hlt : (t - g.tMin) / g.tickPerChar < g.charWidth := by
    rw [Nat.div_lt_iff_lt_mul h.tickPerChar_pos]
    have := h.width_bounds.1
    omega
  refine ⟨_, ⟨hlt, (h.inColumn_iff hw hlt).mpr ⟨hmin, hle, rfl⟩⟩, ?_⟩
  rintro c ⟨hc, hin⟩
  exact ((h.inColumn_iff hw hc).mp hin).2.2.symm

theorem past_of_empty (hc : c < g.charWidth) (hempty : g.tEnd c < g.tStart c) :
    g.tMax < g.tStart c := by
  have hpos := h.tickPerChar_pos
  have hstart := hw.tStart_eq hc
  by_cases hlast : c ≤ (g.tMax - g.tMin) / g.tickPerChar
  · have hend := h.tEnd_eq hw hc hlast
    omega
  · have hpast := (Nat.div_lt_iff_lt_mul hpos).mp (not_le.mp hlast)
    omega

omit hw

theorem width_pred : 0 < g.charWidth ∧
    (g.charWidth - 1) * g.tickPerChar + g.tickPerChar = g.charWidth * g.tickPerChar := by
  have hfull := h.width_bounds.1
  have hzero : 0 < g.charWidth := by
    by_contra hz
    rw [Nat.eq_zero_of_not_pos hz] at hfull
    omega
  refine ⟨hzero, ?_⟩
  rw [← Nat.succ_mul, Nat.succ_eq_add_one, Nat.sub_add_cancel hzero]

/-- If no column has other ticks than those of the chart, no column starts again at a small one. -/
theorem start_lt (hf : g.Faithful) : g.tMin + (g.charWidth - 1) * g.tickPerChar < 2 ^ 32 := by
  obtain ⟨hfull, hwidth, hwide⟩ := h.width_bounds
  have hpos := h.tickPerChar_pos
  have hle := h.le
  have hlt := h.lt
  have hrange := h.range
  obtain ⟨hzero, hone⟩ := h.width_pred
  by_contra hge
  have hs : g.tStart (g.charWidth - 1) + 2 ^ 32 = g.tMin + (g.charWidth - 1) * g.tickPerChar := by
    rw [tStart, ← Nat.cast_mul, ← Nat.cast_add, uint32]
    omega
  have he : g.tEnd (g.charWidth - 1) = g.tStart (g.charWidth - 1) + g.tickPerChar - 1 := by
    have hu : uint32 ((g.tStart (g.charWidth - 1) : ℤ) + g.tickPerChar - 1) =
        g.tStart (g.charWidth - 1) + g.tickPerChar - 1 := by
      rw [uint32]
      omega
    simp only [tEnd, hu]
    split <;> omega
  have hin := hf.inside (g.charWidth - 1) (by omega) (g.tStart (g.charWidth - 1))
    ⟨le_rfl, by omega⟩
  omega

/-- If the columns divide the ticks, nothing wraps. -/
theorem noWrap (hf : g.Faithful) : g.NoWrap := by
  have hpos := h.tickPerChar_pos
  have hle := h.le
  have hlt := h.lt
  have hrange := h.range
  obtain ⟨hfull, hwidth, hwide⟩ := h.width_bounds
  have hone := h.width_pred.2
  have hstart := h.start_lt hf
  refine ⟨hstart, ?_⟩
  by_contra hge
  -- the column of the last tick
  obtain ⟨c, ⟨hc, hlow, hhigh⟩, -⟩ := hf.column g.tMax hle le_rfl
  have hmul : c * g.tickPerChar ≤ (g.charWidth - 1) * g.tickPerChar :=
    Nat.mul_le_mul_right _ (by omega)
  have hs := tStart_of_lt (c := c) (by omega : g.tMin + c * g.tickPerChar < 2 ^ 32)
  rw [hs] at hlow
  have hlast : c ≤ (g.tMax - g.tMin) / g.tickPerChar := by
    rw [Nat.le_div_iff_mul_le hpos]
    omega
  have hdiv := Nat.div_mul_le_self (g.tMax - g.tMin) g.tickPerChar
  rw [Nat.succ_mul] at hge
  simp only [tEnd, hs, uint32] at hhigh
  rcases lt_or_eq_of_le hlast with hlt' | heq
  · have hnext : (c + 1) * g.tickPerChar ≤ (g.tMax - g.tMin) / g.tickPerChar * g.tickPerChar :=
      Nat.mul_le_mul_right _ hlt'
    rw [Nat.succ_mul] at hnext
    generalize c * g.tickPerChar = x at *
    split at hhigh <;> omega
  · rw [← heq] at hge
    generalize c * g.tickPerChar = x at *
    split at hhigh <;> omega

end Collected

/-! ## The intervals -/

theorem nextTick_mem (pid : ℤ) (type : SemEventType) (dflt : ℕ) (l : List GanttEvent) :
    nextTick pid type dflt l = dflt ∨ ∃ e ∈ l, nextTick pid type dflt l = e.ticks := by
  induction l with
  | nil => exact .inl rfl
  | cons e l ih =>
    rw [nextTick]
    split
    · exact .inr ⟨e, by simp, rfl⟩
    · rcases ih with h | ⟨e', he', h⟩
      · exact .inl h
      · exact .inr ⟨e', by simp [he'], h⟩

theorem Collected.span_le (h : g.Collected) {first last : SemEventType} {a b : ℕ}
    (hspan : g.Span pid first last a b) : a ≤ b ∧ b ≤ g.tMax + 1 := by
  obtain ⟨e, rest, hsuf, -, -, rfl, rfl⟩ := hspan
  have hsorted := List.pairwise_cons.mp (h.sorted.sublist hsuf.sublist)
  have hle := h.ticks_le e (hsuf.mem (by simp))
  rcases nextTick_mem pid last (g.tMax + 1) rest with heq | ⟨e', he', heq⟩
  · omega
  · have := hsorted.1 e' he'
    have := h.ticks_le e' (hsuf.mem (by simp [he']))
    omega

theorem covers_of_meets {tStart tEnd a b last : ℕ} (hab : a ≤ b) (hb : b ≤ last + 1)
    (hempty : tEnd < tStart → last < tStart) (h : meets tStart tEnd a b = true) :
    ∃ t, (tStart ≤ t ∧ t ≤ tEnd) ∧ Covers a b t := by
  simp only [meets, Bool.or_eq_true, Bool.and_eq_true, decide_eq_true_eq, beq_iff_eq] at h
  rcases h with ⟨hlt, hge⟩ | ⟨⟨hz, hs⟩, he⟩
  · -- the later of the two starts
    have hcol : tStart ≤ tEnd := by
      by_contra hne
      have := hempty (by omega)
      omega
    rcases lt_or_eq_of_le hab with hne | rfl
    · exact ⟨max tStart a, ⟨le_max_left _ _, max_le hcol hge⟩, .inl ⟨le_max_right _ _, by omega⟩⟩
    · exact ⟨a, ⟨by omega, hge⟩, .inr ⟨rfl, rfl⟩⟩
  · exact ⟨a, ⟨by omega, by omega⟩, .inr ⟨hz, hz⟩⟩

theorem meets_of_covers {tStart tEnd a b t : ℕ} (hs : tStart ≤ t) (he : t ≤ tEnd)
    (h : Covers a b t) : meets tStart tEnd a b = true ∨ a = b ∧ tStart = a ∧ a < tEnd := by
  simp only [meets, Bool.or_eq_true, Bool.and_eq_true, decide_eq_true_eq, beq_iff_eq]
  rcases h with ⟨ha, hlt⟩ | ⟨hz, rfl⟩ <;> omega

theorem nextTick_default (pid : ℤ) (type : SemEventType) (d d' : ℕ) (l : List GanttEvent) :
    nextTick pid type d l = nextTick pid type d' l ∨
      nextTick pid type d l = d ∧ nextTick pid type d' l = d' := by
  induction l with
  | nil => exact .inr ⟨rfl, rfl⟩
  | cons e l ih =>
    rw [nextTick, nextTick]
    split
    · exact .inl rfl
    · exact ih

theorem cellLoop_iff (pid : ℤ) (c : ℕ) (l : List GanttEvent) (h w : Bool) :
    ((g.cellLoop pid c l h w).1 = true ↔ h = true ∨ ∃ e rest, e :: rest <:+ l ∧ e.pid = pid ∧
      e.type = .acquire ∧ meets (g.tStart c) (g.tEnd c) e.ticks
        (nextTick pid .release (uint32 (g.tMax + 1)) rest) = true) ∧
    ((g.cellLoop pid c l h w).2 = true ↔ w = true ∨ ∃ e rest, e :: rest <:+ l ∧ e.pid = pid ∧
      e.type = .wait ∧ meets (g.tStart c) (g.tEnd c) e.ticks
        (nextTick pid .acquire (uint32 (g.tMax + 1)) rest) = true) := by
  induction l generalizing h w with
  | nil => simp [cellLoop]
  | cons e l ih =>
    have hsplit : ∀ P : GanttEvent → List GanttEvent → Prop,
        (∃ e' rest, e' :: rest <:+ e :: l ∧ P e' rest) ↔
          P e l ∨ ∃ e' rest, e' :: rest <:+ l ∧ P e' rest := by
      intro P
      simp only [List.suffix_cons_iff, List.cons.injEq]
      constructor
      · rintro ⟨e', rest, ⟨rfl, rfl⟩ | hsuf, hP⟩
        · exact .inl hP
        · exact .inr ⟨e', rest, hsuf, hP⟩
      · rintro (hP | ⟨e', rest, hsuf, hP⟩)
        · exact ⟨e, l, .inl ⟨rfl, rfl⟩, hP⟩
        · exact ⟨e', rest, .inr hsuf, hP⟩
    rw [hsplit, hsplit]
    by_cases hpid : e.pid = pid
    · cases htype : e.type <;> simp [cellLoop, hpid, htype, ih, or_assoc]
    · simp [cellLoop, hpid, ih]

theorem cell_eq_hash : g.cell pid c = '#' ↔ g.Drawn pid .acquire .release c := by
  have hhold := (cellLoop_iff (g := g) pid c g.events false false).1
  simp only [Bool.false_eq_true, false_or] at hhold
  rw [Drawn, ← hhold]
  simp only [cell]
  split
  · simp_all
  · split <;> simp_all

theorem cell_eq_wait : g.cell pid c = 'W' ↔
    g.Drawn pid .wait .acquire c ∧ ¬ g.Drawn pid .acquire .release c := by
  have hwait := (cellLoop_iff (g := g) pid c g.events false false).2
  simp only [Bool.false_eq_true, false_or] at hwait
  rw [← cell_eq_hash, Drawn, ← hwait]
  simp only [cell]
  split
  · simp_all
  · split <;> simp_all

section Draw

variable {first last : SemEventType}

theorem Collected.covered_of_drawn (h : g.Collected) (hw : g.NoWrap) (hc : c < g.charWidth)
    (hd : g.Drawn pid first last c) : ∃ t, g.InColumn c t ∧ g.Spans pid first last t := by
  obtain ⟨e, rest, hsuf, hp, htype, hmeets⟩ := hd
  have hspan : g.Span pid first last e.ticks _ := ⟨e, rest, hsuf, hp, htype, rfl, rfl⟩
  obtain ⟨hab, hb⟩ := h.span_le hspan
  have hsame : nextTick pid last (uint32 (g.tMax + 1)) rest =
      nextTick pid last (g.tMax + 1) rest := by
    rcases nextTick_default pid last (uint32 (g.tMax + 1)) (g.tMax + 1) rest with heq | ⟨heq, heq'⟩
    · exact heq
    rw [heq, heq']
    have hlt := h.lt
    have hrange := h.range
    have hmin := h.le_ticks e (hsuf.mem (by simp))
    -- an open interval that is drawn did not wrap
    rw [heq] at hmeets
    simp only [meets, Bool.or_eq_true, Bool.and_eq_true, decide_eq_true_eq, beq_iff_eq] at hmeets
    unfold uint32 at *
    omega
  rw [hsame] at hmeets
  obtain ⟨t, hin, hcov⟩ := covers_of_meets hab hb (h.past_of_empty hw hc) hmeets
  exact ⟨t, hin, _, _, hspan, hcov⟩

theorem Collected.drawn_or_missed (h : g.Collected)
    (ht : ∃ t, g.InColumn c t ∧ g.Spans pid first last t) :
    g.Drawn pid first last c ∨ g.Missed pid first last c := by
  obtain ⟨t, hin, a, b, hspan, hcov⟩ := ht
  have hmissed := fun hcase => Or.inr (a := g.Drawn pid first last c)
    (⟨a, b, hspan, ⟨t, hin, hcov⟩, hcase⟩ : g.Missed pid first last c)
  rcases meets_of_covers hin.1 hin.2 hcov with hmeets | hzero
  · obtain ⟨e, rest, hsuf, hp, htype, rfl, hb⟩ := hspan
    rcases nextTick_default pid last (uint32 (g.tMax + 1)) (g.tMax + 1) rest with heq | ⟨-, heq⟩
    · exact .inl ⟨e, rest, hsuf, hp, htype, by rw [heq, hb]; exact hmeets⟩
    have hlt := h.lt
    by_cases hu : g.tMax + 1 < 2 ^ 32
    · have hu' : uint32 ((g.tMax : ℤ) + 1) = g.tMax + 1 := by
        exact_mod_cast uint32_of_lt hu
      exact .inl ⟨e, rest, hsuf, hp, htype, by rw [hu', hb]; exact hmeets⟩
    · exact hmissed (.inr (by omega))
  · exact hmissed (.inl hzero)

theorem Missed.covered (hm : g.Missed pid first last c) :
    ∃ t, g.InColumn c t ∧ g.Spans pid first last t := by
  obtain ⟨a, b, hspan, ⟨t, hin, hcov⟩, -⟩ := hm
  exact ⟨t, hin, a, b, hspan, hcov⟩

end Draw

/-- **When the chart shows what the events say.** -/
theorem cells_faithful (h : g.Collected) : g.Faithful ↔ g.NoWrap ∧ g.Shown := by
  constructor
  · refine fun hf => ⟨h.noWrap hf, fun pid hpid c hc hm => ?_, fun pid hpid c hc hm => ?_⟩
    · exact cell_eq_hash.mp ((hf.hold pid hpid c hc).mpr hm.covered)
    · rcases (hf.wait pid hpid c hc).1 hm.covered with hcell | hcell
      · exact .inl (cell_eq_wait.mp hcell).1
      · exact .inr (cell_eq_hash.mp hcell)
  rintro ⟨hw, hshown⟩
  refine ⟨fun t hmin hle => h.partition hw hmin hle, fun c hc t hin => ?_,
    fun pid _ => ⟨by simp [row], fun c hc => by simp [row, hc]⟩, fun pid hpid c hc => ?_,
    fun pid hpid c hc => ⟨fun hcov => ?_, fun hcell => ?_⟩⟩
  · obtain ⟨hmin, hle, -⟩ := (h.inColumn_iff hw hc).mp hin
    exact ⟨hmin, hle⟩
  · rw [cell_eq_hash]
    exact ⟨h.covered_of_drawn hw hc,
      fun hcov => (h.drawn_or_missed hcov).elim id (hshown.hold pid hpid c hc)⟩
  · have hdrawn := (h.drawn_or_missed hcov).elim .inl (hshown.wait pid hpid c hc)
    by_cases hhash : g.Drawn pid .acquire .release c
    · exact .inr (cell_eq_hash.mpr hhash)
    · exact .inl (cell_eq_wait.mpr ⟨hdrawn.resolve_right hhash, hhash⟩)
  · exact h.covered_of_drawn hw hc (cell_eq_wait.mp hcell).1

end Gantt

def eventAt (pid : ℤ) (ticks : ℕ) (type : SemEventType) : SemEvent :=
  { semId := 0, pid := pid, ticks := ticks, type := type, pname := [], inc := 1 }

abbrev chart (l : List SemEvent) : Gantt := Gantt.collect 0 l .empty

/-- A process holds the semaphore from tick 3 to tick 5. -/
theorem cells_faithful_hold :
    let g := chart [eventAt 1 3 .acquire, eventAt 1 5 .release]
    g.Collected ∧ g.Faithful ∧ ∃ t, g.InColumn 0 t ∧ g.Spans 1 .acquire .release t := by
  intro g
  have h : g.Collected := by constructor <;> decide
  have hshown : g.Shown := by
    have hmissed : ∀ pid first last, ∀ c < g.charWidth, ¬ g.Missed pid first last c := by
      rintro pid first last c hc ⟨a, b, hspan, -, ⟨-, hs, hlt⟩ | hb⟩
      · have hall : ∀ c < g.charWidth, g.tEnd c ≤ g.tStart c := by decide
        have := hall c hc
        omega
      · have hle := (h.span_le hspan).2
        have hmax : g.tMax = 5 := rfl
        omega
    exact ⟨fun pid _ c hc hm => absurd hm (hmissed pid _ _ c hc),
      fun pid _ c hc hm => absurd hm (hmissed pid _ _ c hc)⟩
  have hf := (Gantt.cells_faithful h).mpr ⟨⟨by decide, by decide⟩, hshown⟩
  exact ⟨h, hf, (hf.hold 1 (by decide) 0 (by decide)).mp (by decide)⟩

def HidesHolder (g : Gantt) (pid : ℤ) (c t : ℕ) : Prop :=
  pid ∈ g.pids ∧ c < g.charWidth ∧ g.InColumn c t ∧ g.Spans pid .acquire .release t ∧
    g.cell pid c = '.'

/-- **What the chart hides.** A process takes and gives back the semaphore at the first tick of a
column of two ticks, and the column shows it idle. A process that took the semaphore at the last tick
before the wrap is shown idle there. -/
theorem cells_hide :
    (∃ g, g = chart [eventAt 1 0 .acquire, eventAt 1 0 .release, eventAt 2 100 .acquire] ∧
      g.Collected ∧ HidesHolder g 1 0 0) ∧
    ∃ g, g = chart [eventAt 1 (2 ^ 32 - 1) .acquire] ∧
      g.Collected ∧ HidesHolder g 1 0 (2 ^ 32 - 1) := by
  refine ⟨⟨_, rfl, by constructor <;> decide, by decide, by decide, ⟨by decide, by decide⟩, ?_,
    by decide⟩, ⟨_, rfl, by constructor <;> decide, by decide, by decide, ⟨by decide, by decide⟩, ?_,
    by decide⟩⟩
  · exact ⟨0, 0, ⟨_, _, List.suffix_rfl, rfl, rfl, rfl, rfl⟩, .inr ⟨rfl, rfl⟩⟩
  · exact ⟨2 ^ 32 - 1, 2 ^ 32, ⟨_, _, List.suffix_rfl, rfl, rfl, rfl, rfl⟩,
      .inl ⟨by decide, by decide⟩⟩

end Xv6.Semaphore

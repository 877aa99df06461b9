import Xv6.Semaphore.EventLog

/-!
# What `sem_gantt` collects

Under `sem_event_lock`, `sem_gantt` scans the ring from its oldest event on and copies the events of
one semaphore, up to `MAX_GANTT_EVENTS`.
-/

namespace Xv6.Semaphore

open List

/-- An entry of the array `events` of `sem_gantt`. -/
structure GanttEvent where
  pid : ℤ
  ticks : ℕ
  type : SemEventType
  pname : List UInt8
  deriving DecidableEq

/-- The variables of `sem_gantt` that the collection loop fills. The arrays are static: that calls
overwrite each other's is the subject of `printStep`. -/
structure Gantt where
  events : List GanttEvent
  tMin : ℕ
  tMax : ℕ
  pids : List ℤ
  pidNames : List (List UInt8)
  deriving DecidableEq

def SemEvent.copied (e : SemEvent) : GanttEvent :=
  { pid := e.pid, ticks := e.ticks, type := e.type, pname := safestrcpy e.pname 16 }

namespace Gantt

def empty : Gantt := { events := [], tMin := 0xFFFFFFFF, tMax := 0, pids := [], pidNames := [] }

def add (g : Gantt) (e : SemEvent) : Gantt :=
  let isNew := decide (e.pid ∉ g.pids ∧ g.pids.length < MAX_GANTT_PIDS)
  { events := g.events ++ [e.copied]
    tMin := if e.ticks < g.tMin then e.ticks else g.tMin
    tMax := if e.ticks > g.tMax then e.ticks else g.tMax
    pids := if isNew then g.pids ++ [e.pid] else g.pids
    pidNames := if isNew then g.pidNames ++ [safestrcpy e.pname 16] else g.pidNames }

/-- The collection loop, over the entries of the ring it has still to look at. -/
def collect (id : ℤ) : List SemEvent → Gantt → Gantt
  | [], g => g
  | e :: rest, g =>
    if g.events.length < MAX_GANTT_EVENTS then
      if e.semId = id then collect id rest (g.add e) else collect id rest g
    else g

end Gantt

def Shared.semGantt (s : Shared) (id : ℤ) : Gantt := Gantt.collect id s.ganttWindow Gantt.empty

namespace Gantt

variable {g : Gantt} {e : SemEvent} {l : List SemEvent}

@[simp] theorem length_events_add : (g.add e).events.length = g.events.length + 1 := by simp [add]

theorem collect_eq (id : ℤ) (w : List SemEvent) (g : Gantt) : collect id w g =
      ((w.filter fun e => e.semId = id).take (MAX_GANTT_EVENTS - g.events.length)).foldl add g := by
  induction w generalizing g with
  | nil => simp [collect]
  | cons e w ih =>
    by_cases hroom : g.events.length < MAX_GANTT_EVENTS
    · by_cases hid : e.semId = id
      · have hsub : MAX_GANTT_EVENTS - g.events.length =
            MAX_GANTT_EVENTS - (g.events.length + 1) + 1 := by omega
        simp [collect, hroom, hid, ih, hsub]
      · simp [collect, hroom, hid, ih]
    · simp [collect, hroom, Nat.sub_eq_zero_of_le (not_lt.mp hroom)]

/-- The events of the chart are the ones of the window. -/
theorem semGantt_eq (s : Shared) (id : ℤ) : s.semGantt id = (s.ganttEvents id).foldl add empty :=
  collect_eq ..

theorem events_foldl (g : Gantt) (l : List SemEvent) :
    (l.foldl add g).events = g.events ++ l.map SemEvent.copied := by
  induction l generalizing g with
  | nil => simp
  | cons e l ih => simp [ih, add]

/-- A field that `add` moves to the new event's ticks or leaves alone, never away from either in
the order `r`, ends at the extremum of the events' ticks. -/
theorem foldl_extremum {t : Gantt → ℕ} {r : ℕ → ℕ → Prop} [IsTrans ℕ r]
    (hpick : ∀ g e, t (add g e) = e.ticks ∨ t (add g e) = t g)
    (hnew : ∀ g e, r (t (add g e)) e.ticks) (hold : ∀ g e, r (t (add g e)) (t g))
    (l : List SemEvent) (hfirst : ∀ e ∈ l, t (add empty e) = e.ticks) :
    (∀ e ∈ l, r (t (l.foldl add empty)) e.ticks) ∧
      (l ≠ [] → ∃ e ∈ l, e.ticks = t (l.foldl add empty)) := by
  induction l using reverseRecOn with
  | nil => simp
  | append_singleton l a ih =>
    obtain ⟨hle, hmem⟩ := ih fun e he => hfirst e (by simp [he])
    rw [foldl_append, foldl_cons, foldl_nil]
    refine ⟨fun e he => ?_, fun _ => ?_⟩
    · rcases mem_append.mp he with he | he
      · exact trans_of r (hold _ a) (hle e he)
      · obtain rfl := mem_singleton.mp he
        exact hnew _ e
    rcases eq_or_ne l [] with rfl | hne
    · exact ⟨a, by simp, (hfirst a (by simp)).symm⟩
    rcases hpick (l.foldl add empty) a with heq | heq
    · exact ⟨a, by simp, heq.symm⟩
    · obtain ⟨e, he, hticks⟩ := hmem hne
      exact ⟨e, by simp [he], hticks.trans heq.symm⟩

theorem tMin_foldl (l : List SemEvent) (hl : ∀ e ∈ l, e.ticks < 2 ^ 32) :
    (∀ e ∈ l, (l.foldl add empty).tMin ≤ e.ticks) ∧
      (l ≠ [] → ∃ e ∈ l, e.ticks = (l.foldl add empty).tMin) := by
  refine foldl_extremum (fun g e => ?_) (fun g e => ?_) (fun g e => ?_) l fun e he => ?_
  · by_cases h : e.ticks < g.tMin <;> simp [add, h]
  · by_cases h : e.ticks < g.tMin <;> simp [add, h]; omega
  · by_cases h : e.ticks < g.tMin <;> simp [add, h]; omega
  have := hl e he
  by_cases h : e.ticks < empty.tMin <;> simp [add, h]
  simp only [empty] at h ⊢
  omega

theorem tMax_foldl (l : List SemEvent) : (∀ e ∈ l, e.ticks ≤ (l.foldl add empty).tMax) ∧
      (l ≠ [] → ∃ e ∈ l, e.ticks = (l.foldl add empty).tMax) := by
  refine foldl_extremum (r := (· ≥ ·)) (fun g e => ?_) (fun g e => ?_) (fun g e => ?_) l
    fun e _ => ?_
  · by_cases h : e.ticks > g.tMax <;> simp [add, h]
  · by_cases h : e.ticks > g.tMax <;> simp [add, h]; omega
  · by_cases h : e.ticks > g.tMax <;> simp [add, h]; omega
  · by_cases h : e.ticks > empty.tMax <;> simp [add, h]
    simp only [empty] at h ⊢
    omega

theorem eraseDups_concat (xs : List ℤ) (x : ℤ) :
    (xs ++ [x]).eraseDups = if x ∈ xs then xs.eraseDups else xs.eraseDups ++ [x] := by
  rw [eraseDups_append]
  split
  · rename_i h
    simp [removeAll, h]
  · rename_i h
    simp [removeAll, h, eraseDups_cons]

theorem nodup_eraseDups (xs : List ℤ) : xs.eraseDups.Nodup := by
  induction xs using reverseRecOn with
  | nil => simp
  | append_singleton xs x ih =>
    rw [eraseDups_concat]
    split
    · exact ih
    rename_i hnot
    refine nodup_append.mpr ⟨ih, nodup_singleton x, fun a ha b hb => ?_⟩
    obtain rfl := mem_singleton.mp hb
    rintro rfl
    exact hnot (mem_eraseDups.mp ha)

theorem pids_foldl (l : List SemEvent) :
    (l.foldl add empty).pids = ((l.map SemEvent.pid).eraseDups).take MAX_GANTT_PIDS := by
  induction l using reverseRecOn with
  | nil => simp [empty]
  | append_singleton l a ih =>
    have hstep : ((l ++ [a]).foldl add empty).pids =
        if a.pid ∉ (l.foldl add empty).pids ∧ (l.foldl add empty).pids.length < MAX_GANTT_PIDS
        then (l.foldl add empty).pids ++ [a.pid] else (l.foldl add empty).pids := by simp [add]
    rw [hstep, ih, map_append, map_singleton, eraseDups_concat]
    set E := (l.map SemEvent.pid).eraseDups with hE
    have hmemE : a.pid ∈ l.map SemEvent.pid ↔ a.pid ∈ E := by rw [hE, mem_eraseDups]
    by_cases hseen : a.pid ∈ E
    · rw [if_pos (hmemE.mpr hseen), if_neg]
      rintro ⟨hnot, hroom⟩
      -- a list that is not full is not cut off
      rw [length_take] at hroom
      rw [take_of_length_le (by omega)] at hnot
      exact hnot hseen
    rw [if_neg (mt hmemE.mp hseen)]
    by_cases hroom : E.length < MAX_GANTT_PIDS
    · rw [take_of_length_le hroom.le, if_pos ⟨hseen, hroom⟩,
        take_of_length_le (by simp; omega)]
    · rw [if_neg (by rw [length_take]; omega), take_append_of_le_length (by omega)]

end Gantt

/-! ## The ring and the history -/

/-- The ring holds the last events of the history `h`, and the index is their number. -/
structure Logs (s : Shared) (h : List SemEvent) : Prop where
  index : s.semEventIndex = h.length
  entry : ∀ n e, h[n]? = some e → h.length ≤ n + SEM_EVENT_LOG_SIZE →
    s.semEventLog ((n % SEM_EVENT_LOG_SIZE : ℕ) : ℤ) = e

namespace Logs

variable {s : Shared} {h : List SemEvent}

theorem ganttWindow_eq (hl : Logs s h) :
    s.ganttWindow = h.drop (h.length - SEM_EVENT_LOG_SIZE) := by
  have htotal : s.ganttTotal.toNat = h.length - (h.length - SEM_EVENT_LOG_SIZE) := by
    simp only [Shared.ganttTotal, hl.index]
    split <;> omega
  have hstart : s.ganttStart = ((h.length - SEM_EVENT_LOG_SIZE : ℕ) : ℤ) := by
    simp only [Shared.ganttStart, hl.index]
    split <;> omega
  refine ext_getElem (by simp [Shared.ganttWindow, htotal]) fun i hi hi' => ?_
  simp only [length_drop] at hi'
  simp only [Shared.ganttWindow, getElem_map, getElem_range, getElem_drop, hstart]
  have hmod : (((h.length - SEM_EVENT_LOG_SIZE : ℕ) : ℤ) + i).tmod SEM_EVENT_LOG_SIZE =
      (((h.length - SEM_EVENT_LOG_SIZE + i) % SEM_EVENT_LOG_SIZE : ℕ) : ℤ) := by
    rw [Int.tmod_eq_emod_of_nonneg (by omega)]
    push_cast
    rfl
  rw [hmod]
  exact hl.entry _ _ (getElem?_eq_getElem (by omega)) (by omega)

end Logs

end Xv6.Semaphore

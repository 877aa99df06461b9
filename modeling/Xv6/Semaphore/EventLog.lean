import Xv6.Semaphore.Code

/-!
# The ring of semaphore events

`sem_record_event` writes the ring at `sem_event_index % SEM_EVENT_LOG_SIZE`, and `sem_gantt` reads
the last `SEM_EVENT_LOG_SIZE` events back.
-/

namespace Xv6.Semaphore

open Thread

namespace Shared

variable {s : Shared} {o : Op} {me : Proc SemId} {type : SemEventType} {e : SemEvent}

theorem mem_ganttWindow : e ∈ s.ganttWindow ↔ ∃ i : ℕ, (i : ℤ) < s.ganttTotal ∧
    e = s.semEventLog ((s.ganttStart + i).tmod SEM_EVENT_LOG_SIZE) := by
  simp only [ganttWindow, List.mem_map, List.mem_range]
  constructor
  · rintro ⟨i, hi, rfl⟩
    exact ⟨i, by omega, rfl⟩
  · rintro ⟨i, hi, rfl⟩
    exact ⟨i, by omega, rfl⟩

theorem ganttStart_add_ganttTotal (s : Shared) : s.ganttStart + s.ganttTotal = s.semEventIndex := by
  simp only [ganttStart, ganttTotal]
  split <;> omega

theorem mem_ganttWindow_iff : e ∈ s.ganttWindow ↔
    ∃ n : ℤ, 0 ≤ n ∧ s.semEventIndex - SEM_EVENT_LOG_SIZE ≤ n ∧ n < s.semEventIndex ∧
      e = s.semEventLog (n.tmod SEM_EVENT_LOG_SIZE) := by
  rw [mem_ganttWindow]
  have hend := ganttStart_add_ganttTotal s
  constructor
  · rintro ⟨i, hi, rfl⟩
    refine ⟨s.ganttStart + i, ?_, ?_, by omega, rfl⟩ <;>
      (simp only [ganttStart]; split <;> omega)
  rintro ⟨n, hn, hlow, hhigh, rfl⟩
  have hstart : s.ganttStart ≤ n := by
    simp only [ganttStart]
    split <;> omega
  exact ⟨(n - s.ganttStart).toNat, by omega, by congr 2; omega⟩

@[simp] theorem semRecordEvent_semEventIndex :
    (s.semRecordEvent o me type).semEventIndex = int32 (s.semEventIndex + 1) := rfl

theorem mem_ganttWindow_semRecordEvent (hmin : INT_MIN ≤ s.semEventIndex)
    (hmax : s.semEventIndex ≤ INT_MAX) (he : e ∈ (s.semRecordEvent o me type).ganttWindow) :
    e ∈ s.ganttWindow ∨ e.semId = o.id.val ∧ e.inc = o.inc := by
  obtain ⟨n, hn, hlow, hhigh, rfl⟩ := mem_ganttWindow_iff.mp he
  -- a window that holds an event has not wrapped
  have hlt : s.semEventIndex < INT_MAX := by
    rcases lt_or_eq_of_le hmax with h | h
    · exact h
    · rw [semRecordEvent_semEventIndex, h] at hhigh
      exact absurd (lt_of_le_of_lt hn hhigh) (by decide)
  rw [semRecordEvent_semEventIndex, int32_of_range (by omega) (by omega)] at hlow hhigh
  simp only [semRecordEvent, Function.update_apply]
  split
  · exact .inr ⟨rfl, rfl⟩
  · rename_i hne
    have hn' : n ≠ s.semEventIndex := fun h => hne (by rw [h])
    exact .inl (mem_ganttWindow_iff.mpr ⟨n, hn, by omega, by omega, rfl⟩)

end Shared

end Xv6.Semaphore

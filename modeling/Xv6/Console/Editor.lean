import Xv6.Console.Code

/-!
# The line editor

What the console is for: an `Editor` has the bytes committed so far, of which the readers have taken
the first `taken`, and the line that is being typed.
-/

namespace Xv6.Console

open Function

theorem getElem?_mono {l1 l2 : List UInt8} {k : ℕ} {c : UInt8} (h : l1 <+: l2)
    (hc : l1[k]? = some c) : l2[k]? = some c := by
  obtain ⟨t, rfl⟩ := h
  obtain ⟨hlt, -⟩ := List.getElem?_eq_some_iff.1 hc
  rw [List.getElem?_append_left hlt, hc]

/-- The bytes committed, how many of them the readers have taken, and the line being edited. -/
structure Editor where
  committed : List UInt8
  line : List UInt8
  taken : ℕ
  taken_le : taken ≤ committed.length
  fits : committed.length + line.length ≤ taken + INPUT_BUF_SIZE
  newline_notMem : newline ∉ line

namespace Editor

def room (d : Editor) : ℕ := INPUT_BUF_SIZE - (d.committed.length - d.taken + d.line.length)

def empty : Editor where
  committed := []
  line := []
  taken := 0
  taken_le := le_rfl
  fits := by simp
  newline_notMem := by simp

def kill (d : Editor) : Editor :=
  { d with
    line := []
    fits := by
      have := d.fits
      simp only [List.length_nil]
      omega
    newline_notMem := by simp }

@[simps committed line taken]
def erase (d : Editor) : Editor :=
  { d with
    line := d.line.dropLast
    fits := by
      have := d.fits
      simp only [List.length_dropLast]
      omega
    newline_notMem := fun h => d.newline_notMem (List.mem_of_mem_dropLast h) }

theorem length_lt_of_room {d : Editor} (h : 0 < d.room) :
    d.committed.length + d.line.length + 1 ≤ d.taken + INPUT_BUF_SIZE := by
  have := d.taken_le
  simp only [room, INPUT_BUF_SIZE] at *
  omega

/-- A character is added to the line, and the line is committed at its end, at an end of file and
when there is no room for another character. -/
def put (d : Editor) (c : UInt8) (h : 0 < d.room) : Editor :=
  if hc : c = newline ∨ c = ctrl 'D' ∨ d.room = 1 then
    { committed := d.committed ++ (d.line ++ [c])
      line := []
      taken := d.taken
      taken_le := by
        have := d.taken_le
        simp only [List.length_append]
        omega
      fits := by simpa [Nat.add_assoc] using length_lt_of_room h
      newline_notMem := by simp }
  else
    { d with
      line := d.line ++ [c]
      fits := by simpa [Nat.add_assoc] using length_lt_of_room h
      newline_notMem := by
        have := d.newline_notMem
        simp only [List.mem_append, List.mem_singleton, not_or]
        exact ⟨this, fun hn => hc (.inl hn.symm)⟩ }

def type (d : Editor) (c : UInt8) : Editor :=
  if c = ctrl 'P' then d
  else if c = ctrl 'U' then d.kill
  else if c = ctrl 'H' ∨ c = delete then d.erase
  else if h : c ≠ 0 ∧ 0 < d.room then d.put (if c = carriageReturn then newline else c) h.2
  else d

def take (d : Editor) : Editor :=
  if h : d.taken < d.committed.length then
    { d with
      taken := d.taken + 1
      taken_le := h
      fits := by
        have := d.fits
        omega }
  else d

def event (d : Editor) : Event → Editor
  | .typed c => d.type c
  | .handed _ | .dropped _ => d.take

theorem put_grows (d : Editor) (c : UInt8) (h : 0 < d.room) :
    d.committed <+: (d.put c h).committed ∧ (d.put c h).taken = d.taken := by
  rw [put]
  split
  · exact ⟨List.prefix_append _ _, rfl⟩
  · exact ⟨List.prefix_rfl, rfl⟩

theorem type_grows (d : Editor) (c : UInt8) :
    d.committed <+: (d.type c).committed ∧ (d.type c).taken = d.taken := by
  rw [type]
  split
  · exact ⟨List.prefix_rfl, rfl⟩
  split
  · exact ⟨List.prefix_rfl, rfl⟩
  split
  · exact ⟨List.prefix_rfl, rfl⟩
  split
  · exact d.put_grows _ _
  · exact ⟨List.prefix_rfl, rfl⟩

theorem take_committed (d : Editor) : d.take.committed = d.committed := by
  rw [take]
  split <;> rfl

theorem take_taken {d : Editor} (h : d.taken < d.committed.length) :
    d.take.taken = d.taken + 1 := by rw [take, dif_pos h]

theorem kill_erase (d : Editor) : d.erase.kill = d.kill := rfl

theorem kill_of_line_nil {d : Editor} (h : d.line = []) : d.kill = d := by
  cases d
  simp only [kill, Editor.mk.injEq, true_and, and_true]
  exact h.symm

theorem erase_of_line_nil {d : Editor} (h : d.line = []) : d.erase = d := by
  cases d
  simp only [erase, Editor.mk.injEq, true_and, and_true]
  simp only at h
  rw [h, List.dropLast_nil]

end Editor

def edited (trace : List Event) : Editor := trace.foldl Editor.event .empty

theorem edited_append (trace : List Event) (ev : Event) :
    edited (trace ++ [ev]) = (edited trace).event ev := by simp [edited]

/-! ## The circular buffer -/

structure Cons.Rep (s : Cons) (d : Editor) : Prop where
  r : s.r = d.taken % 2 ^ 32
  w : s.w = d.committed.length % 2 ^ 32
  e : s.e = (d.committed.length + d.line.length) % 2 ^ 32
  buf : ∀ k c, d.taken ≤ k → (d.committed ++ d.line)[k]? = some c →
    s.buf (k % INPUT_BUF_SIZE) = c

namespace Cons.Rep

variable {s : Cons} {d : Editor}

variable (h : s.Rep d)

include h

theorem congr {s' : Cons} (hr : s'.r = s.r) (hw : s'.w = s.w) (he : s'.e = s.e)
    (hbuf : s'.buf = s.buf) : s'.Rep d where
  r := hr.trans h.r
  w := hw.trans h.w
  e := he.trans h.e
  buf := by
    rw [hbuf]
    exact h.buf

theorem r_eq_w : s.r = s.w ↔ d.taken = d.committed.length := by
  have := d.taken_le
  have := d.fits
  rw [h.r, h.w]
  simp only [INPUT_BUF_SIZE] at *
  omega

theorem e_eq_w : s.e = s.w ↔ d.line = [] := by
  have := d.taken_le
  have := d.fits
  rw [h.e, h.w, ← List.length_eq_zero_iff]
  simp only [INPUT_BUF_SIZE] at *
  omega

theorem used_eq : s.used = d.committed.length - d.taken + d.line.length := by
  have := d.taken_le
  have := d.fits
  simp only [used, usub, h.e, h.r, INPUT_BUF_SIZE] at *
  omega

theorem length_ready : usub s.w s.r = d.committed.length - d.taken := by
  have := d.taken_le
  have := d.fits
  simp only [usub, h.w, h.r, INPUT_BUF_SIZE] at *
  omega

theorem length_line : usub s.e s.w = d.line.length := by
  have := d.taken_le
  have := d.fits
  simp only [usub, h.e, h.w, INPUT_BUF_SIZE] at *
  omega

theorem next_byte (hlt : d.taken < d.committed.length) :
    d.committed[d.taken]? = some (s.buf (s.r % INPUT_BUF_SIZE)) := by
  have hget := List.getElem?_eq_getElem hlt
  have hbuf := h.buf d.taken _ le_rfl ((List.getElem?_append_left hlt).trans hget)
  have hr : s.r % INPUT_BUF_SIZE = d.taken % INPUT_BUF_SIZE := by
    rw [h.r, INPUT_BUF_SIZE]
    omega
  rw [hget, hr, hbuf]

theorem next (hlt : d.taken < d.committed.length) (ev : Event) : (s.next ev).Rep d.take := by
  rw [Editor.take, dif_pos hlt]
  refine ⟨?_, h.w, h.e, fun k c hk hc => h.buf k c (Nat.le_of_succ_le hk) hc⟩
  change (s.r + 1) % 2 ^ 32 = (d.taken + 1) % 2 ^ 32
  rw [h.r]
  omega

theorem erase (hline : d.line ≠ []) : s.erase.Rep d.erase := by
  have hpos := List.length_pos_of_ne_nil hline
  have hpre : d.committed ++ d.line.dropLast <+: d.committed ++ d.line :=
    (List.prefix_append_right_inj _).2 (List.dropLast_prefix _)
  refine ⟨?_, ?_, ?_, fun k c hk hc => ?_⟩
  · rw [Editor.erase_taken, Cons.erase_r, h.r]
  · rw [Editor.erase_committed, Cons.erase_w, h.w]
  · rw [Cons.erase_e, Cons.last, h.e, Editor.erase_committed, Editor.erase_line,
      List.length_dropLast]
    split <;> omega
  · exact h.buf k c hk (getElem?_mono hpre hc)

theorem last_byte (hline : d.line ≠ []) : s.buf (s.last % INPUT_BUF_SIZE) ∈ d.line := by
  have hpos := List.length_pos_of_ne_nil hline
  have hlast : (d.committed ++ d.line)[d.committed.length + (d.line.length - 1)]? =
      some (d.line.getLast hline) := by
    rw [List.getElem?_append_right (Nat.le_add_right _ _), Nat.add_sub_cancel_left,
      ← List.getLast?_eq_getElem?, List.getLast?_eq_some_getLast hline]
  have hbuf := h.buf _ _ (by have := d.taken_le; omega) hlast
  have hindex : s.last % INPUT_BUF_SIZE =
      (d.committed.length + (d.line.length - 1)) % INPUT_BUF_SIZE := by
    rw [Cons.last, h.e, INPUT_BUF_SIZE]
    split <;> omega
  rw [hindex, hbuf]
  exact List.getLast_mem hline

theorem killLine {k : ℕ} (hk : d.line.length = k) : (s.killLine k).Rep d.kill := by
  induction k generalizing s d with
  | zero =>
    rw [Editor.kill_of_line_nil (List.length_eq_zero_iff.1 hk)]
    exact h
  | succ k ih =>
    have hline : d.line ≠ [] := by
      rintro hnil
      simp [hnil] at hk
    have hlast : s.buf (s.last % INPUT_BUF_SIZE) ≠ newline := by
      intro hn
      exact d.newline_notMem (hn ▸ h.last_byte hline)
    rw [Cons.killLine, if_pos ⟨fun he => hline (h.e_eq_w.1 he), hlast⟩, ← d.kill_erase]
    refine ih (h.erase hline) ?_
    change d.line.dropLast.length = k
    rw [List.length_dropLast, hk, Nat.add_sub_cancel]

theorem buf_store (hroom : 0 < d.room) (c : UInt8) (k : ℕ) (b : UInt8)
    (hk : d.taken ≤ k) (hb : (d.committed ++ (d.line ++ [c]))[k]? = some b) :
    (s.store c).buf (k % INPUT_BUF_SIZE) = b := by
  have hfits := Editor.length_lt_of_room hroom
  have hindex : s.e % INPUT_BUF_SIZE =
      (d.committed.length + d.line.length) % INPUT_BUF_SIZE := by
    rw [h.e, INPUT_BUF_SIZE]
    omega
  rw [← List.append_assoc, List.getElem?_append] at hb
  change update s.buf (s.e % INPUT_BUF_SIZE) c (k % INPUT_BUF_SIZE) = b
  rw [hindex]
  split at hb
  case isTrue hlt =>
    rw [update_of_ne]
    · exact h.buf k b hk hb
    · rw [List.length_append] at hlt
      simp only [INPUT_BUF_SIZE] at *
      omega
  case isFalse hge =>
    obtain ⟨hlt, hbc⟩ := List.getElem?_eq_some_iff.1 hb
    rw [List.length_append] at hge hlt
    rw [List.length_singleton] at hlt
    have hkeq : k = d.committed.length + d.line.length := by omega
    subst hkeq
    rw [update_self, ← hbc]
    simp

theorem e_store (c : UInt8) :
    (s.store c).e = (d.committed.length + (d.line ++ [c]).length) % 2 ^ 32 := by
  change (s.e + 1) % 2 ^ 32 = _
  rw [h.e, List.length_append, List.length_singleton]
  omega

theorem store_full (hroom : 0 < d.room) (c : UInt8) :
    (s.store c).used = INPUT_BUF_SIZE ↔ d.room = 1 := by
  have hfits := Editor.length_lt_of_room hroom
  have htaken := d.taken_le
  change usub (s.store c).e s.r = _ ↔ _
  rw [usub, h.e_store, h.r, Editor.room, List.length_append, List.length_singleton]
  simp only [INPUT_BUF_SIZE] at *
  omega

theorem put_commit (hroom : 0 < d.room) {c : UInt8}
    (hc : c = newline ∨ c = ctrl 'D' ∨ d.room = 1) : (s.store c).commit.Rep (d.put c hroom) := by
  have he : (s.store c).e = (d.committed ++ (d.line ++ [c])).length % 2 ^ 32 := by
    rw [h.e_store, ← List.length_append]
  rw [Editor.put, dif_pos hc]
  exact ⟨h.r, he, he, fun k b hk hb => h.buf_store hroom c k b hk (by simpa using hb)⟩

theorem put_stay (hroom : 0 < d.room) {c : UInt8}
    (hc : ¬(c = newline ∨ c = ctrl 'D' ∨ d.room = 1)) : (s.store c).Rep (d.put c hroom) := by
  rw [Editor.put, dif_neg hc]
  exact ⟨h.r, h.w, h.e_store c, fun k b hk hb => h.buf_store hroom c k b hk hb⟩

omit h

/-- **`consoleintr`** does to the buffer what typing the character does to the editor. -/
theorem intr (h : s.Rep d) (c : UInt8) : (s.intr c).1.Rep (d.type c) := by
  have hroom : s.used < INPUT_BUF_SIZE ↔ 0 < d.room := by
    rw [h.used_eq, Editor.room, Nat.sub_pos_iff_lt]
  simp only [Cons.intr, Editor.type]
  split
  · exact h
  split
  · exact h.killLine h.length_line.symm
  split
  · by_cases hline : d.line = []
    · rw [if_neg (not_not.2 (h.e_eq_w.2 hline)), Editor.erase_of_line_nil hline]
      exact h
    · rw [if_pos fun he => hline (h.e_eq_w.1 he)]
      exact h.erase hline
  by_cases hacc : c ≠ 0 ∧ 0 < d.room
  · rw [dif_pos hacc, if_pos ⟨hacc.1, hroom.2 hacc.2⟩]
    generalize (if c = carriageReturn then newline else c) = b
    by_cases hb : b = newline ∨ b = ctrl 'D' ∨ d.room = 1
    · rw [if_pos (by rwa [h.store_full hacc.2])]
      exact h.put_commit hacc.2 hb
    · rw [if_neg (by rwa [h.store_full hacc.2])]
      exact h.put_stay hacc.2 hb
  · rw [dif_neg hacc, if_neg fun hc => hacc ⟨hc.1, hroom.1 hc.2⟩]
    exact h

end Cons.Rep

end Xv6.Console

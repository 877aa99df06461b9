import Xv6.User.CString
import Xv6.User.Grep

/-!
# The lines of `grep`

The loop of `grep.c` that reads the input piece by piece into a buffer of 1024 bytes, looks for
complete lines and carries the last, incomplete one over to the front of the buffer.

## Main results

* `grep_lines`: when `grep` writes exactly the matching lines
-/

namespace Xv6.Grep

open User Function List

def NL : UInt8 := 10

def BUFSIZE : ℕ := 1024

def slice (buf : Buf) (p q : ℕ) : List UInt8 := (List.range' p (q - p)).map buf

/-- The loop over the complete lines in the buffer: the buffer, the place behind the last newline
and what is written. -/
def lineLoop (pattern : List UInt8) : ℕ → Buf → ℕ → List UInt8 → Buf × ℕ × List UInt8
  | 0, buf, p, out => (buf, p, out)
  | k + 1, buf, p, out =>
    match strchr buf NL (BUFSIZE - p) p with
    | none => (buf, p, out)
    | some q =>
      let buf := update buf q 0
      if grepMatch pattern (cstr buf (BUFSIZE - p) p) then
        let buf := update buf q NL
        lineLoop pattern k buf (q + 1) (out ++ slice buf p (q + 1))
      else lineLoop pattern k buf (q + 1) out

/-- How many bytes the next call of `read` returns: at least one and at most `count`, while there is
input, and otherwise as it likes. -/
def readSize (like count : ℕ) (input : List UInt8) : ℕ := min (max 1 like) (min count input.length)

def store (buf : Buf) (m : ℕ) (bytes : List UInt8) : Buf := fun i =>
  if m ≤ i ∧ i < m + bytes.length then bytes.getD (i - m) 0 else buf i

def moveDown (buf : Buf) (p n : ℕ) : Buf := fun i => if i < n then buf (p + i) else buf i

def grepLoop (pattern : List UInt8) (likes : ℕ → ℕ) (buf : Buf) (m : ℕ)
    (input out : List UInt8) : List UInt8 :=
  let n := readSize (likes input.length) (BUFSIZE - m - 1) input
  if n = 0 then out
  else
    let buf := update (store buf m (input.take n)) (m + n) 0
    let r := lineLoop pattern BUFSIZE buf 0 out
    grepLoop pattern likes (moveDown r.1 r.2.1 (m + n - r.2.1)) (m + n - r.2.1) (input.drop n) r.2.2
termination_by input.length
decreasing_by
  rw [List.length_drop]
  have hle : n ≤ input.length := (min_le_right ..).trans (min_le_right ..)
  omega

def grep (pattern : List UInt8) (likes : ℕ → ℕ) (buf : Buf) (input : List UInt8) : List UInt8 :=
  grepLoop pattern likes buf 0 input []

/-! ## The buffer -/

variable {buf : Buf} {p : ℕ} {l l' : List UInt8} {c : UInt8}

variable (h : IsString buf p (l ++ NL :: l'))

include h

theorem isString_line : IsString (update buf (p + l.length) 0) p l where
  byte i hi := by rw [update_of_ne (by omega), h.byte i (by simp; omega), getD_append _ _ _ _ hi]
  null := update_self ..
  ne_zero x hx := h.ne_zero x (mem_append_left _ hx)

theorem slice_eq : slice buf p (p + l.length + 1) = l ++ [NL] := by
  rw [slice, show p + l.length + 1 - p = (l ++ [NL]).length by simp; omega]
  refine ext_getElem (by simp) fun i hi hi' => ?_
  rw [getElem_map, getElem_range', Nat.one_mul, h.byte i (by simp at hi' ⊢; omega),
    ← getD_eq_getElem _ 0 hi', show l ++ NL :: l' = l ++ [NL] ++ l' by simp,
    getD_append _ _ _ _ hi']

theorem newline_at : buf (p + l.length) = NL := h.append.head.1

omit h

/-! ## The loop over the lines -/

def joinLines (lines : List (List UInt8)) : List UInt8 := (lines.map (· ++ [NL])).flatten

def selected (pattern : List UInt8) (lines : List (List UInt8)) : List (List UInt8) :=
  lines.filter (grepMatch pattern)

theorem joinLines_cons (lines : List (List UInt8)) :
    joinLines (l :: lines) = l ++ NL :: joinLines lines := by simp [joinLines]

theorem joinLines_append (lines lines' : List (List UInt8)) :
    joinLines (lines ++ lines') = joinLines lines ++ joinLines lines' := by simp [joinLines]

theorem lineLoop_line (pattern : List UInt8) (h : IsString buf p (l ++ NL :: l')) (hnl : NL ∉ l)
    (hfits : p + (l ++ NL :: l').length < BUFSIZE) (k : ℕ) (out : List UInt8) :
    ∃ buf', (∀ i, p + l.length + 1 ≤ i → buf' i = buf i) ∧ lineLoop pattern (k + 1) buf p out =
        lineLoop pattern k buf' (p + l.length + 1) (out ++ joinLines (selected pattern [l])) := by
  rw [length_append, length_cons] at hfits
  rw [lineLoop, h.strchr_some hnl (by omega)]
  dsimp only
  rw [(isString_line h).cstr_eq (by omega)]
  by_cases hm : grepMatch pattern l
  · have hback :
        update (update buf (p + l.length) 0) (p + l.length) NL = buf := by
      rw [update_idem, ← newline_at h, update_eq_self]
    rw [if_pos hm, hback, slice_eq h]
    exact ⟨buf, fun i _ => rfl, by simp [selected, hm, joinLines]⟩
  rw [if_neg hm]
  refine ⟨update buf (p + l.length) 0, fun i hi => ?_, ?_⟩
  · exact update_of_ne (by omega) ..
  · simp [selected, hm, joinLines]

theorem lineLoop_lines (pattern : List UInt8) (lines : List (List UInt8))
    (hnl : ∀ x ∈ lines, NL ∉ x) (hlast : NL ∉ l') (h : IsString buf p (joinLines lines ++ l'))
    (hfits : p + (joinLines lines ++ l').length < BUFSIZE) {k : ℕ} (hk : lines.length < k)
    (out : List UInt8) : ∃ buf', (∀ i, p + (joinLines lines).length ≤ i → buf' i = buf i) ∧
      lineLoop pattern k buf p out =
        (buf', p + (joinLines lines).length, out ++ joinLines (selected pattern lines)) := by
  induction lines generalizing buf p k out with
  | nil =>
    obtain ⟨k, rfl⟩ := Nat.exists_eq_succ_of_ne_zero (show k ≠ 0 by omega)
    refine ⟨buf, fun i _ => rfl, ?_⟩
    rw [lineLoop, h.strchr_none hlast]
    simp [joinLines, selected]
  | cons x lines ih =>
    obtain ⟨k, rfl⟩ := Nat.exists_eq_succ_of_ne_zero (show k ≠ 0 by omega)
    rw [joinLines_cons, append_assoc, cons_append] at h hfits
    obtain ⟨buf1, hsame, hround⟩ := lineLoop_line pattern h (hnl x mem_cons_self) hfits k out
    have hrest : IsString buf1 (p + x.length + 1) (joinLines lines ++ l') :=
      h.append.tail.congr hsame
    obtain ⟨buf2, hsame2, hloop⟩ := ih (fun y hy => hnl y (mem_cons_of_mem x hy)) hrest
      (by simp at hfits ⊢; omega) (by simp at hk; omega) (out ++ joinLines (selected pattern [x]))
    have hlen : p + (joinLines (x :: lines)).length
        = p + x.length + 1 + (joinLines lines).length := by
      rw [joinLines_cons]
      simp
      omega
    refine ⟨buf2, fun i hi => ?_, ?_⟩
    · rw [hlen] at hi
      rw [hsame2 i hi, hsame i (by omega)]
    · rw [hround, hloop, hlen, append_assoc, ← joinLines_append, selected, selected,
        ← filter_append, singleton_append]
      rfl

/-! ## The loop over the input -/

theorem length_lines_le (lines : List (List UInt8)) : lines.length ≤ (joinLines lines).length := by
  induction lines with
  | nil => exact Nat.le_refl 0
  | cons x lines ih =>
    rw [joinLines_cons]
    simp
    omega

variable {lines : List (List UInt8)}

theorem split_lines {data input tail : List UInt8}
    (hnl : ∀ x ∈ lines, NL ∉ x) (htail : NL ∉ tail) (h : data ++ input = joinLines lines ++ tail) :
    ∃ done rest part, lines = done ++ rest ∧ data = joinLines done ++ part ∧ NL ∉ part
      ∧ part ++ input = joinLines rest ++ tail := by
  induction lines generalizing data with
  | nil =>
    refine ⟨[], [], data, rfl, rfl, fun hmem => htail ?_, h⟩
    rw [show tail = data ++ input from h.symm]
    exact mem_append_left _ hmem
  | cons x lines ih =>
    by_cases hlen : data.length ≤ x.length
    · -- the data ends within the first line
      refine ⟨[], x :: lines, data, rfl, rfl, fun hmem => hnl x mem_cons_self ?_, h⟩
      have hdata : data = x.take data.length := by
        have := congrArg (take data.length) h
        rwa [take_left, joinLines_cons, append_assoc, take_append_of_le_length hlen] at this
      rw [hdata] at hmem
      exact mem_of_mem_take hmem
    have hshape : joinLines (x :: lines) ++ tail = (x ++ [NL]) ++ (joinLines lines ++ tail) := by
      simp [joinLines_cons]
    have hdrop : data = (x ++ [NL]) ++ data.drop (x.length + 1) := by
      have := congrArg (take (x.length + 1)) h
      rw [take_append_of_le_length (by omega), hshape, take_left' (by simp)] at this
      rw [← this, take_append_drop]
    rw [hdrop, hshape, append_assoc, append_cancel_left_eq] at h
    obtain ⟨done, rest, part, hlines, hpart, hfree, hrest⟩ :=
      ih (fun y hy => hnl y (mem_cons_of_mem x hy)) h
    refine ⟨x :: done, rest, part, by rw [hlines, cons_append], ?_, hfree, hrest⟩
    rw [hdrop, hpart, joinLines_cons]
    simp

def Front (buf : Buf) (l : List UInt8) : Prop := ∀ i < l.length, buf i = l.getD i 0

theorem Front.read {part bytes : List UInt8} (h : Front buf part)
    (hz : ∀ x ∈ part ++ bytes, x ≠ 0) :
    IsString (update (store buf part.length bytes) (part.length + bytes.length) 0) 0
      (part ++ bytes) where
  byte i hi := by
    rw [length_append] at hi
    rw [Nat.zero_add, update_of_ne (by omega), store]
    by_cases hlt : i < part.length
    · rw [if_neg (by omega), h i hlt, getD_append _ _ _ _ hlt]
    · rw [if_pos (by omega), getD_append_right _ _ _ _ (by omega)]
  null := by rw [length_append, Nat.zero_add, update_self]
  ne_zero := hz

theorem front_moveDown (h : IsString buf p l) : Front (moveDown buf p l.length) l := fun i hi => by
  rw [moveDown, if_pos hi, h.byte i hi]

theorem readSize_le (like count : ℕ) (input : List UInt8) :
    readSize like count input ≤ count ∧ readSize like count input ≤ input.length := by
  unfold readSize
  omega

theorem readSize_eq_zero {like count : ℕ} {input : List UInt8} (h : readSize like count input = 0) :
    count = 0 ∨ input = [] := by
  unfold readSize at h
  rw [← length_eq_zero_iff]
  omega

theorem newline_mem {data input x rest : List UInt8} (h : data ++ input = x ++ NL :: rest)
    (hlt : x.length < data.length) : NL ∈ data := by
  have hget : (data ++ input)[x.length]? = (x ++ NL :: rest)[x.length]? := by rw [h]
  rw [getElem?_append_left hlt, getElem?_append_right (Nat.le_refl _), Nat.sub_self,
    getElem?_cons_zero] at hget
  exact mem_of_getElem? hget

def Short (x : List UInt8) : Bool := x.length + 1 < BUFSIZE

theorem no_line {like : ℕ} {part input tail : List UInt8}
    (hpart : NL ∉ part) (h : part ++ input = joinLines lines ++ tail)
    (h0 : readSize like (BUFSIZE - part.length - 1) input = 0) : lines.takeWhile Short = [] := by
  rcases lines with _ | ⟨x, lines⟩
  · rfl
  refine takeWhile_cons_of_neg fun hx => ?_
  rw [Short, decide_eq_true_eq] at hx
  rw [joinLines_cons, append_assoc, cons_append] at h
  refine absurd (newline_mem h ?_) hpart
  obtain hfull | rfl := readSize_eq_zero h0
  · omega
  · have hlen := congrArg length h
    simp only [length_append, length_nil, length_cons] at hlen
    omega

theorem short_of_mem {done : List (List UInt8)} (hlen : (joinLines done).length < BUFSIZE) :
    ∀ x ∈ done, Short x := by
  intro x hx
  obtain ⟨before, after, rfl⟩ := append_of_mem hx
  rw [joinLines_append, joinLines_cons] at hlen
  simp only [length_append, length_cons] at hlen
  rw [Short, decide_eq_true_eq]
  omega

theorem grepLoop_lines (pattern : List UInt8) (likes : ℕ → ℕ) {part input tail : List UInt8}
    (hnl : ∀ x ∈ lines, NL ∉ x) (htail : NL ∉ tail)
    (hz : ∀ x ∈ part ++ input, x ≠ 0) (hpart : NL ∉ part) (hlen : part.length < BUFSIZE)
    (hfront : Front buf part) (h : part ++ input = joinLines lines ++ tail) (out : List UInt8) :
    grepLoop pattern likes buf part.length input out
      = out ++ joinLines (selected pattern (lines.takeWhile Short)) := by
  -- the induction is on what is left of the input; the carried part stays without a newline
  induction hk : input.length using Nat.strong_induction_on
    generalizing buf part input lines out with
  | _ k ih =>
    rw [grepLoop.eq_def]
    dsimp only
    obtain ⟨hcount, hn⟩ := readSize_le (likes input.length) (BUFSIZE - part.length - 1) input
    by_cases h0 : readSize (likes input.length) (BUFSIZE - part.length - 1) input = 0
    · rw [if_pos h0, no_line hpart h h0]
      simp [selected, joinLines]
    rw [if_neg h0]
    generalize readSize (likes input.length) (BUFSIZE - part.length - 1) input = n at *
    have hlen_take : (input.take n).length = n := length_take_of_le hn
    have hsplit : part ++ input.take n ++ input.drop n = joinLines lines ++ tail := by
      rw [append_assoc, take_append_drop, h]
    have hz_take : ∀ x ∈ part ++ input.take n, x ≠ 0 := by
      intro x hx
      refine hz x ?_
      rw [← take_append_drop n input, ← append_assoc]
      exact mem_append_left _ hx
    have hat := hfront.read hz_take
    rw [hlen_take] at hat
    have hsize : (part ++ input.take n).length = part.length + n := by
      rw [length_append, hlen_take]
    obtain ⟨done, rest, part', rfl, hdata, hfree, hrest⟩ := split_lines hnl htail hsplit
    rw [hdata] at hat
    rw [hdata, length_append] at hsize
    have hdone := length_lines_le done
    obtain ⟨buf', hsame, hloop⟩ := lineLoop_lines pattern done
      (fun x hx => hnl x (mem_append_left _ hx)) hfree hat (by simp; omega)
      (show done.length < BUFSIZE by omega) out
    rw [hloop]
    dsimp only
    rw [Nat.zero_add, show part.length + n - (joinLines done).length = part'.length by omega]
    have hmove : Front (moveDown buf' (joinLines done).length part'.length) part' := by
      have := hat.append.congr hsame
      rw [Nat.zero_add] at this
      exact front_moveDown this
    have hz' : ∀ x ∈ part' ++ input.drop n, x ≠ 0 := by
      intro x hx
      refine hz x ?_
      rw [h, joinLines_append, append_assoc, ← hrest]
      exact mem_append_right _ hx
    have hless : (input.drop n).length < k := by
      rw [length_drop]
      omega
    rw [ih _ hless (fun x hx => hnl x (mem_append_right _ hx)) hz' hfree (by omega) hmove
      hrest _ rfl, append_assoc, ← joinLines_append,
      takeWhile_append_of_pos (short_of_mem (by omega)), selected, selected, selected,
      filter_append]

theorem grep_eq (pattern : List UInt8) (likes : ℕ → ℕ) (buf : Buf)
    {tail : List UInt8} (hnl : ∀ x ∈ lines, NL ∉ x) (htail : NL ∉ tail)
    (hz : ∀ x ∈ joinLines lines ++ tail, x ≠ 0) : grep pattern likes buf (joinLines lines ++ tail)
      = joinLines (selected pattern (lines.takeWhile Short)) := by
  have hempty : Front buf [] := by
    intro i hi
    simp at hi
  have hlen : ([] : List UInt8).length < BUFSIZE := by decide
  have h : grepLoop pattern likes buf ([] : List UInt8).length (joinLines lines ++ tail) []
      = [] ++ joinLines (selected pattern (lines.takeWhile Short)) :=
    grepLoop_lines pattern likes hnl htail (show ∀ x ∈ [] ++ (joinLines lines ++ tail), x ≠ 0
      from hz) not_mem_nil hlen hempty rfl []
  exact h

theorem grepMatch_nil (x : List UInt8) : grepMatch [] x = true := by
  rcases x with _ | ⟨c, x⟩
  · simp [grepMatch, matchAny, matchhere]
  · simp [grepMatch, matchAny, matchhere]

theorem selected_nil (lines : List (List UInt8)) : selected [] lines = lines :=
  List.filter_eq_self.mpr fun x _ => grepMatch_nil x

/-- **`grep` writes exactly the matching lines** of its input, complete and in their order, however
the input is cut into pieces, if and only if every line fits the buffer with its newline and the
null. -/
theorem grep_lines (likes : ℕ → ℕ) (buf : Buf) (lines : List (List UInt8))
    (tail : List UInt8) (hnl : ∀ x ∈ lines, NL ∉ x) (htail : NL ∉ tail)
    (hz : ∀ x ∈ joinLines lines ++ tail, x ≠ 0) :
    (∀ pattern, grep pattern likes buf (joinLines lines ++ tail) =
      joinLines (selected pattern lines)) ↔ ∀ x ∈ lines, x.length ≤ 1022 := by
  have hshort : (∀ x ∈ lines, x.length ≤ 1022) ↔ lines.takeWhile Short = lines := by
    rw [List.takeWhile_eq_self_iff]
    refine forall₂_congr fun x _ => ?_
    rw [Short, decide_eq_true_eq, BUFSIZE]
    omega
  rw [hshort]
  constructor
  · intro hright
    -- the empty pattern matches every line
    have hall := hright []
    have hsplit : joinLines lines =
        joinLines (lines.takeWhile Short) ++ joinLines (lines.dropWhile Short) := by
      rw [joinLines, joinLines, joinLines, ← List.flatten_append, ← List.map_append,
        List.takeWhile_append_dropWhile]
    rw [grep_eq [] likes buf hnl htail hz, selected_nil, selected_nil, hsplit,
      List.self_eq_append_right] at hall
    have hnone : lines.dropWhile Short = [] := by
      rcases hd : lines.dropWhile Short with _ | ⟨x, l⟩
      · rfl
      · rw [hd, joinLines_cons] at hall
        simp at hall
    have heq := List.takeWhile_append_dropWhile (p := Short) (l := lines)
    rwa [hnone, List.append_nil] at heq
  · intro htake pattern
    rw [grep_eq pattern likes buf hnl htail hz, htake]

/-- The pattern `a` on two lines and an incomplete one, read byte by byte. -/
theorem grep_lines_bytewise :
    grep [97] (fun _ => 1) (fun _ => 0) (joinLines [[97, 98], [98]] ++ [97])
      = joinLines (selected [97] [[97, 98], [98]]) :=
  (grep_lines (fun _ => 1) (fun _ => 0) [[97, 98], [98]] [97] (by decide) (by decide)
    (by simp [joinLines, NL])).mpr (by simp) [97]

/-- A line of 1023 bytes is lost, and with it the line behind it. -/
theorem grep_long_line : ∃ lines : List (List UInt8), (∀ x ∈ lines, NL ∉ x)
    ∧ (∀ x ∈ joinLines lines, x ≠ 0) ∧ selected [] lines = lines ∧ lines ≠ []
    ∧ ∀ likes buf, grep [] likes buf (joinLines lines) = [] := by
  have hnl : ∀ x ∈ [List.replicate 1023 (97 : UInt8), [97]], NL ∉ x := by
    intro x hx
    rw [List.mem_pair] at hx
    obtain rfl | rfl := hx
    · rw [List.mem_replicate]
      decide
    · decide
  have hz : ∀ x ∈ joinLines [List.replicate 1023 (97 : UInt8), [97]], x ≠ 0 := by
    intro x hx
    rw [joinLines_cons, List.mem_append, List.mem_replicate] at hx
    obtain ⟨-, rfl⟩ | hx := hx
    · decide
    · simp only [joinLines, List.map_cons, List.map_nil, List.flatten_cons, List.flatten_nil,
        List.mem_cons, List.mem_append, List.not_mem_nil, or_false] at hx
      obtain rfl | rfl | rfl := hx <;> decide
  refine ⟨_, hnl, hz, ?_, List.cons_ne_nil _ _, fun likes buf => ?_⟩
  · exact List.filter_eq_self.mpr fun x _ => grepMatch_nil x
  have h := grep_eq [] likes buf hnl List.not_mem_nil (by rwa [List.append_nil])
  rw [List.append_nil, List.takeWhile_cons_of_neg] at h
  · exact h
  · rw [Short, decide_eq_true_eq, List.length_replicate, BUFSIZE]
    omega

end Xv6.Grep

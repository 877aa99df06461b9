import Xv6.Fs.Codec

/-!
# The elements of a path

A path is the string up to its null; its elements are the non-empty parts between slashes, each cut
to `DIRSIZ` bytes.
-/

namespace Xv6.Fs

open List

def elems (t : List UInt8) : List (List UInt8) :=
  (t.splitOnP (· = slash)).filter (· ≠ [])

def components (path : List UInt8) : List (List UInt8) :=
  (elems (path.takeWhile (· ≠ 0))).map (List.take DIRSIZ)

def elements : ℕ → List UInt8 → List (List UInt8)
  | 0, _ => []
  | k + 1, path =>
    match skipelem path with
    | none => []
    | some (elem, rest) => elem :: elements k rest

variable {t path : List UInt8}

theorem elems_append_slash (x y : List UInt8) : elems (x ++ slash :: y) = elems x ++ elems y := by
  rw [elems, splitOnP_append_cons x y (by simp), filter_append, elems, elems]

theorem elems_cons_slash (y : List UInt8) : elems (slash :: y) = elems y := by
  have h := elems_append_slash [] y
  have hnil : elems [] = [] := by simp [elems, splitOnP_nil]
  rwa [nil_append, hnil, nil_append] at h

theorem elems_single (hne : t ≠ []) (h : ∀ c ∈ t, c ≠ slash) : elems t = [t] := by
  rw [elems, splitOnP_eq_singleton fun c hc => by simpa using h c hc]
  simp [hne]

theorem components_nil : components [] = [] := by simp [components, elems, splitOnP_nil]

theorem components_cons_zero (u : List UInt8) : components (0 :: u) = [] := by
  simp [components, elems, splitOnP_nil]

theorem components_cons_slash (u : List UInt8) : components (slash :: u) = components u := by
  have hslash : slash ≠ 0 := by decide
  rw [components, takeWhile_cons_of_pos (by simpa using hslash), elems_cons_slash, components]

theorem components_dropWhile (path : List UInt8) :
    components (path.dropWhile (· = slash)) = components path := by
  induction path with
  | nil => rfl
  | cons c u ih =>
    by_cases hc : c = slash
    · subst hc
      rw [dropWhile_cons_of_pos (by simp), ih, components_cons_slash]
    · rw [dropWhile_cons_of_neg (by simpa using hc)]

theorem components_of_head (h : t.headD 0 = 0) : components t = [] := by
  cases t with
  | nil => exact components_nil
  | cons c u =>
    obtain rfl : c = 0 := h
    exact components_cons_zero u

theorem components_elem {elem rest : List UInt8} (hne : elem ≠ [])
    (helem : ∀ c ∈ elem, c ≠ slash ∧ c ≠ 0) (hrest : rest.headD 0 = slash ∨ rest.headD 0 = 0) :
    components (elem ++ rest) = elem.take DIRSIZ :: components rest := by
  have htake : (elem ++ rest).takeWhile (· ≠ 0) = elem ++ rest.takeWhile (· ≠ 0) :=
    takeWhile_append_of_pos fun c hc => by simpa using (helem c hc).2
  have hsingle := elems_single hne fun c hc => (helem c hc).1
  rw [components, htake]
  rcases hrest with hslash | hzero
  · obtain ⟨u, rfl⟩ : ∃ u, rest = slash :: u := by
      cases rest with
      | nil => simp [slash] at hslash
      | cons c u => exact ⟨u, by rw [← hslash]; rfl⟩
    have hpos : (slash :: u).takeWhile (· ≠ 0) = slash :: u.takeWhile (· ≠ 0) :=
      takeWhile_cons_of_pos (by decide)
    rw [hpos, elems_append_slash, hsingle, components_cons_slash, components]
    rfl
  have hnil : rest.takeWhile (· ≠ 0) = [] := by
    cases rest with
    | nil => rfl
    | cons c u =>
      obtain rfl : c = 0 := hzero
      rfl
  rw [hnil, append_nil, hsingle, components_of_head hzero]
  rfl

theorem headD_dropWhile (p : UInt8 → Bool) (t : List UInt8) :
    t.dropWhile p = [] ∨ p ((t.dropWhile p).headD 0) = false := by
  induction t with
  | nil => exact .inl rfl
  | cons c u ih =>
    by_cases hc : p c = true
    · rw [dropWhile_cons_of_pos hc]
      exact ih
    · rw [dropWhile_cons_of_neg hc]
      exact .inr (by simpa using hc)

theorem inElem_iff {c : UInt8} : inElem c = true ↔ c ≠ slash ∧ c ≠ 0 := decide_eq_true_iff

theorem components_takeWhile (hzero : t.headD 0 ≠ 0) (hslash : t.headD 0 ≠ slash) :
    t.takeWhile inElem ≠ [] ∧ components t =
      (t.takeWhile inElem).take DIRSIZ :: components (t.dropWhile inElem) := by
  have hne : t.takeWhile inElem ≠ [] := by
    cases t with
    | nil => exact absurd rfl hzero
    | cons c u =>
      have hc : inElem c = true := inElem_iff.mpr ⟨hslash, hzero⟩
      rw [takeWhile_cons_of_pos hc]
      exact cons_ne_nil _ _
  have helem : ∀ c ∈ t.takeWhile inElem, c ≠ slash ∧ c ≠ 0 := fun c hc =>
    inElem_iff.mp (mem_takeWhile_imp hc)
  have hrest : (t.dropWhile inElem).headD 0 = slash ∨ (t.dropWhile inElem).headD 0 = 0 := by
    rcases headD_dropWhile inElem t with hnil | hno
    · exact .inr (by rw [hnil]; rfl)
    · by_contra hcon
      rw [not_or, ← ne_eq, ← ne_eq, ← inElem_iff, hno] at hcon
      cases hcon
  refine ⟨hne, ?_⟩
  conv_lhs => rw [← takeWhile_append_dropWhile (p := inElem) (l := t)]
  exact components_elem hne helem hrest

theorem headD_dropSlashes (path : List UInt8) : (path.dropWhile (· = slash)).headD 0 ≠ slash := by
  rcases headD_dropWhile (· = slash) path with hnil | hno
  · rw [hnil]
    decide
  · exact of_decide_eq_false hno

theorem skipelem_components (path : List UInt8) :
    match skipelem path with
    | none => components path = []
    | some (elem, rest) => components path = elem :: components rest ∧
        rest.length < path.length ∧ (rest.headD 0 = 0 ↔ components rest = []) := by
  have hskip : skipelem path = if (path.dropWhile (· = slash)).headD 0 = 0 then none
      else some (((path.dropWhile (· = slash)).takeWhile inElem).take DIRSIZ,
        ((path.dropWhile (· = slash)).dropWhile inElem).dropWhile (· = slash)) := rfl
  have hslash := headD_dropSlashes path
  have hcomp := components_dropWhile path
  have hlen := length_dropWhile_le (· = slash) path
  rw [hskip]
  generalize path.dropWhile (· = slash) = s at hslash hcomp hlen
  by_cases hzero : s.headD 0 = 0
  · rw [if_pos hzero, ← hcomp]
    exact components_of_head hzero
  rw [if_neg hzero]
  obtain ⟨hne, hfirst⟩ := components_takeWhile hzero hslash
  refine ⟨?_, ?_, components_of_head, fun hempty => ?_⟩
  · rw [components_dropWhile, ← hcomp, hfirst]
  · have hdrop := length_dropWhile_le (· = slash) (s.dropWhile inElem)
    have hsum := congrArg length (takeWhile_append_dropWhile (p := inElem) (l := s))
    rw [length_append] at hsum
    have hpos := length_pos_of_ne_nil hne
    omega
  · by_contra hrest
    rw [(components_takeWhile hrest (headD_dropSlashes _)).2] at hempty
    cases hempty

theorem elements_eq_components {k : ℕ} (hk : path.length < k) :
    elements k path = components path := by
  induction k generalizing path with
  | zero => omega
  | succ k ih =>
    have hfirst := skipelem_components path
    rw [elements]
    rcases hskip : skipelem path with _ | ⟨elem, rest⟩
    · rw [hskip] at hfirst
      exact hfirst.symm
    · rw [hskip] at hfirst
      obtain ⟨hcomp, hlen, -⟩ := hfirst
      rw [hcomp, ← ih (by omega)]

end Xv6.Fs

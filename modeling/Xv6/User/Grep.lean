import Xv6.Param

/-!
# The matcher of `grep`

`match`, `matchhere` and `matchstar` of `grep.c` on C strings, which are the lists of their bytes
before the null: a test for the null is a test for the end of the list.

## Main results

* `grep_match_iff`: the matcher decides the language of its pattern
-/

namespace Xv6.Grep

open List Language

def DOT : UInt8 := 46

def STAR : UInt8 := 42

def DOLLAR : UInt8 := 36

def CARET : UInt8 := 94

mutual

def matchhere (re text : List UInt8) : Bool :=
  match re with
  | [] => true
  | c :: re' =>
    if re'.head? = some STAR then matchstar c re'.tail text
    else if c = DOLLAR ∧ re' = [] then text.isEmpty
    else
      match text with
      | t :: text' => if c = DOT ∨ c = t then matchhere re' text' else false
      | [] => false
termination_by (re.length, 0)
decreasing_by
  · exact Prod.Lex.left _ _ (by grind)
  · exact Prod.Lex.left _ _ (by simp)

def matchstar (c : UInt8) (re text : List UInt8) : Bool :=
  if matchhere re text then true
  else
    match text with
    | t :: text' => if t = c ∨ c = DOT then matchstar c re text' else false
    | [] => false
termination_by (re.length, text.length + 1)
decreasing_by
  · exact Prod.Lex.right _ (by omega)
  · exact Prod.Lex.right _ (by simp)

end

def matchAny (re : List UInt8) : List UInt8 → Bool
  | [] => matchhere re []
  | t :: text => if matchhere re (t :: text) then true else matchAny re text

def grepMatch (re text : List UInt8) : Bool :=
  match re with
  | [] => matchAny [] text
  | c :: re' => if c = CARET then matchhere re' text else matchAny (c :: re') text

/-! ## The language of a pattern -/

/-- An item of a pattern: a character, or a character that is repeated. -/
inductive Item
  | one (c : UInt8)
  | star (c : UInt8)
  deriving DecidableEq, Repr

/-- A pattern without its leading `^`: its items, and whether a final `$` ties it to the end. -/
structure Pattern where
  items : List Item
  atEnd : Bool
  deriving DecidableEq, Repr

def readPattern : List UInt8 → Pattern
  | [] => ⟨[], false⟩
  | [c] => if c = DOLLAR then ⟨[], true⟩ else ⟨[.one c], false⟩
  | c :: d :: re =>
    if d = STAR then ⟨.star c :: (readPattern re).items, (readPattern re).atEnd⟩
    else ⟨.one c :: (readPattern (d :: re)).items, (readPattern (d :: re)).atEnd⟩

def Stands (c x : UInt8) : Prop := c = DOT ∨ x = c

instance (c x : UInt8) : Decidable (Stands c x) := inferInstanceAs (Decidable (_ ∨ _))

def single (c : UInt8) : Language UInt8 := {w | ∃ x, w = [x] ∧ Stands c x}

open Computability in
def Item.language : Item → Language UInt8
  | .one c => single c
  | .star c => (single c)∗

def language (items : List Item) : Language UInt8 := (items.map Item.language).prod

def Pattern.Begins (p : Pattern) (text : List UInt8) : Prop :=
  ∃ word post, text = word ++ post ∧ word ∈ language p.items ∧ (p.atEnd = true → post = [])

variable {c : UInt8} {items : List Item} {e : Bool} {re text : List UInt8}

open Computability in
/-- A repeated character stands for a word if it stands for each of its characters. -/
theorem mem_kstar_single {w : List UInt8} : w ∈ (single c)∗ ↔ ∀ x ∈ w, Stands c x := by
  rw [mem_kstar]
  constructor
  · rintro ⟨L, rfl, hL⟩ x hx
    obtain ⟨y, hy, hxy⟩ := mem_flatten.mp hx
    obtain ⟨z, rfl, hz⟩ := hL y hy
    rw [mem_singleton] at hxy
    exact hxy ▸ hz
  intro h
  refine ⟨w.map fun x => [x], ?_, ?_⟩
  · induction w with
    | nil => rfl
    | cons x w ih =>
      have hw := ih fun y hy => h y (mem_cons_of_mem x hy)
      rw [map_cons, flatten_cons, ← hw, singleton_append]
  · intro y hy
    obtain ⟨x, hx, rfl⟩ := mem_map.mp hy
    exact ⟨x, rfl, h x hx⟩

/-! The three ways a pattern can go on. -/

theorem begins_nil : (⟨[], e⟩ : Pattern).Begins text ↔ (e = true → text = []) := by
  constructor
  · rintro ⟨word, post, rfl, hword, hend⟩ he
    rw [language, map_nil, prod_nil, mem_one] at hword
    rw [hword, hend he, append_nil]
  · intro h
    exact ⟨[], text, rfl, mem_one _ |>.mpr rfl, h⟩

theorem begins_one : (⟨.one c :: items, e⟩ : Pattern).Begins text ↔
    ∃ t text', text = t :: text' ∧ Stands c t ∧ (⟨items, e⟩ : Pattern).Begins text' := by
  constructor
  · rintro ⟨word, post, rfl, hword, hend⟩
    rw [language, map_cons, prod_cons, mem_mul] at hword
    obtain ⟨a, ⟨x, rfl, hx⟩, b, hb, rfl⟩ := hword
    exact ⟨x, b ++ post, rfl, hx, b, post, rfl, hb, hend⟩
  rintro ⟨t, text', rfl, ht, word, post, rfl, hword, hend⟩
  refine ⟨t :: word, post, rfl, ?_, hend⟩
  rw [language, map_cons, prod_cons, mem_mul]
  exact ⟨[t], ⟨t, rfl, ht⟩, word, hword, rfl⟩

theorem begins_star : (⟨.star c :: items, e⟩ : Pattern).Begins text ↔
    ∃ pre text', text = pre ++ text' ∧ (∀ x ∈ pre, Stands c x) ∧
      (⟨items, e⟩ : Pattern).Begins text' := by
  constructor
  · rintro ⟨word, post, rfl, hword, hend⟩
    rw [language, map_cons, prod_cons, mem_mul] at hword
    obtain ⟨a, ha, b, hb, rfl⟩ := hword
    exact ⟨a, b ++ post, append_assoc .., mem_kstar_single.mp ha, b, post, rfl, hb, hend⟩
  rintro ⟨pre, text', rfl, hpre, word, post, rfl, hword, hend⟩
  refine ⟨pre ++ word, post, (append_assoc ..).symm, ?_, hend⟩
  rw [language, map_cons, prod_cons, mem_mul]
  exact ⟨pre, mem_kstar_single.mpr hpre, word, hword, rfl⟩

/-! ## The matcher -/

/-- **`matchstar`** tries the rest of the pattern behind every run of the character. -/
theorem matchstar_iff : matchstar c re text = true ↔
    ∃ pre text', text = pre ++ text' ∧ (∀ x ∈ pre, Stands c x) ∧ matchhere re text' = true := by
  induction text with
  | nil =>
    rw [matchstar]
    constructor
    · intro h
      refine ⟨[], [], rfl, by simp, ?_⟩
      simpa using h
    · rintro ⟨pre, text', happ, -, hhere⟩
      obtain ⟨-, rfl⟩ := append_eq_nil_iff.mp happ.symm
      simp [hhere]
  | cons t text ih =>
    rw [matchstar]
    constructor
    · intro h
      split at h
      · next hhere => exact ⟨[], t :: text, rfl, by simp, hhere⟩
      split at h
      · next hst =>
        obtain ⟨pre, text', rfl, hpre, hhere⟩ := ih.mp h
        refine ⟨t :: pre, text', rfl, ?_, hhere⟩
        intro x hx
        rcases mem_cons.mp hx with rfl | hx
        · exact hst.symm
        · exact hpre x hx
      · cases h
    rintro ⟨pre, text', happ, hpre, hhere⟩
    split
    · rfl
    next hnot =>
    rcases pre with _ | ⟨x, pre⟩
    · rw [nil_append] at happ
      exact absurd (happ ▸ hhere) hnot
    obtain ⟨rfl, rfl⟩ := cons.inj happ
    have hst := hpre t (mem_cons_self ..)
    rw [if_pos hst.symm]
    exact ih.mpr ⟨pre, text', rfl, fun y hy => hpre y (mem_cons_of_mem t hy), hhere⟩

theorem matchhere_cons : matchhere (c :: re) text =
    if re.head? = some STAR then matchstar c re.tail text
    else if c = DOLLAR ∧ re = [] then text.isEmpty
    else match text with
      | t :: text' => if c = DOT ∨ c = t then matchhere re text' else false
      | [] => false := by rw [matchhere.eq_def]

theorem matchhere_one (hstar : re.head? ≠ some STAR) (hend : ¬ (c = DOLLAR ∧ re = [])) :
    matchhere (c :: re) text = true ↔
      ∃ t text', text = t :: text' ∧ Stands c t ∧ matchhere re text' = true := by
  rw [matchhere_cons, if_neg hstar, if_neg hend]
  rcases text with _ | ⟨t, text⟩
  · simp
  have hst : (c = DOT ∨ c = t) ↔ Stands c t := by rw [Stands, @eq_comm _ c t]
  by_cases h : c = DOT ∨ c = t
  · simp [h, hst.mp h]
  · simp [h, mt hst.mpr h]

theorem matchhere_iff (re text : List UInt8) :
    matchhere re text = true ↔ (readPattern re).Begins text := by
  induction re using readPattern.induct generalizing text with
  | case1 =>
    rw [matchhere, readPattern, begins_nil]
    simp
  | case2 =>
    rw [matchhere_cons, readPattern, if_neg (by simp), if_pos ⟨rfl, rfl⟩, if_pos rfl, begins_nil]
    simp
  | case3 c hc =>
    rw [matchhere_one (by simp) (by simp [hc]), readPattern, if_neg hc, begins_one]
    have hnil : ∀ text', matchhere [] text' = true ↔ (⟨[], false⟩ : Pattern).Begins text' := by
      intro text'
      rw [matchhere, begins_nil]
      simp
    simp only [hnil]
  | case4 c re ih =>
    rw [matchhere_cons, head?_cons, if_pos rfl, tail_cons, readPattern, if_pos rfl,
      begins_star, matchstar_iff]
    simp only [ih]
  | case5 c d re hd ih =>
    rw [matchhere_one (by simpa using hd) (by simp), readPattern, if_neg hd, begins_one]
    simp only [ih]

theorem matchAny_iff : matchAny re text = true ↔
    ∃ pre text', text = pre ++ text' ∧ matchhere re text' = true := by
  induction text with
  | nil =>
    rw [matchAny]
    constructor
    · exact fun h => ⟨[], [], rfl, h⟩
    · rintro ⟨pre, text', happ, h⟩
      obtain ⟨-, rfl⟩ := append_eq_nil_iff.mp happ.symm
      exact h
  | cons t text ih =>
    rw [matchAny]
    constructor
    · intro h
      split at h
      · next hhere => exact ⟨[], t :: text, rfl, hhere⟩
      · obtain ⟨pre, text', rfl, hhere⟩ := ih.mp h
        exact ⟨t :: pre, text', rfl, hhere⟩
    rintro ⟨pre, text', happ, hhere⟩
    split
    · rfl
    next hnot =>
    rcases pre with _ | ⟨x, pre⟩
    · rw [nil_append] at happ
      exact absurd (happ ▸ hhere) hnot
    · obtain ⟨rfl, rfl⟩ := cons.inj happ
      exact ih.mpr ⟨pre, text', rfl, hhere⟩

def anchored (re : List UInt8) : Bool := re.head? = some CARET

def body (re : List UInt8) : List UInt8 := if anchored re then re.tail else re

/-- **`grep`'s matcher and the language of its pattern.** -/
theorem grep_match_iff (re text : List UInt8) : grepMatch re text = true ↔
    ∃ pre word post, text = pre ++ word ++ post ∧ word ∈ language (readPattern (body re)).items ∧
      (anchored re = true → pre = []) ∧ ((readPattern (body re)).atEnd = true → post = []) := by
  have hhere : grepMatch re text = true ↔ ∃ pre text', text = pre ++ text' ∧
      (anchored re = true → pre = []) ∧ matchhere (body re) text' = true := by
    rcases re with _ | ⟨c, re⟩
    · rw [grepMatch, matchAny_iff]
      simp [anchored, body]
    rw [grepMatch]
    by_cases hc : c = CARET
    · simp [anchored, body, hc]
    · rw [if_neg hc, matchAny_iff]
      simp [anchored, body, hc]
  rw [hhere]
  constructor
  · rintro ⟨pre, text', rfl, hpre, hmatch⟩
    obtain ⟨word, post, rfl, hword, hend⟩ := (matchhere_iff _ _).mp hmatch
    exact ⟨pre, word, post, (List.append_assoc ..).symm, hword, hpre, hend⟩
  · rintro ⟨pre, word, post, rfl, hword, hpre, hend⟩
    exact ⟨pre, word ++ post, List.append_assoc .., hpre,
      (matchhere_iff _ _).mpr ⟨word, post, rfl, hword, hend⟩⟩

end Xv6.Grep

import Xv6.Foundations.Hoare
import Xv6.User.CString

/-!
# The parser of the shell

The recursive-descent parser of `sh.c`: `gettoken` and `peek` move along the command line, the
`parse` functions build a tree whose words are places in the line, and `nulterminate` writes a null
behind every word of the tree.

## Main results

* `parsecmd_words`: the words of the tree are the tokens of the line
-/

namespace Xv6.Shell

open Hoare User Function List

def whitespace : List UInt8 :=
  [' '.toUInt8, '\t'.toUInt8, '\r'.toUInt8, '\n'.toUInt8, 11]

def symbols : List UInt8 :=
  ['<'.toUInt8, '|'.toUInt8, '>'.toUInt8, '&'.toUInt8, ';'.toUInt8, '('.toUInt8, ')'.toUInt8]

def MAXARGS : ℕ := 10

/-- A word of the command line: where it starts and where it ends. -/
structure Word where
  q : ℕ
  eq : ℕ
  deriving DecidableEq, Repr

/-- A redirection: `file` and `efile`, `mode` and `fd`. -/
structure Redir where
  file : Word
  mode : ℕ
  fd : ℕ
  deriving DecidableEq, Repr

inductive Cmd where
  | exec (argv : List Word)
  | redir (cmd : Cmd) (r : Redir)
  | pipe (left right : Cmd)
  | list (left right : Cmd)
  | back (cmd : Cmd)
  deriving DecidableEq, Repr

/-- Why the parser gives up. -/
inductive Panic where
  /-- "syntax", for a token that is no word or for leftovers. -/
  | badLine
  | missingFile
  | parseblock
  | missingParen
  | tooManyArgs
  /-- The bound on the rounds of a loop or the depth of the recursion is reached. -/
  | bound
  deriving DecidableEq, Repr

/-- Programs that move the place `*ps` in the command line. -/
abbrev ParseM (α : Type) := Prog ℕ Panic α

variable (line : List UInt8)

/-- The character at a place; behind the last one is the null. -/
def charAt (s : ℕ) : UInt8 := line.getD s 0

/-- The first place from `s` on whose character does not satisfy `P`. -/
def skip (P : UInt8 → Bool) (s : ℕ) : ℕ :=
  if s < line.length ∧ P (charAt line s) then skip P (s + 1) else s
termination_by line.length - s

def isSpace (c : UInt8) : Bool := c ∈ whitespace

def isWord (c : UInt8) : Bool := c ∉ whitespace ∧ c ∉ symbols

def tokenAt (q : ℕ) : UInt8 × ℕ :=
  let c := charAt line q
  if c = 0 then (0, q)
  else if c ∈ ['|'.toUInt8, '('.toUInt8, ')'.toUInt8, ';'.toUInt8, '&'.toUInt8, '<'.toUInt8] then
    (c, q + 1)
  else if c = '>'.toUInt8 then
    if charAt line (q + 1) = '>'.toUInt8 then ('+'.toUInt8, q + 2) else (c, q + 1)
  else ('a'.toUInt8, skip line isWord q)

def gettoken : ParseM (UInt8 × Word) := do
  let s ← get
  let q := skip line isSpace s
  let (ret, eq) := tokenAt line q
  set (skip line isSpace eq)
  pure (ret, ⟨q, eq⟩)

def peek (toks : List UInt8) : ParseM Bool := do
  let s ← get
  let s := skip line isSpace s
  set s
  pure (charAt line s ≠ 0 ∧ charAt line s ∈ toks)

def O_RDONLY : ℕ := 0x000
def O_WRONLY : ℕ := 0x001
def O_CREATE : ℕ := 0x200
def O_TRUNC : ℕ := 0x400

def redirOf (tok : UInt8) (file : Word) : List Redir :=
  if tok = '<'.toUInt8 then [⟨file, O_RDONLY, 0⟩]
  else if tok = '>'.toUInt8 then [⟨file, O_WRONLY ||| O_CREATE ||| O_TRUNC, 1⟩]
  else if tok = '+'.toUInt8 then [⟨file, O_WRONLY ||| O_CREATE, 1⟩]
  else []

def parseredirs : ℕ → List Redir → ParseM (List Redir)
  | 0, _ => throw .bound
  | k + 1, rs => do
    if ← peek line ['<'.toUInt8, '>'.toUInt8] then
      let (tok, _) ← gettoken line
      let (t, w) ← gettoken line
      if t ≠ 'a'.toUInt8 then throw .missingFile
      else parseredirs k (rs ++ redirOf tok w)
    else pure rs

def redircmd (cmd : Cmd) (rs : List Redir) : Cmd := rs.foldl .redir cmd

def argLoop : ℕ → List Word → List Redir → ParseM (List Word × List Redir)
  | 0, _, _ => throw .bound
  | k + 1, argv, rs => do
    if ← peek line ['|'.toUInt8, ')'.toUInt8, '&'.toUInt8, ';'.toUInt8] then pure (argv, rs)
    else
      let (tok, w) ← gettoken line
      if tok = 0 then pure (argv, rs)
      else if tok ≠ 'a'.toUInt8 then throw .badLine
      else if argv.length + 1 ≥ MAXARGS then throw .tooManyArgs
      else
        let rs ← parseredirs line (line.length + 1) rs
        argLoop k (argv ++ [w]) rs

def backLoop : ℕ → Cmd → ParseM Cmd
  | 0, _ => throw .bound
  | k + 1, cmd => do
    if ← peek line ['&'.toUInt8] then
      let _ ← gettoken line
      backLoop k (.back cmd)
    else pure cmd

mutual

def parseline : ℕ → ParseM Cmd
  | 0 => throw .bound
  | k + 1 => do
    let cmd ← parsepipe k
    let cmd ← backLoop line (line.length + 1) cmd
    if ← peek line [';'.toUInt8] then
      let _ ← gettoken line
      let right ← parseline k
      pure (.list cmd right)
    else pure cmd

def parsepipe : ℕ → ParseM Cmd
  | 0 => throw .bound
  | k + 1 => do
    let cmd ← parseexec k
    if ← peek line ['|'.toUInt8] then
      let _ ← gettoken line
      let right ← parsepipe k
      pure (.pipe cmd right)
    else pure cmd

def parseblock : ℕ → ParseM Cmd
  | 0 => throw .bound
  | k + 1 => do
    if ← peek line ['('.toUInt8] then
      let _ ← gettoken line
      let cmd ← parseline k
      if ← peek line [')'.toUInt8] then
        let _ ← gettoken line
        let rs ← parseredirs line (line.length + 1) []
        pure (redircmd cmd rs)
      else throw .missingParen
    else throw .parseblock

def parseexec : ℕ → ParseM Cmd
  | 0 => throw .bound
  | k + 1 => do
    if ← peek line ['('.toUInt8] then parseblock k
    else
      let rs ← parseredirs line (line.length + 1) []
      let (argv, rs) ← argLoop line (line.length + 1) [] rs
      pure (redircmd (.exec argv) rs)

end

def terminate (buf : Buf) (w : Word) : Buf := update buf w.eq 0

def nulterminate : Cmd → Buf → Buf
  | .exec argv, buf => argv.foldl terminate buf
  | .redir cmd r, buf => terminate (nulterminate cmd buf) r.file
  | .pipe left right, buf => nulterminate right (nulterminate left buf)
  | .list left right, buf => nulterminate right (nulterminate left buf)
  | .back cmd, buf => nulterminate cmd buf

/-- The tree for a command line without its nulls, and the buffer with them. -/
def parsecmd : Except Panic (Cmd × Buf) := do
  let (cmd, s) ← (parseline line (4 * line.length + 4)).run 0
  let (_, s) ← (peek line []).run s
  if s ≠ line.length then throw .badLine
  else pure (cmd, nulterminate cmd (charAt line))

/-! ## Tokens -/

variable {line}

section Skip

variable {P : UInt8 → Bool} {s : ℕ}

theorem le_skip : s ≤ skip line P s := by
  fun_induction skip line P s with
  | case1 s h ih => omega
  | case2 s h => exact Nat.le_refl s

theorem skip_le (hs : s ≤ line.length) : skip line P s ≤ line.length := by
  fun_induction skip line P s with
  | case1 s h ih => exact ih (by omega)
  | case2 s h => exact hs

theorem of_lt_skip {i : ℕ} (hi : s ≤ i) (hlt : i < skip line P s) : P (charAt line i) := by
  fun_induction skip line P s with
  | case1 s h ih =>
    by_cases heq : i = s
    · rw [heq]
      exact h.2
    · exact ih (by omega) hlt
  | case2 s h => omega

theorem not_of_skip (hlt : skip line P s < line.length) : ¬ P (charAt line (skip line P s)) := by
  fun_induction skip line P s with
  | case1 s h ih => exact ih hlt
  | case2 s h => exact fun hP => h ⟨hlt, hP⟩

theorem lt_skip (hs : s < line.length) (hP : P (charAt line s)) : s < skip line P s := by
  rw [skip, if_pos ⟨hs, hP⟩]
  exact Nat.lt_of_succ_le le_skip

end Skip

def Clean (line : List UInt8) : Prop := ∀ c ∈ line, c ≠ 0

theorem charAt_length : charAt line line.length = 0 := by simp [charAt]

theorem Clean.ne_zero (h : Clean line) {s : ℕ} (hs : s < line.length) : charAt line s ≠ 0 := by
  rw [charAt, getD_eq_getElem _ _ hs]
  exact h _ (getElem_mem hs)

theorem lt_length_of_ne_zero {s : ℕ} (h : charAt line s ≠ 0) : s < line.length := by
  by_contra hs
  exact h (getD_eq_default _ _ (by omega))

def Token (line : List UInt8) (w : Word) : Prop :=
  ∃ s s', s ≤ line.length ∧ gettoken line s = .ok (('a'.toUInt8, w), s')

variable {s : ℕ}

theorem isWord_skip (hlt : skip line isSpace s < line.length)
    (hsym : charAt line (skip line isSpace s) ∉ symbols) :
    isWord (charAt line (skip line isSpace s)) := by
  have hspace := not_of_skip hlt
  unfold isSpace at hspace
  unfold isWord
  simp only [decide_eq_true_eq] at hspace ⊢
  exact ⟨hspace, hsym⟩

theorem tokenAt_word {q : ℕ} (h : (tokenAt line q).1 = 'a'.toUInt8) :
    (tokenAt line q).2 = skip line isWord q ∧ charAt line q ≠ 0 ∧ charAt line q ∉ symbols := by
  unfold tokenAt at h ⊢
  dsimp only at h ⊢
  by_cases h0 : charAt line q = 0
  · rw [if_pos h0] at h
    exact absurd (show (0 : UInt8) = 'a'.toUInt8 from h) (by decide)
  rw [if_neg h0] at h ⊢
  by_cases h1 : charAt line q ∈ ['|'.toUInt8, '('.toUInt8, ')'.toUInt8, ';'.toUInt8, '&'.toUInt8,
      '<'.toUInt8]
  · rw [if_pos h1] at h
    dsimp only at h
    rw [h] at h1
    exact absurd h1 (by decide)
  rw [if_neg h1] at h ⊢
  by_cases h2 : charAt line q = '>'.toUInt8
  · rw [if_pos h2] at h
    exfalso
    split at h
    · exact absurd (show '+'.toUInt8 = 'a'.toUInt8 from h) (by decide)
    · dsimp only at h
      rw [h2] at h
      exact absurd h (by decide)
  rw [if_neg h2]
  refine ⟨rfl, h0, fun hmem => ?_⟩
  simp only [symbols, mem_cons, not_mem_nil, or_false] at hmem h1
  tauto

theorem tokenAt_place (h : Clean line) (hs : s ≤ line.length) :
    let q := skip line isSpace s
    q ≤ (tokenAt line q).2 ∧ (tokenAt line q).2 ≤ line.length
      ∧ (q < line.length → q < (tokenAt line q).2)
      ∧ (q = line.length → (tokenAt line q).1 = 0) := by
  intro q
  have hq : q ≤ line.length := skip_le hs
  by_cases hend : q = line.length
  · have h0 : charAt line q = 0 := by rw [hend, charAt_length]
    rw [tokenAt, if_pos h0]
    exact ⟨Nat.le_refl q, hq, fun hlt => absurd hend (by omega), fun _ => rfl⟩
  have hlt : q < line.length := by omega
  have hne := h.ne_zero hlt
  suffices hplace : q < (tokenAt line q).2 ∧ (tokenAt line q).2 ≤ line.length from
    ⟨hplace.1.le, hplace.2, fun _ => hplace.1, fun h => absurd h hend⟩
  by_cases hword : (tokenAt line q).1 = 'a'.toUInt8
  · obtain ⟨heq, -, hsym⟩ := tokenAt_word hword
    rw [heq]
    exact ⟨lt_skip hlt (isWord_skip hlt hsym), skip_le hq⟩
  unfold tokenAt at hword ⊢
  dsimp only at hword ⊢
  rw [if_neg hne] at hword ⊢
  split
  · exact ⟨Nat.lt_succ_self q, hlt⟩
  split
  · split
    · next hsecond =>
      have hne2 : charAt line (q + 1) ≠ 0 := by
        rw [hsecond]
        decide
      exact ⟨by dsimp only; omega, lt_length_of_ne_zero hne2⟩
    · exact ⟨Nat.lt_succ_self q, hlt⟩
  · next h1 h2 =>
    rw [if_neg h1, if_neg h2] at hword
    exact absurd rfl hword

theorem gettoken_run : gettoken line s
    = .ok (((tokenAt line (skip line isSpace s)).1, ⟨skip line isSpace s,
        (tokenAt line (skip line isSpace s)).2⟩),
        skip line isSpace (tokenAt line (skip line isSpace s)).2) := rfl

theorem gettoken_spec (h : Clean line) (hs : s ≤ line.length) :
    Wp (gettoken line) s (fun r s' => s ≤ s' ∧ s' ≤ line.length ∧ (s < line.length → s < s')
      ∧ (s = line.length → r.1 = 0) ∧ (r.1 = 'a'.toUInt8 → Token line r.2)) (· ≠ .bound) := by
  obtain ⟨hle, hlen, hlt, hend⟩ := tokenAt_place h hs
  have hsq : s ≤ skip line isSpace s := le_skip
  have hskip : (tokenAt line (skip line isSpace s)).2
      ≤ skip line isSpace (tokenAt line (skip line isSpace s)).2 := le_skip
  have hq : skip line isSpace s ≤ line.length := skip_le hs
  unfold Wp
  rw [gettoken_run]
  dsimp only
  refine ⟨by omega, skip_le hlen, fun hlt' => ?_, fun heq => hend (by omega), fun hword => ?_⟩
  · by_cases hq' : skip line isSpace s < line.length
    · have := hlt hq'
      omega
    · omega
  · refine ⟨s, skip line isSpace (tokenAt line (skip line isSpace s)).2, hs, ?_⟩
    rw [gettoken_run, hword]

theorem peek_spec (hs : s ≤ line.length) (toks : List UInt8) :
    Wp (peek line toks) s (fun b s' => s ≤ s' ∧ s' ≤ line.length ∧ (b = true → s' < line.length))
      (· ≠ .bound) := by
  refine ⟨le_skip, skip_le hs, fun hb => ?_⟩
  rw [decide_eq_true_eq] at hb
  exact lt_length_of_ne_zero hb.1

/-! ## The words of a tree -/

/-- The words in a tree, in the order in which they are terminated. -/
def Cmd.words : Cmd → List Word
  | .exec argv => argv
  | .redir cmd r => cmd.words ++ [r.file]
  | .pipe left right => left.words ++ right.words
  | .list left right => left.words ++ right.words
  | .back cmd => cmd.words

def Parsed (line : List UInt8) (s : ℕ) (cmd : Cmd) (s' : ℕ) : Prop :=
  s ≤ s' ∧ s' ≤ line.length ∧ ∀ w ∈ cmd.words, Token line w

theorem words_redircmd {cmd : Cmd} (hcmd : ∀ w ∈ cmd.words, Token line w) {rs : List Redir}
    (hrs : ∀ r ∈ rs, Token line r.file) : ∀ w ∈ (redircmd cmd rs).words, Token line w := by
  induction rs generalizing cmd with
  | nil => exact hcmd
  | cons r rs ih =>
    refine ih ?_ fun r' hr' => hrs r' (mem_cons_of_mem r hr')
    intro w hw
    rw [Cmd.words, mem_append, mem_singleton] at hw
    obtain hw | rfl := hw
    · exact hcmd w hw
    · exact hrs r mem_cons_self

theorem redirOf_file {tok : UInt8} {w : Word} {r : Redir} (h : r ∈ redirOf tok w) : r.file = w := by
  unfold redirOf at h
  split at h
  · rw [mem_singleton.mp h]
  split at h
  · rw [mem_singleton.mp h]
  · split at h
    · rw [mem_singleton.mp h]
    · exact absurd h not_mem_nil

section Loops

variable (h : Clean line)

include h

variable {k : ℕ}

theorem parseredirs_spec {rs : List Redir} (hs : s ≤ line.length)
    (hk : line.length < s + k) (hrs : ∀ r ∈ rs, Token line r.file) : Wp (parseredirs line k rs) s
      (fun rs' s' => s ≤ s' ∧ s' ≤ line.length ∧ ∀ r ∈ rs', Token line r.file) (· ≠ .bound) := by
  induction k generalizing s rs with
  | zero => omega
  | succ k ih =>
    unfold parseredirs
    refine (peek_spec hs _).seq ?_
    rintro b s1 ⟨hs1, hlen1, hb⟩
    rw [wp_ite]
    refine ⟨fun htrue => ?_, fun _ => ⟨hs1, hlen1, hrs⟩⟩
    refine (gettoken_spec h hlen1).seq ?_
    rintro ⟨tok, w0⟩ s2 ⟨hs2, hlen2, hlt2, -⟩
    refine (gettoken_spec h hlen2).seq ?_
    rintro ⟨t, w⟩ s3 ⟨hs3, hlen3, -, -, hword⟩
    dsimp only at hword ⊢
    rw [wp_ite]
    have := hlt2 (hb htrue)
    refine ⟨fun _ => Panic.noConfusion, fun ht => ?_⟩
    refine (ih hlen3 (by omega) ?_).mono ?_
    · intro r hr
      rw [mem_append] at hr
      obtain hr | hr := hr
      · exact hrs r hr
      · rw [redirOf_file hr]
        exact hword (not_not.mp ht)
    · rintro rs' s' ⟨hs', hlen', hrs'⟩
      exact ⟨by omega, hlen', hrs'⟩

theorem argLoop_spec {argv : List Word} {rs : List Redir} (hs : s ≤ line.length)
    (hk : line.length < s + k) (hargv : ∀ w ∈ argv, Token line w)
    (hrs : ∀ r ∈ rs, Token line r.file) :
    Wp (argLoop line k argv rs) s (fun r s' => s ≤ s' ∧ s' ≤ line.length
      ∧ (∀ w ∈ r.1, Token line w) ∧ ∀ x ∈ r.2, Token line x.file) (· ≠ .bound) := by
  induction k generalizing s argv rs with
  | zero => omega
  | succ k ih =>
    unfold argLoop
    refine (peek_spec hs _).seq ?_
    rintro b s1 ⟨hs1, hlen1, -⟩
    rw [wp_ite]
    refine ⟨fun _ => ⟨hs1, hlen1, hargv, hrs⟩, fun _ => ?_⟩
    refine (gettoken_spec h hlen1).seq ?_
    rintro ⟨tok, w⟩ s2 ⟨hs2, hlen2, hlt2, hend, hword⟩
    dsimp only at hend hword ⊢
    rw [wp_ite]
    refine ⟨fun _ => ⟨by omega, hlen2, hargv, hrs⟩, fun htok => ?_⟩
    have hadvance : s1 < s2 := hlt2 (Nat.lt_of_le_of_ne hlen1 fun heq => htok (hend heq))
    rw [wp_ite]
    refine ⟨fun _ => Panic.noConfusion, fun ha => ?_⟩
    rw [wp_ite]
    refine ⟨fun _ => Panic.noConfusion, fun _ => ?_⟩
    refine (parseredirs_spec h hlen2 (by omega) hrs).seq ?_
    rintro rs' s3 ⟨hs3, hlen3, hrs'⟩
    refine (ih hlen3 (by omega) ?_ hrs').mono ?_
    · intro w' hw'
      rw [mem_append, mem_singleton] at hw'
      obtain hw' | rfl := hw'
      · exact hargv w' hw'
      · exact hword (not_not.mp ha)
    · rintro r s' ⟨hs', hr⟩
      exact ⟨by omega, hr⟩

theorem backLoop_spec {cmd : Cmd} (hs : s ≤ line.length) (hk : line.length < s + k)
    (hcmd : ∀ w ∈ cmd.words, Token line w) :
    Wp (backLoop line k cmd) s (fun cmd' s' => Parsed line s cmd' s') (· ≠ .bound) := by
  induction k generalizing s cmd with
  | zero => omega
  | succ k ih =>
    unfold backLoop
    refine (peek_spec hs _).seq ?_
    rintro b s1 ⟨hs1, hlen1, hb⟩
    rw [wp_ite]
    refine ⟨fun htrue => ?_, fun _ => ⟨hs1, hlen1, hcmd⟩⟩
    refine (gettoken_spec h hlen1).seq ?_
    rintro _ s2 ⟨hs2, hlen2, hlt2, -⟩
    have := hlt2 (hb htrue)
    have hback : ∀ w ∈ (Cmd.back cmd).words, Token line w := hcmd
    refine (ih hlen2 (by omega) hback).mono ?_
    rintro cmd' s' ⟨hs', hrest⟩
    exact ⟨by omega, hrest⟩

/-! ## The recursion -/

/-- A parse function with enough depth left for what is left of the line. -/
def Parses (line : List UInt8) (extra k : ℕ) (x : ParseM Cmd) : Prop :=
  ∀ s ≤ line.length, 4 * (line.length - s) + extra ≤ k →
    Wp x s (fun cmd s' => Parsed line s cmd s') (· ≠ .bound)

omit h in
theorem words_append {left right : Cmd} (hl : ∀ w ∈ left.words, Token line w)
    (hr : ∀ w ∈ right.words, Token line w) : ∀ w ∈ left.words ++ right.words, Token line w := by
  intro w hw
  obtain hw | hw := mem_append.mp hw
  · exact hl w hw
  · exact hr w hw

theorem parseline_step (hpipe : Parses line 3 k (parsepipe line k))
    (hline : Parses line 4 k (parseline line k)) :
    Parses line 4 (k + 1) (parseline line (k + 1)) := by
  intro s hs hk
  unfold parseline
  refine (hpipe s hs (by omega)).seq ?_
  rintro cmd s1 ⟨hs1, hlen1, hcmd⟩
  refine (backLoop_spec h hlen1 (by omega) hcmd).seq ?_
  rintro cmd' s2 ⟨hs2, hlen2, hcmd'⟩
  refine (peek_spec hlen2 _).seq ?_
  rintro b s3 ⟨hs3, hlen3, hb⟩
  rw [wp_ite]
  refine ⟨fun htrue => ?_, fun _ => ⟨by omega, hlen3, hcmd'⟩⟩
  refine (gettoken_spec h hlen3).seq ?_
  rintro _ s4 ⟨hs4, hlen4, hlt4, -⟩
  have := hlt4 (hb htrue)
  refine (hline s4 hlen4 (by omega)).seq ?_
  rintro right s5 ⟨hs5, hlen5, hright⟩
  exact ⟨by omega, hlen5, words_append hcmd' hright⟩

theorem parsepipe_step (hexec : Parses line 2 k (parseexec line k))
    (hpipe : Parses line 3 k (parsepipe line k)) :
    Parses line 3 (k + 1) (parsepipe line (k + 1)) := by
  intro s hs hk
  unfold parsepipe
  refine (hexec s hs (by omega)).seq ?_
  rintro cmd s1 ⟨hs1, hlen1, hcmd⟩
  refine (peek_spec hlen1 _).seq ?_
  rintro b s2 ⟨hs2, hlen2, hb⟩
  rw [wp_ite]
  refine ⟨fun htrue => ?_, fun _ => ⟨by omega, hlen2, hcmd⟩⟩
  refine (gettoken_spec h hlen2).seq ?_
  rintro _ s3 ⟨hs3, hlen3, hlt3, -⟩
  have := hlt3 (hb htrue)
  refine (hpipe s3 hlen3 (by omega)).seq ?_
  rintro right s4 ⟨hs4, hlen4, hright⟩
  exact ⟨by omega, hlen4, words_append hcmd hright⟩

theorem parseblock_step (hline : Parses line 4 k (parseline line k)) :
    Parses line 1 (k + 1) (parseblock line (k + 1)) := by
  intro s hs hk
  unfold parseblock
  refine (peek_spec hs _).seq ?_
  rintro b s1 ⟨hs1, hlen1, hb⟩
  rw [wp_ite]
  refine ⟨fun htrue => ?_, fun _ => Panic.noConfusion⟩
  refine (gettoken_spec h hlen1).seq ?_
  rintro _ s2 ⟨hs2, hlen2, hlt2, -⟩
  have := hlt2 (hb htrue)
  refine (hline s2 hlen2 (by omega)).seq ?_
  rintro cmd s3 ⟨hs3, hlen3, hcmd⟩
  refine (peek_spec hlen3 _).seq ?_
  rintro b' s4 ⟨hs4, hlen4, -⟩
  rw [wp_ite]
  refine ⟨fun _ => ?_, fun _ => Panic.noConfusion⟩
  refine (gettoken_spec h hlen4).seq ?_
  rintro _ s5 ⟨hs5, hlen5, -⟩
  refine (parseredirs_spec h hlen5 (by omega) (forall_mem_nil _)).seq ?_
  rintro rs s6 ⟨hs6, hlen6, hrs⟩
  exact ⟨by omega, hlen6, words_redircmd hcmd hrs⟩

theorem parseexec_step (hblock : Parses line 1 k (parseblock line k)) :
    Parses line 2 (k + 1) (parseexec line (k + 1)) := by
  intro s hs hk
  unfold parseexec
  refine (peek_spec hs _).seq ?_
  rintro b s1 ⟨hs1, hlen1, -⟩
  rw [wp_ite]
  refine ⟨fun _ => ?_, fun _ => ?_⟩
  · refine (hblock s1 hlen1 (by omega)).mono ?_
    rintro cmd s' ⟨hs', hrest⟩
    exact ⟨by omega, hrest⟩
  refine (parseredirs_spec h hlen1 (by omega) (forall_mem_nil _)).seq ?_
  rintro rs s2 ⟨hs2, hlen2, hrs⟩
  refine (argLoop_spec h hlen2 (by omega) (forall_mem_nil _) hrs).seq ?_
  rintro ⟨argv, rs'⟩ s3 ⟨hs3, hlen3, hargv, hrs'⟩
  have hexec : ∀ w ∈ (Cmd.exec argv).words, Token line w := hargv
  exact ⟨by omega, hlen3, words_redircmd hexec hrs'⟩

theorem parse_spec (k : ℕ) : Parses line 4 k (parseline line k)
    ∧ Parses line 3 k (parsepipe line k) ∧ Parses line 2 k (parseexec line k)
    ∧ Parses line 1 k (parseblock line k) := by
  induction k with
  | zero => exact ⟨fun s _ hk => by omega, fun s _ hk => by omega, fun s _ hk => by omega,
      fun s _ hk => by omega⟩
  | succ k ih =>
    obtain ⟨hline, hpipe, hexec, hblock⟩ := ih
    exact ⟨parseline_step h hpipe hline, parsepipe_step h hexec hpipe, parseexec_step h hblock,
      parseblock_step h hline⟩

end Loops

/-! ## The nulls -/

theorem nulterminate_eq (cmd : Cmd) (buf : Buf) :
    nulterminate cmd buf = cmd.words.foldl terminate buf := by
  induction cmd generalizing buf with
  | exec argv => rfl
  | redir cmd r ih => rw [nulterminate, ih, Cmd.words, foldl_append]; rfl
  | pipe left right ihl ihr => rw [nulterminate, ihl, ihr, Cmd.words, foldl_append]
  | list left right ihl ihr => rw [nulterminate, ihl, ihr, Cmd.words, foldl_append]
  | back cmd ih => rw [nulterminate, ih, Cmd.words]

theorem foldl_terminate (words : List Word) (buf : Buf) (i : ℕ) :
    words.foldl terminate buf i = if ∃ w ∈ words, w.eq = i then 0 else buf i := by
  induction words generalizing buf with
  | nil => simp
  | cons w words ih =>
    rw [foldl_cons, ih]
    by_cases hlater : ∃ w' ∈ words, w'.eq = i
    · obtain ⟨w', hw', heq⟩ := hlater
      rw [if_pos ⟨w', hw', heq⟩, if_pos ⟨w', mem_cons_of_mem w hw', heq⟩]
    rw [if_neg hlater]
    by_cases hw : w.eq = i
    · rw [if_pos ⟨w, mem_cons_self, hw⟩, terminate, hw, update_self]
    have hnone : ¬ ∃ w' ∈ w :: words, w'.eq = i := by
      rintro ⟨w', hw', heq⟩
      obtain rfl | hw' := mem_cons.mp hw'
      · exact hw heq
      · exact hlater ⟨w', hw', heq⟩
    rw [if_neg hnone, terminate, update_of_ne (Ne.symm hw)]

def text (line : List UInt8) (w : Word) : List UInt8 := (line.drop w.q).take (w.eq - w.q)

theorem Token.spec {w : Word} (h : Token line w) : w.eq ≤ line.length
    ∧ (∀ i, w.q ≤ i → i < w.eq → isWord (charAt line i)) ∧ w.q ≤ w.eq
    ∧ ¬ (w.eq < line.length ∧ isWord (charAt line w.eq)) := by
  obtain ⟨s, s', hs, hrun⟩ := h
  rw [gettoken_run] at hrun
  injection hrun with hrun
  injection hrun with hrun _
  injection hrun with hkind hw
  obtain ⟨heq, -, -⟩ := tokenAt_word hkind
  rw [heq] at hw
  subst hw
  exact ⟨skip_le (skip_le hs), fun i hi hlt => of_lt_skip hi hlt, le_skip,
    fun hend => not_of_skip hend.1 hend.2⟩

theorem not_end_of_isWord {i : ℕ} (h : isWord (charAt line i)) (hi : i < line.length)
    {words : List Word} (hwords : ∀ w ∈ words, Token line w) : ¬ ∃ w ∈ words, w.eq = i := by
  rintro ⟨w, hw, rfl⟩
  exact (hwords w hw).spec.2.2.2 ⟨hi, h⟩

theorem isString_word (hline : Clean line) {words : List Word} (hwords : ∀ w ∈ words, Token line w)
    {w : Word} (hw : w ∈ words) :
    IsString (words.foldl terminate (charAt line)) w.q (text line w) := by
  obtain ⟨hlen, hword, hle, -⟩ := (hwords w hw).spec
  have hsize : (text line w).length = w.eq - w.q := by
    rw [text, length_take, length_drop]
    omega
  refine ⟨fun i hi => ?_, ?_, fun x hx => ?_⟩
  · rw [hsize] at hi
    have hkept := not_end_of_isWord (hword (w.q + i) (by omega) (by omega)) (by omega) hwords
    rw [foldl_terminate, if_neg hkept, text, charAt]
    simp [getD_eq_getElem?_getD, getElem?_drop, hi]
  · rw [hsize, show w.q + (w.eq - w.q) = w.eq by omega, foldl_terminate, if_pos ⟨w, hw, rfl⟩]
  · exact hline x (mem_of_mem_drop (mem_of_mem_take hx))

theorem parsecmd_cases (hline : Clean line) : parsecmd line ≠ .error .bound
    ∧ ∀ cmd buf, parsecmd line = .ok (cmd, buf) →
      (∀ w ∈ cmd.words, Token line w) ∧ buf = nulterminate cmd (charAt line) := by
  have hspec := (parse_spec hline (4 * line.length + 4)).1 0 (Nat.zero_le _) (by omega)
  rcases hrun : parseline line (4 * line.length + 4) 0 with e | ⟨cmd, s⟩
  · have hparse : parsecmd line = .error e := by
      unfold parsecmd StateT.run
      rw [hrun]
      rfl
    rw [hparse]
    refine ⟨fun heq => hspec.of_error hrun (Except.error.inj heq), fun _ _ hok => ?_⟩
    cases hok
  obtain ⟨-, -, hwords⟩ := hspec.of_ok hrun
  have hparse : parsecmd line = if skip line isSpace s ≠ line.length then .error .badLine
      else .ok (cmd, nulterminate cmd (charAt line)) := by
    unfold parsecmd StateT.run
    rw [hrun]
    rfl
  rw [hparse]
  split
  · refine ⟨fun heq => ?_, fun _ _ hok => ?_⟩
    · cases heq
    · cases hok
  refine ⟨fun heq => ?_, fun cmd' buf hok => ?_⟩
  · cases heq
  · cases hok
    exact ⟨hwords, rfl⟩

/-- The parser reaches none of its bounds, and after `nulterminate` every word of the tree, read as
a C string from the buffer, is the text of the token that `gettoken` found. -/
theorem parsecmd_words (line : List UInt8) (hline : Clean line) :
    parsecmd line ≠ .error .bound ∧ ∀ cmd buf, parsecmd line = .ok (cmd, buf) →
      ∀ w ∈ cmd.words, Token line w ∧ cstr buf (line.length + 1) w.q = text line w := by
  obtain ⟨hbound, hcases⟩ := parsecmd_cases hline
  refine ⟨hbound, fun cmd buf hparse w hw => ?_⟩
  obtain ⟨hwords, rfl⟩ := hcases cmd buf hparse
  refine ⟨hwords w hw, ?_⟩
  rw [nulterminate_eq]
  refine (isString_word hline hwords hw).cstr_eq ?_
  rw [text, List.length_take, List.length_drop]
  omega

def touching : List UInt8 :=
  ['a'.toUInt8, '>'.toUInt8, 'b'.toUInt8, '|'.toUInt8, '('.toUInt8, 'c'.toUInt8, ')'.toUInt8]

/-- The three words of the line `a>b|(c)`. -/
theorem parsecmd_words_touching : (∃ buf, parsecmd touching
      = .ok (.pipe (.redir (.exec [⟨0, 1⟩]) ⟨⟨2, 3⟩, 0x601, 1⟩) (.exec [⟨5, 6⟩]), buf))
    ∧ parsecmd touching ≠ .error .bound ∧ ∀ cmd buf, parsecmd touching = .ok (cmd, buf) →
      ∀ w ∈ cmd.words, Token touching w ∧ cstr buf (touching.length + 1) w.q = text touching w := by
  refine ⟨?_, parsecmd_words touching (by simp [Clean, touching]; decide)⟩
  have h : (parsecmd touching).map Prod.fst
      = .ok (.pipe (.redir (.exec [⟨0, 1⟩]) ⟨⟨2, 3⟩, 0x601, 1⟩) (.exec [⟨5, 6⟩])) := by
    decide +kernel
  rcases hrun : parsecmd touching with e | ⟨cmd, buf⟩
  · rw [hrun] at h
    cases h
  · rw [hrun] at h
    cases h
    exact ⟨buf, rfl⟩

end Xv6.Shell

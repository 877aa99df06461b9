import Xv6.Param

/-!
# Printing an integer

`printint` of `kernel/printk.c` and of `user/printf.c`. Both write the digits of a `long long` from
the last one on into `char buf[20]`, put a sign after them and print the buffer backwards. A store
past the buffer, or a read past the table of digits, makes the model's function fail.

The digit loop writes what `Nat.digits` lists (`putDigits_spec`). Printed backwards, they are the
numeral of the value: `printint_numeral`.

## Main results

* `printint_numeral`: both versions print the numeral of the value
-/

namespace Xv6.Lib

/-- `char buf[20]`. -/
abbrev CharBuf := Vector Char 20

/-- `buf[i++] = c`. -/
def store (c : Char) (r : ℕ × CharBuf) : Option (ℕ × CharBuf) :=
  if h : r.1 < 20 then some (r.1 + 1, r.2.set r.1 c h) else none

/-- `do buf[i++] = digits[x % base]; while ((x /= base) != 0)`. -/
def putDigits (digits : List Char) (base x : BitVec 64) (i : ℕ) (buf : CharBuf) :
    Option (ℕ × CharBuf) :=
  if h : i < 20 then
    digits[(x % base).toNat]?.bind fun c =>
      if x / base = 0 then some (i + 1, buf.set i c h)
      else putDigits digits base (x / base) (i + 1) (buf.set i c h)
  else none
termination_by 20 - i

/-- `while (--i >= 0) putc(buf[i])`: the characters in the order in which they are printed. -/
def emit (buf : CharBuf) : ℕ → Option (List Char)
  | 0 => some []
  | i + 1 => buf[i]?.bind fun c => (emit buf i).map (c :: ·)

/-- What follows the choice of `x` in both versions. -/
def putNumeral (digits : List Char) (base x : BitVec 64) (neg : Prop) [Decidable neg]
    (buf : CharBuf) : Option (List Char) :=
  (putDigits digits base x 0 buf).bind fun r =>
    (if neg then store '-' r else some r).bind fun r => emit r.2 r.1

namespace Kernel

def digits : List Char := "0123456789abcdef".toList

/-- `printint` of `printk.c`. The test `sign && (sign = (xx < 0))` leaves in `sign` whether a sign
is printed. -/
def printint (buf : CharBuf) (xx : BitVec 64) (base sign : BitVec 32) : Option (List Char) :=
  let sign := if sign ≠ 0#32 then (if xx.slt 0#64 then 1#32 else 0#32) else sign
  let x := if sign ≠ 0#32 then -xx else xx
  putNumeral digits (base.signExtend 64) x (sign ≠ 0#32) buf

end Kernel

namespace User

def digits : List Char := "0123456789ABCDEF".toList

/-- `printint` of `printf.c`. The characters go to the descriptor that `putc` is called with. -/
def printint (buf : CharBuf) (xx : BitVec 64) (base sgn : BitVec 32) : Option (List Char) :=
  let neg : Bool := sgn ≠ 0#32 && xx.slt 0#64
  let x := if neg then -xx else xx
  putNumeral digits (base.signExtend 64) x neg buf

end User

/-! ## Numerals -/

/-- What the digit `c` stands for. Its case does not matter. -/
def digitVal (c : Char) : ℕ := Kernel.digits.idxOf c.toLower

/-- The digits of a numeral, without its sign. -/
def magnitude (s : List Char) : List Char := if s.head? = some '-' then s.tail else s

def readDigits (base : ℕ) (s : List Char) : ℕ := s.foldl (fun n c => n * base + digitVal c) 0

/-- The number that a numeral stands for. -/
def readBack (base : ℕ) (s : List Char) : ℤ :=
  if s.head? = some '-' then -(readDigits base (magnitude s)) else readDigits base (magnitude s)

/-- The string `s` is the one way to write `v`: a sign exactly if `v` is negative, then the digits
of its magnitude, of which the first is zero only if it is the only one. -/
structure IsNumeral (base : ℕ) (v : ℤ) (s : List Char) : Prop where
  sign : s.head? = some '-' ↔ v < 0
  digit : ∀ c ∈ magnitude s, digitVal c < base
  ne_nil : magnitude s ≠ []
  leading : (magnitude s).head? = some '0' → magnitude s = ['0']
  value : readBack base s = v

/-- A table of the sixteen digits. -/
structure IsDigits (digits : List Char) : Prop where
  length : digits.length = 16
  val : ∀ d < 16, digitVal (digits.getD d '0') = d
  ne_minus : ∀ d < 16, digits.getD d '0' ≠ '-'

theorem isDigits_kernel : IsDigits Kernel.digits where
  length := rfl
  val := by decide
  ne_minus := by decide

theorem isDigits_user : IsDigits User.digits where
  length := rfl
  val := by decide
  ne_minus := by decide

/-- The digits of `x`, the last one first. -/
def lowFirst (b x : ℕ) : List ℕ := if x = 0 then [0] else b.digits x

section Digits

variable {b x : ℕ}

theorem lowFirst_step (hb : 1 < b) :
    lowFirst b x = if x / b = 0 then [x % b] else x % b :: lowFirst b (x / b) := by
  unfold lowFirst
  by_cases hx : x = 0
  · simp [hx]
  rw [if_neg hx, Nat.digits_def' hb (Nat.pos_of_ne_zero hx)]
  by_cases hq : x / b = 0
  · simp [hq]
  · rw [if_neg hq, if_neg hq]

theorem lowFirst_lt (hb : 1 < b) {d : ℕ} (hd : d ∈ lowFirst b x) : d < b := by
  unfold lowFirst at hd
  split_ifs at hd with hx
  · rw [List.mem_singleton.1 hd]
    omega
  · exact Nat.digits_lt_base hb hd

theorem lowFirst_ne_nil : lowFirst b x ≠ [] := by
  unfold lowFirst
  split_ifs with hx
  · exact List.cons_ne_nil _ _
  · exact Nat.digits_ne_nil_iff_ne_zero.2 hx

theorem ofDigits_lowFirst : Nat.ofDigits b (lowFirst b x) = x := by
  unfold lowFirst
  split_ifs with hx
  · simp [hx]
  · exact Nat.ofDigits_digits b x

theorem getLast_lowFirst (h : (lowFirst b x).getLast? = some 0) : lowFirst b x = [0] := by
  unfold lowFirst at h ⊢
  split_ifs at h ⊢ with hx
  · rfl
  · rw [List.getLast?_eq_getLast_of_ne_nil (Nat.digits_ne_nil_iff_ne_zero.2 hx)] at h
    exact absurd (Option.some.inj h) (Nat.getLast_digit_ne_zero b hx)

theorem length_lowFirst_le (hb : 1 < b) {k : ℕ} (hk : 0 < k) (hx : x < b ^ k) :
    (lowFirst b x).length ≤ k := by
  unfold lowFirst
  split_ifs
  · exact hk
  · exact (Nat.digits_length_le_iff hb x).2 hx

end Digits

/-! ## The buffer -/

section Buffer

variable {buf : CharBuf} {c : Char} {i : ℕ}

theorem emit_set_of_le {j : ℕ} (hj : j ≤ i) (h : i < 20) : emit (buf.set i c h) j = emit buf j := by
  induction j with
  | zero => rfl
  | succ j ih =>
    have hne : (buf.set i c h)[j]? = buf[j]? := Vector.getElem?_set_ne _ (by omega)
    rw [emit, emit, ih (by omega), hne]

/-- The character stored last is printed first. -/
theorem emit_set (h : i < 20) : emit (buf.set i c h) (i + 1) = (emit buf i).map (c :: ·) := by
  have hself : (buf.set i c h)[i]? = some c := Vector.getElem?_set_self _
  rw [emit, hself, emit_set_of_le le_rfl h]
  rfl

variable {digits : List Char}

/-- The loop stores the digits of `x` after what is in the buffer, if there is room for them. -/
theorem putDigits_spec (hdigits : IsDigits digits) (buf : CharBuf) {base x : BitVec 64}
    (hb : 1 < base.toNat) (hb' : base.toNat ≤ 16)
    (hroom : i + (lowFirst base.toNat x.toNat).length ≤ 20) :
    ∃ buf', putDigits digits base x i buf = some (i + (lowFirst base.toNat x.toNat).length, buf') ∧
      emit buf' (i + (lowFirst base.toNat x.toNat).length) = (emit buf i).map
        (((lowFirst base.toNat x.toNat).map (digits.getD · '0')).reverse ++ ·) := by
  induction hl : lowFirst base.toNat x.toNat generalizing x i buf with
  | nil => exact absurd hl lowFirst_ne_nil
  | cons d l ih =>
    have hi : i < 20 := by
      rw [hl, List.length_cons] at hroom
      omega
    have hstep := lowFirst_step (x := x.toNat) hb
    have hd : x.toNat % base.toNat < digits.length := by
      have := Nat.mod_lt x.toNat (show 0 < base.toNat by omega)
      rw [hdigits.length]
      omega
    have hget : digits[(x % base).toNat]? = some (digits.getD (x.toNat % base.toNat) '0') := by
      rw [BitVec.toNat_umod, List.getElem?_eq_getElem hd, List.getD_eq_getElem _ _ hd]
    rw [putDigits, dif_pos hi, hget, Option.bind_some]
    have hquot : x / base = 0 ↔ x.toNat / base.toNat = 0 := by
      rw [← BitVec.toNat_udiv]
      exact BitVec.toNat_inj.symm
    by_cases hq : x / base = 0
    · rw [if_pos (hquot.1 hq), hl, List.cons.injEq] at hstep
      obtain ⟨rfl, rfl⟩ := hstep
      rw [if_pos hq]
      exact ⟨_, rfl, by rw [List.length_singleton, emit_set]; rfl⟩
    rw [if_neg (hquot.not.1 hq), hl, List.cons.injEq, ← BitVec.toNat_udiv] at hstep
    obtain ⟨rfl, rfl⟩ := hstep
    rw [if_neg hq]
    have hroom' : i + 1 + (lowFirst base.toNat (x / base).toNat).length ≤ 20 := by
      rw [hl, List.length_cons] at hroom
      omega
    obtain ⟨buf', hput, hemit⟩ :=
      ih (buf.set i (digits.getD (x.toNat % base.toNat) '0') hi) hroom' rfl
    have hlen (m : ℕ) : i + 1 + m = i + (m + 1) := by omega
    rw [hlen] at hput hemit
    refine ⟨buf', hput, ?_⟩
    rw [List.length_cons, hemit, emit_set, Option.map_map]
    congr 1
    funext s
    simp

end Buffer

/-! ## The numeral -/

section Numeral

variable {digits : List Char} {b x : ℕ}

/-- The digits as they are printed. -/
def numeral (digits : List Char) (b x : ℕ) : List Char :=
  ((lowFirst b x).map (digits.getD · '0')).reverse

theorem mem_numeral {c : Char} (hc : c ∈ numeral digits b x) :
    ∃ d ∈ lowFirst b x, digits.getD d '0' = c := by simpa [numeral] using hc

theorem readDigits_reverse (hdigits : IsDigits digits) {l : List ℕ} (hl : ∀ d ∈ l, d < 16) :
    readDigits b (l.map (digits.getD · '0')).reverse = Nat.ofDigits b l := by
  rw [readDigits, List.foldl_reverse]
  induction l with
  | nil => rfl
  | cons d l ih =>
    rw [List.map_cons, List.foldr_cons, ih fun d hd => hl d (List.mem_cons_of_mem _ hd),
      hdigits.val d (hl d List.mem_cons_self), Nat.ofDigits_cons]
    ring

theorem isNumeral_of_natAbs (hdigits : IsDigits digits) (hb : 1 < b) (hb' : b ≤ 16) (v : ℤ) :
    IsNumeral b v (if v < 0 then '-' :: numeral digits b v.natAbs
      else numeral digits b v.natAbs) := by
  have hlt {d : ℕ} (hd : d ∈ lowFirst b v.natAbs) : d < b := lowFirst_lt hb hd
  have hne : numeral digits b v.natAbs ≠ [] := by simp [numeral, lowFirst_ne_nil]
  have hhead : (numeral digits b v.natAbs).head? ≠ some '-' := by
    intro h
    obtain ⟨d, hd, hc⟩ := mem_numeral (List.mem_of_mem_head? h)
    exact hdigits.ne_minus d (by have := hlt hd; omega) hc
  have hmag : magnitude (if v < 0 then '-' :: numeral digits b v.natAbs
      else numeral digits b v.natAbs) = numeral digits b v.natAbs := by
    unfold magnitude
    split_ifs <;> simp_all
  have hread : (readDigits b (numeral digits b v.natAbs) : ℤ) = |v| := by
    rw [numeral, readDigits_reverse hdigits fun d hd => (hlt hd).trans_le hb', ofDigits_lowFirst,
      Int.natCast_natAbs]
  constructor
  · split_ifs with hv
    · simp [hv]
    · simp [hv, hhead]
  · rw [hmag]
    intro c hc
    obtain ⟨d, hd, rfl⟩ := mem_numeral hc
    rw [hdigits.val d (by have := hlt hd; omega)]
    exact hlt hd
  · rwa [hmag]
  · rw [hmag]
    intro h
    obtain ⟨d, hd, hzero⟩ : ∃ d, (lowFirst b v.natAbs).getLast? = some d ∧
        digits.getD d '0' = '0' := by simpa [numeral, List.head?_reverse] using h
    have hval := hdigits.val d (by have := hlt (List.mem_of_getLast? hd); omega)
    have h0 : digitVal '0' = 0 := by decide
    rw [hzero, h0] at hval
    subst hval
    rw [numeral, getLast_lowFirst hd, List.map_singleton, hzero, List.reverse_singleton]
  rw [readBack, hmag, hread]
  rcases lt_or_ge v 0 with hv | hv
  · rw [if_pos hv, List.head?_cons, if_pos rfl, abs_of_neg hv, neg_neg]
  · rw [if_neg (not_lt.2 hv), if_neg hhead, abs_of_nonneg hv]

theorem putNumeral_spec (hdigits : IsDigits digits) {base x : BitVec 64} (neg : Prop)
    [Decidable neg] (buf : CharBuf) (hb : 1 < base.toNat) (hb' : base.toNat ≤ 16)
    (hroom : (lowFirst base.toNat x.toNat).length + (if neg then 1 else 0) ≤ 20) :
    putNumeral digits base x neg buf = some (if neg then '-' :: numeral digits base.toNat x.toNat
      else numeral digits base.toNat x.toNat) := by
  obtain ⟨buf', hput, hemit⟩ := putDigits_spec (x := x) (i := 0) hdigits buf hb hb' (by omega)
  rw [Nat.zero_add] at hput hemit
  have hnum : emit buf' (lowFirst base.toNat x.toNat).length =
      some (numeral digits base.toNat x.toNat) := by
    rw [hemit, emit, Option.map_some, List.append_nil, numeral]
  rw [putNumeral, hput, Option.bind_some]
  split_ifs at hroom ⊢ with hneg
  · have hlt : (lowFirst base.toNat x.toNat).length < 20 := by omega
    rw [store, dif_pos hlt, Option.bind_some, emit_set, hnum, Option.map_some]
  · rw [Option.bind_some, hnum]

end Numeral

/-! ## Both versions -/

section Printint

variable {buf : CharBuf} {xx : BitVec 64} {base sign : BitVec 32}

/-- The number that `printint` is to print: `xx` as a signed number if `sign` is set. -/
def intValue (xx : BitVec 64) (sign : BitVec 32) : ℤ :=
  if sign ≠ 0#32 then xx.toInt else xx.toNat

/-- The number that the digits are taken from. At `-2^63` it is its own negation, read without a
sign. -/
def absolute (xx : BitVec 64) (sign : BitVec 32) : BitVec 64 :=
  if intValue xx sign < 0 then -xx else xx

theorem intValue_neg_iff : intValue xx sign < 0 ↔ sign ≠ 0#32 ∧ xx.slt 0#64 = true := by
  unfold intValue
  by_cases hsign : sign = 0#32
  · simp [hsign]
  · simp [hsign, BitVec.slt]

theorem kernel_printint_eq : Kernel.printint buf xx base sign = putNumeral Kernel.digits
    (base.signExtend 64) (absolute xx sign) (intValue xx sign < 0) buf := by
  by_cases hsign : sign = 0#32
  · simp [Kernel.printint, absolute, intValue_neg_iff, hsign]
  · cases hslt : xx.slt 0#64 <;> simp [Kernel.printint, absolute, intValue_neg_iff, hsign, hslt]

theorem user_printint_eq : User.printint buf xx base sign = putNumeral User.digits
    (base.signExtend 64) (absolute xx sign) (intValue xx sign < 0) buf := by
  by_cases hsign : sign = 0#32
  · simp [User.printint, absolute, intValue_neg_iff, hsign]
  · cases hslt : xx.slt 0#64 <;> simp [User.printint, absolute, intValue_neg_iff, hsign, hslt]

theorem toNat_absolute : (absolute xx sign).toNat = (intValue xx sign).natAbs := by
  unfold absolute
  have hint := BitVec.toInt_eq_toNat_cond xx
  split_ifs with hneg
  · have hsign := (intValue_neg_iff.1 hneg).1
    rw [intValue, if_pos hsign] at hneg ⊢
    rw [BitVec.toNat_neg]
    have := xx.isLt
    split_ifs at hint <;> omega
  by_cases hsign : sign = 0#32
  · simp [intValue, hsign]
  · rw [intValue, if_pos hsign] at hneg ⊢
    have := xx.isLt
    split_ifs at hint <;> omega

theorem natAbs_lt_of_neg (h : intValue xx sign < 0) : (intValue xx sign).natAbs < 10 ^ 19 := by
  have hsign := (intValue_neg_iff.1 h).1
  rw [intValue, if_pos hsign] at h ⊢
  have := BitVec.le_toInt xx
  omega

/-- Twenty digits are enough for every number, and nineteen for one that has a sign. -/
theorem length_add_sign_le (hb : base = 10 ∨ base = 16) :
    (lowFirst base.toNat (intValue xx sign).natAbs).length +
      (if intValue xx sign < 0 then 1 else 0) ≤ 20 := by
  have hbase : 10 ≤ base.toNat := by rcases hb with rfl | rfl <;> decide
  have hlen {k : ℕ} (hk : 0 < k) (hlt : (intValue xx sign).natAbs < 10 ^ k) :
      (lowFirst base.toNat (intValue xx sign).natAbs).length ≤ k :=
    length_lowFirst_le (by omega) hk (hlt.trans_le (Nat.pow_le_pow_left hbase k))
  split_ifs with hneg
  · have := hlen (by omega) (natAbs_lt_of_neg hneg)
    omega
  have hlt : (intValue xx sign).natAbs < 10 ^ 20 := by
    rw [← toNat_absolute]
    exact (absolute xx sign).isLt.trans (by norm_num)
  exact hlen (by omega) hlt

theorem printed (hb : base = 10 ∨ base = 16) {digits : List Char} (hdigits : IsDigits digits) :
    putNumeral digits (base.signExtend 64) (absolute xx sign) (intValue xx sign < 0) buf =
      some (if intValue xx sign < 0 then '-' :: numeral digits base.toNat (intValue xx sign).natAbs
        else numeral digits base.toNat (intValue xx sign).natAbs) := by
  have hbase : (base.signExtend 64).toNat = base.toNat := by rcases hb with rfl | rfl <;> decide
  have hrange : 1 < base.toNat ∧ base.toNat ≤ 16 := by rcases hb with rfl | rfl <;> decide
  have hspec := putNumeral_spec (x := absolute xx sign) hdigits (intValue xx sign < 0) buf
    (hbase ▸ hrange.1) (hbase ▸ hrange.2)
  rw [hbase, toNat_absolute] at hspec
  exact hspec (length_add_sign_le hb)

theorem toLower_digits : ∀ d < 16, (User.digits.getD d '0').toLower = Kernel.digits.getD d '0' := by
  decide

theorem toLower_numeral {b x : ℕ} (hb : 1 < b) (hb' : b ≤ 16) :
    (numeral User.digits b x).map Char.toLower = numeral Kernel.digits b x := by
  rw [numeral, numeral, List.map_reverse, List.map_map]
  congr 1
  apply List.map_congr_left
  intro d hd
  exact toLower_digits d ((lowFirst_lt hb hd).trans_le hb')

/-- **Both versions of `printint` print the numeral of the value**, whatever the buffer held. They
store nothing past it, and their numerals differ in the case of the digits only. -/
theorem printint_numeral (buf buf' : CharBuf) (xx : BitVec 64) (base sign : BitVec 32)
    (hb : base = 10 ∨ base = 16) :
    ∃ s t, Kernel.printint buf xx base sign = some s ∧ User.printint buf' xx base sign = some t ∧
      IsNumeral base.toNat (intValue xx sign) s ∧ IsNumeral base.toNat (intValue xx sign) t ∧
      t.map Char.toLower = s := by
  have hrange : 1 < base.toNat ∧ base.toNat ≤ 16 := by
    rcases hb with rfl | rfl <;> decide
  refine ⟨_, _, kernel_printint_eq.trans (printed hb isDigits_kernel),
    user_printint_eq.trans (printed hb isDigits_user),
    isNumeral_of_natAbs isDigits_kernel hrange.1 hrange.2 _,
    isNumeral_of_natAbs isDigits_user hrange.1 hrange.2 _, ?_⟩
  have hlower := toLower_numeral (x := (intValue xx sign).natAbs) hrange.1 hrange.2
  split_ifs with hneg
  · rw [List.map_cons, hlower]
    rfl
  · exact hlower

/-- The number with the longest numeral that has a sign. -/
theorem printint_numeral_min :
    ∃ s t, Kernel.printint (Vector.replicate 20 'x') (BitVec.intMin 64) 10 1 = some s ∧
      User.printint (Vector.replicate 20 'y') (BitVec.intMin 64) 10 1 = some t ∧
      IsNumeral 10 (-2 ^ 63) s ∧ IsNumeral 10 (-2 ^ 63) t ∧ t.map Char.toLower = s := by
  have hvalue : intValue (BitVec.intMin 64) 1 = -2 ^ 63 := by decide
  have h := printint_numeral (Vector.replicate 20 'x') (Vector.replicate 20 'y')
    (BitVec.intMin 64) 10 1 (Or.inl rfl)
  rwa [hvalue] at h

end Printint

end Xv6.Lib

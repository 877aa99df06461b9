import Xv6.Vm.Code

/-!
# copyinstr

`copyinstr` copies a string page by page until it meets a null, an address that is not mapped for
the user, or the end of the buffer.

## Main results

* `copyinstr_reads`: `copyinstr` for every page table, address and buffer size
-/

namespace Xv6.Vm

open List Bytes

variable {s : Mem} {pt : PageTable}

def userByte (s : Mem) (pt : PageTable) (a : ℕ) : Option UInt8 :=
  (walkaddr pt (pgrounddown a)).map fun pa => s.data pa (a % PGSIZE)

/-- The string from address `a` on: the bytes `str` without a null, and behind them a null, an
address that is not mapped, or `max`. -/
structure Scan (s : Mem) (pt : PageTable) (a max : ℕ) (str : List UInt8) (found : Bool) : Prop where
  bytes : ∀ j < str.length, userByte s pt (u64 (a + j)) = str[j]?
  ne_zero : ∀ x ∈ str, x ≠ 0
  le_max : str.length ≤ max
  null : found = true → str.length < max ∧ userByte s pt (u64 (a + str.length)) = some 0
  stop : found = false → str.length = max ∨ userByte s pt (u64 (a + str.length)) = none

theorem Scan.nil {a max : ℕ} (h : max = 0 ∨ userByte s pt (u64 a) = none) :
    Scan s pt a max [] false where
  bytes j hj := by simp at hj
  ne_zero x hx := by simp at hx
  le_max := Nat.zero_le _
  null hf := by cases hf
  stop _ := by
    rw [length_nil, Nat.add_zero]
    exact h.imp_left Eq.symm

theorem Scan.append {a a' max : ℕ} {bytes str : List UInt8} {found : Bool}
    (hbytes : ∀ j < bytes.length, userByte s pt (u64 (a + j)) = bytes[j]?)
    (hne : ∀ x ∈ bytes, x ≠ 0) (hlen : bytes.length ≤ max)
    (h : Scan s pt a' (max - bytes.length) str found)
    (ha : bytes.length < max → a' = a + bytes.length) : Scan s pt a max (bytes ++ str) found := by
  have hmove : str.length < max - bytes.length → ∀ j, a + (bytes.length + j) = a' + j := by
    intro hlt j
    rw [ha (by omega)]
    omega
  have hle := h.le_max
  constructor
  case bytes =>
    intro j hj
    rw [length_append] at hj
    by_cases hlt : j < bytes.length
    · rw [getElem?_append_left hlt]
      exact hbytes j hlt
    rw [getElem?_append_right (by omega), ← h.bytes (j - bytes.length) (by omega),
      ha (by omega)]
    congr 2
    omega
  case ne_zero =>
    intro x hx
    rcases mem_append.mp hx with hx | hx
    · exact hne x hx
    · exact h.ne_zero x hx
  case le_max =>
    rw [length_append]
    omega
  case null =>
    intro hf
    obtain ⟨hlt, hnull⟩ := h.null hf
    rw [length_append]
    refine ⟨by omega, ?_⟩
    rw [hmove hlt]
    exact hnull
  case stop =>
    intro hf
    rw [length_append]
    rcases h.stop hf with heq | hnone
    · exact .inl (by omega)
    rcases Nat.lt_or_ge str.length (max - bytes.length) with hlt | hge
    · rw [hmove hlt]
      exact .inr hnone
    · exact .inl (by omega)

theorem Scan.unique {s' : Mem} {pt' : PageTable} {a max : ℕ} {str str' : List UInt8}
    {found found' : Bool} (h : Scan s pt a max str found) (h' : Scan s' pt' a max str' found')
    (hsame : ∀ j < max, (∀ i < j, userByte s pt (u64 (a + i)) ≠ some 0) →
      userByte s' pt' (u64 (a + j)) = userByte s pt (u64 (a + j))) :
    str' = str ∧ found' = found := by
  have hnz : ∀ j < str.length, userByte s pt (u64 (a + j)) ≠ some 0 := by
    intro j hj heq
    rw [h.bytes j hj, getElem?_eq_getElem hj, Option.some.injEq] at heq
    exact h.ne_zero _ (getElem_mem hj) heq
  have hle := h.le_max
  have hle' := h'.le_max
  -- Neither scan can be shorter: the byte behind the shorter one decides.
  have hlen : str'.length = str.length := by
    rcases Nat.lt_trichotomy str'.length str.length with hlt | heq | hlt
    · have hbyte := hsame str'.length (by omega) fun i hi => hnz i (by omega)
      rw [h.bytes _ hlt, getElem?_eq_getElem hlt] at hbyte
      rcases hf : found' with _ | _
      · rcases h'.stop hf with hmax | hnone
        · omega
        · rw [hnone] at hbyte
          cases hbyte
      · rw [(h'.null hf).2, Option.some.injEq] at hbyte
        exact absurd hbyte.symm (h.ne_zero _ (getElem_mem hlt))
    · exact heq
    have hbyte := hsame str.length (by omega) hnz
    rw [h'.bytes _ hlt, getElem?_eq_getElem hlt] at hbyte
    rcases hf : found with _ | _
    · rcases h.stop hf with hmax | hnone
      · omega
      · rw [hnone] at hbyte
        cases hbyte
    · rw [(h.null hf).2, Option.some.injEq] at hbyte
      exact absurd hbyte (h'.ne_zero _ (getElem_mem hlt))
  have hstr : str' = str := by
    refine ext_getElem? fun j => ?_
    rcases Nat.lt_or_ge j str.length with hj | hj
    · rw [← h.bytes j hj, ← h'.bytes j (by omega)]
      exact hsame j (by omega) fun i hi => hnz i (by omega)
    · rw [getElem?_eq_none hj, getElem?_eq_none (by omega)]
  refine ⟨hstr, ?_⟩
  rcases Nat.lt_or_ge str.length max with hlt | hge
  · have hbyte := hsame str.length hlt hnz
    have hcase : ∀ {t : Mem} {r : PageTable} {l : List UInt8} {f : Bool}, Scan t r a max l f →
        l.length = str.length → (f = true ↔ userByte t r (u64 (a + str.length)) = some 0) := by
      intro t r l f hscan hl
      rw [← hl]
      constructor
      · exact fun hf => (hscan.null hf).2
      intro hzero
      by_contra hf
      rcases hscan.stop (by simpa using hf) with hmax | hnone
      · omega
      · rw [hnone] at hzero
        cases hzero
    have hiff := hcase h rfl
    have hiff' := hcase h' hlen
    rw [hbyte, ← hiff] at hiff'
    exact Bool.eq_iff_iff.mpr hiff'
  have hfalse : ∀ {t : Mem} {r : PageTable} {l : List UInt8} {f : Bool}, Scan t r a max l f →
      l.length = str.length → f = false := by
    intro t r l f hscan hl
    by_contra hf
    have := (hscan.null (by simpa using hf)).1
    omega
  rw [hfalse h rfl, hfalse h' hlen]

theorem userByte_page {a pa n j : ℕ} (hpa : walkaddr pt (pgrounddown a) = some pa)
    (hn : n ≤ PGSIZE - (a - pgrounddown a)) (hj : j < n) :
    userByte s pt (u64 (a + j)) = ((s.data pa).read (a - pgrounddown a) n)[j]? := by
  have hlt : pgrounddown a < MAXVA := by
    by_contra hge
    rw [walkaddr, if_pos (by omega)] at hpa
    cases hpa
  have haddr : u64 (a + j) = a + j := by
    unfold u64 pgrounddown MAXVA PGSIZE at *
    omega
  have hround : pgrounddown (a + j) = pgrounddown a := by
    unfold pgrounddown PGSIZE at *
    omega
  have hoff : (a + j) % PGSIZE = a - pgrounddown a + j := by
    unfold pgrounddown PGSIZE at *
    omega
  rw [userByte, haddr, hround, hpa, Option.map_some, hoff]
  simp [Bytes.read, hj]

theorem getElem?_length_takeWhile {l : List UInt8} (h : (l.takeWhile (· ≠ 0)).length < l.length) :
    l[(l.takeWhile (· ≠ 0)).length]? = some 0 := by
  induction l with
  | nil => simp at h
  | cons x l ih =>
    by_cases hx : x = 0
    · simp [hx]
    have hcons : (x :: l).takeWhile (· ≠ 0) = x :: l.takeWhile (· ≠ 0) := by
      rw [takeWhile_cons, if_pos (by simpa using hx)]
    rw [hcons, length_cons, length_cons] at h
    rw [hcons, length_cons, getElem?_cons_succ]
    exact ih (by omega)

theorem copyinstrLoop_scan (s : Mem) (pt : PageTable) {k a max : ℕ} (hk : max ≤ k)
    (ha : a < 2 ^ 64) :
    ∃ str found, Scan s pt a max str found ∧ ∀ dst pos, copyinstrLoop s pt k a max dst pos =
      (dst.write pos (if found then str ++ [0] else str), found) := by
  have hnil : ∀ (b : Bytes) pos, b.write pos [] = b := by
    intro b pos
    funext i
    rw [Bytes.write, if_neg (by simp)]
  induction k generalizing a max with
  | zero =>
    refine ⟨[], false, .nil (.inl (Nat.le_zero.mp hk)), fun dst pos => ?_⟩
    simp [copyinstrLoop, hnil]
  | succ k ih =>
    by_cases hmax : max = 0
    · refine ⟨[], false, .nil (.inl hmax), fun dst pos => ?_⟩
      simp [copyinstrLoop, hmax, hnil]
    rcases hpa : walkaddr pt (pgrounddown a) with _ | pa
    · refine ⟨[], false, .nil (.inr ?_), fun dst pos => ?_⟩
      · rw [userByte, show u64 a = a from Nat.mod_eq_of_lt ha, hpa, Option.map_none]
      · simp [copyinstrLoop, hmax, hpa, hnil]
    have hlow : pgrounddown a < MAXVA := by
      by_contra hge
      rw [walkaddr, if_pos (by omega)] at hpa
      cases hpa
    have hoff : a - pgrounddown a < PGSIZE := by
      unfold pgrounddown PGSIZE
      omega
    set n := min (PGSIZE - (a - pgrounddown a)) max with hn
    set bytes := (s.data pa).read (a - pgrounddown a) n with hbytes
    have hlen : bytes.length = n := by simp [hbytes, Bytes.read]
    have hbyte : ∀ j < n, userByte s pt (u64 (a + j)) = bytes[j]? :=
      fun j hj => userByte_page hpa (by omega) hj
    have hle : (bytes.takeWhile (· ≠ 0)).length ≤ n := by
      rw [← hlen]
      exact (List.takeWhile_prefix _).length_le
    have hget : ∀ j < (bytes.takeWhile (· ≠ 0)).length,
        bytes[j]? = (bytes.takeWhile (· ≠ 0))[j]? := by
      intro j hj
      have happ : (bytes.takeWhile (· ≠ 0) ++ bytes.dropWhile (· ≠ 0))[j]? =
          (bytes.takeWhile (· ≠ 0))[j]? := List.getElem?_append_left hj
      rwa [List.takeWhile_append_dropWhile] at happ
    have hne : ∀ x ∈ bytes.takeWhile (· ≠ 0), x ≠ 0 := by
      intro x hx
      simpa using List.mem_takeWhile_imp hx
    by_cases hstr : (bytes.takeWhile (· ≠ 0)).length < n
    · refine ⟨bytes.takeWhile (· ≠ 0), true, ⟨fun j hj => ?_, hne, by omega,
        fun _ => ⟨by omega, ?_⟩, fun hf => by cases hf⟩, fun dst pos => ?_⟩
      · rw [hbyte j (by omega)]
        exact hget j hj
      · rw [hbyte _ hstr]
        exact getElem?_length_takeWhile (by omega)
      · rw [copyinstrLoop, if_neg hmax, hpa]
        exact if_pos hstr
    have hall : bytes.takeWhile (· ≠ 0) = bytes :=
      (List.takeWhile_prefix _).eq_of_length (by omega)
    rw [hall] at hne
    have hnext : u64 (pgrounddown a + PGSIZE) = pgrounddown a + PGSIZE := by
      unfold u64 MAXVA PGSIZE at *
      omega
    obtain ⟨str, found, hscan, heq⟩ := @ih (pgrounddown a + PGSIZE) (max - n) (by omega)
      (by unfold MAXVA PGSIZE at *; omega)
    refine ⟨bytes ++ str, found, ?_, fun dst pos => ?_⟩
    · refine Scan.append (fun j hj => hbyte j (by omega)) hne (by omega) (hlen ▸ hscan)
        fun hlt => ?_
      have hround : pgrounddown a ≤ a := by
        unfold pgrounddown PGSIZE
        omega
      omega
    rw [copyinstrLoop, if_neg hmax, hpa]
    refine (if_neg hstr).trans ?_
    rw [← hn, ← hbytes, hnext, heq, ← hlen, Bytes.write_write]
    cases found <;> simp

theorem Bytes.read_write {str : List UInt8} {max : ℕ} (hlt : str.length < max) (b : Bytes) :
    (b.write 0 (str ++ [0])).read 0 max = str ++ 0 ::
      (range' (str.length + 1) (max - str.length - 1)).map (b.write 0 (str ++ [0])) := by
  have hsplit : range' 0 max = range' 0 str.length ++
      (str.length :: range' (str.length + 1) (max - str.length - 1)) := by
    have hmax : max = str.length + ((max - str.length - 1) + 1) := by omega
    rw [hmax, ← range'_append_1, range'_succ]
    simp
  rw [read, hsplit, map_append, map_cons]
  congr 1
  · refine ext_getElem (by simp) fun i h1 h2 => ?_
    simp [write, getElem?_append_left h2, h2]
    omega
  · congr 1
    simp [write]

theorem takeWhile_read_write {str : List UInt8} {max : ℕ} (hne : ∀ x ∈ str, x ≠ 0)
    (hlt : str.length < max) (b : Bytes) :
    ((b.write 0 (str ++ [0])).read 0 max).takeWhile (· ≠ 0) = str := by
  rw [read_write hlt, takeWhile_append_of_pos (by simpa using hne)]
  simp

/-- The string at `a` ends at `a + k` within `max` bytes, and every page up to there is mapped for
the user. -/
def FirstNull (s : Mem) (pt : PageTable) (a max k : ℕ) : Prop :=
  k < max ∧ userByte s pt (u64 (a + k)) = some 0 ∧
    ∀ j < k, ∃ c, userByte s pt (u64 (a + j)) = some c ∧ c ≠ 0

/-- **`copyinstr`** for any page table, address and buffer size. -/
theorem copyinstr_reads (s : Mem) (p : Space) (a max : ℕ) (ha : a < 2 ^ 64) (dst : Bytes) :
    ((copyinstr s p.pagetable dst a max).2 = true ↔ ∃ k, FirstNull s p.pagetable a max k) ∧
    (∀ k, FirstNull s p.pagetable a max k →
      (∀ j ≤ k, userByte s p.pagetable (u64 (a + j)) =
        some ((copyinstr s p.pagetable dst a max).1 j)) ∧
      (fetchstr s p a dst max).2 = some k) ∧
    (∀ k, max ≤ k → (copyinstr s p.pagetable dst a max).1 k = dst k) ∧
    ∀ t : Mem, (∀ j < max, (∀ i < j, userByte s p.pagetable (u64 (a + i)) ≠ some 0) →
        userByte t p.pagetable (u64 (a + j)) = userByte s p.pagetable (u64 (a + j))) →
      copyinstr t p.pagetable dst a max = copyinstr s p.pagetable dst a max := by
  obtain ⟨str, found, hscan, heq⟩ := copyinstrLoop_scan s p.pagetable (le_refl max) ha
  have hrun : copyinstr s p.pagetable dst a max =
      (dst.write 0 (if found then str ++ [0] else str), found) := heq dst 0
  have hbyte : ∀ j < str.length, ∃ c, userByte s p.pagetable (u64 (a + j)) = some c ∧ c ≠ 0 := by
    intro j hj
    refine ⟨str[j], ?_, hscan.ne_zero _ (List.getElem_mem hj)⟩
    rw [← List.getElem?_eq_getElem hj]
    exact hscan.bytes j hj
  -- The first null is where the scan stopped.
  have hfirst : ∀ k, FirstNull s p.pagetable a max k → found = true ∧ k = str.length := by
    rintro k ⟨hlt, hnull, hbefore⟩
    have hge : str.length ≤ k := by
      by_contra hk
      obtain ⟨c, hc, hne⟩ := hbyte k (by omega)
      rw [hnull, Option.some.injEq] at hc
      exact hne hc.symm
    have hle : ¬ str.length < k := by
      intro hk
      obtain ⟨c, hc, hne⟩ := hbefore str.length hk
      rcases hf : found with _ | _
      · rcases hscan.stop hf with hmax | hnone
        · omega
        · rw [hnone] at hc
          cases hc
      · rw [(hscan.null hf).2, Option.some.injEq] at hc
        exact hne hc.symm
    have hk : k = str.length := by omega
    refine ⟨?_, hk⟩
    by_contra hf
    rcases hscan.stop (by simpa using hf) with hmax | hnone
    · omega
    · rw [hk, hnone] at hnull
      cases hnull
  refine ⟨?_, fun k hk => ?_, fun k hk => ?_, fun t ht => ?_⟩
  · rw [hrun]
    constructor
    · intro hf
      exact ⟨str.length, (hscan.null hf).1, (hscan.null hf).2, hbyte⟩
    · rintro ⟨k, hk⟩
      exact (hfirst k hk).1
  · obtain ⟨hf, rfl⟩ := hfirst k hk
    subst hf
    rw [if_pos rfl] at hrun
    refine ⟨fun j hj => ?_, ?_⟩
    · have hget : (str ++ [0])[j]? = some ((str ++ [0]).getD j 0) := by
        rw [List.getD_eq_getElem?_getD, List.getElem?_eq_getElem (by simp; omega), Option.getD_some]
      rw [hrun]
      dsimp only
      rw [Bytes.write, if_pos (by simp; omega), Nat.sub_zero, ← hget]
      rcases Nat.lt_or_eq_of_le hj with hlt | rfl
      · rw [List.getElem?_append_left hlt]
        exact hscan.bytes j hlt
      · rw [List.getElem?_append_right le_rfl, Nat.sub_self]
        exact (hscan.null rfl).2
    unfold fetchstr
    rw [hrun]
    dsimp only
    rw [if_pos rfl, strlen, takeWhile_read_write hscan.ne_zero (hscan.null rfl).1]
  · have hle := hscan.le_max
    rw [hrun]
    dsimp only
    rw [Bytes.write, if_neg]
    rcases hf : found with _ | _
    · simp
      omega
    · have := (hscan.null hf).1
      simp
      omega
  obtain ⟨str', found', hscan', heq'⟩ := copyinstrLoop_scan t p.pagetable (le_refl max) ha
  obtain ⟨rfl, rfl⟩ := hscan.unique hscan' ht
  rw [hrun]
  exact heq' dst 0

/-- A string that would have to be read from a page that is not mapped. -/
theorem copyinstr_reads_unmapped :
    (copyinstr ⟨[], fun _ _ => 0, [], false⟩ (.empty 0) (fun _ => 65) 4096 8).2 = false := by
  obtain ⟨hiff, -⟩ := copyinstr_reads ⟨[], fun _ _ => 0, [], false⟩ ⟨8192, .empty 0⟩ 4096 8
    (by decide) fun _ => 65
  rw [Bool.eq_false_iff, ne_eq, hiff]
  rintro ⟨k, -, hnull, -⟩
  have hnone : ∀ a, userByte ⟨[], fun _ _ => 0, [], false⟩ (.empty 0) a = none := by
    intro a
    simp [userByte, walkaddr, Table.leaf, Table.find, Table.empty]
  rw [hnone] at hnull
  cases hnull

end Xv6.Vm

import Xv6.Vm.Space

/-!
# copyin and copyout

Both loops go page by page. A round finds the page, allocates it if it was promised only, and copies
the part of the range that lies in it.

## Main results

* `copy_user`: `copyin` and `copyout` for every address and length
-/

namespace Xv6.Vm

open Hoare Space List Bytes

variable {ly : Layout} {s s' : Mem} {p q : Space} {R : Multiset ℕ} {E : Halt → Prop}

/-! ## Addresses within a page -/

theorem sub_pgrounddown (a : ℕ) : a - pgrounddown a = a % PGSIZE := by
  unfold pgrounddown PGSIZE
  omega

theorem pgrounddown_add (a : ℕ) : pgrounddown a + PGSIZE = a + (PGSIZE - a % PGSIZE) := by
  unfold pgrounddown PGSIZE
  omega

theorem add_div_mod {a j n : ℕ} (hn : n ≤ PGSIZE - a % PGSIZE) (hj : j < n) :
    (a + j) / PGSIZE = a / PGSIZE ∧ (a + j) % PGSIZE = a % PGSIZE + j := by
  unfold PGSIZE at *
  omega

variable {a : ℕ}

theorem lt_of_div_lt (h : a / PGSIZE < USERPAGES) : a + PGSIZE < 2 ^ 64 := by
  have hlt := mul_lt_maxva h
  unfold MAXVA PGSIZE at *
  omega

theorem u64_of_lt (h : a < 2 ^ 64) : u64 a = a := Nat.mod_eq_of_lt h

@[simp] theorem Bytes.length_read (b : Bytes) (off n : ℕ) : (b.read off n).length = n := by
  simp [read]

@[simp] theorem Bytes.write_nil (b : Bytes) (off : ℕ) : b.write off [] = b := by
  funext k
  rw [write, if_neg (by simp)]

theorem Bytes.getElem?_read (b : Bytes) {off n j : ℕ} (hj : j < n) :
    (b.read off n)[j]? = some (b (off + j)) := by simp [read, hj]

/-! ## Reading -/

def Space.Shows (p : Space) (s : Mem) (a : ℕ) (l : List UInt8) : Prop :=
  ∀ j < l.length, p.view s (a + j) = l[j]?

/-- Why the byte at `a` could not be copied: the process may not access it, or its page had to be
allocated and there was no memory. -/
def Space.Stuck (may : Space → ℕ → Prop) (p : Space) (s' : Mem) (a : ℕ) : Prop :=
  ¬ may p a ∨ p.pagetable.leafs (a / PGSIZE) = none ∧ s'.denied = true

theorem Space.Lazy.stuck {f : Perm → Bool} (hf : f lazyPerm = true) (h : p.Lazy q)
    (hs : Stuck (can f) q s' a) : Stuck (can f) p s' a := by
  rcases hs with hcan | ⟨hnone, hden⟩
  · exact .inl fun hp => hcan ((h.can_iff hf).mpr hp)
  rcases hp : p.pagetable.leafs (a / PGSIZE) with _ | l
  · exact .inr ⟨hp, hden⟩
  · rw [h.old _ _ hp] at hnone
    cases hnone

theorem Space.Shows.append {l l' : List UInt8} (h : p.Shows s a l)
    (h' : l' ≠ [] → p.Shows s (a + l.length) l') : p.Shows s a (l ++ l') := by
  intro j hj
  rw [length_append] at hj
  by_cases hlt : j < l.length
  · rw [getElem?_append_left hlt]
    exact h j hlt
  have hne : l' ≠ [] := by
    rintro rfl
    simp at hj
    omega
  rw [getElem?_append_right (by omega)]
  have := h' hne (j - l.length) (by omega)
  rwa [show a + l.length + (j - l.length) = a + j by omega] at this

theorem Space.shows_read {a n : ℕ} {l : Leaf} (hl : p.pagetable.leafs (a / PGSIZE) = some l)
    (hu : l.perm.u = true) (hn : n ≤ PGSIZE - a % PGSIZE) :
    p.Shows s a ((s.data l.pa).read (a % PGSIZE) n) := by
  intro j hj
  rw [length_read] at hj
  obtain ⟨hdiv, hmod⟩ := add_div_mod hn hj
  rw [view_of_leaf (by rw [hdiv]; exact hl) hu, hmod, getElem?_read _ hj]

theorem copyinLoop_spec {k va len pos : ℕ} {dst : Bytes} (h : p.Wf ly s R) (hk : len ≤ k)
    (hva : va < 2 ^ 64) :
    Wp (copyinLoop ly k p va len dst pos) s (fun r s' => r.1.Wf ly s' R ∧ p.Lazy r.1 ∧
      r.1.view s' = p.view s ∧ Frame (leafPages p.pagetable.leafs + R) s s' ∧
      ∃ bytes : List UInt8, bytes.length ≤ len ∧ p.Shows s va bytes ∧
        r.2.1 = dst.write pos bytes ∧ (r.2.2 = true ↔ bytes.length = len) ∧
        (r.2.2 = false → Stuck Readable p s' (u64 (va + bytes.length)))) E := by
  induction k generalizing p s va len dst pos with
  | zero =>
    have hlen : len = 0 := Nat.le_zero.mp hk
    refine ⟨h, .refl p, rfl, .refl _ _, [], Nat.zero_le _, fun j hj => ?_, by simp, ?_, by simp⟩
    · simp at hj
    · simp [hlen]
  | succ k ih =>
    have hshows : p.Shows s va [] := by
      intro j hj
      simp at hj
    unfold copyinLoop
    split
    · next hlen =>
      exact ⟨h, .refl p, rfl, .refl _ _, [], Nat.zero_le _, hshows, by simp, by simp [hlen],
        by simp⟩
    next hlen =>
    refine (userPage_spec (a := va) h).seq ?_
    rintro ⟨p1, o⟩ s1 ⟨hwf, hlazy, hview, hframe, hres⟩
    rcases o with _ | pa
    · refine ⟨hwf, hlazy, hview, hframe, [], Nat.zero_le _, hshows, by simp, ?_, fun _ => ?_⟩
      · simpa using fun h0 => hlen h0.symm
      · rw [length_nil, Nat.add_zero, u64_of_lt hva]
        exact hres
    obtain ⟨l, hl, rfl, hu, hread, -⟩ := hres
    have hlt := h.lt_userpages hread
    have hbound := lt_of_div_lt hlt
    have hmod : va % PGSIZE < PGSIZE := Nat.mod_lt _ (by decide)
    refine Wp.get_seq ?_
    dsimp only
    rw [sub_pgrounddown]
    set n := min (PGSIZE - va % PGSIZE) len with hn
    set bytes := (s1.data l.pa).read (va % PGSIZE) n with hbytes
    have hblen : bytes.length = n := length_read ..
    have hfirst : p.Shows s va bytes := by
      intro j hj
      rw [← hview]
      exact shows_read hl hu (by omega) j hj
    have hnext : u64 (pgrounddown va + PGSIZE) = va + (PGSIZE - va % PGSIZE) := by
      rw [pgrounddown_add, u64_of_lt (by omega)]
    rw [hnext]
    refine (ih hwf (by omega) (by omega)).mono ?_
    rintro r s2 ⟨hwf2, hlazy2, hview2, hframe2, rest, hrlen, hrest, hdst, hok, hfail⟩
    have hkeep : Frame (leafPages p.pagetable.leafs + R) s1 s2 := by
      refine hframe2.mono (add_le_add_left (leafPages_mono fun v _ => ?_) R)
      rcases hv : p.pagetable.leafs v with _ | lv
      · exact .inl rfl
      · exact .inr (hlazy.old v lv hv).symm
    refine ⟨hwf2, hlazy.trans hlazy2, hview2.trans hview, hframe.trans hkeep, bytes ++ rest, ?_, ?_,
      ?_, ?_, fun hr => ?_⟩
    · rw [length_append]
      omega
    · refine hfirst.append fun hne j hj => ?_
      have hpos : 0 < rest.length := length_pos_iff.mpr hne
      have := hrest j hj
      rw [hview] at this
      rwa [show va + bytes.length + j = va + (PGSIZE - va % PGSIZE) + j by omega]
    · rw [hdst, ← hblen, write_write]
    · rw [hok, length_append]
      omega
    have hshort : rest.length ≠ len - n := by
      intro heq
      rw [hok.mpr heq] at hr
      cases hr
    have hstuck := hlazy.stuck rfl (hfail hr)
    rwa [length_append,
      show va + (bytes.length + rest.length) = va + (PGSIZE - va % PGSIZE) + rest.length by omega]

/-! ## Writing -/

def overwrite (f : ℕ → Option UInt8) (a : ℕ) (l : List UInt8) (b : ℕ) : Option UInt8 :=
  if a ≤ b ∧ b < a + l.length then l[b - a]? else f b

@[simp] theorem overwrite_nil (f : ℕ → Option UInt8) (a : ℕ) : overwrite f a [] = f := by
  funext b
  rw [overwrite, if_neg (by simp)]

theorem overwrite_append (f : ℕ → Option UInt8) (a : ℕ) (l l' : List UInt8) :
    overwrite (overwrite f a l) (a + l.length) l' = overwrite f a (l ++ l') := by
  funext b
  unfold overwrite
  rw [length_append]
  by_cases h1 : a ≤ b ∧ b < a + l.length
  · rw [if_neg (by omega), if_pos h1, if_pos (by omega), getElem?_append_left (by omega)]
  by_cases h2 : a + l.length ≤ b ∧ b < a + l.length + l'.length
  · rw [if_pos h2, if_pos (by omega), getElem?_append_right (by omega)]
    congr 1
    omega
  · rw [if_neg h2, if_neg h1, if_neg (by omega)]

theorem Space.Wf.view_fill (h : p.Wf ly s R) {v : ℕ} {l : Leaf} (hl : p.pagetable.leafs v = some l)
    (hu : l.perm.u = true) (b : Bytes) (a : ℕ) :
    p.view (s.fill l.pa b) a = if a / PGSIZE = v then some (b (a % PGSIZE)) else p.view s a := by
  have hlow : ∀ w lw, p.pagetable.leafs w = some lw → lw.perm.u = true → w < USERPAGES := by
    intro w lw hw hwu
    by_contra hle
    rw [h.high w lw (by omega) hw] at hwu
    cases hwu
  split
  · next hv =>
    rw [view_of_leaf (by rw [hv]; exact hl) hu]
    simp [Mem.fill]
  next hv =>
  unfold view
  rcases hw : p.pagetable.leafs (a / PGSIZE) with _ | lw
  · rfl
  dsimp only
  split
  · next hwu =>
    have hpa : lw.pa ≠ l.pa := by
      intro hpa
      exact hv (eq_of_leafPages_nodup h.holds.pages_nodup (hlow _ lw hw hwu) (hlow v l hl hu) hw
        hl hpa)
    exact congrArg (fun c : Bytes => some (c (a % PGSIZE))) (Function.update_of_ne hpa ..)
  · rfl

theorem Space.Wf.view_write (h : p.Wf ly s R) {l : Leaf} {bytes : List UInt8}
    (hl : p.pagetable.leafs (a / PGSIZE) = some l) (hu : l.perm.u = true)
    (hlen : bytes.length ≤ PGSIZE - a % PGSIZE) :
    p.view (s.fill l.pa ((s.data l.pa).write (a % PGSIZE) bytes)) =
      overwrite (p.view s) a bytes := by
  funext b
  rw [h.view_fill hl hu, overwrite]
  have hiff : (a ≤ b ∧ b < a + bytes.length) ↔ (b / PGSIZE = a / PGSIZE ∧
      a % PGSIZE ≤ b % PGSIZE ∧ b % PGSIZE < a % PGSIZE + bytes.length) := by
    unfold PGSIZE at *
    omega
  by_cases hin : a ≤ b ∧ b < a + bytes.length
  · have hpage := hiff.mp hin
    have hoff : b % PGSIZE - a % PGSIZE = b - a := by
      have := hpage.1
      unfold PGSIZE at *
      omega
    rw [if_pos hpage.1, if_pos hin, write, if_pos hpage.2, hoff]
    rw [getD_eq_getElem?_getD, getElem?_eq_getElem (by omega), Option.getD_some]
  rw [if_neg hin]
  split
  · next hpage =>
    rw [view_of_leaf (by rw [hpage]; exact hl) hu, write, if_neg]
    intro hoff
    exact hin (hiff.mpr ⟨hpage, hoff⟩)
  · rfl

/-- What a copy into the memory of `p` leaves alone: the pages of everything else, and the pages of
`p` that are not for the user. -/
structure Space.Spares (R : Multiset ℕ) (s s' : Mem) (p : Space) : Prop where
  rest : Frame R s s'
  kernel : ∀ v < USERPAGES, ∀ l, p.pagetable.leafs v = some l → l.perm.u = false →
    s'.data l.pa = s.data l.pa

theorem Space.Spares.of_frame (h : Frame (leafPages p.pagetable.leafs + R) s s') :
    p.Spares R s s' := ⟨h.right, fun _ hv _ hl _ => h.left.data _ (mem_leafPages hv hl)⟩

theorem Space.Spares.trans {s'' : Mem} (h : p.Spares R s s') (hlazy : p.Lazy q)
    (h' : q.Spares R s' s'') : p.Spares R s s'' :=
  ⟨h.rest.trans h'.rest, fun v hv l hl hu =>
    (h'.kernel v hv l (hlazy.old v l hl) hu).trans (h.kernel v hv l hl hu)⟩

theorem Space.Wf.spares_fill (h : p.Wf ly s R) {v : ℕ} {l : Leaf} (hv : v < USERPAGES)
    (hl : p.pagetable.leafs v = some l) (hu : l.perm.u = true) (b : Bytes) :
    p.Spares R s (s.fill l.pa b) := by
  refine ⟨Frame.fill (h.holds.not_mem (mem_leafPages hv hl)) b, fun w hw lw hlw hwu => ?_⟩
  refine Function.update_of_ne (fun hpa => ?_) ..
  have heq := eq_of_leafPages_nodup h.holds.pages_nodup hw hv hlw hl hpa
  subst heq
  rw [hl] at hlw
  cases hlw
  rw [hu] at hwu
  cases hwu

theorem copyoutLoop_spec {k va : ℕ} {src : List UInt8} (h : p.Wf ly s R) (hk : src.length ≤ k)
    (hva : va < 2 ^ 64) :
    Wp (copyoutLoop ly none k p va src) s (fun r s' => r.1.Wf ly s' R ∧ p.Lazy r.1 ∧
      p.Spares R s s' ∧ ∃ m ≤ src.length, r.1.view s' = overwrite (p.view s) va (src.take m) ∧
        (∀ j < m, p.Writable (va + j) ∧ (r.1.pagetable.leafs ((va + j) / PGSIZE)).isSome) ∧
        (r.2 = true ↔ m = src.length) ∧ (r.2 = false → Stuck Writable p s' (u64 (va + m)))) E := by
  induction k generalizing p s va src with
  | zero =>
    have hsrc : src = [] := length_eq_zero_iff.mp (Nat.le_zero.mp hk)
    refine ⟨h, .refl p, .of_frame (.refl _ _), 0, Nat.zero_le _, by simp, fun j hj => ?_, ?_, ?_⟩
    · omega
    · simp [hsrc]
    · simp
  | succ k ih =>
    unfold copyoutLoop
    split
    · next hsrc =>
      refine ⟨h, .refl p, .of_frame (.refl _ _), 0, Nat.zero_le _, by simp, fun j hj => ?_, ?_, ?_⟩
      · omega
      · simp [hsrc]
      · simp
    next hsrc =>
    have hpos : 0 < src.length := length_pos_iff.mpr hsrc
    -- A round that copies nothing ends the loop.
    have hstop : ∀ (p1 : Space) (s1 : Mem), p1.Wf ly s1 R → p.Lazy p1 → p.Spares R s s1 →
        p1.view s1 = p.view s → Stuck Writable p s1 va →
        p1.Wf ly s1 R ∧ p.Lazy p1 ∧ p.Spares R s s1 ∧ ∃ m ≤ src.length,
          p1.view s1 = overwrite (p.view s) va (src.take m) ∧
          (∀ j < m, p.Writable (va + j) ∧ (p1.pagetable.leafs ((va + j) / PGSIZE)).isSome) ∧
          (false = true ↔ m = src.length) ∧
          (false = false → Stuck Writable p s1 (u64 (va + m))) := by
      intro p1 s1 hwf hlazy hspares hview hstuck
      refine ⟨hwf, hlazy, hspares, 0, Nat.zero_le _, by simpa using hview, fun j hj => ?_, ?_, ?_⟩
      · omega
      · simp
        omega
      · intro _
        rwa [Nat.add_zero, u64_of_lt hva]
    split
    · next hmax =>
      refine hstop p s h (.refl p) (.of_frame (.refl _ _)) rfl (.inl fun hw => ?_)
      have := mul_lt_maxva (h.lt_userpages hw.readable)
      rw [pgrounddown_eq] at hmax
      omega
    next hmax =>
    refine (userPage_spec (a := va) h).seq ?_
    rintro ⟨p1, o⟩ s1 ⟨hwf, hlazy, hview, hframe, hres⟩
    rcases o with _ | pa
    · refine hstop p1 s1 hwf hlazy (.of_frame hframe) hview ?_
      rcases hres with hr | hr
      · exact .inl fun hw => hr hw.readable
      · exact .inr hr
    obtain ⟨l, hl, rfl, hu, hread, hwrite⟩ := hres
    have hlt := h.lt_userpages hread
    have hbound := lt_of_div_lt hlt
    have hmod : va % PGSIZE < PGSIZE := Nat.mod_lt _ (by decide)
    have hfind : p1.pagetable.find (pgrounddown va) = some (some l) := by
      refine Table.find_of_leaf ?_
      rw [Table.leaf_eq_leafs _ (by omega), pgrounddown_eq, mul_div_pgsize]
      exact hl
    dsimp only
    rw [Option.getD_none, walk, if_neg hmax, wp_bind, wp_pure, hfind]
    dsimp only
    rw [Option.map_some]
    rcases hw : l.perm.w with _ | _
    · rw [if_neg (by simp)]
      refine hstop p1 s1 hwf hlazy (.of_frame hframe) hview (.inl fun hp => ?_)
      rw [hwrite.mpr hp] at hw
      cases hw
    rw [if_pos rfl]
    refine Wp.modify_seq ?_
    rw [sub_pgrounddown]
    set n := min (PGSIZE - va % PGSIZE) src.length with hn
    have htake : (src.take n).length = n := by
      rw [length_take]
      omega
    set s2 := s1.fill l.pa ((s1.data l.pa).write (va % PGSIZE) (src.take n)) with hs2
    have hwf2 : p1.Wf ly s2 R := ⟨hwf.holds, hwf.size, hwf.high⟩
    have hview2 : p1.view s2 = overwrite (p.view s) va (src.take n) := by
      rw [hs2, hwf.view_write hl hu (by omega), hview]
    have hspares2 : p.Spares R s s2 :=
      (Spares.of_frame hframe).trans hlazy (hwf.spares_fill hlt hl hu _)
    have hwritable : ∀ j < n, p.Writable (va + j) := by
      intro j hj
      obtain ⟨hdiv, -⟩ := add_div_mod (a := va) (n := n) (by omega) hj
      have hp := hwrite.mp hw
      unfold Writable can at hp ⊢
      rw [hdiv, pgrounddown_eq, hdiv]
      exact hp
    have hnext : u64 (pgrounddown va + PGSIZE) = va + (PGSIZE - va % PGSIZE) := by
      rw [pgrounddown_add, u64_of_lt (by omega)]
    rw [hnext]
    have hdrop : (src.drop n).length = src.length - n := length_drop
    refine (ih hwf2 (by omega) (by omega)).mono ?_
    rintro r s3 ⟨hwf3, hlazy3, hspares3, m, hm, hview3, hrange, hok, hfail⟩
    have hadd : m ≠ 0 → va + (PGSIZE - va % PGSIZE) = va + n := by omega
    refine ⟨hwf3, hlazy.trans hlazy3, hspares2.trans hlazy hspares3, n + m, by omega, ?_, ?_, ?_,
      fun hr => ?_⟩
    · rw [hview3, hview2, take_add]
      rcases Nat.eq_zero_or_pos m with rfl | hm0
      · simp
      · rw [hadd (by omega), ← overwrite_append, htake]
    · intro j hj
      by_cases hjn : j < n
      · refine ⟨hwritable j hjn, ?_⟩
        obtain ⟨hdiv, -⟩ := add_div_mod (a := va) (n := n) (by omega) hjn
        rw [hdiv, hlazy3.old _ l hl]
        rfl
      · have hj' := hrange (j - n) (by omega)
        rw [show va + (PGSIZE - va % PGSIZE) + (j - n) = va + j by omega] at hj'
        exact ⟨(hlazy.can_iff rfl).mp hj'.1, hj'.2⟩
    · rw [hok]
      omega
    have hshort : m ≠ src.length - n := by
      intro heq
      rw [hok.mpr (by omega)] at hr
      cases hr
    have hstuck := hlazy.stuck rfl (hfail hr)
    rwa [show va + (n + m) = va + (PGSIZE - va % PGSIZE) + m by omega]

/-! ## The two functions -/

theorem Space.Wf.u64_eq (h : p.Wf ly s R) (ha : p.Readable a) : u64 a = a :=
  u64_of_lt (by have := lt_of_div_lt (h.lt_userpages ha); omega)

theorem Space.Shows.readable {l : List UInt8} (h : p.Shows s a l) {j : ℕ}
    (hj : j < l.length) : p.Readable (a + j) := by
  rw [← view_isSome (s := s), h j hj, getElem?_eq_getElem hj]
  rfl

/-- What `copyin` of `len` bytes from `va` guarantees, for the buffer `dst` before and `dst'` after:
the process sees the same memory, the call succeeds exactly if every page of the range can be read,
the buffer then has the bytes of the range, and no other byte ever gets into it. -/
structure Space.CopiedIn (R : Multiset ℕ) (va len : ℕ) (s s' : Mem) (p q : Space)
    (dst dst' : Bytes) (ok : Bool) : Prop where
  view : q.view s' = p.view s
  frame : Frame (leafPages p.pagetable.leafs + R) s s'
  ok_iff : s'.denied = false → (ok = true ↔ ∀ k < len, p.Readable (u64 (va + k)))
  bytes : ok = true → ∀ k < len, p.view s (u64 (va + k)) = some (dst' k)
  only : ∀ k, dst' k = dst k ∨ k < len ∧ p.view s (u64 (va + k)) = some (dst' k)

/-- What `copyout` of `src` to `va` guarantees: it succeeds exactly if every page of the range can
be written, and then the bytes of the range are `src`; no other byte of the process and no page of
anything else changes. -/
structure Space.CopiedOut (R : Multiset ℕ) (va : ℕ) (src : List UInt8) (s s' : Mem) (p q : Space)
    (ok : Bool) : Prop where
  spares : p.Spares R s s'
  ok_iff : s'.denied = false → (ok = true ↔ ∀ k < src.length, p.Writable (u64 (va + k)))
  bytes : ok = true → ∀ k < src.length, q.view s' (u64 (va + k)) = src[k]?
  only : ∀ a, q.view s' a = p.view s a ∨
    ∃ k < src.length, a = u64 (va + k) ∧ q.view s' a = src[k]?
  exact : ok = true → ∀ a, (∀ k < src.length, a ≠ u64 (va + k)) → q.view s' a = p.view s a

theorem Space.Shows.write_zero {va : ℕ} {bytes : List UInt8} (h : p.Shows s va bytes) (dst : Bytes)
    {k : ℕ} (hk : k < bytes.length) : p.view s (va + k) = some (dst.write 0 bytes k) := by
  rw [h k hk, write, if_pos (by omega), getD_eq_getElem?_getD, Nat.sub_zero,
    getElem?_eq_getElem hk, Option.getD_some]

theorem copyin_spec {va : ℕ} (h : p.Wf ly s R) (hva : va < 2 ^ 64) (len : ℕ) (dst : Bytes) :
    Wp (copyin ly p dst va len) s (fun r s' => r.1.Wf ly s' R ∧
      p.CopiedIn R va len s s' r.1 dst r.2.1 r.2.2 ∧
      (r.2.2 = false → ∃ k < len, Stuck Readable p s' (u64 (va + k)))) E := by
  refine (copyinLoop_spec h le_rfl hva).mono ?_
  rintro ⟨q, dst', ok⟩ s' ⟨hwf, -, hview, hframe, bytes, hlen, hshows, hdst, hok, hfail⟩
  dsimp only at hdst hok hfail ⊢
  subst hdst
  have hin : ∀ k < bytes.length, p.view s (u64 (va + k)) = some (dst.write 0 bytes k) := by
    intro k hk
    rw [h.u64_eq (hshows.readable hk)]
    exact hshows.write_zero dst hk
  have hstuck : ok = false → ∃ k < len, Stuck Readable p s' (u64 (va + k)) := by
    intro hr
    refine ⟨bytes.length, lt_of_le_of_ne hlen fun heq => ?_, hfail hr⟩
    rw [hok.mpr heq] at hr
    cases hr
  refine ⟨hwf, ⟨hview, hframe, fun hden => ⟨fun hr k hk => ?_, fun hall => ?_⟩, fun hr k hk => ?_,
    fun k => ?_⟩, hstuck⟩
  · rw [← view_isSome (s := s), hin k (by rw [hok.mp hr]; exact hk)]
    rfl
  · by_contra hr
    obtain ⟨k, hk, hs⟩ := hstuck (by simpa using hr)
    rcases hs with hnot | ⟨-, hd⟩
    · exact hnot (hall k hk)
    · rw [hden] at hd
      cases hd
  · exact hin k (by rw [hok.mp hr]; exact hk)
  by_cases hk : k < bytes.length
  · exact .inr ⟨by omega, hin k hk⟩
  · refine .inl ?_
    rw [write, if_neg (by omega)]

theorem copyout_spec {va : ℕ} (h : p.Wf ly s R) (hva : va < 2 ^ 64) (src : List UInt8) :
    Wp (copyout ly none p va src) s (fun r s' => r.1.Wf ly s' R ∧
      p.CopiedOut R va src s s' r.1 r.2 ∧ (r.2 = true → ∀ k < src.length,
        r.1.Readable (u64 (va + k)) ∧ (r.1.pagetable.leafs (u64 (va + k) / PGSIZE)).isSome)) E := by
  refine (copyoutLoop_spec h le_rfl hva).mono ?_
  rintro ⟨q, ok⟩ s' ⟨hwf, hlazy, hspares, m, hm, hview, hrange, hok, hfail⟩
  dsimp only at hview hrange hok hfail ⊢
  have haddr : ∀ k < m, u64 (va + k) = va + k := fun k hk => h.u64_eq (hrange k hk).1.readable
  have htake : (src.take m).length = m := by
    rw [length_take]
    omega
  have hbyte : ∀ a, q.view s' a = p.view s a ∨
      ∃ k < m, a = va + k ∧ q.view s' a = src[k]? := by
    intro a
    rw [hview, overwrite, htake]
    split
    · next hin =>
      refine .inr ⟨a - va, by omega, by omega, ?_⟩
      rw [getElem?_take, if_pos (by omega)]
    · exact .inl rfl
  have hsrc : ∀ k < m, q.view s' (va + k) = src[k]? := by
    intro k hk
    rw [hview, overwrite, htake, if_pos (by omega), getElem?_take, if_pos (by omega)]
    congr 1
    omega
  refine ⟨hwf, ⟨hspares, fun hden => ⟨fun hr k hk => ?_, fun hall => ?_⟩, fun hr k hk => ?_,
    fun a => ?_, fun hr a hne => ?_⟩, fun hr k hk => ?_⟩
  · have hk' : k < m := by rw [hok.mp hr]; exact hk
    rw [haddr k hk']
    exact (hrange k hk').1
  · by_contra hr
    have hlt : m < src.length := lt_of_le_of_ne hm fun heq => hr (hok.mpr heq)
    rcases hfail (by simpa using hr) with hnot | ⟨-, hd⟩
    · exact hnot (hall m hlt)
    · rw [hden] at hd
      cases hd
  · have hk' : k < m := by rw [hok.mp hr]; exact hk
    rw [haddr k hk']
    exact hsrc k hk'
  · rcases hbyte a with heq | ⟨k, hk, rfl, heq⟩
    · exact .inl heq
    · exact .inr ⟨k, by omega, (haddr k hk).symm, heq⟩
  · rcases hbyte a with heq | ⟨k, hk, rfl, -⟩
    · exact heq
    · exact absurd (haddr k hk).symm (hne k (by omega))
  · have hk' : k < m := by rw [hok.mp hr]; exact hk
    rw [haddr k hk']
    exact ⟨(hlazy.can_iff rfl).mpr (hrange k hk').1.readable, (hrange k hk').2⟩

/-- **`copyin` and `copyout`** for the current process, any address and any length, ranges that wrap
included. Both calls return. -/
theorem copy_user (h : p.Wf ly s R) (va : ℕ) (hva : va < 2 ^ 64) (dst : Bytes) :
    (∀ len, ∃ q dst' ok s', copyin ly p dst va len s = .ok ((q, dst', ok), s') ∧ q.Wf ly s' R ∧
      p.CopiedIn R va len s s' q dst dst' ok) ∧
    ∀ src, ∃ q ok s', copyout ly none p va src s = .ok ((q, ok), s') ∧ q.Wf ly s' R ∧
      p.CopiedOut R va src s s' q ok ∧
      (ok = true → ∃ q' dst' s'', copyin ly q dst va src.length s' = .ok ((q', dst', true), s'') ∧
        ∀ k < src.length, some (dst' k) = src[k]?) := by
  constructor
  · intro len
    obtain ⟨⟨q, dst', ok⟩, s', hrun, hwf, hcopied, -⟩ :=
      (copyin_spec h hva len dst).exists_ok
    exact ⟨q, dst', ok, s', hrun, hwf, hcopied⟩
  intro src
  obtain ⟨⟨q, ok⟩, s', hrun, hwf, hcopied, hmapped⟩ := (copyout_spec h hva src).exists_ok
  refine ⟨q, ok, s', hrun, hwf, hcopied, ?_⟩
  rintro rfl
  obtain ⟨⟨q', dst', ok⟩, s'', hrun', -, hin, hstuck⟩ :=
    (copyin_spec hwf hva src.length dst).exists_ok
  have hok : ok = true := by
    by_contra hr
    obtain ⟨k, hk, hs⟩ := hstuck (by simpa using hr)
    have hk' := hmapped rfl k hk
    rcases hs with hnot | ⟨hnone, -⟩
    · exact hnot hk'.1
    · rw [hnone] at hk'
      simp at hk'
  subst hok
  refine ⟨q', dst', s'', hrun', fun k hk => ?_⟩
  rw [← hin.bytes rfl k hk]
  exact hcopied.bytes rfl k hk

/-- Twenty bytes across the boundary of two promised pages. -/
theorem copy_user_promised :
    ∃ q ok s', copyout ⟨0, 6, 9, [0, 1, 2, 3, 4, 5], by decide, by decide⟩ none ⟨8192, .empty 0⟩ 4090
        (List.replicate 20 7) ⟨[1, 2, 3, 4, 5], fun _ _ => 0, [], false⟩ = .ok ((q, ok), s') ∧
      (s'.denied = false → ok = true) := by
  have hfits : Space.Fits ⟨0, 6, 9, [0, 1, 2, 3, 4, 5], by decide, by decide⟩
      ⟨[1, 2, 3, 4, 5], fun _ _ => 0, [], false⟩ ⟨8192, .empty 0⟩ 0 := .empty rfl (by decide)
  obtain ⟨-, hout⟩ := copy_user hfits.toWf 4090 (by decide) fun _ => 0
  obtain ⟨q, ok, s', hrun, -, hcopied, -⟩ := hout (List.replicate 20 7)
  refine ⟨q, ok, s', hrun, fun hden => (hcopied.ok_iff hden).mpr fun k hk => ?_⟩
  rw [List.length_replicate] at hk
  unfold Space.Writable Space.can
  rw [Table.leafs_empty]
  dsimp only
  unfold pgrounddown u64 PGSIZE
  omega

end Xv6.Vm

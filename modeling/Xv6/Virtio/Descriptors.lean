import Xv6.Virtio.Code

/-!
# The descriptor allocator

What the allocator of `virtio_disk.c` does, one lemma for each function.
-/

namespace Xv6.Virtio

open List

variable {ι β : Type} [DecidableEq β] {s s' s₁ : State ι β} {i : ℕ} {l : List ℕ}

theorem Pc.wake_wake (ch : Chan β) (pc : Pc β) : (pc.wake ch).wake ch = pc.wake ch := by
  cases ch with
  | free => cases pc <;> rfl
  | buf b =>
    cases pc with
    | rwOwn c idx o =>
      cases o with
      | sleep =>
        by_cases hb : c.b = b
        · simp [wake, hb]
        · simp [wake, hb]
      | _ => rfl
    | _ => rfl

namespace State

/-- `s'` is `s` after the descriptors of `l` were freed: threads may have been woken, and nothing
else has changed. -/
structure Freed (s : State ι β) (l : List ℕ) (s' : State ι β) : Prop where
  free : ∀ i, s'.free i = (s.free i || decide (i ∈ l))
  desc : ∀ i ∉ l, s'.desc i = s.desc i
  pc : s'.pc = s.pc ∨ s'.pc = (s.wakeup .free).pc
  rest : s' = { s with desc := s'.desc, free := s'.free, pc := s'.pc }

namespace Freed

theorem nil (s : State ι β) : Freed s [] s := ⟨by simp, fun _ _ => rfl, .inl rfl, rfl⟩

theorem append {l1 l2 : List ℕ} (h1 : Freed s l1 s₁) (h2 : Freed s₁ l2 s') :
    Freed s (l1 ++ l2) s' where
  free i := by simp [h2.free, h1.free, Bool.or_assoc]
  desc i hi := by
    rw [mem_append, not_or] at hi
    rw [h2.desc i hi.2, h1.desc i hi.1]
  pc := by
    rcases h1.pc with hp1 | hp1 <;> rcases h2.pc with hp2 | hp2
    · exact .inl (hp2.trans hp1)
    · exact .inr (by rw [hp2, wakeup, hp1, wakeup])
    · exact .inr (hp2.trans hp1)
    refine .inr ?_
    rw [hp2, wakeup, hp1]
    funext p
    exact Pc.wake_wake _ _
  rest := by rw [h2.rest, h1.rest]

end Freed

theorem freeDesc_spec (hi : i < NUM) (hfree : s.free i = false) :
    ∃ s', s.freeDesc i = .ok s' ∧ Freed s [i] s' := by
  refine ⟨_, by rw [freeDesc, if_neg (not_le.2 hi), if_neg (by simp [hfree])], ?_⟩
  refine ⟨fun j => ?_, fun j hj => ?_, .inr rfl, rfl⟩
  · by_cases hji : j = i
    · subst hji
      simp [wakeup]
    · simp [wakeup, hji]
  · rw [mem_singleton] at hj
    simp [wakeup, hj]

theorem foldlM_freeDesc (hnodup : l.Nodup) (hl : ∀ i ∈ l, i < NUM ∧ s.free i = false) :
    ∃ s', l.foldlM freeDesc s = .ok s' ∧ Freed s l s' := by
  induction l generalizing s with
  | nil => exact ⟨s, rfl, .nil s⟩
  | cons i l ih =>
    rw [nodup_cons] at hnodup
    obtain ⟨hi, hfree⟩ := hl i (mem_cons_self ..)
    obtain ⟨s₁, hs1, hfreed1⟩ := freeDesc_spec hi hfree
    obtain ⟨s', hs', hfreed'⟩ := ih (s := s₁) hnodup.2 fun j hj => by
      obtain ⟨hjlt, hjfree⟩ := hl j (mem_cons_of_mem _ hj)
      have hji : j ≠ i := fun hji => hnodup.1 (hji ▸ hj)
      exact ⟨hjlt, by simp [hfreed1.free, hjfree, hji]⟩
    refine ⟨s', ?_, hfreed1.append hfreed'⟩
    rw [foldlM_cons, hs1]
    exact hs'

omit [DecidableEq β] in
theorem allocDesc_some (h : s.allocDesc = (s', some i)) :
    i < NUM ∧ s.free i = true ∧ s' = { s with free := Function.update s.free i false } := by
  rw [allocDesc] at h
  split at h
  case h_1 j hj =>
    rw [Prod.mk.injEq, Option.some.injEq] at h
    obtain ⟨rfl, rfl⟩ := h
    exact ⟨mem_range.1 (mem_of_find?_eq_some hj), find?_some hj, rfl⟩
  case h_2 => cases h

omit [DecidableEq β] in
theorem allocDesc_none (h : s.allocDesc = (s', none)) : s' = s := by
  rw [allocDesc] at h
  split at h
  case h_1 => cases h
  case h_2 => exact (congrArg Prod.fst h).symm

def taking (s : State ι β) (l : List ℕ) : State ι β :=
  { s with free := fun i => s.free i && decide (i ∉ l) }

theorem alloc3Loop_spec {k : ℕ} {idx : List ℕ} (hnodup : idx.Nodup)
    (hidx : ∀ i ∈ idx, i < NUM ∧ s.free i = true) :
    ∃ l : List ℕ, l.Nodup ∧ (∀ i ∈ l, i < NUM ∧ s.free i = true) ∧
      ((alloc3Loop k idx (s.taking idx) = .ok (s.taking l, some l) ∧ l.length = idx.length + k) ∨
        ∃ s', alloc3Loop k idx (s.taking idx) = .ok (s', none) ∧ Freed (s.taking l) l s') := by
  induction k generalizing idx with
  | zero => exact ⟨idx, hnodup, hidx, .inl ⟨rfl, rfl⟩⟩
  | succ k ih =>
    cases halloc : (s.taking idx).allocDesc with
    | mk s₁ r =>
      cases r with
      | none =>
        obtain rfl := allocDesc_none halloc
        obtain ⟨s', hs', hfreed⟩ := foldlM_freeDesc (s := s.taking idx) hnodup fun i hi =>
          ⟨(hidx i hi).1, by simp [taking, hi]⟩
        refine ⟨idx, hnodup, hidx, .inr ⟨s', ?_, hfreed⟩⟩
        rw [alloc3Loop, halloc]
        change (idx.foldlM freeDesc (s.taking idx) >>= fun s => .ok (s, none)) = _
        rw [hs']
        rfl
      | some i =>
        obtain ⟨hi, hfree, rfl⟩ := allocDesc_some halloc
        have hfree' : s.free i = true ∧ i ∉ idx := by simpa [taking] using hfree
        have htake : { s.taking idx with free := Function.update (s.taking idx).free i false } =
            s.taking (idx ++ [i]) := by
          simp only [taking, State.mk.injEq, true_and, and_true]
          funext j
          by_cases hji : j = i
          · simp [hji]
          · simp [hji]
        have hnodup' : (idx ++ [i]).Nodup := by
          rw [nodup_append]
          refine ⟨hnodup, nodup_singleton i, fun a ha b hb => ?_⟩
          rw [mem_singleton] at hb
          rintro rfl
          exact hfree'.2 (hb ▸ ha)
        obtain ⟨l, hl, hlfree, hres⟩ := ih hnodup' fun j hj => by
          rcases mem_append.1 hj with hj | hj
          · exact hidx j hj
          · rw [mem_singleton.1 hj]
            exact ⟨hi, hfree'.1⟩
        refine ⟨l, hl, hlfree, ?_⟩
        rw [alloc3Loop, halloc, htake]
        rcases hres with ⟨hok, hlen⟩ | hres
        · refine .inl ⟨hok, ?_⟩
          rw [hlen, length_append, length_singleton]
          omega
        · exact .inr hres

theorem alloc3Desc_spec (s : State ι β) :
    (∃ idx : Idx, s.alloc3Desc = .ok (s.taking idx.list, some idx.list) ∧ idx.list.Nodup ∧
      ∀ i ∈ idx.list, i < NUM ∧ s.free i = true) ∨
    ∃ l s', s.alloc3Desc = .ok (s', none) ∧ (∀ i ∈ l, s.free i = true) ∧
      Freed (s.taking l) l s' := by
  have hnil : s.taking [] = s := by simp [taking]
  obtain ⟨l, hnodup, hl, hres⟩ := alloc3Loop_spec (k := 3) (s := s) nodup_nil (by simp)
  rw [hnil] at hres
  rcases hres with ⟨hok, hlen⟩ | ⟨s', hok, hfreed⟩
  · obtain ⟨i, j, k, rfl⟩ := length_eq_three.1 hlen
    exact .inl ⟨⟨i, j, k⟩, hok, hnodup, hl⟩
  · exact .inr ⟨l, s', hok, fun i hi => (hl i hi).2, hfreed⟩

theorem freeChain_spec {idx : Idx} (hnodup : idx.list.Nodup)
    (hidx : ∀ i ∈ idx.list, i < NUM ∧ s.free i = false)
    (h0 : (s.desc idx.i0).hasNext = true ∧ (s.desc idx.i0).next = idx.i1)
    (h1 : (s.desc idx.i1).hasNext = true ∧ (s.desc idx.i1).next = idx.i2)
    (h2 : (s.desc idx.i2).hasNext = false) :
    ∃ s', freeChain NUM s idx.i0 = .ok s' ∧ Freed s idx.list s' := by
  obtain ⟨i0, i1, i2⟩ := idx
  have hne : i0 ≠ i1 ∧ i0 ≠ i2 ∧ i1 ≠ i2 := by
    simp only [Idx.list, nodup_cons, mem_cons, not_mem_nil, or_false, not_or] at hnodup
    exact ⟨hnodup.1.1, hnodup.1.2, hnodup.2.1⟩
  simp only [Idx.list, mem_cons, not_mem_nil, or_false, forall_eq_or_imp, forall_eq] at hidx
  obtain ⟨hi0, hi1, hi2⟩ := hidx
  obtain ⟨s₁, hs1, hf1⟩ := freeDesc_spec hi0.1 hi0.2
  have hd1 : ∀ j, j ≠ i0 → s₁.desc j = s.desc j := fun j hj => hf1.desc j (by simpa using hj)
  have hfr1 : ∀ j, j ≠ i0 → s₁.free j = s.free j := fun j hj => by simp [hf1.free, hj]
  obtain ⟨s2, hs2, hf2⟩ := freeDesc_spec (s := s₁) hi1.1 (by rw [hfr1 _ hne.1.symm, hi1.2])
  have hd2 : ∀ j, j ≠ i1 → s2.desc j = s₁.desc j := fun j hj => hf2.desc j (by simpa using hj)
  have hfr2 : ∀ j, j ≠ i1 → s2.free j = s₁.free j := fun j hj => by simp [hf2.free, hj]
  obtain ⟨s3, hs3, hf3⟩ := freeDesc_spec (s := s2) hi2.1
    (by rw [hfr2 _ hne.2.2.symm, hfr1 _ hne.2.1.symm, hi2.2])
  refine ⟨s3, ?_, (hf1.append hf2).append hf3⟩
  have hstep1 : s₁.desc i1 = s.desc i1 := hd1 _ hne.1.symm
  have hstep2 : s2.desc i2 = s.desc i2 := (hd2 _ hne.2.2.symm).trans (hd1 _ hne.2.1.symm)
  simp only at h0 h1 h2
  simp only [NUM, freeChain, hs1, h0, hstep1, hs2, h1, hstep2, hs3, h2, bind, Except.bind, if_true,
    Bool.false_eq_true, if_false]

end State

end Xv6.Virtio

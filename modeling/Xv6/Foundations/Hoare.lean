import Mathlib.Data.List.Basic
import Mathlib.Tactic.Common

/-!
# Pre- and postconditions of programs with a state and halts

A `Prog σ ε α` reads and writes a state in `σ`, and either returns a value in `α` or halts with an
`ε`.
-/

namespace Xv6.Hoare

variable {σ ε α β γ : Type}

abbrev Prog (σ ε α : Type) := StateT σ (Except ε) α

/-- A program on a part of the state. -/
def zoom {τ δ : Type} (get : σ → τ) (put : σ → τ → σ) (err : δ → ε) (y : Prog τ δ α) :
    Prog σ ε α := fun s =>
  match y (get s) with
  | .ok (a, t) => .ok (a, put s t)
  | .error e => .error (err e)

def Wp (x : Prog σ ε α) (s : σ) (Q : α → σ → Prop) (E : ε → Prop) : Prop :=
  match x s with
  | .ok (a, s') => Q a s'
  | .error e => E e

section Rules

variable {x : Prog σ ε α} {f : α → Prog σ ε β} {s : σ} {Q R : α → σ → Prop} {E F : ε → Prop}

/-! ## Rules for the primitives -/

@[simp] theorem wp_pure (a : α) : Wp (pure a : Prog σ ε α) s Q E ↔ Q a s := Iff.rfl

@[simp] theorem wp_get (Q : σ → σ → Prop) : Wp (get : Prog σ ε σ) s Q E ↔ Q s s := Iff.rfl

@[simp] theorem wp_set (s' : σ) (Q : PUnit → σ → Prop) :
    Wp (set s' : Prog σ ε PUnit) s Q E ↔ Q ⟨⟩ s' := Iff.rfl

@[simp] theorem wp_modify (g : σ → σ) (Q : PUnit → σ → Prop) :
    Wp (modify g : Prog σ ε PUnit) s Q E ↔ Q ⟨⟩ (g s) := Iff.rfl

@[simp] theorem wp_throw (e : ε) : Wp (throw e : Prog σ ε α) s Q E ↔ E e := Iff.rfl

@[simp] theorem wp_bind {Q : β → σ → Prop} :
    Wp (x >>= f) s Q E ↔ Wp x s (fun a s' => Wp (f a) s' Q E) E := by
  unfold Wp
  change (match (StateT.bind x f s : Except ε (β × σ)) with | .ok (a, s') => _ | .error e => _) ↔ _
  unfold StateT.bind
  rcases h : x s with e | ⟨a, s'⟩
  · simp [bind, Except.bind]
  · simp [bind, Except.bind]

theorem wp_ite {c : Prop} [Decidable c] {y : Prog σ ε α} :
    Wp (if c then x else y) s Q E ↔ (c → Wp x s Q E) ∧ (¬ c → Wp y s Q E) := by
  by_cases h : c <;> simp [h]

/-! ## Consequence and conjunction -/

variable (h : Wp x s Q E)

include h

theorem Wp.mono (hQ : ∀ a s', Q a s' → R a s') : Wp x s R E := by
  unfold Wp at h ⊢
  split
  · next heq => rw [heq] at h; exact hQ _ _ h
  · next heq => rw [heq] at h; exact h

theorem Wp.mono_halt (hE : ∀ e, E e → F e) : Wp x s Q F := by
  unfold Wp at h ⊢
  split
  · next heq => rw [heq] at h; exact h
  · next heq => rw [heq] at h; exact hE _ h

theorem Wp.and (h' : Wp x s R F) :
    Wp x s (fun a s' => Q a s' ∧ R a s') (fun e => E e ∧ F e) := by
  unfold Wp at h h' ⊢
  split
  · next heq => rw [heq] at h h'; exact ⟨h, h'⟩
  · next heq => rw [heq] at h h'; exact ⟨h, h'⟩

theorem Wp.and_returns (h' : Wp x s R fun _ => True) :
    Wp x s (fun a s' => Q a s' ∧ R a s') E := (h.and h').mono_halt fun _ he => he.1

omit h

theorem Wp.seq {Q : β → σ → Prop} (h : Wp x s R E)
    (hf : ∀ a s', R a s' → Wp (f a) s' Q E) : Wp (x >>= f) s Q E := wp_bind.mpr (h.mono hf)

theorem Wp.get_seq {g : σ → Prog σ ε β} {Q : β → σ → Prop} (h : Wp (g s) s Q E) :
    Wp (MonadState.get >>= g) s Q E := wp_bind.mpr h

section Zoom

variable {τ δ : Type} {get : σ → τ} {put : σ → τ → σ} {err : δ → ε} {y : Prog τ δ α}

@[simp] theorem wp_zoom : Wp (zoom get put err y) s Q E ↔
    Wp y (get s) (fun a t => Q a (put s t)) fun e => E (err e) := by
  unfold Wp zoom
  rcases y (get s) with e | ⟨a, t⟩ <;> rfl

theorem Wp.zoom_seq {P : α → τ → Prop} {Q : β → σ → Prop} (h : Wp y (get s) P fun e => E (err e))
    (hf : ∀ a t, P a t → Wp (f a) (put s t) Q E) : Wp (zoom get put err y >>= f) s Q E :=
  wp_bind.mpr (wp_zoom.mpr (h.mono hf))

end Zoom

theorem Wp.modify_seq {u : σ → σ} {g : PUnit → Prog σ ε β} {Q : β → σ → Prop}
    (h : Wp (g ⟨⟩) (u s) Q E) : Wp (modify u >>= g) s Q E := wp_bind.mpr h

include h

theorem Wp.of_ok {a : α} {s' : σ} (hrun : x s = .ok (a, s')) : Q a s' := by
  unfold Wp at h
  rw [hrun] at h
  exact h

theorem Wp.of_error {e : ε} (hrun : x s = .error e) : E e := by
  unfold Wp at h
  rw [hrun] at h
  exact h

omit h

theorem Wp.exists_ok (h : Wp x s Q fun _ => False) : ∃ a s', x s = .ok (a, s') ∧ Q a s' := by
  rcases hrun : x s with e | ⟨a, s'⟩
  · exact (h.of_error hrun).elim
  · exact ⟨a, s', rfl, h.of_ok hrun⟩

theorem wp_iff : Wp x s Q E ↔
    (∀ a s', x s = .ok (a, s') → Q a s') ∧ ∀ e, x s = .error e → E e := by
  unfold Wp
  split
  · next heq => simp [heq]
  · next heq => simp [heq]

theorem Wp.forM_range' {u : ℕ → Prog σ ε PUnit} {I : ℕ → σ → Prop} :
    ∀ {n a : ℕ} {s : σ}, I a s →
      (∀ k, a ≤ k → k < a + n → ∀ s, I k s → Wp (u k) s (fun _ s' => I (k + 1) s') E) →
      Wp ((List.range' a n).forM u) s (fun _ s' => I (a + n) s') E
  | 0, _, _, h0, _ => h0
  | n + 1, a, s, h0, hstep => by
    have hlt : a < a + (n + 1) := by omega
    refine (hstep a (Nat.le_refl a) hlt s h0).seq fun _ s1 h1 => ?_
    have hrest := Wp.forM_range' (n := n) h1 fun k hk hk' => hstep k (by omega) (by omega)
    rwa [Nat.add_right_comm, Nat.add_assoc] at hrest

theorem Wp.forM_range {u : ℕ → Prog σ ε PUnit} {I : ℕ → σ → Prop} {n : ℕ} (h0 : I 0 s)
    (hstep : ∀ k < n, ∀ s, I k s → Wp (u k) s (fun _ s' => I (k + 1) s') E) :
    Wp ((List.range n).forM u) s (fun _ s' => I n s') E := by
  have h := Wp.forM_range' (n := n) h0 fun k _ hk => hstep k (by omega)
  rwa [Nat.zero_add, ← List.range_eq_range'] at h

end Rules

/-! ## Partial correctness -/

abbrev Returns (x : Prog σ ε α) (s : σ) (Q : α → σ → Prop) : Prop := Wp x s Q fun _ => True

/-! ## Frames -/

def Keeps (f : σ → γ) (x : Prog σ ε α) : Prop :=
  ∀ s, Returns x s fun _ s' => f s' = f s

namespace Keeps

variable {f : σ → γ} {x y : Prog σ ε α} {g : α → Prog σ ε β}

theorem pure (a : α) : Keeps f (pure a : Prog σ ε α) := fun _ => rfl

theorem get : Keeps f (get : Prog σ ε σ) := fun _ => rfl

theorem throw (e : ε) : Keeps f (throw e : Prog σ ε α) := fun _ => trivial

theorem modify {u : σ → σ} (h : ∀ s, f (u s) = f s) : Keeps f (modify u : Prog σ ε PUnit) := h

theorem bind (hx : Keeps f x) (hg : ∀ a, Keeps f (g a)) : Keeps f (x >>= g) := by
  intro s
  refine (hx s).seq ?_
  intro a s' hs'
  exact (hg a s').mono fun _ _ h => h.trans hs'

theorem ite {c : Prop} [Decidable c] (hx : Keeps f x) (hy : Keeps f y) :
    Keeps f (if c then x else y) := by
  split
  · exact hx
  · exact hy

theorem forM {ι : Type} {u : ι → Prog σ ε PUnit} (h : ∀ i, Keeps f (u i)) :
    ∀ l : List ι, Keeps f (l.forM u)
  | [] => Keeps.pure _
  | i :: l => Keeps.bind (h i) fun _ => Keeps.forM h l

theorem comp {δ : Type} (h : γ → δ) (hx : Keeps f x) : Keeps (fun s => h (f s)) x :=
  fun s => (hx s).mono fun _ _ hs => congrArg h hs

end Keeps

end Xv6.Hoare

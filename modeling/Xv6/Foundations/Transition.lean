import Mathlib.Data.Option.Basic
import Mathlib.Logic.Function.Basic

/-!
# Guarded runs of a partial step function

A system is a partial step function `σ → α → Option σ` on states and actions.
-/

namespace Xv6.Transition

variable {σ α η : Type*}

/-- A guard on transitions: which actions are admitted in which states. -/
abbrev Guard (σ α : Type*) := σ → α → Prop

inductive Reach (step : σ → α → Option σ) (ok : Guard σ α) (s₀ : σ) : σ → Prop
  | refl : Reach step ok s₀ s₀
  | tail {s s' : σ} {a : α} : Reach step ok s₀ s → ok s a → step s a = some s' →
      Reach step ok s₀ s'

namespace Reach

variable {step : σ → α → Option σ} {ok ok' : Guard σ α} {s₀ s₁ s : σ}

/-- **The invariant rule**: what holds initially and is kept by every admitted step holds in every
state reached. -/
theorem invariant {I : σ → Prop} (h0 : I s₀)
    (hstep : ∀ s a s', I s → ok s a → step s a = some s' → I s')
    (h : Reach step ok s₀ s) : I s := by
  induction h with
  | refl => exact h0
  | tail _ hok hs ih => exact hstep _ _ _ ih hok hs

theorem trans (h1 : Reach step ok s₀ s₁) (h2 : Reach step ok s₁ s) : Reach step ok s₀ s := by
  induction h2 with
  | refl => exact h1
  | tail _ hok hs ih => exact ih.tail hok hs

theorem mono (h : Reach step ok s₀ s) (himp : ∀ s a, ok s a → ok' s a) :
    Reach step ok' s₀ s := by
  induction h with
  | refl => exact .refl
  | tail _ hok hs ih => exact ih.tail (himp _ _ hok) hs

end Reach

/-! ## Executing a list of actions -/

/-- Execute the actions in order; `none` when one of them is not enabled. -/
def runActs (step : σ → α → Option σ) : σ → List α → Option σ
  | s, [] => some s
  | s, a :: as => (step s a).bind fun s' => runActs step s' as

variable {as : List α}

theorem reach_of_runActs {step : σ → α → Option σ} {s₀ s : σ}
    (h : runActs step s₀ as = some s) : Reach step (fun _ _ => True) s₀ s := by
  induction as generalizing s₀ with
  | nil =>
    obtain rfl : s₀ = s := by simpa [runActs] using h
    exact .refl
  | cons a as ih =>
    obtain ⟨s₁, h1, h2⟩ := Option.bind_eq_some_iff.mp h
    exact (Reach.refl.tail trivial h1).trans (ih h2)

/-- The state after the actions; the initial one when some action is not enabled. -/
def result (step : σ → α → Option σ) (s₀ : σ) (as : List α) : σ := (runActs step s₀ as).getD s₀

theorem runActs_eq_result {step : σ → α → Option σ} {s₀ : σ}
    (h : (runActs step s₀ as).isSome = true) : runActs step s₀ as = some (result step s₀ as) := by
  obtain ⟨s, hs⟩ := Option.isSome_iff_exists.mp h
  rw [result, hs, Option.getD_some]

theorem runActs_append (step : σ → α → Option σ) (s₀ : σ) (as bs : List α) :
    runActs step s₀ (as ++ bs) = (runActs step s₀ as).bind fun s => runActs step s bs := by
  induction as generalizing s₀ with
  | nil => rfl
  | cons a as ih =>
    simp only [List.cons_append, runActs, Option.bind_assoc]
    exact congrArg _ (funext fun s => ih s)

theorem step_result {step : σ → α → Option σ} {a : α} {s₀ : σ}
    (h : (runActs step s₀ (as ++ [a])).isSome = true) :
    step (result step s₀ as) a = some (result step s₀ (as ++ [a])) := by
  have hall := runActs_eq_result h
  rw [runActs_append] at hall
  obtain ⟨s, hs, hlast⟩ := Option.bind_eq_some_iff.mp hall
  obtain ⟨s', hs', hlast'⟩ := Option.bind_eq_some_iff.mp hlast
  obtain rfl : s' = result step s₀ (as ++ [a]) := Option.some.inj hlast'
  rw [result, hs, Option.getD_some, hs']

theorem reach_result {step : σ → α → Option σ} {s₀ : σ}
    (h : (runActs step s₀ as).isSome = true) :
    Reach step (fun _ _ => True) s₀ (result step s₀ as) := reach_of_runActs (runActs_eq_result h)

/-- Execute the actions in order, checking a decidable guard at each of them. -/
def runActsWith (step : σ → α → Option σ) (ok : σ → α → Bool) : σ → List α → Option σ
  | s, [] => some s
  | s, a :: as =>
    if ok s a then (step s a).bind fun s' => runActsWith step ok s' as else none

theorem reach_of_runActsWith {step : σ → α → Option σ} {ok : σ → α → Bool}
    {s₀ s : σ} (h : runActsWith step ok s₀ as = some s) :
    Reach step (fun s a => ok s a = true) s₀ s := by
  induction as generalizing s₀ with
  | nil =>
    obtain rfl : s₀ = s := by simpa [runActsWith] using h
    exact .refl
  | cons a as ih =>
    rw [runActsWith] at h
    split at h
    · rename_i hok
      obtain ⟨s₁, h1, h2⟩ := Option.bind_eq_some_iff.mp h
      have hfst : Reach step (fun s a => ok s a = true) s₀ s₁ := .tail .refl hok h1
      exact hfst.trans (ih h2)
    · cases h

theorem exists_reach {β : Type*} (step : σ → α → Option σ) (ok : σ → α → Bool) (s₀ : σ)
    (as : List α) (f : σ → β) (b : β) (h : (runActsWith step ok s₀ as).map f = some b) :
    ∃ s, Reach step (fun s a => ok s a = true) s₀ s ∧ f s = b := by
  obtain ⟨s, hs, hf⟩ := Option.map_eq_some_iff.mp h
  exact ⟨s, reach_of_runActsWith hs, hf⟩

/-! ## History variables -/

/-- The system with a history component, updated from the state before each step and the action. -/
def withHistory (step : σ → α → Option σ) (upd : η → σ → α → η) : σ × η → α → Option (σ × η) :=
  fun s a => (step s.1 a).map fun s' => (s', upd s.2 s.1 a)

theorem withHistory_eq_some {step : σ → α → Option σ} {upd : η → σ → α → η} {s s' : σ × η} {a : α} :
    withHistory step upd s a = some s' ↔ step s.1 a = some s'.1 ∧ s'.2 = upd s.2 s.1 a := by
  obtain ⟨s', h'⟩ := s'
  simp only [withHistory, Option.map_eq_some_iff, Prod.mk.injEq]
  constructor
  · rintro ⟨t, ht, rfl, rfl⟩
    exact ⟨ht, rfl⟩
  · rintro ⟨ht, rfl⟩
    exact ⟨s', ht, rfl, rfl⟩

end Xv6.Transition

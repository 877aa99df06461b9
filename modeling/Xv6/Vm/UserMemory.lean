import Xv6.Vm.Isolation

/-!
# The memory of a user program

The loads and stores of a program, with the page faults in between. The program finds a plain array
of bytes, with zeros where nothing was stored: which pages are there and when `vmfault` adds one is
not visible (`program_sees_bytes`).
-/

namespace Xv6.Vm

open Hoare Space Option

inductive Access
  | load (va : ℕ)
  | store (va : ℕ) (b : UInt8)

/-- The byte that is loaded or stored; `none` if the process is killed. -/
def Access.run (ly : Layout) (p : Space) : Access → VmM (Space × Option UInt8)
  | .load va => do
    let r ← userAccess ly false p va
    let s ← get
    pure (r.1, r.2.map fun pa => s.data pa (va % PGSIZE))
  | .store va b => do
    let r ← userAccess ly true p va
    modify fun s => r.2.elim s fun pa => s.fill pa ((s.data pa).write (va % PGSIZE) [b])
    pure (r.1, r.2.map fun _ => b)

/-- The program runs until it has made its accesses or is killed. -/
def program (ly : Layout) : Space → List Access → VmM (Space × List UInt8)
  | p, [] => pure (p, [])
  | p, a :: as => do
    let r ← a.run ly p
    match r.2 with
    | none => pure (r.1, [])
    | some b => do
      let r' ← program ly r.1 as
      pure (r'.1, b :: r'.2)

/-! ## An array of bytes -/

def Access.va : Access → ℕ
  | .load va | .store va _ => va

def Access.isStore : Access → Bool
  | .load _ => false
  | .store _ _ => true

def Access.effect (f : ℕ → Option UInt8) : Access → ℕ → Option UInt8
  | .load _ => f
  | .store va b => Function.update f va (some b)

def Access.value (f : ℕ → Option UInt8) (a : Access) : Option UInt8 := a.effect f a.va

/-- The process may make the access. -/
def Space.Allows (p : Space) (a : Access) : Prop :=
  a.va < p.sz ∧ p.can (fun perm => perm.u && if a.isStore then perm.w else perm.r) a.va

/-- The bytes `out` are those of the first accesses to the array `f`, which then is `g`. -/
def Agrees (f : ℕ → Option UInt8) : List Access → List UInt8 → (ℕ → Option UInt8) → Prop
  | _, [], g => g = f
  | [], _ :: _, _ => False
  | a :: as, b :: out, g => a.value f = some b ∧ Agrees (a.effect f) as out g

variable {ly : Layout} {s s' : Mem} {p : Space} {R : Multiset ℕ} {E : Halt → Prop} {va : ℕ}

theorem Access.run_spec (h : p.Fits ly s R) (a : Access) :
    Wp (a.run ly p) s (fun r s' => r.1.Fits ly s' R ∧ Frame R s s' ∧ p.Lazy r.1 ∧ match r.2 with
      | some b => a.value (p.view s) = some b ∧ r.1.view s' = a.effect (p.view s)
      | none => r.1.view s' = p.view s ∧ (s'.denied = true ∨ ¬ p.Allows a)) E := by
  cases a with
  | load va =>
    refine (userAccess_spec h false va).seq ?_
    rintro ⟨q, _ | pa⟩ s1 ⟨hfits, hframe, hlazy, hview, hres⟩
    · exact ⟨hfits, hframe, hlazy, hview, hres⟩
    obtain ⟨l, hl, hu, rfl⟩ := hres
    refine ⟨hfits, hframe, hlazy, ?_, hview⟩
    rw [value, effect, Access.va, ← hview]
    exact view_of_leaf hl hu
  | store va b =>
    refine (userAccess_spec h true va).seq ?_
    rintro ⟨q, _ | pa⟩ s1 ⟨hfits, hframe, hlazy, hview, hres⟩
    · exact ⟨hfits, hframe, hlazy, hview, hres⟩
    obtain ⟨l, hl, hu, rfl⟩ := hres
    have hlow : va / PGSIZE < USERPAGES := by
      refine hfits.lt_userpages ?_
      rwa [Readable, can, hl]
    have hwrite := hfits.view_write hl hu
      (show [b].length ≤ _ from Nat.sub_pos_of_lt (Nat.mod_lt _ (by decide)))
    have hnot := hfits.holds.not_mem (mem_leafPages hlow hl)
    refine ⟨hfits.fill _, hframe.trans (Frame.fill hnot _), hlazy, ?_, ?_⟩
    · simp [value, effect, Access.va]
    rw [← hview]
    refine hwrite.trans (funext fun c => ?_)
    by_cases hc : c = va
    · simp [overwrite, effect, hc]
    · rw [overwrite, if_neg (by simp; omega), effect, Function.update_of_ne hc]

theorem Space.Lazy.allows_iff {q : Space} (h : p.Lazy q) (a : Access) :
    q.Allows a ↔ p.Allows a := by
  rw [Allows, Allows, h.size, h.can_iff]
  cases a <;> rfl

theorem program_spec (h : p.Fits ly s R) (as : List Access) :
    Wp (program ly p as) s (fun r s' => r.1.Fits ly s' R ∧ Frame R s s' ∧
      Agrees (p.view s) as r.2 (r.1.view s') ∧ (r.2.length = as.length ∨ s'.denied = true ∨
        ∃ a, as[r.2.length]? = some a ∧ ¬ p.Allows a)) E := by
  induction as generalizing p s with
  | nil => exact ⟨h, .refl _ _, rfl, .inl rfl⟩
  | cons a as ih =>
    refine (a.run_spec h).seq ?_
    rintro ⟨q, _ | b⟩ s1 ⟨hfits, hframe, hlazy, hres⟩
    · exact ⟨hfits, hframe, hres.1, .inr (hres.2.imp_right fun hnot => ⟨a, rfl, hnot⟩)⟩
    refine (ih hfits).seq ?_
    rintro r s2 ⟨hfits2, hframe2, hagrees, hstop⟩
    rw [hres.2] at hagrees
    simp only [hlazy.allows_iff] at hstop
    exact ⟨hfits2, hframe.trans hframe2, ⟨hres.1, hagrees⟩, hstop.imp_left (congrArg (· + 1))⟩

/-- **A program sees bytes.** The loads and stores of a process, in any number and order, give the
bytes that an array would, up to an access that the process may not make or for which there is no
memory; the pages of everything else are left alone. -/
theorem program_sees_bytes (h : p.Fits ly s R) (as : List Access) :
    ∃ q out s', program ly p as s = .ok ((q, out), s') ∧ q.Fits ly s' R ∧ Frame R s s' ∧
      Agrees (p.view s) as out (q.view s') ∧ (out.length = as.length ∨ s'.denied = true ∨
        ∃ a, as[out.length]? = some a ∧ ¬ p.Allows a) := by
  obtain ⟨⟨q, out⟩, s', hrun, hres⟩ := (program_spec h as).exists_ok
  exact ⟨q, out, s', hrun, hres⟩

/-- A process without pages stores a byte and reads it back, and next to it a zero. -/
theorem program_sees_bytes_fresh : ∃ q s',
    program ⟨0, 4, 9, [0, 1, 2, 3], by decide, by decide⟩ ⟨6000, .empty 0⟩
      [.store 5000 7, .load 5000, .load 5001] ⟨[1, 2, 3], fun _ _ => 9, [], false⟩ =
        .ok ((q, [7, 7, 0]), s') ∧ q.view s' 5000 = some 7 := by
  have hfits : Space.Fits ⟨0, 4, 9, [0, 1, 2, 3], by decide, by decide⟩
      ⟨[1, 2, 3], fun _ _ => 9, [], false⟩ ⟨6000, .empty 0⟩ 0 := .empty rfl (by decide)
  obtain ⟨q, out, s', hrun, -, -, hagrees, -⟩ := program_sees_bytes hfits
    [.store 5000 7, .load 5000, .load 5001]
  have hout : (program ⟨0, 4, 9, [0, 1, 2, 3], by decide, by decide⟩ ⟨6000, .empty 0⟩
      [.store 5000 7, .load 5000, .load 5001] ⟨[1, 2, 3], fun _ _ => 9, [], false⟩).toOption.map
        (·.1.2) = some [7, 7, 0] := by decide +kernel
  rw [hrun] at hout
  obtain rfl := Option.some.inj hout
  refine ⟨q, s', hrun, ?_⟩
  rw [hagrees.2.2.2]
  simp [Access.effect]

end Xv6.Vm

import Xv6.Log.Commit
import Xv6.Foundations.Transition

/-!
# Crash atomicity of the redo log

`Kernel` runs transactions one after the other on a disk: any sequence of `log_write`s, then
`commit`.

## Main results

* `crash_atomic`: recovery from a crash at any point gives all of a transaction or none
-/

namespace Xv6.Log

open Transition

/-- The kernel between boots: its blocks, and where it is in `commit` or `recover_from_log`. -/
structure Kernel where
  store : Store
  point : Point

inductive Kernel.Act
  /-- The running transaction calls `log_write(b)`, having filled `b` with `x`. -/
  | logWrite (b : ℕ) (x : Block)
  /-- The running transaction ends and `commit` is called. -/
  | commit
  /-- `commit` or `recover_from_log` goes on, up to its next `bwrite`. -/
  | step
  | crash (keep : Sectors)

namespace Kernel

variable (start : ℕ)

def boot (d : ℕ → Block) : Kernel := { store := .boot d, point := .readHead }

def step (k : Kernel) : Act → Option Kernel
  | .logWrite b x =>
    if k.point = .idle ∧ k.store.lh.length < LOGBLOCKS then
      some { k with store := k.store.logWrite b x }
    else none
  | .commit => if k.point = .idle then some { k with point := .commit } else none
  | .step =>
    if k.point = .idle then none
    else
      let r := advance start k.store k.point
      some { store := r.1, point := r.2 }
  | .crash keep => some (boot (crashDisk start k.store k.point keep))

def Recovering (k : Kernel) : Act → Prop
  | .step | .crash _ => k.point ≠ .idle
  | _ => False

/-- The code runs to completion and leaves the contents `R` outside the log. -/
def Completes (R : ℕ → Block) (k : Kernel) : Prop :=
  ∃ n k', runActs (step start) k (List.replicate n .step) = some k' ∧ k'.point = .idle ∧
    Set.EqOn k'.store.disk R (home start)

/-- A boot on the disk `d` leads to the contents `R`: however often the recovery is interrupted by
crashes, running it to completion leaves them. -/
def Recovers (d R : ℕ → Block) : Prop :=
  ∀ k, Reach (step start) Recovering (boot d) k → k.Completes start R

def LogsHome : Act → Prop
  | .logWrite b _ => b ∈ home start ∧ b < 2 ^ 32
  | _ => True

instance : DecidablePred (LogsHome start)
  | .logWrite _ _ => inferInstanceAs (Decidable (_ ∧ _))
  | .commit | .step | .crash _ => inferInstanceAs (Decidable True)

end Kernel

def Txn.observe (t : Txn) (k : Kernel) : Kernel.Act → Txn
  | .logWrite b x => { t with after := Function.update t.after b x }
  | .step => t.advance k.store k.point
  | .commit | .crash _ => t

def Txn.settled (R : ℕ → Block) : Txn := { before := R, after := R, committed := false }

/-! ## Recovery -/

variable {start : ℕ} {R : ℕ → Block} {s : Store} {pt : Point} {k : Kernel}

def RecoveryInv (start : ℕ) (R : ℕ → Block) (s : Store) : Point → Prop
  | .readHead => Holds start s.disk R ∧ s.view = s.disk
  | .install true i => Installing start R s i
  | .erase true => Installed start R s
  | .idle => Set.EqOn s.disk R (home start)
  | _ => False

namespace RecoveryInv

theorem consistent (h : RecoveryInv start R s pt) (hne : pt ≠ .idle) :
    Consistent start (.settled R) s pt := by
  have hR : (Txn.settled R).Outcome R := .of_after
  cases pt with
  | idle => exact absurd rfl hne
  | commit | writeLog i | writeHead => exact h.elim
  | readHead => exact ⟨R, hR, h⟩
  | install r i =>
    cases r with
    | false => exact h.elim
    | true => exact ⟨R, hR, fun _ => rfl, h⟩
  | erase r =>
    cases r with
    | false => exact h.elim
    | true => exact ⟨R, hR, fun _ => rfl, h⟩

theorem crash (h : RecoveryInv start R s pt) (hne : pt ≠ .idle) (keep : Sectors) :
    RecoveryInv start R (.boot (crashDisk start s pt keep)) .readHead := by
  obtain ⟨R', hR', hholds⟩ := (h.consistent hne).crashDisk keep
  obtain rfl : R' = R := hR'.1.elim id id
  exact ⟨hholds, rfl⟩

theorem readHead (h : RecoveryInv start R s .readHead) :
    Installing start R (s.readHead start) 0 := by
  obtain ⟨R', hR', -, hinst⟩ := (h.consistent (by decide)).advance
  obtain rfl : R' = R := hR'.1.elim id id
  exact hinst

theorem erase (h : RecoveryInv start R s (.erase true)) :
    Set.EqOn (s.writeHead start).disk R (home start) := by
  have hp : Pending start (.settled R) (s.writeHead start) :=
    Installed.writeHead h (fun _ _ => rfl) rfl rfl
  exact hp.before

theorem advance (h : RecoveryInv start R s pt) (hne : pt ≠ .idle) :
    RecoveryInv start R (advance start s pt).1 (advance start s pt).2 := by
  cases pt with
  | idle => exact absurd rfl hne
  | commit | writeLog i | writeHead => exact h.elim
  | readHead => exact h.readHead
  | install r i =>
    cases r with
    | false => exact h.elim
    | true =>
      have hinst : Installing start R s i := h
      simp only [Log.advance]
      cases hi : s.lh[i]? with
      | none => exact hinst.finish hi
      | some b => exact hinst.installAt hi true
  | erase r =>
    cases r with
    | false => exact h.elim
    | true => exact h.erase

end RecoveryInv

namespace Kernel

theorem step_step (hne : k.point ≠ .idle) : step start k .step =
      some ⟨(advance start k.store k.point).1, (advance start k.store k.point).2⟩ := by
  simp [step, hne]

theorem recoveryInv_of_reach {d : ℕ → Block} (hd : Holds start d R)
    (h : Reach (step start) Recovering (boot d) k) : RecoveryInv start R k.store k.point := by
  have h0 : RecoveryInv start R (boot d).store (boot d).point := ⟨hd, rfl⟩
  refine Reach.invariant (I := fun k => RecoveryInv start R k.store k.point) h0 ?_ h
  intro k a k' hinv hok hstep
  cases a with
  | logWrite b x => exact hok.elim
  | commit => exact hok.elim
  | step =>
    obtain rfl := Option.some.inj ((step_step hok).symm.trans hstep)
    exact hinv.advance hok
  | crash keep =>
    obtain rfl := Option.some.inj hstep
    exact hinv.crash hok keep

theorem Completes.of_advance (hne : k.point ≠ .idle)
    (h : Completes start R ⟨(advance start k.store k.point).1, (advance start k.store k.point).2⟩) :
    Completes start R k := by
  obtain ⟨n, k', hrun, hend⟩ := h
  refine ⟨n + 1, k', ?_, hend⟩
  rw [List.replicate_succ, runActs, step_step hne, Option.bind_some, hrun]

theorem completes_install {i : ℕ} (h : Installing start R s i) :
    Completes start R ⟨s, .install true i⟩ := by
  induction hn : s.lh.length - i generalizing s i with
  | zero =>
    have hi : s.lh[i]? = none := List.getElem?_eq_none_iff.mpr (by omega)
    have hdone : RecoveryInv start R { s with lh := [] } (.erase true) := h.finish hi
    refine .of_advance (by simp) ?_
    simp only [advance, hi]
    exact .of_advance (by simp) ⟨0, _, rfl, rfl, hdone.erase⟩
  | succ n ih =>
    have hlt : i < s.lh.length := by omega
    have hi : s.lh[i]? = some s.lh[i] := List.getElem?_eq_getElem hlt
    refine .of_advance (by simp) ?_
    simp only [advance, hi]
    refine ih (h.installAt hi true) ?_
    change s.lh.length - (i + 1) = n
    omega

theorem completes (h : RecoveryInv start R k.store k.point) : Completes start R k := by
  obtain ⟨s, pt⟩ := k
  cases pt with
  | idle => exact ⟨0, _, rfl, rfl, h⟩
  | commit | writeLog i | writeHead => exact h.elim
  | readHead => exact .of_advance (by simp) (completes_install h.readHead)
  | install r i =>
    cases r with
    | false => exact h.elim
    | true => exact completes_install h
  | erase r =>
    cases r with
    | false => exact h.elim
    | true => exact .of_advance (by simp) ⟨0, _, rfl, rfl, h.erase⟩

/-- **What a disk holds is what a recovery leaves**, however often it is interrupted. -/
theorem recovers_of_holds {d : ℕ → Block} (h : Holds start d R) : Recovers start d R :=
  fun _ hk => completes (recoveryInv_of_reach h hk)

/-! ## Transactions -/

abbrev Run (start : ℕ) : Kernel × Txn → Act → Option (Kernel × Txn) :=
  withHistory (step start) Txn.observe

theorem consistent_step {t : Txn} {a : Act} {x : Kernel × Txn}
    (h : Consistent start t k.store k.point) (hok : LogsHome start a)
    (hstep : Run start (k, t) a = some x) : Consistent start x.2 x.1.store x.1.point := by
  obtain ⟨hs, ht⟩ := withHistory_eq_some.mp hstep
  rw [ht]
  cases a with
  | logWrite b y =>
    simp only [step, Option.ite_none_right_eq_some, Option.some.injEq] at hs
    obtain ⟨⟨hidle, hroom⟩, hs⟩ := hs
    rw [← hs]
    simp only [hidle] at h ⊢
    exact Pending.logWrite h hok.1 hok.2 hroom y
  | commit =>
    simp only [step, Option.ite_none_right_eq_some, Option.some.injEq] at hs
    obtain ⟨hidle, hs⟩ := hs
    rw [← hs]
    rw [hidle] at h
    exact h
  | step =>
    simp only [step, Option.ite_none_left_eq_some, Option.some.injEq] at hs
    rw [← hs.2]
    exact h.advance
  | crash keep =>
    obtain ⟨R, hR, hholds⟩ := h.crashDisk keep
    rw [← Option.some.inj hs]
    exact ⟨R, hR, hholds, rfl⟩

/-- **Crash atomicity of the redo log.** -/
theorem crash_atomic {d₀ : ℕ → Block} {x : Kernel × Txn} (hd₀ : readHead (d₀ start) = [])
    (h : Reach (Run start) (fun _ a => LogsHome start a) (boot d₀, .settled d₀) x)
    (keep : Sectors) :
    ∃ R, x.2.Outcome R ∧ Recovers start (crashDisk start x.1.store x.1.point keep) R := by
  have hinv : Consistent start x.2 x.1.store x.1.point := by
    refine Reach.invariant (I := fun x => Consistent start x.2 x.1.store x.1.point) ?_
      (fun x a x' hx hok hs => consistent_step hx hok hs) h
    exact ⟨d₀, .of_after, .of_empty hd₀ fun _ _ => rfl, rfl⟩
  obtain ⟨R, hR, hholds⟩ := hinv.crashDisk keep
  exact ⟨R, hR, recovers_of_holds hholds⟩

/-- A boot on a fresh disk, a transaction that writes one block twice and another one once, and its
`commit` up to the first write of `install_trans`. -/
def installRun : List Act :=
  [.step, .step, .step, .logWrite 40 fun _ => 6, .logWrite 41 fun _ => 8, .logWrite 40 fun _ => 7,
    .commit, .step, .step, .step, .step, .step]

theorem crash_atomic_install :
    ∃ x, Reach (Run 2) (fun _ a => LogsHome 2 a) (boot fun _ _ => 0, .settled fun _ _ => 0) x ∧
      (x.1.point, x.1.store.lh, x.2.committed) = (.install false 0, [40, 41], true) ∧
      ∃ R, x.2.Outcome R ∧
        Recovers 2 (crashDisk 2 x.1.store x.1.point fun sector => sector = 1) R := by
  obtain ⟨x, hreach, hx⟩ := exists_reach (Run 2) (fun _ a => decide (LogsHome 2 a))
    (boot fun _ _ => 0, .settled fun _ _ => 0) installRun
    (fun x => (x.1.point, x.1.store.lh, x.2.committed)) (.install false 0, [40, 41], true)
    (by decide +kernel)
  have hreach' := hreach.mono fun _ a ha => of_decide_eq_true ha
  exact ⟨x, hreach', hx, crash_atomic (by decide) hreach' _⟩

end Kernel

end Xv6.Log

import Xv6.Proc.LifecycleInv

/-!
# Free slots are clean

`freeproc` and `kexit` reset the fields of a process, `allocproc` does not: a new process starts
with whatever the last life of its slot left behind.

## Main results

* `free_slots_clean`: free slots are clean and `kkill` hits live processes, if nobody kills pid 0
-/

namespace Xv6.Life

open Thread Transition

/-- The control points of `kexit` after the files and the directory were closed. -/
def Ctl.shut (c : Ctl) : Bool :=
  c.exiting && match c with
    | .exitFiles _ => false
    | _ => true

structure Tidy (r : Proc) (c : Ctl) (b : Bool) : Prop where
  free : r.state = .unused → r = Proc.zero
  shut : c.shut = true → (r.ofile = fun _ => 0) ∧ r.cwd = 0
  blame : r.killed = true → b = true

section Tidy

variable {m m' : State} {a : Act} {q : Slot} {r r' : Proc} {c c' : Ctl} {b b' : Bool}

theorem Next.shut (h : Next m m' a q c c') : c'.shut = c.shut := by
  cases h
  case call k _ _ => cases k <;> rfl
  all_goals rfl

theorem Goes.shut (h : Goes m m' a q r c c') : c'.shut = c.shut := by
  obtain rfl | ⟨hn, -⟩ := h
  · rfl
  · exact hn.shut

theorem Ctl.shut_resume (c : Ctl) : c.resume.shut = c.shut := by
  cases c <;> rfl

theorem Ctl.shut_of_zombie (h : c.fits .zombie) : c.shut = true := by
  cases c <;> simp_all [Ctl.fits, Ctl.shut, Ctl.exiting]

theorem Proc.freeproc_eq_zero (hl : r.locked = false) (hf : r.ofile = fun _ => 0)
    (hcwd : r.cwd = 0) : r.freeproc = Proc.zero := by simp [Proc.freeproc, Proc.zero, hl, hf, hcwd]

@[simp]
theorem Proc.ofile_dispatched : (r.dispatched c).ofile = r.ofile := by
  cases c <;> rfl

@[simp]
theorem Proc.cwd_dispatched : (r.dispatched c).cwd = r.cwd := by
  cases c <;> rfl

@[simp]
theorem Proc.killed_dispatched : (r.dispatched c).killed = r.killed := by
  cases c <;> rfl

theorem Tidy.move (h : Tidy r c b) (hfine : Fine r c) (hk : ∀ p i, m.ctl p ≠ .kkillAt 0 i)
    (hm : Move m m' a q r c b r' c' b') : Tidy r' c' b' := by
  obtain ⟨hfree, hshut, hblame⟩ := h
  cases hm with
  | goes hg => exact ⟨hfree, fun hc => hshut (hg.shut ▸ hc), hblame⟩
  | parent hs hg =>
    refine ⟨fun hu => ?_, fun hc => hshut (hg.shut ▸ hc), hblame⟩
    cases hs with
    | adopted hs _ _ _ => simp [hs] at hu
    | orphaned _ hp _ _ => simp [hfree hu, Proc.zero] at hp
  | kill hp hg =>
    refine ⟨fun hu => ?_, fun hc => hshut (hg.shut ▸ hc), fun _ => rfl⟩
    obtain ⟨p, i, hp⟩ := hp
    have hz : r.state = .unused := by
      unfold Proc.kill at hu
      split_ifs at hu
      exact hu
    rw [hfree hz] at hp
    exact absurd hp (hk p i)
  | files =>
    refine ⟨fun hu => ?_, fun _ => ⟨rfl, rfl⟩, hblame⟩
    have hfits := hfine.fits
    simp [Ctl.fits, show r.state = .unused from hu] at hfits
  | zombie => exact ⟨(by rintro ⟨⟩), fun _ => hshut rfl, hblame⟩
  | switched =>
    refine ⟨fun hu => ?_, fun _ => hshut rfl, hblame⟩
    have hfits := hfine.fits
    simp [Ctl.fits, show r.state = .unused from hu] at hfits
  | sleepLock =>
    refine ⟨fun hu => ?_, (by rintro ⟨⟩), hblame⟩
    have hfits := hfine.fits
    simp [Ctl.fits, show r.state = .unused from hu] at hfits
  | asleep => exact ⟨(by rintro ⟨⟩), (by rintro ⟨⟩), hblame⟩
  | kexec hrun => exact ⟨fun hu => by simp [hrun] at hu, hshut, hblame⟩
  | fault hrun => exact ⟨fun hu => by simp [hrun] at hu, hshut, fun _ => rfl⟩
  | sleepOther hrun => exact ⟨(by rintro ⟨⟩), (by rintro ⟨⟩), hblame⟩
  | dispatch hs =>
    refine ⟨by simp, ?_, ?_⟩
    · intro hc
      simpa using hshut (c.shut_resume ▸ hc)
    · simpa using hblame
  | yield hrun _ _ => exact ⟨(by rintro ⟨⟩), hshut, hblame⟩
  | woken hs => exact ⟨(by rintro ⟨⟩), hshut, hblame⟩
  | alloc hs _ _ =>
    refine ⟨(by rintro ⟨⟩), (by rintro ⟨⟩), fun hkill => ?_⟩
    simp [Proc.copied, hfree hs, Proc.zero] at hkill
  | allocFail hs =>
    have hz : r.freeproc = r := by
      rw [hfree hs]
      rfl
    rw [hz]
    exact ⟨hfree, hshut, hblame⟩
  | start hs => exact ⟨(by rintro ⟨⟩), hshut, hblame⟩
  | reaped hs hl _ =>
    obtain ⟨hf, hcwd⟩ := hshut (Ctl.shut_of_zombie (hs ▸ hfine.fits))
    exact ⟨fun _ => Proc.freeproc_eq_zero hl hf hcwd, hshut, (by rintro ⟨⟩)⟩

theorem Goes.kkill_ne_zero (h : Goes m m' a q r c c') (hc : ∀ i, c ≠ .kkillAt 0 i)
    (ha : a ≠ .call q (.kkill 0)) (i : ℕ) : c' ≠ .kkillAt 0 i := by
  rintro rfl
  obtain h | ⟨hn, -⟩ := h
  · exact hc i h.symm
  generalize hc' : Ctl.kkillAt 0 i = c' at hn
  cases hn
  case call k hcall _ =>
    cases k with
    | kkill pid =>
      obtain ⟨rfl, -⟩ : 0 = pid ∧ i = 0 := by simpa [Call.entry] using hc'
      exact ha hcall
    | _ => simp [Call.entry] at hc'
  case kkillSkip pid j =>
    obtain ⟨rfl, -⟩ : 0 = pid ∧ i = j + 1 := by simpa using hc'
    exact hc j rfl
  all_goals cases hc'

theorem Move.kkill_ne_zero (hm : Move m m' a q r c b r' c' b') (hc : ∀ i, c ≠ .kkillAt 0 i)
    (ha : a ≠ .call q (.kkill 0)) (i : ℕ) : c' ≠ .kkillAt 0 i := by
  cases hm with
  | goes hg => exact hg.kkill_ne_zero hc ha i
  | parent _ hg => exact hg.kkill_ne_zero hc ha i
  | kill _ hg => exact hg.kkill_ne_zero hc ha i
  | dispatch _ => cases c <;> simp_all [Ctl.resume]
  | yield _ _ _ => exact hc i
  | woken _ => exact hc i
  | allocFail _ => exact hc i
  | start _ => exact hc i
  | reaped _ _ _ => exact hc i
  | _ => simp

end Tidy

structure Clean (m : State) : Prop where
  wf : Wf m
  tidy : ∀ q, Tidy (m.proc q) (m.ctl q) (m.blamed q)
  kkill : ∀ p i, m.ctl p ≠ .kkillAt 0 i

def NoKkillZero (_ : State) : Act → Prop
  | .call _ (.kkill pid) => pid ≠ 0
  | _ => True

instance (m : State) (a : Act) : Decidable (NoKkillZero m a) :=
  match a with
  | .call _ (.kkill pid) => inferInstanceAs (Decidable (pid ≠ 0))
  | .call _ .kfork | .call _ (.kexit _) | .call _ (.kwait _) => .isTrue trivial
  | .step .. | .kexec .. | .fault _ | .sleepOther .. | .wakeOther _ | .dispatch _ | .yield _ =>
    .isTrue trivial

theorem NoKkillZero.ne {m : State} {a : Act} (h : NoKkillZero m a) (p : Slot) :
    a ≠ .call p (.kkill 0) := by
  rintro rfl
  exact h rfl

namespace Clean

variable {m m' : State} {a : Act}

theorem boot : Clean boot where
  wf := .boot
  tidy q := by
    by_cases hq : q = initproc
    · simp only [Life.boot, hq, if_true]
      exact ⟨(by rintro ⟨⟩), (by rintro ⟨⟩), (by rintro ⟨⟩)⟩
    · simp only [Life.boot, hq, if_false]
      exact ⟨fun _ => rfl, (by rintro ⟨⟩), (by rintro ⟨⟩)⟩
  kkill _ _ := (by rintro ⟨⟩)

theorem step (h : Clean m) (ha : NoKkillZero m a) (hc : StepCase m a m') : Clean m' where
  wf := h.wf.step hc
  tidy q := (h.tidy q).move (h.wf.fine q) h.kkill (h.wf.move hc q)
  kkill q := (h.wf.move hc q).kkill_ne_zero (h.kkill q) (ha.ne q)

theorem reach (h : Reach Life.step NoKkillZero Life.boot m) : Clean m :=
  h.invariant boot fun _ _ _ hi ha hstep => hi.step ha (.of_step hstep)

end Clean

theorem pid_of_kkill {m m' : State} {p : Slot} {e : Env} {pid : ℤ} {i : ℕ}
    (hp : m.ctl p = .kkillAt pid i) (hstep : step m (.step p e) = some m')
    (hret : m'.ctl p = .done 0) : ∃ q, (m.proc q).pid = pid := by
  simp only [step, State.stepProc, hp, Option.ite_none_right_eq_some] at hstep
  obtain ⟨-, hstep⟩ := hstep
  unfold State.kkillAt at hstep
  split_ifs at hstep with hi _ hpid
  · exact ⟨_, hpid⟩
  · obtain rfl := Option.some.inj hstep
    simp [State.goto_ctl] at hret
  · obtain rfl := Option.some.inj hstep
    simp [State.goto_ctl] at hret

/-- **Free slots are clean and `kkill` hits only live processes.** -/
theorem free_slots_clean {m : State} (h : Reach step NoKkillZero boot m) :
    (∀ q, (m.proc q).state = .unused → (m.proc q).locked = false → m.proc q = Proc.zero) ∧
      (∀ p e m' pid i, m.ctl p = .kkillAt pid i → step m (.step p e) = some m' →
        m'.ctl p = .done 0 → ∃ q, (m.proc q).state ≠ .unused ∧ (m.proc q).pid = pid) ∧
      ∀ q, (m.proc q).killed = true → m.blamed q = true := by
  have hclean := Clean.reach h
  refine ⟨fun q hs _ => (hclean.tidy q).free hs, ?_, fun q => (hclean.tidy q).blame⟩
  intro p e m' pid i hp hstep hret
  obtain ⟨q, hq⟩ := pid_of_kkill hp hstep hret
  refine ⟨q, fun hs => hclean.kkill p i ?_, hq⟩
  rw [hp, ← hq, (hclean.tidy q).free hs]
  rfl

/-- The entry of a new process in a run with a `kkill` of another one. -/
theorem free_slots_clean_forked : ∃ m, Reach step NoKkillZero boot m ∧
    (m.proc 1).state = .runnable ∧ (m.proc 1).killed = false ∧ m.proc 2 = Proc.zero := by
  obtain ⟨m, hreach, hm⟩ := exists_reach step (fun m a => decide (NoKkillZero m a)) boot
    ([.dispatch 0, .call 0 (.kkill 1)] ++ steps 0 2 ++ [.call 0 .kfork] ++ steps 0 5)
    (fun m => decide ((m.proc 1).state = .runnable ∧ m.blamed 1 = false ∧
      (m.proc 2).state = .unused ∧ (m.proc 2).locked = false)) true (by decide +kernel)
  obtain ⟨hs, hb, hs', hl⟩ := of_decide_eq_true hm
  have hreach := hreach.mono fun _ _ hok => of_decide_eq_true hok
  obtain ⟨hzero, -, hblame⟩ := free_slots_clean hreach
  refine ⟨m, hreach, hs, ?_, hzero 2 hs' hl⟩
  by_contra hk
  simp [hblame 1 (by simpa using hk)] at hb

def kkillZero : List Act :=
  [.dispatch 0, .call 0 (.kkill 0)] ++ steps 0 2

/-- `kkill(0)` returns 0 although no process has the pid 0, leaves a free slot marked as killed, and
the next child is born with that mark. -/
theorem kkill_zero_marks_free_slot :
    (∃ m, Reach step (fun _ _ => True) boot m ∧ m.ctl 0 = .done 0 ∧
      (∀ q, (m.proc q).state ≠ .unused → (m.proc q).pid ≠ 0) ∧
      (m.proc 1).state = .unused ∧ (m.proc 1).locked = false ∧ (m.proc 1).killed = true) ∧
    ∃ m, Reach step (fun _ _ => True) boot m ∧
      (m.proc 1).state = .runnable ∧ (m.proc 1).killed = true ∧ m.blamed 1 = false := by
  constructor
  · obtain ⟨m, hreach, hm⟩ := exists_reach step (fun _ _ => true) boot kkillZero
      (fun m => decide (m.ctl 0 = .done 0 ∧
        (∀ q, (m.proc q).state ≠ .unused → (m.proc q).pid ≠ 0) ∧
        (m.proc 1).state = .unused ∧ (m.proc 1).locked = false ∧ (m.proc 1).killed = true)) true
      (by decide +kernel)
    exact ⟨m, hreach.mono fun _ _ _ => trivial, of_decide_eq_true hm⟩
  obtain ⟨m, hreach, hm⟩ := exists_reach step (fun _ _ => true) boot
    (kkillZero ++ steps 0 1 ++ [.call 0 .kfork] ++ steps 0 4)
    (fun m => decide ((m.proc 1).state = .runnable ∧ (m.proc 1).killed = true ∧
      m.blamed 1 = false)) true (by decide +kernel)
  exact ⟨m, hreach.mono fun _ _ _ => trivial, of_decide_eq_true hm⟩

end Xv6.Life

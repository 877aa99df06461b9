import Xv6.Vm.Fork

/-!
# Runs of processes

Processes load, store, make system calls on their memory and fork, in any order.

## Main results

* `runs_accounted`: over runs of system calls no page or count is lost
-/

namespace Xv6.Vm

open Hoare Kernel Finset Proc

inductive Event
  | act (i : Fin NPROC) (a : Act)
  | fork (p : Fin NPROC)

/-- An `UNUSED` entry calls nothing. -/
def Event.run (ly : Layout) (forkret : ℕ) : Event → ProcM Unit
  | .act i a => Vm.act ly i a
  | .fork p => do
    let k ← get
    if (k.proc p).state = .unused then pure ()
    else do
      let _ ← kfork ly forkret p
      pure ()

def Proc.holdsDir (r : Proc) (ip : Fin NINODE) : ℕ := if r.cwd = some ip then 1 else 0

/-- The reference counts are exact, with the references `X` and `Y` from elsewhere. -/
structure Kernel.Counted (X : Fin NFILE → ℕ) (Y : Fin NINODE → ℕ) (k : Kernel) : Prop where
  cwd : ∀ p, (k.proc p).state ≠ .unused → (k.proc p).cwd ≠ none
  file : ∀ f, k.fileRef f = X f + ∑ p, (k.proc p).holdsFile f
  dir : ∀ ip, k.inodeRef ip = Y ip + ∑ p, (k.proc p).holdsDir ip

variable {ly : Layout} {K : Multiset ℕ} {k k' : Kernel} {E : Halt → Prop} {p np : Fin NPROC}
  {forkret : ℕ} {X : Fin NFILE → ℕ} {Y : Fin NINODE → ℕ}

theorem Kernel.Counted.kept (h : k.Counted X Y) (hk : k.Kept k') : k'.Counted X Y where
  cwd p hp := by
    rw [(hk.entry p).1] at hp
    rw [(hk.entry p).2.2]
    exact h.cwd p hp
  file f := by simp only [hk.fileRef, h.file, holdsFile, (hk.entry _).2.1]
  dir ip := by simp only [hk.inodeRef, h.dir, holdsDir, (hk.entry _).2.2]

theorem Kernel.Counted.fileRef_pos (h : k.Counted X Y) {fd : Fin NOFILE} {f : Fin NFILE}
    (hf : (k.proc p).ofile fd = some f) : 1 ≤ k.fileRef f := by
  have hone : 1 ≤ (k.proc p).holdsFile f :=
    List.countP_pos_iff.mpr ⟨fd, List.mem_finRange fd, by simpa using hf⟩
  have hle := single_le_sum (f := fun p => (k.proc p).holdsFile f) (fun _ _ => Nat.zero_le _)
    (mem_univ p)
  rw [h.file]
  omega

theorem Kernel.Forked.sum_eq (h : k.Forked forkret K k' p np) {g : Proc → ℕ}
    (hnp : g (k.proc np) = 0) (hp : g (k'.proc np) = g (k.proc p)) :
    ∑ j, g (k'.proc j) = ∑ j, g (k.proc j) + g (k.proc p) := by
  have hrest : ∑ j ∈ univ.erase np, g (k'.proc j) = ∑ j ∈ univ.erase np, g (k.proc j) :=
    sum_congr rfl fun j hj => by rw [(h.others j (ne_of_mem_erase hj)).proc]
  rw [← add_sum_erase _ _ (mem_univ np), hrest, hp, add_comm,
    ← add_sum_erase _ (fun j => g (k.proc j)) (mem_univ np), hnp, zero_add]

theorem Kernel.Counted.forked (h : k.Counted X Y) (hclean : (k.proc np).Clean)
    (hs : (k.proc p).state ≠ .unused) (hf : k.Forked forkret K k' p np) : k'.Counted X Y where
  cwd j hj := by
    by_cases hjn : j = np
    · subst hjn
      rw [hf.cwd]
      exact h.cwd p hs
    · rw [(hf.others j hjn).proc] at hj ⊢
      exact h.cwd j hj
  file f := by
    rw [hf.fileRef, h.file, hf.sum_eq (g := (·.holdsFile f))
      (by simp [holdsFile, hclean.ofile]) (by simp [holdsFile, hf.ofile])]
    omega
  dir ip := by
    rw [hf.inodeRef, h.dir, hf.sum_eq (g := (·.holdsDir ip))
      (by simp [holdsDir, hclean.cwd]) (by simp [holdsDir, hf.cwd]), holdsDir]
    split <;> omega

theorem Kernel.Failed.kept (h : k.Failed forkret K k') : k.Kept k' := by
  refine ⟨h.fileRef, h.inodeRef, fun x => ?_⟩
  rcases h.proc with hproc | ⟨i, c, -, -, hproc⟩
  · simp [hproc]
  by_cases hx : x = i
  · subst hx
    simp [hproc]
  · simp [hproc, hx]

theorem Kernel.Failed.same (h : k.Failed forkret K k') (hs : (k.proc p).state ≠ .unused) :
    k.Same k' p := by
  refine ⟨?_, fun q hq => h.data q ?_⟩
  · rcases h.proc with hproc | ⟨i, c, hi, -, hproc⟩
    · rw [hproc]
    · rw [hproc, Function.update_of_ne]
      rintro rfl
      exact hs hi
  · rw [k.pages_eq K p]
    exact Multiset.mem_add.mpr (.inl hq)

/-- **One step**: the pages and the counts stay accounted for, and only the process that acts
changes. -/
theorem Event.run_spec (h : k.Wf ly K) (hc : k.Counted X Y) (e : Event) :
    Wp (e.run ly forkret) k (fun _ k' => (k'.Wf ly K ∧ k'.Counted X Y) ∧
      ∀ x, (k.proc x).state ≠ .unused → (∀ a, e ≠ .act x a) → k.Same k' x) E := by
  cases e with
  | act i a =>
    refine (act_spec h i a).mono ?_
    rintro _ k' ⟨hwf, hsame, hkept⟩
    exact ⟨⟨hwf, hc.kept hkept⟩, fun x _ hx => hsame x fun hxi => hx a (by rw [hxi])⟩
  | fork p =>
    refine Wp.get_seq ?_
    split_ifs with hs
    · exact ⟨⟨h, hc⟩, fun x _ _ => .refl k x⟩
    obtain ⟨ip, hip⟩ := Option.ne_none_iff_exists'.mp (hc.cwd p hs)
    refine (kfork_spec h hs hip fun fd f hf => hc.fileRef_pos hf).seq ?_
    rintro r k' ⟨hwf, ⟨-, hfail⟩ | ⟨-, np, hfork⟩⟩
    · exact ⟨⟨hwf, hc.kept hfail.kept⟩, fun x hx _ => hfail.same hx⟩
    have hcount := hc.forked (h.clean np hfork.unused) hs hfork
    refine ⟨⟨hwf, hcount⟩, fun x hx _ => hfork.others x ?_⟩
    rintro rfl
    exact hx hfork.unused

theorem runs_spec (h : k.Wf ly K) (hc : k.Counted X Y) (es : List Event) :
    Wp (es.forM (Event.run ly forkret)) k (fun _ k' => k'.Wf ly K ∧ k'.Counted X Y) E := by
  induction es generalizing k with
  | nil => exact ⟨h, hc⟩
  | cons e es ih =>
    refine (e.run_spec h hc).seq ?_
    rintro _ k1 ⟨⟨hwf, hcount⟩, -⟩
    exact ih hwf hcount

/-- **Runs keep the accounts.** Whatever the processes do, every call returns, no page is lost or
has two owners, the counts of files and directories are exact, and a step changes no process but
the one that acts. -/
theorem runs_accounted (h : k.Wf ly K) (hc : k.Counted X Y) (es : List Event) (e : Event) :
    ∃ k₁ k₂, es.forM (Event.run ly forkret) k = .ok ((), k₁) ∧
      e.run ly forkret k₁ = .ok ((), k₂) ∧ k₁.Wf ly K ∧ k₁.Counted X Y ∧
      ∀ x, (k₁.proc x).state ≠ .unused → (∀ a, e ≠ .act x a) → k₁.Same k₂ x := by
  obtain ⟨_, k₁, hrun, hwf, hcount⟩ := (runs_spec h hc es).exists_ok
  obtain ⟨_, k₂, hstep, -, hsame⟩ := (e.run_spec hwf hcount).exists_ok
  exact ⟨k₁, k₂, hrun, hstep, hwf, hcount, hsame⟩

theorem oneProcess_counted : oneProcess.Counted 0 fun ip => if ip = 0 then 0 else 1 where
  cwd p hp := by
    by_cases h0 : p = 0
    · simp [oneProcess, h0]
    · exact absurd (by rw [oneProcess_of_ne h0]; rfl) hp
  file f := by
    have hno : ∀ p, (oneProcess.proc p).holdsFile f = 0 := by
      intro p
      by_cases h0 : p = 0 <;> simp [oneProcess, h0, zero, holdsFile]
    simp only [hno, sum_const_zero]
    rfl
  dir ip := by
    have hdir : ∀ p, (oneProcess.proc p).holdsDir ip = if p = 0 then if ip = 0 then 1 else 0
        else 0 := by
      intro p
      by_cases h0 : p = 0 <;> simp [oneProcess, h0, zero, holdsDir, eq_comm]
    simp only [hdir, sum_ite_eq', mem_univ, if_true]
    split <;> rfl

theorem runs_accounted_fork : ∃ k₁ k₂,
    [Event.fork 0, .act 0 (.store 7 1)].forM (Event.run ninePages 77) oneProcess = .ok ((), k₁) ∧
      Event.run ninePages 77 (.act 0 (.load 7)) k₁ = .ok ((), k₂) ∧ k₁.Wf ninePages 0 := by
  obtain ⟨k₁, k₂, hrun, hstep, hwf, -⟩ := runs_accounted oneProcess_wf oneProcess_counted _ _
  exact ⟨k₁, k₂, hrun, hstep, hwf⟩

end Xv6.Vm

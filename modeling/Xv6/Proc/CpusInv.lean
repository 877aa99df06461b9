import Xv6.Proc.CpusSteps

/-!
# One CPU per process

A CPU owns a process from the moment its scheduler stores `RUNNING` until it has cleared `c->proc`
(`Mode.slot`).

## Main results

* `one_cpu_per_process`: a process runs on one CPU at a time
-/

namespace Xv6.Cpus

open Thread Transition Function Machine Mode PCtl

variable {K : Type*} [DecidableEq K]

namespace Inv

variable {m m' : Machine K}

variable {k : K}

omit [DecidableEq K] in
theorem running_of_other (h : Inv m) {q : Slot} (hl : m.lock q ≠ some k)
    (hk : (m.mode k).slot = some q) :
    m.mode k = .exec q ∧ m.state q = .running ∧ (m.pctl q).state = .running := by
  have hheld : (m.mode k).held m.pctl ≠ some q := fun hh => hl ((h.lock k q).mpr hh)
  have hcpu := h.cpu k
  generalize hmode : m.mode k = c at hk hheld hcpu
  cases c with
  | exec p =>
    obtain rfl := Option.some.inj hk
    obtain ⟨-, -, -, hs⟩ := hcpu
    cases hc : m.pctl p <;> simp_all [Mode.held, PCtl.lock, PCtl.state]
  | found i => exact absurd hk hheld
  | enter i => exact absurd hk hheld
  | back i => exact absurd hk hheld
  | scan i => cases hk
  | locked i => cases hk
  | unlock i => cases hk

theorem no_owner (h : Inv m) {q : Slot} (hl : m.lock q = some k)
    (hk : (m.mode k).slot ≠ some q) (hs : m.state q ≠ .running) (k' : K) :
    (m.mode k').slot ≠ some q := by
  intro hslot
  by_cases hkk : k' = k
  · exact hk (hkk ▸ hslot)
  · refine hs (h.running_of_other ?_ hslot).2.1
    rw [hl]
    exact fun heq => hkk (Option.some.inj heq).symm

theorem sole_step (h : Inv m) (hc : StepCase m m') (k k' : K) (p : Slot)
    (hk : (m'.mode k).slot = some p) (hk' : (m'.mode k').slot = some p) : k = k' := by
  have hsole := h.sole
  cases hc
  case pick k1 i hk1 hs =>
    have hl : m.lock i = some k1 := (h.lock k1 i).mpr (by rw [hk1]; rfl)
    have hno := h.no_owner hl (by simp [hk1, Mode.slot]) (by simp [hs])
    simp only [Machine.goto, Machine.setState, update_apply] at hk hk'
    grind [Mode.slot]
  all_goals
    simp only [Machine.goto, Machine.jump, update_apply] at hk hk'
    grind [Mode.slot]

theorem off_step (h : Inv m) (hc : StepCase m m') (p : Slot)
    (hp : ∀ k, (m'.mode k).slot ≠ some p) : m'.state p ≠ .running := by
  have hoff := h.off p
  have hcpu := h.cpu
  cases hc
  all_goals
    simp only [Machine.goto, Machine.jump, Machine.setState, update_apply] at hp ⊢
    grind [Mode.slot, Resume.state, CpuOk]

theorem exited_step (h : Inv m) (hc : StepCase m m') (p : Slot)
    (hp : m'.pctl p = .resumed .exit) : m'.state p = .zombie ∨ m'.state p = .unused := by
  have hexit := h.exited p
  have hcpu := h.cpu
  cases hc
  all_goals
    simp only [Machine.goto, Machine.jump, Machine.setState, update_apply] at hp ⊢
    grind [Resume.state, CpuOk, PCtl.state, PCtl.parked]

theorem parked_step (h : Inv m) (hc : StepCase m m') (p : Slot)
    (hp : ∀ k, m'.mode k ≠ .exec p) : m'.saved p = true ∧ (m'.pctl p).parked = true := by
  have hpark := h.parked p
  have hsole := h.sole
  cases hc
  all_goals
    simp only [Machine.goto, Machine.jump, Machine.setState, update_apply] at hp ⊢
    grind [Mode.slot, PCtl.parked]

theorem held_goto (k : K) (c : Mode) (k' : K) : (update m.mode k c k').held m.pctl =
      if k' = k then c.held m.pctl else (m.mode k').held m.pctl := by
  rw [update_apply]
  split_ifs <;> rfl

theorem held_jump (h : Inv m) {p : Slot} (hk : m.mode k = .exec p) (c : PCtl) (k' : K) :
    (m.mode k').held (update m.pctl p c) =
      if k' = k then c.lock p else (m.mode k').held m.pctl := by
  split_ifs with hkk
  · simp [hkk, hk, held]
  cases hk' : m.mode k' with
  | exec q =>
    have hne : q ≠ p := by
      rintro rfl
      exact hkk (h.sole k' k q (by rw [hk']; rfl) (by rw [hk]; rfl))
    simp [held, hne]
  | _ => rfl

omit [DecidableEq K] in
theorem no_owner_of_free (h : Inv m) {q : Slot} (hl : m.lock q = none)
    (hs : m.state q ≠ .running) (k : K) : (m.mode k).slot ≠ some q :=
  fun hslot => hs (h.running_of_other (by simp [hl]) hslot).2.1

omit [DecidableEq K] in
theorem parked_of_enter (h : Inv m) {i : Slot} (hk : m.mode k = .enter i) :
    m.saved i = true ∧ (m.pctl i).parked = true := by
  refine h.parked i fun k' hk' => ?_
  obtain rfl := h.sole k' k i (by rw [hk']; rfl) (by rw [hk]; rfl)
  simp [hk] at hk'

theorem lock_step (h : Inv m) (hc : StepCase m m') (k : K) (p : Slot) :
    m'.lock p = some k ↔ (m'.mode k).held m'.pctl = some p := by
  have hlock := h.lock
  cases hc
  case fork q pid hs hl =>
    have hno := h.no_owner_of_free hl (by simp [hs]) k
    have hheld : (m.mode k).held (update m.pctl q .forkret) = (m.mode k).held m.pctl := by
      generalize m.mode k = c at hno
      cases c with
      | exec t =>
        have hne : t ≠ q := by simpa [Mode.slot] using hno
        simp [Mode.held, hne]
      | _ => rfl
    simpa only [Machine.setState, hheld] using hlock k p
  case enter k1 i hk =>
    have hpark := PCtl.lock_of_parked (h.parked_of_enter hk).2 i
    simp only [Machine.goto, held_goto]
    grind [Mode.held]
  case unlockEntry k1 i hk =>
    have hl : m.lock i = some k1 := (hlock k1 i).mpr (by rw [hk]; rfl)
    simp only [Machine.goto, held_goto]
    grind [Mode.held]
  case move k1 q c c' hk hc =>
    simp only [Machine.jump, h.held_jump hk]
    grind [Mode.held, PCtl.lock]
  case take k1 q t c c' hk hc hl hc' hs hp =>
    simp only [Machine.jump, h.held_jump hk]
    grind [Mode.held, PCtl.lock]
  case drop k1 q t c chan hk hc hs =>
    have hl : m.lock t = some k1 := (hlock k1 t).mpr (by rw [hk]; exact hc)
    simp only [Machine.jump, h.held_jump hk]
    grind [Mode.held, PCtl.lock]
  case visit k1 q t c s killed hk hc hr hs =>
    simp only [Machine.jump, h.held_jump hk]
    grind [Mode.held, PCtl.lock]
  case store k1 q r chan hk hc hr =>
    simp only [Machine.jump, h.held_jump hk]
    grind [Mode.held, PCtl.lock]
  case leave k1 q r hk hc =>
    have hheld := h.held_jump hk (.resumed r) k
    simp only [Machine.goto, Machine.jump, update_apply]
    grind [Mode.held, PCtl.lock]
  all_goals
    simp only [Machine.goto, Machine.setState, update_apply]
    grind [Mode.held]

omit [DecidableEq K] in
theorem cpuOk_frame {c : Mode} (h : CpuOk m k c) (hproc : m'.proc k = m.proc k)
    (hctx : m'.ctx k = m.ctx k) (hstate : ∀ p, c.slot = some p → m'.state p = m.state p)
    (hexec : ∀ p, c = .exec p → m'.saved p = m.saved p ∧ m'.pctl p = m.pctl p) : CpuOk m' k c := by
  cases c with
  | exec p =>
    obtain ⟨h1, h2, h3, h4⟩ := h
    obtain ⟨hsaved, hpctl⟩ := hexec p rfl
    exact ⟨hproc.trans h1, hctx.trans h2, hsaved.trans h3, by rw [hstate p rfl, hpctl, h4]⟩
  | found i => exact ⟨hproc.trans h.1, (hstate i rfl).trans h.2⟩
  | enter i => exact ⟨hproc.trans h.1, (hstate i rfl).trans h.2⟩
  | back i => exact ⟨hproc.trans h.1, by rw [hstate i rfl]; exact h.2⟩
  | scan i => exact hproc.trans h
  | locked i => exact hproc.trans h
  | unlock i => exact hproc.trans h

variable {m₁ : Machine K}

theorem cpuOk_goto {k1 : K} {c : Mode} (hmode : m₁.mode = m.mode)
    (hown : CpuOk m₁ k1 c) (hother : ∀ k, k ≠ k1 → CpuOk m₁ k (m.mode k)) (k : K) :
    CpuOk (m₁.goto k1 c) k ((m₁.goto k1 c).mode k) := by
  show CpuOk m₁ k (update m₁.mode k1 c k)
  by_cases hk : k = k1
  · subst hk
    simpa using hown
  · simpa [hk, hmode] using hother k hk

theorem cpuOk_jump {k1 : K} {p : Slot} {c : PCtl} (hk : m.mode k1 = .exec p)
    (hmode : m₁.mode = m.mode) (hown : CpuOk (m₁.jump p c) k1 (.exec p))
    (hother : ∀ k, k ≠ k1 → CpuOk (m₁.jump p c) k (m.mode k)) (k : K) :
    CpuOk (m₁.jump p c) k ((m₁.jump p c).mode k) := by
  show CpuOk (m₁.jump p c) k (m₁.mode k)
  rw [hmode]
  by_cases hkk : k = k1
  · rwa [hkk, hk]
  · exact hother k hkk

omit [DecidableEq K] in
theorem ne_of_other (h : Inv m) {k k1 : K} {p q : Slot} (hne : k ≠ k1)
    (hp : (m.mode k1).slot = some p) (hq : (m.mode k).slot = some q) : q ≠ p := by
  rintro rfl
  exact hne (h.sole k k1 q hq hp)

theorem cpu_jump (h : Inv m) {k1 : K} {p : Slot} {c : PCtl}
    (hk : m.mode k1 = .exec p) (hmode : m₁.mode = m.mode) (hproc : m₁.proc = m.proc)
    (hctx : m₁.ctx = m.ctx) (hsaved : m₁.saved = m.saved) (hpctl : m₁.pctl = m.pctl)
    (hs : m₁.state p = c.state)
    (hstate : ∀ q, q ≠ p → (∃ k, (m.mode k).slot = some q) → m₁.state q = m.state q) (k : K) :
    CpuOk (m₁.jump p c) k ((m₁.jump p c).mode k) := by
  have hown := h.cpu k1
  rw [hk] at hown
  obtain ⟨hp1, hp2, hp3, -⟩ := hown
  refine cpuOk_jump hk hmode ?_ (fun k hne => ?_) k
  · refine ⟨?_, ?_, ?_, ?_⟩
    · simpa [jump, hproc] using hp1
    · simpa [jump, hctx] using hp2
    · simpa [jump, hsaved] using hp3
    · simpa [jump] using hs
  have hnp : ∀ q, (m.mode k).slot = some q → q ≠ p := fun q => h.ne_of_other hne (by rw [hk]; rfl)
  refine cpuOk_frame (h.cpu k) (congrFun hproc k) (congrFun hctx k) (fun q hq => ?_)
    fun q hq => ⟨congrFun hsaved q, ?_⟩
  · exact hstate q (hnp q hq) ⟨k, hq⟩
  · simp [jump, hpctl, hnp q (by rw [hq]; rfl)]

omit [DecidableEq K] in
theorem state_of_exec (h : Inv m) {p : Slot} (hk : m.mode k = .exec p) :
    m.state p = (m.pctl p).state := by
  have hown := h.cpu k
  rw [hk] at hown
  exact hown.2.2.2

theorem cpu_step (h : Inv m) (hc : StepCase m m') (k : K) : CpuOk m' k (m'.mode k) := by
  have hcpu := h.cpu
  cases hc
  case wrap k1 i hk =>
    have hown := hcpu k1
    rw [hk] at hown
    refine cpuOk_goto rfl ?_ (fun k _ => hcpu k) k
    exact hown
  case lockEntry k1 i hk _ =>
    have hown := hcpu k1
    rw [hk] at hown
    refine cpuOk_goto rfl ?_ (fun k _ => ?_) k
    · exact hown
    · exact cpuOk_frame (hcpu k) rfl rfl (fun _ _ => rfl) fun _ _ => ⟨rfl, rfl⟩
  case skip k1 i hk =>
    have hown := hcpu k1
    rw [hk] at hown
    refine cpuOk_goto rfl ?_ (fun k _ => hcpu k) k
    exact hown
  case pick k1 i hk hs =>
    have hown := hcpu k1
    rw [hk] at hown
    have hl : m.lock i = some k1 := (h.lock k1 i).mpr (by rw [hk]; rfl)
    have hno := h.no_owner hl (by simp [hk, Mode.slot]) (by simp [hs])
    refine cpuOk_goto rfl ?_ (fun k _ => ?_) k
    · exact ⟨hown, by simp [Machine.setState]⟩
    refine cpuOk_frame (hcpu k) rfl rfl (fun p hp => ?_) fun _ _ => ⟨rfl, rfl⟩
    have hne : p ≠ i := by
      rintro rfl
      exact hno k hp
    simp [Machine.setState, hne]
  case assign k1 i hk =>
    have hown := hcpu k1
    rw [hk] at hown
    refine cpuOk_goto rfl ?_ (fun k hne => ?_) k
    · exact ⟨by simp, hown.2⟩
    · exact cpuOk_frame (hcpu k) (by simp [hne]) rfl (fun _ _ => rfl) fun _ _ => ⟨rfl, rfl⟩
  case enter k1 i hk =>
    have hown := hcpu k1
    rw [hk] at hown
    have hpark := PCtl.state_of_parked (h.parked_of_enter hk).2
    refine cpuOk_goto rfl ?_ (fun k hne => ?_) k
    · exact ⟨hown.1, by simp, by simp, hown.2.trans hpark.symm⟩
    · refine cpuOk_frame (hcpu k) rfl (by simp [hne]) (fun _ _ => rfl) fun p hp => ⟨?_, rfl⟩
      have hpi : p ≠ i := h.ne_of_other hne (by rw [hk]; rfl) (by rw [hp]; rfl)
      simp [hpi]
  case clear k1 i hk =>
    refine cpuOk_goto rfl ?_ (fun k hne => ?_) k
    · simp [CpuOk]
    · exact cpuOk_frame (hcpu k) (by simp [hne]) rfl (fun _ _ => rfl) fun _ _ => ⟨rfl, rfl⟩
  case unlockEntry k1 i hk =>
    have hown := hcpu k1
    rw [hk] at hown
    refine cpuOk_goto rfl ?_ (fun k _ => ?_) k
    · exact hown
    · exact cpuOk_frame (hcpu k) rfl rfl (fun _ _ => rfl) fun _ _ => ⟨rfl, rfl⟩
  case move k1 p c c' hk hc =>
    refine h.cpu_jump hk rfl rfl rfl rfl rfl ?_ (fun _ _ _ => rfl) k
    rw [h.state_of_exec hk, hc]
    rfl
  case take k1 p q c c' hk hc _ _ hs _ =>
    refine h.cpu_jump hk rfl rfl rfl rfl rfl ?_ (fun _ _ _ => rfl) k
    exact ((h.state_of_exec hk).trans (by rw [hc]; rfl)).trans hs.symm
  case drop k1 p q c chan hk hc hs =>
    refine h.cpu_jump hk rfl rfl rfl rfl rfl ?_ (fun _ _ _ => rfl) k
    exact (h.state_of_exec hk).trans hs
  case visit k1 p t c s killed hk hc hr hs =>
    -- the visited process is `SLEEPING` only if it is on no CPU
    have hrun : m.state p = .running := (h.state_of_exec hk).trans hr
    have hl : m.lock t = some k1 := (h.lock k1 t).mpr (by rw [hk]; exact hc)
    have hkept : ∀ q, (∃ k, (m.mode k).slot = some q) →
        update m.state t s q = m.state q := by
      rintro q ⟨k, hq⟩
      by_cases hqt : q = t
      · subst hqt
        obtain rfl | ⟨hsleep, -⟩ := hs
        · simp
        refine absurd hq (h.no_owner hl ?_ (by simp [hsleep]) k)
        rw [hk]
        intro hpq
        obtain rfl := Option.some.inj hpq
        simp [hrun] at hsleep
      · simp [hqt]
    refine h.cpu_jump hk ?_ ?_ ?_ ?_ ?_ ?_ (fun q _ hq => ?_) k
    any_goals rfl
    · exact (hkept p ⟨k1, by rw [hk]; rfl⟩).trans hrun
    · exact hkept q hq
  case store k1 p r chan hk hc hr =>
    refine h.cpu_jump hk ?_ ?_ ?_ ?_ ?_ ?_ (fun q hq _ => ?_) k
    any_goals rfl
    · simp [PCtl.state]
    · simp [hq]
  case leave k1 p r hk hc =>
    have hown := hcpu k1
    rw [hk] at hown
    have hs := h.state_of_exec hk
    rw [hc] at hs
    refine cpuOk_goto rfl ?_ (fun k hne => ?_) k
    · refine ⟨hown.1, ?_⟩
      cases r with
      | yield c => exact .inl hs
      | sleep => exact .inr (.inl hs)
      | exit => exact .inr (.inr hs)
    · refine cpuOk_frame (hcpu k) rfl rfl (fun _ _ => rfl) fun q hq => ?_
      have hqp : q ≠ p := h.ne_of_other hne (by rw [hk]; rfl) (congrArg Mode.slot hq)
      simp [Machine.jump, hqp]
  case fork p pid hs hl =>
    have hno := h.no_owner_of_free hl (by simp [hs]) k
    have hne : ∀ q, (m.mode k).slot = some q → q ≠ p := by
      rintro q hq rfl
      exact hno hq
    refine cpuOk_frame (hcpu k) rfl rfl (fun q hq => ?_) fun q hq => ?_
    · simp [hne q hq]
    · have hqp := hne q (congrArg Mode.slot hq)
      simp [hqp]
  case reap p pid chan killed hs hl =>
    have hno := h.no_owner_of_free hl (by simp [hs]) k
    refine cpuOk_frame (hcpu k) rfl rfl (fun q hq => ?_) fun _ _ => ⟨rfl, rfl⟩
    have hqp : q ≠ p := by
      rintro rfl
      exact hno hq
    simp [hqp]

theorem step (h : Inv m) (hc : StepCase m m') : Inv m' where
  lock := h.lock_step hc
  cpu := h.cpu_step hc
  sole := h.sole_step hc
  off := h.off_step hc
  parked := h.parked_step hc
  exited := h.exited_step hc

omit [DecidableEq K] in
theorem boot : Inv (boot K) where
  lock k p := by simp [Cpus.boot, held]
  cpu k := rfl
  sole := (by rintro k k' p ⟨⟩)
  off p _ := by
    simp only [Cpus.boot]
    split_ifs <;> simp
  parked _ _ := ⟨rfl, rfl⟩
  exited := (by rintro p ⟨⟩)

theorem reach {ok : Guard (Machine K) (Act K)} (h : Reach Cpus.step ok (Cpus.boot K) m) : Inv m :=
  h.invariant boot fun _ _ _ hi _ hstep => hi.step (.of_step hi hstep)

end Inv

theorem StepCase.zombie {m m' : Machine K} (h : Inv m) (hc : StepCase m m') {p : Slot}
    (hz : m.state p = .zombie) : m'.state p = .zombie ∨ m'.state p = .unused := by
  have hexec (k : K) (p : Slot) (hk : m.mode k = .exec p) := h.state_of_exec hk
  cases hc
  all_goals
    simp only [Machine.goto, Machine.jump, Machine.setState, update_apply]
    grind

/-- **One CPU per process.** -/
theorem one_cpu_per_process {m : Machine K} (h : Reach step (fun _ _ => True) (boot K) m) :
    (∀ k k' p, m.proc k = some p → m.proc k' = some p → k = k') ∧
      (∀ p, m.lock p = none →
        (m.state p = .running ↔ ∃! k, m.proc k = some p) ∧
        (m.state p = .runnable ∨ m.state p = .sleeping ∨ m.state p = .zombie →
          m.saved p = true ∧ ∀ k, m.proc k ≠ some p ∧ m.mode k ≠ .exec p)) ∧
      ∀ a m' p, step m a = some m' → m.state p = .zombie →
        m'.state p = .zombie ∨ m'.state p = .unused := by
  have hinv := Inv.reach h
  have hslot : ∀ k p, m.proc k = some p → (m.mode k).slot = some p := by
    intro k p hp
    have hcpu := hinv.cpu k
    generalize m.mode k = c at hcpu
    cases c <;> simp_all [CpuOk, Mode.slot]
  have hsole : ∀ k k' p, m.proc k = some p → m.proc k' = some p → k = k' :=
    fun k k' p hk hk' => hinv.sole k k' p (hslot k p hk) (hslot k' p hk')
  have hno : ∀ p, m.lock p = none → m.state p ≠ .running → ∀ k, (m.mode k).slot ≠ some p :=
    fun p hl hs => hinv.no_owner_of_free hl hs
  refine ⟨hsole, fun p hl => ⟨⟨fun hs => ?_, ?_⟩, fun hs => ?_⟩, fun a m' p hstep hz =>
    StepCase.zombie hinv (.of_step hinv hstep) hz⟩
  · obtain ⟨k, hk⟩ : ∃ k, (m.mode k).slot = some p := by
      by_contra hnone
      exact hinv.off p (fun k hk => hnone ⟨k, hk⟩) hs
    have hexec := (hinv.running_of_other (by simp [hl]) hk).1
    have hcpu := hinv.cpu k
    rw [hexec] at hcpu
    exact ⟨k, hcpu.1, fun k' hk' => hsole k' k p hk' hcpu.1⟩
  · rintro ⟨k, hk, -⟩
    exact (hinv.running_of_other (by simp [hl]) (hslot k p hk)).2.1
  · have hfree := hno p hl (by rintro hrun; simp [hrun] at hs)
    have hexec : ∀ k, m.mode k ≠ .exec p := fun k hk => hfree k (by rw [hk]; rfl)
    exact ⟨(hinv.parked p hexec).1, fun k => ⟨fun hk => hfree k (hslot k p hk), hexec k⟩⟩

def yieldRun : List (Act (Fin 2)) :=
  List.replicate 4 (.step 0) ++ [.step 0, .yield 0] ++ List.replicate 4 (.step 0)

theorem one_cpu_per_process_yield : ∃ m, Reach step (fun _ _ => True) (boot (Fin 2)) m ∧
    m.state 0 = .runnable ∧ m.lock 0 = none ∧ m.saved 0 = true ∧ ∀ k, m.proc k ≠ some 0 := by
  obtain ⟨m, hreach, hm⟩ := exists_reach step (fun _ _ => true) (boot (Fin 2)) yieldRun
    (fun m => (m.state 0, m.lock 0)) (.runnable, none) (by decide +kernel)
  simp only [Prod.mk.injEq] at hm
  have hreach := hreach.mono fun _ _ _ => trivial
  obtain ⟨hsaved, hoff⟩ := ((one_cpu_per_process hreach).2.1 0 hm.2).2 (.inl hm.1)
  exact ⟨m, hreach, hm.1, hm.2, hsaved, fun k => (hoff k).1⟩

end Xv6.Cpus

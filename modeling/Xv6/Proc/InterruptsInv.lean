import Xv6.Proc.Interrupts

/-!
# The interrupt state follows the thread

The context that a CPU executes accounts for `noff` of the CPU, and `intena` is the interrupt state
at its outermost open `push_off` (`Sound`). This is so for every context but one that `sched` has
just returned to, which still has the value in a local variable; a context that no CPU executes
holds no lock and has no open `push_off` (`Parked`). A statement that does not switch contexts is a
`Good` step of what the CPU sees, and `swtch` moves the one lock that is held from one context to
the other.

## Main results

* `interrupts_follow_thread`: `noff` and `intena` follow the thread across `sched`
-/

namespace Xv6.Interrupts

open Thread Transition Function Option Thr

variable {K P L : Type*}

/-! ## What a control point says about its context -/

section Points

variable (me : Option P) (held : List (Lk P L)) (opens : ℕ)

def Then.Ok (l : Lk P L) : Then P L → Prop
  | .run => True
  | .scan p => me = none ∧ l = .own p ∧ held = [] ∧ opens = 0
  | .pause lk st => st ≠ .running ∧ me.map .own = some l ∧ held = lk.toList ∧ opens = 0

def Task.Ok : Task P L → Prop
  | .pushOff => True
  | .acquire l th => l ∉ held ∧ th.Ok me held opens l

/-- What is known of the process, the interrupt state, the locks and the open `push_off`s at a
control point. -/
def Ctl.Ok (intr : Bool) : Ctl P L → Prop
  | .run => True
  | .enter t => t.Ok me held opens
  | .off old t => old = intr ∧ t.Ok me held opens
  | .spin l th => ∃ n, opens = n + 1 ∧ l ∉ held ∧ th.Ok me held n l
  | .cond lk st => st ≠ .running ∧ ∃ p, me = some p ∧ held = [.own p, lk] ∧ opens = 0
  | .sched _ st => st ≠ .running ∧ ∃ p, me = some p ∧ held = [.own p] ∧ opens = 0
  | .resumed _ _ => ∃ p, me = some p ∧ held = [.own p] ∧ opens = 0
  | .pick q => me = none ∧ held = [.own q] ∧ opens = 0
  | .unlock l _ => held = [l] ∧ opens = 0

end Points

theorem Ctl.isResumed_of_ok {me : Option P} {c : Ctl P L} (h : c.Ok me [] 0 true) :
    c.isResumed = false := by
  cases c with
  | resumed lk st =>
    obtain ⟨_, _, hnil, _⟩ := h
    cases hnil
  | _ => rfl

theorem depth_eq_zero {t : Thr P L} (h : t.depth = 0) : t.held = [] ∧ t.opens = 0 := by
  rw [depth] at h
  exact ⟨List.eq_nil_of_length_eq_zero (by omega), by omega⟩

/-- The CPU as the context accounts for it. -/
structure Sound (u : Cpu) (t : Thr P L) : Prop where
  calm : u.panicked = false
  noff : u.noff = t.depth
  intr : 0 < t.depth → u.intr = false
  intena : 0 < t.depth → u.intena = t.start
  nodup : t.held.Nodup

/-- The CPU once the context has restored `intena`. -/
def Thr.settled (t : Thr P L) (u : Cpu) : Cpu :=
  if t.ctl.isResumed then { u with intena := t.saved } else u

/-- The CPU `u` executes the context `t`. A trap comes with interrupts on, so that no `push_off` is
open at the points that the traps have interrupted. -/
structure Live (me : Option P) (u : Cpu) (t : Thr P L) : Prop where
  sound : Sound (t.settled u) t
  ok : t.ctl.Ok me t.held t.opens u.intr
  traps : ∀ c ∈ t.traps, c.Ok me [] 0 true

theorem Live.sound_of {me : Option P} {u : Cpu} {t : Thr P L} (h : Live me u t)
    (hctl : t.ctl.isResumed = false) : Sound u t := by
  have := h.sound
  rwa [settled, hctl, if_neg Bool.false_ne_true] at this

theorem Live.of_sound {me : Option P} {u : Cpu} {t : Thr P L} (h : Sound u t)
    (hctl : t.ctl.isResumed = false) (hok : t.ctl.Ok me t.held t.opens u.intr)
    (htraps : ∀ c ∈ t.traps, c.Ok me [] 0 true) : Live me u t :=
  ⟨by rwa [settled, hctl, if_neg Bool.false_ne_true], hok, htraps⟩

namespace Sound

variable {u : Cpu} {t t' : Thr P L}

/-- Nothing of the context but its control point, `traps` and `saved` matters. -/
theorem congr (h : Sound u t) (hheld : t'.held = t.held) (hopens : t'.opens = t.opens)
    (hstart : t'.start = t.start) : Sound u t' := by
  have hdepth : t'.depth = t.depth := by rw [depth, depth, hheld, hopens]
  refine ⟨h.calm, ?_, ?_, ?_, hheld ▸ h.nodup⟩
  · rw [hdepth, h.noff]
  · rw [hdepth]
    exact h.intr
  · rw [hdepth, hstart]
    exact h.intena

theorem pushOff (h : Sound u t) : Sound (u.pushOff u.intr)
    { t with opens := t.opens + 1, start := if t.depth = 0 then u.intr else t.start } := by
  have hdepth : u.noff = 0 ↔ t.depth = 0 := by
    rw [h.noff]
    omega
  refine ⟨h.calm, ?_, fun _ => rfl, fun _ => ?_, h.nodup⟩
  · simp only [Cpu.pushOff, h.noff, depth]
    omega
  by_cases h0 : t.depth = 0
  · simp [Cpu.pushOff, hdepth.2 h0, h0]
  · simp only [Cpu.pushOff, if_neg (hdepth.not.2 h0), if_neg h0]
    exact h.intena (Nat.pos_of_ne_zero h0)

/-- `pop_off` does not panic while something is open, and the last one restores the interrupt
state. -/
theorem popOff (h : Sound u t) (hdepth : t'.depth + 1 = t.depth) (hstart : t'.start = t.start)
    (hnodup : t'.held.Nodup) : Sound u.popOff t' ∧ (t'.depth = 0 → u.popOff.intr = t.start) := by
  have hpos : 0 < t.depth := by omega
  have hintr := h.intr hpos
  have hnoff := h.noff
  have hpop : u.popOff = { u with
      noff := u.noff - 1
      intr := if u.noff - 1 = 0 ∧ u.intena = true then true else u.intr } := by
    rw [Cpu.popOff, hintr, if_neg Bool.false_ne_true, if_neg (by omega)]
  rw [hpop]
  refine ⟨⟨h.calm, by simp only; omega, fun h0 => ?_, fun _ => ?_, hnodup⟩, fun h0 => ?_⟩
  · have hne : ¬(u.noff - 1 = 0 ∧ u.intena = true) := fun hc => by omega
    simp only [if_neg hne, hintr]
  · rw [hstart]
    exact h.intena hpos
  · have heq : u.noff - 1 = 0 := by omega
    simp [heq, h.intena hpos, hintr]

end Sound

/-! ## Steps that do not switch contexts -/

/-- What the CPU `k` sees: it executes the context, which holds the locks of the CPU. -/
structure Sees (k : K) (me : Option P) (v : View K P L) : Prop where
  live : Live me v.cpu v.thr
  lock : ∀ l, v.lock l = some k ↔ l ∈ v.thr.held

/-- A step of the CPU `k` that leaves the locks of the other CPUs alone. The context notes the
interrupt state when it opens its outermost `push_off`, keeps it while one is open, and has it back
when none is. -/
structure Good (k : K) (me : Option P) (v v' : View K P L) : Prop where
  sees : Sees k me v'
  others : ∀ k' ≠ k, ∀ l, v'.lock l = some k' ↔ v.lock l = some k'
  opened : v.thr.depth = 0 → 0 < v'.thr.depth → v'.thr.start = v.cpu.intr
  kept : 0 < v.thr.depth → v'.thr.start = v.thr.start
  closed : 0 < v.thr.depth → v'.thr.depth = 0 → v'.cpu.intr = v.thr.start

namespace Sees

variable {k : K} {me : Option P} {v : View K P L} {c : Ctl P L} {l : Lk P L}

variable (h : Sees k me v)

include h

/-- What `Sound` says of the CPU whether or not `intena` is restored. -/
theorem account : v.cpu.panicked = false ∧ v.cpu.noff = v.thr.depth ∧
    (0 < v.thr.depth → v.cpu.intr = false) := by
  have hsound := h.live.sound
  rw [settled] at hsound
  split_ifs at hsound <;> exact ⟨hsound.calm, hsound.noff, hsound.intr⟩

theorem refl : Good k me v v where
  sees := h
  others _ _ _ := Iff.rfl
  opened h0 hpos := absurd hpos (by omega)
  kept _ := rfl
  closed hpos h0 := absurd hpos (by omega)

/-- A step that changes the control point, and the interrupt state only if no `push_off` is
open. -/
theorem jump {cpu : Cpu} {thr : Thr P L} (hsound : Sound cpu v.thr)
    (hheld : thr.held = v.thr.held) (hopens : thr.opens = v.thr.opens)
    (hstart : thr.start = v.thr.start) (hc : thr.ctl.isResumed = false)
    (hok : thr.ctl.Ok me v.thr.held v.thr.opens cpu.intr)
    (htraps : ∀ c ∈ thr.traps, c.Ok me [] 0 true) :
    Good k me v { v with cpu := cpu, thr := thr } := by
  have hdepth : thr.depth = v.thr.depth := by rw [depth, depth, hheld, hopens]
  refine ⟨⟨.of_sound (hsound.congr hheld hopens hstart) hc ?_ htraps, fun l => ?_⟩,
    fun _ _ _ => Iff.rfl, fun h0 hpos => ?_, fun _ => hstart, fun hpos h0 => ?_⟩
  · rwa [hheld, hopens]
  · rw [hheld]
    exact h.lock l
  · simp only [hdepth] at hpos
    omega
  · simp only [hdepth] at h0
    omega

theorem goto (hv : v.thr.ctl.isResumed = false) (hc : c.isResumed = false)
    (hok : c.Ok me v.thr.held v.thr.opens v.cpu.intr) : Good k me v (v.goto c) :=
  h.jump (h.live.sound_of hv) rfl rfl rfl hc hok h.live.traps

theorem pushOff (hv : v.thr.ctl.isResumed = false) (hc : c.isResumed = false)
    (hok : c.Ok me v.thr.held (v.thr.opens + 1) false) :
    Good k me v ((v.pushOff v.cpu.intr).goto c) := by
  have hsound := (h.live.sound_of hv).pushOff
  refine ⟨⟨.of_sound (hsound.congr rfl rfl rfl) hc hok h.live.traps, h.lock⟩,
    fun _ _ _ => Iff.rfl, fun h0 _ => if_pos h0, fun hpos => if_neg (by omega), fun _ h0 => ?_⟩
  simp only [View.goto, View.pushOff, depth] at h0
  omega

omit h

variable {v' : View K P L}

include h

/-- The close of a `push_off`, with or without a lock. -/
theorem pop (hv : v.thr.ctl.isResumed = false)
    (hcpu : v'.cpu = v.cpu.popOff) (hdepth : v'.thr.depth + 1 = v.thr.depth)
    (hstart : v'.thr.start = v.thr.start) (hnodup : v'.thr.held.Nodup)
    (hlock : ∀ l, v'.lock l = some k ↔ l ∈ v'.thr.held)
    (hothers : ∀ k' ≠ k, ∀ l, v'.lock l = some k' ↔ v.lock l = some k')
    (hc : v'.thr.ctl.isResumed = false)
    (hok : v'.thr.ctl.Ok me v'.thr.held v'.thr.opens v'.cpu.intr)
    (htraps : v'.thr.traps = v.thr.traps) : Good k me v v' := by
  obtain ⟨hsound, hclosed⟩ := (h.live.sound_of hv).popOff hdepth hstart hnodup
  rw [← hcpu] at hsound hclosed
  exact ⟨⟨.of_sound hsound hc hok (htraps ▸ h.live.traps), hlock⟩, hothers,
    fun h0 _ => by omega, fun _ => hstart, fun _ => hclosed⟩

theorem popOff (hv : v.thr.ctl = .run) (hopens : 0 < v.thr.opens) : Good k me v v.popOff := by
  have hrun : v.thr.ctl.isResumed = false := by rw [hv]; rfl
  refine h.pop hrun rfl ?_ rfl (h.live.sound_of hrun).nodup h.lock (fun _ _ _ => Iff.rfl) hrun ?_
    rfl
  · simp only [View.popOff, depth]
    omega
  · simp only [View.popOff, hv]
    trivial

theorem trap (hs : v.trap = some v') : Good k me v v' := by
  rw [View.trap] at hs
  split_ifs at hs with hintr
  obtain rfl := some.inj hs
  have hok := h.live.ok
  have hdepth : v.thr.depth = 0 := by
    by_contra h0
    have := h.account.2.2 (Nat.pos_of_ne_zero h0)
    rw [hintr] at this
    cases this
  obtain ⟨hheld, hopens⟩ := depth_eq_zero hdepth
  rw [hheld, hopens, hintr] at hok
  have hsound := h.live.sound_of (Ctl.isResumed_of_ok hok)
  refine h.jump ⟨hsound.calm, hsound.noff, fun _ => rfl, hsound.intena, hsound.nodup⟩ rfl rfl rfl
    rfl trivial fun c hc => ?_
  rcases List.mem_cons.1 hc with rfl | hc
  · exact hok
  · exact h.live.traps c hc

theorem pause (hv : v.thr.ctl = .run) (lk : Option (Lk P L)) {st : ProcState}
    (hst : st ≠ .running) (hheld : v.thr.held = lk.toList) (hopens : v.thr.opens = 0)
    (hne : ∀ l ∈ lk, me.map .own ≠ some l) (hs : v.pause me lk st = some v') : Good k me v v' := by
  obtain ⟨p, hp, rfl⟩ := map_eq_some_iff.1 hs
  refine h.goto (by rw [hv]; rfl) rfl ⟨?_, hst, by rw [hp]; rfl, hheld, hopens⟩
  rw [hheld, mem_toList]
  intro hl
  exact hne _ hl (by rw [hp]; rfl)

omit h

variable [DecidableEq P] [DecidableEq L]

theorem take (h : Sees k me v) (hv : v.thr.ctl.isResumed = false) (hfree : v.lock l = none) {n : ℕ}
    (hopens : v.thr.opens = n + 1) (hl : l ∉ v.thr.held) (hc : c.isResumed = false)
    (hok : c.Ok me (l :: v.thr.held) n v.cpu.intr) : Good k me v ((v.take k l).goto c) := by
  have hsound := h.live.sound_of hv
  have hdepth : ((v.take k l).goto c).thr.depth = v.thr.depth := by
    simp only [View.goto, View.take, depth, List.length_cons]
    omega
  have hcount : ((v.take k l).goto c).thr.opens = n := by
    simp only [View.goto, View.take]
    omega
  refine ⟨⟨.of_sound ⟨hsound.calm, ?_, ?_, ?_, List.nodup_cons.2 ⟨hl, hsound.nodup⟩⟩ hc ?_
    h.live.traps, fun l' => ?_⟩, fun k' hk' l' => ?_, fun h0 hpos => ?_, fun _ => rfl,
    fun hpos h0 => ?_⟩
  · rw [hdepth]
    exact hsound.noff
  · rw [hdepth]
    exact hsound.intr
  · rw [hdepth]
    exact hsound.intena
  · rw [hcount]
    exact hok
  · simp only [View.goto, View.take, List.mem_cons]
    by_cases hl' : l' = l
    · simp [hl']
    · simp [hl', h.lock]
  · simp only [View.goto, View.take]
    by_cases hl' : l' = l
    · subst hl'
      simp [hfree, Ne.symm hk']
    · rw [update_of_ne hl']
  · omega
  · omega

variable [DecidableEq K]

theorem release (h : Sees k me v) (hv : v.thr.ctl.isResumed = false) (hl : l ∈ v.thr.held)
    (hc : c.isResumed = false) (hok : ∀ intr, c.Ok me (v.thr.held.erase l) v.thr.opens intr) :
    Good k me v ((v.release k l).goto c) := by
  have hlock : v.lock l = some k := (h.lock l).2 hl
  have hnodup := (h.live.sound_of hv).nodup
  have hpos := List.length_pos_of_mem hl
  rw [View.release, if_pos hlock]
  refine h.pop hv rfl ?_ rfl (hnodup.erase l) (fun l' => ?_) (fun k' hk' l' => ?_) hc (hok _) rfl
  · simp only [View.goto, depth, List.length_erase_of_mem hl]
    omega
  · simp only [View.goto]
    by_cases hl' : l' = l
    · subst hl'
      simp [hnodup.not_mem_erase]
    · rw [update_of_ne hl', h.lock, List.mem_erase_of_ne hl']
  simp only [View.goto]
  by_cases hl' : l' = l
  · subst hl'
    simp [hlock, Ne.symm hk']
  · rw [update_of_ne hl']

/-- **Every statement that does not switch contexts is good.** -/
theorem step (h : Sees k me v) (hctl : v.thr.ctl = c)
    (hs : v.step k me c = some v') : Good k me v v' := by
  have hok := h.live.ok
  rw [hctl] at hok
  cases c with
  | run | sched | pick => cases hs
  | enter t =>
    obtain rfl := some.inj hs
    exact h.goto (by rw [hctl]; rfl) rfl ⟨rfl, hok⟩
  | off old t =>
    obtain ⟨rfl, hok⟩ := hok
    have hv : v.thr.ctl.isResumed = false := by rw [hctl]; rfl
    cases t with
    | pushOff =>
      obtain rfl := some.inj hs
      exact h.pushOff hv rfl trivial
    | acquire l th =>
      -- the lock is not one that the context holds, so `acquire` does not panic
      rw [View.step, if_neg fun hl => hok.1 ((h.lock l).1 hl)] at hs
      obtain rfl := some.inj hs
      exact h.pushOff hv rfl ⟨_, rfl, hok⟩
  | spin l th =>
    obtain ⟨n, hopens, hl, hth⟩ := hok
    rw [View.step] at hs
    split_ifs at hs with hfree
    obtain rfl := some.inj hs
    refine h.take (by rw [hctl]; rfl) hfree hopens hl ?_ ?_
    · rcases th with _ | _ | ⟨_ | _, _⟩ <;> rfl
    rcases th with _ | q | ⟨_ | lk, st⟩
    · trivial
    · obtain ⟨hme, rfl, hheld, hn⟩ := hth
      exact ⟨hme, by rw [hheld], hn⟩
    · obtain ⟨hst, hme, hheld, hn⟩ := hth
      obtain ⟨p, hp, rfl⟩ := map_eq_some_iff.1 hme
      exact ⟨hst, p, hp, by rw [hheld]; rfl, hn⟩
    · obtain ⟨hst, hme, hheld, hn⟩ := hth
      obtain ⟨p, hp, rfl⟩ := map_eq_some_iff.1 hme
      exact ⟨hst, p, hp, by rw [hheld]; rfl, hn⟩
  | cond lk st =>
    obtain rfl := some.inj hs
    obtain ⟨hst, p, hp, hheld, hopens⟩ := hok
    have hv : v.thr.ctl.isResumed = false := by rw [hctl]; rfl
    have hne : Lk.own p ≠ lk := by
      have := (h.live.sound_of hv).nodup
      rw [hheld] at this
      simpa using this
    refine h.release hv (by simp [hheld]) rfl fun _ => ⟨hst, p, hp, ?_, hopens⟩
    simp [hheld, hne]
  | resumed lk st =>
    rw [View.step] at hs
    split_ifs at hs
    obtain ⟨p, hp, rfl⟩ := map_eq_some_iff.1 hs
    obtain ⟨p', hp', hheld, hopens⟩ := hok
    obtain rfl : p = p' := some.inj (hp.symm.trans hp')
    have hsound := h.live.sound
    rw [settled, hctl, Ctl.isResumed, if_pos rfl] at hsound
    exact h.jump hsound rfl rfl rfl rfl ⟨hheld, hopens⟩ h.live.traps
  | unlock l next =>
    obtain rfl := some.inj hs
    obtain ⟨hheld, hopens⟩ := hok
    refine h.release (by rw [hctl]; rfl) (by simp [hheld]) ?_ fun _ => ?_
    · cases next <;> rfl
    · cases next with
      | none => trivial
      | some lk => exact ⟨by simp [hheld], trivial⟩

/-- **Every allowed call is good.** -/
theorem call (h : Sees k me v) (hv : v.thr.ctl = .run) {op : Op P L}
    (hallow : op.allowed me v.thr = true) (hs : v.call k me op = some v') : Good k me v v' := by
  have hrun : v.thr.ctl.isResumed = false := by rw [hv]; rfl
  have hsound := h.live.sound_of hrun
  cases op with
  | step | trap | wake | fork | reap => cases hs
  | pushOff =>
    obtain rfl := some.inj hs
    exact h.goto hrun rfl trivial
  | popOff =>
    obtain rfl := some.inj hs
    exact h.popOff hv (of_decide_eq_true hallow)
  | acquire l =>
    obtain rfl := some.inj hs
    exact h.goto hrun rfl ⟨of_decide_eq_true hallow, trivial⟩
  | release l =>
    obtain rfl := some.inj hs
    exact h.release hrun (of_decide_eq_true hallow) rfl fun _ => trivial
  | yield =>
    obtain ⟨hheld, hopens⟩ := depth_eq_zero (of_decide_eq_true hallow)
    exact h.pause hv none (by decide) hheld hopens (by simp) hs
  | sleep lk =>
    obtain ⟨hheld, hopens, hne⟩ := of_decide_eq_true hallow
    exact h.pause hv (some lk) (by decide) hheld hopens (by simpa using hne) hs
  | exit lk =>
    obtain ⟨hheld, hopens, hne⟩ := of_decide_eq_true hallow
    exact h.pause hv (some lk) (by decide) hheld hopens (by simpa using hne) hs
  | scan p =>
    rw [View.call] at hs
    split_ifs at hs with hme
    obtain rfl := some.inj hs
    obtain ⟨hheld, hopens⟩ := depth_eq_zero (of_decide_eq_true hallow)
    exact h.goto hrun rfl ⟨by simp [hheld], hme, rfl, hheld, hopens⟩
  | intr b =>
    obtain rfl := some.inj hs
    have hdepth : v.thr.depth = 0 := of_decide_eq_true hallow
    refine h.jump ⟨hsound.calm, hsound.noff, fun _ => by omega, hsound.intena, hsound.nodup⟩
      rfl rfl rfl hrun ?_ h.live.traps
    rw [hv]
    trivial
  | sret =>
    have hdepth : v.thr.depth = 0 := of_decide_eq_true hallow
    obtain ⟨hheld, hopens⟩ := depth_eq_zero hdepth
    obtain ⟨c, hc, rfl⟩ := map_eq_some_iff.1 hs
    have hok := h.live.traps c (List.mem_of_mem_head? hc)
    refine h.jump ⟨hsound.calm, hsound.noff, fun _ => by omega, hsound.intena, hsound.nodup⟩
      rfl rfl rfl (Ctl.isResumed_of_ok hok) ?_ fun c hc => h.live.traps c (List.mem_of_mem_tail hc)
    rw [hheld, hopens]
    exact hok

end Sees

/-! ## The whole machine -/

/-- A context that no CPU executes. With the lock of `p` it can go on where it is. -/
structure Parked (me : Option P) (p : P) (t : Thr P L) : Prop where
  held : t.held = []
  opens : t.opens = 0
  ok : t.ctl.Ok me [.own p] 0 false
  saved : t.ctl.isResumed = true → t.saved = t.start
  traps : ∀ c ∈ t.traps, c.Ok me [] 0 true

/-- `swtch` to a parked context, on a CPU that holds the lock of `p` only. -/
theorem Parked.resume {me : Option P} {p : P} {t : Thr P L} (h : Parked me p t) {u : Cpu}
    (hcalm : u.panicked = false) (hnoff : u.noff = 1) (hintr : u.intr = false) {start : Bool}
    (hstart : start = if t.ctl.isResumed then t.start else u.intena) :
    Live me u { t with held := [.own p], start := start } := by
  have hdepth : depth { t with held := [.own p], start := start } = 1 := by simp [depth, h.opens]
  refine ⟨?_, ?_, h.traps⟩
  · rw [settled]
    cases hctl : t.ctl.isResumed with
    | false =>
      rw [hctl, if_neg Bool.false_ne_true] at hstart
      exact ⟨hcalm, by rw [hdepth]; exact hnoff, fun _ => hintr, fun _ => hstart.symm, by simp⟩
    | true =>
      rw [hctl, if_pos rfl] at hstart
      refine ⟨hcalm, by rw [hdepth]; exact hnoff, fun _ => hintr, fun _ => ?_, by simp⟩
      exact (h.saved hctl).trans hstart.symm
  · rw [hintr]
    simpa only [h.opens] using h.ok

theorem parked_fresh (q : P) : Parked (some q) q (fresh q : Thr P L) where
  held := rfl
  opens := rfl
  ok := ⟨rfl, rfl⟩
  saved hc := by cases hc
  traps := by simp [fresh]

structure Inv (m : Machine K P L) : Prop where
  sees : ∀ k, Sees k (m.run k) (m.view k)
  idle : ∀ k p, m.run k = some p → Parked none p (m.thr (.inl k))
  parked : ∀ p, (∀ k, m.run k ≠ some p) → Parked (some p) p (m.thr (.inr p))
  running : ∀ k p, m.run k = some p → m.state p = .running
  inj : ∀ k k' p, m.run k = some p → m.run k' = some p → k = k'

/-- The steps of a CPU on which a process stays. -/
def Follows (k : K) (m m' : Machine K P L) : Prop :=
  ∀ p, m.run k = some p → m'.run k = some p → Good k (some p) (m.view k) (m'.view k)

namespace Inv

variable {m m' : Machine K P L} {k k' : K} {p q : P}

theorem ctx_none (h : m.run k = none) : m.ctx k = .inl k := by rw [Machine.ctx, h, elim_none]

theorem ctx_some (h : m.run k = some p) : m.ctx k = .inr p := by rw [Machine.ctx, h, elim_some]

theorem view_thr (h : m.run k = some p) : (m.view k).thr = m.thr (.inr p) := by
  rw [Machine.view, Machine.cur, ctx_some h]

theorem ctx_ne_inl (hne : k' ≠ k) : m.ctx k' ≠ .inl k := by
  cases hr : m.run k' with
  | none => simpa [ctx_none hr] using hne
  | some p => simp [ctx_some hr]

theorem ctx_ne_inr (h : m.run k ≠ some p) : m.ctx k ≠ .inr p := by
  cases hr : m.run k with
  | none => simp [ctx_none hr]
  | some q => simpa [ctx_some hr, hr] using h

theorem ctx_ne (h : Inv m) (hne : k' ≠ k) : m.ctx k' ≠ m.ctx k := by
  cases hr : m.run k with
  | none => rw [ctx_none hr]; exact ctx_ne_inl hne
  | some p => rw [ctx_some hr]; exact ctx_ne_inr fun hr' => hne (h.inj _ _ _ hr' hr)

variable [DecidableEq P]

theorem setState (h : Inv m) (hq : m.state q ≠ .running) (st : ProcState) :
    Inv (m.setState q st) where
  sees := h.sees
  idle := h.idle
  parked := h.parked
  running k p hp := by
    have hne : p ≠ q := fun heq => hq (heq ▸ h.running k p hp)
    rw [← h.running k p hp]
    exact update_of_ne hne st m.state
  inj := h.inj

/-- The state of a process that no CPU runs is stored. -/
theorem store (h : Inv m) (hq : m.state q ≠ .running) (st : ProcState) :
    Inv (m.setState q st) ∧ Follows k m (m.setState q st) := by
  refine ⟨h.setState hq st, fun p hp _ => ?_⟩
  have hsees := h.sees k
  rw [hp] at hsees
  exact hsees.refl

variable [DecidableEq K]

theorem view_setView (v : View K P L) : (m.setView k v).view k = v := by
  simp [Machine.setView, Machine.view, Machine.cur, Machine.ctx]

theorem thr_setView {c : K ⊕ P} (hc : c ≠ m.ctx k) (v : View K P L) :
    (m.setView k v).thr c = m.thr c := by simp [Machine.setView, hc]

/-- A good step of what a CPU sees keeps the invariant. -/
theorem setView (h : Inv m) {v : View K P L} (hg : Good k (m.run k) (m.view k) v) :
    Inv (m.setView k v) ∧ Follows k m (m.setView k v) := by
  constructor
  · refine ⟨fun k' => ?_, fun k' p hp => ?_, fun p hp => ?_, h.running, h.inj⟩
    · by_cases hk : k' = k
      · subst hk
        rw [view_setView]
        exact hg.sees
      have hcpu : ((m.setView k v).view k').cpu = (m.view k').cpu := by
        simp [Machine.setView, Machine.view, hk]
      have hthr : ((m.setView k v).view k').thr = (m.view k').thr := thr_setView (h.ctx_ne hk) v
      refine ⟨?_, fun l => ?_⟩
      · rw [hcpu, hthr]
        exact (h.sees k').live
      · rw [hthr, ← (h.sees k').lock l]
        exact hg.others k' hk l
    · have hne : Sum.inl k' ≠ m.ctx k := by
        by_cases hk : k' = k
        · subst hk
          rw [ctx_some (m := m) hp]
          exact Sum.inl_ne_inr
        · exact (ctx_ne_inl (Ne.symm hk)).symm
      rw [thr_setView hne]
      exact h.idle k' p hp
    · have hne : Sum.inr p ≠ m.ctx k := (ctx_ne_inr (hp k)).symm
      rw [thr_setView hne]
      exact h.parked p hp
  · intro p hp _
    rw [view_setView]
    rwa [hp] at hg

variable {r : Option P} {st : ProcState} {s t : Thr P L}

attribute [local simp] Machine.swtch

theorem thr_swtch {c : K ⊕ P} (hk : c ≠ .inl k) (hp : c ≠ .inr p) :
    (m.swtch k p r st s t).thr c = m.thr c := by simp [Machine.setState, hk, hp]

theorem run_swtch (hk : k' ≠ k) : (m.swtch k p r st s t).run k' = m.run k' := by simp [hk]

theorem run_swtch_self : (m.swtch k p r st s t).run k = r := by simp

/-- What the CPU sees after a switch. The process it executes is `p`. -/
theorem view_swtch_self (hr : ∀ q ∈ r, q = p) :
    (m.swtch k p r st s t).view k = ⟨m.cpu k, r.elim s fun _ => t, m.lock⟩ := by
  cases r with
  | none => simp [Machine.setState, Machine.view, Machine.cur, Machine.ctx]
  | some q =>
    obtain rfl := hr q rfl
    simp [Machine.setState, Machine.view, Machine.cur, Machine.ctx]

/-- The other CPUs do not notice a switch. -/
theorem view_swtch (hk : k' ≠ k) (hp : m.run k' ≠ some p) :
    (m.swtch k p r st s t).view k' = m.view k' := by
  have hctx : (m.swtch k p r st s t).ctx k' = m.ctx k' := by
    rw [Machine.ctx, run_swtch hk, Machine.ctx]
  rw [Machine.view, Machine.cur, hctx, thr_swtch (ctx_ne_inl hk) (ctx_ne_inr hp)]
  rfl

/-- A switch between the scheduler of `k` and the process `p`, which no other CPU executes. -/
theorem swtch (h : Inv m) (hp : ∀ k' ≠ k, m.run k' ≠ some p) (hk : ∀ q ≠ p, m.run k ≠ some q)
    (hr : ∀ q ∈ r, q = p) (hsees : Sees k r ⟨m.cpu k, r.elim s fun _ => t, m.lock⟩)
    (hin : r = some p → Parked none p s ∧ st = .running)
    (hout : r = none → Parked (some p) p t) : Inv (m.swtch k p r st s t) where
  sees k' := by
    by_cases hk' : k' = k
    · rwa [hk', run_swtch_self, view_swtch_self hr]
    · rw [run_swtch hk', view_swtch hk' (hp k' hk')]
      exact h.sees k'
  idle k' q hq := by
    by_cases hk' : k' = k
    · rw [hk', run_swtch_self] at hq
      obtain rfl := hr q hq
      simpa [hk'] using (hin hq).1
    · rw [run_swtch hk'] at hq
      rw [thr_swtch (by simpa using hk') (by simp)]
      exact h.idle k' q hq
  parked q hq := by
    by_cases hqp : q = p
    · subst hqp
      have hnone : r = none := by
        cases r with
        | none => rfl
        | some q' => exact absurd (hr q' rfl ▸ run_swtch_self) (hq k)
      simpa using hout hnone
    rw [thr_swtch (by simp) (by simpa using hqp)]
    refine h.parked q fun k' hr' => ?_
    by_cases hk' : k' = k
    · exact hk q hqp (hk' ▸ hr')
    · exact hq k' ((run_swtch hk').trans hr')
  running k' q hq := by
    by_cases hk' : k' = k
    · rw [hk', run_swtch_self] at hq
      obtain rfl := hr q hq
      simpa [Machine.setState] using (hin hq).2
    · rw [run_swtch hk'] at hq
      have hqp : q ≠ p := fun heq => hp k' hk' (heq ▸ hq)
      simpa [Machine.setState, hqp] using h.running k' q hq
  inj k1 k2 q h1 h2 := by
    -- a process that another CPU runs is not `p`, and `k` runs no process but `p`
    have hother {k'} (hk' : k' ≠ k) (h' : (m.swtch k p r st s t).run k' = some q)
        (h'' : (m.swtch k p r st s t).run k = some q) : False := by
      rw [run_swtch_self] at h''
      obtain rfl := hr q h''
      exact hp k' hk' ((run_swtch hk').symm.trans h')
    by_cases hk1 : k1 = k
    · by_cases hk2 : k2 = k
      · rw [hk1, hk2]
      · exact (hother hk2 h2 (hk1 ▸ h1)).elim
    · by_cases hk2 : k2 = k
      · exact (hother hk1 h1 (hk2 ▸ h2)).elim
      · exact h.inj _ _ _ ((run_swtch hk1).symm.trans h1) ((run_swtch hk2).symm.trans h2)

/-- `scheduler` switches to a process, or goes on to release the lock. -/
theorem pick (h : Inv m) (hrun : m.run k = none)
    (hctl : (m.cur k).ctl = .pick q) : Inv (m.pick k q) ∧ Follows k m (m.pick k q) := by
  obtain ⟨hlive, hlock⟩ := h.sees k
  have hcur : m.cur k = m.thr (.inl k) := by rw [Machine.cur, ctx_none hrun]
  simp only [Machine.view, hcur, hrun] at hlive hlock
  rw [hcur] at hctl
  have hv : (m.thr (.inl k)).ctl.isResumed = false := by rw [hctl]; rfl
  have hok := hlive.ok
  rw [hctl] at hok
  obtain ⟨_, hheld, hopens⟩ := hok
  by_cases hst : m.state q = .runnable
  · rw [Machine.pick, if_pos hst]
    have hsound := hlive.sound_of hv
    have hdepth : (m.thr (.inl k)).depth = 1 := by simp [depth, hheld, hopens]
    have hidle : ∀ k', m.run k' ≠ some q := by
      intro k' hk'
      have := h.running k' q hk'
      rw [hst] at this
      cases this
    have hresume := (h.parked q hidle).resume hsound.calm (by rw [hsound.noff, hdepth]; rfl)
      (hsound.intr (by omega)) rfl
    rw [hsound.intena (by omega), ← hheld] at hresume
    refine ⟨h.swtch (fun k' _ => hidle k') (by simp [hrun]) (by simp) ⟨hresume, hlock⟩
      (fun _ => ⟨⟨rfl, hopens, ⟨rfl, rfl⟩, ?_, hlive.traps⟩, rfl⟩) (by simp), fun p hp => ?_⟩
    · intro hc
      cases hc
    · simp [hrun] at hp
  rw [Machine.pick, if_neg hst]
  refine h.setView ((h.sees k).goto ?_ rfl ?_)
  · rwa [Machine.view, hcur]
  · simp only [Machine.view, hcur]
    exact ⟨hheld, hopens⟩

/-- `sched` does not panic, and leaves the context with `intena` saved. -/
theorem sched (h : Inv m) (hrun : m.run k = some p) {lk : Option (Lk P L)}
    (hctl : (m.cur k).ctl = .sched lk st) :
    Inv (m.sched k p lk st) ∧ Follows k m (m.sched k p lk st) := by
  obtain ⟨hlive, hlock⟩ := h.sees k
  have hcur : m.cur k = m.thr (.inr p) := by rw [Machine.cur, ctx_some hrun]
  simp only [Machine.view, hcur, hrun] at hlive hlock
  rw [hcur] at hctl
  have hsound := hlive.sound_of (by rw [hctl]; rfl)
  have hok := hlive.ok
  rw [hctl] at hok
  obtain ⟨hst, p', hp', hheld, hopens⟩ := hok
  obtain rfl : p = p' := some.inj hp'
  have hdepth : (m.thr (.inr p)).depth = 1 := by simp [depth, hheld, hopens]
  have hnoff : (m.cpu k).noff = 1 := by rw [hsound.noff, hdepth]; rfl
  have hintr := hsound.intr (by omega)
  have hown : m.lock (.own p) = some k := (hlock _).2 (by simp [hheld])
  have hback := h.idle k p hrun
  have hidle : (m.thr (.inl k)).ctl.isResumed = false := by
    cases hc : (m.thr (.inl k)).ctl with
    | resumed lk st =>
      have := hback.ok
      rw [hc] at this
      obtain ⟨_, hnone, _⟩ := this
      cases hnone
    | _ => rfl
  have hresume := hback.resume hsound.calm hnoff hintr (if_neg (by simp [hidle])).symm
  rw [← hheld] at hresume
  rw [Machine.sched, if_pos ⟨hown, hnoff, hst, hintr⟩]
  refine ⟨h.swtch (fun k' hk' hr => hk' (h.inj _ _ _ hr hrun))
    (fun q hq hr => hq (some.inj (hr.symm.trans hrun))) (by simp) ⟨hresume, hlock⟩
    (by simp) (fun _ => ⟨rfl, hopens, ⟨p, rfl, rfl, rfl⟩, fun _ => hsound.intena (by omega),
      hlive.traps⟩), fun q _ hq => ?_⟩
  rw [run_swtch_self] at hq
  cases hq

theorem view_renew (hq : m.run k ≠ some q) : (m.renew q).view k = m.view k := by
  have hne : m.ctx k ≠ .inr q := ctx_ne_inr hq
  have hctx : (m.renew q).ctx k = m.ctx k := rfl
  rw [Machine.view, Machine.cur, hctx]
  simp [Machine.renew, Machine.view, Machine.cur, hne]

/-- A new context for a process that no CPU runs. -/
theorem renew (h : Inv m) (hq : ∀ k, m.run k ≠ some q) :
    Inv (m.renew q) ∧ Follows k m (m.renew q) := by
  refine ⟨⟨fun k => ?_, fun k p hp => ?_, fun p hp => ?_, h.running, h.inj⟩, fun p hp _ => ?_⟩
  · rw [view_renew (hq k)]
    exact h.sees k
  · simpa [Machine.renew] using h.idle k p hp
  · by_cases hpq : p = q
    · subst hpq
      simpa [Machine.renew] using parked_fresh p
    · simpa [Machine.renew, hpq] using h.parked p hp
  have hsees := h.sees k
  rw [hp] at hsees
  rw [view_renew (hq k)]
  exact hsees.refl

variable [DecidableEq L]

theorem stepCtl (h : Inv m) (hs : m.stepCtl k (m.cur k).ctl = some m') :
    Inv m' ∧ Follows k m m' := by
  cases hctl : (m.cur k).ctl with
  | sched lk st =>
    rw [hctl] at hs
    obtain ⟨p, hp, rfl⟩ := map_eq_some_iff.1 hs
    exact h.sched hp hctl
  | pick q =>
    rw [hctl, Machine.stepCtl] at hs
    split_ifs at hs with hrun
    obtain rfl := some.inj hs
    exact h.pick hrun hctl
  | _ =>
    simp only [hctl, Machine.stepCtl, map_eq_some_iff] at hs
    obtain ⟨v, hv, rfl⟩ := hs
    exact h.setView ((h.sees k).step hctl hv)

theorem call (h : Inv m) (hctl : (m.cur k).ctl = .run) {op : Op P L}
    (hok : op.allowed (m.run k) (m.cur k) = true) (hs : m.call k op = some m') :
    Inv m' ∧ Follows k m m' := by
  cases op with
  | wake q =>
    rw [Machine.call] at hs
    split_ifs at hs with hq
    obtain rfl := some.inj hs
    exact h.store (by simp [hq]) _
  | reap q =>
    rw [Machine.call] at hs
    split_ifs at hs with hq
    obtain rfl := some.inj hs
    exact h.store (by simp [hq]) _
  | fork q =>
    rw [Machine.call] at hs
    split_ifs at hs with hq
    obtain rfl := some.inj hs
    have hidle : ∀ k, m.run k ≠ some q := by
      intro k hk
      have := h.running k q hk
      rw [hq] at this
      cases this
    exact (h.setState (by simp [hq]) .runnable).renew hidle
  | _ =>
    simp only [Machine.call, map_eq_some_iff] at hs
    obtain ⟨v, hv, rfl⟩ := hs
    exact h.setView ((h.sees k).call hctl hok hv)

/-- **Every step of a well-nested run keeps the invariant.** -/
theorem step (h : Inv m) {op : Op P L} (hok : wellNested m (k, op) = true)
    (hs : Interrupts.step m (k, op) = some m') : Inv m' ∧ Follows k m m' := by
  have hcalm : (m.cpu k).panicked = false := (h.sees k).account.1
  rw [Interrupts.step, hcalm, if_neg Bool.false_ne_true] at hs
  cases op with
  | step => exact h.stepCtl hs
  | trap =>
    obtain ⟨v, hv, rfl⟩ := map_eq_some_iff.1 hs
    exact h.setView ((h.sees k).trap hv)
  | _ =>
    simp only at hs
    split_ifs at hs with hctl
    exact h.call hctl hok hs

end Inv

variable [DecidableEq P]

theorem inv_boot (first : P) : Inv (boot K L first) := by
  refine ⟨fun k => ⟨?_, by simp [boot, Machine.view, Machine.cur, Machine.ctx]⟩, ?_, fun p _ => ?_,
    ?_, ?_⟩
  · refine .of_sound ⟨rfl, rfl, fun _ => rfl, fun _ => rfl, List.nodup_nil⟩ rfl trivial ?_
    simp [boot, Machine.view, Machine.cur, Machine.ctx]
  · simp [boot]
  · exact parked_fresh p
  · simp [boot]
  · simp [boot]


variable [DecidableEq K] [DecidableEq L]

/-- **The interrupt state follows the kernel thread.** In every state of a well-nested run no CPU
has panicked. On the CPU that runs a process, `noff` counts the locks that its thread holds and its
open `push_off`s, these locks are the ones that the CPU holds, and interrupts are off while there is
one. The thread notes the interrupt state at its outermost `push_off`, and whatever CPU it comes to
be on, interrupts are as they were then once `noff` is zero again. -/
theorem interrupts_follow_thread (first : P) {m : Machine K P L}
    (hm : Reach step (fun m a => wellNested m a = true) (boot K L first) m) :
    (∀ k, (m.cpu k).panicked = false) ∧ ∀ k p, m.run k = some p →
      (m.cpu k).noff = (m.thr (.inr p)).held.length + (m.thr (.inr p)).opens ∧
      (∀ l, l ∈ (m.thr (.inr p)).held ↔ m.lock l = some k) ∧
      (0 < (m.cpu k).noff → (m.cpu k).intr = false) ∧
      ∀ op m', wellNested m (k, op) = true → step m (k, op) = some m' → m'.run k = some p →
        ((m.cpu k).noff = 0 → 0 < (m'.cpu k).noff → (m'.thr (.inr p)).start = (m.cpu k).intr) ∧
        (0 < (m.cpu k).noff → (m'.thr (.inr p)).start = (m.thr (.inr p)).start) ∧
        (0 < (m.cpu k).noff → (m'.cpu k).noff = 0 →
          (m'.cpu k).intr = (m.thr (.inr p)).start) := by
  have hinv : Inv m := by
    refine hm.invariant (I := Inv) (inv_boot first) ?_
    intro m a m' h hok hs
    obtain ⟨k, op⟩ := a
    exact (h.step hok hs).1
  refine ⟨fun k => (hinv.sees k).account.1, fun k p hp => ?_⟩
  obtain ⟨_, hnoff, hintr⟩ := (hinv.sees k).account
  rw [Inv.view_thr hp] at hnoff hintr
  simp only [Machine.view] at hnoff hintr
  refine ⟨by rw [hnoff, Thr.depth, Nat.cast_add], fun l => ?_, fun h0 => hintr (by omega), ?_⟩
  · rw [← Inv.view_thr hp, ← (hinv.sees k).lock l]
    rfl
  intro op m' hok hs hp'
  obtain ⟨hinv', hfollows⟩ := hinv.step hok hs
  obtain ⟨_, hnoff', _⟩ := (hinv'.sees k).account
  obtain ⟨_, _, hopened, hkept, hclosed⟩ := hfollows p hp hp'
  rw [Inv.view_thr hp] at hopened hkept hclosed
  rw [Inv.view_thr hp'] at hopened hkept hclosed hnoff'
  simp only [Machine.view] at hopened hclosed hnoff'
  rw [hnoff, hnoff']
  refine ⟨fun h0 hpos => ?_, fun hpos => ?_, fun hpos h0 => ?_⟩
  · exact hopened (by omega) (by omega)
  · exact hkept (by omega)
  · exact hclosed (by omega) (by omega)

/-- The first process runs on one CPU, turns interrupts on, yields, and is back on the other CPU,
about to release its lock. -/
def migration : List (Bool × Op Unit Unit) :=
  (false, .scan ()) :: List.replicate 5 (false, .step) ++
    [(false, .intr true), (false, .yield)] ++ List.replicate 5 (false, .step) ++
    (true, .scan ()) :: List.replicate 5 (true, .step)

theorem interrupts_follow_thread_migrated : ∃ m m' : Machine Bool Unit Unit,
    step m (true, .step) = some m' ∧ (m.cpu true).noff = 1 ∧ (m.thr (.inr ())).start = true ∧
      (m'.cpu true).noff = 0 ∧ (m'.cpu true).intr = true := by
  obtain ⟨m, hreach, hm⟩ := exists_reach step wellNested (boot Bool Unit ()) migration
    (fun m => ((m.run true, (m.cpu true).noff, (m.thr (.inr ())).start),
      (step m (true, .step)).map fun m' => (m'.run true, (m'.cpu true).noff)))
    ((some (), 1, true), some (some (), 0)) (by decide +kernel)
  simp only [Prod.mk.injEq, Option.map_eq_some_iff] at hm
  obtain ⟨⟨hp, hnoff, hstart⟩, m', hs, hp', h0⟩ := hm
  obtain ⟨_, _, _, hstep⟩ := (interrupts_follow_thread () hreach).2 true () hp
  refine ⟨m, m', hs, hnoff, hstart, h0, ?_⟩
  rw [(hstep .step m' rfl hs hp').2.2 (by omega) h0, hstart]

end Xv6.Interrupts

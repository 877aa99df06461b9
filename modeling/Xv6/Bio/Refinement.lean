import Xv6.Bio.Coherence

/-!
# The buffer cache refines the disk

Every step of a process that keeps to the rules of the cache keeps the invariant of
`Xv6.Bio.Coherence`, so in every run the cache is a memory of blocks (`cache_refines_disk`).

## Main results

* `cache_refines_disk`: what is read through the cache is what was written last
-/

namespace Xv6.Bio

open Thread Transition Tally Function Cache Ghost Ctl

variable {D : Type}

structure Coherent (m : Cache D) (g : Ghost D) : Prop where
  lru : Lru m g
  clock : ∀ b, g.freed b < g.clock
  counted : Counted m g
  content : Content m g

theorem coherent_binit (disk : ℕ → ℕ → D) (zero : D) :
    Coherent (binit disk zero) (Ghost.init disk) where
  lru := lru_binit disk zero
  clock b := b.isLt
  counted b := by simp [binit, Ghost.init, Cache.breads, tally, Ctl.on]
  content :=
    { unique := fun _ _ h => absurd rfl h
      getting := by simp [binit]
      held := by simp [binit]
      valid := by simp [binit]
      dirty := by simp [Ghost.init]
      disk := fun _ _ _ => rfl }

namespace Coherent

variable {m m' : Cache D} {g g' : Ghost D} {b c : BufId} {p : Slot}

theorem ref {ctl : Ctl} (h : Coherent m g) (hfew : Few m g) (hbuf : m'.buf = (m.ref b).buf)
    (hb : m'.breads b + g'.pins b = m.breads b + g.pins b + 1)
    (hne : ∀ c, c ≠ b → m'.breads c + g'.pins c = m.breads c + g.pins c)
    (hlinks : m'.links = m.links) (hlock : m'.lock = m.lock) (hdisk : m'.disk = m.disk)
    (hctl : m'.ctl = update m.ctl p ctl) (hgetting : ∀ b dev blockno, ctl = .getting b dev blockno →
      dev ≠ 0 ∧ (m.buf b).dev = dev ∧ (m.buf b).blockno = blockno)
    (hpins : ∀ c, g.pins c ≤ g'.pins c) (hmem : g'.mem = g.mem) (hdirty : g'.dirty = g.dirty)
    (hfreed : g'.freed = g.freed) (hclock : g'.clock = g.clock) : Coherent m' g' := by
  have hcounted : Counted m' g' := h.counted.ref hfew hb hne hbuf
  refine ⟨h.lru.keep hlinks hfreed fun c hc => ?_, ?_, hcounted, ?_⟩
  · by_cases hcb : c = b
    · subst hcb
      have := hcounted c
      omega
    · simpa [hbuf, Cache.ref, Cache.setBuf, hcb] using hc
  · rw [hfreed, hclock]
    exact h.clock
  refine h.content.keep (fun c => ?_) hdisk hmem hdirty hctl hgetting ?_ fun c hc => ?_
  · rw [hbuf]
    exact m.setBuf_refcnt b c _
  · rw [hlock]
    exact h.content.held
  · rw [hlock]
    exact (h.content.dirty c hc).2.imp_left fun hpos => hpos.trans_le (hpins c)

theorem breads_of_idle (hp : m.ctl p = .idle) (ctl : Ctl) (c : BufId) :
    (m.goto p ctl).breads c = m.breads c + if ctl.on c then 1 else 0 := by
  have h := breads_update m p ctl c
  rw [hp] at h
  simpa [Ctl.on] using h

variable {dev blockno : ℕ}

theorem hit (h : Coherent m g) (hfew : Few m g) (hp : m.ctl p = .idle)
    (hdev : dev ≠ 0) (hb : m.lookup dev blockno = some b) :
    Coherent ((m.ref b).goto p (.getting b dev blockno)) g := by
  have hbreads : ∀ c, ((m.ref b).goto p (.getting b dev blockno)).breads c =
      m.breads c + if b = c then 1 else 0 := by
    intro c
    rw [breads_of_idle (m := m.ref b) hp]
    simp [Ctl.on, Cache.breads, Cache.ref]
  refine h.ref hfew rfl ?_ (fun c hc => ?_) rfl rfl rfl rfl ?_ (fun _ => le_rfl) rfl rfl rfl rfl
  · rw [hbreads b, if_pos rfl]
    omega
  · rw [hbreads c, if_neg (Ne.symm hc), Nat.add_zero]
  · rintro c _ _ ⟨⟩
    exact ⟨hdev, lookup_eq_some hb⟩

theorem miss (h : Coherent m g) (hp : m.ctl p = .idle) (hdev : dev ≠ 0)
    (hnone : m.lookup dev blockno = none) (hb : m.victim = some b) :
    Coherent ((m.recycle b dev blockno).goto p (.getting b dev blockno)) g := by
  have hzero := (h.lru.victim_eq_some hb).1
  have hbreads : ∀ c, ((m.recycle b dev blockno).goto p (.getting b dev blockno)).breads c =
      m.breads c + if b = c then 1 else 0 := by
    intro c
    rw [breads_of_idle (m := m.recycle b dev blockno) hp]
    simp [Ctl.on, Cache.breads, Cache.recycle]
  refine ⟨h.lru.keep rfl rfl fun c hc => ?_, h.clock, fun c => ?_,
    h.content.recycle h.counted hzero hdev (h.lru.lookup_eq_none hnone)⟩
  · by_cases hcb : c = b
    · rw [hcb, hzero]
    · simpa [Cache.recycle, hcb] using hc
  rw [hbreads c]
  by_cases hcb : c = b
  · subst hcb
    have hrefs := h.counted c
    rw [hzero] at hrefs
    simp only [Cache.goto_buf, Cache.recycle, Cache.setBuf_buf_self, if_pos]
    omega
  · simpa [Cache.recycle, hcb, Ne.symm hcb] using h.counted c

theorem noBuffers (h : Coherent m g) (hp : m.ctl p = .idle) : Coherent (m.goto p .noBuffers) g := by
  refine ⟨h.lru.keep rfl rfl fun _ => id, h.clock, fun c => ?_,
    h.content.keep (fun c => ⟨_, rfl⟩) rfl rfl rfl rfl (by simp) h.content.held
      fun c hc => (h.content.dirty c hc).2⟩
  rw [breads_of_idle hp .noBuffers c]
  simpa [Ctl.on] using h.counted c

theorem bread (h : Coherent m g) (hp : m.ctl p = .getting b dev blockno)
    (hlock : m.lock b = none) : Coherent (m.bread p b) g := by
  obtain ⟨hfill, hvalid⟩ := h.content.fill ⟨dev, blockno, hp⟩
  obtain ⟨hlinks, hlocks, -, hctl⟩ := m.fill_eq b
  rw [Cache.bread_eq]
  refine ⟨h.lru.keep hlinks rfl fun c hc => (m.fill_refcnt b c).symm.trans hc, h.clock, fun c => ?_,
    hfill.keep (fun c => ⟨_, rfl⟩) rfl rfl rfl rfl (by simp) (fun c q hq => ?_) fun c hc => ?_⟩
  · refine (m.fill_refcnt b c).trans ((h.counted c).trans ?_)
    have htally := tally_update (Ctl.on c) m.ctl p .idle
    rw [hp] at htally
    rw [Cache.breads, Cache.breads]
    simp only [Cache.goto, hctl]
    by_cases hcb : b = c
    · subst hcb
      simp [Ctl.on, hlock] at htally ⊢
      omega
    · simp [Ctl.on, hcb, Ne.symm hcb] at htally ⊢
      omega
  · by_cases hcb : c = b
    · rw [hcb, hvalid]
    · refine hfill.held c q ?_
      simpa [hlocks, hcb] using hq
  refine (hfill.dirty c hc).2.imp_right fun hsome => ?_
  by_cases hcb : c = b
  · simp [hcb]
  · simpa [hlocks, hcb] using hsome

theorem modify (h : Coherent m g) (hlock : m.lock b = some p) (x : D) :
    Coherent (m.setBuf b { m.buf b with data := x }) (g.note m (.modify p b x)) := by
  have hvalid := h.content.held b p hlock
  obtain ⟨hdev, -⟩ := h.content.valid b hvalid
  have hfields : ∀ c, ∃ y, (m.setBuf b { m.buf b with data := x }).buf c =
      { m.buf c with data := y } := by
    intro c
    by_cases hcb : c = b
    · subst hcb
      exact ⟨x, m.setBuf_buf_self c _⟩
    · exact ⟨_, m.setBuf_buf_of_ne hcb _⟩
  have hsame : ∀ c, (((m.setBuf b { m.buf b with data := x }).buf c).dev = (m.buf c).dev ∧
      ((m.setBuf b { m.buf b with data := x }).buf c).blockno = (m.buf c).blockno) ∧
      ((m.setBuf b { m.buf b with data := x }).buf c).valid = (m.buf c).valid ∧
      ((m.setBuf b { m.buf b with data := x }).buf c).refcnt = (m.buf c).refcnt := by
    intro c
    obtain ⟨y, hy⟩ := hfields c
    simp [hy]
  refine ⟨h.lru.keep rfl rfl fun c hc => (hsame c).2.2.symm.trans hc, h.clock, fun c => ?_, ?_⟩
  · exact (hsame c).2.2.trans (h.counted c)
  constructor
  case unique =>
    intro c d
    rw [(hsame c).1.1, (hsame c).1.2, (hsame d).1.1, (hsame d).1.2]
    exact h.content.unique c d
  case getting =>
    intro q c dev blockno hq
    rw [(hsame c).1.1, (hsame c).1.2]
    exact h.content.getting q c dev blockno hq
  case held =>
    intro c q hq
    rw [(hsame c).2.1]
    exact h.content.held c q hq
  case valid =>
    intro c hc
    rw [(hsame c).2.1] at hc
    obtain ⟨hdevc, hdata⟩ := h.content.valid c hc
    rw [(hsame c).1.1, (hsame c).1.2]
    refine ⟨hdevc, ?_⟩
    by_cases hcb : c = b
    · subst hcb
      simp [note]
    · -- no other buffer has the block
      rw [setBuf_buf_of_ne _ hcb, hdata]
      exact (setBlock_of_ne _ _ fun heq => hcb (h.content.unique c b hdevc heq.1 heq.2)).symm
  case dirty =>
    intro c hc
    rw [(hsame c).2.1]
    by_cases hcb : c = b
    · subst hcb
      exact ⟨hvalid, .inr (by simp [hlock])⟩
    · exact h.content.dirty c (by simpa [note, hcb] using hc)
  case disk =>
    intro dev blockno hclean
    have hne : ¬(dev = (m.buf b).dev ∧ blockno = (m.buf b).blockno) := by
      rintro ⟨rfl, rfl⟩
      have := hclean b (hsame b).1.1 (hsame b).1.2
      simp [note] at this
    have hdisk := h.content.disk dev blockno fun c hc hc' => by
      have hcb : c ≠ b := by
        rintro rfl
        exact hne ⟨hc.symm, hc'.symm⟩
      simpa [note, hcb] using hclean c ((hsame c).1.1.trans hc) ((hsame c).1.2.trans hc')
    exact hdisk.trans (setBlock_of_ne _ _ hne).symm

theorem bwrite (h : Coherent m g) (hlock : m.lock b = some p) :
    Coherent (m.bwrite b) (g.note m (.bwrite p b)) := by
  obtain ⟨hdev, hdata⟩ := h.content.valid b (h.content.held b p hlock)
  refine ⟨h.lru.keep rfl rfl fun _ => id, h.clock, h.counted, ?_⟩
  constructor
  case unique => exact h.content.unique
  case getting => exact h.content.getting
  case held => exact h.content.held
  case valid => exact h.content.valid
  case dirty =>
    intro c hc
    have hcb : c ≠ b := by
      rintro rfl
      simp [note] at hc
    exact h.content.dirty c (by simpa [note, hcb] using hc)
  case disk =>
    intro dev blockno hclean
    by_cases hblock : dev = (m.buf b).dev ∧ blockno = (m.buf b).blockno
    · obtain ⟨rfl, rfl⟩ := hblock
      exact (setBlock_self _ _ _ _).trans hdata
    refine (setBlock_of_ne _ _ hblock).trans (h.content.disk dev blockno fun c hc hc' => ?_)
    have hcb : c ≠ b := by
      rintro rfl
      exact hblock ⟨hc.symm, hc'.symm⟩
    simpa [note, hcb] using hclean c hc hc'

theorem brelse (h : Coherent m g) (hp : m.ctl p = .idle) (hlock : m.lock b = some p)
    (hdirty : g.dirty b = true → 0 < g.pins b) : Coherent (m.brelse p b) g := by
  refine ⟨h.lru.keep rfl rfl fun _ => id, h.clock, fun c => (h.counted c).trans ?_,
    h.content.keep (fun c => ⟨_, rfl⟩) rfl rfl rfl rfl (by simp) (fun c q hq => ?_) fun c hc => ?_⟩
  · have htally := tally_update (Ctl.on c) m.ctl p (.releasing b)
    rw [hp] at htally
    simp only [Cache.breads, Cache.brelse, Cache.goto]
    by_cases hcb : b = c
    · subst hcb
      simp [Ctl.on, hlock] at htally ⊢
      omega
    · simp [Ctl.on, hcb, Ne.symm hcb] at htally ⊢
      omega
  · have hcb : c ≠ b := by
      rintro rfl
      simp [Cache.brelse] at hq
    exact h.content.held c q (by simpa [Cache.brelse, hcb] using hq)
  by_cases hcb : c = b
  · subst hcb
    exact .inl (hdirty hc)
  · simpa [Cache.brelse, hcb] using (h.content.dirty c hc).2

theorem unref (h : Coherent m g) (hfew : Few m g) (hp : m.ctl p = .releasing b) :
    Coherent (m.unref p b) (g.note m (.unref p)) := by
  have hbreads : ∀ c, (m.goto p .idle).breads c + (if b = c then 1 else 0) = m.breads c := by
    intro c
    have h := breads_update m p .idle c
    rw [hp] at h
    simpa [Ctl.on] using h
  have hbuf : (m.unref p b).buf = (m.deref b).buf := by
    rw [Cache.unref]
    split <;> rfl
  have hpins : (g.note m (.unref p)).pins = g.pins := by
    simp only [Ghost.note, hp]
    split <;> rfl
  have hcounts : ∀ c, (m.unref p b).breads c = (m.goto p .idle).breads c := by
    intro c
    rw [Cache.unref]
    split <;> rfl
  have hcounted : Counted (m.unref p b) (g.note m (.unref p)) := by
    refine h.counted.deref hfew (b := b) ?_ (fun c hc => ?_) hbuf
    · have := hbreads b
      rw [if_pos rfl] at this
      rw [hcounts, hpins]
      omega
    have := hbreads c
    rw [if_neg (Ne.symm hc)] at this
    rw [hcounts, hpins]
    omega
  have hcontent : Content (m.unref p b) (g.note m (.unref p)) := by
    have hctl : (m.unref p b).ctl = update m.ctl p .idle := by
      rw [Cache.unref]
      split <;> rfl
    refine h.content.keep (fun c => hbuf ▸ m.setBuf_refcnt b c _) ?_ ?_ ?_ hctl (by simp)
      (fun c q hq => ?_) fun c hc => ?_
    · rw [Cache.unref]
      split <;> rfl
    · simp only [Ghost.note, hp]
      split <;> rfl
    · simp only [Ghost.note, hp]
      split <;> rfl
    · refine h.content.held c q ?_
      rw [Cache.unref] at hq
      split at hq <;> exact hq
    rw [hpins]
    refine (h.content.dirty c hc).2.imp_right fun hsome => ?_
    rw [Cache.unref]
    split <;> exact hsome
  by_cases hzero : ((m.deref b).buf b).refcnt = 0
  · have hnote : g.note m (.unref p) =
        { g with freed := update g.freed b g.clock, clock := g.clock + 1 } := by
      simp [Ghost.note, hp, hzero]
    have hlinks : (m.unref p b).links = (m.links.unlink b).insertFront b := by
      rw [Cache.unref, if_pos hzero]
      rfl
    refine ⟨h.lru.moveToHead hlinks ?_ h.clock fun c hc => ?_, fun c => ?_, hcounted, hcontent⟩
    · rw [hnote]
    · rw [hbuf, Cache.deref, Cache.setBuf_buf_of_ne _ hc]
    have hlt := h.clock c
    rw [hnote]
    by_cases hcb : c = b
    · simp [hcb]
    · simp only [update_of_ne hcb]
      omega
  have hnote : g.note m (.unref p) = g := by simp [Ghost.note, hp, hzero]
  refine ⟨h.lru.keep ?_ ?_ fun c hc => ?_, fun c => ?_, hcounted, hcontent⟩
  · rw [Cache.unref, if_neg hzero]
    rfl
  · rw [hnote]
  · by_cases hcb : c = b
    · subst hcb
      rw [hbuf] at hc
      exact absurd hc hzero
    · rwa [hbuf, Cache.deref, Cache.setBuf_buf_of_ne _ hcb] at hc
  · rw [hnote]
    exact h.clock c

theorem bpin (h : Coherent m g) (hfew : Few m g) : Coherent (m.ref b) (g.note m (.bpin p b)) := by
  refine h.ref hfew rfl ?_ (fun c hc => ?_) rfl rfl rfl (update_eq_self p m.ctl).symm
    (fun c dev blockno => h.content.getting p c dev blockno) (fun c => ?_) rfl rfl rfl rfl
  · simp only [note, update_self]
    exact (Nat.add_assoc _ _ _).symm
  · simp only [note, update_of_ne hc]
    rfl
  by_cases hcb : c = b
  · subst hcb
    simp [note]
  · simp [note, hcb]

theorem bunpin (h : Coherent m g) (hfew : Few m g) (hlock : m.lock b = some p)
    (hpins : 0 < g.pins b) (hclean : g.dirty b = false) :
    Coherent (m.deref b) (g.note m (.bunpin p b)) := by
  have hcounted : Counted (m.deref b) (g.note m (.bunpin p b)) := by
    refine h.counted.deref hfew (b := b) ?_ (fun c hc => ?_) rfl
    · simp only [note, update_self]
      change m.breads b + _ + 1 = _
      omega
    · simp only [note, update_of_ne hc]
      rfl
  refine ⟨h.lru.keep rfl rfl fun c hc => ?_, h.clock, hcounted,
    h.content.keep (m.setBuf_refcnt b · _) rfl rfl rfl (update_eq_self p m.ctl).symm
      (fun c dev blockno => h.content.getting p c dev blockno) h.content.held fun c hc => ?_⟩
  · by_cases hcb : c = b
    · subst hcb
      exact absurd hc (hcounted.refcnt_pos hlock)
    · rwa [deref, setBuf_buf_of_ne _ hcb] at hc
  have hcb : c ≠ b := by
    rintro rfl
    exact absurd (hclean.symm.trans hc) (by simp)
  simpa [note, hcb, deref] using (h.content.dirty c hc).2

theorem step {a : Act D} (h : Coherent m g) (hfew : Few m g) (hok : Disciplined g a)
    (hs : m.step a = some m') : Coherent m' (g.note m a) := by
  cases StepCase.of_step hs with
  | hit hp hb => exact h.hit hfew hp hok hb
  | miss hp hnone hb => exact h.miss hp hok hnone hb
  | noBuffers hp => exact h.noBuffers hp
  | bread hp hfree => exact h.bread hp hfree
  | modify x _ hlock => exact h.modify hlock x
  | bwrite _ hlock => exact h.bwrite hlock
  | brelse hp hlock => exact h.brelse hp hlock hok
  | unref hp => exact h.unref hfew hp
  | bpin => exact h.bpin hfew
  | bunpin _ hlock => exact h.bunpin hfew hlock hok.1 hok.2

end Coherent

abbrev historyStep : Cache D × Ghost D → Act D → Option (Cache D × Ghost D) :=
  withHistory Cache.step Ghost.note

abbrev Run (disk : ℕ → ℕ → D) (zero : D) (few : Cache D → Ghost D → Prop) (s : Cache D × Ghost D) :
    Prop :=
  Reach historyStep (fun s a => Disciplined s.2 a ∧ few s.1 s.2) (binit disk zero, Ghost.init disk) s

theorem coherent_of_run {disk : ℕ → ℕ → D} {zero : D} {s : Cache D × Ghost D}
    (h : Run disk zero Few s) : Coherent s.1 s.2 := by
  refine h.invariant (I := fun s => Coherent s.1 s.2) (coherent_binit disk zero) ?_
  rintro s a s' hi ⟨hok, hfew⟩ hs
  obtain ⟨hs, hnote⟩ := withHistory_eq_some.mp hs
  rw [hnote]
  exact hi.step hfew hok hs

theorem block_step {m m' : Cache D} {a : Act D} (hs : m.step a = some m') (b : BufId) :
    ((m'.buf b).dev = (m.buf b).dev ∧ (m'.buf b).blockno = (m.buf b).blockno) ∨
      m.victim = some b ∧ m.lookup (m'.buf b).dev (m'.buf b).blockno = none ∧
        ∃ p, a = .bget p (m'.buf b).dev (m'.buf b).blockno := by
  have hset : ∀ c x, x.dev = (m.buf c).dev → x.blockno = (m.buf c).blockno →
      ((m.setBuf c x).buf b).dev = (m.buf b).dev ∧
        ((m.setBuf c x).buf b).blockno = (m.buf b).blockno := by
    intro c x hdev hblockno
    by_cases hbc : b = c
    · subst hbc
      rw [setBuf_buf_self]
      exact ⟨hdev, hblockno⟩
    · rw [setBuf_buf_of_ne _ hbc]
      exact ⟨rfl, rfl⟩
  cases StepCase.of_step hs with
  | @miss p dev blockno c hp hnone hc =>
    by_cases hbc : b = c
    · subst hbc
      exact .inr ⟨hc, by simpa [recycle] using hnone, p, by simp [recycle]⟩
    · exact .inl (by simp [recycle, hbc])
  | bread =>
    left
    rw [bread_eq, fill]
    split
    · exact ⟨rfl, rfl⟩
    · exact hset _ _ rfl rfl
  | unref =>
    left
    rw [unref]
    split <;> exact hset _ _ rfl rfl
  | hit | modify | bpin | bunpin => exact .inl (hset _ _ rfl rfl)
  | noBuffers | bwrite | brelse => exact .inl ⟨rfl, rfl⟩

/-- **A buffer with a reference is not recycled**: it keeps its block. -/
theorem Lru.block_step {m m' : Cache D} {g : Ghost D} {a : Act D} {b : BufId} (h : Lru m g)
    (hs : m.step a = some m') (hb : 0 < (m.buf b).refcnt) :
    (m'.buf b).dev = (m.buf b).dev ∧ (m'.buf b).blockno = (m.buf b).blockno :=
  (Bio.block_step hs b).resolve_right fun hv => hb.ne' (h.victim_eq_some hv.1).1

theorem Content.bread_eq_mem {m m' : Cache D} {g : Ghost D} {p : Slot} {b : BufId} {dev blockno : ℕ}
    (h : Content m g) (hp : m.ctl p = .getting b dev blockno) (hs : m.step (.bread p) = some m') :
    m'.lock b = some p ∧ (m'.buf b).dev = dev ∧ (m'.buf b).blockno = blockno ∧
      (m'.buf b).data = g.mem dev blockno := by
  simp only [step, hp, Option.ite_none_right_eq_some, Option.some.injEq] at hs
  obtain ⟨-, rfl⟩ := hs
  obtain ⟨hfill, hvalid⟩ := h.fill ⟨dev, blockno, hp⟩
  have hctl := (m.fill_eq b).2.2.2
  obtain ⟨-, rfl, rfl⟩ := hfill.getting p b dev blockno (hctl ▸ hp)
  rw [bread_eq]
  exact ⟨update_self _ _ _, rfl, rfl, (hfill.valid b hvalid).2⟩

/-- **The buffer cache refines the disk.** -/
theorem cache_refines_disk {disk : ℕ → ℕ → D} {zero : D} {m : Cache D} {g : Ghost D}
    (h : Run disk zero Few (m, g)) :
    (∃ l, m.links.Ring l ∧ l.Perm (List.finRange NBUF)) ∧
    (∀ b c, (m.buf b).dev ≠ 0 → (m.buf b).dev = (m.buf c).dev →
      (m.buf b).blockno = (m.buf c).blockno → b = c) ∧
    (∀ b, (m.buf b).refcnt = m.breads b + g.pins b) ∧
    (∀ a m' b, m.step a = some m' → 0 < (m.buf b).refcnt →
      (m'.buf b).dev = (m.buf b).dev ∧ (m'.buf b).blockno = (m.buf b).blockno) ∧
    (∀ p b dev blockno m', m.ctl p = .getting b dev blockno → m.step (.bread p) = some m' →
      m'.lock b = some p ∧ (m'.buf b).dev = dev ∧ (m'.buf b).blockno = blockno ∧
        (m'.buf b).data = g.mem dev blockno) ∧
    ∀ b, m.victim = some b →
      (m.buf b).refcnt = 0 ∧ ∀ c, (m.buf c).refcnt = 0 → g.freed b ≤ g.freed c := by
  have hcoh := coherent_of_run h
  obtain ⟨l, hring, hperm, -⟩ := hcoh.lru
  exact ⟨⟨l, hring, hperm⟩, hcoh.content.unique, hcoh.counted,
    fun a m' b hs hb => hcoh.lru.block_step hs hb,
    fun p b dev blockno m' hp hs => hcoh.content.bread_eq_mem hp hs,
    fun b hb => hcoh.lru.victim_eq_some hb⟩

/-- The first process writes a block and leaves it pinned, the second one reads it. -/
def writeAndRead : List (Act ℕ) :=
  [.bget 0 1 5, .bread 0, .modify 0 0 7, .bpin 0 0, .brelse 0 0, .unref 0, .bget 1 1 5]

theorem run_writeAndRead : ∃ s, Run (fun _ _ => 0) 0 Few s ∧
    (s.1.ctl 1, s.2.mem 1 5, (s.1.lock 0).isNone) = (.getting 0 1 5, 7, true) := by
  obtain ⟨s, hs, heq⟩ := exists_reach historyStep
    (fun s a => decide (Disciplined s.2 a ∧ Few s.1 s.2))
    (binit (fun _ _ => 0) 0, init fun _ _ => 0)
    writeAndRead (fun s => (s.1.ctl 1, s.2.mem 1 5, (s.1.lock 0).isNone)) (.getting 0 1 5, 7, true)
    (by decide +kernel)
  exact ⟨s, hs.mono fun _ _ => of_decide_eq_true, heq⟩

/-- In that run the second process reads what the first one wrote, which is not on the disk. -/
theorem cache_refines_disk_pinned : ∃ m m' g, Run (fun _ _ => 0) 0 Few (m, g) ∧
    m.step (.bread 1) = some m' ∧ (m'.buf 0).data = 7 := by
  obtain ⟨⟨m, g⟩, hrun, heq⟩ := run_writeAndRead
  simp only [Prod.mk.injEq, Option.isNone_iff_eq_none] at heq
  obtain ⟨hctl, hmem, hlock⟩ := heq
  have hs : m.step (.bread 1) = some (m.bread 1 0) := by
    simp [Cache.step, hctl, hlock]
  have hread := (cache_refines_disk hrun).2.2.2.2.1 1 0 1 5 _ hctl hs
  exact ⟨m, _, g, hrun, hs, hread.2.2.2.trans hmem⟩

/-! ## Without the bound -/

theorem reach_pinned {m : Cache D} (g : Ghost D) {p : Slot} {b : BufId} (hp : m.ctl p = .idle)
    (hlock : m.lock b = some p) (hlt : (m.buf b).refcnt < 2 ^ 32) (n : ℕ) :
    ∃ m' g', Reach historyStep (fun s a => Disciplined s.2 a ∧ True) (m, g) (m', g') ∧
      m'.ctl = m.ctl ∧ m'.lock = m.lock ∧ g'.pins b = g.pins b + n ∧
      (m'.buf b).refcnt = ((m.buf b).refcnt + n) % 2 ^ 32 := by
  induction n with
  | zero => exact ⟨m, g, .refl, rfl, rfl, rfl, (Nat.mod_eq_of_lt hlt).symm⟩
  | succ n ih =>
    obtain ⟨m', g', hreach, hctl, hlock', hpins, hrefcnt⟩ := ih
    have hs : historyStep (m', g') (.bpin p b) = some (m'.ref b, g'.note m' (.bpin p b)) := by
      simp [historyStep, withHistory, step, hctl, hlock', hp, hlock]
    have hok : Disciplined g' (.bpin p b) := trivial
    refine ⟨_, _, hreach.tail ⟨hok, trivial⟩ hs, hctl, hlock', ?_, ?_⟩
    · simp [note, hpins, Nat.add_assoc]
    · simp only [ref, setBuf_buf_self, uint32]
      omega

/-- **`refcnt` does not count without the bound**: a process reads a block and pins its buffer
`2 ^ 32 - 1` times, and `refcnt` is 0. -/
theorem refcnt_wraps : ∃ m g, Run (fun _ _ => 0) 0 (fun _ _ => True) (m, g) ∧
    (m.buf 0).refcnt = 0 ∧ m.breads 0 + g.pins 0 = 2 ^ 32 := by
  obtain ⟨⟨m, g⟩, hs, heq⟩ := exists_reach (historyStep (D := ℕ))
    (fun s a => decide (Disciplined s.2 a)) (binit (fun _ _ => 0) 0, Ghost.init fun _ _ => 0)
    [.bget 0 1 5, .bread 0]
    (fun s => (s.1.ctl 0, s.1.lock 0, s.1.breads 0, (s.1.buf 0).refcnt, s.2.pins 0))
    (.idle, some 0, 1, 1, 0) (by decide +kernel)
  simp only [Prod.mk.injEq] at heq
  obtain ⟨hctl, hlock, hbreads, hrefcnt, hpins⟩ := heq
  obtain ⟨m', g', hreach, hctl', hlock', hpins', hrefcnt'⟩ :=
    reach_pinned g hctl hlock (by omega) (2 ^ 32 - 1)
  refine ⟨m', g', (hs.mono fun _ _ h => ⟨of_decide_eq_true h, trivial⟩).trans hreach, ?_, ?_⟩
  · rw [hrefcnt', hrefcnt]
    rfl
  · have : m'.breads 0 = m.breads 0 := by
      rw [Cache.breads, Cache.breads, hctl', hlock']
    omega

end Xv6.Bio

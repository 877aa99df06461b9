import Xv6.Bio.Cache

/-!
# The invariant of the buffer cache

What the cache is for: `Ghost.mem` is a memory of blocks, changed by every modification of a held
buffer, and the cache keeps it with `NBUF` buffers and a disk.
-/

namespace Xv6.Bio

open Thread Transition Tally Function Cache List

variable {D : Type}

structure Ghost (D : Type) where
  /-- The latest contents written to each block, or else those on the disk at the start. -/
  mem : ℕ → ℕ → D
  /-- The buffer was modified since it was last written to the disk. -/
  dirty : BufId → Bool
  /-- The `bpin`s without a `bunpin`. -/
  pins : BufId → ℕ
  /-- The time at which `refcnt` last became 0. -/
  freed : BufId → ℕ
  clock : ℕ

def Ghost.init (disk : ℕ → ℕ → D) : Ghost D where
  mem := disk
  dirty _ := false
  pins _ := 0
  freed b := b
  clock := NBUF

def Ghost.note (g : Ghost D) (m : Cache D) : Act D → Ghost D
  | .modify _ b x =>
    { g with
      mem := setBlock g.mem (m.buf b).dev (m.buf b).blockno x
      dirty := update g.dirty b true }
  | .bwrite _ b => { g with dirty := update g.dirty b false }
  | .bpin _ b => { g with pins := update g.pins b (g.pins b + 1) }
  | .bunpin _ b => { g with pins := update g.pins b (g.pins b - 1) }
  | .unref p =>
    match m.ctl p with
    | .releasing b =>
      if ((m.deref b).buf b).refcnt = 0 then
        { g with freed := update g.freed b g.clock, clock := g.clock + 1 }
      else g
    | _ => g
  | .bget _ _ _ | .bread _ | .brelse _ _ => g

/-- The rules for the callers: a buffer that was modified is written to the disk or pinned before
`brelse`, and unpinned only after it was written. -/
def Disciplined (g : Ghost D) : Act D → Prop
  | .bget _ dev _ => dev ≠ 0
  | .brelse _ b => g.dirty b = true → 0 < g.pins b
  | .bunpin _ b => 0 < g.pins b ∧ g.dirty b = false
  | .bread _ | .modify _ _ _ | .bwrite _ _ | .unref _ | .bpin _ _ => True

instance (g : Ghost D) : DecidablePred (Disciplined g)
  | .bget _ _ _ => inferInstanceAs (Decidable (_ ≠ _))
  | .brelse _ _ => inferInstanceAs (Decidable (_ → _))
  | .bunpin _ _ => inferInstanceAs (Decidable (_ ∧ _))
  | .bread _ | .modify _ _ _ | .bwrite _ _ | .unref _ | .bpin _ _ => inferInstanceAs (Decidable True)

def Few (m : Cache D) (g : Ghost D) : Prop := ∀ b, m.breads b + g.pins b < 2 ^ 32 - 1

instance (m : Cache D) (g : Ghost D) : Decidable (Few m g) := inferInstanceAs (Decidable (∀ _, _))

/-! ## The order of the buffers -/

/-- The ring goes through all buffers, and those without a reference are in the order in which they
lost the last one, the latest first. -/
def Lru (m : Cache D) (g : Ghost D) : Prop :=
  ∃ l, m.links.Ring l ∧ l.Perm (List.finRange NBUF) ∧
    l.Pairwise fun b c => (m.buf b).refcnt = 0 → (m.buf c).refcnt = 0 → g.freed c < g.freed b

namespace Lru

variable {m m' : Cache D} {g g' : Ghost D} {b c : BufId}

theorem keep (h : Lru m g) (hlinks : m'.links = m.links) (hfreed : g'.freed = g.freed)
    (hzero : ∀ b, (m'.buf b).refcnt = 0 → (m.buf b).refcnt = 0) : Lru m' g' := by
  obtain ⟨l, hring, hperm, hord⟩ := h
  refine ⟨l, hlinks ▸ hring, hperm, hord.imp fun hbc hb hc => ?_⟩
  rw [hfreed]
  exact hbc (hzero _ hb) (hzero _ hc)

theorem mem {l : List BufId} (hperm : l.Perm (finRange NBUF)) (b : BufId) : b ∈ l :=
  hperm.mem_iff.mpr (mem_finRange b)

theorem length {l : List BufId} (hperm : l.Perm (finRange NBUF)) : l.length ≤ NBUF := by
  rw [hperm.length_eq, length_finRange]

theorem moveToHead (h : Lru m g) (hlinks : m'.links = (m.links.unlink b).insertFront b)
    (hfreed : g'.freed = update g.freed b g.clock) (hclock : ∀ c, g.freed c < g.clock)
    (hrefcnt : ∀ c, c ≠ b → (m'.buf c).refcnt = (m.buf c).refcnt) : Lru m' g' := by
  obtain ⟨l, hring, hperm, hord⟩ := h
  have hb := mem hperm b
  have hne : ∀ c ∈ l.erase b, c ≠ b := fun c hc => (hring.nodup.mem_erase_iff.mp hc).1
  refine ⟨b :: l.erase b, ?_, (perm_cons_erase hb).symm.trans hperm, ?_⟩
  · rw [hlinks]
    exact (hring.unlink hb).insertFront fun hmem => hne b hmem rfl
  refine pairwise_cons.mpr ⟨fun c hc _ _ => ?_, ?_⟩
  · simp [hfreed, hne c hc, hclock c]
  · refine (hord.sublist erase_sublist).imp_of_mem fun hc hd hcd => ?_
    simpa [hfreed, hne _ hc, hne _ hd, hrefcnt _ (hne _ hc), hrefcnt _ (hne _ hd)] using hcd

theorem lookup_eq_none (h : Lru m g) {dev blockno : ℕ} (hnone : m.lookup dev blockno = none)
    (b : BufId) : ¬((m.buf b).dev = dev ∧ (m.buf b).blockno = blockno) := by
  obtain ⟨l, hring, hperm, -⟩ := h
  rw [Cache.lookup, Cache.forward, hring.walk_next (length hperm), List.find?_eq_none] at hnone
  simpa using hnone b (mem hperm b)

theorem victim_eq_some (h : Lru m g) (hb : m.victim = some b) :
    (m.buf b).refcnt = 0 ∧ ∀ c, (m.buf c).refcnt = 0 → g.freed b ≤ g.freed c := by
  obtain ⟨l, hring, hperm, hord⟩ := h
  rw [victim, backward, hring.walk_prev (length hperm), find?_eq_some_iff_append] at hb
  obtain ⟨hb, before, after, hl, hbefore⟩ := hb
  have hb : (m.buf b).refcnt = 0 := by simpa using hb
  refine ⟨hb, fun c hc => ?_⟩
  have hmem : c ∈ l.reverse := mem_reverse.mpr (mem hperm c)
  rw [← pairwise_reverse, hl, pairwise_append, pairwise_cons] at hord
  rw [hl, mem_append, mem_cons] at hmem
  obtain hmem | rfl | hmem := hmem
  · exact absurd hc (by simpa using hbefore c hmem)
  · exact le_rfl
  · exact (hord.2.1.1 c hmem hc hb).le

theorem victim_isSome (h : Lru m g) (hb : (m.buf b).refcnt = 0) : m.victim.isSome = true := by
  obtain ⟨l, hring, hperm, -⟩ := h
  rw [victim, backward, hring.walk_prev (length hperm), find?_isSome]
  exact ⟨b, mem_reverse.mpr (mem hperm b), by simpa using hb⟩

end Lru

theorem lookup_eq_some {m : Cache D} {dev blockno : ℕ} {b : BufId}
    (h : m.lookup dev blockno = some b) : (m.buf b).dev = dev ∧ (m.buf b).blockno = blockno := by
  simpa using find?_some h

theorem lru_binit (disk : ℕ → ℕ → D) (zero : D) : Lru (binit disk zero) (Ghost.init disk) := by
  have hempty : ({ next := fun _ => none, prev := fun _ => none } : Links BufId).Ring [] :=
    ⟨nodup_nil, rfl, rfl⟩
  have hring := hempty.foldl_insertFront (nodup_finRange NBUF) (by simp)
  rw [append_nil] at hring
  refine ⟨(finRange NBUF).reverse, hring, reverse_perm _, ?_⟩
  rw [pairwise_reverse]
  exact (pairwise_lt_finRange NBUF).imp fun hlt _ _ => hlt

/-! ## The references -/

def Counted (m : Cache D) (g : Ghost D) : Prop :=
  ∀ b, (m.buf b).refcnt = m.breads b + g.pins b

theorem uint32_natCast {n : ℕ} (h : n < 2 ^ 32) : uint32 n = n := by
  simp only [uint32]
  omega

theorem breads_update (m : Cache D) (p : Slot) (c : Ctl) (b : BufId) :
    (m.goto p c).breads b + (if (m.ctl p).on b then 1 else 0) =
      m.breads b + if c.on b then 1 else 0 := by
  have h := tally_update (Ctl.on b) m.ctl p c
  simp only [breads, goto]
  omega

namespace Counted

variable {m m' : Cache D} {g g' : Ghost D} {b c : BufId} {p : Slot}

attribute [local simp] Cache.setBuf

theorem ref (h : Counted m g) (hfew : Few m g)
    (hb : m'.breads b + g'.pins b = m.breads b + g.pins b + 1)
    (hne : ∀ c, c ≠ b → m'.breads c + g'.pins c = m.breads c + g.pins c)
    (hbuf : m'.buf = (m.ref b).buf) : Counted m' g' := by
  intro c
  rw [hbuf]
  by_cases hc : c = b
  · subst hc
    have hlt := hfew c
    have hcast : ((m.buf c).refcnt : ℤ) + 1 = ((m.breads c + g.pins c + 1 : ℕ) : ℤ) := by
      rw [h c]
      push_cast
      rfl
    simp only [Cache.ref, Cache.setBuf, update_self, hcast]
    rw [uint32_natCast (by omega), hb]
  · rw [hne c hc, ← h c]
    simp [Cache.ref, hc]

theorem deref (h : Counted m g) (hfew : Few m g)
    (hb : m'.breads b + g'.pins b + 1 = m.breads b + g.pins b)
    (hne : ∀ c, c ≠ b → m'.breads c + g'.pins c = m.breads c + g.pins c)
    (hbuf : m'.buf = (m.deref b).buf) : Counted m' g' := by
  intro c
  rw [hbuf]
  by_cases hc : c = b
  · subst hc
    have hlt := hfew c
    have hcast : ((m.buf c).refcnt : ℤ) - 1 = ((m'.breads c + g'.pins c : ℕ) : ℤ) := by
      rw [h c, ← hb]
      push_cast
      ring
    simp only [Cache.deref, Cache.setBuf, update_self, hcast]
    rw [uint32_natCast (by omega)]
  · rw [hne c hc, ← h c]
    simp [Cache.deref, hc]

theorem refcnt_pos (h : Counted m g) (hlock : m.lock b = some p) : (m.buf b).refcnt ≠ 0 := by
  rw [h b, breads, hlock]
  simp

end Counted

/-! ## The contents -/

structure Content (m : Cache D) (g : Ghost D) : Prop where
  /-- No block has two buffers. -/
  unique : ∀ b c, (m.buf b).dev ≠ 0 → (m.buf b).dev = (m.buf c).dev →
    (m.buf b).blockno = (m.buf c).blockno → b = c
  /-- A call of `bread` waits for a buffer of its block. -/
  getting : ∀ p b dev blockno, m.ctl p = .getting b dev blockno →
    dev ≠ 0 ∧ (m.buf b).dev = dev ∧ (m.buf b).blockno = blockno
  held : ∀ b p, m.lock b = some p → (m.buf b).valid = true
  valid : ∀ b, (m.buf b).valid = true →
    (m.buf b).dev ≠ 0 ∧ (m.buf b).data = g.mem (m.buf b).dev (m.buf b).blockno
  dirty : ∀ b, g.dirty b = true →
    (m.buf b).valid = true ∧ (0 < g.pins b ∨ (m.lock b).isSome = true)
  disk : ∀ dev blockno, (∀ b, (m.buf b).dev = dev → (m.buf b).blockno = blockno →
    g.dirty b = false) → m.disk dev blockno = g.mem dev blockno

namespace Content

variable {m m' : Cache D} {g g' : Ghost D} {b c : BufId} {p : Slot}

theorem keep {ctl : Ctl} (h : Content m g)
    (hbuf : ∀ b, ∃ r, m'.buf b = { m.buf b with refcnt := r }) (hdisk : m'.disk = m.disk)
    (hmem : g'.mem = g.mem) (hdirty : g'.dirty = g.dirty)
    (hctl : m'.ctl = update m.ctl p ctl)
    (hgetting : ∀ b dev blockno, ctl = .getting b dev blockno →
      dev ≠ 0 ∧ (m.buf b).dev = dev ∧ (m.buf b).blockno = blockno)
    (hheld : ∀ b q, m'.lock b = some q → (m.buf b).valid = true)
    (hkept : ∀ b, g.dirty b = true → 0 < g'.pins b ∨ (m'.lock b).isSome = true) :
    Content m' g' := by
  have hdev : ∀ b, (m'.buf b).dev = (m.buf b).dev ∧ (m'.buf b).blockno = (m.buf b).blockno ∧
      (m'.buf b).valid = (m.buf b).valid ∧ (m'.buf b).data = (m.buf b).data := by
    intro b
    obtain ⟨r, hr⟩ := hbuf b
    simp [hr]
  constructor
  case unique =>
    intro b c
    rw [(hdev b).1, (hdev b).2.1, (hdev c).1, (hdev c).2.1]
    exact h.unique b c
  case getting =>
    intro q b dev blockno hq
    rw [(hdev b).1, (hdev b).2.1]
    by_cases hqp : q = p
    · subst hqp
      rw [hctl, update_self] at hq
      exact hgetting b dev blockno hq
    · rw [hctl, update_of_ne hqp] at hq
      exact h.getting q b dev blockno hq
  case held =>
    intro b q hq
    rw [(hdev b).2.2.1]
    exact hheld b q hq
  case valid =>
    intro b hb
    rw [(hdev b).2.2.1] at hb
    rw [(hdev b).1, (hdev b).2.1, (hdev b).2.2.2, hmem]
    exact h.valid b hb
  case dirty =>
    intro b hb
    rw [hdirty] at hb
    rw [(hdev b).2.2.1]
    exact ⟨(h.dirty b hb).1, hkept b hb⟩
  case disk =>
    intro dev blockno hclean
    rw [hdisk, hmem]
    refine h.disk dev blockno fun b hb hb' => ?_
    rw [← hdirty]
    exact hclean b ((hdev b).1.trans hb) ((hdev b).2.1.trans hb')

theorem recycle (h : Content m g) (hc : Counted m g) (hb : (m.buf b).refcnt = 0) {dev blockno : ℕ}
    (hdev : dev ≠ 0) (hnone : ∀ c, ¬((m.buf c).dev = dev ∧ (m.buf c).blockno = blockno)) :
    Content ((m.recycle b dev blockno).goto p (.getting b dev blockno)) g := by
  have hrefs := hc b
  rw [hb, Cache.breads] at hrefs
  have hlock : m.lock b = none := by
    by_contra hsome
    rw [Option.isSome_iff_ne_none.mpr hsome, Bool.toNat_true] at hrefs
    omega
  have hclean : g.dirty b = false := by
    by_contra hdirty
    obtain ⟨-, hpins | hsome⟩ := h.dirty b (by simpa using hdirty)
    · omega
    · simp [hlock] at hsome
  have hctl : ∀ q, (m.ctl q).on b = false := by
    have hzero : tally (Ctl.on b) m.ctl = 0 := by omega
    exact tally_eq_zero_iff.mp hzero
  constructor
  case unique =>
    intro c d
    simp only [Cache.goto, Cache.recycle, Cache.setBuf, update_apply]
    split <;> split
    · rename_i hcb hdb
      exact fun _ _ _ => hcb.trans hdb.symm
    · exact fun _ hd hd' => absurd ⟨hd.symm, hd'.symm⟩ (hnone d)
    · exact fun _ hd hd' => absurd ⟨hd, hd'⟩ (hnone c)
    · exact h.unique c d
  case getting =>
    intro q c dev' blockno' hq
    simp only [Cache.goto, Cache.recycle, Cache.setBuf, update_apply] at hq
    split at hq
    · injection hq with hbc hdev' hblockno'
      subst hbc hdev' hblockno'
      simp [Cache.goto, Cache.recycle, hdev]
    have hcb : c ≠ b := by
      rintro rfl
      have hon := hctl q
      rw [hq] at hon
      exact absurd hon (by simp [Ctl.on])
    simpa [Cache.goto, Cache.recycle, hcb] using h.getting q c dev' blockno' hq
  case held =>
    intro c q hq
    have hcb : c ≠ b := by
      rintro rfl
      exact absurd (hlock.symm.trans hq) (by simp)
    simpa [Cache.goto, Cache.recycle, hcb] using h.held c q hq
  case valid =>
    intro c
    simp only [Cache.goto, Cache.recycle, Cache.setBuf, update_apply]
    split
    · simp
    · exact h.valid c
  case dirty =>
    intro c hc
    have hcb : c ≠ b := by
      rintro rfl
      exact absurd (hclean.symm.trans hc) (by simp)
    simpa [Cache.goto, Cache.recycle, hcb] using h.dirty c hc
  case disk =>
    intro dev' blockno' hd
    refine h.disk dev' blockno' fun c hc hc' => ?_
    by_cases hcb : c = b
    · rw [hcb, hclean]
    · exact hd c (by simpa [Cache.goto, Cache.recycle, hcb] using hc)
        (by simpa [Cache.goto, Cache.recycle, hcb] using hc')

theorem fill (h : Content m g) (hctl : ∃ dev blockno, m.ctl p = .getting b dev blockno) :
    Content (m.fill b) g ∧ ((m.fill b).buf b).valid = true := by
  rw [Cache.fill]
  split
  · exact ⟨h, ‹_›⟩
  rename_i hvalid
  obtain ⟨dev, blockno, hp⟩ := hctl
  obtain ⟨hdev, rfl, rfl⟩ := h.getting p b dev blockno hp
  have hclean : g.dirty b = false := by
    by_contra hdirty
    exact hvalid (h.dirty b (by simpa using hdirty)).1
  have hdata : m.disk (m.buf b).dev (m.buf b).blockno = g.mem (m.buf b).dev (m.buf b).blockno :=
    h.disk _ _ fun c hc hc' => h.unique b c hdev hc.symm hc'.symm ▸ hclean
  have hfields : ∀ c, ((m.setBuf b { m.buf b with
      valid := true, data := m.disk (m.buf b).dev (m.buf b).blockno }).buf c).dev = (m.buf c).dev ∧
      ((m.setBuf b { m.buf b with
        valid := true, data := m.disk (m.buf b).dev (m.buf b).blockno }).buf c).blockno =
        (m.buf c).blockno := by
    intro c
    by_cases hcb : c = b
    · subst hcb
      simp
    · simp [hcb]
  refine ⟨?_, by simp⟩
  constructor
  case unique =>
    intro c d
    rw [(hfields c).1, (hfields c).2, (hfields d).1, (hfields d).2]
    exact h.unique c d
  case getting =>
    intro q c dev blockno
    rw [(hfields c).1, (hfields c).2]
    exact h.getting q c dev blockno
  case held =>
    intro c q hq
    by_cases hcb : c = b
    · simp [hcb]
    · simpa [hcb] using h.held c q hq
  case valid =>
    intro c hc
    by_cases hcb : c = b
    · subst hcb
      simpa using ⟨hdev, hdata⟩
    · simp only [Cache.setBuf, update_of_ne hcb] at hc ⊢
      exact h.valid c hc
  case dirty =>
    intro c hc
    refine ⟨?_, (h.dirty c hc).2⟩
    by_cases hcb : c = b
    · simp [hcb]
    · simpa [hcb] using (h.dirty c hc).1
  case disk =>
    intro dev blockno hd
    refine h.disk dev blockno fun c hc hc' => hd c ?_ ?_
    · exact (hfields c).1.trans hc
    · exact (hfields c).2.trans hc'

end Content

end Xv6.Bio

import Xv6.Bio.Pinned

/-!
# The process in `commit`

What the process in `commit` holds at each point, which blocks are still pinned there, and that each
of its steps keeps to the rules of the cache and leads to what it holds at the next point.
-/

namespace Xv6.Bio

open Thread Transition Tally Function Option

namespace Point

def tail : Point → Option ℕ
  | getLog _ t | readLog _ t | getHome _ t _ | readHome _ t _ | copy _ t _ _ | bwrite _ t _ _
  | bunpin t _ _ | brelseSrc _ t _ _ | unrefSrc _ t _ _ | brelseDst _ t _ _ | unrefDst _ t => some t
  | getHead e | readHead e | putHead e _ | bwriteHead e _ | brelseHead e _ | unrefHead e =>
    if e then none else some 0
  | clear | finish => none

def held : Point → List BufId
  | getHome _ _ x | readHome _ _ x | putHead _ x | bwriteHead _ x | brelseHead _ x => [x]
  | copy _ _ x y | bwrite _ _ x y | bunpin _ x y | brelseSrc _ _ x y => [x, y]
  | unrefSrc k _ x y | brelseDst k _ x y => [k.dst x y]
  | getLog _ _ | readLog _ _ | unrefDst _ _ | getHead _ | readHead _ | unrefHead _ | clear
  | finish => []

def modified : Point → Option BufId
  | bwrite k _ x y => some (k.dst x y)
  | bwriteHead _ x => some x
  | _ => none

def home : Point → Option (BufId × ℕ)
  | copy _ t _ y | bwrite _ t _ y | bunpin t _ y => some (y, t)
  | _ => none

def pinned (lh : List ℕ) : Point → List ℕ
  | getLog .install t | readLog .install t | getHome .install t _ | readHome .install t _
  | copy .install t _ _ | bwrite .install t _ _ | bunpin t _ _ => lh.drop t
  | brelseSrc .install t _ _ | unrefSrc .install t _ _ | brelseDst .install t _ _
  | unrefDst .install t => lh.drop (t + 1)
  | clear => []
  | _ => lh

/-- The process is about to call `bread` with no buffer held, or to clear the header. -/
def free : Point → Bool
  | getLog _ _ | getHead _ | clear => true
  | _ => false

end Point

structure AtPoint (m : Cache Log.Block) (lh : List ℕ) (g : Ghost Log.Block) (p : Slot) (pt : Point) :
    Prop where
  tail : ∀ t, pt.tail = some t → t < lh.length
  nodup : pt.held.Nodup
  locks : ∀ b, m.lock b = some p ↔ b ∈ pt.held
  idle : pt.free = true → m.ctl p = .idle
  expect : ∀ k t x y dev n, pt = .readHome k t x → m.ctl p = .getting y dev n →
    dev = ROOTDEV ∧ n = lh.getD t 0
  home : ∀ y t, pt.home = some (y, t) →
    (m.buf y).dev = ROOTDEV ∧ (m.buf y).blockno = lh.getD t 0
  clean : ∀ b ∈ pt.held, pt.modified ≠ some b → g.dirty b = true → 0 < g.pins b
  written : ∀ t x y, pt = .bunpin t x y → g.dirty y = false

namespace AtPoint

variable {s : LogCache} {m m' : Cache Log.Block} {lh : List ℕ} {g : Ghost Log.Block} {p : Slot}
  {pt pt' : Point} {a : Act Log.Block} {b x y : BufId} {k : Pass} {t : ℕ}

theorem access (h : AtPoint m lh g p pt) (hc : Coherent m g) (hs : m.step a = some m')
    (hp : a.proc ≠ p) : AtPoint m' lh (g.note m a) p pt := by
  have hnote : ∀ b ∈ pt.held, (g.note m a).dirty b = g.dirty b ∧ (g.note m a).pins b = g.pins b :=
    fun b hb => note_step hs hp ((h.locks b).mpr hb)
  constructor
  case tail => exact h.tail
  case nodup => exact h.nodup
  case locks => exact fun b => (lock_step hs hp).trans (h.locks b)
  case idle => exact fun hfree => (ctl_step hs hp).trans (h.idle hfree)
  case expect =>
    intro k t x y dev n hpt hctl
    exact h.expect k t x y dev n hpt ((ctl_step hs hp).symm.trans hctl)
  case home =>
    intro y t hy
    have hlock : m.lock y = some p := by
      rw [h.locks y]
      cases pt <;> simp_all [Point.home, Point.held]
    have hpos := Nat.pos_of_ne_zero (hc.counted.refcnt_pos hlock)
    obtain ⟨hdev, hblockno⟩ := hc.lru.block_step hs hpos
    exact ⟨hdev.trans (h.home y t hy).1, hblockno.trans (h.home y t hy).2⟩
  case clean =>
    intro b hb hmod hdirty
    rw [(hnote b hb).1] at hdirty
    rw [(hnote b hb).2]
    exact h.clean b hb hmod hdirty
  case written =>
    rintro t x y rfl
    rw [(hnote y (by simp [Point.held])).1]
    exact h.written t x y rfl

theorem mem_drop (ht : t < lh.length) : lh.getD t 0 ∈ lh.drop t := by
  rw [List.drop_eq_getElem_cons ht, List.getD_eq_getElem _ _ ht]
  exact List.mem_cons_self

attribute [local simp] Point.free Point.modified

theorem disciplined (h : AtPoint m lh g p pt) (hpinned : Pinned m g (pt.pinned lh))
    (ha : s.commitAct p pt = some a) : Disciplined g a := by
  cases pt with
  | getLog | getHome | getHead =>
    obtain rfl := some.inj ha
    exact Nat.one_ne_zero
  | bunpin t x y =>
    obtain rfl := some.inj ha
    refine ⟨?_, h.written t x y rfl⟩
    obtain ⟨hdev, hblockno⟩ := h.home y t rfl
    have hmem : (m.buf y).blockno ∈ lh.drop t := hblockno ▸ mem_drop (h.tail t rfl)
    rw [hpinned.pins y, if_pos ⟨hdev, hmem⟩]
    exact Nat.one_pos
  | brelseSrc k t x y =>
    obtain rfl := some.inj ha
    refine h.clean _ ?_ (by simp)
    cases k <;> simp [Pass.src, Point.held]
  | brelseDst | brelseHead =>
    obtain rfl := some.inj ha
    exact h.clean _ (by simp [Point.held]) (by simp)
  | readLog | readHome | readHead | copy | putHead | bwrite | bwriteHead | unrefSrc | unrefDst
  | unrefHead =>
    obtain rfl := some.inj ha
    exact trivial
  | clear | finish => cases ha

theorem plain (htail : ∀ t, pt.tail = some t → t < lh.length) (hnodup : pt.held.Nodup)
    (hlocks : ∀ b, m.lock b = some p ↔ b ∈ pt.held) (hidle : pt.free = true → m.ctl p = .idle)
    (hread : ∀ k t x, pt ≠ .readHome k t x) (hhome : pt.home = none)
    (hclean : ∀ b ∈ pt.held, pt.modified ≠ some b → g.dirty b = true → 0 < g.pins b) :
    AtPoint m lh g p pt where
  tail := htail
  nodup := hnodup
  locks := hlocks
  idle := hidle
  expect k t x _ _ _ hpt := absurd hpt (hread k t x)
  home y t hy := by
    rw [hhome] at hy
    cases hy
  clean := hclean
  written t x y hpt := by
    subst hpt
    cases hhome

theorem start (hidle : m.ctl p = .idle) (hlocks : ∀ b, m.lock b ≠ some p) :
    AtPoint m lh g p (if lh = [] then .finish else .getLog .log 0) := by
  have hnone : ∀ b, m.lock b = some p ↔ b ∈ ([] : List BufId) := fun b => by simpa using hlocks b
  split
  · exact .plain (by simp [Point.tail]) List.nodup_nil hnone (fun _ => hidle) (by simp) rfl
      (by simp [Point.held])
  rename_i hne
  refine .plain ?_ List.nodup_nil hnone (fun _ => hidle) (by simp) rfl (by simp [Point.held])
  rintro _ ⟨⟩
  exact List.length_pos_of_ne_nil hne

theorem bget {dev n : ℕ} (hs : m.step (.bget p dev n) = some m') :
    m'.lock = m.lock ∧ g.note m (.bget p dev n) = g ∧
      ∀ b d l, m'.ctl p = .getting b d l → d = dev ∧ l = n := by
  cases Cache.StepCase.of_step hs with
  | hit | miss =>
    refine ⟨rfl, rfl, fun b d l hctl => ?_⟩
    have hself := (update_self p _ _).symm.trans hctl
    cases hself
    exact ⟨rfl, rfl⟩
  | noBuffers =>
    refine ⟨rfl, rfl, fun b d l hctl => ?_⟩
    have hself := (update_self p _ _).symm.trans hctl
    cases hself

theorem bread (hc : Content m g) (hs : m.step (.bread p) = some m') : ∃ b d n,
    m.ctl p = .getting b d n ∧ (∀ c, m'.lock c = some p ↔ c = b ∨ m.lock c = some p) ∧
      (g.dirty b = true → 0 < g.pins b) ∧ m'.ctl p = .idle ∧ m.lock b = none ∧
      (m'.buf b).dev = d ∧ (m'.buf b).blockno = n := by
  have hcases := Cache.StepCase.of_step hs
  cases hcases with
  | @bread _ b d n hp hfree =>
    refine ⟨b, d, n, hp, fun c => ?_, fun hdirty => ?_, ?_, hfree, ?_⟩
    · rw [Cache.bread_eq]
      by_cases hcb : c = b
      · subst hcb
        simp
      · simp [hcb]
    · exact (hc.dirty b hdirty).2.resolve_right (by simp [hfree])
    · rw [Cache.bread_eq]
      exact update_self _ _ _
    · have hread := hc.bread_eq_mem hp hs
      exact ⟨hread.2.1, hread.2.2.1⟩

theorem brelse (hs : m.step (.brelse p b) = some m') :
    (∀ c, m'.lock c = some p ↔ c ≠ b ∧ m.lock c = some p) ∧ m'.buf = m.buf := by
  cases Cache.StepCase.of_step hs with
  | brelse =>
    refine ⟨fun c => ?_, rfl⟩
    by_cases hcb : c = b
    · subst hcb
      simp [Cache.brelse]
    · simp [Cache.brelse, hcb]

theorem unref (hs : m.step (.unref p) = some m') :
    m'.lock = m.lock ∧ m'.ctl p = .idle ∧ (g.note m (.unref p)).dirty = g.dirty ∧
      (g.note m (.unref p)).pins = g.pins := by
  cases Cache.StepCase.of_step hs with
  | @unref _ b hp =>
    refine ⟨?_, update_self _ _ _, ?_, pins_note (by simp)⟩
    · rw [Cache.unref]
      split <;> rfl
    · simp only [Ghost.note, hp]
      split <;> rfl

theorem lock_held (hs : m.step a = some m')
    (ha : (∃ x, a = .modify p b x) ∨ a = .bwrite p b ∨ a = .bunpin p b) : m'.lock = m.lock := by
  obtain ⟨x, rfl⟩ | rfl | rfl := ha <;> cases Cache.StepCase.of_step hs <;> rfl

theorem dst_ne_src (hne : x ≠ y) : k.dst x y ≠ k.src x y := by
  cases k
  · exact hne
  · exact hne.symm

theorem mem_pair : b ∈ [x, y] ↔ b = k.dst x y ∨ b = k.src x y := by
  cases k
  · simp [Pass.dst, Pass.src]
  · simp [Pass.dst, Pass.src, or_comm]

theorem commit (h : AtPoint s.cache s.lh g p pt) (hc : Coherent s.cache g)
    (ha : s.commitAct p pt = some a) (hs : s.cache.step a = some m')
    (hnext : s.commitNext p pt = some pt') : AtPoint m' s.lh (g.note s.cache a) p pt' := by
  have hblock : ∀ b ∈ pt.held, (m'.buf b).dev = (s.cache.buf b).dev ∧
      (m'.buf b).blockno = (s.cache.buf b).blockno := fun b hb => hc.lru.block_step hs
    (Nat.pos_of_ne_zero (hc.counted.refcnt_pos ((h.locks b).mpr hb)))
  cases pt with
  | getLog k t | getHead =>
    obtain rfl := some.inj ha
    obtain rfl := some.inj hnext
    obtain ⟨hlock, hnote, -⟩ := bget (g := g) hs
    rw [hnote]
    exact plain h.tail h.nodup (fun b => hlock ▸ h.locks b) (by simp) (by simp) rfl
      (by simp [Point.held])
  | readLog k t | readHead =>
    obtain rfl := some.inj ha
    obtain ⟨x, d, n, hp, hlock, hdirty, -, hfree, -⟩ := bread hc.content hs
    simp only [LogCache.commitNext, LogCache.found, hp, map_some, some.injEq] at hnext
    subst hnext
    refine plain h.tail (List.nodup_singleton x) (fun b => ?_) (by simp) (by simp) rfl
      fun b hb _ => ?_
    · rw [hlock, h.locks]
      simp [Point.held]
    · obtain rfl : b = x := by simpa [Point.held] using hb
      exact hdirty
  | getHome k t x =>
    obtain rfl := some.inj ha
    obtain rfl := some.inj hnext
    obtain ⟨hlock, hnote, hctl⟩ := bget (g := g) hs
    rw [hnote]
    refine ⟨h.tail, h.nodup, fun b => hlock ▸ h.locks b, by simp, ?_, by simp [Point.home],
      h.clean, by simp⟩
    rintro _ _ _ y dev n ⟨⟩ hp
    exact hctl y dev n hp
  | readHome k t x =>
    obtain rfl := some.inj ha
    obtain ⟨y, d, n, hp, hlock, hdirty, -, hfree, hdev, hblockno⟩ := bread hc.content hs
    simp only [LogCache.commitNext, LogCache.found, hp, map_some, some.injEq] at hnext
    subst hnext
    obtain ⟨rfl, rfl⟩ := h.expect k t x y d n rfl hp
    have hne : x ≠ y := by
      rintro rfl
      have hx := (h.locks x).mpr (by simp [Point.held])
      exact absurd (hfree.symm.trans hx) (by simp)
    refine ⟨h.tail, by simpa [Point.held] using hne, fun b => ?_, by simp, by simp, ?_,
      fun b hb _ => ?_, by simp⟩
    · rw [hlock, h.locks]
      simp [Point.held, or_comm]
    · rintro _ _ ⟨⟩
      exact ⟨hdev, hblockno⟩
    · obtain rfl | rfl : b = x ∨ b = y := by simpa [Point.held] using hb
      · exact h.clean b (by simp [Point.held]) (by simp)
      · exact hdirty
  | copy k t x y =>
    obtain rfl := some.inj ha
    obtain rfl := some.inj hnext
    have hlock := lock_held hs (.inl ⟨_, rfl⟩)
    refine ⟨h.tail, h.nodup, fun b => hlock ▸ h.locks b, by simp, by simp, ?_,
      fun b hb hmod hdirty => ?_, by simp⟩
    · rintro _ _ ⟨⟩
      obtain ⟨hdev, hblockno⟩ := hblock y (by simp [Point.held])
      exact ⟨hdev.trans (h.home y t rfl).1, hblockno.trans (h.home y t rfl).2⟩
    · have hne : b ≠ k.dst x y := fun heq => hmod (congrArg some heq.symm)
      exact h.clean b hb (by simp) (by simpa [Ghost.note, hne] using hdirty)
  | bwrite k t x y =>
    obtain rfl := some.inj ha
    have hlock := lock_held hs (.inr (.inl rfl))
    have hclean : ∀ b ∈ [x, y], ((g.note s.cache (.bwrite p (k.dst x y))).dirty b = true →
        0 < g.pins b) := fun b hb hdirty => by
      have hne : b ≠ k.dst x y := by
        rintro rfl
        simp [Ghost.note] at hdirty
      refine h.clean b hb (fun heq => hne (some.inj heq).symm) ?_
      simpa [Ghost.note, hne] using hdirty
    cases k with
    | log =>
      obtain rfl := some.inj hnext
      exact plain h.tail h.nodup (fun b => hlock ▸ h.locks b) (by simp) (by simp) rfl
        fun b hb _ => hclean b hb
    | install =>
      obtain rfl := some.inj hnext
      refine ⟨h.tail, h.nodup, fun b => hlock ▸ h.locks b, by simp, by simp, ?_,
        fun b hb _ => hclean b hb, ?_⟩
      · rintro _ _ ⟨⟩
        obtain ⟨hdev, hblockno⟩ := hblock y (by simp [Point.held])
        exact ⟨hdev.trans (h.home y t rfl).1, hblockno.trans (h.home y t rfl).2⟩
      · rintro _ _ _ ⟨⟩
        simp [Ghost.note, Pass.dst]
  | bunpin t x y =>
    obtain rfl := some.inj ha
    obtain rfl := some.inj hnext
    have hlock := lock_held hs (.inr (.inr rfl))
    refine plain h.tail h.nodup (fun b => hlock ▸ h.locks b) (by simp) (by simp) rfl
      fun b hb _ hdirty => ?_
    have hne : b ≠ y := by
      rintro rfl
      exact absurd ((h.written t x b rfl).symm.trans hdirty) (by simp)
    simpa [Ghost.note, hne] using h.clean b hb (by simp) hdirty
  | brelseSrc k t x y =>
    obtain rfl := some.inj ha
    obtain rfl := some.inj hnext
    obtain ⟨hlock, -⟩ := brelse hs
    have hne : x ≠ y := by simpa [Point.held] using h.nodup
    refine plain h.tail (List.nodup_singleton _) (fun b => ?_) (by simp) (by simp) rfl
      fun b hb _ => ?_
    · rw [hlock, h.locks, Point.held, mem_pair (k := k), Point.held, List.mem_singleton]
      exact ⟨fun hb => hb.2.resolve_right hb.1, fun hb => ⟨hb ▸ dst_ne_src hne, .inl hb⟩⟩
    · obtain rfl : b = k.dst x y := by simpa [Point.held] using hb
      exact h.clean _ (mem_pair.mpr (.inl rfl)) (by simp)
  | unrefSrc k t x y =>
    obtain rfl := some.inj ha
    obtain rfl := some.inj hnext
    obtain ⟨hlock, -, hdirty, hpins⟩ := unref (g := g) hs
    refine plain h.tail h.nodup (fun b => hlock ▸ h.locks b) (by simp) (by simp) rfl ?_
    rw [hdirty, hpins]
    exact h.clean
  | brelseDst k t x y | brelseHead =>
    obtain rfl := some.inj ha
    obtain rfl := some.inj hnext
    obtain ⟨hlock, -⟩ := brelse hs
    refine plain h.tail List.nodup_nil (fun b => ?_) (by simp) (by simp) rfl (by simp [Point.held])
    rw [hlock, h.locks]
    simp [Point.held]
  | putHead e x =>
    obtain rfl := some.inj ha
    obtain rfl := some.inj hnext
    have hlock := lock_held hs (.inl ⟨_, rfl⟩)
    refine plain h.tail h.nodup (fun b => hlock ▸ h.locks b) (by simp) (by simp) rfl
      fun b hb hmod => ?_
    exact absurd (congrArg some (List.mem_singleton.mp hb).symm) hmod
  | bwriteHead e x =>
    obtain rfl := some.inj ha
    obtain rfl := some.inj hnext
    have hlock := lock_held hs (.inr (.inl rfl))
    refine plain h.tail h.nodup (fun b => hlock ▸ h.locks b) (by simp) (by simp) rfl
      fun b hb _ hdirty => ?_
    obtain rfl : b = x := by simpa [Point.held] using hb
    simp [Ghost.note] at hdirty
  | unrefDst k t =>
    obtain rfl := some.inj ha
    obtain ⟨hlock, hidle, hdirty, hpins⟩ := unref (g := g) hs
    have ht := h.tail t rfl
    have hfree : ∀ pt' : Point, pt'.held = [] → pt'.home = none →
        (∀ t, pt'.tail = some t → t < s.lh.length) → AtPoint m' s.lh (g.note s.cache (.unref p)) p pt' :=
      fun pt' hheld hhome htail => plain htail (hheld ▸ List.nodup_nil)
        (fun b => by rw [hlock, hheld]; exact h.locks b) (fun _ => hidle)
        (fun _ _ _ hpt => by subst hpt; cases hheld) hhome (by simp [hheld])
    simp only [LogCache.commitNext] at hnext
    split at hnext
    · obtain rfl := some.inj hnext
      refine hfree _ rfl rfl ?_
      rintro _ ⟨⟩
      assumption
    cases k with
    | log =>
      obtain rfl := some.inj hnext
      refine hfree _ rfl rfl ?_
      rintro _ ⟨⟩
      omega
    | install =>
      obtain rfl := some.inj hnext
      exact hfree _ rfl rfl (by simp [Point.tail])
  | unrefHead e =>
    obtain rfl := some.inj ha
    obtain ⟨hlock, hidle, -⟩ := unref (g := g) hs
    cases e with
    | false =>
      obtain rfl := some.inj hnext
      exact plain h.tail h.nodup (fun b => hlock ▸ h.locks b) (fun _ => hidle) (by simp) rfl
        (by simp [Point.held])
    | true =>
      obtain rfl := some.inj hnext
      exact plain h.tail h.nodup (fun b => hlock ▸ h.locks b) (fun _ => hidle) (by simp) rfl
        (by simp [Point.held])
  | clear | finish => cases ha

end AtPoint

theorem pinned_commitNext {s : LogCache} {p : Slot} {pt pt' : Point}
    (hnext : s.commitNext p pt = some pt') (hpt : ∀ t x y, pt ≠ .bunpin t x y) :
    pt'.pinned s.lh = pt.pinned s.lh := by
  cases pt with
  | bunpin t x y => exact absurd rfl (hpt t x y)
  | unrefDst k t =>
    simp only [LogCache.commitNext] at hnext
    split at hnext
    · obtain rfl := some.inj hnext
      cases k <;> rfl
    cases k with
    | log =>
      obtain rfl := some.inj hnext
      rfl
    | install =>
      obtain rfl := some.inj hnext
      exact (List.drop_eq_nil_of_le (by omega)).symm
  | readLog k t | readHome k t x =>
    obtain ⟨b, -, rfl⟩ := map_eq_some_iff.mp hnext
    cases k <;> rfl
  | readHead e =>
    obtain ⟨b, -, rfl⟩ := map_eq_some_iff.mp hnext
    rfl
  | bwrite k t x y | unrefHead k =>
    cases k <;> obtain rfl := some.inj hnext <;> rfl
  | getLog k t | getHome k t x | copy k t x y | brelseSrc k t x y | unrefSrc k t x y
  | brelseDst k t x y =>
    obtain rfl := some.inj hnext
    cases k <;> rfl
  | getHead | putHead | bwriteHead | brelseHead =>
    obtain rfl := some.inj hnext
    rfl
  | clear | finish => cases hnext

end Xv6.Bio

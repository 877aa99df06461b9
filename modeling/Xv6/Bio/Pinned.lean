import Xv6.Bio.LogCache

/-!
# The pinned buffers

What a step of one process leaves alone for the holder of a buffer, and the buffers the log keeps in
the cache: `Pinned m g l` says that the pinned buffers are exactly those of the blocks of `l`.
-/

namespace Xv6.Bio

open Thread Transition Tally Function Cache List Ghost

/-! ## What one process leaves to the others -/

section Frame

variable {D : Type} {m m' : Cache D} {g : Ghost D} {a : Act D} {p : Slot} {b : BufId}

theorem ctl_step (hs : m.step a = some m') (hp : a.proc ≠ p) : m'.ctl p = m.ctl p := by
  cases StepCase.of_step hs with
  | hit | miss | noBuffers | brelse => exact update_of_ne hp.symm _ _
  | bread =>
    rw [bread_eq]
    exact (update_of_ne hp.symm _ _).trans (congrFun (m.fill_eq _).2.2.2 p)
  | unref =>
    rw [unref]
    split <;> exact update_of_ne hp.symm _ _
  | modify | bwrite | bpin | bunpin => rfl

theorem lock_step (hs : m.step a = some m') (hp : a.proc ≠ p) :
    m'.lock b = some p ↔ m.lock b = some p := by
  cases StepCase.of_step hs with
  | @bread q c _ _ _ hfree =>
    have hqp : q ≠ p := hp
    rw [bread_eq]
    by_cases hbc : b = c
    · subst hbc
      simp [hfree, hqp]
    · simp [hbc]
  | @brelse q c _ hlock =>
    have hqp : q ≠ p := hp
    by_cases hbc : b = c
    · subst hbc
      simp [brelse, hlock, hqp]
    · simp [brelse, hbc]
  | unref =>
    rw [unref]
    split <;> rfl
  | hit | miss | noBuffers | modify | bwrite | bpin | bunpin => rfl

theorem note_step (hs : m.step a = some m') (hp : a.proc ≠ p) (hb : m.lock b = some p) :
    (g.note m a).dirty b = g.dirty b ∧ (g.note m a).pins b = g.pins b := by
  have hne : ∀ {q c}, q ≠ p → m.lock c = some q → b ≠ c := by
    rintro q c hqp hc rfl
    exact hqp (Option.some.inj (hc.symm.trans hb))
  cases StepCase.of_step hs with
  | hit | miss | noBuffers | bread | brelse => exact ⟨rfl, rfl⟩
  | unref hq =>
    simp only [note, hq]
    split <;> exact ⟨rfl, rfl⟩
  | modify _ _ hlock | bwrite _ hlock | bpin _ hlock | bunpin _ hlock => simp [note, hne hp hlock]

end Frame

/-! ## The pinned buffers -/

section Pinned

variable {D : Type} {m m' : Cache D} {g : Ghost D} {a : Act D} {b : BufId} {l : List ℕ}

/-- The pinned buffers are those of the blocks of the list, pinned once. -/
structure Pinned (m : Cache D) (g : Ghost D) (l : List ℕ) : Prop where
  pins : ∀ b, g.pins b = if (m.buf b).dev = ROOTDEV ∧ (m.buf b).blockno ∈ l then 1 else 0
  cached : ∀ n ∈ l, ∃ b, (m.buf b).dev = ROOTDEV ∧ (m.buf b).blockno = n

theorem pins_note (ha : ∀ p b, a ≠ .bpin p b ∧ a ≠ .bunpin p b) : (g.note m a).pins = g.pins := by
  cases a with
  | bget | bread | brelse | modify | bwrite => rfl
  | unref p =>
    simp only [note]
    split
    · split <;> rfl
    · rfl
  | bpin p b => exact absurd rfl (ha p b).1
  | bunpin p b => exact absurd rfl (ha p b).2

namespace Pinned

variable (h : Pinned m g l)

include h

theorem refcnt_pos (hc : Counted m g) (hb : (m.buf b).dev = ROOTDEV)
    (hmem : (m.buf b).blockno ∈ l) : 0 < (m.buf b).refcnt := by
  have hpins := h.pins b
  rw [if_pos ⟨hb, hmem⟩] at hpins
  rw [hc b]
  omega

theorem keep (hc : Counted m g) (hl : Lru m g) (hs : m.step a = some m')
    (ha : ∀ p b, a ≠ .bpin p b ∧ a ≠ .bunpin p b) : Pinned m' (g.note m a) l := by
  constructor
  · intro b
    rw [pins_note ha, h.pins b]
    obtain ⟨hdev, hblockno⟩ | ⟨hv, hnone, -⟩ := block_step hs b
    · rw [hdev, hblockno]
    have hold : ¬((m.buf b).dev = ROOTDEV ∧ (m.buf b).blockno ∈ l) := fun hmem =>
      (h.refcnt_pos hc hmem.1 hmem.2).ne' (hl.victim_eq_some hv).1
    have hnew : ¬((m'.buf b).dev = ROOTDEV ∧ (m'.buf b).blockno ∈ l) := by
      rintro ⟨hdev, hmem⟩
      obtain ⟨c, hc, hc'⟩ := h.cached _ hmem
      exact hl.lookup_eq_none hnone c ⟨hc.trans hdev.symm, hc'⟩
    rw [if_neg hold, if_neg hnew]
  intro n hn
  obtain ⟨b, hdev, rfl⟩ := h.cached n hn
  have hkept := hl.block_step hs (h.refcnt_pos hc hdev hn)
  exact ⟨b, hkept.1.trans hdev, hkept.2⟩

theorem exists_unpinned (hu : ∀ b c, (m.buf b).dev ≠ 0 →
    (m.buf b).dev = (m.buf c).dev → (m.buf b).blockno = (m.buf c).blockno → b = c)
    (hlen : l.length < NBUF) : ∃ b, g.pins b = 0 := by
  by_contra hall
  push Not at hall
  have hmem : ∀ b, (m.buf b).dev = ROOTDEV ∧ (m.buf b).blockno ∈ l := fun b => by
    by_contra hb
    exact hall b ((h.pins b).trans (if_neg hb))
  have hinj : Function.Injective fun b => (m.buf b).blockno := fun b c hbc =>
    hu b c (by rw [(hmem b).1]; decide) ((hmem b).1.trans (hmem c).1.symm) hbc
  have hcard : (Finset.univ.image fun b => (m.buf b).blockno).card ≤ l.toFinset.card :=
    Finset.card_le_card fun n hn => by
      obtain ⟨b, -, rfl⟩ := Finset.mem_image.mp hn
      exact mem_toFinset.mpr (hmem b).2
  rw [Finset.card_image_of_injective _ hinj, Finset.card_univ, Fintype.card_fin] at hcard
  have := l.toFinset_card_le
  omega

theorem few : Few m g := by
  intro b
  have hpins : g.pins b ≤ 1 := by
    rw [h.pins b]
    split <;> omega
  have htally : tally (Ctl.on b) m.ctl ≤ NPROC := by simpa using tally_le_card (Ctl.on b) m.ctl
  have hlock : (m.lock b).isSome.toNat ≤ 1 := Bool.toNat_le _
  simp only [breads, NPROC] at *
  omega

end Pinned

end Pinned

/-! ## Pinning and unpinning -/

theorem Pinned.unpin {m : Cache Log.Block} {g : Ghost Log.Block} {lh : List ℕ} {p : Slot} {t : ℕ}
    {y : BufId} (h : Pinned m g (lh.drop t)) (hc : Content m g) (hnodup : lh.Nodup)
    (ht : t < lh.length) (hdev : (m.buf y).dev = ROOTDEV) (hblockno : (m.buf y).blockno = lh.getD t 0) :
    Pinned (m.deref y) (g.note m (.bunpin p y)) (lh.drop (t + 1)) := by
  have hcons : lh.drop t = lh.getD t 0 :: lh.drop (t + 1) := by
    rw [getD_eq_getElem _ _ ht]
    exact drop_eq_getElem_cons ht
  have hnot : lh.getD t 0 ∉ lh.drop (t + 1) :=
    (nodup_cons.mp (hcons ▸ (lh.drop_sublist t).nodup hnodup)).1
  have hblock : ∀ b, ((m.deref y).buf b).dev = (m.buf b).dev ∧
      ((m.deref y).buf b).blockno = (m.buf b).blockno := by
    intro b
    obtain ⟨r, hr⟩ := m.setBuf_refcnt y b (uint32 ((m.buf y).refcnt - 1))
    rw [deref, hr]
    exact ⟨rfl, rfl⟩
  constructor
  · intro b
    rw [(hblock b).1, (hblock b).2]
    have hpins := h.pins b
    by_cases hby : b = y
    · subst hby
      rw [hcons, if_pos ⟨hdev, hblockno ▸ mem_cons_self⟩] at hpins
      rw [hblockno, if_neg fun hmem => hnot hmem.2]
      simp [note, hpins]
    -- another buffer has another block
    have hne : (m.buf b).dev = ROOTDEV → (m.buf b).blockno ≠ lh.getD t 0 := fun hb heq =>
      hby (hc.unique b y (hb ▸ Nat.one_ne_zero) (hb.trans hdev.symm) (heq.trans hblockno.symm))
    simp only [note, update_of_ne hby, hpins, hcons, mem_cons]
    by_cases hb : (m.buf b).dev = ROOTDEV
    · simp only [hb, true_and, or_iff_right (hne hb)]
    · simp [hb]
  · intro n hn
    obtain ⟨b, hb, rfl⟩ := h.cached n (hcons ▸ mem_cons_of_mem _ hn)
    exact ⟨b, (hblock b).1.trans hb, (hblock b).2⟩

theorem Pinned.pin {m : Cache Log.Block} {g : Ghost Log.Block} {lh : List ℕ} {p : Slot} {b : BufId}
    (h : Pinned m g lh) (hc : Content m g) (hdev : (m.buf b).dev = ROOTDEV)
    (hb : (m.buf b).blockno ∉ lh) :
    Pinned (m.ref b) (g.note m (.bpin p b)) (lh ++ [(m.buf b).blockno]) := by
  have hblock : ∀ c, ((m.ref b).buf c).dev = (m.buf c).dev ∧
      ((m.ref b).buf c).blockno = (m.buf c).blockno := by
    intro c
    obtain ⟨r, hr⟩ := m.setBuf_refcnt b c (uint32 ((m.buf b).refcnt + 1))
    rw [ref, hr]
    exact ⟨rfl, rfl⟩
  constructor
  · intro c
    rw [(hblock c).1, (hblock c).2]
    have hpins := h.pins c
    by_cases hcb : c = b
    · subst hcb
      rw [if_neg fun hmem => hb hmem.2] at hpins
      simp [note, hpins, hdev]
    have hne : (m.buf c).dev = ROOTDEV → (m.buf c).blockno ≠ (m.buf b).blockno := fun hc' heq =>
      hcb (hc.unique c b (hc' ▸ Nat.one_ne_zero) (hc'.trans hdev.symm) heq)
    simp only [note, update_of_ne hcb, hpins, mem_append, mem_singleton]
    by_cases hc' : (m.buf c).dev = ROOTDEV
    · simp [hc', hne hc']
    · simp [hc']
  intro n hn
  obtain hn | hn := mem_append.mp hn
  · obtain ⟨c, hc, rfl⟩ := h.cached n hn
    exact ⟨c, (hblock c).1.trans hc, (hblock c).2⟩
  · obtain rfl := mem_singleton.mp hn
    exact ⟨b, (hblock b).1.trans hdev, (hblock b).2⟩

end Xv6.Bio

import Xv6.Log.View
import Xv6.Foundations.Tally

/-!
# The invariant of group commit

`Group` is what the protocol of `Xv6/Log/Protocol.lean` maintains about its counters, the header in
memory and the pins of the buffer cache: `log.outstanding` counts the operations, `log.committing`
is set for the one process that commits and never together with an operation, and the header holds
exactly the blocks logged since the last commit emptied it, without duplicates.
-/

namespace Xv6.Log

open Thread Tally Mutex Function Phase View List Log

def Point.inCommit : Point → Bool
  | .idle | .commit | .writeLog _ | .writeHead | .install false _ | .erase false => true
  | _ => false

def Point.unpinned : Point → ℕ
  | .install _ i => i
  | _ => 0

namespace Phase

def erased : Phase → Bool
  | committing (.erase _) | committing .idle | commitIn => true
  | _ => false

/-- What a process is never seen outside of: the code of `commit`, and anything but a panic of
`end_op`. -/
def legal : Phase → Bool
  | committing pt => pt.inCommit
  | panicked msg => msg ≠ "log.committing"
  | _ => true

end Phase

/-- From entry `k` on, the blocks of the header are pinned once each, and no other block is. -/
def Pinned (s : Store) (k : ℕ) : Prop := ∀ b, s.pins b = if b ∈ s.lh.drop k then 1 else 0

/-- The invariant of group commit; `logged` are the blocks logged since the header was last
emptied. -/
structure Group (v : View) (logged : Finset ℕ) : Prop where
  locking : Locking v
  outstanding : v.shared.outstanding = tally Phase.inOp v.phase
  committer : ∃ c, Held c Phase.commits v.phase ∧ v.shared.committing = c.isSome
  alone : v.shared.committing = true → v.shared.outstanding = 0
  settled : v.shared.committing = false → v.shared.outstanding = 0 → v.shared.store.lh = []
  erased : ∀ p, (v.phase p).erased = true → v.shared.store.lh = []
  legal : ∀ p, (v.phase p).legal = true
  nodup : v.shared.store.lh.Nodup
  logged : ∀ b, b ∈ v.shared.store.lh ↔ b ∈ logged
  pinned : v.shared.committing = false → Pinned v.shared.store 0
  unpinned : ∀ p, (v.phase p).commits = true → Pinned v.shared.store (v.phase p).point.unpinned

/-- How a transition changes the blocks logged since the header was last emptied. -/
def noteLogged (s : Shared) (logged : Finset ℕ) : LogEvent → Finset ℕ
  | .logged _ b _ => insert b logged
  | .advanced (.install _ i) => if i < s.store.lh.length then logged else ∅
  | _ => logged

/-! ## The header and the pins -/

theorem Pinned.logWrite {s : Store} (h : Pinned s 0) (b : ℕ) (x : Block) :
    Pinned (s.logWrite b x) 0 := by
  intro c
  have hc := h c
  rw [drop_zero] at hc ⊢
  unfold Store.logWrite
  split
  · exact hc
  rename_i hb
  by_cases hcb : c = b
  · subst hcb
    simp_all
  · simp_all

theorem Store.nodup_logWrite {s : Store} (h : s.lh.Nodup) (b : ℕ) (x : Block) :
    (s.logWrite b x).lh.Nodup := by
  unfold Store.logWrite
  split
  · exact h
  · rename_i hb
    simpa only [concat_eq_append] using h.concat hb

structure Header (s : Store) (pt : Point) (logged : Finset ℕ) : Prop where
  inCommit : pt.inCommit = true
  nodup : s.lh.Nodup
  mem : ∀ b, b ∈ s.lh ↔ b ∈ logged
  pinned : Pinned s pt.unpinned
  erased : (Phase.committing pt).erased = true → s.lh = []

theorem Pinned.installAt {s : Store} {start i b : ℕ} (h : Pinned s i) (hi : s.lh[i]? = some b)
    (hnodup : s.lh.Nodup) : Pinned (s.installAt start false i b) (i + 1) := by
  obtain ⟨hlt, hget⟩ := List.getElem?_eq_some_iff.mp hi
  have hdrop : s.lh.drop i = b :: s.lh.drop (i + 1) := by rw [← hget, List.drop_eq_getElem_cons hlt]
  have hnot : b ∉ s.lh.drop (i + 1) := by
    have hnd := hnodup.sublist (List.drop_sublist i s.lh)
    rw [hdrop] at hnd
    exact (List.nodup_cons.mp hnd).1
  intro c
  have hc := h c
  rw [hdrop] at hc
  change update s.pins b (s.pins b - 1) c = _
  change _ = if c ∈ s.lh.drop (i + 1) then (1 : ℤ) else 0
  by_cases hcb : c = b
  · subst hcb
    simp_all
  · simp_all

theorem Header.advance (start : ℕ) {s : Shared} {pt : Point} {logged : Finset ℕ}
    (h : Header s.store pt logged) (hpt : pt ≠ .idle) :
    Header (advance start s.store pt).1 (advance start s.store pt).2
      (noteLogged s logged (.advanced pt)) := by
  cases pt with
  | idle => exact absurd rfl hpt
  | readHead => exact absurd h.inCommit (by decide)
  | commit =>
    simp only [Log.advance, noteLogged]
    split
    · exact ⟨rfl, h.nodup, h.mem, h.pinned, (by rintro ⟨⟩)⟩
    · rename_i hn
      exact ⟨rfl, h.nodup, h.mem, h.pinned, fun _ => List.length_eq_zero_iff.mp (by omega)⟩
  | writeLog i =>
    simp only [Log.advance, noteLogged]
    cases s.store.lh[i]? with
    | none => exact ⟨rfl, h.nodup, h.mem, h.pinned, (by rintro ⟨⟩)⟩
    | some b => exact ⟨rfl, h.nodup, h.mem, h.pinned, (by rintro ⟨⟩)⟩
  | writeHead => exact ⟨rfl, h.nodup, h.mem, h.pinned, (by rintro ⟨⟩)⟩
  | install r i =>
    cases r with
    | true => exact absurd h.inCommit (by simp [Point.inCommit])
    | false =>
      simp only [Log.advance, noteLogged]
      cases hi : s.store.lh[i]? with
      | none =>
        have hle := List.getElem?_eq_none_iff.mp hi
        rw [if_neg (by omega)]
        refine ⟨rfl, List.nodup_nil, by simp, fun b => ?_, fun _ => rfl⟩
        have hb := h.pinned b
        rw [Point.unpinned, List.drop_eq_nil_of_le hle] at hb
        simpa [Point.unpinned] using hb
      | some b =>
        have hlt := (List.getElem?_eq_some_iff.mp hi).1
        rw [if_pos hlt]
        exact ⟨rfl, h.nodup, h.mem, h.pinned.installAt hi h.nodup, (by rintro ⟨⟩)⟩
  | erase r =>
    cases r with
    | true => exact absurd h.inCommit (by decide)
    | false => exact ⟨rfl, h.nodup, h.mem, h.pinned, fun _ => h.erased rfl⟩

/-! ## The transitions -/

namespace Group

variable {start : ℕ} {v v' : View} {logged : Finset ℕ} {p q : Slot} {ph : Phase}

variable (h : Group v logged)

include h

theorem outstanding_pos (hp : (v.phase p).inOp = true) : 0 < v.shared.outstanding := by
  have hpos := tally_pos_of hp
  have := h.outstanding
  omega

theorem not_committing (hp : (v.phase p).inOp = true) : v.shared.committing = false := by
  have hpos := h.outstanding_pos hp
  rw [← Bool.not_eq_true]
  intro hcom
  have := h.alone hcom
  omega

theorem committing_of (hp : (v.phase p).commits = true) : v.shared.committing = true := by
  obtain ⟨c, hheld, hc⟩ := h.committer
  rw [hc, (hheld p).mpr hp]
  rfl

theorem commits_unique (hp : (v.phase p).commits = true)
    (hq : (v.phase q).commits = true) : q = p := by
  obtain ⟨c, hheld, -⟩ := h.committer
  exact hheld.unique hq hp

omit h

theorem commits_of_erased {x : Phase} (hx : x.erased = true) : x.commits = true := by
  cases x <;> first | rfl | cases hx

include h

theorem erased_update (hph : ph.erased = true → v.shared.store.lh = [])
    (q : Slot) (hq : (update v.phase p ph q).erased = true) : v.shared.store.lh = [] :=
  (forall_update_iff v.phase fun _ x => x.erased = true → v.shared.store.lh = []).mpr
    ⟨hph, fun q _ => h.erased q⟩ q hq

theorem legal_update (hph : ph.legal = true) (q : Slot) : (update v.phase p ph q).legal = true :=
  (forall_update_iff v.phase fun _ x => x.legal = true).mpr ⟨hph, fun q _ => h.legal q⟩ q

theorem unpinned_update
    (hph : ph.commits = true → Pinned v.shared.store ph.point.unpinned) (q : Slot)
    (hq : (update v.phase p ph q).commits = true) :
    Pinned v.shared.store (update v.phase p ph q).point.unpinned :=
  (forall_update_iff v.phase fun _ x =>
    x.commits = true → Pinned v.shared.store x.point.unpinned).mpr
    ⟨hph, fun q _ => h.unpinned q⟩ q hq

theorem move (hl : Locking v') (hs : v'.shared = v.shared)
    (hphase : v'.phase = update v.phase p ph) (hop : ph.inOp = (v.phase p).inOp)
    (hcom : ph.commits = (v.phase p).commits) (hpt : ph.point.unpinned = (v.phase p).point.unpinned)
    (her : ph.erased = (v.phase p).erased) (hlegal : ph.legal = true) : Group v' logged := by
  have htally := tally_update inOp v.phase p ph
  rw [hop] at htally
  obtain ⟨c, hheld, hc⟩ := h.committer
  obtain ⟨s', lock', phase'⟩ := v'
  subst hs hphase
  refine ⟨hl, ?_, ⟨c, hheld.stay hcom, hc⟩, h.alone, h.settled,
    h.erased_update fun hx => h.erased p (her ▸ hx), h.legal_update hlegal, h.nodup, h.logged,
    h.pinned, h.unpinned_update fun hx => hpt ▸ h.unpinned p (hcom ▸ hx)⟩
  have hcount := h.outstanding
  dsimp only
  omega

theorem enter (hp : v.phase p = .beginIn) (hcom : v.shared.committing = false)
    (hl : Locking ((v.share v.shared.enter).go p .beginOut)) :
    Group ((v.share v.shared.enter).go p .beginOut) logged := by
  have htally : tally inOp (update v.phase p .beginOut) =
      tally inOp v.phase + 1 := by simpa [hp, inOp] using tally_update inOp v.phase p .beginOut
  have hcount := h.outstanding
  obtain ⟨c, hheld, hc⟩ := h.committer
  refine ⟨hl, ?_, ⟨c, hheld.stay (congrArg commits hp).symm, hc⟩, fun ht => ?_, fun _ h0 => ?_,
    h.erased_update (by rintro ⟨⟩), h.legal_update rfl, h.nodup, h.logged, h.pinned, h.unpinned_update (by rintro ⟨⟩)⟩
  · simp only [go_shared, share_shared, go_phase, share_phase, Shared.enter, htally]
    omega
  · exact absurd (hcom.symm.trans ht) (by decide)
  · simp only [go_shared, share_shared, Shared.enter] at h0
    omega

omit h

theorem tally_retire (ph : Phase) (hp : v.phase p = .endIn) (hph : ph.inOp = false) :
    tally inOp (update v.phase p ph) + 1 = tally inOp v.phase := by
  have hin : (v.phase p).inOp = true := by rw [hp]; rfl
  simpa [hin, hph] using tally_update inOp v.phase p ph

include h

theorem endLast (hp : v.phase p = .endIn)
    (hcom : v.shared.committing = false) (hlast : v.shared.outstanding - 1 = 0)
    (hl : Locking ((v.share { v.shared.retire with committing := true }).go p (.endOut true))) :
    Group ((v.share { v.shared.retire with committing := true }).go p (.endOut true)) logged := by
  have htally := tally_retire (.endOut true) hp rfl
  have hcount := h.outstanding
  obtain ⟨c, hheld, hc⟩ := h.committer
  obtain rfl : c = none := by simpa [hcom] using hc
  refine ⟨hl, ?_, ⟨some p, hheld.acquire rfl rfl, rfl⟩, fun _ => hlast, (by rintro ⟨⟩), h.erased_update (by rintro ⟨⟩),
    h.legal_update rfl, h.nodup, h.logged, (by rintro ⟨⟩), h.unpinned_update fun _ => h.pinned hcom⟩
  simp only [go_shared, share_shared, go_phase, share_phase, Shared.retire]
  omega

theorem endOther (hp : v.phase p = .endIn)
    (hmore : v.shared.outstanding - 1 ≠ 0) (hl : Locking ((v.share v.shared.retire).go p (.wake 0))) :
    Group ((v.share v.shared.retire).go p (.wake 0)) logged := by
  have htally := tally_retire (.wake 0) hp rfl
  have hcount := h.outstanding
  have hcom := h.not_committing (p := p) (by rw [hp]; rfl)
  obtain ⟨c, hheld, hc⟩ := h.committer
  refine ⟨hl, ?_, ⟨c, hheld.stay (congrArg commits hp).symm, hc⟩, fun ht => ?_,
    fun _ h0 => absurd h0 hmore, h.erased_update (by rintro ⟨⟩), h.legal_update rfl, h.nodup, h.logged,
    h.pinned, h.unpinned_update (by rintro ⟨⟩)⟩
  · simp only [go_shared, share_shared, go_phase, share_phase, Shared.retire]
    omega
  · exact absurd (hcom.symm.trans ht) (by decide)

theorem commitFinish (hp : v.phase p = .commitIn)
    (hl : Locking ((v.share v.shared.finish).go p (.wake 0))) :
    Group ((v.share v.shared.finish).go p (.wake 0)) logged := by
  have htally : tally inOp (update v.phase p (.wake 0)) =
      tally inOp v.phase := by simpa [hp, inOp] using tally_update inOp v.phase p (.wake 0)
  have hpc : (v.phase p).commits = true := by rw [hp]; rfl
  have hunpinned := h.unpinned p hpc
  rw [hp] at hunpinned
  obtain ⟨c, hheld, hc⟩ := h.committer
  refine ⟨hl, ?_, ⟨none, hheld.release ((hheld p).mpr hpc) rfl, rfl⟩, (by rintro ⟨⟩), fun _ _ => ?_,
    h.erased_update (by rintro ⟨⟩), h.legal_update rfl, h.nodup, h.logged, fun _ => hunpinned,
    h.unpinned_update (by rintro ⟨⟩)⟩
  · simp only [go_shared, share_shared, go_phase, share_phase, Shared.finish, htally]
    exact h.outstanding
  · exact h.erased p (by rw [hp]; rfl)

theorem logRecord {b : ℕ} {x : Block} (hp : v.phase p = .logIn b x)
    (hl : Locking ((v.share { v.shared with store := v.shared.store.logWrite b x }).go p .logOut)) :
    Group ((v.share { v.shared with store := v.shared.store.logWrite b x }).go p .logOut)
      (insert b logged) := by
  have hop : (v.phase p).inOp = true := by rw [hp]; rfl
  have hcom := h.not_committing hop
  have hpos := h.outstanding_pos hop
  have htally : tally inOp (update v.phase p .logOut) =
      tally inOp v.phase := by simpa [hp, inOp] using tally_update inOp v.phase p .logOut
  obtain ⟨c, hheld, hc⟩ := h.committer
  obtain rfl : c = none := by simpa [hcom] using hc
  have hnone : Held none commits (update v.phase p .logOut) := hheld.stay (congrArg commits hp).symm
  refine ⟨hl, ?_, ⟨none, hnone, hcom⟩, fun ht => ?_, fun _ h0 => ?_, fun q hq => ?_,
    h.legal_update rfl, Store.nodup_logWrite h.nodup b x, fun c => ?_,
    fun _ => (h.pinned hcom).logWrite b x, fun q hq => ?_⟩
  · exact h.outstanding.trans (congrArg Nat.cast htally.symm)
  · exact absurd (hcom.symm.trans ht) (by decide)
  · exact absurd h0 hpos.ne'
  · exact absurd (commits_of_erased hq) (by simp [hnone.outside rfl q])
  · change c ∈ (v.shared.store.logWrite b x).lh ↔ _
    rw [Store.mem_logWrite_lh, h.logged c, Finset.mem_insert, or_comm]
  · exact absurd hq (by simp [hnone.outside rfl q])

theorem commitAdvance {pt : Point} (hp : v.phase p = .committing pt)
    (hpt : pt ≠ .idle)
    (hl : Locking ((v.share { v.shared with store := (advance start v.shared.store pt).1 }).go p
      (.committing (advance start v.shared.store pt).2))) :
    Group ((v.share { v.shared with store := (advance start v.shared.store pt).1 }).go p
      (.committing (advance start v.shared.store pt).2))
      (noteLogged v.shared logged (.advanced pt)) := by
  have hpc : (v.phase p).commits = true := by rw [hp]; rfl
  have hcom := h.committing_of hpc
  have hheader : Header v.shared.store pt logged := by
    have hlegal := h.legal p
    have hunpinned := h.unpinned p hpc
    have herased := h.erased p
    rw [hp] at hlegal hunpinned herased
    exact ⟨hlegal, h.nodup, h.logged, hunpinned, herased⟩
  have hnew := hheader.advance start hpt
  -- the other processes do not commit
  have hother : ∀ q, q ≠ p → (v.phase q).commits = false := fun q hq => by
    rw [← Bool.not_eq_true]
    exact fun hqc => hq (h.commits_unique hpc hqc)
  have htally : tally inOp (update v.phase p
      (.committing (advance start v.shared.store pt).2)) = tally inOp v.phase := by
    simpa [hp, inOp] using tally_update inOp v.phase p
      (.committing (advance start v.shared.store pt).2)
  obtain ⟨c, hheld, hc⟩ := h.committer
  refine ⟨hl, ?_, ⟨c, hheld.stay (congrArg commits hp).symm, hc⟩, h.alone, fun ht => ?_, ?_,
    h.legal_update hnew.inCommit, hnew.nodup, hnew.mem, fun ht => ?_, ?_⟩
  · exact h.outstanding.trans (congrArg Nat.cast htally.symm)
  · exact absurd (hcom.symm.trans ht) (by decide)
  · refine (forall_update_iff v.phase fun _ x => x.erased = true → _).mpr
      ⟨hnew.erased, fun q hq hx => ?_⟩
    exact absurd (commits_of_erased hx) (by simp [hother q hq])
  · exact absurd (hcom.symm.trans ht) (by decide)
  refine (forall_update_iff v.phase fun _ x => x.commits = true →
    Pinned (advance start v.shared.store pt).1 x.point.unpinned).mpr
    ⟨fun _ => hnew.pinned, fun q hq hx => ?_⟩
  exact absurd hx (by simp [hother q hq])

theorem step {e : LogEvent} (hs : LogStep start v e v') :
    Group v' (noteLogged v.shared logged e) := by
  have hl := h.locking.step hs
  cases hs with
  | stutter => exact h
  | beginAcquire hp _ | beginWait hp _ | beginRelease hp _ | logAcquire hp _ | logRelease hp _
  | endCall hp | endAcquire hp _ | wakeSkip hp _ _ | wakeEnd hp _ | endReturn hp _ | commitCall hp _
  | commitAcquire hp _ | syncEnter hp | syncAcquire hp _ | syncIdle hp _ | syncBusy hp _
  | syncWait hp _ | syncDone hp _ | syncReturn hp _ | fall hp _ | kill hp =>
    exact h.move hl rfl rfl (by rw [hp]; rfl) (by rw [hp]; rfl) (by rw [hp]; rfl) (by rw [hp]; rfl)
      rfl
  | @relock p w hp _ =>
    cases w <;> exact h.move hl rfl rfl (by rw [hp]; rfl) (by rw [hp]; rfl) (by rw [hp]; rfl)
      (by rw [hp]; rfl) rfl
  | @wakeHit p q w hp hne hq =>
    have hlq : Locking (v.go q (.woken w)) := h.locking.step (@LogStep.kill start v q w hq)
    have hwoken : Group (v.go q (.woken w)) logged :=
      h.move hlq rfl rfl (by rw [hq]; rfl) (by rw [hq]; rfl) (by rw [hq]; rfl) (by rw [hq]; rfl) rfl
    have hp' : (v.go q (.woken w)).phase p = .wake q.val := by simpa [hne.symm] using hp
    exact hwoken.move hl rfl rfl (by rw [hp']; rfl) (by rw [hp']; rfl) (by rw [hp']; rfl)
      (by rw [hp']; rfl) rfl
  | beginPass hp hcom _ => exact h.enter hp hcom hl
  | logRecord hp _ _ => exact h.logRecord hp hl
  | logBig hp _ =>
    refine h.move hl rfl rfl ?_ (by rw [hp]; rfl) (by rw [hp]; rfl) (by rw [hp]; rfl) (by decide)
    rw [hp]
    change (panicked _).inOp = true
    decide
  | @logOutside p b x hp hop =>
    have := h.outstanding_pos (p := p) (by rw [hp]; rfl)
    omega
  | @endPanic p hp hcom =>
    have := h.not_committing (p := p) (by rw [hp]; rfl)
    simp [hcom] at this
  | endLast hp hcom hlast => exact h.endLast hp hcom hlast hl
  | endOther hp hcom hmore => exact h.endOther hp hmore hl
  | commitAdvance hp hpt => exact h.commitAdvance hp hpt hl
  | commitFinish hp => exact h.commitFinish hp hl

end Group

end Xv6.Log

import Xv6.Log.GroupCommit

/-!
# Nobody waits for a commit that will not come

A process sleeps on `&log` in `begin_op`, until there is room in the log, or in `sys_sync`, until
`log.ncommit` has moved.
-/

namespace Xv6.Log

open Thread Mutex Function

def Wait.target : Wait → Option ℤ
  | space => none
  | commit n => some n

def Phase.target : Phase → Option ℤ
  | syncLoop n => some n
  | drowsy w | asleep w | woken w => w.target
  | _ => none

/-- Every waiting process has something to wait for; `commits` is the number of commits so far. -/
structure Waiting (v : View) (commits : ℕ) : Prop where
  ncommit : v.shared.ncommit = commits
  drowsy : ∀ p w, v.phase p = .drowsy w → v.shared.busy = true
  target : ∀ p n, (v.phase p).target = some n →
    n ≤ v.shared.ncommit ∨ n = v.shared.ncommit + 1 ∧ v.shared.busy = true
  asleep : ∀ q, (v.phase q).sleeps = true →
    v.shared.busy = true ∨ ∃ p i, v.phase p = .wake i ∧ i ≤ q.val

def noteCommits (commits : ℕ) : LogEvent → ℕ
  | .finished => commits + 1
  | _ => commits

namespace Shared

theorem busy_iff {s : Shared} : s.busy = true ↔ s.committing = true ∨ 0 < s.outstanding := by
  simp [busy]

end Shared

theorem Group.busy_of_full {v : View} {logged : Finset ℕ} (h : Group v logged)
    (hfull : v.shared.full = true) : v.shared.busy = true := by
  rw [Shared.busy_iff]
  by_contra hnot
  rw [not_or, Bool.not_eq_true] at hnot
  have hcount := h.outstanding
  have hzero : v.shared.outstanding = 0 := by omega
  have hlh := h.settled hnot.1 hzero
  simp [Shared.full, hzero, hlh, LOGBLOCKS, MAXOPBLOCKS] at hfull

namespace Waiting

variable {start : ℕ} {v v' : View} {logged : Finset ℕ} {c : ℕ} {p : Slot} {ph : Phase}

variable (h : Waiting v c)

include h

theorem of_busy (hbusy : v'.shared.busy = true)
    (hn : v'.shared.ncommit = v.shared.ncommit) (hphase : v'.phase = update v.phase p ph)
    (htarget : ph.target = none) : Waiting v' c := by
  refine ⟨hn.trans h.ncommit, fun _ _ _ => hbusy, fun q n hq => ?_, fun _ _ => .inl hbusy⟩
  rw [hphase] at hq
  rw [hn]
  by_cases hqp : q = p
  · subst hqp
    simp [htarget] at hq
  · rw [update_of_ne hqp] at hq
    exact (h.target q n hq).imp_right fun ⟨heq, _⟩ => ⟨heq, hbusy⟩

theorem move (hbusy : v'.shared.busy = v.shared.busy)
    (hn : v'.shared.ncommit = v.shared.ncommit) (hphase : v'.phase = update v.phase p ph)
    (hdrowsy : ∀ w, ph = .drowsy w → v.shared.busy = true) (htarget : ∀ n, ph.target = some n →
      (v.phase p).target = some n ∨ n = v.shared.ncommit + 1 ∧ v.shared.busy = true)
    (hsleeps : ph.sleeps = true → (v.phase p).sleeps = true ∨ v.shared.busy = true)
    (hwake : ∀ i, v.phase p = .wake i → ∀ q, (v.phase q).sleeps = true → i ≤ q.val →
      ∃ j, ph = .wake j ∧ j ≤ q.val) : Waiting v' c := by
  obtain ⟨s', lock', phase'⟩ := v'
  dsimp only at hbusy hn hphase
  subst hphase
  refine ⟨hn.trans h.ncommit, ?_, ?_, fun q hq => ?_⟩
  · rw [forall_update_iff v.phase fun _ x => ∀ w, x = .drowsy w → s'.busy = true, hbusy]
    exact ⟨hdrowsy, fun q _ => h.drowsy q⟩
  · rw [forall_update_iff v.phase fun _ x => ∀ n, x.target = some n →
      n ≤ s'.ncommit ∨ n = s'.ncommit + 1 ∧ s'.busy = true, hbusy, hn]
    exact ⟨fun n hph => (htarget n hph).elim (h.target p n) .inr, fun q _ => h.target q⟩
  dsimp only at hq ⊢
  rw [hbusy]
  have hq' : (v.phase q).sleeps = true ∨ v.shared.busy = true := by
    by_cases hqp : q = p
    · subst hqp
      rw [update_self] at hq
      exact hsleeps hq
    · rw [update_of_ne hqp] at hq
      exact .inl hq
  rcases hq' with hq' | hq'
  · refine (h.asleep q hq').imp_right fun ⟨r, i, hr, hi⟩ => ?_
    by_cases hrp : r = p
    · subst hrp
      obtain ⟨j, hj, hle⟩ := hwake i hr q hq' hi
      exact ⟨r, j, by rw [update_self, hj], hle⟩
    · exact ⟨r, i, by rw [update_of_ne hrp, hr], hi⟩
  · exact .inl hq'

theorem pass (hbusy : v'.shared.busy = v.shared.busy)
    (hn : v'.shared.ncommit = v.shared.ncommit) (hphase : v'.phase = update v.phase p ph)
    (hp : ∀ i, v.phase p ≠ .wake i) (hdrowsy : ∀ w, ph ≠ .drowsy w) (hsleeps : ph.sleeps = false)
    (htarget : ph.target = none ∨ ph.target = (v.phase p).target) : Waiting v' c := by
  refine h.move hbusy hn hphase (fun w hw => absurd hw (hdrowsy w)) (fun n hph => .inl ?_)
    (fun hph => by simp [hph] at hsleeps) fun i hi => absurd hi (hp i)
  rcases htarget with ht | ht
  · simp [ht] at hph
  · rwa [← ht]

theorem commitFinish (hl : Locking v) (hp : v.phase p = .commitIn)
    (hfew : c + 1 < 2 ^ 31 - 1) : Waiting ((v.share v.shared.finish).go p (.wake 0)) (c + 1) := by
  have hn : v.shared.finish.ncommit = v.shared.ncommit + 1 := by
    have hc := h.ncommit
    exact int32_of_range (by rw [INT_MIN]; omega) (by rw [INT_MAX]; omega)
  refine ⟨?_, ?_, ?_, fun q _ => .inr ⟨p, 0, by simp, Nat.zero_le _⟩⟩
  · change v.shared.finish.ncommit = _
    rw [hn, h.ncommit]
    push_cast
    rfl
  · refine (forall_update_iff v.phase fun _ x => ∀ w, x = .drowsy w → _).mpr
      ⟨(by rintro _ ⟨⟩), fun q hqp w hq => ?_⟩
    -- nobody else holds the lock
    exact absurd (hl.eq_of_locks (p := p) (by rw [hp]; rfl) (by rw [hq]; rfl)) hqp
  refine (forall_update_iff v.phase fun _ x => ∀ n, x.target = some n →
    n ≤ v.shared.finish.ncommit ∨ n = v.shared.finish.ncommit + 1 ∧ _).mpr
    ⟨(by rintro _ ⟨⟩), fun q _ n hq => .inl ?_⟩
  rw [hn]
  rcases h.target q n hq with hle | ⟨heq, -⟩
  · omega
  · omega

theorem wakeNext {i : ℕ} (hp : v.phase p = .wake i) (hi : i < NPROC)
    (hskip : (v.phase ⟨i, hi⟩).sleeps = false) : Waiting (v.go p (.wake (i + 1))) c := by
  refine h.move rfl rfl rfl (by rintro _ ⟨⟩) (by rintro _ ⟨⟩) (by rintro ⟨⟩) fun k hk q hq hle => ⟨i + 1, rfl, ?_⟩
  obtain rfl : i = k := Phase.wake.inj (hp.symm.trans hk)
  refine lt_of_le_of_ne hle fun heq => ?_
  obtain rfl : q = ⟨i, hi⟩ := Fin.ext heq.symm
  simp [hq] at hskip

theorem step {e : LogEvent} (hg : Group v logged) (hs : LogStep start v e v')
    (hfew : noteCommits c e < 2 ^ 31 - 1) : Waiting v' (noteCommits c e) := by
  cases hs with
  | stutter => exact h
  | beginAcquire hp _ | beginRelease hp _ | logAcquire hp _ | logRelease hp _ | endCall hp
  | endAcquire hp _ | endReturn hp _ | commitCall hp _ | commitAcquire hp _ | syncEnter hp
  | syncAcquire hp _ | syncIdle hp _ | syncDone hp _ | syncReturn hp _ | logRecord hp _ _
  | logBig hp _ | logOutside hp _ | commitAdvance hp _ =>
    exact h.pass rfl rfl rfl (by simp [hp]) (by rintro _ ⟨⟩) rfl (.inl rfl)
  | kill hp => exact h.pass rfl rfl rfl (by simp [hp]) (by rintro _ ⟨⟩) rfl (.inr (by rw [hp]; rfl))
  | @relock p w hp _ =>
    cases w with
    | space => exact h.pass rfl rfl rfl (by simp [hp]) (by rintro _ ⟨⟩) rfl (.inl rfl)
    | commit n => exact h.pass rfl rfl rfl (by simp [hp]) (by rintro _ ⟨⟩) rfl (.inr (by rw [hp]; rfl))
  | @beginWait p hp hwait =>
    have hbusy : v.shared.busy = true :=
      hwait.elim (fun hcom => Shared.busy_iff.mpr (.inl hcom)) hg.busy_of_full
    exact h.move rfl rfl rfl (fun _ _ => hbusy) (by rintro _ ⟨⟩) (by rintro ⟨⟩) (by simp [hp])
  | @syncBusy p hp hbusy =>
    have hn : int32 (v.shared.ncommit + 1) = v.shared.ncommit + 1 := by
      have hc := h.ncommit
      have hfew' : c < 2 ^ 31 - 1 := hfew
      exact int32_of_range (by rw [INT_MIN]; omega) (by rw [INT_MAX]; omega)
    rw [hn]
    exact h.move rfl rfl rfl (by rintro _ ⟨⟩) (fun n hn => .inr ⟨(Option.some.inj hn).symm, hbusy⟩) (by rintro ⟨⟩)
      (by simp [hp])
  | @syncWait p n hp hn =>
    have hbusy : v.shared.busy = true := by
      rcases h.target p n (by rw [hp]; rfl) with hle | ⟨-, hbusy⟩
      · omega
      · exact hbusy
    exact h.move rfl rfl rfl (fun _ _ => hbusy) (fun m hm => .inl (by rw [hp]; exact hm)) (by rintro ⟨⟩)
      (by simp [hp])
  | @fall p w hp _ =>
    have hbusy := h.drowsy p w hp
    exact h.move rfl rfl rfl (by rintro _ ⟨⟩) (fun m hm => .inl (by rw [hp]; exact hm)) (fun _ => .inr hbusy)
      (by simp [hp])
  | wakeSkip hp hi hskip => exact h.wakeNext hp hi hskip
  | @wakeHit p q w hp hne hq =>
    have hwoken : Waiting (v.go q (.woken w)) c :=
      h.pass rfl rfl rfl (by simp [hq]) (by rintro _ ⟨⟩) rfl (.inr (by rw [hq]; rfl))
    exact hwoken.wakeNext (by simpa [hne.symm] using hp) q.isLt (by simp [Phase.sleeps])
  | @wakeEnd p i hp hi =>
    refine h.move rfl rfl rfl (by rintro _ ⟨⟩) (by rintro _ ⟨⟩) (by rintro ⟨⟩) fun k hk q _ hle => ?_
    obtain rfl : i = k := Phase.wake.inj (hp.symm.trans hk)
    exact absurd q.isLt (by omega)
  | @beginPass p hp hcom _ =>
    have hcount := hg.outstanding
    refine h.of_busy (Shared.busy_iff.mpr (.inr ?_)) rfl rfl rfl
    simp only [View.go_shared, View.share_shared, Shared.enter]
    omega
  | @endPanic p hp hcom =>
    have := hg.not_committing (p := p) (by rw [hp]; rfl)
    simp [hcom] at this
  | endLast hp _ _ => exact h.of_busy (Shared.busy_iff.mpr (.inl rfl)) rfl rfl rfl
  | @endOther p hp _ hmore =>
    have hpos := hg.outstanding_pos (p := p) (by rw [hp]; rfl)
    refine h.of_busy (Shared.busy_iff.mpr (.inr ?_)) rfl rfl rfl
    simp only [View.go_shared, View.share_shared, Shared.retire]
    omega
  | commitFinish hp => exact h.commitFinish hg.locking hp hfew

end Waiting

end Xv6.Log

import Xv6.Log.GroupCommitLaw
import Xv6.Log.Crash

/-!
# `sys_sync` makes ended operations durable

A journal records every `log_write` with the operation that made it, which operations had entered
`end_op` when each `sys_sync` was called, and which operations the `sys_sync`s that have returned
answer for.

## Main results

* `sync_durable`: `sys_sync` makes ended operations durable, before its counter overflows
-/

namespace Xv6.Log

open Thread Machine Transition Function List

/-- A `log_write`. The operations of a process are numbered from zero. -/
structure Entry where
  proc : Slot
  op : ℕ
  block : ℕ
  data : Block

def replay (d : ℕ → Block) (ws : List Entry) : ℕ → Block :=
  ws.foldl (fun d e => update d e.block e.data) d

theorem replay_concat (d : ℕ → Block) (ws : List Entry) (e : Entry) :
    replay d (ws ++ [e]) = update (replay d ws) e.block e.data := foldl_concat ..

structure Journal where
  writes : List Entry
  /-- How many operations of a process have entered `end_op`. -/
  ended : Slot → ℕ
  /-- For each process, the value of `ended` when it last called `sys_sync`. -/
  owed : Slot → Slot → ℕ
  /-- How many operations of a process the `sys_sync`s that have returned answer for. -/
  synced : Slot → ℕ
  commits : ℕ

namespace Journal

def empty : Journal where
  writes := []
  ended _ := 0
  owed _ _ := 0
  synced _ := 0
  commits := 0

def note (j : Journal) : LogEvent → Journal
  | .logged p b x => { j with writes := j.writes ++ [⟨p, j.ended p, b, x⟩] }
  | .ended p => { j with ended := update j.ended p (j.ended p + 1) }
  | .finished => { j with commits := j.commits + 1 }
  | .syncCalled p => { j with owed := update j.owed p j.ended }
  | .syncReturned p => { j with synced := fun q => max (j.synced q) (j.owed p q) }
  | _ => j

/-- The first `c` `log_write`s contain those of the operations that `o` counts. -/
def Settled (j : Journal) (c : ℕ) (o : Slot → ℕ) : Prop :=
  ∀ i e, j.writes[i]? = some e → e.op < o e.proc → i < c

end Journal

inductive CrashDisk (start : ℕ) (m : State) : (ℕ → Block) → Prop
  /-- No write is under way. -/
  | still : CrashDisk start m m.shared.store.disk
  | torn {p : Slot} {pt : Point} (hp : m.ctl p = .run (.commit pt)) (keep : Sectors) :
      CrashDisk start m (crashDisk start m.shared.store pt keep)

def LogsHome (start : ℕ) : LogEvent → Prop
  | .logged _ b _ => b ∈ home start ∧ b < 2 ^ 32
  | _ => True

instance (start : ℕ) : DecidablePred (LogsHome start)
  | .logged _ _ _ => inferInstanceAs (Decidable (_ ∧ _))
  | .silent | .begun _ | .refused _ _ | .ended _ | .advanced _ | .finished | .syncCalled _
  | .syncReturned _ => inferInstanceAs (Decidable True)

/-! ## What the disk holds -/

def Point.committed : Point → Bool
  | .install _ _ | .erase _ => true
  | _ => false

/-- The disk holds the first `c` `log_write`s, or all of them once the header is written. -/
structure Content (start : ℕ) (d : ℕ → Block) (v : View) (j : Journal) (t : Txn) (c : ℕ) : Prop where
  idle : v.shared.committing = false → Consistent start t v.shared.store .idle
  point : ∀ p, (v.phase p).commits = true → Consistent start t v.shared.store (v.phase p).point ∧
    ((v.phase p).point.committed = true → t.committed = true)
  before : t.before = replay d (j.writes.take c)
  after : t.after = replay d j.writes
  le : c ≤ j.writes.length
  fresh : t.committed = false → ∀ e ∈ j.writes.drop c, e.block ∈ v.shared.store.lh

namespace Content

variable {start : ℕ} {d : ℕ → Block} {v v' : View} {j j' : Journal} {t : Txn} {c : ℕ} {p : Slot}
  {ph : Phase} {logged : Finset ℕ}

variable (h : Content start d v j t c)

include h

theorem eq_length (hc : Consistent start t v.shared.store .idle)
    (hlh : v.shared.store.lh = []) : c = j.writes.length := by
  have hnil : j.writes.drop c = [] := by
    refine eq_nil_iff_forall_not_mem.mpr fun e he => ?_
    have hmem := h.fresh hc.committed e he
    simp [hlh] at hmem
  have hlen := drop_eq_nil_iff.mp hnil
  have hle := h.le
  omega

theorem move (hs : v'.shared.store = v.shared.store)
    (hcom : v'.shared.committing = v.shared.committing) (hj : j'.writes = j.writes)
    (hphase : v'.phase = update v.phase p ph)
    (hph : ph.commits = (v.phase p).commits) (hpt : ph.point = (v.phase p).point) :
    Content start d v' j' t c := by
  refine ⟨?_, ?_, hj ▸ h.before, hj ▸ h.after, hj ▸ h.le, ?_⟩
  · rw [hcom, hs]
    exact h.idle
  · rw [hs, hphase, forall_update_iff v.phase fun _ x => x.commits = true →
      Consistent start t v.shared.store x.point ∧ (x.point.committed = true → t.committed = true)]
    exact ⟨fun hx => hpt ▸ h.point p (hph ▸ hx), fun q _ => h.point q⟩
  · rw [hs, hj]
    exact h.fresh

theorem logRecord {b : ℕ} {x : Block} (hg : Group v logged)
    (hp : v.phase p = .logIn b x) (hroom : v.shared.store.lh.length < LOGBLOCKS)
    (hb : b ∈ home start ∧ b < 2 ^ 32) :
    Content start d
      ((v.share { v.shared with store := v.shared.store.logWrite b x }).go p .logOut)
      (j.note (.logged p b x)) { t with after := update t.after b x } c := by
  have hcom := hg.not_committing (p := p) (by rw [hp]; rfl)
  have hle := h.le
  refine ⟨fun _ => Pending.logWrite (h.idle hcom) hb.1 hb.2 hroom x, ?_, ?_, ?_, ?_, fun hc e he => ?_⟩
  · refine (forall_update_iff v.phase fun _ x => x.commits = true → _).mpr
      ⟨(by rintro ⟨⟩), fun q _ hq => ?_⟩
    exact absurd (hg.committing_of hq) (by simp [hcom])
  · simp only [Journal.note]
    rw [take_append_of_le_length hle]
    exact h.before
  · simp only [Journal.note]
    rw [replay_concat, h.after]
  · simp only [Journal.note, length_append, length_singleton]
    omega
  simp only [Journal.note] at he
  rw [drop_append_of_le_length hle, mem_append, mem_singleton] at he
  change e.block ∈ (v.shared.store.logWrite b x).lh
  rw [Store.mem_logWrite_lh]
  rcases he with he | rfl
  · exact .inl (h.fresh hc e he)
  · exact .inr rfl

theorem endLast (hcom : v.shared.committing = false)
    (hg : Group ((v.share { v.shared.retire with committing := true }).go p (.endOut true)) logged)
    (hj : j'.writes = j.writes) :
    Content start d ((v.share { v.shared.retire with committing := true }).go p (.endOut true)) j'
      t c := by
  refine ⟨(by rintro ⟨⟩), fun q hq => ?_, hj ▸ h.before, hj ▸ h.after, hj ▸ h.le, ?_⟩
  · obtain rfl : q = p := hg.commits_unique (p := p) (by simp [Phase.commits]) hq
    simp only [View.go_phase, View.share_phase, update_self]
    exact ⟨h.idle hcom, (by rintro ⟨⟩)⟩
  · rw [hj]
    exact h.fresh

theorem commitFinish (hp : v.phase p = .commitIn)
    (hg : Group ((v.share v.shared.finish).go p (.wake 0)) logged) (hj : j'.writes = j.writes) :
    Content start d ((v.share v.shared.finish).go p (.wake 0)) j' t c := by
  refine ⟨fun _ => ?_, fun q hq => ?_, hj ▸ h.before, hj ▸ h.after, hj ▸ h.le, ?_⟩
  · have hpt := (h.point p (by rw [hp]; rfl)).1
    rw [hp] at hpt
    exact hpt
  · exact absurd (hg.committing_of hq) (by simp [Shared.finish])
  · rw [hj]
    exact h.fresh

omit h

/-- The prefix of the journal that the disk holds, after `commit` has gone on. -/
def covers (c : ℕ) (j : Journal) (pt : Point) : ℕ := if pt = .erase false then j.writes.length else c

variable {pt : Point}

include h

theorem txn_advance (hpt : pt.inCommit = true) (s : Store) :
    (t.advance s pt).before = replay d (j.writes.take (covers c j pt)) ∧
      (t.advance s pt).after = replay d j.writes := by
  cases pt with
  | erase r =>
    cases r with
    | false => exact ⟨by simp [Txn.advance, covers, h.after], h.after⟩
    | true => cases hpt
  | _ => exact ⟨h.before, h.after⟩

omit h

theorem committed_advance {s : Store} (hpt : pt.inCommit = true)
    (hdone : pt.committed = true → t.committed = true)
    (hnew : (advance start s pt).2.committed = true) : (t.advance s pt).committed = true := by
  cases pt with
  | idle | erase r => cases hnew
  | commit =>
    simp only [advance] at hnew
    split at hnew <;> cases hnew
  | writeLog i =>
    simp only [advance] at hnew
    split at hnew <;> cases hnew
  | writeHead => rfl
  | install r i => exact hdone rfl
  | readHead => cases hpt

include h

theorem fresh_advance (hpt : pt.inCommit = true) (hdone : pt.committed = true → t.committed = true)
    (hnot : (t.advance v.shared.store pt).committed = false) : ∀ e ∈ j.writes.drop (covers c j pt),
      e.block ∈ (advance start v.shared.store pt).1.lh := by
  cases pt with
  | idle | commit => exact h.fresh hnot
  | writeLog i =>
    simp only [advance]
    cases v.shared.store.lh[i]? <;> exact h.fresh hnot
  | writeHead => cases hnot
  | install r i => exact absurd (hdone rfl) (by simpa [Txn.advance] using hnot)
  | erase r =>
    cases r with
    | false => simp [covers]
    | true => cases hpt
  | readHead => cases hpt

theorem commitAdvance (hg : Group v logged)
    (hp : v.phase p = .committing pt) :
    Content start d
      ((v.share { v.shared with store := (advance start v.shared.store pt).1 }).go p
        (.committing (advance start v.shared.store pt).2))
      j (t.advance v.shared.store pt) (covers c j pt) := by
  have hpc : (v.phase p).commits = true := by rw [hp]; rfl
  have hlegal := hg.legal p
  obtain ⟨hcons, hdone⟩ := h.point p hpc
  rw [hp] at hlegal hcons hdone
  have hcom := hg.committing_of hpc
  obtain ⟨hbefore, hafter⟩ := h.txn_advance hlegal v.shared.store
  refine ⟨fun ht => ?_, ?_, hbefore, hafter, ?_, ?_⟩
  · exact absurd (hcom.symm.trans ht) (by decide)
  · refine (forall_update_iff v.phase fun _ x => x.commits = true →
      Consistent start (t.advance v.shared.store pt) (advance start v.shared.store pt).1 x.point ∧
        (x.point.committed = true → (t.advance v.shared.store pt).committed = true)).mpr
      ⟨fun _ => ⟨hcons.advance, committed_advance hlegal hdone⟩,
        fun q hq hx => absurd (hg.commits_unique hpc hx) hq⟩
  · have hle := h.le
    unfold covers
    split <;> omega
  · exact h.fresh_advance hlegal hdone

/-- **Every transition keeps the journal and the disk together**, and the prefix on the disk does not
shrink. -/
theorem step {e : LogEvent} (hg : Group v logged)
    (hs : LogStep start v e v') (hhome : LogsHome start e) :
    ∃ t' c', c ≤ c' ∧ Content start d v' (j.note e) t' c' := by
  have hg' := hg.step hs
  cases hs with
  | stutter => exact ⟨t, c, le_rfl, h⟩
  | beginAcquire hp _ | beginWait hp _ | beginRelease hp _ | logAcquire hp _ | logRelease hp _
  | endCall hp | endAcquire hp _ | wakeSkip hp _ _ | wakeEnd hp _ | endReturn hp _ | commitCall hp _
  | commitAcquire hp _ | syncEnter hp | syncAcquire hp _ | syncIdle hp _ | syncBusy hp _
  | syncWait hp _ | syncDone hp _ | syncReturn hp _ | fall hp _ | kill hp | beginPass hp _ _
  | endOther hp _ _ | logBig hp _ =>
    exact ⟨t, c, le_rfl, h.move rfl rfl rfl rfl (by rw [hp]; rfl) (by rw [hp]; rfl)⟩
  | @relock p w hp _ =>
    cases w <;>
      exact ⟨t, c, le_rfl, h.move rfl rfl rfl rfl (by rw [hp]; rfl) (by rw [hp]; rfl)⟩
  | @wakeHit p q w hp hne hq =>
    have hwoken : Content start d (v.go q (.woken w)) j t c :=
      h.move rfl rfl rfl rfl (by rw [hq]; rfl) (by rw [hq]; rfl)
    have hp' : (v.go q (.woken w)).phase p = .wake q.val := by simpa [hne.symm] using hp
    exact ⟨t, c, le_rfl, hwoken.move rfl rfl rfl rfl (by rw [hp']; rfl) (by rw [hp']; rfl)⟩
  | logRecord hp hroom _ => exact ⟨_, c, le_rfl, h.logRecord hg hp hroom hhome⟩
  | @logOutside p b x hp hop =>
    have := hg.outstanding_pos (p := p) (by rw [hp]; rfl)
    omega
  | @endPanic p hp hcom =>
    have := hg.not_committing (p := p) (by rw [hp]; rfl)
    simp [hcom] at this
  | endLast _ hcom _ => exact ⟨t, c, le_rfl, h.endLast hcom hg' rfl⟩
  | commitFinish hp => exact ⟨t, c, le_rfl, h.commitFinish hp hg' rfl⟩
  | @commitAdvance p pt hp _ =>
    refine ⟨_, _, ?_, h.commitAdvance hg hp⟩
    have hle := h.le
    unfold covers
    split <;> omega

end Content

/-! ## What `sys_sync` waits for -/

/-- The disk holds what the returned `sys_sync`s answer for, and each `sys_sync` under way waits for
the next commit unless the disk holds what it is to answer for. -/
structure Promise (v : View) (j : Journal) (c : ℕ) : Prop where
  owed_le : ∀ p q, j.owed p q ≤ j.ended q
  synced_le : ∀ q, j.synced q ≤ j.ended q
  target : ∀ p n, (v.phase p).target = some n → n = v.shared.ncommit + 1 ∨ j.Settled c (j.owed p)
  out : ∀ p, v.phase p = .syncOut → j.Settled c (j.owed p)
  synced : j.Settled c j.synced

namespace Journal

variable {j : Journal} {c c' : ℕ} {o o' : Slot → ℕ}

theorem Settled.mono (h : j.Settled c o) (hle : c ≤ c') : j.Settled c' o := fun i e hi ho =>
  (h i e hi ho).trans_le hle

theorem settled_of_length_le (hle : j.writes.length ≤ c) (o : Slot → ℕ) : j.Settled c o :=
  fun _ _ hi _ => (List.getElem?_eq_some_iff.mp hi).1.trans_le hle

theorem Settled.max (h : j.Settled c o) (h' : j.Settled c o') :
    j.Settled c fun q => max (o q) (o' q) := fun i e hi ho =>
  (lt_max_iff.mp ho).elim (h i e hi) (h' i e hi)

theorem Settled.logged (h : j.Settled c o) (ho : ∀ q, o q ≤ j.ended q) (p : Slot) (b : ℕ)
    (x : Block) : (j.note (.logged p b x)).Settled c o := by
  intro i e hi hop
  simp only [note, getElem?_append] at hi
  split at hi
  · exact h i e hi hop
  rw [getElem?_singleton] at hi
  split at hi
  · obtain rfl := Option.some.inj hi
    have := ho p
    exact absurd hop (not_lt.mpr this)
  · cases hi

end Journal

namespace Promise

variable {start : ℕ} {d : ℕ → Block} {v v' : View} {j : Journal} {t : Txn} {c c' k : ℕ} {p : Slot}
  {ph : Phase} {logged : Finset ℕ}

variable (h : Promise v j c)

include h

theorem mono (hle : c ≤ c') : Promise v j c' where
  owed_le := h.owed_le
  synced_le := h.synced_le
  target p n hp := (h.target p n hp).imp_right fun hs => hs.mono hle
  out p hp := (h.out p hp).mono hle
  synced := h.synced.mono hle

theorem move (hn : v'.shared.ncommit = v.shared.ncommit) (hphase : v'.phase = update v.phase p ph)
    (htarget : ∀ n, ph.target = some n → n = v.shared.ncommit + 1 ∨ (v.phase p).target = some n)
    (hout : ph = .syncOut → j.Settled c (j.owed p)) : Promise v' j c := by
  refine ⟨h.owed_le, h.synced_le, ?_, ?_, h.synced⟩
  · rw [hn, hphase, forall_update_iff v.phase fun q x => ∀ n, x.target = some n →
      n = v.shared.ncommit + 1 ∨ j.Settled c (j.owed q)]
    exact ⟨fun n hx => (htarget n hx).elim .inl (h.target p n), fun q _ => h.target q⟩
  · rw [hphase, forall_update_iff v.phase fun q x => x = .syncOut → j.Settled c (j.owed q)]
    exact ⟨hout, fun q _ => h.out q⟩

theorem pass (hn : v'.shared.ncommit = v.shared.ncommit) (hphase : v'.phase = update v.phase p ph)
    (htarget : ph.target = none ∨ ph.target = (v.phase p).target) (hout : ph ≠ .syncOut) :
    Promise v' j c := by
  refine h.move hn hphase (fun n hx => .inr ?_) fun hx => absurd hx hout
  rcases htarget with ht | ht
  · simp [ht] at hx
  · rwa [← ht]

theorem note_logged (b : ℕ) (x : Block) : Promise v (j.note (.logged p b x)) c where
  owed_le := h.owed_le
  synced_le := h.synced_le
  target q n hq := (h.target q n hq).imp_right fun hs => hs.logged (h.owed_le q) p b x
  out q hq := (h.out q hq).logged (h.owed_le q) p b x
  synced := h.synced.logged h.synced_le p b x

theorem note_ended (p : Slot) : Promise v (j.note (.ended p)) c := by
  have hle : ∀ q, j.ended q ≤ (j.note (.ended p)).ended q := by
    intro q
    simp only [Journal.note, update_apply]
    split
    · rename_i hq
      subst hq
      omega
    · exact le_rfl
  exact ⟨fun r q => (h.owed_le r q).trans (hle q), fun q => (h.synced_le q).trans (hle q), h.target,
    h.out, h.synced⟩

theorem syncEnter : Promise (v.go p .syncCall) (j.note (.syncCalled p)) c := by
  have howed : ∀ q, q ≠ p → (j.note (.syncCalled p)).owed q = j.owed q := fun q hq =>
    update_of_ne hq ..
  refine ⟨fun q r => ?_, h.synced_le, fun q n hq => ?_, fun q hq => ?_, h.synced⟩
  · by_cases hqp : q = p
    · subst hqp
      simp [Journal.note]
    · rw [howed q hqp]
      exact h.owed_le q r
  · by_cases hqp : q = p
    · subst hqp
      simp [Phase.target] at hq
    · rw [howed q hqp]
      simp only [View.go_phase, update_of_ne hqp] at hq
      exact h.target q n hq
  by_cases hqp : q = p
  · subst hqp
    simp at hq
  · rw [howed q hqp]
    simp only [View.go_phase, update_of_ne hqp] at hq
    exact h.out q hq

theorem note_syncReturned (hp : v.phase p = .syncOut) : Promise v (j.note (.syncReturned p)) c where
  owed_le := h.owed_le
  synced_le q := max_le (h.synced_le q) (h.owed_le p q)
  target := h.target
  out := h.out
  synced := h.synced.max (h.out p hp)

theorem of_length_le (hle : j.writes.length ≤ c) (v' : View) : Promise v' j c where
  owed_le := h.owed_le
  synced_le := h.synced_le
  target _ _ _ := .inr (j.settled_of_length_le hle _)
  out _ _ := j.settled_of_length_le hle _
  synced := j.settled_of_length_le hle _

theorem step {e : LogEvent} (hc : Content start d v j t c) (hg : Group v logged)
    (hw : Waiting v k) (hs : LogStep start v e v') (hfew : noteCommits k e < 2 ^ 31 - 1) :
    Promise v' (j.note e) c := by
  cases hs with
  | stutter => exact h
  | beginAcquire hp _ | beginWait hp _ | beginRelease hp _ | logAcquire hp _ | logRelease hp _
  | endCall hp | endAcquire hp _ | wakeSkip hp _ _ | wakeEnd hp _ | endReturn hp _ | commitCall hp _
  | commitAcquire hp _ | syncAcquire hp _ | beginPass hp _ _ | logBig hp _ | logOutside hp _
  | commitAdvance hp _ => exact h.pass rfl rfl (.inl rfl) (by rintro ⟨⟩)
  | syncWait hp _ | fall hp _ | kill hp => exact h.pass rfl rfl (.inr (by rw [hp]; rfl)) (by rintro ⟨⟩)
  | @relock p w hp _ =>
    cases w with
    | space => exact h.pass rfl rfl (.inl rfl) (by rintro ⟨⟩)
    | commit n => exact h.pass rfl rfl (.inr (by rw [hp]; rfl)) (by rintro ⟨⟩)
  | @wakeHit p q w hp hne hq =>
    have hwoken : Promise (v.go q (.woken w)) j c := h.pass rfl rfl (.inr (by rw [hq]; rfl)) (by rintro ⟨⟩)
    exact hwoken.pass rfl rfl (.inl rfl) (by rintro ⟨⟩)
  | logRecord hp _ _ => exact (h.note_logged _ _).pass rfl rfl (.inl rfl) (by rintro ⟨⟩)
  | endPanic hp _ | endLast hp _ _ | endOther hp _ _ =>
    exact (h.note_ended _).pass rfl rfl (.inl rfl) (by rintro ⟨⟩)
  | syncEnter hp => exact h.syncEnter
  | @syncIdle p hp hbusy =>
    -- nothing is under way: the disk holds the whole journal
    have hidle : v.shared.committing = false ∧ v.shared.outstanding = 0 := by
      have hcount := hg.outstanding
      have hnot : ¬ (v.shared.committing = true ∨ 0 < v.shared.outstanding) := fun hb =>
        absurd (Shared.busy_iff.mpr hb) (by simp [hbusy])
      rw [not_or, Bool.not_eq_true] at hnot
      exact ⟨hnot.1, by omega⟩
    have hlen := hc.eq_length (hc.idle hidle.1) (hg.settled hidle.1 hidle.2)
    exact h.of_length_le hlen.ge _
  | @syncBusy p hp _ =>
    have hn : int32 (v.shared.ncommit + 1) = v.shared.ncommit + 1 := by
      have hcount := hw.ncommit
      have hfew' : k < 2 ^ 31 - 1 := hfew
      exact int32_of_range (by rw [INT_MIN]; omega) (by rw [INT_MAX]; omega)
    exact h.move rfl rfl (fun n hx => .inl ((Option.some.inj hx).symm.trans hn)) (by rintro ⟨⟩)
  | @syncDone p n hp hn =>
    refine h.move rfl rfl (by rintro _ ⟨⟩) fun _ => ?_
    refine (h.target p n (by rw [hp]; rfl)).resolve_left fun heq => ?_
    omega
  | syncReturn hp _ => exact (h.note_syncReturned hp).pass rfl rfl (.inl rfl) (by rintro ⟨⟩)
  | @commitFinish p hp =>
    have hpt := (hc.point p (by rw [hp]; rfl)).1
    rw [hp] at hpt
    have hlen := hc.eq_length hpt (hg.erased p (by rw [hp]; rfl))
    have hall : Promise v (j.note .finished) c :=
      ⟨h.owed_le, h.synced_le, h.target, h.out, h.synced⟩
    exact hall.of_length_le hlen.ge _

end Promise

/-! ## Runs of the machine -/

def journalStep (start : ℕ) : State × Journal → Act Label → Option (State × Journal) :=
  withHistory (step start) fun j m a => j.note (event m a)

theorem Journal.note_commits (j : Journal) (e : LogEvent) :
    (j.note e).commits = noteCommits j.commits e := by
  cases e <;> rfl

variable {start : ℕ} {d : ℕ → Block} {m : State} {j : Journal}

theorem content_boot (hd : readHead (d start) = []) :
    Content start d (view (boot d)) .empty (.settled d) 0 where
  idle _ := ⟨.nil start, hd, fun _ _ => rfl, fun _ _ => rfl, rfl⟩
  point _ := nofun
  before := rfl
  after := rfl
  le := le_rfl
  fresh _ e he := by simp [Journal.empty] at he

theorem promise_boot (d : ℕ → Block) : Promise (view (boot d)) .empty 0 where
  owed_le _ _ := le_rfl
  synced_le _ := le_rfl
  target _ _ := nofun
  out _ := nofun
  synced := Journal.settled_of_length_le le_rfl _

theorem content_of_reach (hd : readHead (d start) = [])
    (hrun : Reach (journalStep start) (fun s a => LogsHome start (event s.1 a)) (boot d, .empty)
      (m, j)) (hfew : j.commits < 2 ^ 31 - 1) : (∃ logged, Group (view m) logged) ∧
      ∃ t c, Content start d (view m) j t c ∧ Promise (view m) j c := by
  obtain ⟨-, hg, hrest⟩ := hrun.invariant (I := fun s => Wf (code start) s.1 ∧
    (∃ logged, Group (view s.1) logged) ∧ (s.2.commits < 2 ^ 31 - 1 →
      Waiting (view s.1) s.2.commits ∧
        ∃ t c, Content start d (view s.1) s.2 t c ∧ Promise (view s.1) s.2 c))
    ⟨wf_boot start d, ⟨∅, group_boot d⟩, fun _ => ⟨waiting_boot d, .settled d, 0, content_boot hd,
      promise_boot d⟩⟩ (by
      rintro s a s' ⟨hwf, ⟨logged, hg⟩, hrest⟩ hhome hs
      obtain ⟨hstep, hhist⟩ := withHistory_eq_some.mp hs
      have hlog := logStep_of_step hwf hstep
      refine ⟨hwf.stepCase (.of_step hstep), ⟨_, hg.step hlog⟩, fun hfew => ?_⟩
      rw [hhist, Journal.note_commits] at hfew ⊢
      obtain ⟨hw, t, c, hc, hprom⟩ := hrest ((le_noteCommits _ _).trans_lt hfew)
      obtain ⟨t', c', hle, hc'⟩ := hc.step hg hlog hhome
      exact ⟨hw.step hg hlog hfew, t', c', hc', (hprom.step hc hg hw hlog hfew).mono hle⟩)
  exact ⟨hg, (hrest hfew).2⟩

theorem crashDisk_none (s : Store) (pt : Point) : (crashDisk start s pt fun _ => false) = s.disk := by
  unfold crashDisk
  split
  · rfl
  · exact update_eq_self ..

theorem Content.holds_of_crash {t : Txn} {c : ℕ} {logged : Finset ℕ} {d' : ℕ → Block}
    (hc : Content start d (view m) j t c) (hg : Group (view m) logged)
    (hcrash : CrashDisk start m d') : ∃ R, t.Outcome R ∧ Holds start d' R := by
  cases hcrash with
  | still =>
    cases hcom : (view m).shared.committing with
    | false => exact (hc.idle hcom).crashDisk fun _ => false
    | true =>
      obtain ⟨o, hheld, ho⟩ := hg.committer
      obtain ⟨p, rfl⟩ := Option.isSome_iff_exists.mp (ho.symm.trans hcom)
      have hcons := (hc.point p ((hheld p).mp rfl)).1
      have hnone := hcons.crashDisk fun _ => false
      rwa [crashDisk_none] at hnone
  | @torn p pt hp keep =>
    have hph : (view m).phase p = .committing pt := by rw [view_phase, hp]; rfl
    have hcons := (hc.point p (by rw [hph]; rfl)).1
    rw [hph] at hcons
    exact hcons.crashDisk keep

/-- **`sys_sync` makes ended operations durable.** -/
theorem sync_durable {d' : ℕ → Block} (hd : readHead (d start) = [])
    (hrun : Reach (journalStep start) (fun s a => LogsHome start (event s.1 a)) (boot d, .empty)
      (m, j)) (hfew : j.commits < 2 ^ 31 - 1) (hcrash : CrashDisk start m d') :
    ∃ c ≤ j.writes.length,
      (∀ i e, j.writes[i]? = some e → e.op < j.synced e.proc → i < c) ∧
      Kernel.Recovers start d' (replay d (j.writes.take c)) := by
  obtain ⟨⟨logged, hg⟩, t, c, hc, hprom⟩ := content_of_reach hd hrun hfew
  obtain ⟨R, hR, hholds⟩ := hc.holds_of_crash hg hcrash
  rcases hR.1 with rfl | rfl
  · rw [hc.before] at hholds
    exact ⟨c, hc.le, hprom.synced, Kernel.recovers_of_holds hholds⟩
  · rw [hc.after, ← List.take_length (l := j.writes)] at hholds
    exact ⟨_, le_rfl, j.settled_of_length_le le_rfl _, Kernel.recovers_of_holds hholds⟩

/-- The first process logs a block and its operation ends; while it commits, the second process calls
`sys_sync`, which returns after the commit. -/
theorem sync_durable_one : ∃ m j,
    Reach (journalStep 2) (fun s a => LogsHome 2 (event s.1 a)) (boot fun _ _ => 0, .empty) (m, j) ∧
    j.synced 0 = 1 ∧ j.writes.map (fun e => (e.block, e.op)) = [(40, 0)] ∧ m.ctl 1 = .run .user ∧
    ∀ d', CrashDisk 2 m d' → ∃ c ≤ j.writes.length,
      (∀ i e, j.writes[i]? = some e → e.op < j.synced e.proc → i < c) ∧
      Kernel.Recovers 2 d' (replay (fun _ _ => 0) (j.writes.take c)) := by
  obtain ⟨⟨m, j⟩, hrun, hf⟩ := exists_reach (journalStep 2)
    (fun s a => decide (LogsHome 2 (event s.1 a))) (boot fun _ _ => 0, .empty)
    (List.flatten [loggedOne, calls 0 .endOp 3, calls 1 .sysSync 7, steps 0 76, [.dispatch 1],
      steps 1 3])
    (fun s => (s.2.synced 0, s.2.writes.map (fun e => (e.block, e.op)), labelOf (s.1.ctl 1),
      s.2.commits)) (1, [(40, 0)], some .user, 1) (by decide +kernel)
  simp only [Prod.mk.injEq] at hf
  obtain ⟨hsynced, hwrites, hctl, hcommits⟩ := hf
  have hrun' := hrun.mono fun _ _ h => of_decide_eq_true h
  refine ⟨m, j, hrun', hsynced, hwrites, eq_run_of_labelOf hctl, fun d' hcrash => ?_⟩
  exact sync_durable (by decide) hrun' (by rw [hcommits]; decide) hcrash

end Xv6.Log

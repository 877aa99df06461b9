import Xv6.Log.Disk

/-!
# `commit` and `recover_from_log`

The two functions of `log.c` that write the disk, at the granularity of their `bwrite` calls:
`advance` executes the statements up to and including the next one.
-/

namespace Xv6.Log

open Function

/-- The blocks as the log code finds them, and the log header in memory. -/
structure Store where
  /-- What `bread` returns: the contents of the cached buffer, of the disk if there is none. -/
  view : ℕ → Block
  disk : ℕ → Block
  /-- `log.lh.block[0..log.lh.n)`, as block numbers. -/
  lh : List ℕ
  /-- The references to a block's buffer that `bpin` took and `bunpin` has not dropped. -/
  pins : ℕ → ℤ

namespace Store

/-- The kernel's memory after a boot: no buffer is cached and `log` is zero. -/
def boot (d : ℕ → Block) : Store := { view := d, disk := d, lh := [], pins := fun _ => 0 }

def bwrite (s : Store) (b : ℕ) (x : Block) : Store :=
  { s with view := update s.view b x, disk := update s.disk b x }

def bunpin (s : Store) (b : ℕ) : Store :=
  { s with pins := update s.pins b (s.pins b - 1) }

def logWrite (s : Store) (b : ℕ) (x : Block) : Store :=
  if b ∈ s.lh then { s with view := update s.view b x }
  else { s with
    view := update s.view b x
    lh := s.lh ++ [b]
    pins := update s.pins b (s.pins b + 1) }

@[simp] theorem logWrite_view (s : Store) (b : ℕ) (x : Block) :
    (s.logWrite b x).view = update s.view b x := by
  unfold logWrite
  split <;> rfl

@[simp] theorem logWrite_disk (s : Store) (b : ℕ) (x : Block) : (s.logWrite b x).disk = s.disk := by
  unfold logWrite
  split <;> rfl

theorem mem_logWrite_lh {s : Store} {b c : ℕ} {x : Block} :
    c ∈ (s.logWrite b x).lh ↔ c ∈ s.lh ∨ c = b := by
  unfold logWrite
  split
  · rename_i hmem
    exact ⟨.inl, fun hc => hc.elim id fun heq => heq ▸ hmem⟩
  · simp

theorem length_logWrite_lh_le (s : Store) (b : ℕ) (x : Block) :
    (s.logWrite b x).lh.length ≤ s.lh.length + 1 := by
  unfold logWrite
  split <;> simp

def readHead (start : ℕ) (s : Store) : Store := { s with lh := Log.readHead (s.view start) }

def writeHead (start : ℕ) (s : Store) : Store := s.bwrite start (putHead (s.view start) s.lh)

def writeLogAt (start : ℕ) (s : Store) (tail b : ℕ) : Store := s.bwrite (start + tail + 1) (s.view b)

/-- The body of the loop of `install_trans`, at entry `tail` of the header, which names block
`b`. -/
def installAt (start : ℕ) (s : Store) (recovering : Bool) (tail b : ℕ) : Store :=
  let s' := s.bwrite b (s.view (start + tail + 1))
  if recovering then s' else s'.bunpin b

end Store

inductive Point
  /-- Outside both. -/
  | idle
  | commit
  | writeLog (i : ℕ)
  | writeHead
  | install (recovering : Bool) (i : ℕ)
  /-- At the `write_head` that erases the transaction. -/
  | erase (recovering : Bool)
  /-- At the start of `recover_from_log`. -/
  | readHead
  deriving DecidableEq

/-- Execute the code up to and including its next `bwrite`, or to the end of the loop it is in. -/
def advance (start : ℕ) (s : Store) : Point → Store × Point
  | .idle => (s, .idle)
  | .commit => (s, if s.lh.length > 0 then .writeLog 0 else .idle)
  | .writeLog i =>
    match s.lh[i]? with
    | some b => (s.writeLogAt start i b, .writeLog (i + 1))
    | none => (s, .writeHead)
  | .writeHead => (s.writeHead start, .install false 0)
  | .install r i =>
    match s.lh[i]? with
    | some b => (s.installAt start r i b, .install r (i + 1))
    | none => ({ s with lh := [] }, .erase r)
  | .erase _ => (s.writeHead start, .idle)
  | .readHead => (s.readHead start, .install true 0)

def nextWrite (start : ℕ) (s : Store) : Point → Option (ℕ × Block)
  | .writeLog i => s.lh[i]?.map fun b => (start + i + 1, s.view b)
  | .writeHead | .erase _ => some (start, putHead (s.view start) s.lh)
  | .install _ i => s.lh[i]?.map fun b => (b, s.view (start + i + 1))
  | _ => none

def crashDisk (start : ℕ) (s : Store) (pt : Point) (keep : Sectors) : ℕ → Block :=
  match nextWrite start s pt with
  | none => s.disk
  | some (b, x) => update s.disk b (Block.torn keep (s.disk b) x)

/-! ## The invariant -/

/-- What a transaction is to do to the blocks outside the log. -/
structure Txn where
  before : ℕ → Block
  after : ℕ → Block
  /-- The header write of `commit` is complete. -/
  committed : Bool

namespace Txn

/-- The contents a crash may leave: all of the transaction or nothing of it, and all of it once the
header is written. -/
def Outcome (t : Txn) (R : ℕ → Block) : Prop :=
  (R = t.before ∨ R = t.after) ∧ (t.committed = true → R = t.after)

/-- How the code moves the transaction on. -/
def advance (t : Txn) (s : Store) : Point → Txn
  | .writeHead => { t with committed := true }
  | .erase false => { before := t.after, after := t.after, committed := false }
  | .erase true => { before := s.disk, after := s.disk, committed := false }
  | _ => t

theorem Outcome.of_after {t : Txn} : t.Outcome t.after := ⟨.inr rfl, fun _ => rfl⟩

theorem Outcome.of_before {t : Txn} (h : t.committed = false) : t.Outcome t.before :=
  ⟨.inl rfl, by simp [h]⟩

end Txn

/-- The transaction is in memory only, and the log on the disk is empty. -/
structure Pending (start : ℕ) (t : Txn) (s : Store) : Prop where
  ok : HeadOk start s.lh
  empty : readHead (s.disk start) = []
  before : Set.EqOn s.disk t.before (home start)
  after : ∀ b ∈ home start, t.after b = if b ∈ s.lh then s.view b else t.before b
  committed : t.committed = false

def Copied (start : ℕ) (s : Store) (i : ℕ) : Prop :=
  ∀ j < i, ∀ b, s.lh[j]? = some b → s.disk (start + j + 1) = s.view b ∧
    s.view (start + j + 1) = s.view b

/-- `install_trans` has copied the first `i` blocks of the header to their places. -/
structure Installing (start : ℕ) (R : ℕ → Block) (s : Store) (i : ℕ) : Prop where
  holds : Holds start s.disk R
  head : readHead (s.disk start) = s.lh
  view : ∀ j b, s.lh[j]? = some b → s.view (start + j + 1) = R b
  done : ∀ j < i, ∀ b, s.lh[j]? = some b → s.disk b = R b

/-- Every block is at its place; the header may still name some of them. -/
structure Installed (start : ℕ) (R : ℕ → Block) (s : Store) : Prop where
  holds : Holds start s.disk R
  lh : s.lh = []
  place : Set.EqOn s.disk R (home start)

def Consistent (start : ℕ) (t : Txn) (s : Store) : Point → Prop
  | .idle | .commit => Pending start t s
  | .writeLog i => Pending start t s ∧ Copied start s i
  | .writeHead => Pending start t s ∧ Copied start s s.lh.length
  | .install r i => ∃ R, t.Outcome R ∧ (r = false → R = t.after) ∧ Installing start R s i
  | .erase r => ∃ R, t.Outcome R ∧ (r = false → R = t.after) ∧ Installed start R s
  | .readHead => ∃ R, t.Outcome R ∧ Holds start s.disk R ∧ s.view = s.disk

variable {start : ℕ} {t : Txn} {s : Store}

theorem Pending.holds (h : Pending start t s) : Holds start s.disk t.before :=
  .of_empty h.empty h.before

theorem HeadOk.readHead_putHead (h : HeadOk start s.lh) (b : Block) :
    readHead (putHead b s.lh) = s.lh := Log.readHead_putHead h.length_le h.uint

theorem Pending.update_head (h : Pending start t s) (hcopied : Copied start s s.lh.length)
    {x : Block} (hx : readHead x = s.lh) : Holds start (update s.disk start x) t.after := by
  refine .update_head (hx ▸ h.ok) (fun i b hi => ?_) (fun b hb hnot => ?_)
  · rw [hx] at hi
    have hlt := (List.getElem?_eq_some_iff.mp hi).1
    have hmem := List.mem_of_getElem? hi
    rw [(hcopied i hlt b hi).1, h.after b (h.ok.home b hmem), if_pos hmem]
  · rw [hx] at hnot
    rw [h.before hb, h.after b hb, if_neg hnot]

/-- **What a crash leaves**: at every point of `commit` and `recover_from_log`, and whichever sectors
of the block being written reach the disk, the disk holds one of the outcomes. -/
theorem Consistent.crashDisk {pt : Point} (h : Consistent start t s pt) (keep : Sectors) :
    ∃ R, t.Outcome R ∧ Holds start (crashDisk start s pt keep) R := by
  cases pt with
  | idle | commit => exact ⟨t.before, .of_before h.committed, Pending.holds h⟩
  | writeLog i =>
    obtain ⟨hp, -⟩ := h
    refine ⟨t.before, .of_before hp.committed, ?_⟩
    simp only [Log.crashDisk, nextWrite]
    cases hi : s.lh[i]? with
    | none => exact hp.holds
    | some b => exact hp.holds.update_logBlock hp.empty (hp.ok.lt hi) _
  | writeHead =>
    obtain ⟨hp, hcopied⟩ := h
    have hnew := hp.ok.readHead_putHead (s.view start)
    rcases readHead_torn keep (s.disk start) _ (by simp [hp.empty]) (hnew ▸ hp.ok.length_le)
      with htorn | htorn
    · rw [hp.empty] at htorn
      exact ⟨t.before, .of_before hp.committed,
        .update_head (htorn ▸ .nil start) (by simp [htorn]) fun b hb _ => hp.before hb⟩
    · exact ⟨t.after, .of_after, hp.update_head hcopied (htorn.trans hnew)⟩
  | install r i =>
    obtain ⟨R, hR, -, hi⟩ := h
    refine ⟨R, hR, ?_⟩
    simp only [Log.crashDisk, nextWrite]
    cases hb : s.lh[i]? with
    | none => exact hi.holds
    | some b => exact hi.holds.update_logged (hi.head ▸ List.mem_of_getElem? hb) _
  | erase r =>
    obtain ⟨R, hR, -, hi⟩ := h
    refine ⟨R, hR, ?_⟩
    have hnew : readHead (putHead (s.view start) s.lh) = [] := by
      rw [hi.lh]
      exact Log.readHead_putHead (by simp) (by simp)
    rcases readHead_torn keep _ (putHead (s.view start) s.lh) hi.holds.ok.length_le (by simp [hnew])
      with htorn | htorn
    · refine .update_head (htorn ▸ hi.holds.ok) (fun i b hb => ?_) (fun b hb _ => hi.place hb)
      exact hi.holds.logged i b (htorn ▸ hb)
    · rw [hnew] at htorn
      exact .update_head (htorn ▸ .nil start) (by simp [htorn]) fun b hb _ => hi.place hb
  | readHead =>
    obtain ⟨R, hR, hholds, -⟩ := h
    exact ⟨R, hR, hholds⟩

/-! ## One `bwrite` -/

theorem Pending.writeLogAt (h : Pending start t s) {i b : ℕ} (hi : s.lh[i]? = some b) :
    Pending start t (s.writeLogAt start i b) := by
  have hlog : ∀ c ∈ home start, c ≠ start + i + 1 := fun c hc heq =>
    logBlock_notMem_home (h.ok.lt hi) (heq ▸ hc)
  refine ⟨h.ok, ?_, fun c hc => ?_, fun c hc => ?_, h.committed⟩
  · exact (congrArg readHead (update_of_ne (by omega) _ _)).trans h.empty
  · exact (update_of_ne (hlog c hc) _ _).trans (h.before hc)
  · rw [h.after c hc]
    exact congrArg (if c ∈ s.lh then · else t.before c) (update_of_ne (hlog c hc) _ _).symm

theorem Copied.writeLogAt {i b : ℕ} (h : Copied start s i) (hok : HeadOk start s.lh)
    (hi : s.lh[i]? = some b) : Copied start (s.writeLogAt start i b) (i + 1) := by
  intro j hj c hc
  -- the blocks the header names are not written
  have hview : ∀ e ∈ s.lh, (s.writeLogAt start i b).view e = s.view e := fun e he =>
    update_of_ne (fun heq => logBlock_notMem_home (hok.lt hi) (heq ▸ hok.home e he)) _ _
  rw [hview c (List.mem_of_getElem? hc)]
  by_cases hji : j = i
  · subst hji
    obtain rfl : b = c := Option.some.inj (hi.symm.trans hc)
    exact ⟨update_self _ _ _, update_self _ _ _⟩
  · have hne : start + j + 1 ≠ start + i + 1 := by omega
    have hcopied := h j (by omega) c hc
    exact ⟨(update_of_ne hne _ _).trans hcopied.1, (update_of_ne hne _ _).trans hcopied.2⟩

theorem Pending.writeHead (h : Pending start t s) (hcopied : Copied start s s.lh.length) :
    Installing start t.after (s.writeHead start) 0 := by
  have hnew := h.ok.readHead_putHead (s.view start)
  refine ⟨h.update_head hcopied hnew, ?_, fun j b hj => ?_, fun j hj => absurd hj (by omega)⟩
  · exact (congrArg readHead (update_self _ _ _)).trans hnew
  have hmem : b ∈ s.lh := List.mem_of_getElem? hj
  have hlt := (List.getElem?_eq_some_iff.mp hj).1
  rw [h.after b (h.ok.home b hmem), if_pos hmem, ← (hcopied j hlt b hj).2]
  exact update_of_ne (by omega) _ _

variable {R : ℕ → Block}

theorem Installing.installAt {i b : ℕ} (h : Installing start R s i)
    (hi : s.lh[i]? = some b) (r : Bool) : Installing start R (s.installAt start r i b) (i + 1) := by
  suffices hw : Installing start R (s.bwrite b (s.view (start + i + 1))) (i + 1) by
    cases r
    · exact ⟨hw.holds, hw.head, hw.view, hw.done⟩
    · exact hw
  have hok := h.head ▸ h.holds.ok
  have hmem := List.mem_of_getElem? hi
  have hhome := hok.home b hmem
  have hstart : start ≠ b := fun heq => start_notMem_home start (heq ▸ hhome)
  refine ⟨h.holds.update_logged (h.head ▸ hmem) _, ?_, fun j c hc => ?_, fun j hj c hc => ?_⟩
  · exact (congrArg readHead (update_of_ne hstart _ _)).trans h.head
  · have hne : start + j + 1 ≠ b := fun heq => logBlock_notMem_home (hok.lt hc) (heq ▸ hhome)
    exact (update_of_ne hne _ _).trans (h.view j c hc)
  by_cases hcb : c = b
  · subst hcb
    exact (update_self _ _ _).trans (h.view i c hi)
  have hji : j ≠ i := by
    rintro rfl
    exact hcb (Option.some.inj (hc.symm.trans hi))
  exact (update_of_ne hcb _ _).trans (h.done j (by omega) c hc)

theorem Installing.finish {i : ℕ} (h : Installing start R s i)
    (hi : s.lh[i]? = none) : Installed start R { s with lh := [] } := by
  refine ⟨h.holds, rfl, fun b hb => ?_⟩
  by_cases hmem : b ∈ s.lh
  · obtain ⟨j, hj⟩ := List.mem_iff_getElem?.mp hmem
    have hlt := (List.getElem?_eq_some_iff.mp hj).1
    have hle := List.getElem?_eq_none_iff.mp hi
    exact h.done j (by omega) b hj
  · exact h.holds.inPlace b hb (h.head ▸ hmem)

theorem Installed.writeHead (h : Installed start R s)
    (hR : Set.EqOn R t.before (home start)) (ht : t.after = t.before) (hc : t.committed = false) :
    Pending start t (s.writeHead start) := by
  have hlh : (s.writeHead start).lh = [] := h.lh
  refine ⟨hlh ▸ .nil start, ?_, fun b hb => ?_, fun b _ => by simp [hlh, ht], hc⟩
  · refine (congrArg readHead (update_self _ _ _)).trans ?_
    rw [h.lh]
    exact readHead_putHead (by simp) (by simp)
  · have hne : b ≠ start := fun heq => start_notMem_home start (heq ▸ hb)
    exact (update_of_ne hne _ _).trans ((h.place hb).trans (hR hb))

theorem Consistent.advance {pt : Point} (h : Consistent start t s pt) :
    Consistent start (t.advance s pt) (advance start s pt).1 (advance start s pt).2 := by
  cases pt with
  | idle => exact h
  | commit =>
    simp only [Log.advance]
    split
    · exact ⟨h, fun j hj => absurd hj (by omega)⟩
    · exact h
  | writeLog i =>
    obtain ⟨hp, hcopied⟩ := h
    simp only [Log.advance]
    cases hi : s.lh[i]? with
    | none =>
      have hle := List.getElem?_eq_none_iff.mp hi
      exact ⟨hp, fun j hj => hcopied j (hj.trans_le hle)⟩
    | some b => exact ⟨hp.writeLogAt hi, hcopied.writeLogAt hp.ok hi⟩
  | writeHead => exact ⟨t.after, .of_after, fun _ => rfl, h.1.writeHead h.2⟩
  | install r i =>
    obtain ⟨R, hR, hr, hinst⟩ := h
    simp only [Log.advance]
    cases hi : s.lh[i]? with
    | none => exact ⟨R, hR, hr, hinst.finish hi⟩
    | some b => exact ⟨R, hR, hr, hinst.installAt hi r⟩
  | erase r =>
    obtain ⟨R, -, hr, hinst⟩ := h
    cases r with
    | false => exact hinst.writeHead (fun b _ => by rw [hr rfl]; rfl) rfl rfl
    | true => exact hinst.writeHead hinst.place.symm rfl rfl
  | readHead =>
    obtain ⟨R, hR, hholds, hview⟩ := h
    refine ⟨R, hR, fun hr => absurd hr (by decide), hholds, ?_, fun j b hj => ?_, fun j hj => ?_⟩
    · exact congrArg (fun v => readHead (v start)) hview.symm
    · refine (congrFun hview _).trans (hholds.logged j b ?_)
      rwa [← hview]
    · exact absurd hj (by omega)

theorem Pending.logWrite (h : Pending start t s) {b : ℕ} (hb : b ∈ home start) (huint : b < 2 ^ 32)
    (hroom : s.lh.length < LOGBLOCKS) (x : Block) :
    Pending start { t with after := update t.after b x } (s.logWrite b x) := by
  have hdisk := Store.logWrite_disk s b x
  refine ⟨⟨?_, fun c hc => ?_, fun c hc => ?_⟩, hdisk ▸ h.empty, hdisk ▸ h.before, fun c hc => ?_,
    h.committed⟩
  · exact (Store.length_logWrite_lh_le s b x).trans hroom
  · rcases Store.mem_logWrite_lh.mp hc with hc | rfl
    · exact h.ok.home c hc
    · exact hb
  · rcases Store.mem_logWrite_lh.mp hc with hc | rfl
    · exact h.ok.uint c hc
    · exact huint
  simp only [Store.mem_logWrite_lh, Store.logWrite_view, update_apply]
  by_cases hcb : c = b
  · simp [hcb]
  · simp [hcb, h.after c hc]

end Xv6.Log

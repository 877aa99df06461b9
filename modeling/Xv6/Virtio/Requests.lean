import Xv6.Foundations.Allotment
import Xv6.Foundations.Mutex
import Xv6.Virtio.Descriptors

/-!
# Requests on their way

A request goes from its caller through the avail ring to the device, and through the used ring back
to `virtio_disk_intr`.
-/

namespace Xv6.Virtio

open Mutex List

variable {ι β : Type}

/-! ## Threads -/

namespace Pc

def holds : Pc β → Bool
  | .rwAlloc _ | .rwUnlock _ | .intrTest | .intrBody | .intrUnlock => true
  | .rwOwn _ _ .sleep | .rwOwn _ _ .woken => false
  | .rwOwn _ _ _ => true
  | _ => false

def call : Pc β → Option (Call β)
  | .rwLock c | .rwAlloc c | .rwSleep c | .rwWoken c | .rwOwn c _ _ | .rwUnlock c => some c
  | _ => none

def chain : Pc β → List ℕ
  | .rwOwn _ idx _ => idx.list
  | _ => []

end Pc

/-! ## Places -/

inductive Place
  /-- With the driver. -/
  | away
  /-- In the avail ring, or found there by the device. -/
  | queued
  | performed
  /-- In the used ring. -/
  | completed
  deriving DecidableEq

def Call.life (c : Call β) : List (Ev β) := [.performed c.op, .used, .cleared c.b, .returned]

def Place.events : Place → ℕ
  | .queued => 0
  | .performed => 1
  | .completed => 2
  | .away => 3

namespace State

def queued (s : State ι β) : List ℕ :=
  Window.entries NUM M16 s.avail.ring s.seen s.avail.idx

def completed (s : State ι β) : List ℕ :=
  Window.entries NUM M16 s.used.ring s.usedIdx s.used.idx

def transit (s : State ι β) : List ℕ :=
  s.queued ++ (s.working ++ (s.performed ++ (s.pushing.toList ++ s.completed)))

def place (s : State ι β) (h : ℕ) : Place :=
  if h ∈ s.queued ∨ h ∈ s.working then .queued
  else if h ∈ s.performed ∨ s.pushing = some h then .performed
  else if h ∈ s.completed then .completed
  else .away

def events (s : State ι β) (r : ℕ) : List (Ev β) := (s.log.filter fun x => x.1 = r).map Prod.snd

structure Bounded (s : State ι β) : Prop where
  avail : s.avail.idx < M16
  seen : s.seen < M16
  used : s.used.idx < M16
  usedIdx : s.usedIdx < M16

theorem Bounded.completed_eq_nil {s : State ι β} (h : s.Bounded) :
    s.completed = [] ↔ s.usedIdx = s.used.idx := Window.entries_eq_nil h.usedIdx h.used _

theorem place_eq_away (s : State ι β) (h : ℕ) : s.place h = .away ↔ h ∉ s.transit := by
  rw [place]
  split_ifs with h1 h2 h3
  · simp only [false_iff, not_not, transit, mem_append]
    tauto
  · simp only [false_iff, not_not, transit, mem_append, Option.mem_toList]
    tauto
  · simp only [false_iff, not_not, transit, mem_append]
    tauto
  · simp only [true_iff, transit, mem_append, Option.mem_toList]
    tauto

theorem events_append {s s' : State ι β} {r : ℕ} {ev : Ev β} (h : s'.log = s.log ++ [(r, ev)])
    (r' : ℕ) : s'.events r' = s.events r' ++ if r' = r then [ev] else [] := by
  rw [events, h, filter_append, map_append, events]
  by_cases hr : r' = r
  · simp [hr]
  · simp [hr, Ne.symm hr]

variable {s s' : State ι β} {i : ℕ}

theorem place_congr (hqueued : i ∈ s'.queued ∨ i ∈ s'.working ↔ i ∈ s.queued ∨ i ∈ s.working)
    (hperformed : i ∈ s'.performed ∨ s'.pushing = some i ↔ i ∈ s.performed ∨ s.pushing = some i)
    (hcompleted : i ∈ s'.completed ↔ i ∈ s.completed) : s'.place i = s.place i := by
  simp only [place, hqueued, hperformed, hcompleted]

theorem count_transit (s : State ι β) (i : ℕ) : s.transit.count i = s.queued.count i +
    s.working.count i + s.performed.count i + s.pushing.toList.count i + s.completed.count i := by
  simp only [transit, count_append]
  omega

theorem nodup_transit : s.transit.Nodup ↔ s.queued.Nodup ∧ s.working.Nodup ∧ s.performed.Nodup ∧
    s.completed.Nodup ∧ (∀ i ∈ s.queued, i ∉ s.working ∧ i ∉ s.performed ∧ s.pushing ≠ some i ∧
      i ∉ s.completed) ∧ (∀ i ∈ s.working, i ∉ s.performed ∧ s.pushing ≠ some i ∧
      i ∉ s.completed) ∧ (∀ i ∈ s.performed, s.pushing ≠ some i ∧ i ∉ s.completed) ∧
      ∀ i, s.pushing = some i → i ∉ s.completed := by
  have hpush : s.pushing.toList.Nodup := by cases s.pushing <;> simp
  simp only [transit, nodup_append, mem_append, Option.mem_toList]
  grind

theorem place_performed (hnodup : s.transit.Nodup) (hi : i ∈ s.performed ∨ s.pushing = some i) :
    s.place i = .performed := by
  rw [nodup_transit] at hnodup
  rw [place, if_neg (by grind), if_pos hi]

theorem place_completed (hnodup : s.transit.Nodup) (hi : i ∈ s.completed) :
    s.place i = .completed := by
  rw [nodup_transit] at hnodup
  rw [place, if_neg (by grind), if_neg (by grind), if_pos hi]

end State

/-! ## What the state says of a request -/

structure View (β : Type) where
  desc0 : Desc β
  desc1 : Desc β
  desc2 : Desc β
  op : BlkReq
  info : Info β
  req : ℕ
  disk : Bool
  place : Place
  events : List (Ev β)

def State.view (s : State ι β) (c : Call β) (idx : Idx) : View β where
  desc0 := s.desc idx.i0
  desc1 := s.desc idx.i1
  desc2 := s.desc idx.i2
  op := s.ops idx.i0
  info := s.info idx.i0
  req := s.reqAt idx.i0
  disk := s.disk c.b
  place := s.place idx.i0
  events := s.events c.req

structure Formatted (c : Call β) (idx : Idx) (v : View β) : Prop where
  desc0 : v.desc0 = ⟨.ops idx.i0, 16, VRING_DESC_F_NEXT, idx.i1⟩
  desc1 : v.desc1 = ⟨.data c.b, BSIZE,
    (if c.write then 0 else VRING_DESC_F_WRITE) ||| VRING_DESC_F_NEXT, idx.i2⟩
  desc2 : v.desc2 = ⟨.status idx.i0, 1, VRING_DESC_F_WRITE, 0⟩
  op : v.op = ⟨if c.write then VIRTIO_BLK_T_OUT else VIRTIO_BLK_T_IN, 0, c.sector⟩
  b : v.info.b = some c.b
  req : v.req = c.req

theorem Formatted.flags {c : Call β} {idx : Idx} {v : View β} (h : Formatted c idx v) :
    v.desc0.hasNext = true ∧ v.desc1.hasNext = true ∧ v.desc2.hasNext = false ∧
      v.desc1.deviceWrites = !c.write ∧ v.desc2.deviceWrites = true := by
  rw [h.desc0, h.desc1, h.desc2]
  cases c.write <;> simp [Desc.hasNext, Desc.deviceWrites, VRING_DESC_F_NEXT, VRING_DESC_F_WRITE]

/-- The request was handed over: `b->disk` is set until it is back, and what has happened to it is
what its place says. -/
structure Published (c : Call β) (v : View β) : Prop where
  disk : v.disk = true ↔ v.place ≠ .away
  events : v.events = c.life.take v.place.events
  status : v.place = .performed ∨ v.place = .completed → v.info.status = 0

structure Unpublished (v : View β) : Prop where
  place : v.place = .away
  events : v.events = []

def OwnOk (c : Call β) (idx : Idx) : Own → View β → Prop
  | .format, v => Unpublished v
  | .avail, v | .bump, v => Formatted c idx v ∧ v.disk = true ∧ Unpublished v
  | .test, v | .sleep, v | .woken, v => Formatted c idx v ∧ Published c v
  | .reclaim, v => Formatted c idx v ∧ v.place = .away ∧ v.events = c.life.take 3

def PcOk (s : State ι β) : Pc β → Prop
  | .idle | .intrLock | .intrTest | .intrUnlock => True
  | .rwLock c | .rwAlloc c | .rwSleep c | .rwWoken c => s.events c.req = []
  | .rwOwn c idx o => OwnOk c idx o (s.view c idx) ∧
    (o = .bump → s.avail.ring (s.avail.idx % NUM) = idx.i0)
  | .rwUnlock c => s.events c.req = c.life.take 3
  | .intrBody => s.usedIdx ≠ s.used.idx

/-- The calls of `virtio_disk_rw`: a caller holds the lock of its buffer, and calls are numbered. -/
structure Calls (s : State ι β) : Prop where
  held : ∀ p c, (s.pc p).call = some c → s.bufLock c.b = some p
  mem : ∀ p c, (s.pc p).call = some c → c ∈ s.called
  numbered : ∀ c ∈ s.called, s.called[c.req]? = some c
  finished : ∀ c ∈ s.called, (∀ p, (s.pc p).call ≠ some c) → s.events c.req = c.life
  fresh : ∀ r, s.called.length ≤ r → s.events r = []

structure Inv (s : State ι β) : Prop where
  healthy : s.fault = none
  excl : Held s.vdiskLock Pc.holds s.pc
  share : Allotment NUM s.free fun p => (s.pc p).chain
  calls : Calls s
  bounded : s.Bounded
  nodup : s.transit.Nodup
  reporting : ∀ i, s.pushing = some i → s.used.ring (s.used.idx % NUM) = i
  heads : ∀ h ∈ s.transit, ∃ p, (s.pc p).chain.head? = some h
  pcs : ∀ p, PcOk s (s.pc p)

/-! ## Waking -/

/-- Two places that differ in nothing but whether the thread is awake. -/
structure Pc.Same (ι : Type) (pc pc' : Pc β) : Prop where
  holds : pc'.holds = pc.holds
  call : pc'.call = pc.call
  chain : pc'.chain = pc.chain
  ok : ∀ {s : State ι β}, PcOk s pc → PcOk s pc'

namespace Pc.Same

theorem refl (pc : Pc β) : Same ι pc pc := ⟨rfl, rfl, rfl, id⟩

theorem sleep_woken (c : Call β) (idx : Idx) : Same ι (.rwOwn c idx .sleep) (.rwOwn c idx .woken) :=
  ⟨rfl, rfl, rfl, fun h => ⟨h.1, by simp⟩⟩

theorem rwSleep_rwWoken (c : Call β) : Same ι (.rwSleep c) (.rwWoken c) := ⟨rfl, rfl, rfl, id⟩

theorem rouse (pc : Pc β) : Same ι pc pc.rouse := by
  cases pc with
  | rwSleep c => exact rwSleep_rwWoken c
  | rwOwn c idx o =>
    cases o with
    | sleep => exact sleep_woken c idx
    | _ => exact refl _
  | _ => exact refl _

theorem wake [DecidableEq β] (ch : Chan β) (pc : Pc β) : Same ι pc (pc.wake ch) := by
  cases ch with
  | free =>
    cases pc with
    | rwSleep c => exact rwSleep_rwWoken c
    | _ => exact refl _
  | buf b =>
    cases pc with
    | rwOwn c idx o =>
      cases o with
      | sleep =>
        rw [Pc.wake]
        split
        · exact sleep_woken c idx
        · exact refl _
      | _ => exact refl _
    | _ => exact refl _

theorem intrBody_intrTest : Same ι (.intrBody : Pc β) .intrTest := ⟨rfl, rfl, rfl, fun _ => trivial⟩

end Pc.Same

theorem State.Freed.cases [DecidableEq β] {s s' : State ι β} {l : List ℕ} (h : s.Freed l s') :
    ∃ desc free pc, s' = { s with desc := desc, free := free, pc := pc } ∧
      (∀ i, free i = (s.free i || decide (i ∈ l))) ∧ (∀ i ∉ l, desc i = s.desc i) ∧
      ∀ q, Pc.Same ι (s.pc q) (pc q) := by
  refine ⟨s'.desc, s'.free, s'.pc, h.rest, h.free, h.desc, fun q => ?_⟩
  rcases h.pc with hpc | hpc
  · rw [hpc]
    exact .refl _
  · rw [hpc]
    exact .wake _ _

/-! ## Frames -/

theorem PcOk.frame {s s' : State ι β} {pc : Pc β} (h : PcOk s pc)
    (hevents : ∀ c, pc.call = some c → s'.events c.req = s.events c.req)
    (hview : ∀ c idx o, pc = .rwOwn c idx o → s'.view c idx = s.view c idx)
    (hbump : ∀ c idx, pc = .rwOwn c idx .bump →
      s'.avail.ring (s'.avail.idx % NUM) = s.avail.ring (s.avail.idx % NUM))
    (hbody : pc = .intrBody → s.usedIdx ≠ s.used.idx → s'.usedIdx ≠ s'.used.idx) : PcOk s' pc := by
  cases pc with
  | idle | intrLock | intrTest | intrUnlock => trivial
  | rwLock c | rwAlloc c | rwSleep c | rwWoken c => exact (hevents c rfl).trans h
  | rwOwn c idx o =>
    refine ⟨?_, fun ho => ?_⟩
    · rw [hview c idx o rfl]
      exact h.1
    · subst ho
      rw [hbump c idx rfl]
      exact h.2 rfl
  | rwUnlock c => exact (hevents c rfl).trans h
  | intrBody => exact hbody rfl h

theorem State.view_congr {s s' : State ι β} {c : Call β} {idx : Idx}
    (hdesc : ∀ i ∈ idx.list, s'.desc i = s.desc i) (hops : s'.ops idx.i0 = s.ops idx.i0)
    (hinfo : s'.info idx.i0 = s.info idx.i0) (hreq : s'.reqAt idx.i0 = s.reqAt idx.i0)
    (hdisk : s'.disk c.b = s.disk c.b) (hplace : s'.place idx.i0 = s.place idx.i0)
    (hevents : s'.events c.req = s.events c.req) : s'.view c idx = s.view c idx := by
  simp only [Idx.list, mem_cons, not_mem_nil, or_false, forall_eq_or_imp, forall_eq] at hdesc
  simp only [State.view, hdesc, hops, hinfo, hreq, hdisk, hplace, hevents]

namespace Inv

variable {s : State ι β} {p q : ι} {c c' : Call β} {idx idx' : Idx} {o o' : Own}

theorem mem_chain (hp : s.pc p = .rwOwn c idx o) : idx.i0 ∈ (s.pc p).chain := by
  simp [hp, Pc.chain, Idx.list]

theorem buf_ne (h : Inv s) (hp : (s.pc p).call = some c) (hq : (s.pc q).call = some c')
    (hne : q ≠ p) : c'.b ≠ c.b := by
  intro heq
  have hb := h.calls.held q c' hq
  rw [heq, h.calls.held p c hp] at hb
  exact hne (Option.some.inj hb).symm

theorem req_ne (h : Inv s) (hp : (s.pc p).call = some c) (hq : (s.pc q).call = some c')
    (hne : q ≠ p) : c'.req ≠ c.req := by
  intro heq
  have hc := h.calls.numbered c (h.calls.mem p c hp)
  have hc' := h.calls.numbered c' (h.calls.mem q c' hq)
  rw [heq, hc] at hc'
  exact h.buf_ne hp hq hne (by rw [Option.some.inj hc'])

theorem owner (h : Inv s) {i : ℕ} (hi : i ∈ s.transit) : ∃ p c idx o, s.pc p = .rwOwn c idx o ∧
    idx.i0 = i ∧ (o = .test ∨ o = .sleep ∨ o = .woken) ∧ Formatted c idx (s.view c idx) ∧
    Published c (s.view c idx) := by
  obtain ⟨p, hp⟩ := h.heads i hi
  have hok := h.pcs p
  cases hpc : s.pc p with
  | rwOwn c idx o =>
    rw [hpc] at hp hok
    have hhead : idx.i0 = i := by simpa [Pc.chain, Idx.list] using hp
    have hplace : (s.view c idx).place ≠ .away := by
      change s.place idx.i0 ≠ .away
      rw [ne_eq, State.place_eq_away, hhead, not_not]
      exact hi
    refine ⟨p, c, idx, o, hpc, hhead, ?_⟩
    cases o with
    | format => exact absurd hok.1.place hplace
    | avail | bump => exact absurd hok.1.2.2.place hplace
    | test => exact ⟨.inl rfl, hok.1⟩
    | sleep => exact ⟨.inr (.inl rfl), hok.1⟩
    | woken => exact ⟨.inr (.inr rfl), hok.1⟩
    | reclaim => exact absurd hok.1.2.1 hplace
  | _ => simp [hpc, Pc.chain] at hp

theorem transit_lt (h : Inv s) {i : ℕ} (hi : i ∈ s.transit) : i < NUM := by
  obtain ⟨p, hp⟩ := h.heads i hi
  exact h.share.lt p i (mem_of_mem_head? hp)

end Inv

theorem length_le_num {l : List ℕ} (hnodup : l.Nodup) (hlt : ∀ i ∈ l, i < NUM) :
    l.length ≤ NUM := by
  rw [← toFinset_card_of_nodup hnodup, ← Finset.card_range NUM]
  refine Finset.card_le_card fun i hi => ?_
  exact Finset.mem_range.2 (hlt i (mem_toFinset.1 hi))

end Xv6.Virtio

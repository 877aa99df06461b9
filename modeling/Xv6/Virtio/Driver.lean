import Xv6.Virtio.Requests

/-!
# Rules for the steps of the driver

A thread that takes or gives up the lock, or tests something, keeps the invariant by `Inv.move`.
-/

namespace Xv6.Virtio

open Mutex Function

variable {ι β : Type} {s s' : State ι β} {p : ι} {pc' : Pc β} {c : Call β}
  {idx : Idx}

/-! ## Calls -/

namespace Calls

theorem congr (h : Calls s) (hcall : ∀ q, (s'.pc q).call = (s.pc q).call)
    (hbuf : s'.bufLock = s.bufLock) (hcalled : s'.called = s.called)
    (hfinished : ∀ c ∈ s.called, (∀ p, (s.pc p).call ≠ some c) → s'.events c.req = s.events c.req)
    (hfresh : ∀ r, s.called.length ≤ r → s'.events r = s.events r) : Calls s' where
  held q c hq := by
    rw [hcall] at hq
    rw [hbuf]
    exact h.held q c hq
  mem q c hq := by
    rw [hcall] at hq
    rw [hcalled]
    exact h.mem q c hq
  numbered c hc := by
    rw [hcalled] at hc ⊢
    exact h.numbered c hc
  finished c hc hq := by
    rw [hcalled] at hc
    simp only [hcall] at hq
    rw [hfinished c hc hq]
    exact h.finished c hc hq
  fresh r hr := by
    rw [hcalled] at hr
    rw [hfresh r hr]
    exact h.fresh r hr

theorem req_lt (h : Calls s) (hc : c ∈ s.called) : c.req < s.called.length := by
  obtain ⟨hlt, -⟩ := List.getElem?_eq_some_iff.1 (h.numbered c hc)
  exact hlt

theorem eq_of_req (h : Calls s) {c' : Call β} (hc : c ∈ s.called) (hc' : c' ∈ s.called)
    (hreq : c'.req = c.req) : c' = c := by
  have hnum := h.numbered c' hc'
  rw [hreq, h.numbered c hc] at hnum
  exact (Option.some.inj hnum).symm

theorem event (h : Calls s) {ev : Ev β} (hp : (s.pc p).call = some c)
    (hcall : ∀ q, (s'.pc q).call = (s.pc q).call) (hbuf : s'.bufLock = s.bufLock)
    (hcalled : s'.called = s.called) (hlog : s'.log = s.log ++ [(c.req, ev)]) : Calls s' := by
  refine h.congr hcall hbuf hcalled (fun c' hc' hq => ?_) fun r hr => ?_
  · have hne : c'.req ≠ c.req := by
      intro hreq
      rw [h.eq_of_req (h.mem p c hp) hc' hreq] at hq
      exact hq p hp
    rw [State.events_append hlog, if_neg hne, List.append_nil]
  · have hlt := h.req_lt (h.mem p c hp)
    rw [State.events_append hlog, if_neg (by omega), List.append_nil]

end Calls

/-! ## Taking and giving up the lock -/

variable [DecidableEq ι]

theorem goto_pc (s : State ι β) (p : ι) (pc' : Pc β) (q : ι) :
    (s.goto p pc').pc q = if q = p then pc' else s.pc q := update_apply ..

theorem chain_goto (s : State ι β) (p : ι) (pc' : Pc β) : (fun q => ((s.goto p pc').pc q).chain) =
      update (fun q => (s.pc q).chain) p pc'.chain := by
  funext q
  rw [goto_pc, update_apply]
  split <;> rfl

theorem read_goto {α : Type} {f : Pc β → α} (hf : f pc' = f (s.pc p)) (q : ι) :
    f ((s.goto p pc').pc q) = f (s.pc q) := by
  rw [goto_pc]
  split
  case isTrue hq => rw [hq, hf]
  case isFalse => rfl

namespace Inv

/-- **A thread goes on**, and keeps its call and its descriptors. -/
theorem move {lock' : Option ι} (h : Inv s)
    (hheld : Held lock' Pc.holds (update s.pc p pc'))
    (hchain : pc'.chain = (s.pc p).chain) (hcall : pc'.call = (s.pc p).call) (hok : PcOk s pc') :
    Inv { s.goto p pc' with vdiskLock := lock' } where
  healthy := h.healthy
  excl := hheld
  share := by
    have hshare := h.share
    rwa [← funext (read_goto (f := Pc.chain) hchain)] at hshare
  calls := h.calls.congr (read_goto hcall) rfl rfl (fun _ _ _ => rfl) fun _ _ => rfl
  bounded := ⟨h.bounded.avail, h.bounded.seen, h.bounded.used, h.bounded.usedIdx⟩
  nodup := h.nodup
  reporting := h.reporting
  heads i hi := by
    obtain ⟨q, hq⟩ := h.heads i hi
    exact ⟨q, (congrArg List.head? (read_goto hchain q)).trans hq⟩
  pcs q := by
    have hq : PcOk s ((s.goto p pc').pc q) := by
      rw [goto_pc]
      split
      · exact hok
      · exact h.pcs q
    exact hq.frame (fun _ _ => rfl) (fun _ _ _ _ => rfl) (fun _ _ _ => rfl) fun _ => id

theorem stay (h : Inv s) (hholds : pc'.holds = (s.pc p).holds)
    (hchain : pc'.chain = (s.pc p).chain) (hcall : pc'.call = (s.pc p).call) (hok : PcOk s pc') :
    Inv (s.goto p pc') := h.move (h.excl.stay hholds) hchain hcall hok

theorem acquire (h : Inv s) (hs : s.acquire p pc' = some s') (hholds : pc'.holds = true)
    (hchain : pc'.chain = (s.pc p).chain) (hcall : pc'.call = (s.pc p).call) (hok : PcOk s pc') :
    Inv s' := by
  rw [State.acquire] at hs
  split at hs
  case isTrue hfree =>
    rw [← Option.some.inj hs]
    exact h.move (h.excl.acquire hfree hholds) hchain hcall hok
  case isFalse => cases hs

theorem release (h : Inv s) (hp : (s.pc p).holds = true) (hholds : pc'.holds = false)
    (hchain : pc'.chain = (s.pc p).chain) (hcall : pc'.call = (s.pc p).call) (hok : PcOk s pc') :
    Inv (s.release p pc') := h.move (h.excl.release ((h.excl p).2 hp) hholds) hchain hcall hok

theorem kkill (h : Inv s) (p : ι) : Inv (s.goto p (s.pc p).rouse) := by
  have hsame : Pc.Same ι (s.pc p) _ := .rouse _
  exact h.stay hsame.holds hsame.chain hsame.call (hsame.ok (h.pcs p))

end Inv

/-! ## One request at a time -/

structure Local (s : State ι β) (c : Call β) (idx : Idx) (s' : State ι β) : Prop where
  free : s'.free = s.free
  desc : ∀ i ∉ idx.list, s'.desc i = s.desc i
  ops : ∀ i ≠ idx.i0, s'.ops i = s.ops i
  info : ∀ i ≠ idx.i0, s'.info i = s.info i
  reqAt : ∀ i ≠ idx.i0, s'.reqAt i = s.reqAt i
  disk : ∀ b ≠ c.b, s'.disk b = s.disk b
  place : ∀ i ≠ idx.i0, s'.place i = s.place i
  events : ∀ r ≠ c.req, s'.events r = s.events r

namespace Inv

omit [DecidableEq ι] in
/-- **A request moves on**: the other threads do not see it. -/
theorem request {o o' : Own} (h : Inv s) (hp : s.pc p = .rwOwn c idx o)
    (hp' : s'.pc p = .rwOwn c idx o') (hsame : ∀ q ≠ p, Pc.Same ι (s.pc q) (s'.pc q))
    (hlocal : Local s c idx s') (hhealthy : s'.fault = none)
    (hexcl : Held s'.vdiskLock Pc.holds s'.pc) (hcalls : Calls s') (hbounded : s'.Bounded)
    (hnodup : s'.transit.Nodup)
    (hreporting : ∀ i, s'.pushing = some i → s'.used.ring (s'.used.idx % NUM) = i)
    (hok : PcOk s' (.rwOwn c idx o')) (hbump : ∀ q c' idx', q ≠ p → s'.pc q = .rwOwn c' idx' .bump →
      s'.avail.ring (s'.avail.idx % NUM) = s.avail.ring (s.avail.idx % NUM))
    (hbody : ∀ q ≠ p, s'.pc q = .intrBody → s.usedIdx ≠ s.used.idx →
      s'.usedIdx ≠ s'.used.idx) : Inv s' := by
  have hchain : ∀ q, (s'.pc q).chain = (s.pc q).chain := by
    intro q
    by_cases hq : q = p
    · rw [hq, hp, hp']
      rfl
    · exact (hsame q hq).chain
  refine ⟨hhealthy, hexcl, ?_, hcalls, hbounded, hnodup, hreporting, fun i hi => ?_, fun q => ?_⟩
  · rw [hlocal.free, funext hchain]
    exact h.share
  · by_cases hi0 : i = idx.i0
    · exact ⟨p, by rw [hp', hi0]; rfl⟩
    have hold : i ∈ s.transit := by
      by_contra hnot
      rw [← State.place_eq_away, ← hlocal.place i hi0, State.place_eq_away] at hnot
      exact hnot hi
    obtain ⟨q, hq⟩ := h.heads i hold
    exact ⟨q, by rw [hchain, hq]⟩
  by_cases hq : q = p
  · rw [hq, hp']
    exact hok
  have hpcall : (s.pc p).call = some c := by rw [hp]; rfl
  refine ((hsame q hq).ok (h.pcs q)).frame (fun c' hc' => ?_) (fun c' idx' o'' hq' => ?_)
    (fun c' idx' => hbump q c' idx' hq) (hbody q hq)
  · rw [(hsame q hq).call] at hc'
    exact hlocal.events _ (h.req_ne hpcall hc' hq)
  -- the other request has other descriptors, another buffer and another number
  have hqchain : (s.pc q).chain = idx'.list := by rw [← hchain, hq']; rfl
  have hqcall : (s.pc q).call = some c' := by rw [← (hsame q hq).call, hq']; rfl
  have hdisj : ∀ i ∈ idx'.list, i ∉ idx.list := by
    intro i hi hi'
    refine hq (h.share.disjoint q p i (by rwa [hqchain]) ?_)
    rw [hp]
    exact hi'
  have hhead : idx'.i0 ≠ idx.i0 := by
    intro heq
    exact hdisj idx'.i0 (by simp [Idx.list]) (by simp [Idx.list, heq])
  exact State.view_congr (fun i hi => hlocal.desc i (hdisj i hi)) (hlocal.ops _ hhead)
    (hlocal.info _ hhead) (hlocal.reqAt _ hhead) (hlocal.disk _ (h.buf_ne hpcall hqcall hq))
    (hlocal.place _ hhead) (hlocal.events _ (h.req_ne hpcall hqcall hq))

theorem caller {o o' : Own} {t : State ι β} (h : Inv s) (hp : s.pc p = .rwOwn c idx o)
    (hholds : (Pc.rwOwn c idx o).holds = true) (hholds' : (Pc.rwOwn c idx o').holds = true)
    (hlocal : Local s c idx t) (hpc : t.pc = s.pc) (hlock : t.vdiskLock = s.vdiskLock)
    (hfault : t.fault = s.fault) (hcalls : Calls t) (hbounded : t.Bounded)
    (hnodup : t.transit.Nodup)
    (hreporting : ∀ i, t.pushing = some i → t.used.ring (t.used.idx % NUM) = i)
    (hok : PcOk t (.rwOwn c idx o')) : Inv (t.goto p (.rwOwn c idx o')) := by
  have hholdsp : (s.pc p).holds = true := by rw [hp]; exact hholds
  -- no other thread has the lock
  have hothers : ∀ q ≠ p, ((t.goto p (.rwOwn c idx o')).pc q).holds = false := by
    intro q hq
    rw [goto_pc, if_neg hq, hpc]
    exact h.excl.others hholdsp hq
  refine h.request hp (by rw [goto_pc, if_pos rfl]) (fun q hq => ?_) ?_ (hfault.trans h.healthy)
    ?_ ?_ ?_ hnodup hreporting ?_ (fun q c' idx' hq hpcq => ?_) fun q hq hpcq => ?_
  · rw [goto_pc, if_neg hq, hpc]
    exact .refl _
  · exact ⟨hlocal.free, hlocal.desc, hlocal.ops, hlocal.info, hlocal.reqAt, hlocal.disk,
      hlocal.place, hlocal.events⟩
  · change Held t.vdiskLock Pc.holds (update t.pc p _)
    rw [hlock, hpc]
    exact h.excl.stay (by rw [hholds', hholdsp])
  · refine hcalls.congr (read_goto (f := Pc.call) ?_) rfl rfl (fun _ _ _ => rfl) fun _ _ => rfl
    rw [hpc, hp]
    rfl
  · exact ⟨hbounded.avail, hbounded.seen, hbounded.used, hbounded.usedIdx⟩
  · exact hok.frame (fun _ _ => rfl) (fun _ _ _ _ => rfl) (fun _ _ _ => rfl) fun _ => id
  · have hno := hothers q hq
    rw [hpcq] at hno
    cases hno
  · have hno := hothers q hq
    rw [hpcq] at hno
    cases hno

end Inv

end Xv6.Virtio

import TeAomdv.Updates
/-!
# Close — how much longer one path of an entry is than another

The test on a new path (`tooLong`) keeps it from being longer than the shortest stored one by more than the bound, and
lets it be shorter by any length.  So the paths of an entry stay close as long as no alternate path is taken that is
shorter than the longest stored one by more (`close_of_reaches`, `not_close_requestFrom`).
-/
namespace TeAomdv

open Exec (Trace)
open Fallible (Ends Traces)

/-- No path is longer than another by more than `diff`. -/
def Route.Close (diff : Int) (r : Route) : Prop := ∀ f ∈ r.hops, ∀ g ∈ r.hops, (f.hopcount : Int) - g.hopcount ≤ diff

namespace Route.Close

variable {inf : Nat} {maxPaths diff : Int} {h : Heard} {r r' : Route}

theorem of_subset (hr : r.Close diff) (hs : ∀ f ∈ r'.hops, f ∈ r.hops) : r'.Close diff :=
  fun f hf g hg => hr f (hs f hf) g (hs g hg)

/-- **A path in the middle may join**: not too long, and not too short. -/
theorem extend (hr : r.Close diff) (h0 : 0 ≤ diff) {f : Hop} (h1 : ∀ g ∈ r.hops, (f.hopcount : Int) - g.hopcount ≤ diff)
    (h2 : ∀ g ∈ r.hops, (g.hopcount : Int) - f.hopcount ≤ diff) (hh : r'.hops = r.hops ++ [f]) : r'.Close diff := by
  intro a ha b hb
  rw [hh] at ha hb
  simp only [List.mem_append, List.mem_singleton] at ha hb
  rcases ha with ha | rfl <;> rcases hb with hb | rfl
  · exact hr a ha b hb
  · exact h2 a ha
  · exact h1 b hb
  · omega

theorem fall (r : Route) (inf s : Nat) : (r.fall inf s).Close diff := fun _ hf => nomatch hf

theorem single (h0 : 0 ≤ diff) {f : Hop} (hh : r.hops = [f]) : r.Close diff := by
  intro a ha b hb
  rw [hh, List.mem_singleton] at ha hb
  subst ha hb
  omega

/-- Only a RREQ or RREP brings a path. -/
theorem rule (hh : ∀ a, h ≠ .advert a) (hr : r.Close diff) (hrule : Rule inf maxPaths h r r') : r'.Close diff := by
  refine hr.of_subset (fun f hf => ?_)
  rcases hrule.hops hf with hf | ⟨a, -, ha, -⟩
  · exact hf
  · exact absurd ha (hh a)

end Route.Close

namespace RtEntry

theorem foldl_min_le : ∀ (l : List Path) (m : Nat),
    l.foldl (fun m p => if p.hopcount < m then p.hopcount else m) m ≤ m ∧
      ∀ f ∈ l, l.foldl (fun m p => if p.hopcount < m then p.hopcount else m) m ≤ f.hopcount
  | [], m => ⟨Nat.le_refl m, fun _ h => nomatch h⟩
  | g :: l, m => by
    rw [List.foldl_cons]
    obtain ⟨h1, h2⟩ := foldl_min_le l (if g.hopcount < m then g.hopcount else m)
    have hle : (if g.hopcount < m then g.hopcount else m) ≤ m ∧ (if g.hopcount < m then g.hopcount else m) ≤ g.hopcount := by
      split <;> omega
    refine ⟨h1.trans hle.1, fun f hf => ?_⟩
    rcases List.mem_cons.1 hf with rfl | hf
    · exact h1.trans hle.2
    · exact h2 f hf

theorem pathGetMinHopcount_le {e : RtEntry} {f : Path} (hf : f ∈ e.rtPathList) : e.pathGetMinHopcount ≤ f.hopcount :=
  (foldl_min_le e.rtPathList infinity2).2 f hf

end RtEntry

namespace Exec

variable {env : Env} {x y : Exec} {d : NsAddr} {e : RtEntry} {p : Packet} {diff : Int}

/-- **What the length test says.** -/
theorem le_of_not_tooLong {k : Nat} (h : ¬ x.tooLong k e = true) {f : Path} (hf : f ∈ e.rtPathList) :
    ((k + 1 : Nat) : Int) - f.hopcount ≤ x.teaomdvPrimAltPathLenDiff := by
  have hmin := RtEntry.pathGetMinHopcount_le hf
  unfold tooLong at h
  have h : ¬ ((k + 1 : Nat) : Int) - e.pathGetMinHopcount > x.teaomdvPrimAltPathLenDiff := by simpa using h
  omega

/-- The entry takes what a RREQ or RREP of its own number says as an alternate path. -/
def takesAlternate (x : Exec) (e : RtEntry) (a : Advert) : Bool :=
  e.rtSeqno = a.seqno ∧ a.hops < e.rtAdvertisedHops ∧ e.rtFlags = .up ∧ e.newDisjointPath a.sender a.lasthop ∧
    e.rtNumPaths < x.teaomdvMaxPaths ∧ ¬ x.tooLong a.hops e

/-- No stored path is longer than the new one by more than the bound. -/
def notTooShort (x : Exec) (e : RtEntry) (a : Advert) : Bool :=
  e.rtPathList.all (fun f => (f.hopcount : Int) - (a.hops + 1 : Nat) ≤ x.teaomdvPrimAltPathLenDiff)

/-- **A path that is neither too long nor too short joins the others.** -/
theorem close_alternate {a : Advert} {e' : RtEntry} (hd : x.teaomdvPrimAltPathLenDiff = diff) (h0 : 0 ≤ diff)
    (he : e.route.Close diff) (hlong : ¬ x.tooLong a.hops e = true) (hshort : x.notTooShort e a = true)
    (hh : e'.route.hops = e.route.hops ++ [a.hop false]) : e'.route.Close diff := by
  refine he.extend h0 (fun g hg => ?_) (fun g hg => ?_) hh
  · obtain ⟨f, hf, rfl⟩ := List.mem_map.1 hg
    exact hd ▸ le_of_not_tooLong hlong hf
  · obtain ⟨f, hf, rfl⟩ := List.mem_map.1 hg
    exact hd ▸ of_decide_eq_true (List.all_eq_true.1 hshort f hf)

/-- The paths of every entry are close. -/
def Close (diff : Int) (x : Exec) : Prop := ∀ d, (x.routeFor d).Close diff

theorem Close.congr (hx : x.Close diff) (h : ∀ d, y.routeFor d = x.routeFor d) : y.Close diff := by
  intro d
  rw [h d]
  exact hx d

theorem Close.rtModify (hx : x.Close diff) (he : x.rtLookup d = some e) {f : RtEntry → RtEntry} (hd : (f e).rtDst = d)
    (hf : (f e).route.Close diff) : (x.rtModify d f).Close diff := by
  intro d'
  by_cases hne : d' = d
  · subst hne
    rw [routeFor_of_rtLookup (rtLookup_rtModify he hd)]
    exact hf
  · rw [rtModify_eq_put he]
    unfold routeFor
    rw [rtLookup_put_ne hd hne]
    exact hx d'

theorem Close.advertise (hx : x.Close diff) (d : NsAddr) (inf : Nat) :
    (x.rtModify d (fun rt => rt.advertise inf)).Close diff := by
  cases he : x.rtLookup d with
  | none =>
    rwa [rtModify_of_none he]
  | some e =>
    refine hx.rtModify he ((rtDst_advertise e inf).trans (rtDst_of_rtLookup he)) ?_
    have hclose : e.route.Close diff := routeFor_of_rtLookup he ▸ hx d
    rw [RtEntry.route_advertise]
    split <;> exact hclose

theorem Emits.close {go : Prop} {body : Body} (hx : x.Close diff) {inf : Nat}
    (h : (x.rtModify d (fun rt => rt.advertise inf)).Emits go body y) : y.Close diff :=
  (hx.advertise d inf).congr (routeFor_congr h.routes)

/-! ## The update -/

/-- An update keeps the paths close, if the path it adds is not too short. -/
theorem Noted.close {inf : Nat} {a : Advert} {u : Update inf a} {rt : RtEntry} {goes : Bool} (h : Noted u x rt y goes)
    (hd : x.teaomdvPrimAltPathLenDiff = diff) (h0 : 0 ≤ diff) (hx : x.Close diff) (he : x.rtLookup a.dst = some rt)
    (hok : x.takesAlternate rt a = true → x.notTooShort rt a = true) : y.Close diff ∧ y.rqueue = x.rqueue := by
  have hdst := rtDst_of_rtLookup he
  have hclose : rt.route.Close diff := routeFor_of_rtLookup he ▸ hx a.dst
  cases h with
  | renew =>
    have hroute := u.renewed rt
    exact ⟨hx.rtModify he ((congrArg Route.dst hroute).trans hdst) (.single h0 (congrArg Route.hops hroute)), rfl⟩
  | refresh =>
    refine ⟨hx.congr (routeFor_congr ?_), rfl⟩
    exact routeOf_keep x _ (fun e => e.route_modifyDisjoint _ _ u.refreshed)
  | extend goes hseq hadv hup hnew hroom hlen =>
    have hroute := u.extended rt
    have hshort := hok (by simp [takesAlternate, hseq, hadv, hup, hnew, hroom, hlen])
    have hjoin := close_alternate hd h0 hclose hlen hshort (congrArg Route.hops hroute)
    exact ⟨hx.rtModify he ((congrArg Route.dst hroute).trans hdst) hjoin, rfl⟩
  | keep => exact ⟨hx, rfl⟩

/-! ## The answers -/

/-- Sending off what is buffered brings no path. -/
theorem flush_close (hq : x.DataQueue) (hx : x.Close diff) (d : NsAddr) : Ends (Close diff) (x.flush env d) := by
  have ht : Trace env .nothing x (x.flush env d) := flush_trace d hq
  have hno : ∀ a, Heard.nothing ≠ .advert a := fun _ h => nomatch h
  intro y hy d'
  exact routeFor_of_trace (fun _ _ _ hr _ hrule => hr.rule hno hrule)
    (fun r _ _ => .fall r _ _) ht (hx d') y hy

theorem answerRequest_close {rq : Rreq} (hp : p.ptype = .teaomdv) (hx : x.Close diff) (kill reverse : Bool) :
    Ends (Close diff) (x.answerRequest env p rq kill reverse) := by
  have hfree : (x.free p).Close diff := hx.congr (fun _ => rfl)
  have hrelay : ∀ rt, Ends (Close diff) (x.relayRequest env p rq rt kill) := by
    intro rt
    refine Ends.mono (relayRequest_ends hp rt kill) (fun y hy => ?_)
    rcases hy with ⟨-, rfl⟩ | ⟨-, -, -, rq', -, -, -, -, hy⟩
    · exact hfree
    · exact hy.close hx
  unfold answerRequest
  split
  · obtain ⟨rp, -, hy⟩ := replyAsDestination_emits env x p rq
    exact Ends.ok (hx.congr (routeFor_congr hy.routes))
  split
  · exact hrelay none
  split
  · refine Ends.mono (replyFromTable_ends reverse) (fun y hy => ?_)
    rcases hy with ⟨-, rfl⟩ | ⟨-, -, rp, -, -, -, hy⟩
    · exact hfree
    · exact Emits.close (x := x.idMark rq.rqSrc rq.rqBcastId) (hx.congr (fun _ => rfl)) hy
  · exact hrelay _

theorem relayReply_close (hp : p.ptype = .teaomdv) (hx : x.Close diff) (rp : Rrep) :
    Ends (Close diff) (x.relayReply env p rp) := by
  refine Ends.mono (relayReply_ends hp rp) (fun y hy => ?_)
  rcases hy with ⟨-, rfl⟩ | ⟨-, -, -, rp', -, -, -, -, hy⟩
  · exact hx.congr (fun _ => rfl)
  · exact Emits.close (x := x.idMark p.daddr rp.rpBcastId) (hx.congr (fun _ => rfl)) hy

/-! ## One invocation -/

/-- The bounds an entry goes by are those the handler began with. -/
theorem Idle.levels (h : x.Idle y) (e : RtEntry) (a : Advert) :
    y.takesAlternate e a = x.takesAlternate e a ∧ y.notTooShort e a = x.notTooShort e a := by
  unfold takesAlternate notTooShort tooLong
  rw [h.maxPaths, h.lenDiff]
  exact ⟨rfl, rfl⟩

theorem Idle.close (h : x.Idle y) (hx : x.Close diff) : y.Close diff := hx.congr h.routes

section Handlers

variable (hq : x.DataQueue) (hd : x.teaomdvPrimAltPathLenDiff = diff) (h0 : 0 ≤ diff) (hx : x.Close diff)
  (ht : p.ptype = .teaomdv)

include hq hd h0 hx ht

theorem recvRequest_close {rq : Rreq} (hb : p.body = .rreq rq) {a : Advert}
    (ha : a = ⟨rq.rqSrc, rq.rqSrcSeqno, rq.rqHopCount, p.saddr, if rq.rqHopCount = 0 then x.index else rq.rqFirstHop⟩)
    (hok : ¬ x.turnsDown p → x.takesAlternate (x.entryFor env a.dst) a = true →
      x.notTooShort (x.entryFor env a.dst) a = true) : Ends (Close diff) (x.recvRequest env p rq) := by
  have hfree : (x.free p).Close diff := hx.congr (fun _ => rfl)
  unfold recvRequest
  split
  · exact Ends.ok hfree
  rename_i hsrc
  split
  · exact Ends.ok hfree
  rename_i htrust
  have hok := hok (by simp [turnsDown, hb, hsrc, htrust])
  rw [seenRequest_eq]
  subst ha
  simp only
  refine Ends.bind (prepareRequest_idle _) (fun y hy => ?_)
  obtain ⟨hy, he⟩ := hy
  obtain ⟨h1, h2⟩ := hy.levels (x.entryFor env rq.rqSrc) ⟨rq.rqSrc, rq.rqSrcSeqno, rq.rqHopCount, p.saddr,
    if rq.rqHopCount = 0 then x.index else rq.rqFirstHop⟩
  rw [← h1, ← h2] at hok
  refine Ends.bind (reverseRoute_noted env y p _).ends (fun b hb => ?_)
  obtain ⟨z, k⟩ := b
  obtain ⟨rt, hrt, hn⟩ := hb
  obtain rfl := Option.some.inj (he.symm.trans hrt)
  obtain ⟨hz, hqz⟩ := hn.close (hy.lenDiff.trans hd) h0 (hy.close hx) he hok
  cases k with
  | none => exact Ends.ok (hz.congr (fun _ => rfl))
  | some k =>
    have hqz : z.DataQueue := by
      unfold DataQueue
      rw [hqz, hy.queue]
      exact hq
    exact Ends.bind (flush_close hqz hz rq.rqSrc) (fun w hw => answerRequest_close ht hw _ k)

theorem recvReply_close {rp : Rrep} (hb : p.body = .rrep rp) {a : Advert}
    (ha : a = ⟨rp.rpDst, rp.rpDstSeqno, rp.rpHopCount, rp.rpSrc, rp.rpFirstHop⟩)
    (hok : ¬ x.turnsDown p → x.takesAlternate (x.entryFor env a.dst) a = true →
      x.notTooShort (x.entryFor env a.dst) a = true) : Ends (Close diff) (x.recvReply env p rp) := by
  have hfree : (x.free p).Close diff := hx.congr (fun _ => rfl)
  unfold recvReply
  split
  · exact Ends.ok hfree
  rename_i htrust
  split
  · exact Ends.ok hfree
  rename_i hdst
  have hok := hok (by simp [turnsDown, hb, hdst, htrust])
  obtain ⟨t, hlow⟩ := lowerForward_eq rp (x.nbLookup p.prevHop)
  simp only [hlow]
  subst ha
  refine Ends.bind (rtEnsure_idle rp.rpDst) (fun y hy => ?_)
  obtain ⟨hy, he⟩ := hy
  obtain ⟨h1, h2⟩ := hy.levels (x.entryFor env rp.rpDst) ⟨rp.rpDst, rp.rpDstSeqno, rp.rpHopCount, rp.rpSrc, rp.rpFirstHop⟩
  rw [← h1, ← h2] at hok
  refine Ends.bind (forwardRouteTo_noted env y { rp with FPT := t } _).ends (fun b hb => ?_)
  obtain ⟨z, k⟩ := b
  obtain ⟨rt, hrt, hn⟩ := hb
  obtain rfl := Option.some.inj (he.symm.trans hrt)
  obtain ⟨hz, hqz⟩ := hn.close (hy.lenDiff.trans hd) h0 (hy.close hx) he hok
  cases k with
  | false => exact Ends.ok (hz.congr (fun _ => rfl))
  | true =>
    have hqz : z.DataQueue := by
      unfold DataQueue
      rw [hqz, hy.queue]
      exact hq
    refine Ends.bind (flush_close hqz hz rp.rpDst) (fun w hw => ?_)
    split
    · exact Ends.ok (hw.congr (fun _ => rfl))
    · exact relayReply_close ht hw _

end Handlers

/-- **An invocation keeps the paths close**, unless it takes an alternate path that is too short. -/
theorem handle_close {inp : Input} (hq : x.DataQueue) (hc : x.Calm) (hd : x.teaomdvPrimAltPathLenDiff = diff) (h0 : 0 ≤ diff)
    (hx : x.Close diff) (hok : ∀ a, x.updates env inp = some a → x.takesAlternate (x.entryFor env a.dst) a = true →
      x.notTooShort (x.entryFor env a.dst) a = true) : Ends (Close diff) (x.handle env inp) := by
  by_cases hno : ∀ a, x.heard inp ≠ .advert a
  · intro y hy d
    exact routeFor_of_trace (fun _ _ _ hr _ hrule => hr.rule hno hrule) (fun r _ _ => .fall r _ _) (handle_trace hq hc)
      (hx d) y hy
  push Not at hno
  obtain ⟨a, ha⟩ := hno
  obtain ⟨p, rfl, ht, hb⟩ := heard_advert ha
  have hok : ¬ x.turnsDown p → x.takesAlternate (x.entryFor env a.dst) a = true →
      x.notTooShort (x.entryFor env a.dst) a = true := by
    intro hturn halt
    refine hok a ?_ halt
    have hupd : (x.entryFor env a.dst).updatedBy a = true := by
      obtain ⟨h1, h2, -⟩ := of_decide_eq_true halt
      simp [RtEntry.updatedBy, h1, h2]
    unfold updates
    rw [ha]
    exact if_pos ⟨hturn, hupd⟩
  show Ends _ (x.recv env p)
  by_cases hport : p.sport = rtPort ∧ p.dport = rtPort
  · rcases hb with ⟨rq, hb, ha⟩ | ⟨rp, hb, ha⟩
    · rw [recv_rreq ht hport hb]
      exact recvRequest_close (p := { p with ttl := p.ttl - 1 }) hq hd h0 hx ht hb ha hok
    · rw [recv_rrep ht hport hb]
      exact recvReply_close (p := { p with ttl := p.ttl - 1 }) hq hd h0 hx ht hb ha hok
  · rw [recv_of_port ht hport]
    exact Ends.error _

end Exec

namespace Agent

/-- No alternate path is taken that is shorter than a stored one by more than the bound. -/
def level (a : Agent) (c : Call) : Bool :=
  ((a.exec c.heap).updates c.env c.inp).all (fun adv =>
    (a.exec c.heap).takesAlternate ((a.exec c.heap).entryFor c.env adv.dst) adv →
      (a.exec c.heap).notTooShort ((a.exec c.heap).entryFor c.env adv.dst) adv)

/-- **Alternate paths stay close to the primary**, in a run that takes none that is too short. -/
theorem close_of_reaches {id : NsAddr} {a : Agent} (h : Runs.Reaches call (fun a c => level a c = true) (new id) a) :
    a.teaomdvPrimAltPathLenDiff = 1 ∧ ∀ e ∈ a.rtable, ∀ f ∈ e.rtPathList, ∀ g ∈ e.rtPathList,
      (f.hopcount : Int) - g.hopcount ≤ a.teaomdvPrimAltPathLenDiff := by
  have hI : a.teaomdvPrimAltPathLenDiff = 1 ∧ (a.exec 0).Close 1 := by
    refine Runs.Reaches.invariant (P := fun a => a.teaomdvPrimAltPathLenDiff = 1 ∧ (a.exec 0).Close 1)
      ⟨rfl, fun _ _ hf => nomatch hf⟩ ?_ h
    rintro a c a' hr ⟨hd, hclose⟩ hl hs
    obtain ⟨x, hx, rfl⟩ := call_eq_some hs
    have ht := tidy_of_reach (hr.mono (fun _ _ _ => trivial))
    have hcalm := exec_calm a c.heap
    refine ⟨?_, Exec.handle_close (x := a.exec c.heap) ht.data hcalm hd zero_le_one hclose (fun adv hadv => ?_) x hx⟩
    · exact (Exec.steps_lenDiff ((Exec.handle_trace (x := a.exec c.heap) ht.data hcalm).of_ok hx)).trans hd
    · unfold level at hl
      rw [hadv] at hl
      exact of_decide_eq_true hl
  obtain ⟨hd, hclose⟩ := hI
  refine ⟨hd, fun e he f hf g hg => ?_⟩
  have hrep := (tidy_of_reach (h.mono (fun _ _ _ => trivial))).rep
  have hroute := hclose e.rtDst
  rw [Exec.routeFor_of_mem (x := a.exec 0) hrep he] at hroute
  rw [hd]
  exact hroute f.hop (List.mem_map_of_mem hf) g.hop (List.mem_map_of_mem hg)

theorem close_requestFrom : ∃ a, Runs.replay call [requestFrom 2 1 7, requestFrom 3 1 7] (new 5) = some a ∧
    a.rtable.all (fun e => e.rtPathList.length = 2) = true ∧ a.teaomdvPrimAltPathLenDiff = 1 ∧
    ∀ e ∈ a.rtable, ∀ f ∈ e.rtPathList, ∀ g ∈ e.rtPathList,
      (f.hopcount : Int) - g.hopcount ≤ a.teaomdvPrimAltPathLenDiff := by
  obtain ⟨a, ha, hr, hlen⟩ := Runs.Reaches.of_obeys level (fun a => a.rtable.all (fun e => e.rtPathList.length = 2))
    (fun _ _ h => h) [requestFrom 2 1 7, requestFrom 3 1 7]
    (.init : Runs.Reaches call (fun a c => level a c = true) (new 5) _) (by decide +kernel)
  exact ⟨a, ha, hlen, close_of_reaches hr⟩

/-- **A path of length 3 joins one of length 5**: the length test has one side. -/
theorem not_close_requestFrom : ¬ ∀ a, Reach 5 a → ∀ e ∈ a.rtable, ∀ f ∈ e.rtPathList, ∀ g ∈ e.rtPathList,
    (f.hopcount : Int) - g.hopcount ≤ a.teaomdvPrimAltPathLenDiff := by
  intro h
  obtain ⟨a, -, hr, hfar⟩ := Runs.Reaches.of_obeys (fun _ _ => true) (fun a : Agent => a.rtable.any (fun e =>
      e.rtPathList.any (fun f => e.rtPathList.any (fun g =>
        a.teaomdvPrimAltPathLenDiff < (f.hopcount : Int) - g.hopcount))))
    (fun _ _ _ => trivial) [requestFrom 2 4 7, requestFrom 3 2 7] (.init : Reach 5 (new 5)) (by decide +kernel)
  obtain ⟨e, he, hfar⟩ := List.any_eq_true.1 hfar
  obtain ⟨f, hf, hfar⟩ := List.any_eq_true.1 hfar
  obtain ⟨g, hg, hfar⟩ := List.any_eq_true.1 hfar
  have hle := h a hr e he f hf g hg
  have hlt := of_decide_eq_true hfar
  omega

end Agent

end TeAomdv

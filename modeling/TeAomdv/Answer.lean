import TeAomdv.Reach
import TeAomdv.Recorded
/-!
# Answer — what the two handlers of routes send

`recvRequest` and `recvReply` end in freeing the packet or in handing over one RREQ or RREP, which says what an entry, its
hop count frozen, advertises (`Relayed`, `FromTable`, `Returned`).  What comes before the answer leaves the routes of other
entries alone.
-/
namespace TeAomdv

open Fallible (Ends)

namespace Exec

variable {env : Env} {x y : Exec} {d : NsAddr} {p : Packet}

/-! ## What is sent -/

@[simp] theorem sent_idMark (x : Exec) (s : NsAddr) (b : Nat) : (x.idMark s b).sent = x.sent := rfl

theorem nbEnsure_keeps (env : Env) (x : Exec) (id : NsAddr) :
    (x.nbEnsure env id).bihead = x.bihead ∧ (x.nbEnsure env id).sent = x.sent := by
  cases h : x.nbLookup id with
  | none => simp [nbEnsure, nbInsert, h, sent]
  | some nb => simp [nbEnsure, h]

/-- Just if `go`, one packet was sent, with this body; the cache and the routes are as they were. -/
structure Emits (go : Prop) (body : Body) (x y : Exec) : Prop where
  index : y.index = x.index
  ids : y.bihead = x.bihead
  routes : y.routeOf = x.routeOf
  sent : ¬ go ∧ y.sent = x.sent ∨ go ∧ ∃ q : Packet, y.sent = x.sent ++ [q] ∧ q.body = body ∧ q.ptype = .teaomdv

theorem forwardSend_emits (hp : p.ptype = .teaomdv) (d : NsAddr) (delay : ℚ) :
    Ends (x.Emits True p.body) (x.forwardSend env d p delay) := by
  have hcount : (x.countForward env p).index = x.index ∧ (x.countForward env p).bihead = x.bihead ∧
      (x.countForward env p).routeOf = x.routeOf ∧ (x.countForward env p).sent = x.sent := by
    unfold countForward
    rw [hp]
    exact ⟨rfl, rfl, rfl, rfl⟩
  unfold forwardSend
  simp only
  split
  · exact Ends.error _
  have hfind := routeOf_keep (x.countForward env p) d (f := fun rt => rt.modifyFind (fun path =>
    { path with expire := env.now + activeRouteTimeout })) (fun e => RtEntry.route_modifyFind e (fun _ => rfl))
  refine Ends.ok ⟨?_, ?_, ?_, .inr ⟨trivial, { p with direction := .down }, ?_, rfl, hp⟩⟩
  · split <;> exact hcount.1
  · split <;> exact hcount.2.1
  · rw [← hcount.2.2.1, ← hfind]
    split
    · exact routeOf_keep _ d (fun _ => rfl)
    · rfl
  · rw [sent_schedule, ← hcount.2.2.2]
    split <;> rfl

/-- `forward` does not end at its first two tests: the TTL is used up, or the packet is for this node. -/
def goesOn (x : Exec) (p : Packet) : Prop := p.ttl ≠ 0 ∧ ¬ x.forMe p

instance (x : Exec) (p : Packet) : Decidable (x.goesOn p) := inferInstanceAs (Decidable (_ ∧ _))

/-- **`forward` hands over a routing packet that goes on once**, and changes only its headers. -/
theorem forward_emits (hp : p.ptype = .teaomdv) (rt : Option NsAddr) (delay : ℚ) :
    Ends (x.Emits (x.goesOn p) p.body) (x.forward env rt p delay) := by
  unfold forward
  split
  · rename_i httl
    exact Ends.ok ⟨rfl, rfl, rfl, .inl ⟨fun h => h.1 httl, sent_drop x p _⟩⟩
  rename_i httl
  split
  · rename_i hme
    exact Ends.ok ⟨rfl, rfl, rfl, .inl ⟨fun h => h.2 hme, sent_dmux x p⟩⟩
  rename_i hme
  cases rt with
  | none =>
    simp only
    split
    · exact Ends.ok ⟨rfl, rfl, rfl, .inr ⟨⟨httl, hme⟩, _, sent_schedule x _ _, rfl, hp⟩⟩
    · exact Ends.error _
  | some d =>
    simp only
    unfold forwardRoute
    split
    · exact Ends.error _
    split
    · exact Ends.error _
    split
    · exact Ends.error _
    rename_i path _
    obtain ⟨h1, h2⟩ := nbEnsure_keeps env (x.rtModify d (fun rt => rt.pcInsert p.prevHop)) path.nexthop
    have h3 := alike_nbEnsure env (x.rtModify d (fun rt => rt.pcInsert p.prevHop)) path.nexthop
    have h4 := routeOf_keep x d (fun e => RtEntry.route_pcInsert e p.prevHop)
    simp only
    generalize (x.rtModify d (fun rt => rt.pcInsert p.prevHop)).nbEnsure env path.nexthop = z at h1 h2 h3
    rw [if_neg (by simp [hp])]
    refine Ends.mono (forwardSend_emits ?_ d delay) (fun y hy => ?_)
    · exact hp
    · have hsent := (hy.sent.resolve_left (fun h => h.1 trivial)).2
      rw [h2] at hsent
      exact ⟨hy.index.trans h3.index, hy.ids.trans h1, (hy.routes.trans h3.routeOf).trans h4, .inr ⟨⟨httl, hme⟩, hsent⟩⟩

theorem Emits.free {go : Prop} {body : Body} (h : x.Emits go body y) (p : Packet) : x.Emits go body (y.free p) := by
  refine ⟨h.index, h.ids, h.routes, ?_⟩
  rw [sent_free]
  exact h.sent

theorem sendReply_emits (x : Exec) (ipdst : NsAddr) (k : Nat) (rpdst : NsAddr) (seq : Nat) (life time : ℚ) (n : NsAddr)
    (bid : Nat) (l : NsAddr) (fpt rpt : ℚ) : ∃ rp, rp.rpDst = rpdst ∧ rp.rpHopCount = u8 k ∧
      x.Emits True (.rrep rp) (x.sendReply ipdst k rpdst seq life time n bid l fpt rpt) := by
  have hsent : (x.sendReply ipdst k rpdst seq life time n bid l fpt rpt).sent = _ := sent_schedule x.alloc _ _
  rw [sent_alloc] at hsent
  exact ⟨_, rfl, rfl, rfl, rfl, rfl, .inr ⟨trivial, _, hsent, rfl, rfl⟩⟩

/-- What differs in nothing an answer depends on emits the same. -/
theorem Emits.of_alike {z : Exec} {go : Prop} {body : Body} (h : z.Emits go body y) (hi : z.index = x.index)
    (hids : z.bihead = x.bihead) (hr : z.routeOf = x.routeOf) (hs : z.sent = x.sent) : x.Emits go body y := by
  refine ⟨h.index.trans hi, h.ids.trans hids, h.routes.trans hr, ?_⟩
  rw [← hs]
  exact h.sent

/-! ## The answers -/

section Request

variable {rq : Rreq}

theorem replyAsDestination_emits (env : Env) (x : Exec) (p : Packet) (rq : Rreq) :
    ∃ rp, rp.rpDst = x.index ∧ x.Emits True (.rrep rp) (x.replyAsDestination env p rq) := by
  unfold replyAsDestination
  simp only
  obtain ⟨h1, h2⟩ := nbEnsure_keeps env { x with seqno := replySeqno x.seqno rq.rqDstSeqno } p.saddr
  have h3 := alike_nbEnsure env { x with seqno := replySeqno x.seqno rq.rqDstSeqno } p.saddr
  generalize nbEnsure env { x with seqno := replySeqno x.seqno rq.rqDstSeqno } p.saddr = z at h1 h2 h3
  obtain ⟨rp, hdst, -, hrp⟩ := sendReply_emits z rq.rqSrc 0 z.index z.seqno myRouteTimeout rq.rqTimestamp p.saddr
    rq.rqBcastId p.saddr 1 (z.trustOf p.saddr)
  have hrp : x.Emits True (.rrep rp) _ := hrp.of_alike (x := x) h3.index h1 h3.routeOf h2
  exact ⟨rp, hdst.trans h3.index, hrp.free p⟩

/-- **A request is freed, or passed on** with the hop count the reverse entry advertises. -/
theorem relayRequest_ends (hp : p.ptype = .teaomdv) (rt : Option RtEntry) (kill : Bool) :
    Ends (fun y => kill = true ∧ y = x.free p ∨ kill = false ∧ ∃ e f rq', x.rtLookup rq.rqSrc = some e ∧ e.pathFind = some f ∧
      rq'.rqSrc = rq.rqSrc ∧ rq'.rqHopCount = u8 (e.advertise env.inf).rtAdvertisedHops ∧
      (x.rtModify rq.rqSrc (fun rt => rt.advertise env.inf)).Emits (x.goesOn p) (.rreq rq') y) (x.relayRequest env p rq rt kill) := by
  unfold relayRequest
  cases kill with
  | true => exact Ends.ok (.inl ⟨rfl, rfl⟩)
  | false =>
    cases he : x.rtLookup rq.rqSrc with
    | none => exact Ends.error _
    | some e =>
      simp only [Bool.false_eq_true, if_false]
      cases hf : (e.advertise env.inf).pathFind with
      | none => exact Ends.error _
      | some f =>
        rw [pathFind_advertise] at hf
        refine Ends.mono (forward_emits ?_ none teaomdvDelay) (fun y hy => .inr ⟨trivial, e, f, _, rfl, hf, ?_, ?_, hy⟩)
        · exact hp
        · rfl
        · rfl

/-- The table answers for this request: `reverse_path` is set, and its id has not been answered. -/
def repliesOnce (x : Exec) (rq : Rreq) (reverse : Bool) : Prop :=
  reverse = true ∧ (x.idGet rq.rqSrc rq.rqBcastId).all (fun b => b.count = 0) = true

instance (x : Exec) (rq : Rreq) (reverse : Bool) : Decidable (x.repliesOnce rq reverse) := inferInstanceAs (Decidable (_ ∧ _))

/-- **A reply from the table**, with the hop count the entry advertises, marks the id. -/
theorem replyFromTable_ends {rt : RtEntry} (reverse : Bool) :
    Ends (fun y => ¬ x.repliesOnce rq reverse ∧ y = x.free p ∨ x.repliesOnce rq reverse ∧ ∃ f rp,
      rt.pathFind = some f ∧ rp.rpDst = rq.rqDst ∧ rp.rpHopCount = u8 (rt.advertise env.inf).rtAdvertisedHops ∧
      ((x.idMark rq.rqSrc rq.rqBcastId).rtModify rq.rqDst (fun rt => rt.advertise env.inf)).Emits True (.rrep rp) y)
      (x.replyFromTable env p rq rt reverse) := by
  unfold replyFromTable
  split
  · exact Ends.error _
  split
  swap
  · rename_i hno
    exact Ends.ok (.inl ⟨hno, rfl⟩)
  rename_i hfirst
  split
  · exact Ends.error _
  rename_i f hf
  have hset : (x.idMark rq.rqSrc rq.rqBcastId).rtModify rq.rqDst (fun rt => (rt.advertise env.inf).setError true) =
      ((x.idMark rq.rqSrc rq.rqBcastId).rtModify rq.rqDst (fun rt => rt.advertise env.inf)).rtModify rq.rqDst
        (fun rt => rt.setError true) := by
    unfold rtModify
    rw [Keyed.modifyFirst_modifyFirst (fun e he => by rw [rtDst_advertise]; exact he)]
    rfl
  obtain ⟨rp, hdst, hhops, hrp⟩ := sendReply_emits ((x.idMark rq.rqSrc rq.rqBcastId).rtModify rq.rqDst
    (fun rt => (rt.advertise env.inf).setError true)) rq.rqSrc (rt.advertise env.inf).rtAdvertisedHops rq.rqDst
    rt.rtSeqno (f.expire - env.now) rq.rqTimestamp p.saddr rq.rqBcastId f.lasthop f.FPT f.RPT
  have hroute := routeOf_keep ((x.idMark rq.rqSrc rq.rqBcastId).rtModify rq.rqDst (fun rt => rt.advertise env.inf)) rq.rqDst
    (f := fun rt => rt.setError true) (fun _ => rfl)
  rw [← hset] at hroute
  have hrp : Emits True (.rrep rp) ((x.idMark rq.rqSrc rq.rqBcastId).rtModify rq.rqDst (fun rt => rt.advertise env.inf)) _ :=
    hrp.of_alike rfl rfl hroute rfl
  exact Ends.ok (.inr ⟨hfirst, f, rp, hf, hdst, hhops, hrp.free p⟩)

end Request

/-- The reply may be relayed: the way back is up, and no reply for this id has been. -/
def relaysOnce (x : Exec) (p : Packet) (rp : Rrep) : Prop :=
  (∃ e ∈ x.rtLookup p.daddr, e.rtFlags = .up) ∧ ∃ i ∈ x.idGet p.daddr rp.rpBcastId, i.count = 0

instance (x : Exec) (p : Packet) (rp : Rrep) : Decidable (x.relaysOnce p rp) := inferInstanceAs (Decidable (_ ∧ _))

/-- **A reply is freed, or relayed** with the hop count the forward entry advertises, and marks the id. -/
theorem relayReply_ends (hp : p.ptype = .teaomdv) (rp : Rrep) :
    Ends (fun y => ¬ x.relaysOnce p rp ∧ y = x.free p ∨ x.relaysOnce p rp ∧ ∃ e f rp',
      x.rtLookup rp.rpDst = some e ∧ e.pathFind = some f ∧ rp'.rpDst = rp.rpDst ∧
      rp'.rpHopCount = u8 (e.advertise env.inf).rtAdvertisedHops ∧
      ((x.idMark p.daddr rp.rpBcastId).rtModify rp.rpDst (fun rt => rt.advertise env.inf)).Emits (x.goesOn p) (.rrep rp') y)
      (x.relayReply env p rp) := by
  unfold relayReply
  split
  swap
  · rename_i hno
    refine Ends.ok (.inl ⟨fun ⟨⟨e, he, _⟩, i, hi, _⟩ => hno e i he hi, rfl⟩)
  rename_i rt0 i he0 hget
  split
  · rename_i hno
    refine Ends.ok (.inl ⟨fun ⟨⟨e, he, hup⟩, i', hi, hcount⟩ => ?_, rfl⟩)
    obtain rfl := Option.some.inj (he0.symm.trans he)
    obtain rfl := Option.some.inj (hget.symm.trans hi)
    exact hno.elim (fun h => h hup) (fun h => h hcount)
  rename_i hfirst
  obtain ⟨hup, hcount⟩ := not_or.1 hfirst
  have hgo : x.relaysOnce p rp := ⟨⟨rt0, he0, not_not.1 hup⟩, i, hget, not_not.1 hcount⟩
  split
  · exact Ends.error _
  rename_i reversePath _
  obtain ⟨t, hlow⟩ := lowerReverse_eq rp ((x.idMark p.daddr rp.rpBcastId).nbLookup reversePath.nexthop)
  simp only [hlow]
  split
  · exact Ends.error _
  rename_i e he
  split
  · exact Ends.error _
  rename_i f hf
  have hf : e.pathFind = some f := (pathFind_advertise e env.inf).symm.trans hf
  have hreverse := routeOf_keep ((x.idMark p.daddr rp.rpBcastId).rtModify rp.rpDst (fun rt => rt.advertise env.inf)) p.daddr
    (f := fun rt0 => rt0.modifyFind (fun path => { path with expire := env.now + activeRouteTimeout }))
    (fun e => RtEntry.route_modifyFind e (fun _ => rfl))
  refine Ends.mono (forward_emits ?_ (some p.daddr) noTeaomdvDelay) (fun y hy => .inr ⟨hgo, e, f, _, he, hf,
    ?_, ?_, hy.of_alike rfl rfl
      ((routeOf_keep _ rp.rpDst (f := fun rt => rt.setError true) (fun _ => rfl)).trans hreverse) rfl⟩)
  · exact hp
  · rfl
  · rfl

/-- A routing packet on another port is an assert. -/
theorem recv_of_port (ht : p.ptype = .teaomdv) (hport : ¬ (p.sport = rtPort ∧ p.dport = rtPort)) :
    x.recv env p = .error (.assertion .recvPort) := by
  unfold recv recvTEAOMDV
  rw [if_pos ht, if_pos (by simpa only [ne_eq, not_and_or] using hport)]

end Exec

namespace Agent

/-- What an invocation hands to `target_`. -/
def outbox (a : Agent) (c : Call) : List Packet :=
  match (a.exec c.heap).handle c.env c.inp with
  | .ok x => x.sent
  | .error _ => []

theorem outbox_of_ok {a : Agent} {c : Call} {x : Exec} (h : (a.exec c.heap).handle c.env c.inp = .ok x) :
    a.outbox c = x.sent := by
  unfold outbox
  rw [h]

end Agent

end TeAomdv

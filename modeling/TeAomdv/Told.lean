import TeAomdv.Updates
import TeAomdv.Waiting
/-!
# Told — the hop counts a node gives away

A RREQ or a RREP passed on, and a RREP from the table, carry the hop count of a live entry, cut to 8 bits.  Which entry, and
which hop count, goes by the state the packet comes in, what is sent off before the answer included (`handle_tells`).
-/
namespace TeAomdv

open Exec (Trace)
open Fallible (Ends)

/-- Of which destination a routing packet of node `i` gives a hop count out of the table, and which. -/
def Packet.tells (i : NsAddr) (p : Packet) : Option (NsAddr × Nat) :=
  if p.ptype ≠ .teaomdv then none
  else match p.body with
  | .rreq rq => if rq.rqSrc = i then none else some (rq.rqSrc, rq.rqHopCount)
  | .rrep rp => if rp.rpDst = i then none else some (rp.rpDst, rp.rpHopCount)
  | _ => none

theorem Packet.tells_of_ptype {p : Packet} (hp : p.ptype ≠ .teaomdv) (i : NsAddr) : p.tells i = none := if_pos hp

theorem Packet.tells_rreq {p : Packet} {rq : Rreq} (hp : p.ptype = .teaomdv) (hb : p.body = .rreq rq) (i : NsAddr) :
    p.tells i = if rq.rqSrc = i then none else some (rq.rqSrc, rq.rqHopCount) := by
  unfold tells
  rw [if_neg (not_not.2 hp), hb]

theorem Packet.tells_rrep {p : Packet} {rp : Rrep} (hp : p.ptype = .teaomdv) (hb : p.body = .rrep rp) (i : NsAddr) :
    p.tells i = if rp.rpDst = i then none else some (rp.rpDst, rp.rpHopCount) := by
  unfold tells
  rw [if_neg (not_not.2 hp), hb]

theorem Packet.Mute.tells {p : Packet} (hp : p.Mute) (i : NsAddr) : p.tells i = none := by
  unfold Packet.Mute at hp
  unfold Packet.tells
  split
  · rfl
  · split <;> simp_all

/-! ## The hop count of a live entry -/

/-- The hop count given away with the route: the one frozen, or the length of the longest path. -/
def Route.gives (inf : Nat) (r : Route) : Nat := if r.adv = inf then maxHops r.hops else r.adv

/-- Freezing the hop count is no change of it. -/
theorem Route.gives_freeze {inf : Nat} (r : Route) (hr : r.adv = inf) :
    Route.gives inf { r with adv := maxHops r.hops } = r.gives inf := by
  unfold gives
  rw [if_pos hr]
  exact ite_self _

theorem RtEntry.gives_advertise (e : RtEntry) (inf : Nat) : (e.advertise inf).route.gives inf = e.route.gives inf := by
  rw [RtEntry.route_advertise]
  split
  · rename_i hadv
    exact Route.gives_freeze e.route hadv
  · rfl

theorem RtEntry.rtAdvertisedHops_advertise (e : RtEntry) (inf : Nat) :
    (e.advertise inf).rtAdvertisedHops = e.route.gives inf := by
  unfold advertise Route.gives
  rw [pathGetMaxHopcount_eq]
  split
  · rename_i hadv
    exact (if_pos hadv).symm
  · rename_i hadv
    exact (if_neg hadv).symm

namespace Exec

variable {env : Env} {x y z : Exec} {d i : NsAddr} {e : RtEntry} {p : Packet}

/-- The number and the hop count a live entry is told with. -/
def offers (inf : Nat) (x : Exec) (d : NsAddr) : Option (Nat × Nat) :=
  (x.routeOf d).bind (fun r => if r.flags = .up then some (r.seqno, r.gives inf) else none)

/-- The same once the entry for `d` has been recorded as `r` and what is buffered for it sent off. -/
def offersWith (env : Env) (x : Exec) (d : NsAddr) (r : RtEntry) (k : NsAddr) : Option (Nat × Nat) :=
  if k ≠ d then x.offers env.inf k
  else if x.WearsOut r.rtPathList (x.buffered env d) then none
  else some (r.rtSeqno, r.route.gives env.inf)

theorem offers_of_up {inf : Nat} (he : x.rtLookup d = some e) (hup : e.rtFlags = .up) :
    x.offers inf d = some (e.rtSeqno, e.route.gives inf) := by
  unfold offers
  rw [routeOf_of_rtLookup he]
  exact if_pos hup

theorem offers_of_not_up {inf : Nat} (he : x.rtLookup d = some e) (hup : e.rtFlags ≠ .up) : x.offers inf d = none := by
  unfold offers
  rw [routeOf_of_rtLookup he]
  exact if_neg hup

theorem offers_of_none {inf : Nat} (he : x.rtLookup d = none) : x.offers inf d = none := by
  unfold offers routeOf
  rw [he]
  rfl

/-- Only a live entry is told of. -/
theorem offers_eq_some {inf : Nat} {o : Nat × Nat} (h : x.offers inf d = some o) :
    ∃ e, x.rtLookup d = some e ∧ e.rtFlags = .up ∧ o = (e.rtSeqno, e.route.gives inf) := by
  cases he : x.rtLookup d with
  | none =>
    rw [offers_of_none he] at h
    cases h
  | some e =>
    by_cases hup : e.rtFlags = .up
    · rw [offers_of_up he hup] at h
      exact ⟨e, rfl, hup, (Option.some.inj h).symm⟩
    · rw [offers_of_not_up he hup] at h
      cases h

theorem offers_congr {inf : Nat} (h : y.routeOf = x.routeOf) : y.offers inf = x.offers inf := by
  unfold offers
  rw [h]

/-- Freezing the hop count of the entry is no change of what is told of it. -/
theorem offers_advertise {inf : Nat} (he : x.rtLookup d = some e) :
    Exec.offers inf (x.rtModify d (fun rt => rt.advertise inf)) d = x.offers inf d := by
  have hsome := rtLookup_rtModify he (f := fun rt => rt.advertise inf) ((rtDst_advertise e inf).trans (rtDst_of_rtLookup he))
  have hflags : (e.advertise inf).rtFlags = e.rtFlags := by
    unfold RtEntry.advertise
    split <;> rfl
  have hseqno : (e.advertise inf).rtSeqno = e.rtSeqno := by
    unfold RtEntry.advertise
    split <;> rfl
  by_cases hup : e.rtFlags = .up
  · rw [offers_of_up he hup, offers_of_up hsome (hflags.trans hup), hseqno, e.gives_advertise]
  · rw [offers_of_not_up he hup, offers_of_not_up hsome (fun h => hup (hflags.symm.trans h))]

/-! ## After the buffer was sent off -/

/-- What is the same of a live entry with one path, whatever a handler does that heard of nothing. -/
structure Lone (inf : Nat) (r₀ r : Route) : Prop where
  seqno : r.seqno = r₀.seqno
  hops : r.hops = r₀.hops
  gives : r.gives inf = r₀.gives inf

theorem Lone.rule {inf : Nat} {k : Int} {r₀ r r' : Route} (hone : r₀.hops.length = 1) (hr : r.flags = .up → Lone inf r₀ r)
    (hrule : Rule inf k .nothing r r') (hup : r'.flags = .up) : Lone inf r₀ r' := by
  cases hrule with
  | keep => exact hr hup
  | lose hs hup' hne hsub =>
    have h := hr hup'
    have hle : r.hops.length ≤ hs.length := by
      rw [h.hops, hone]
      exact List.length_pos_of_ne_nil hne
    obtain rfl := hsub.eq_of_length_le hle
    exact ⟨h.seqno, h.hops, h.gives⟩
  | freeze _ hadv =>
    have h := hr hup
    exact ⟨h.seqno, h.hops, (r.gives_freeze hadv).trans h.gives⟩

/-- A single path that is left is the one there was. -/
theorem lone_of_flush (hq : x.DataQueue) (hone : (x.routeFor d).hops.length = 1) :
    Ends (fun y => (y.routeFor d).flags = .up → Lone env.inf (x.routeFor d) (y.routeFor d)) (x.flush env d) := by
  have ht : Trace env .nothing x (x.flush env d) := flush_trace d hq
  exact routeFor_of_trace (fun _ _ _ hr _ hrule hup => Lone.rule hone hr hrule hup) (fun _ _ _ h => nomatch h) ht
    (fun _ => ⟨rfl, rfl, rfl⟩)

/-- **What is told of an entry after the flush**: what was recorded, unless it was worn out. -/
theorem Flushed.offers {r : RtEntry} (hf : Flushed env d r x y e) (hq : x.DataQueue)
    (hone : r.rtPathList.length = 1 ∨ x.buffered env d = []) (k : NsAddr) :
    y.offers env.inf k = x.offersWith env d r k := by
  unfold offersWith
  by_cases hk : k = d
  swap
  · rw [if_pos hk]
    unfold Exec.offers routeOf
    rw [hf.spares.others k hk]
  subst hk
  rw [if_neg (not_not.2 rfl)]
  by_cases hworn : x.WearsOut r.rtPathList (x.buffered env k)
  · rw [if_pos hworn, offers_of_not_up hf.entry (fun hup => hf.kept.2.1 hup (hf.empty.2 hworn))]
  rw [if_neg hworn]
  have hup : e.rtFlags = .up := hf.kept.2.2 (fun hnil => hworn (hf.empty.1 hnil))
  rw [offers_of_up hf.entry hup]
  obtain ⟨z, e₀, hl, hr, hz⟩ := hf.recorded
  have hqueue : z.DataQueue := fun q hm => hq q (hl.queue ▸ hm)
  have hroute : e₀.route.gives env.inf = r.route.gives env.inf := by
    have hadv : e₀.route.adv = r.route.adv := hr.adv
    have hhops : e₀.route.hops = r.route.hops := hr.hops
    unfold Route.gives
    rw [hadv, hhops]
  rcases hone with hone | hidle
  · have hfor := routeFor_of_rtLookup hl.entry
    have hone : (z.routeFor k).hops.length = 1 := by
      rw [hfor]
      show (e₀.rtPathList.map Path.hop).length = 1
      rw [hr.hops, List.length_map]
      exact hone
    have hs : (y.routeFor k).flags = .up → Lone env.inf (z.routeFor k) (y.routeFor k) := lone_of_flush hqueue hone y hz
    rw [routeFor_of_rtLookup hf.entry, hfor] at hs
    have hseqno : e.rtSeqno = e₀.rtSeqno := (hs hup).seqno
    rw [(hs hup).gives, hseqno, hr.seqno, hroute]
  · have hidle : z.buffered env k = [] := by
      rw [← hidle]
      unfold buffered
      rw [hl.queue]
    have he := flush_idle hl.entry hr.up hidle y hz
    obtain rfl := Option.some.inj (hf.entry.symm.trans he)
    have hsame : (e₀.resetSoftState).route = e₀.route := rfl
    rw [hsame, hroute, ← hr.seqno]
    rfl

/-! ## The answers -/

/-- The hop counts that the packets sent give away. -/
def told (i : NsAddr) (x : Exec) : List (NsAddr × Nat) := x.sent.filterMap (Packet.tells i)

theorem told_congr (h : y.sent = x.sent) (i : NsAddr) : y.told i = x.told i := congrArg (List.filterMap (Packet.tells i)) h

/-- The packets sent give away this hop count, cut to 8 bits, and no other; a live entry has it. -/
structure Tells (inf : Nat) (i : NsAddr) (o : Option (NsAddr × Nat)) (x : Exec) : Prop where
  told : x.told i = (o.map (fun t => (t.1, u8 t.2))).toList
  backed : ∀ t, o = some t → ∃ s, x.offers inf t.1 = some (s, t.2)

theorem Tells.of_none {inf : Nat} (h : x.told i = []) : Tells inf i none x := ⟨h, nofun⟩

theorem Tells.free {inf : Nat} (h : x.told i = []) (p : Packet) : Tells inf i none (x.free p) :=
  .of_none ((told_congr (sent_free x p) i).trans h)

/-- What is told of destination `d`. -/
def tellsOf (offers : NsAddr → Option (Nat × Nat)) (d : NsAddr) : Option (NsAddr × Nat) := (offers d).map (fun o => (d, o.2))

/-- One packet that tells of a live entry, its hop count frozen for it. -/
theorem Emits.tells {go : Prop} [Decidable go] {body : Body} {inf : Nat} (he : x.rtLookup d = some e) (hup : e.rtFlags = .up)
    (hx : x.told i = []) (h : (x.rtModify d (fun rt => rt.advertise inf)).Emits go body y)
    (hb : ∀ q : Packet, q.ptype = .teaomdv → q.body = body → q.tells i = some (d, u8 (e.advertise inf).rtAdvertisedHops)) :
    Tells inf i (if go then tellsOf (x.offers inf) d else none) y := by
  have hoffers : x.offers inf d = some (e.rtSeqno, e.route.gives inf) := offers_of_up he hup
  rcases h.sent with ⟨hno, hsent⟩ | ⟨hgo, q, hsent, hbody, hp⟩
  · rw [if_neg hno]
    exact .of_none ((told_congr hsent i).trans hx)
  · rw [if_pos hgo]
    unfold tellsOf
    rw [hoffers]
    refine ⟨?_, fun t ht => ⟨e.rtSeqno, ?_⟩⟩
    · have hx : List.filterMap (Packet.tells i) (x.rtModify d (fun rt => rt.advertise inf)).sent = [] := hx
      show List.filterMap (Packet.tells i) y.sent = _
      rw [hsent, List.filterMap_append, hx, List.filterMap_cons_some (hb q hp hbody), e.rtAdvertisedHops_advertise]
      rfl
    · obtain rfl := Option.some.inj ht
      rw [offers_congr h.routes, offers_advertise he]
      exact hoffers

section Request

variable {rq : Rreq}

theorem relayRequest_tells (he : x.rtLookup rq.rqSrc = some e) (hk : e.Kept) (hp : p.ptype = .teaomdv)
    (hsrc : rq.rqSrc ≠ i) (hx : x.told i = []) (rt : Option RtEntry) (kill : Bool) :
    Ends (Tells env.inf i (if kill = false ∧ x.goesOn p then tellsOf (x.offers env.inf) rq.rqSrc else none))
      (x.relayRequest env p rq rt kill) := by
  refine Ends.mono (relayRequest_ends hp rt kill) (fun y hy => ?_)
  rcases hy with ⟨rfl, rfl⟩ | ⟨rfl, e', f, rq', he', hf, hsrc', hhops, hy⟩
  · exact .free hx p
  · obtain rfl := Option.some.inj (he.symm.trans he')
    have hup := hk.2.2 (ne_nil_of_pathFind hf)
    simp only [true_and]
    refine hy.tells he hup hx (fun q hq hb => ?_)
    rw [Packet.tells_rreq hq hb, if_neg (hsrc' ▸ hsrc), hsrc', hhops]

theorem replyFromTable_tells {rt : RtEntry} (hrt : x.rtLookup rq.rqDst = some rt) (hup : rt.rtFlags = .up)
    (hdst : rq.rqDst ≠ i) (hx : x.told i = []) (reverse : Bool) :
    Ends (Tells env.inf i (if x.repliesOnce rq reverse then tellsOf (x.offers env.inf) rq.rqDst else none))
      (x.replyFromTable env p rq rt reverse) := by
  refine Ends.mono (replyFromTable_ends reverse) (fun y hy => ?_)
  rcases hy with ⟨hno, rfl⟩ | ⟨hgo, f, rp, hf, hdst', hhops, hy⟩
  · rw [if_neg hno]
    exact .free hx p
  · have ht : Tells env.inf i (if True then tellsOf (x.offers env.inf) rq.rqDst else none) y := by
      refine Emits.tells (x := x.idMark rq.rqSrc rq.rqBcastId) hrt hup hx hy (fun q hq hb => ?_)
      rw [Packet.tells_rrep hq hb, if_neg (hdst' ▸ hdst), hdst', hhops]
    rw [if_pos hgo]
    rwa [if_pos trivial] at ht

/-- What the answer to a request tells: of the destination in a reply, else of the source. -/
def answerTells (offers : NsAddr → Option (Nat × Nat)) (i : NsAddr) (rq : Rreq) (replies relays : Prop) [Decidable replies]
    [Decidable relays] : Option (NsAddr × Nat) :=
  if rq.rqDst = i then none
  else if (offers rq.rqDst).any (fun o => o.1 ≥ rq.rqDstSeqno) then if replies then tellsOf offers rq.rqDst else none
  else if relays then tellsOf offers rq.rqSrc else none

theorem answerRequest_tells (he : x.rtLookup rq.rqSrc = some e) (hk : e.Kept) (hp : p.ptype = .teaomdv)
    (hsrc : rq.rqSrc ≠ x.index) (hx : x.told x.index = []) (kill reverse : Bool) :
    Ends (Tells env.inf x.index (answerTells (x.offers env.inf) x.index rq (x.repliesOnce rq reverse)
      (kill = false ∧ x.goesOn p))) (x.answerRequest env p rq kill reverse) := by
  unfold answerRequest answerTells
  by_cases hdst : rq.rqDst = x.index
  · rw [if_pos hdst, if_pos hdst]
    obtain ⟨rp, hrp, hy⟩ := replyAsDestination_emits env x p rq
    obtain ⟨q, hsent, hb, hq⟩ := (hy.sent.resolve_left (fun h => h.1 trivial)).2
    refine Ends.ok (.of_none ?_)
    show List.filterMap (Packet.tells x.index) _ = []
    have hx : x.sent.filterMap (Packet.tells x.index) = [] := hx
    have hnone : q.tells x.index = none := by rw [Packet.tells_rrep hq hb, if_pos hrp]
    rw [hsent, List.filterMap_append, hx, List.filterMap_cons_none hnone]
    rfl
  rw [if_neg hdst, if_neg hdst]
  cases hrt : x.rtLookup rq.rqDst with
  | none =>
    rw [offers_of_none hrt]
    exact relayRequest_tells he hk hp hsrc hx none kill
  | some rt =>
    simp only
    by_cases hup : rt.rtFlags = .up
    · rw [offers_of_up hrt hup, Option.any_some]
      by_cases hlive : rt.rtSeqno ≥ rq.rqDstSeqno
      · have hgo : rt.rtFlags = .up ∧ rt.rtSeqno ≥ rq.rqDstSeqno := ⟨hup, hlive⟩
        rw [if_pos hgo, decide_eq_true hlive, if_pos rfl]
        exact replyFromTable_tells hrt hup hdst hx reverse
      · have hno : ¬ (rt.rtFlags = .up ∧ rt.rtSeqno ≥ rq.rqDstSeqno) := fun h => hlive h.2
        rw [if_neg hno, decide_eq_false hlive]
        exact relayRequest_tells he hk hp hsrc hx (some rt) kill
    · have hno : ¬ (rt.rtFlags = .up ∧ rt.rtSeqno ≥ rq.rqDstSeqno) := fun h => hup h.1
      rw [offers_of_not_up hrt hup, if_neg hno]
      exact relayRequest_tells he hk hp hsrc hx (some rt) kill

end Request

theorem relayReply_tells {rp : Rrep} (he : x.rtLookup rp.rpDst = some e) (hk : e.Kept) (hp : p.ptype = .teaomdv)
    (hdst : rp.rpDst ≠ i) (hx : x.told i = []) :
    Ends (Tells env.inf i (if x.relaysOnce p rp ∧ x.goesOn p then tellsOf (x.offers env.inf) rp.rpDst else none))
      (x.relayReply env p rp) := by
  refine Ends.mono (relayReply_ends hp rp) (fun y hy => ?_)
  rcases hy with ⟨hno, rfl⟩ | ⟨hgo, e', f, rp', he', hf, hdst', hhops, hy⟩
  · rw [if_neg (fun h => hno h.1)]
    exact .free hx p
  · obtain rfl := Option.some.inj (he.symm.trans he')
    have hup := hk.2.2 (ne_nil_of_pathFind hf)
    simp only [hgo, true_and]
    refine Emits.tells (x := x.idMark p.daddr rp.rpBcastId) he hup hx hy (fun q hq hb => ?_)
    rw [Packet.tells_rrep hq hb, if_neg (hdst' ▸ hdst), hdst', hhops]

/-! ## A packet received -/

/-- Which destination, and which hop count, the answer to a request gives away. -/
def requestTells (env : Env) (x : Exec) (p : Packet) (rq : Rreq) : Option (NsAddr × Nat) :=
  (x.requestPaths env p rq).bind (fun ps =>
    answerTells (x.offersWith env rq.rqSrc ((x.entryFor env rq.rqSrc).recorded env.inf rq.rqSrcSeqno ps)) x.index rq
      (x.repliesOnce rq (x.setsReverse env p (x.seenRequest p rq) (x.entryFor env rq.rqSrc)))
      ((x.idGet rq.rqSrc rq.rqBcastId).isSome = false ∧ x.goesOn p))

/-- Which destination, and which hop count, a reply passed on gives away. -/
def replyTells (env : Env) (x : Exec) (p : Packet) (rp : Rrep) : Option (NsAddr × Nat) :=
  (x.replyPaths env p rp).bind (fun ps =>
    let offers := x.offersWith env rp.rpDst ((x.entryFor env rp.rpDst).recorded env.inf rp.rpDstSeqno ps)
    if p.daddr ≠ x.index ∧ (offers p.daddr).isSome ∧ (∃ i ∈ x.idGet p.daddr rp.rpBcastId, i.count = 0) ∧ x.goesOn p
    then tellsOf offers rp.rpDst else none)

/-- Which destination, and which hop count, an invocation gives away, read off the state before it. -/
def tells (env : Env) (x : Exec) (inp : Input) : Option (NsAddr × Nat) :=
  match inp with
  | .recv p =>
    if p.ptype ≠ .teaomdv then none
    else match p.body with
    | .rreq rq => x.requestTells env { p with ttl := p.ttl - 1 } rq
    | .rrep rp => x.replyTells env { p with ttl := p.ttl - 1 } rp
    | _ => none
  | _ => none

/-- A RREQ or RREP that brings its entry up leaves it one path. -/
theorem single_or_up_reverse {rq : Rreq} {ps : List Path} (h : e.reversePaths env x p rq = some ps) :
    ps.length = 1 ∨ e.rtFlags = .up := by
  unfold RtEntry.reversePaths at h
  split at h
  · obtain rfl := Option.some.inj h
    exact .inl rfl
  · split at h
    · cases h
    · rename_i hgo
      exact .inr (not_not.1 (fun hup => hgo (.inr (.inr hup))))

theorem single_or_up_forward {rp : Rrep} {nbt : Option Neighbor} {ps : List Path}
    (h : e.forwardPaths env x rp nbt = some ps) : ps.length = 1 ∨ e.rtFlags = .up := by
  unfold RtEntry.forwardPaths at h
  split at h
  · obtain rfl := Option.some.inj h
    exact .inl rfl
  · split at h
    · cases h
    · rename_i hgo
      exact .inr (not_not.1 (fun hup => hgo (.inr (.inr hup))))

theorem told_eq_nil (h : ∀ q ∈ x.sent, q.tells i = none) : x.told i = [] := List.filterMap_eq_nil_iff.2 h

theorem told_of_log (hlog : x.log = []) (i : NsAddr) : x.told i = [] := by
  refine told_eq_nil (fun q hq => ?_)
  obtain ⟨t, hm⟩ := mem_log_of_sent hq
  rw [hlog] at hm
  exact absurd hm List.not_mem_nil

/-- What was sent before the answer tells nothing. -/
theorem Flushed.told {r : RtEntry} (hf : Flushed env d r x y e) (hlog : x.log = []) (i : NsAddr) : y.told i = [] := by
  refine told_eq_nil (fun q hq => ?_)
  by_cases ht : q.ptype = .teaomdv
  · obtain ⟨t, hm⟩ := mem_log_of_sent hq
    rcases hf.mute.sent q t hm ht with hmute | ⟨t', hold⟩
    · exact hmute.tells i
    · rw [hlog] at hold
      exact absurd hold List.not_mem_nil
  · exact Packet.tells_of_ptype ht i

theorem recvRequest_tells {rq : Rreq} (hp : p.ptype = .teaomdv) (hx : x.toAgent.Tidy) (hw : x.Waits) (hlog : x.log = []) :
    Ends (Tells env.inf x.index (x.requestTells env p rq)) (x.recvRequest env p rq) := by
  have hspec := recvRequest_spec env p rq hx
  unfold requestTells
  cases hps : x.requestPaths env p rq with
  | none =>
    rw [hps] at hspec
    rcases hspec with ⟨y, hy, hl⟩ | ⟨s, hs⟩
    · rw [hy]
      exact Ends.ok (.free (told_of_log (hl.trans hlog) x.index) p)
    · rw [hs]
      exact Ends.error _
  | some ps =>
    rw [hps] at hspec
    obtain ⟨ids, y, e, hy, hids, hsrc, hf⟩ := hspec
    have hone : ps.length = 1 ∨ x.buffered env rq.rqSrc = [] := by
      unfold requestPaths at hps
      split at hps
      · cases hps
      · exact (single_or_up_reverse hps).imp_right (unbuffered hw)
    have hoffers : y.offers env.inf = x.offersWith env rq.rqSrc
        ((x.entryFor env rq.rqSrc).recorded env.inf rq.rqSrcSeqno ps) := funext (hf.offers hx.data hone)
    have hindex : y.index = x.index := hf.spares.index
    have hseen : (x.seenRequest p rq).rqSrc = rq.rqSrc ∧ (x.seenRequest p rq).rqDst = rq.rqDst ∧
        (x.seenRequest p rq).rqDstSeqno = rq.rqDstSeqno ∧ (x.seenRequest p rq).rqBcastId = rq.rqBcastId := by
      rw [seenRequest_eq]
      exact ⟨rfl, rfl, rfl, rfl⟩
    have hgoes : y.goesOn p ↔ x.goesOn p := by
      unfold goesOn forMe
      rw [hf.spares.here]
    have honce : ∀ reverse, y.repliesOnce (x.seenRequest p rq) reverse ↔ x.repliesOnce rq reverse := by
      intro reverse
      unfold repliesOnce
      rw [hseen.1, hseen.2.2.2, ← unanswered_cached env x rq.rqSrc rq.rqBcastId (fun b => b.count = 0) (fun _ => rfl)]
      unfold idGet
      rw [hf.spares.ids, hids]
      rfl
    rw [hy]
    have ht := @answerRequest_tells env _ _ p (x.seenRequest p rq) (hseen.1.symm ▸ hf.entry) hf.kept hp
      (hindex.symm ▸ hseen.1.symm ▸ hsrc) (hf.told hlog y.index) (x.idGet rq.rqSrc rq.rqBcastId).isSome
      (x.setsReverse env p (x.seenRequest p rq) (x.entryFor env rq.rqSrc))
    unfold answerTells at ht ⊢
    simp only [hseen, hindex, hoffers, hgoes, honce] at ht
    exact ht

theorem recvReply_tells {rp : Rrep} (hp : p.ptype = .teaomdv) (hx : x.toAgent.Tidy) (hw : x.Waits) (hlog : x.log = []) :
    Ends (Tells env.inf x.index (x.replyTells env p rp)) (x.recvReply env p rp) := by
  have hspec := recvReply_spec env p rp hx
  unfold replyTells
  cases hps : x.replyPaths env p rp with
  | none =>
    rw [hps] at hspec
    rcases hspec with ⟨y, hy, hl⟩ | ⟨s, hs⟩
    · rw [hy]
      exact Ends.ok (.free (told_of_log (hl.trans hlog) x.index) p)
    · rw [hs]
      exact Ends.error _
  | some ps =>
    rw [hps] at hspec
    obtain ⟨y, e, hy, hdst, hf⟩ := hspec
    have hone : ps.length = 1 ∨ x.buffered env rp.rpDst = [] := by
      unfold replyPaths at hps
      split at hps
      · cases hps
      · exact (single_or_up_forward hps).imp_right (unbuffered hw)
    have hoffers : y.offers env.inf = x.offersWith env rp.rpDst
        ((x.entryFor env rp.rpDst).recorded env.inf rp.rpDstSeqno ps) := funext (hf.offers hx.data hone)
    have hindex : y.index = x.index := hf.spares.index
    rw [hy, hindex, Option.bind_some]
    simp only
    by_cases hd : p.daddr = x.index
    · rw [if_pos hd, if_neg (fun h => h.1 hd)]
      exact Ends.ok (.free (hf.told hlog x.index) p)
    rw [if_neg hd, ← hoffers]
    obtain ⟨t, hlow⟩ := lowerForward_eq rp (x.nbLookup p.prevHop)
    rw [hlow]
    have hgoes : y.goesOn p ↔ x.goesOn p := by
      unfold goesOn forMe
      rw [hf.spares.here]
    have hup : (∃ e ∈ y.rtLookup p.daddr, e.rtFlags = .up) ↔ (y.offers env.inf p.daddr).isSome := by
      constructor
      · rintro ⟨e, he, hup⟩
        rw [offers_of_up he hup]
        rfl
      · intro h
        obtain ⟨o, ho⟩ := Option.isSome_iff_exists.1 h
        obtain ⟨e, he, hup, -⟩ := offers_eq_some ho
        exact ⟨e, he, hup⟩
    have honce : y.relaysOnce p { rp with FPT := t } ↔
        (y.offers env.inf p.daddr).isSome ∧ ∃ i ∈ x.idGet p.daddr rp.rpBcastId, i.count = 0 := by
      unfold relaysOnce
      rw [hup]
      unfold idGet
      rw [hf.spares.ids]
    have ht := @relayReply_tells env _ _ _ p { rp with FPT := t } hf.entry hf.kept hp hdst (hf.told hlog x.index)
    simp only [honce, hgoes, and_assoc] at ht
    simp only [ne_eq, hd, not_false_eq_true, true_and]
    exact ht

/-! ### Everything else -/

/-- No hop count out of the table goes out. -/
def silentTerms (x : Exec) : Terms where
  index := x.index
  heap := 0
  waits := fun q => q.ptype ≠ .teaomdv
  goes := fun q => q.tells x.index = none

theorem silentTerms_lawful (x : Exec) : x.silentTerms.Lawful where
  flush := fun _ _ hq _ => Packet.tells_of_ptype hq _
  news := fun _ hq _ _ _ _ => hq.tells _
  request := by
    intro q rq hb hsrc _ _
    show q.tells x.index = none
    unfold Packet.tells
    have hsrc : rq.rqSrc = x.index := hsrc
    simp [hb, hsrc]
  fresh := fun _ _ _ => trivial
  notes := fun _ _ _ _ => trivial

theorem handle_silent {inp : Input} (hq : x.DataQueue) (hlog : x.log = []) (hin : x.Takes x.silentTerms env inp) :
    Ends (fun y => y.told x.index = []) (x.handle env inp) := by
  have hx : x.Meets x.silentTerms :=
    ⟨rfl, Nat.zero_le _, trivial, fun q hm => (hq q hm).1, by simp [hlog], fun _ _ => trivial⟩
  refine Ends.mono (handle_meets x.silentTerms_lawful hin hx) (fun y hy => told_eq_nil (fun q hm => ?_))
  obtain ⟨t, ht⟩ := mem_log_of_sent hm
  exact hy.sent q t ht

theorem exists_heard (ht : p.ptype = .teaomdv) (hb : (∃ rq, p.body = .rreq rq) ∨ ∃ rp, p.body = .rrep rp) :
    ∃ a, x.heard (.recv p) = .advert a := by
  rcases hb with ⟨rq, hb⟩ | ⟨rp, hb⟩
  · simp only [heard, if_pos ht, hb]
    exact ⟨_, rfl⟩
  · simp only [heard, if_pos ht, hb]
    exact ⟨_, rfl⟩

theorem silentTerms_recv (hno : ∀ a, x.heard (.recv p) ≠ .advert a) : x.Admits x.silentTerms env p := by
  have hrq : ∀ rq, p.ptype = .teaomdv → p.body ≠ .rreq rq := by
    intro rq ht hb
    obtain ⟨a, ha⟩ := exists_heard (x := x) ht (.inl ⟨rq, hb⟩)
    exact hno a ha
  have hrp : ∀ rp, p.ptype = .teaomdv → p.body ≠ .rrep rp := by
    intro rp ht hb
    obtain ⟨a, ha⟩ := exists_heard (x := x) ht (.inr ⟨rp, hb⟩)
    exact hno a ha
  refine ⟨fun h _ => ptype_passed h, fun h _ => Packet.tells_of_ptype (ptype_passed h) _, fun ht _ q _ hq => ?_,
    fun rq ht hb => absurd hb (hrq rq ht), fun rp ht hb => absurd hb (hrp rp ht), fun rq ht hb => absurd hb (hrq rq ht),
    fun rq ht hb => absurd hb (hrq rq ht), fun rp ht hb => absurd hb (hrp rp ht),
    fun _ _ _ => ⟨fun _ _ => trivial, fun _ _ _ _ _ _ => trivial⟩, fun _ _ _ _ => trivial⟩
  exact Packet.tells_of_ptype (hq ▸ ht) _

/-- **What an invocation tells**, by the state it finds: at most one hop count, that of a live entry. -/
theorem handle_tells {inp : Input} (hx : x.toAgent.Tidy) (hw : x.Waits) (hlog : x.log = []) :
    Ends (Tells env.inf x.index (x.tells env inp)) (x.handle env inp) := by
  have hother : x.tells env inp = none → x.Takes x.silentTerms env inp →
      Ends (Tells env.inf x.index (x.tells env inp)) (x.handle env inp) := by
    intro hnone hin
    rw [hnone]
    exact Ends.mono (handle_silent hx.data hlog hin) (fun y hy => .of_none hy)
  cases inp with
  | recv p =>
    by_cases hno : ∀ a, x.heard (.recv p) ≠ .advert a
    · refine hother ?_ (silentTerms_recv hno)
      simp only [tells]
      split
      · rfl
      rename_i ht
      split
      · rename_i rq hb
        obtain ⟨a, ha⟩ := exists_heard (x := x) (not_not.1 ht) (.inl ⟨rq, hb⟩)
        exact absurd ha (hno a)
      · rename_i rp hb
        obtain ⟨a, ha⟩ := exists_heard (x := x) (not_not.1 ht) (.inr ⟨rp, hb⟩)
        exact absurd ha (hno a)
      · rfl
    push Not at hno
    obtain ⟨a, ha⟩ := hno
    obtain ⟨q, heq, ht, hb⟩ := heard_advert ha
    cases heq
    show Ends _ (x.recv env p)
    by_cases hport : p.sport = rtPort ∧ p.dport = rtPort
    · have hroute : ¬ p.ptype ≠ .teaomdv := not_not.2 ht
      rcases hb with ⟨rq, hb, -⟩ | ⟨rp, hb, -⟩
      · have htells : x.tells env (.recv p) = x.requestTells env { p with ttl := p.ttl - 1 } rq := by
          simp only [tells, if_neg hroute, hb]
        rw [htells, recv_rreq ht hport hb]
        exact recvRequest_tells (p := { p with ttl := p.ttl - 1 }) ht hx hw hlog
      · have htells : x.tells env (.recv p) = x.replyTells env { p with ttl := p.ttl - 1 } rp := by
          simp only [tells, if_neg hroute, hb]
        rw [htells, recv_rrep ht hport hb]
        exact recvReply_tells (p := { p with ttl := p.ttl - 1 }) ht hx hw hlog
    · rw [recv_of_port ht hport]
      exact Ends.error _
  | tap | rtLlFailed => exact hother rfl trivial
  | timer t =>
    cases t with
    | trust => exact hother rfl (fun _ _ => trivial)
    | neighbor ifq =>
      refine hother rfl (fun id p _ hdata _ n => Packet.tells_of_ptype ?_ _)
      rintro (ht : p.ptype = .teaomdv)
      rw [ht] at hdata
      cases hdata
    | broadcast | hello | probe | routeCache | localRepair => exact hother rfl trivial

end Exec

end TeAomdv

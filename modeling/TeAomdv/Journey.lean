import TeAomdv.Identity
import TeAomdv.Stale
import Mathlib.Tactic.Linarith
/-!
# Journey — how each node on the way takes a discovery, and the packet it is for, one hop on

Along a chain of nodes that trust each other and know neither end of the chain, each handler does one thing: a request heard for
the first time is recorded and passed on, the destination answers, the answer is recorded and passed back, and at the source it
sends off the packet that was waiting.
-/
namespace TeAomdv

open Fallible (ok_bind)

/-- The packet as its receiver takes it up, with one hop less to go. -/
def Packet.arrived (q : Packet) (ptr : Nat) : Packet := { q.received ptr with ttl := q.ttl - 1 }

/-- The packet as node `i` hands it to node `n`. -/
def Packet.handed (p : Packet) (i n : NsAddr) : Packet :=
  { p with addrType := .inet, nextHop := n, pprevHop := p.prevHop, prevHop := i, direction := .down }

/-- The entry sends packets by way of `n`, and trusts that path. -/
structure RtEntry.Leads (n : NsAddr) (e : RtEntry) : Prop where
  up : e.rtFlags = .up
  hops : e.rtHops ≠ infinity2
  path : ∃ f, e.pathFind = some f ∧ f.nexthop = n ∧ trustThreshold ≤ f.FPT

namespace RtEntry.Leads

variable {e e' : RtEntry} {n : NsAddr}

theorem congr (h : e.Leads n) (hup : e'.rtFlags = e.rtFlags) (hhops : e'.rtHops = e.rtHops)
    (hpaths : e'.rtPathList = e.rtPathList) : e'.Leads n := by
  refine ⟨hup.trans h.up, hhops.symm ▸ h.hops, ?_⟩
  unfold pathFind
  rw [hpaths]
  exact h.path

theorem pcInsert (h : e.Leads n) (m : NsAddr) : (e.pcInsert m).Leads n := by
  unfold RtEntry.pcInsert
  split
  · exact h
  · exact h.congr rfl rfl rfl

theorem advertise (h : e.Leads n) (inf : Nat) : (e.advertise inf).Leads n := by
  unfold RtEntry.advertise
  split
  · exact h.congr rfl rfl rfl
  · exact h

/-- A write to the first path that leaves its next hop, and trust enough. -/
theorem modifyFind (h : e.Leads n) {g : Path → Path} (hg : ∀ f, (g f).nexthop = f.nexthop)
    (ht : ∀ f, trustThreshold ≤ f.FPT → trustThreshold ≤ (g f).FPT) : (e.modifyFind g).Leads n := by
  obtain ⟨f, hf, hn, htrust⟩ := h.path
  exact ⟨h.up, h.hops, g f, Exec.pathFind_modifyFind hf g, (hg f).trans hn, ht f htrust⟩

end RtEntry.Leads

/-- Packets for `d` go out by way of `n`. -/
def Exec.Leading (d n : NsAddr) (x : Exec) : Prop := ∃ e, x.rtLookup d = some e ∧ e.Leads n

namespace Exec.Leading

variable {x y : Exec} {d n : NsAddr}

theorem congr (h : x.Leading d n) (htable : y.rtable = x.rtable) : y.Leading d n := by
  obtain ⟨e, he, hl⟩ := h
  exact ⟨e, (rtLookup_congr htable d).trans he, hl⟩

theorem rtModify (h : x.Leading d n) {f : RtEntry → RtEntry} (hdst : ∀ e, (f e).rtDst = e.rtDst)
    (hf : ∀ e : RtEntry, e.Leads n → (f e).Leads n) : (x.rtModify d f).Leading d n := by
  obtain ⟨e, he, hl⟩ := h
  exact ⟨f e, rtLookup_rtModify he ((hdst e).trans (rtDst_of_rtLookup he)), hf e hl⟩

end Exec.Leading

/-- A discovery: who asks for whom, under which id and which number. -/
structure Search where
  src : NsAddr
  dst : NsAddr
  bid : Nat
  seqno : Nat

namespace Search

/-- `rq` is a request of the search, `hops` hops from its source, on trusted ground. -/
structure Request (s : Search) (hops : Nat) (rq : Rreq) : Prop where
  src : rq.rqSrc = s.src
  dst : rq.rqDst = s.dst
  dstSeqno : rq.rqDstSeqno = 0
  bid : rq.rqBcastId = s.bid
  seqno : rq.rqSrcSeqno = s.seqno
  hopCount : rq.rqHopCount = hops
  threshold : rq.RT = trustThreshold
  trust : trustThreshold ≤ rq.RPT

/-- `q` is the RREQ of the search that node `i`, `hops` hops from its source, hands over. -/
structure Asks (s : Search) (hops : Nat) (i : NsAddr) (q : Packet) : Prop where
  ptype : q.ptype = .teaomdv
  ports : q.sport = rtPort ∧ q.dport = rtPort
  request : ∃ rq, q.body = .rreq rq ∧ s.Request hops rq
  saddr : q.saddr = i
  daddr : q.daddr = ipBroadcast
  addrType : q.addrType = .none
  ttl : q.ttl = networkDiameter - hops

/-- `rp` is a reply of the search, handed over by node `i`, on trusted ground. -/
structure Reply (s : Search) (i : NsAddr) (rp : Rrep) : Prop where
  src : rp.rpSrc = i
  dst : rp.rpDst = s.dst
  bid : rp.rpBcastId = s.bid
  seqno : 0 < rp.rpDstSeqno
  threshold : rp.RT = trustThreshold
  trust : trustThreshold ≤ rp.FPT

/-- `q` is the RREP of the search that node `i`, `hops` hops from its destination, hands to `n`. -/
structure Answers (s : Search) (hops : Nat) (i n : NsAddr) (q : Packet) : Prop where
  ptype : q.ptype = .teaomdv
  ports : q.sport = rtPort ∧ q.dport = rtPort
  reply : ∃ rp, q.body = .rrep rp ∧ s.Reply i rp
  daddr : q.daddr = s.src
  addrType : q.addrType = .inet
  nextHop : q.nextHop = n
  prevHop : q.prevHop = i
  ttl : q.ttl = networkDiameter - hops

/-- `q` is data packet `p` as node `i`, `hops` hops from its source, hands it to `n`. -/
structure Carries (s : Search) (p : Packet) (hops : Nat) (i n : NsAddr) (q : Packet) : Prop where
  ptype : q.ptype = p.ptype
  uid : q.uid = p.uid
  body : q.body = p.body
  saddr : q.saddr = s.src
  daddr : q.daddr = s.dst
  addrType : q.addrType = .inet
  nextHop : q.nextHop = n
  prevHop : q.prevHop = i
  ttl : q.ttl = networkDiameter - hops

/-- The search that a node's next request is for. -/
structure Next (s : Search) (x : Exec) : Prop where
  src : s.src = x.index
  bid : s.bid = x.bid
  seqno : s.seqno = u32 (x.seqno + 2)

end Search

namespace Agent

/-- The node never heard of the search, and holds nothing for its source. -/
structure Unaware (s : Search) (a : Agent) : Prop where
  entry : (a.exec 0).rtLookup s.src = none
  id : (a.exec 0).idGet s.src s.bid = none
  queue : ∀ q ∈ a.rqueue, q.daddr ≠ s.src

/-- The node knows no way to the destination, and holds nothing for it. -/
structure Lost (s : Search) (a : Agent) : Prop where
  entry : (a.exec 0).rtLookup s.dst = none
  queue : ∀ q ∈ a.rqueue, q.daddr ≠ s.dst

/-- The node recorded the request that `n` handed it, and did not answer it. -/
structure Heard (s : Search) (n : NsAddr) (a : Agent) : Prop where
  entry : ∃ e f, (a.exec 0).rtLookup s.src = some e ∧ e.rtFlags = .up ∧ e.pathFind = some f ∧ f.nexthop = n
  id : ∃ b, (a.exec 0).idGet s.src s.bid = some b ∧ b.count = 0

/-- Packet `p` waits at the source, at least until `t`. -/
structure Awaits (s : Search) (p : Packet) (t : ℚ) (a : Agent) : Prop where
  entry : ∃ e, (a.exec 0).rtLookup s.dst = some e ∧ e.rtSeqno = 0 ∧ e.rtHops ≠ infinity2
  queue : ∃ q, a.rqueue.filter (fun q => q.daddr = s.dst) = [q] ∧ t ≤ q.ts ∧ q.ptype = p.ptype ∧ q.uid = p.uid ∧
    q.body = p.body ∧ q.saddr = s.src ∧ q.ttl = networkDiameter

/-- The node forwards to the destination by way of `n`, and trusts that path. -/
def Leads (s : Search) (n : NsAddr) (a : Agent) : Prop := (a.exec 0).Leading s.dst n

/-- The node has nothing against `n`. -/
def Trusts (n : NsAddr) (a : Agent) : Prop := trustThreshold ≤ (a.exec 0).trustOf n

end Agent

namespace Exec

variable {env : Env} {x y : Exec} {d : NsAddr} {e : RtEntry} {s : Search} {i n : NsAddr} {hops : Nat} {q : Packet} {rq : Rreq}
  {rp : Rrep}

/-! ## What the routines do when there is nothing else to do -/

theorem flush_nothing (he : x.rtLookup d = some e) (hup : e.rtFlags = .up) (hq : ∀ q ∈ x.rqueue, q.daddr ≠ d) :
    x.flush env d = .ok ((x.rtModify d RtEntry.resetSoftState).rqPurge env) := by
  unfold flush drain drainLoop
  rw [he]
  simp only [hup, if_true]
  rcases deque_spec env (x.rtModify d RtEntry.resetSoftState) d with ⟨-, hdeque⟩ | ⟨q, y, -, hcons, -⟩
  · rw [hdeque]
  · have hmem : q ∈ (x.rtModify d RtEntry.resetSoftState).buffered env d := hcons ▸ List.mem_cons_self
    obtain ⟨hin, hd⟩ := List.mem_filter.1 hmem
    exact absurd (of_decide_eq_true hd).2 (hq q hin)

theorem rtEnsure_some (he : x.rtLookup d = some e) : x.rtEnsure env d = .ok x := by
  unfold rtEnsure
  rw [he]
  rfl

theorem rtEnsure_none (hnone : x.rtLookup d = none) :
    x.rtEnsure env d = .ok { x with rtable := { rtDst := d, rtHops := env.unsetHops } :: x.rtable } := by
  unfold rtEnsure rtAdd
  rw [hnone]
  rfl

theorem rtLookup_cons_self (hd : e.rtDst = d) : ({ x with rtable := e :: x.rtable } : Exec).rtLookup d = some e :=
  List.find?_cons_of_pos (by simpa using hd)

theorem rtLookup_cons_ne (hd : e.rtDst ≠ d) : ({ x with rtable := e :: x.rtable } : Exec).rtLookup d = x.rtLookup d :=
  List.find?_cons_of_neg (by simpa using hd)

/-! ## A request heard for the first time -/

/-- The node with the id cached and an entry for the source. -/
def noticed (env : Env) (rq : Rreq) (x : Exec) : Exec :=
  { x.idInsert env rq.rqSrc rq.rqBcastId with rtable := { rtDst := rq.rqSrc, rtHops := env.unsetHops } :: x.rtable }

/-- The node once the request is recorded and nothing was waiting for its source. -/
def recorded (env : Env) (p : Packet) (rq : Rreq) (x : Exec) : Exec :=
  (((x.noticed env rq).rtModify rq.rqSrc (renewReverse env p rq)).rtModify rq.rqSrc RtEntry.resetSoftState).rqPurge env

theorem rtLookup_noticed (env : Env) (rq : Rreq) (x : Exec) :
    (x.noticed env rq).rtLookup rq.rqSrc = some { rtDst := rq.rqSrc, rtHops := env.unsetHops } := rtLookup_cons_self rfl

theorem recvRequest_first (env : Env) {p : Packet} (hsrc : rq.rqSrc ≠ x.index) (ht : x.distrustsRequest p rq = false)
    (hnone : x.rtLookup rq.rqSrc = none) (hid : x.idGet rq.rqSrc rq.rqBcastId = none) (hseq : 0 < rq.rqSrcSeqno)
    (hq : ∀ q ∈ x.rqueue, q.daddr ≠ rq.rqSrc) :
    x.recvRequest env p rq = (x.recorded env p (x.seenRequest p rq)).answerRequest env p (x.seenRequest p rq) false true := by
  unfold recvRequest
  rw [if_neg hsrc, ht, hid]
  simp only [Bool.false_eq_true, if_false, Option.isSome_none]
  obtain ⟨h1, h2, h3⟩ : (x.seenRequest p rq).rqSrc = rq.rqSrc ∧ (x.seenRequest p rq).rqBcastId = rq.rqBcastId ∧
      (x.seenRequest p rq).rqSrcSeqno = rq.rqSrcSeqno := by
    rw [seenRequest_eq]
    exact ⟨rfl, rfl, rfl⟩
  generalize x.seenRequest p rq = rq' at h1 h2 h3 ⊢
  rw [← h1] at hnone hq
  rw [← h1, ← h2] at hid
  rw [← h3] at hseq
  have hprep : x.prepareRequest env rq' = .ok (x.noticed env rq') := by
    unfold prepareRequest
    rw [hid]
    exact rtEnsure_none (x := x.idInsert env rq'.rqSrc rq'.rqBcastId) hnone
  have hrev : (x.noticed env rq').reverseRoute env p rq' =
      .ok ((x.noticed env rq').rtModify rq'.rqSrc (renewReverse env p rq'), some true) := by
    unfold reverseRoute
    rw [rtLookup_noticed]
    exact if_pos hseq
  have hflush : ((x.noticed env rq').rtModify rq'.rqSrc (renewReverse env p rq')).flush env rq'.rqSrc =
      .ok (x.recorded env p rq') := flush_nothing (rtLookup_rtModify (rtLookup_noticed env rq' x) rfl) rfl hq
  rw [hprep, ok_bind, hrev, ok_bind]
  simp only
  rw [hflush, ok_bind]

/-- `w` is `x` with a request that was `hops` hops old when `i` handed it over recorded: one path to the source, and the id. -/
structure Took (s : Search) (hops : Nat) (i : NsAddr) (inf : Nat) (x w : Exec) : Prop where
  index : w.index = x.index
  here : w.hereAddr = x.hereAddr
  seqno : w.seqno = x.seqno
  sent : w.sent = x.sent
  trust : ∀ n, w.trustOf n = x.trustOf n
  queue : ∀ q ∈ w.rqueue, q ∈ x.rqueue
  others : ∀ d, d ≠ s.src → w.rtLookup d = x.rtLookup d
  id : ∃ b, w.idGet s.src s.bid = some b ∧ b.count = 0
  entry : ∃ e f, w.rtLookup s.src = some e ∧ e.rtFlags = .up ∧ e.rtAdvertisedHops = inf ∧ e.rtPathList = [f] ∧ f.nexthop = i ∧
    f.hopcount = hops + 1

theorem took_recorded (env : Env) (p : Packet) (hr : s.Request hops rq) (x : Exec) :
    Took s hops p.saddr env.inf x (x.recorded env p rq) := by
  have h1 := rtLookup_rtModify (rtLookup_noticed env rq x) (f := renewReverse env p rq) rfl
  have h2 := rtLookup_rtModify h1 (f := RtEntry.resetSoftState) rfl
  refine ⟨rfl, rfl, rfl, sent_rqPurge env _, fun _ => rfl, fun q hq => mem_rqPurge hq, fun d hd => ?_, ?_, ?_⟩
  · have hd : d ≠ rq.rqSrc := hr.src.symm ▸ hd
    have h1 : ((x.noticed env rq).rtModify rq.rqSrc (renewReverse env p rq)).rtLookup d = (x.noticed env rq).rtLookup d :=
      rtLookup_rtModify_ne hd (fun _ => rfl)
    have h2 : (((x.noticed env rq).rtModify rq.rqSrc (renewReverse env p rq)).rtModify rq.rqSrc RtEntry.resetSoftState).rtLookup d =
        ((x.noticed env rq).rtModify rq.rqSrc (renewReverse env p rq)).rtLookup d := rtLookup_rtModify_ne hd (fun _ => rfl)
    exact h2.trans (h1.trans (rtLookup_cons_ne (Ne.symm hd)))
  · rw [← hr.src, ← hr.bid]
    exact ⟨_, List.find?_cons_of_pos (by simp [sameId]), rfl⟩
  · rw [← hr.src]
    exact ⟨_, _, h2, rfl, rfl, rfl, rfl, congrArg (· + 1) hr.hopCount⟩

/-- A request from a node this one has nothing against keeps its trust. -/
theorem request_seen (hr : s.Request hops rq) {p : Packet} (ht : x.toAgent.Trusts p.saddr) : s.Request hops (x.seenRequest p rq) := by
  have hlow : trustThreshold ≤ (rq.lowerReverse (x.nbLookup p.saddr)).RPT := by
    have ht : trustThreshold ≤ x.trustOf p.saddr := ht
    have h0 := hr.trust
    unfold trustOf at ht
    cases hnb : x.nbLookup p.saddr with
    | none =>
      show trustThreshold ≤ rq.RPT + 1 / 10
      linarith
    | some nb =>
      rw [hnb] at ht
      exact le_min h0 ht
  rw [seenRequest_eq]
  exact ⟨hr.src, hr.dst, hr.dstSeqno, hr.bid, hr.seqno, hr.hopCount, hr.threshold, hlow⟩

theorem trusts_request (hr : s.Request hops rq) {p : Packet} (ht : x.toAgent.Trusts p.saddr) : x.distrustsRequest p rq = false := by
  have hseen := request_seen hr ht
  unfold distrustsRequest
  have hle : rq.RT ≤ (x.seenRequest p rq).RPT := hr.threshold.le.trans hseen.trust
  simp [hle]

theorem recv_request {q : Packet} (hp : q.ptype = .teaomdv) (hports : q.sport = rtPort ∧ q.dport = rtPort) (hb : q.body = .rreq rq)
    (ptr : Nat) : x.recv env (q.received ptr) = x.recvRequest env (q.arrived ptr) rq := by
  unfold recv recvTEAOMDV
  simp [Packet.arrived, Packet.received, hp, hports, hb]

/-- An entry advertised for the first time, with one path. -/
theorem advertise_first {f : Path} {inf : Nat} (ha : e.rtAdvertisedHops = inf) (hp : e.rtPathList = [f]) (hf : 0 < f.hopcount) :
    (e.advertise inf).rtAdvertisedHops = f.hopcount ∧ (e.advertise inf).rtPathList = [f] ∧
      (e.advertise inf).rtFlags = e.rtFlags ∧ (e.advertise inf).rtDst = e.rtDst := by
  unfold RtEntry.advertise RtEntry.pathGetMaxHopcount
  rw [if_pos ha]
  simp [hp, hf, hf.ne']

/-- A broadcast packet of the node's own is handed over. -/
theorem forward_broadcast (env : Env) {p : Packet} (httl : p.ttl ≠ 0) (hp : p.ptype = .teaomdv) (hd : p.daddr = ipBroadcast)
    (hhere : x.hereAddr ≠ ipBroadcast) (delay : ℚ) :
    x.forward env none p delay = .ok (x.schedule { p with addrType := .none, direction := .down } (.uniform (1 / 100))) := by
  have hme : x.forMe p = false := by
    unfold forMe
    simp [hp, hd, Ne.symm hhere]
  unfold forward
  rw [if_neg httl, hme]
  simp [hd]

/-- A request that is recorded is passed on, if the node knows no way to its destination. -/
theorem answerRequest_relays {w : Exec} {p : Packet} (hw : Took s hops i env.inf x w) (hr : s.Request hops rq)
    (hl : x.toAgent.Lost s) (hdst : s.dst ≠ x.index) (hends : s.dst ≠ s.src) (hhere : x.hereAddr ≠ ipBroadcast)
    (hhops : hops + 1 < 256) (httl : p.ttl ≠ 0) (hp : p.ptype = .teaomdv) (hd : p.daddr = ipBroadcast) :
    ∃ y rq', w.answerRequest env p rq false true = .ok y ∧ s.Request (hops + 1) rq' ∧
      y.sent = x.sent ++ [{ p with saddr := x.index, body := .rreq rq', addrType := .none, direction := .down }] ∧
      y.toAgent.Heard s i ∧ y.toAgent.Lost s ∧ ∀ n, y.trustOf n = x.trustOf n := by
  obtain ⟨e, f, he, hup, hadv, hpaths, hnext, hcount⟩ := hw.entry
  obtain ⟨hadv', hpaths', hup', hdst'⟩ := advertise_first hadv hpaths (by omega)
  have hfind : (e.advertise env.inf).pathFind = some f := pathFind_cons hpaths'
  have hsrc : (w.rtModify s.src (fun rt => rt.advertise env.inf)).rtLookup s.src = some (e.advertise env.inf) :=
    rtLookup_rtModify he (hdst'.trans (rtDst_of_rtLookup he))
  have hother : (w.rtModify s.src (fun rt => rt.advertise env.inf)).rtLookup s.dst = none :=
    (rtLookup_rtModify_ne hends (fun e => rtDst_advertise e env.inf)).trans ((hw.others _ hends).trans hl.entry)
  let rq' : Rreq := { rq with rqHopCount := u8 (e.advertise env.inf).rtAdvertisedHops, rqFirstHop := f.lasthop, rqSrc := s.src }
  have hanswer : w.answerRequest env p rq false true = (w.rtModify s.src (fun rt => rt.advertise env.inf)).forward env none
      { p with saddr := w.index, body := .rreq rq' } teaomdvDelay := by
    unfold answerRequest
    rw [hr.dst, if_neg (hw.index.symm ▸ hdst), (hw.others _ hends).trans hl.entry]
    unfold relayRequest
    simp only [Bool.false_eq_true, if_false]
    rw [hr.src, he]
    simp only [hfind]
    rfl
  have hgo := forward_broadcast env (x := w.rtModify s.src (fun rt => rt.advertise env.inf))
    (p := { p with saddr := w.index, body := .rreq rq' }) httl hp hd (hw.here.symm ▸ hhere) teaomdvDelay
  refine ⟨_, rq', hanswer.trans hgo, ?_, ?_, ⟨⟨_, f, hsrc, hup'.trans hup, hfind, hnext⟩, hw.id⟩,
    ⟨hother, fun q hq => hl.queue q (hw.queue q hq)⟩, hw.trust⟩
  · refine ⟨rfl, hr.dst, hr.dstSeqno, hr.bid, hr.seqno, ?_, hr.threshold, hr.trust⟩
    show u8 (e.advertise env.inf).rtAdvertisedHops = hops + 1
    rw [hadv', hcount]
    exact Nat.mod_eq_of_lt hhops
  · rw [sent_schedule, sent_rtModify, hw.sent, hw.index]

/-- A request heard for the first time is recorded, and then answered or passed on. -/
theorem recv_asks (env : Env) (ha : s.Asks hops i q) (hu : x.toAgent.Unaware s) (hsrc : s.src ≠ x.index) (ht : x.toAgent.Trusts i)
    (hseq : 0 < s.seqno) (ptr : Nat) : ∃ rq w, x.recv env (q.received ptr) =
      w.answerRequest env (q.arrived ptr) rq false true ∧ s.Request hops rq ∧ Took s hops i env.inf x w := by
  obtain ⟨rq, hb, hr⟩ := ha.request
  have hsaddr : (q.arrived ptr).saddr = i := ha.saddr
  have ht : x.toAgent.Trusts (q.arrived ptr).saddr := hsaddr.symm ▸ ht
  have hfirst := recvRequest_first env (p := q.arrived ptr) (hr.src.symm ▸ hsrc)
    (trusts_request hr ht) (hr.src.symm ▸ hu.entry) (by rw [hr.src, hr.bid]; exact hu.id) (hr.seqno.symm ▸ hseq)
    (hr.src.symm ▸ hu.queue)
  rw [recv_request ha.ptype ha.ports hb, hfirst]
  have hr := request_seen hr ht
  exact ⟨_, _, rfl, hr, hsaddr ▸ took_recorded env _ hr x⟩

/-- **A request heard for the first time goes on**, with one hop more. -/
theorem recv_relays (env : Env) (ha : s.Asks hops i q) (hu : x.toAgent.Unaware s) (hl : x.toAgent.Lost s) (hsrc : s.src ≠ x.index)
    (hdst : s.dst ≠ x.index) (hends : s.dst ≠ s.src) (hhere : x.hereAddr ≠ ipBroadcast) (ht : x.toAgent.Trusts i)
    (hseq : 0 < s.seqno) (hfar : hops + 1 < 30) (ptr : Nat) : ∃ y q', x.recv env (q.received ptr) = .ok y ∧
      y.sent = x.sent ++ [q'] ∧ s.Asks (hops + 1) x.index q' ∧ y.toAgent.Heard s i ∧ y.toAgent.Lost s ∧
        ∀ n, y.trustOf n = x.trustOf n := by
  obtain ⟨rq, w, hrecv, hr, hw⟩ := recv_asks env ha hu hsrc ht hseq ptr
  have httl : q.ttl - 1 ≠ 0 := by
    rw [ha.ttl]
    unfold networkDiameter
    omega
  obtain ⟨y, rq', hy, hr', hsent, hrest⟩ := answerRequest_relays (p := q.arrived ptr) hw hr hl hdst
    hends hhere (by omega) httl ha.ptype ha.daddr
  refine ⟨y, _, hrecv.trans hy, hsent, ⟨ha.ptype, ha.ports, ⟨rq', rfl, hr'⟩, rfl, ha.daddr, rfl, ?_⟩, hrest⟩
  show q.ttl - 1 = networkDiameter - ((hops + 1 : Nat) : Int)
  rw [ha.ttl]
  omega

/-- The number of an answer to a request that asks for none. -/
theorem replySeqno_pos {n : Nat} (heven : n % 2 = 0) : 0 < replySeqno n 0 := by
  have hone : u32 (0 + 1) = 1 := rfl
  unfold replySeqno
  simp only [Nat.zero_mod, if_true, hone]
  by_cases h : n < 1
  · simp [h, u32]
  · simpa [h, heven] using Nat.pos_of_ne_zero (by omega)

/-- What a destination hands over. -/
theorem replyAsDestination_sent (env : Env) (w : Exec) (p : Packet) (hr : s.Request hops rq) (hdst : w.index = s.dst)
    (heven : w.seqno % 2 = 0) : (∃ q, (w.replyAsDestination env p rq).sent = w.sent ++ [q] ∧ s.Answers 0 w.index p.saddr q) ∧
      ∀ m, (w.replyAsDestination env p rq).trustOf m = w.trustOf m := by
  unfold replyAsDestination
  rw [hr.dstSeqno]
  have hkeep := (nbEnsure_keeps env { w with seqno := replySeqno w.seqno 0 } p.saddr).2
  have halike := alike_nbEnsure env { w with seqno := replySeqno w.seqno 0 } p.saddr
  have hspare : Spares s.dst _ (nbEnsure env { w with seqno := replySeqno w.seqno 0 } p.saddr) := .nbEnsure env _ p.saddr
  simp only
  generalize nbEnsure env { w with seqno := replySeqno w.seqno 0 } p.saddr = z at hkeep halike hspare ⊢
  refine ⟨⟨_, (sent_free _ _).trans ((sent_schedule z.alloc _ _).trans (congrArg (· ++ _) ((sent_alloc z).trans hkeep))), ?_⟩, hspare.trust⟩
  have hindex : z.index = w.index := halike.index
  have hpos : 0 < z.seqno := halike.seqno ▸ replySeqno_pos heven
  exact ⟨rfl, ⟨rfl, rfl⟩, ⟨_, rfl, hindex, hindex.trans hdst, hr.bid, hpos, rfl, by norm_num [trustThreshold]⟩, hr.src, rfl, rfl,
    hindex, rfl⟩

/-- **The destination answers**, with a number of its own. -/
theorem recv_answers (env : Env) (ha : s.Asks hops i q) (hu : x.toAgent.Unaware s) (hdst : x.index = s.dst) (hends : s.dst ≠ s.src)
    (ht : x.toAgent.Trusts i) (hseq : 0 < s.seqno) (heven : x.seqno % 2 = 0) (ptr : Nat) : ∃ y q',
      x.recv env (q.received ptr) = .ok y ∧ y.sent = x.sent ++ [q'] ∧ s.Answers 0 x.index i q' ∧ ∀ m, y.trustOf m = x.trustOf m := by
  obtain ⟨rq, w, hrecv, hr, hw⟩ := recv_asks env ha hu (hdst.symm ▸ hends.symm) ht hseq ptr
  obtain ⟨⟨q', hsent, hq'⟩, htrust⟩ := replyAsDestination_sent env w (q.arrived ptr) hr (hw.index.trans hdst)
    (hw.seqno.symm ▸ heven)
  rw [hw.sent] at hsent
  rw [show (q.arrived ptr).saddr = i from ha.saddr, hw.index] at hq'
  refine ⟨_, q', hrecv.trans ?_, hsent, hq', fun m => (htrust m).trans (hw.trust m)⟩
  unfold answerRequest
  exact if_pos (by rw [hr.dst, hw.index, hdst])

/-! ## A packet that goes out on an entry's first path -/

/-- Nothing changes but the entry for `d`, and that leads where it led. -/
structure Steers (d : NsAddr) (x y : Exec) : Prop extends Spares d x y where
  queue : y.rqueue = x.rqueue
  sent : y.sent = x.sent
  leads : ∀ n, x.Leading d n → y.Leading d n

namespace Steers

theorem trans {z : Exec} (h : Steers d x y) (h' : Steers d y z) : Steers d x z where
  toSpares := h.toSpares.trans h'.toSpares
  queue := h'.queue.trans h.queue
  sent := h'.sent.trans h.sent
  leads := fun n hl => h'.leads n (h.leads n hl)

theorem rtModify (x : Exec) {f : RtEntry → RtEntry} (hdst : ∀ e, (f e).rtDst = e.rtDst)
    (hf : ∀ n, ∀ e : RtEntry, e.Leads n → (f e).Leads n) : Steers d x (x.rtModify d f) where
  toSpares := .rtModify x hdst
  queue := rfl
  sent := rfl
  leads := fun n hl => hl.rtModify hdst (hf n)

theorem nbEnsure (env : Env) (x : Exec) (id : NsAddr) : Steers d x (x.nbEnsure env id) where
  toSpares := .nbEnsure env x id
  queue := (nbEnsure_same env x id).2
  sent := (nbEnsure_keeps env x id).2
  leads := fun _ hl => hl.congr (nbEnsure_same env x id).1

theorem countForward (env : Env) (x : Exec) (p : Packet) : Steers d x (x.countForward env p) where
  toSpares := .countForward env x p
  queue := (countForward_same env x p).2
  sent := by
    unfold Exec.countForward
    split <;> rfl
  leads := fun _ hl => hl.congr (countForward_same env x p).1

end Steers

theorem forwardSend_hands (env : Env) (x : Exec) (d : NsAddr) {p : Packet} (hb : p.daddr ≠ ipBroadcast) (delay : ℚ) : ∃ y t,
    x.forwardSend env d p delay = .ok (y.schedule { p with direction := .down } t) ∧ Steers d x y := by
  unfold forwardSend
  simp only [if_neg hb]
  have hcount : Steers d x (x.countForward env p) := .countForward env x p
  generalize x.countForward env p = z at hcount ⊢
  have hfind : Steers d z (z.rtModify d (fun rt => rt.modifyFind (fun path => { path with expire := env.now + activeRouteTimeout }))) :=
    .rtModify z (fun _ => rfl) (fun _ _ h => h.modifyFind (fun _ => rfl) (fun _ h => h))
  refine ⟨_, _, rfl, (hcount.trans hfind).trans ?_⟩
  split
  · exact .rtModify _ (fun _ => rfl) (fun _ _ h => h.congr rfl rfl rfl)
  · exact ⟨.refl _, rfl, rfl, fun _ h => h⟩

/-- A packet goes out on the first path of an entry that is up; one of `PT_CBR` has to trust it. -/
theorem forward_hands (env : Env) {p : Packet} {f : Path} (he : x.rtLookup d = some e) (hup : e.rtFlags = .up) (hf : e.pathFind = some f)
    (httl : p.ttl ≠ 0) (hhere : p.daddr ≠ x.hereAddr) (hb : p.daddr ≠ ipBroadcast)
    (ht : p.ptype = .cbr → trustThreshold ≤ f.FPT ∧ trustThreshold ≤ x.trustOf f.nexthop) (delay : ℚ) : ∃ y t,
    x.forward env (some d) p delay = .ok (y.schedule (p.handed x.index f.nexthop) t) ∧ Steers d x y := by
  have hme : x.forMe p = false := by
    unfold forMe
    simp [hhere, hb]
  unfold forward
  rw [if_neg httl, hme]
  simp only [Bool.false_eq_true, if_false]
  unfold forwardRoute
  rw [he]
  simp only [hup, hf, ne_eq, not_true_eq_false, if_false]
  have hnoted : Steers d x ((x.rtModify d (fun rt => rt.pcInsert p.prevHop)).nbEnsure env f.nexthop) :=
    (Steers.rtModify x (fun e => (pcInsert_same e _).2.1) (fun _ _ h => h.pcInsert _)).trans (.nbEnsure env _ _)
  generalize (x.rtModify d (fun rt => rt.pcInsert p.prevHop)).nbEnsure env f.nexthop = z at hnoted ⊢
  split
  · rename_i hcbr
    obtain ⟨h1, h2⟩ := ht hcbr
    have hle : trustThreshold ≤ min f.FPT (z.trustOf f.nexthop) := le_min h1 (hnoted.trust _ ▸ h2)
    rw [if_neg (not_lt.2 hle)]
    have hmark : Steers d z (z.rtModify d (fun rt => rt.modifyFind (fun path =>
      { path with FPT := min f.FPT (z.trustOf f.nexthop) }))) :=
      .rtModify z (fun _ => rfl) (fun _ _ h => h.modifyFind (fun _ => rfl) (fun _ _ => hle))
    obtain ⟨y, t, hy, hs⟩ := forwardSend_hands env (z.rtModify d (fun rt => rt.modifyFind (fun path =>
      { path with FPT := min f.FPT (z.trustOf f.nexthop) }))) d (p := { p with
        addrType := .inet, nextHop := f.nexthop, pprevHop := p.prevHop, prevHop := z.index }) hb delay
    exact ⟨y, t, hnoted.index ▸ hy, (hnoted.trans hmark).trans hs⟩
  · obtain ⟨y, t, hy, hs⟩ := forwardSend_hands env z d (p := { p with
      addrType := .inet, nextHop := f.nexthop, pprevHop := p.prevHop, prevHop := z.index }) hb delay
    exact ⟨y, t, hnoted.index ▸ hy, hnoted.trans hs⟩

/-- The one packet that is buffered goes out. -/
theorem flush_one (env : Env) {f : Path} (he : x.rtLookup d = some e) (hup : e.rtFlags = .up) (hf : e.pathFind = some f)
    (hq : x.buffered env d = [q]) (httl : q.ttl ≠ 0) (hhere : q.daddr ≠ x.hereAddr) (hb : q.daddr ≠ ipBroadcast)
    (h1 : trustThreshold ≤ f.FPT) (h2 : trustThreshold ≤ x.trustOf f.nexthop) : ∃ y, x.flush env d = .ok y ∧ Spares d x y ∧
      y.sent = x.sent ++ [q.handed x.index f.nexthop] ∧ ∀ n, x.Leading d n → y.Leading d n := by
  let P (rest : List Packet) (z : Exec) : Prop := Spares d x z ∧ (∀ n, x.Leading d n → z.Leading d n) ∧
    ((rest = [q] ∧ z.rtLookup d = some e.resetSoftState ∧ z.sent = x.sent) ∨
      (rest = [] ∧ z.sent = x.sent ++ [q.handed x.index f.nexthop]))
  have hstart : P ((x.rtModify d RtEntry.resetSoftState).buffered env d) (x.rtModify d RtEntry.resetSoftState) :=
    ⟨.rtModify x (fun _ => rfl), fun _ hl => hl.rtModify (fun _ => rfl) (fun _ h => h.congr rfl rfl rfl),
      .inl ⟨hq, rtLookup_rtModify he (rtDst_of_rtLookup he :), rfl⟩⟩
  have hbody : ∀ {z w : Exec} {q' : Packet}, P (z.buffered env d) z → z.deque env d = (some q', w) →
      z.buffered env d = q' :: w.buffered env d →
      ∃ y, flushOne env d w q' = .ok y ∧ y.rqueue = w.rqueue ∧ P (y.buffered env d) y := by
    rintro z w q' ⟨hsp, hlead, ⟨hrest, hez, hsent⟩ | ⟨hrest, -⟩⟩ hdeque hcons
    · rw [hcons] at hrest
      obtain ⟨rfl, hnil⟩ := List.cons.inj hrest
      have hw : Spares d z w ∧ w.rtable = z.rtable := by
        rcases deque_spec env z d with ⟨-, hnone⟩ | ⟨q'', w', hdeque', -, -, hspare, htable⟩
        · rw [hnone] at hdeque
          cases hdeque
        · obtain rfl := (Prod.mk.inj (hdeque'.symm.trans hdeque)).2
          exact ⟨hspare, htable⟩
      have hwsent : w.sent = x.sent := by
        have h := sent_deque env z d
        rw [hdeque] at h
        exact h.trans hsent
      have hew : w.rtLookup d = some e.resetSoftState := (rtLookup_congr hw.2 d).trans hez
      have hspw := hsp.trans hw.1
      obtain ⟨y, t, hy, hs⟩ := forward_hands env hew hup hf httl (hspw.here ▸ hhere) hb
        (fun _ => ⟨h1, (hspw.trust f.nexthop).symm ▸ h2⟩) noTeaomdvDelay
      rw [hspw.index] at hy
      refine ⟨y.schedule (q'.handed x.index f.nexthop) t, ?_, hs.queue, (hspw.trans hs.toSpares).trans {},
        fun n hl => hs.leads n ((hlead n hl).congr hw.2), .inr ⟨?_, ?_⟩⟩
      · unfold flushOne
        rw [hew]
        exact (if_pos hup).trans hy
      · unfold buffered at hnil ⊢
        show List.filter _ y.rqueue = []
        rw [hs.queue]
        exact hnil
      · rw [sent_schedule, hs.sent, hwsent]
    · rw [hcons] at hrest
      cases hrest
  obtain ⟨y, hy, hsp, hlead, hsent⟩ := drain_ok (P := P) hbody
    (fun ⟨hsp, hlead, hz⟩ => ⟨hsp.trans {}, hlead, .inr ⟨rfl, (sent_rqPurge env _).trans (by simpa using hz)⟩⟩) hstart
  refine ⟨y, ?_, hsp, by simpa using hsent, hlead⟩
  unfold flush
  rw [he]
  exact (if_pos hup).trans hy

/-! ## A reply on its way back -/

theorem recv_reply {q : Packet} (hp : q.ptype = .teaomdv) (hports : q.sport = rtPort ∧ q.dport = rtPort) (hb : q.body = .rrep rp)
    (ptr : Nat) : x.recv env (q.received ptr) = x.recvReply env (q.arrived ptr) rp := by
  unfold recv recvTEAOMDV
  simp [Packet.arrived, Packet.received, hp, hports, hb]

/-- A reply from a node this one has nothing against keeps its trust. -/
theorem reply_seen (hr : s.Reply i rp) (ht : x.toAgent.Trusts i) : s.Reply i (rp.lowerForward (x.nbLookup i)) := by
  have ht : trustThreshold ≤ x.trustOf i := ht
  unfold trustOf at ht
  cases hnb : x.nbLookup i with
  | none =>
    refine ⟨hr.src, hr.dst, hr.bid, hr.seqno, hr.threshold, ?_⟩
    show trustThreshold ≤ rp.RT + 1 / 10
    have := hr.threshold
    linarith
  | some nb =>
    rw [hnb] at ht
    exact ⟨hr.src, hr.dst, hr.bid, hr.seqno, hr.threshold, le_min hr.trust ht⟩

/-- `w` is `x` with the path by way of `i` that a reply brought, and no other, to the destination. -/
structure Learnt (s : Search) (i : NsAddr) (x w : Exec) : Prop extends Spares s.dst x w where
  sent : w.sent = x.sent
  queue : w.rqueue = x.rqueue
  leads : w.Leading s.dst i

/-- The node has an entry for the destination, or makes one, and has heard no number of it. -/
def Unheard (env : Env) (s : Search) (x : Exec) : Prop :=
  ∃ w e, x.rtEnsure env s.dst = .ok w ∧ Spares s.dst x w ∧ w.sent = x.sent ∧ w.rqueue = x.rqueue ∧
    w.rtLookup s.dst = some e ∧ e.rtSeqno = 0 ∧ e.rtHops ≠ infinity2

/-- A reply is recorded, and then ends here or is passed on. -/
theorem recv_answered (env : Env) (ha : s.Answers hops i n q) (hdst : s.dst ≠ x.index) (ht : x.toAgent.Trusts i)
    (hw : x.Unheard env s) (ptr : Nat) : ∃ rp w, s.Reply i rp ∧ Learnt s i x w ∧
      x.recv env (q.received ptr) = (w.flush env s.dst >>= fun y =>
        if s.src = y.index then .ok (y.free (q.arrived ptr))
        else y.relayReply env (q.arrived ptr) rp) := by
  obtain ⟨rp, hb, hr⟩ := ha.reply
  have hprev : (q.arrived ptr).prevHop = i := ha.prevHop
  have hseen := reply_seen hr ht
  have hno : x.distrustsReply (q.arrived ptr) rp = false := by
    unfold distrustsReply
    simp [hprev, hr.src]
  obtain ⟨w, e, hw, hspare, hsent, hqueue, he, hseq, hhops⟩ := hw
  rw [recv_reply ha.ptype ha.ports hb]
  unfold recvReply
  rw [hno, if_neg (show ¬ rp.rpDst = x.index from hr.dst.symm ▸ hdst), hprev]
  simp only [Bool.false_eq_true, if_false]
  generalize rp.lowerForward (x.nbLookup i) = rp' at hseen
  rw [hseen.dst, hw, ok_bind]
  have hfwd : w.forwardRouteTo env rp' (x.nbLookup i) = .ok (w.rtModify s.dst (renewForward env rp'), true) := by
    unfold forwardRouteTo
    rw [hseen.dst, he]
    exact if_pos (hseq ▸ hseen.seqno)
  rw [hfwd, ok_bind]
  simp only
  have hdaddr : (q.arrived ptr).daddr = s.src := ha.daddr
  rw [hdaddr]
  refine ⟨rp', w.rtModify s.dst (renewForward env rp'), hseen, ⟨hspare.trans (.rtModify w (fun _ => rfl)), hsent, hqueue,
    renewForward env rp' e, rtLookup_rtModify he (rtDst_of_rtLookup he :), rfl, hhops, _, rfl, hseen.src, hseen.trust⟩, rfl⟩

theorem reply_lowered (hr : s.Reply i rp) (nbt : Option Neighbor) : s.Reply i (rp.lowerReverse nbt) := by
  cases nbt <;> exact ⟨hr.src, hr.dst, hr.bid, hr.seqno, hr.threshold, hr.trust⟩

theorem advertise_same (e : RtEntry) (inf : Nat) :
    (e.advertise inf).rtPathList = e.rtPathList ∧ (e.advertise inf).rtDst = e.rtDst := by
  unfold RtEntry.advertise
  split <;> exact ⟨rfl, rfl⟩

/-- A reply that is recorded is passed on, along the path the request came by. -/
theorem relayReply_relays (env : Env) {w : Exec} {p : Packet} (hh : w.toAgent.Heard s n) (hl : w.toAgent.Leads s i)
    (hends : s.dst ≠ s.src) (hr : s.Reply i rp) (hp : p.ptype = .teaomdv) (hports : p.sport = rtPort ∧ p.dport = rtPort)
    (hd : p.daddr = s.src) (hfar : hops < 30) (httl : p.ttl = networkDiameter - hops) (hhere : s.src ≠ w.hereAddr)
    (hb : s.src ≠ ipBroadcast) : ∃ y q', w.relayReply env p rp = .ok y ∧ y.sent = w.sent ++ [q'] ∧
      s.Answers hops w.index n q' ∧ y.toAgent.Leads s i ∧ ∀ m, y.trustOf m = w.trustOf m := by
  obtain ⟨e₀, g, he₀, hup₀, hg, hn⟩ := hh.entry
  obtain ⟨b, hid, hcount⟩ := hh.id
  obtain ⟨e, he, hlead⟩ := hl
  obtain ⟨f, hf, -, -⟩ := hlead.path
  have he₀ : w.rtLookup s.src = some e₀ := he₀
  have hid : w.idGet s.src s.bid = some b := hid
  have he : w.rtLookup s.dst = some e := he
  obtain ⟨hpaths, hdst'⟩ := advertise_same e env.inf
  have hf' : (e.advertise env.inf).pathFind = some f := by
    unfold RtEntry.pathFind
    rw [hpaths]
    exact hf
  unfold relayReply
  rw [hd, he₀, hr.bid, hid]
  simp only [hup₀, hcount, hg, ne_eq, not_true_eq_false, or_self, if_false]
  have hr' := reply_lowered hr ((w.idMark s.src s.bid).nbLookup g.nexthop)
  generalize rp.lowerReverse ((w.idMark s.src s.bid).nbLookup g.nexthop) = rp' at hr' ⊢
  rw [hr'.dst]
  rw [show (w.idMark s.src s.bid).rtLookup s.dst = some e from he]
  simp only [hf']
  generalize hz : (((w.idMark s.src s.bid).rtModify s.dst (fun rt => rt.advertise env.inf)).rtModify s.src (fun rt0 =>
    rt0.modifyFind (fun path => { path with expire := env.now + activeRouteTimeout }))).rtModify s.dst
    (fun rt => rt.setError true) = z
  have h1 : ((w.idMark s.src s.bid).rtModify s.dst (fun rt => rt.advertise env.inf)).rtLookup s.src = some e₀ :=
    (rtLookup_rtModify_ne hends.symm (fun e => (advertise_same e env.inf).2)).trans he₀
  have h2 : ((w.idMark s.src s.bid).rtModify s.dst (fun rt => rt.advertise env.inf)).rtLookup s.dst =
      some (e.advertise env.inf) := rtLookup_rtModify (x := w.idMark s.src s.bid) he (hdst'.trans (rtDst_of_rtLookup he))
  have hdst₀ := rtDst_of_rtLookup he₀
  have hdst₁ := rtDst_of_rtLookup h2
  have hzsrc : z.rtLookup s.src = some (e₀.modifyFind (fun path => { path with expire := env.now + activeRouteTimeout })) := by
    subst hz
    refine (rtLookup_rtModify_ne hends.symm ?_).trans (rtLookup_rtModify h1 hdst₀)
    exact fun _ => rfl
  have hzdst : z.rtLookup s.dst = some ((e.advertise env.inf).setError true) := by
    subst hz
    refine rtLookup_rtModify ((rtLookup_rtModify_ne hends ?_).trans h2) hdst₁
    exact fun _ => rfl
  have hsame : z.index = w.index ∧ z.hereAddr = w.hereAddr ∧ z.sent = w.sent ∧ ∀ m, z.trustOf m = w.trustOf m := by
    subst hz
    exact ⟨rfl, rfl, rfl, fun _ => rfl⟩
  obtain ⟨y, t, hy, hs⟩ := forward_hands env (p := { p with
      addrType := .inet, nextHop := g.nexthop, daddr := s.src
      body := .rrep { rp' with
        rpSrc := z.index, rpHopCount := u8 (e.advertise env.inf).rtAdvertisedHops, rpDst := s.dst, rpFirstHop := f.lasthop } })
    hzsrc hup₀ (pathFind_modifyFind hg _) (by rw [httl]; unfold networkDiameter; omega) (hsame.2.1.symm ▸ hhere) hb
    (fun h => absurd (hp.symm.trans h) nofun) noTeaomdvDelay
  refine ⟨_, _, hy, (sent_schedule _ _ _).trans (congrArg (· ++ _) (hs.sent.trans hsame.2.2.1)), ?_, ?_,
    fun m => (hs.trust m).trans (hsame.2.2.2 m)⟩
  · exact ⟨hp, hports, ⟨_, rfl, hsame.1, rfl, hr'.bid, hr'.seqno, hr'.threshold, hr'.trust⟩, rfl, rfl, hn, hsame.1, httl⟩
  · exact ⟨_, (hs.others s.dst hends).trans hzdst, (hlead.advertise env.inf).congr rfl rfl rfl⟩

theorem unheard_of_lost {env : Env} (hl : x.toAgent.Lost s) (hops : env.unsetHops ≠ infinity2) : x.Unheard env s :=
  ⟨_, _, rtEnsure_none hl.entry, { others := fun _ hne => rtLookup_cons_ne (Ne.symm hne) }, rfl, rfl, rtLookup_cons_self rfl, rfl, hops⟩

/-- **A node on the way passes the reply on**, one hop back, and knows the way from then on. -/
theorem recv_returns (env : Env) (ha : s.Answers hops i x.index q) (hh : x.toAgent.Heard s n) (hl : x.toAgent.Lost s)
    (hsrc : s.src ≠ x.index) (hdst : s.dst ≠ x.index) (hends : s.dst ≠ s.src) (hhere : s.src ≠ x.hereAddr)
    (hb : s.src ≠ ipBroadcast) (ht : x.toAgent.Trusts i) (hunset : env.unsetHops ≠ infinity2) (hfar : hops + 1 < 30) (ptr : Nat) :
    ∃ y q', x.recv env (q.received ptr) = .ok y ∧ y.sent = x.sent ++ [q'] ∧ s.Answers (hops + 1) x.index n q' ∧
      y.toAgent.Leads s i ∧ ∀ m, y.trustOf m = x.trustOf m := by
  obtain ⟨rp, w, hr, hw, hrecv⟩ := recv_answered env ha hdst ht (unheard_of_lost hl hunset) ptr
  obtain ⟨e, he, hlead⟩ := hw.leads
  have hreset : Spares s.dst w (w.rtModify s.dst RtEntry.resetSoftState) := .rtModify w (fun _ => rfl)
  have hsp : Spares s.dst x ((w.rtModify s.dst RtEntry.resetSoftState).rqPurge env) :=
    (hw.toSpares.trans hreset).trans {}
  have hsent : ((w.rtModify s.dst RtEntry.resetSoftState).rqPurge env).sent = x.sent := (sent_rqPurge env _).trans hw.sent
  have hleads : ((w.rtModify s.dst RtEntry.resetSoftState).rqPurge env).Leading s.dst i :=
    (hw.leads.rtModify (fun _ => rfl) (fun _ h => h.congr rfl rfl rfl) : (w.rtModify s.dst RtEntry.resetSoftState).Leading s.dst i)
  rw [hrecv, flush_nothing he hlead.up (fun q hq => hl.queue q (hw.queue ▸ hq)), ok_bind]
  generalize (w.rtModify s.dst RtEntry.resetSoftState).rqPurge env = z at hsp hsent hleads ⊢
  rw [if_neg (hsp.index.symm ▸ hsrc)]
  have hheard : z.toAgent.Heard s n := by
    obtain ⟨e₀, g, he₀, hrest⟩ := hh.entry
    obtain ⟨b, hid, hcount⟩ := hh.id
    refine ⟨⟨e₀, g, (hsp.others s.src hends.symm).trans he₀, hrest⟩, b, ?_, hcount⟩
    have hid : x.bihead.find? (sameId s.src s.bid) = some b := hid
    show z.bihead.find? (sameId s.src s.bid) = some b
    rw [hsp.ids]
    exact hid
  have httl : q.ttl - 1 = networkDiameter - ((hops + 1 : Nat) : Int) := by
    rw [ha.ttl]
    omega
  obtain ⟨y, q', hy, hout, hq', hleads, htr⟩ := relayReply_relays env (p := q.arrived ptr) hheard hleads
    hends hr ha.ptype ha.ports ha.daddr hfar httl (hsp.here.symm ▸ hhere) hb
  exact ⟨y, q', hy, hsent ▸ hout, hsp.index ▸ hq', hleads, fun m => (htr m).trans (hsp.trust m)⟩

/-- **At the source the reply sends off what was waiting.** -/
theorem recv_releases (env : Env) {p : Packet} {t : ℚ} (ha : s.Answers hops i x.index q) (hw : x.toAgent.Awaits s p t)
    (hsrc : s.src = x.index) (hdst : s.dst ≠ x.index) (hhere : s.dst ≠ x.hereAddr) (hb : s.dst ≠ ipBroadcast)
    (ht : x.toAgent.Trusts i) (hnow : env.now ≤ t) (ptr : Nat) :
    ∃ y q', x.recv env (q.received ptr) = .ok y ∧ y.sent = x.sent ++ [q'] ∧ s.Carries p 0 x.index i q' ∧
      y.toAgent.Leads s i ∧ ∀ m, y.trustOf m = x.trustOf m := by
  obtain ⟨e, he, hseq, hhops⟩ := hw.entry
  obtain ⟨q₁, hfilter, hts, htype, huid, hbody, hsaddr, httl⟩ := hw.queue
  obtain ⟨rp, w, hr, hw, hrecv⟩ := recv_answered env ha hdst ht ⟨x, e, rtEnsure_some he, .refl x, rfl, rfl, he, hseq, hhops⟩ ptr
  obtain ⟨e', he', hlead⟩ := hw.leads
  obtain ⟨f, hf, hnext, htrust⟩ := hlead.path
  have hmem : q₁ ∈ x.rqueue.filter (fun q => q.daddr = s.dst) := hfilter ▸ List.mem_singleton_self q₁
  have hd : q₁.daddr = s.dst := by simpa using (List.mem_filter.1 hmem).2
  have hbuf : w.buffered env s.dst = [q₁] := by
    have hlive : ∀ q ∈ x.rqueue.filter (fun q => q.daddr = s.dst), (!decide (q.ts < env.now)) = true := by
      intro q hq
      rw [hfilter] at hq
      obtain rfl := List.mem_singleton.1 hq
      simpa using hnow.trans hts
    rw [buffered_eq, hw.queue, List.filter_comm, List.filter_eq_self.2 hlive]
    exact hfilter
  obtain ⟨y, hy, hs, hsent, hleads⟩ := flush_one env he' hlead.up hf hbuf (by rw [httl]; unfold networkDiameter; omega)
    (by rw [hd, hw.here]; exact hhere) (hd.symm ▸ hb) htrust (by rw [hnext, hw.trust]; exact ht)
  rw [hw.sent] at hsent
  have hindex : y.index = x.index := hs.index.trans hw.index
  refine ⟨_, _, hrecv.trans (by rw [hy, ok_bind, if_pos (hsrc.trans hindex.symm)]), (sent_free y _).trans hsent,
    ?_, hleads i hw.leads, fun m => (hs.trust m).trans (hw.trust m)⟩
  exact ⟨htype, huid, hbody, hsaddr, hd, rfl, hnext, hw.index, httl.trans (by simp)⟩

/-! ## The packet itself -/

theorem rtResolve_hands (env : Env) {p : Packet} (hl : x.Leading p.daddr n) (httl : p.ttl ≠ 0) (hhere : p.daddr ≠ x.hereAddr)
    (hb : p.daddr ≠ ipBroadcast) (ht : trustThreshold ≤ x.trustOf n) : ∃ y t,
    x.rtResolve env p = .ok (y.schedule (p.handed x.index n) t) ∧ Steers p.daddr x y := by
  obtain ⟨e, he, hlead⟩ := hl
  obtain ⟨f, hf, rfl, htrust⟩ := hlead.path
  obtain ⟨y, t, hy, hs⟩ := forward_hands env he hlead.up hf httl hhere hb (fun _ => ⟨htrust, ht⟩) noTeaomdvDelay
  refine ⟨y, t, ?_, hs⟩
  unfold rtResolve
  rw [rtEnsure_some he, ok_bind, he]
  simp only [hlead.up, hlead.hops, if_true, if_false]
  exact hy

/-- **A node that knows the way passes the packet on.** -/
theorem recv_carries (env : Env) {p : Packet} (ha : s.Carries p hops i x.index q) (hp : p.ptype ≠ .teaomdv)
    (hl : x.toAgent.Leads s n) (hsrc : s.src ≠ x.index) (hhere : s.dst ≠ x.hereAddr) (hb : s.dst ≠ ipBroadcast)
    (ht : x.toAgent.Trusts n) (hfar : hops + 1 < 30) (ptr : Nat) :
    ∃ y q', x.recv env (q.received ptr) = .ok y ∧ y.sent = x.sent ++ [q'] ∧ s.Carries p (hops + 1) x.index n q' ∧
      y.toAgent.Leads s n ∧ ∀ m, y.trustOf m = x.trustOf m := by
  have httl : q.ttl - 1 = networkDiameter - ((hops + 1 : Nat) : Int) := by
    rw [ha.ttl]
    omega
  have hne : q.ttl - 1 ≠ 0 := by
    rw [httl]
    unfold networkDiameter
    omega
  have hrecv : x.recv env (q.received ptr) = x.rtResolve env (q.arrived ptr) := by
    unfold recv
    have h1 : (q.received ptr).ptype ≠ .teaomdv := ha.ptype.symm ▸ hp
    have h2 : (q.received ptr).saddr ≠ x.index := ha.saddr.symm ▸ hsrc
    have h3 : (q.received ptr).daddr ≠ ipBroadcast := ha.daddr.symm ▸ hb
    have h4 : (q.received ptr).ttl - 1 ≠ 0 := hne
    simp only [h1, h2, h3, h4, false_and, if_false, ne_eq, not_false_eq_true, if_true]
    rfl
  have hd : (q.arrived ptr).daddr = s.dst := ha.daddr
  have hl : x.Leading (q.arrived ptr).daddr n := hd.symm ▸ hl
  obtain ⟨y, t, hy, hs⟩ := rtResolve_hands env hl hne (hd.symm ▸ hhere) (hd.symm ▸ hb) ht
  have hlead : y.Leading s.dst n := hd ▸ hs.leads n hl
  exact ⟨_, _, hrecv.trans hy, (sent_schedule _ _ _).trans (congrArg (· ++ _) hs.sent),
    ⟨ha.ptype, ha.uid, ha.body, ha.saddr, ha.daddr, rfl, rfl, rfl, httl⟩, hlead, hs.trust⟩

/-- A packet is put behind what is left of the buffer. -/
theorem enque_behind (env : Env) (x : Exec) (p : Packet) : ∃ queue log, (∀ q ∈ queue, q ∈ x.rqueue) ∧
    x.enque env p = { x with rqueue := queue ++ [{ p with ts := env.now + teaomdvRtqTimeout }], log := log } := by
  unfold enque rqEvict
  split
  · rename_i hnil
    refine ⟨(x.rqPurge env).rqueue, _, fun q hq => mem_rqPurge hq, rfl⟩
  · rename_i p₀ rest hcons
    split
    · exact ⟨rest, _, fun q hq => mem_rqPurge (hcons ▸ List.mem_cons_of_mem p₀ hq), rfl⟩
    · exact ⟨(x.rqPurge env).rqueue, _, fun q hq => mem_rqPurge hq, rfl⟩

theorem emitRequest_asks (env : Env) (p : Packet) (rt : RtEntry) (hs : s.Next x) (hdst : rt.rtDst = s.dst) (hseq : rt.rtSeqno = 0)
    (httl : rt.rtReqLastTtl = networkDiameter) (heven : x.seqno % 2 = 0) : ∃ y q, x.emitRequest env p rt = .ok y ∧
      y.sent = x.sent ++ [q] ∧ s.Asks 0 x.index q ∧ y.rtable = x.rtable ∧ y.rqueue = x.rqueue ∧ y.nbhead = x.nbhead := by
  have hbump : u32 (x.seqno + 2) % 2 = 0 := by
    unfold u32
    omega
  unfold emitRequest
  refine ⟨_, _, if_neg (show ¬ u32 (x.seqno + 2) % 2 ≠ 0 from not_not.2 hbump), sent_schedule _ _ _, ?_, rfl, rfl, rfl⟩
  exact ⟨rfl, ⟨rfl, rfl⟩, ⟨_, rfl, hs.src.symm, hdst, hseq, hs.bid.symm, hs.seqno.symm, rfl, rfl, by norm_num [trustThreshold]⟩, rfl,
    rfl, rfl, httl.trans (by simp)⟩

/-- The first request for an entry that was just made goes through the whole network. -/
theorem sendRequest_first (env : Env) {h : Nat} (hs : s.Next x) (he : x.rtLookup s.dst = some { rtDst := s.dst, rtHops := h })
    (hnow : 0 ≤ env.now) (heven : x.seqno % 2 = 0) : ∃ y q, x.sendRequest env s.dst = .ok y ∧ y.sent = x.sent ++ [q] ∧
      s.Asks 0 x.index q ∧ y.rtLookup s.dst = some (requested env { rtDst := s.dst, rtHops := h }) ∧ y.rqueue = x.rqueue ∧
        y.nbhead = x.nbhead := by
  have he' : x.alloc.rtLookup s.dst = some { rtDst := s.dst, rtHops := h } := he
  unfold sendRequest
  simp only [he', reduceCtorEq, if_false, gt_iff_lt, not_lt.2 hnow, show ¬ rreqRetries < 0 from by decide]
  obtain ⟨y, q, hy, hsent, hq, htable, hqueue, hnbs⟩ := emitRequest_asks env (x := x.alloc.rtModify s.dst (requested env)) x.blank
    (requested env { rtDst := s.dst, rtHops := h }) ⟨hs.src, hs.bid, hs.seqno⟩ rfl rfl rfl heven
  refine ⟨y, q, hy, hsent.trans (congrArg (· ++ _) (sent_alloc x)), hq, ?_, hqueue, hnbs⟩
  exact (rtLookup_congr htable s.dst).trans (rtLookup_rtModify (x := x.alloc) he' rfl)

theorem rtResolve_asks (env : Env) {q : Packet} (hnone : x.rtLookup q.daddr = none) (hs : q.saddr = x.index) :
    x.rtResolve env q = (({ x with rtable := { rtDst := q.daddr, rtHops := env.unsetHops } :: x.rtable } : Exec).enque env q).sendRequest
      env q.daddr := by
  unfold rtResolve
  rw [rtEnsure_none hnone, ok_bind, rtLookup_cons_self rfl]
  simp only [reduceCtorEq, if_false]
  exact if_pos hs

/-- **A node that knows no way asks for one**, and keeps the packet. -/
theorem recv_originates (env : Env) {p : Packet} (hp : p.ptype ≠ .teaomdv) (hsaddr : p.saddr = x.index) (hfirst : p.numForwards = 0)
    (hd : p.daddr = s.dst) (hb : s.dst ≠ ipBroadcast) (hl : x.toAgent.Lost s) (hs : s.Next x) (heven : x.seqno % 2 = 0)
    (hunset : env.unsetHops ≠ infinity2) (hnow : 0 ≤ env.now) (ptr : Nat) : ∃ y q', x.recv env { p with ptr := ptr } = .ok y ∧
      y.sent = x.sent ++ [q'] ∧ s.Asks 0 x.index q' ∧ y.toAgent.Awaits s p (env.now + teaomdvRtqTimeout) ∧
        ∀ m, y.trustOf m = x.trustOf m := by
  let q : Packet := { p with ptr := ptr, salvageCount := 0, ttl := networkDiameter }
  have hrecv : x.recv env { p with ptr := ptr } = x.rtResolve env q := by
    unfold recv
    rw [if_neg hp, if_pos ⟨hsaddr, hfirst⟩]
    exact if_pos (hd.symm ▸ hb)
  have hqd : q.daddr = s.dst := hd
  rw [hrecv, rtResolve_asks env (q := q) (hqd.symm ▸ hl.entry) hsaddr, hqd]
  generalize hw : ({ x with rtable := { rtDst := s.dst, rtHops := env.unsetHops } :: x.rtable } : Exec) = w
  have hentry : w.rtLookup s.dst = some { rtDst := s.dst, rtHops := env.unsetHops } := hw ▸ rtLookup_cons_self rfl
  obtain ⟨queue, log, hkeep, hen⟩ := enque_behind env w q
  have hsent := sent_enque env w q
  rw [hen] at hsent ⊢
  have hnext : s.Next { w with rqueue := queue ++ [{ q with ts := env.now + teaomdvRtqTimeout }], log := log } := by
    rw [← hw]
    exact ⟨hs.src, hs.bid, hs.seqno⟩
  obtain ⟨y, q', hy, hout, hq', he, hqueue, hnbs⟩ := sendRequest_first env hnext hentry hnow (by rw [← hw]; exact heven)
  have hidx : w.index = x.index := by rw [← hw]
  have hnbs' : y.nbhead = x.nbhead := by
    rw [hnbs, ← hw]
  refine ⟨y, q', hy, hout.trans (congrArg (· ++ _) (hsent.trans (by rw [← hw]; rfl))), hidx ▸ hq', ⟨⟨_, he, rfl, hunset⟩, ?_⟩,
    fun m => ?_⟩
  · refine ⟨{ q with ts := env.now + teaomdvRtqTimeout }, ?_, le_refl _, rfl, rfl, rfl, hsaddr.trans hs.src.symm, rfl⟩
    have hnone : queue.filter (fun q => q.daddr = s.dst) = [] := by
      refine List.filter_eq_nil_iff.2 (fun q₁ hq₁ => ?_)
      have := hkeep q₁ hq₁
      rw [← hw] at this
      simpa using hl.queue q₁ this
    rw [hqueue, List.filter_append, hnone, List.nil_append, List.filter_cons_of_pos (by simpa using hqd)]
    rfl
  · unfold trustOf nbLookup
    rw [hnbs']

end Exec

end TeAomdv

import TeAomdv.Agent
/-!
# Forward — the transmission routines (`sendRequest` … `forward`)

`forward` is cut where the source changes subject: the checks before the entry is used (`forward`), the previous-hop
fields and the trust test (`forwardRoute`), the distrust branch (`forwardDistrust`), and the bookkeeping and the hand-over
(`forwardSend`).
-/
namespace TeAomdv

namespace Exec

/-! ## Control packets of one node -/

/-- `sendPta`: to one precursor, by its IP address. -/
def sendPta (x : Exec) (p : Packet) (re : Pta) : Exec :=
  x.schedule { p with
    body := .pta re, ptype := .teaomdv, addrType := .none, nextHop := 0, prevHop := x.index, direction := .down
    saddr := x.index, sport := rtPort, dport := rtPort, ttl := 1 } (.fixed 0)

/-- One PTA for precursor `pc`, allocated and sent. -/
def reportDistrust (dst : NsAddr) (seqno : Nat) (lasthop : NsAddr → NsAddr) (x : Exec) (pc : NsAddr) : Exec :=
  x.alloc.sendPta { x.blank with daddr := pc }
    { unreachableDst := dst, unreachableLasthop := lasthop pc, unreachableDstSeqno := seqno }

/-- `sendError`. -/
def sendError (x : Exec) (p : Packet) (re : Rerr) (jitter : Bool) : Exec :=
  x.schedule { p with
    body := .rerr re, ptype := .teaomdv, addrType := .none, nextHop := 0, prevHop := x.index, direction := .down
    saddr := x.index, daddr := ipBroadcast, sport := rtPort, dport := rtPort, ttl := 1 }
    (if jitter then .uniform (1 / 100) else .fixed 0)

/-- `sendReply`. -/
def sendReply (x : Exec) (ipdst : NsAddr) (hopCount : Nat) (rpdst : NsAddr) (rpseq : Nat) (lifetime timestamp : ℚ)
    (nexthop : NsAddr) (bcastId : Nat) (rpFirstHop : NsAddr) (fpt rpt : ℚ) : Exec :=
  x.alloc.schedule { x.blank with
    body := .rrep {
      rpHopCount := u8 hopCount, rpDst := rpdst, rpDstSeqno := rpseq, rpSrc := x.index, rpLifetime := lifetime
      rpTimestamp := timestamp, rpBcastId := bcastId, rpFirstHop := rpFirstHop
      RT := trustThreshold, FPT := fpt, RPT := rpt }
    ptype := .teaomdv, addrType := .inet, nextHop := nexthop, prevHop := x.index
    saddr := x.index, daddr := ipdst, sport := rtPort, dport := rtPort, ttl := networkDiameter } (.fixed 0)

/-- `sendHello`. -/
def sendHello (x : Exec) : Exec :=
  x.alloc.schedule { x.blank with
    body := .hello {
      rpHopCount := 0, rpDst := x.index, rpDstSeqno := x.seqno, rpSrc := 0
      rpLifetime := (1 + allowedHelloLoss) * helloInterval
      rpTimestamp := 0, rpBcastId := 0, rpFirstHop := 0, RT := 0, FPT := 0, RPT := 0 }
    ptype := .teaomdv, addrType := .none, prevHop := x.index
    saddr := x.index, daddr := ipBroadcast, sport := rtPort, dport := rtPort, ttl := 1 } (.uniform (1 / 10))

/-- `sendRcom`. -/
def sendRcom (x : Exec) (p : Packet) (rc : Recommen) : Exec :=
  x.schedule { p with
    body := .rcom rc, ptype := .teaomdv, addrType := .none, prevHop := x.index
    saddr := x.index, daddr := ipBroadcast, sport := rtPort, dport := rtPort, ttl := 1 } (.uniform (1 / 10))

/-- `sendProb`. -/
def sendProb (x : Exec) : Exec :=
  x.alloc.schedule { x.blank with
    body := .prob, ptype := .teaomdv, addrType := .none, prevHop := x.index
    saddr := x.index, daddr := ipBroadcast, sport := rtPort, dport := rtPort, ttl := 1 } (.uniform (1 / 10))

/-! ## Route requests -/

/-- `PerHopTime`: the mean of the recorded latencies. -/
def perHopTime (rt : RtEntry) : ℚ :=
  let recorded := rt.rtDiscLatency.filter (fun l => 0 < l)
  if recorded.isEmpty then nodeTraversalTime else recorded.sum / recorded.length

/-- The TTL of the next request, from the larger of the last TTL and the last hop count. -/
def requestTtl (last : Int) : Int :=
  if last = 0 then ttlStart else if last < ttlThreshold then last + ttlIncrement else networkDiameter

/-- The entry after `sendRequest` has chosen a TTL and a timeout. -/
def requested (env : Env) (rt : RtEntry) : RtEntry :=
  let last := max rt.rtReqLastTtl rt.rtLastHopCount
  let ttl := requestTtl last
  let cnt := if last ≠ 0 ∧ ¬ last < ttlThreshold then rt.rtReqCnt + 1 else rt.rtReqCnt
  let wait := 2 * ttl * perHopTime rt * (if cnt > 0 then cnt else 1)
  { rt with
    rtReqLastTtl := ttl
    rtReqCnt := cnt
    rtReqTimeout := if wait + env.now > env.now + maxRreqTimeout then env.now + maxRreqTimeout else wait + env.now
    rtExpire := 0 }

/-- The RREQ itself, once the entry's soft state is set. -/
def emitRequest (env : Env) (x : Exec) (p : Packet) (rt : RtEntry) : Result :=
  let id := x.bid
  let x := { x with bid := u32 (x.bid + 1), seqno := u32 (x.seqno + 2) }
  if x.seqno % 2 ≠ 0 then .error (.assertion .sendRequestEven)
  else .ok (x.schedule { p with
    body := .rreq {
      rqHopCount := 0, rqBcastId := id, rqDst := rt.rtDst, rqDstSeqno := rt.rtSeqno, rqSrc := x.index
      rqSrcSeqno := x.seqno, rqTimestamp := env.now, rqFirstHop := 0, RT := trustThreshold, FPT := 1, RPT := 1 }
    ptype := .teaomdv, addrType := .none, prevHop := x.index
    saddr := x.index, daddr := ipBroadcast, sport := rtPort, dport := rtPort, ttl := rt.rtReqLastTtl } (.fixed 0))

/-- `sendRequest`. -/
def sendRequest (env : Env) (x : Exec) (dst : NsAddr) : Result :=
  let p := x.blank
  let x := x.alloc
  match x.rtLookup dst with
  | none => .error (.assertion .sendRequestEntry)
  | some rt =>
    if rt.rtFlags = .up then
      if rt.rtHops = infinity2 then .error (.assertion .sendRequestHops) else .ok (x.free p)
    else if rt.rtReqTimeout > env.now then .ok (x.free p)
    else if rt.rtReqCnt > rreqRetries then do
      let x := x.rtModify dst (fun rt => { rt with rtReqTimeout := env.now + maxRreqTimeout, rtReqCnt := 0 })
      let x ← x.drain env dst (fun x q => .ok (x.drop q .rtrNoRoute))
      .ok (x.free p)
    else
      (x.rtModify dst (requested env)).emitRequest env p (requested env rt)

/-! ## `forward` -/

/-- The record kept of a packet handed to `nexthop`; the destination is not expected to pass it on. -/
def countForward (env : Env) (x : Exec) (p : Packet) : Exec :=
  match p.ptype with
  | .cbr =>
    x.nbModify p.nextHop (fun nb => if p.nextHop = p.daddr then nb.addDataForward else nb.recordCbr p.uid env.now)
  | .teaomdv =>
    x.nbModify p.nextHop
      (fun nb => if p.nextHop = p.daddr then nb.addControlForward else nb.recordPtteaomdv p.uid env.now)
  | .other _ => x

/-- `if (rt->path_empty()) …; rt_down(rt)`, after a path of entry `d`, now `rt`, was deleted; `renumber` is what the
caller does to a number first.  Tells whether the path was the last. -/
def downIfEmpty (env : Env) (x : Exec) (d : NsAddr) (rt : RtEntry) (renumber : RtEntry → RtEntry) :
    Except Fault (Exec × Bool) :=
  rt.pathEmpty >>= fun empty =>
    .ok (if empty then x.rtModify d (fun rt => (renumber rt).rtDown env.inf) else x, empty)

/-- The distrust branch: a PTA to every precursor, then the path is deleted and the packet dropped. -/
def forwardDistrust (env : Env) (x : Exec) (d : NsAddr) (path : Path) (p : Packet) : Result :=
  match x.rtLookup d with
  | none => .error .nullEntry
  | some rt => do
    let x := rt.rtPclist.foldl (reportDistrust rt.rtDst rt.rtSeqno (fun _ => path.lasthop)) x
    let x := x.rtModify d (fun rt => rt.pathDelete path.nexthop)
    let (x, _) ← x.downIfEmpty env d (rt.pathDelete path.nexthop) id
    .ok ((x.say (.distrust d rt.rtSeqno (rt.pathDelete path.nexthop).rtPathList.length)).drop p .rtrNoRoute)

/-- The bookkeeping of a packet that goes out on the entry's first path, and its hand-over. -/
def forwardSend (env : Env) (x : Exec) (d : NsAddr) (p : Packet) (delay : ℚ) : Result :=
  let x := x.countForward env p
  let x := x.rtModify d (fun rt => rt.modifyFind (fun path => { path with expire := env.now + activeRouteTimeout }))
  let x := if p.saddr ≠ x.index ∧ dataPacket p.ptype then x.rtModify d (fun rt => rt.setError true) else x
  let p := { p with direction := .down }
  if p.daddr = ipBroadcast then .error (.assertion .forwardNoRoute)
  else .ok (x.schedule p (.fixed (if delay > 0 then delay else 0)))

/-- `forward` with an entry that is up: the first path, the previous hops, the trust test. -/
def forwardRoute (env : Env) (x : Exec) (d : NsAddr) (p : Packet) (delay : ℚ) : Result :=
  match x.rtLookup d with
  | none => .error .nullEntry
  | some rt =>
    if rt.rtFlags ≠ .up then .error (.assertion .forwardUp)
    else match rt.pathFind with
    | none => .error .nullPath
    | some path =>
      let x := (x.rtModify d (fun rt => rt.pcInsert p.prevHop)).nbEnsure env path.nexthop
      let p := { p with addrType := .inet, nextHop := path.nexthop, pprevHop := p.prevHop, prevHop := x.index }
      if p.ptype = .cbr then
        let fpt := min path.FPT (x.trustOf path.nexthop)
        let x := x.rtModify d (fun rt => rt.modifyFind (fun path => { path with FPT := fpt }))
        if fpt < trustThreshold then x.forwardDistrust env d path p
        else x.forwardSend env d p delay
      else x.forwardSend env d p delay

/-- The packet is for this node, or a broadcast data packet on its way up. -/
def forMe (x : Exec) (p : Packet) : Bool :=
  (p.ptype ≠ .teaomdv ∧ p.direction = .up ∧ p.daddr = ipBroadcast) ∨ p.daddr = x.hereAddr

/-- `forward`; `rt` is the destination of the entry, `none` for a null entry. -/
def forward (env : Env) (x : Exec) (rt : Option NsAddr) (p : Packet) (delay : ℚ) : Result :=
  if p.ttl = 0 then .ok (x.drop p .rtrTtl)
  else if x.forMe p then .ok (x.say (.dmux p))
  else match rt with
  | some d => x.forwardRoute env d p delay
  | none =>
    if p.daddr = ipBroadcast then
      .ok (x.schedule { p with addrType := .none, direction := .down } (.uniform (1 / 100)))
    else .error (.assertion .forwardDaddr)

end Exec

end TeAomdv

import TeAomdv.Forward
/-!
# Recv — the reception routines (`rt_resolve`, `recvRequest`, `recvReply`, `recvError`, `recvPta`, …)

`recvRequest` and `recvReply` are cut into the trust test, the update of the route entry (`reverseRoute`,
`forwardRouteTo`), the loop that sends off what is buffered (`flush`), and the answer or the relay.
-/
namespace TeAomdv

/-! ## Trust carried by a packet -/

/-- The RPT of a request received from the neighbour looked up, or from one not in the table. -/
def Rreq.lowerReverse (rq : Rreq) (nbt : Option Neighbor) : Rreq :=
  match nbt with
  | none => { rq with RPT := rq.RPT + 1 / 10 }
  | some nb => { rq with RPT := min rq.RPT nb.tv }

/-- The FPT of a reply received from the neighbour looked up, or from one not in the table. -/
def Rrep.lowerForward (rp : Rrep) (nbt : Option Neighbor) : Rrep :=
  match nbt with
  | none => { rp with FPT := rp.RT + 1 / 10 }
  | some nb => { rp with FPT := min rp.FPT nb.tv }

/-- The RPT of a reply passed to the neighbour looked up, or to one not in the table. -/
def Rrep.lowerReverse (rp : Rrep) (nbt : Option Neighbor) : Rrep :=
  match nbt with
  | none => { rp with RPT := rp.RT + 1 / 10 }
  | some nb => { rp with RPT := min rp.RPT nb.tv }

namespace Exec

/-- A packet taken out for entry `d`: forwarded if the entry is still up, else neither forwarded nor kept. -/
def flushOne (env : Env) (d : NsAddr) (x : Exec) (q : Packet) : Result :=
  match x.rtLookup d with
  | none => .error .nullEntry
  | some rt => if rt.rtFlags = .up then x.forward env (some d) q noTeaomdvDelay else .ok x

/-- The loop that sends off what is buffered for entry `d` when it is up. -/
def flush (env : Env) (x : Exec) (d : NsAddr) : Result :=
  match x.rtLookup d with
  | none => .error .nullEntry
  | some rt =>
    if rt.rtFlags = .up then (x.rtModify d RtEntry.resetSoftState).drain env d (flushOne env d) else .ok x

/-- The lookup that adds an entry it does not find. -/
def rtEnsure (env : Env) (x : Exec) (d : NsAddr) : Result :=
  if (x.rtLookup d).isNone then x.rtAdd env d else .ok x

/-! ## `recvRequest` -/

/-- A new reverse path: the entry takes the request's number and forgets its paths. -/
def renewReverse (env : Env) (p : Packet) (rq : Rreq) (rt0 : RtEntry) : RtEntry :=
  let rt0 := { rt0 with rtSeqno := rq.rqSrcSeqno, rtAdvertisedHops := env.inf }
  let rt0 := { rt0.pathDeleteAll with rtFlags := .up }
  let rt0 := rt0.pathInsert p.saddr (rq.rqHopCount + 1) (env.now + revRouteLife) rq.rqFirstHop rq.FPT rq.RPT
    ⟨rq.rqSrcSeqno, true⟩
  { rt0 with rtLastHopCount := rt0.pathGetMaxHopcount }

/-- An alternate reverse path. -/
def extendReverse (env : Env) (p : Packet) (rq : Rreq) (rt0 : RtEntry) : RtEntry :=
  let rt0 := rt0.pathInsert p.saddr (rq.rqHopCount + 1) (env.now + revRouteLife) rq.rqFirstHop rq.FPT rq.RPT
    ⟨rq.rqSrcSeqno, false⟩
  { rt0 with rtLastHopCount := rt0.pathGetMaxHopcount }

/-- The new path is longer than the shortest stored one by more than the allowed difference. -/
def tooLong (x : Exec) (hopCount : Nat) (rt : RtEntry) : Bool :=
  ((hopCount + 1 : Nat) : Int) - rt.pathGetMinHopcount > x.teaomdvPrimAltPathLenDiff

/-- The update of the reverse entry.  `none`: the request is to be freed; else whether `reverse_path` was set. -/
def reverseRoute (env : Env) (x : Exec) (p : Packet) (rq : Rreq) : Except Fault (Exec × Option Bool) :=
  match x.rtLookup rq.rqSrc with
  | none => .error .nullEntry
  | some rt0 =>
    if rt0.rtSeqno < rq.rqSrcSeqno then .ok (x.rtModify rq.rqSrc (renewReverse env p rq), some true)
    else if rt0.rtSeqno = rq.rqSrcSeqno ∧ rt0.rtAdvertisedHops > rq.rqHopCount then
      if rt0.rtFlags ≠ .up then .error (.assertion .recvRequestUp)
      else match rt0.disjointPathLookup p.saddr rq.rqFirstHop with
      | some reversePath =>
        if reversePath.hopcount ≠ rq.rqHopCount + 1 then .error (.assertion .recvRequestHopcount)
        else .ok (x.rtModify rq.rqSrc (fun rt0 => rt0.modifyDisjoint p.saddr rq.rqFirstHop
          (fun path => { path with expire := max path.expire (env.now + revRouteLife) })), some true)
      | none =>
        if rt0.newDisjointPath p.saddr rq.rqFirstHop then
          if rt0.rtNumPaths < x.teaomdvMaxPaths ∧ ¬ x.tooLong rq.rqHopCount rt0 then
            -- the difference is tested again, on the list with the new path in it
            .ok (x.rtModify rq.rqSrc (extendReverse env p rq),
              if x.tooLong rq.rqHopCount (extendReverse env p rq rt0) then none else some true)
          else .ok (x, if x.tooLong rq.rqHopCount rt0 then none else some false)
        else if rq.rqDst = x.index ∧
            ((rt0.pathLookupLasthop rq.rqFirstHop).all (fun erp => rq.rqHopCount + 1 > erp.hopcount)) then .ok (x, none)
        else .ok (x, some false)
    else .ok (x, none)

/-- The number a destination answers with: made larger than the odd number the request asks for, and even. -/
def replySeqno (seqno rqDstSeqno : Nat) : Nat :=
  let rqDstSeqno := if rqDstSeqno % 2 = 0 then u32 (rqDstSeqno + 1) else rqDstSeqno
  let seqno := if seqno < rqDstSeqno then u32 (rqDstSeqno + 1) else seqno
  if seqno % 2 ≠ 0 then u32 (seqno + 1) else seqno

/-- The request is for this node. -/
def replyAsDestination (env : Env) (x : Exec) (p : Packet) (rq : Rreq) : Exec :=
  let x := { x with seqno := replySeqno x.seqno rq.rqDstSeqno }
  let x := x.nbEnsure env p.saddr
  (x.sendReply rq.rqSrc 0 x.index x.seqno myRouteTimeout rq.rqTimestamp p.saddr rq.rqBcastId p.saddr 1
    (x.trustOf p.saddr)).free p

/-- The request is answered from the table, once for each broadcast id. -/
def replyFromTable (env : Env) (x : Exec) (p : Packet) (rq : Rreq) (rt : RtEntry) (reverse : Bool) : Result :=
  if rt.rtSeqno % 2 ≠ 0 then .error (.assertion .recvRequestEven)
  else if reverse ∧ (x.idGet rq.rqSrc rq.rqBcastId).all (fun b => b.count = 0) then
    match rt.pathFind with
    | none => .error .nullPath
    | some forwardPath =>
      let x := x.idMark rq.rqSrc rq.rqBcastId
      let x := x.rtModify rq.rqDst (fun rt => (rt.advertise env.inf).setError true)
      .ok ((x.sendReply rq.rqSrc (rt.advertise env.inf).rtAdvertisedHops rq.rqDst rt.rtSeqno (forwardPath.expire - env.now)
        rq.rqTimestamp p.saddr rq.rqBcastId forwardPath.lasthop forwardPath.FPT forwardPath.RPT).free p)
  else .ok (x.free p)

/-- The request is passed on, carrying what the reverse entry advertises. -/
def relayRequest (env : Env) (x : Exec) (p : Packet) (rq : Rreq) (rt : Option RtEntry) (kill : Bool) : Result :=
  if kill then .ok (x.free p)
  else match x.rtLookup rq.rqSrc with
  | none => .error .nullEntry
  | some rt0 =>
    let rq := { rq with rqDstSeqno := match rt with | none => rq.rqDstSeqno | some rt => max rt.rtSeqno rq.rqDstSeqno }
    let x := x.rtModify rq.rqSrc (fun rt => rt.advertise env.inf)
    let rt0 := rt0.advertise env.inf
    match rt0.pathFind with
    | none => .error .nullPath
    | some path =>
      x.forward env none { p with
        saddr := x.index
        body := .rreq { rq with rqHopCount := u8 rt0.rtAdvertisedHops, rqFirstHop := path.lasthop } } teaomdvDelay

/-- What `recvRequest` does once the reverse route is in place. -/
def answerRequest (env : Env) (x : Exec) (p : Packet) (rq : Rreq) (kill reverse : Bool) : Result :=
  if rq.rqDst = x.index then .ok (x.replyAsDestination env p rq)
  else match x.rtLookup rq.rqDst with
  | none => x.relayRequest env p rq none kill
  | some rt =>
    if rt.rtFlags = .up ∧ rt.rtSeqno ≥ rq.rqDstSeqno then x.replyFromTable env p rq rt reverse
    else x.relayRequest env p rq (some rt) kill

/-- The request this node goes on with: the trust lowered, the first hop set by a neighbour of the source. -/
def seenRequest (x : Exec) (p : Packet) (rq : Rreq) : Rreq :=
  let rq := rq.lowerReverse (x.nbLookup p.saddr)
  if rq.rqHopCount = 0 then { rq with rqFirstHop := x.index } else rq

/-- It differs in its first hop and its trust only. -/
theorem seenRequest_eq (x : Exec) (p : Packet) (rq : Rreq) : x.seenRequest p rq = { rq with
    rqFirstHop := if rq.rqHopCount = 0 then x.index else rq.rqFirstHop
    RPT := (rq.lowerReverse (x.nbLookup p.saddr)).RPT } := by
  unfold seenRequest Rreq.lowerReverse
  simp only
  split <;> split <;> rfl

/-- The trust test of a request; only the source itself is exempt. -/
def distrustsRequest (x : Exec) (p : Packet) (rq : Rreq) : Bool :=
  (x.seenRequest p rq).RPT < rq.RT ∧ p.saddr ≠ rq.rqSrc

/-- The broadcast id is cached and the reverse entry exists. -/
def prepareRequest (env : Env) (x : Exec) (rq : Rreq) : Result :=
  (if (x.idGet rq.rqSrc rq.rqBcastId).isSome then x else x.idInsert env rq.rqSrc rq.rqBcastId).rtEnsure env rq.rqSrc

/-- `recvRequest`. -/
def recvRequest (env : Env) (x : Exec) (p : Packet) (rq : Rreq) : Result :=
  if rq.rqSrc = x.index then .ok (x.free p)
  else if x.distrustsRequest p rq then .ok (x.free p)
  else do
    let kill := (x.idGet rq.rqSrc rq.rqBcastId).isSome
    let rq := x.seenRequest p rq
    let x ← x.prepareRequest env rq
    match ← x.reverseRoute env p rq with
    | (x, none) => .ok (x.free p)
    | (x, some reverse) =>
      let x ← x.flush env rq.rqSrc
      x.answerRequest env p rq kill reverse

/-! ## `recvReply` -/

/-- A new forward path: the entry takes the reply's number and forgets its paths. -/
def renewForward (env : Env) (rp : Rrep) (rt : RtEntry) : RtEntry :=
  let rt := { rt with rtSeqno := rp.rpDstSeqno, rtAdvertisedHops := env.inf }
  let rt := { rt.pathDeleteAll with rtFlags := .up }
  let rt := rt.pathInsert rp.rpSrc (rp.rpHopCount + 1) (env.now + rp.rpLifetime) rp.rpFirstHop rp.FPT rp.RPT
    ⟨rp.rpDstSeqno, true⟩
  { rt with rtLastHopCount := rt.pathGetMaxHopcount }

/-- An alternate forward path. -/
def extendForward (env : Env) (rp : Rrep) (rt : RtEntry) : RtEntry :=
  let rt := rt.pathInsert rp.rpSrc (rp.rpHopCount + 1) (env.now + rp.rpLifetime) rp.rpFirstHop rp.FPT rp.RPT
    ⟨rp.rpDstSeqno, false⟩
  { rt with rtLastHopCount := rt.pathGetMaxHopcount }

/-- The trust and lifetime of a forward path the reply names again. -/
def refreshForward (env : Env) (rp : Rrep) (nbt : Option Neighbor) (path : Path) : Path :=
  { path with
    FPT := match nbt with | none => rp.RT + 1 / 10 | some nb => min path.FPT nb.tv
    expire := max path.expire (env.now + rp.rpLifetime) }

/-- The update of the forward entry; the flag tells whether the reply goes on. -/
def forwardRouteTo (env : Env) (x : Exec) (rp : Rrep) (nbt : Option Neighbor) : Except Fault (Exec × Bool) :=
  match x.rtLookup rp.rpDst with
  | none => .error .nullEntry
  | some rt =>
    if rt.rtSeqno < rp.rpDstSeqno then .ok (x.rtModify rp.rpDst (renewForward env rp), true)
    else if rt.rtSeqno = rp.rpDstSeqno ∧ rt.rtAdvertisedHops > rp.rpHopCount then
      if rt.rtFlags ≠ .up then .error (.assertion .recvReplyUp)
      else match rt.disjointPathLookup rp.rpSrc rp.rpFirstHop with
      | some forwardPath =>
        if forwardPath.hopcount ≠ rp.rpHopCount + 1 then .error (.assertion .recvReplyHopcount)
        else .ok (x.rtModify rp.rpDst (fun rt => rt.modifyDisjoint rp.rpSrc rp.rpFirstHop (refreshForward env rp nbt)), true)
      | none =>
        if rt.newDisjointPath rp.rpSrc rp.rpFirstHop ∧ rt.rtNumPaths < x.teaomdvMaxPaths ∧ ¬ x.tooLong rp.rpHopCount rt
        then .ok (x.rtModify rp.rpDst (extendForward env rp), true)
        else .ok (x, false)
    else .ok (x, false)

/-- The reply is passed on towards `ih->daddr()`, along that entry's first path. -/
def relayReply (env : Env) (x : Exec) (p : Packet) (rp : Rrep) : Result :=
  match x.rtLookup p.daddr, x.idGet p.daddr rp.rpBcastId with
  | some rt0, some b =>
    if rt0.rtFlags ≠ .up ∨ b.count ≠ 0 then .ok (x.free p)
    else match rt0.pathFind with
    | none => .error .nullPath
    | some reversePath =>
      let x := x.idMark p.daddr rp.rpBcastId
      let rp := rp.lowerReverse (x.nbLookup reversePath.nexthop)
      match x.rtLookup rp.rpDst with
      | none => .error .nullEntry
      | some rt =>
        let x := x.rtModify rp.rpDst (fun rt => rt.advertise env.inf)
        let rt := rt.advertise env.inf
        match rt.pathFind with
        | none => .error .nullPath
        | some path =>
          let x := x.rtModify p.daddr (fun rt0 =>
            rt0.modifyFind (fun path => { path with expire := env.now + activeRouteTimeout }))
          let x := x.rtModify rp.rpDst (fun rt => rt.setError true)
          x.forward env (some p.daddr) { p with
            addrType := .inet, nextHop := reversePath.nexthop
            body := .rrep { rp with
              rpSrc := x.index, rpHopCount := u8 rt.rtAdvertisedHops, rpFirstHop := path.lasthop } } noTeaomdvDelay
  | _, _ => .ok (x.free p)

/-- The trust test of a reply; a sender that names itself `rp_src` is exempt. -/
def distrustsReply (x : Exec) (p : Packet) (rp : Rrep) : Bool :=
  (rp.lowerForward (x.nbLookup p.prevHop)).FPT < rp.RT ∧ p.prevHop ≠ rp.rpSrc

/-- `recvReply`. -/
def recvReply (env : Env) (x : Exec) (p : Packet) (rp : Rrep) : Result :=
  if x.distrustsReply p rp then .ok (x.free p)
  else if rp.rpDst = x.index then .ok (x.free p)
  else do
    let nbt := x.nbLookup p.prevHop
    let rp := rp.lowerForward nbt
    let x ← x.rtEnsure env rp.rpDst
    match ← x.forwardRouteTo env rp nbt with
    | (x, false) => .ok (x.free p)
    | (x, true) =>
      let x ← x.flush env rp.rpDst
      if p.daddr = x.index then .ok (x.free p) else x.relayReply env p rp

/-! ## `recvError`, `recvPta` -/

/-- One slot of a RERR from `saddr`: the path through the sender is deleted, and an entry that has none left goes down
with the highest number heard. -/
def errorSlot (env : Env) (saddr : NsAddr) (acc : Exec × List (NsAddr × Nat)) (slot : NsAddr × Nat) :
    Except Fault (Exec × List (NsAddr × Nat)) :=
  let x := acc.1
  match x.rtLookup slot.1 with
  | none => .ok acc
  | some rt =>
    if rt.rtFlags = .up ∧ (rt.pathLookup saddr).isSome ∧ rt.rtSeqno ≤ slot.2 then
      if rt.rtSeqno % 2 ≠ 0 then .error (.assertion .recvErrorEven)
      else do
        let heard := max rt.rtHighestSeqnoHeard slot.2
        let x := x.rtModify slot.1 (fun rt => (rt.pathDelete saddr).setHighestSeqnoHeard heard)
        let (x, empty) ← x.downIfEmpty env slot.1 (rt.pathDelete saddr) (fun rt => rt.setSeqno heard)
        if empty ∧ rt.rtError then
          .ok (x.rtModify slot.1 (fun rt => rt.setError false), acc.2 ++ [(slot.1, heard)])
        else .ok (x, acc.2)
    else .ok acc

/-- `recvError`.  A slot past the array is not readable, and none past it is writable. -/
def recvError (env : Env) (x : Exec) (p : Packet) (re : Rerr) : Result := do
  let rerr := x.blank
  if re.unreachable.length > teaomdvMaxErrors then .error .overrun
  else
    let (x, nre) ← re.unreachable.foldlM (errorSlot env p.saddr) (x.alloc, [])
    .ok ((if nre.length > 0 then x.sendError rerr ⟨nre⟩ true else x.free rerr).free p)

/-- The PTA is about a live route of this entry: up, a path through the sender with this last hop, and a number that is
not older. -/
def acceptsPta (rt : RtEntry) (saddr : NsAddr) (re : Pta) : Bool :=
  rt.rtFlags = .up ∧ rt.rtSeqno ≤ re.unreachableDstSeqno ∧
    (rt.pathLookup saddr).any (fun path => path.lasthop = re.unreachableLasthop)

/-- `recvPta`.  The number heard is written into the entry whether or not a path is left. -/
def recvPta (env : Env) (x : Exec) (p : Packet) (re : Pta) : Result :=
  match x.rtLookup re.unreachableDst with
  | none => .ok (x.free p)
  | some rt =>
    if acceptsPta rt p.saddr re then
      if rt.rtSeqno % 2 ≠ 0 then .error (.assertion .recvPtaEven)
      else do
        let heard := max rt.rtHighestSeqnoHeard re.unreachableDstSeqno
        let x := x.rtModify re.unreachableDst (fun rt => (rt.pathDelete p.saddr).setHighestSeqnoHeard heard)
        let (x, _) ← x.downIfEmpty env re.unreachableDst (rt.pathDelete p.saddr) id
        let x := x.rtModify re.unreachableDst (fun rt => rt.setSeqno heard)
        let pcs := rt.rtPclist.filter (fun pc => x.index ≠ pc)
        .ok ((pcs.foldl (reportDistrust rt.rtDst heard env.freedLasthop) x).free p)
    else .ok (x.free p)

/-! ## `recvHello`, `recvRcom`, `recvProb` -/

/-- `recvHello`. -/
def recvHello (env : Env) (x : Exec) (p : Packet) (rp : Rrep) : Exec :=
  match x.nbLookup rp.rpDst with
  | none => (x.nbInsert env rp.rpDst).free p
  | some _ =>
    (x.nbModify rp.rpDst (fun nb =>
      { nb with nbExpire := env.now + 15 / 10 * allowedHelloLoss * helloInterval })).free p

/-- One neighbour recommended with direct trust `dt` by a neighbour of weight `w`. -/
def recommend (w : ℚ) (x : Exec) (r : NsAddr × ℚ) : Exec :=
  x.nbModify r.1 (fun nb =>
    { nb with
      fenzi := nb.fenzi + w * r.2
      fenmu := nb.fenmu + w
      trustedNbs := if trustThreshold ≤ r.2 then nb.trustedNbs + 1 else nb.trustedNbs })

/-- `recvRcom`. -/
def recvRcom (env : Env) (x : Exec) (p : Packet) (rc : Recommen) : Result :=
  match x.nbLookup p.saddr with
  | none => .ok (x.free p)
  | some nb =>
    if trustThreshold ≤ nb.tv then
      if rc.nbs.length > maxNb then .error .overrun
      else
        let x := x.nbModify p.saddr (fun nb => { nb with interactNbs := nb.interactNbs + rc.itNum })
        .ok ((rc.nbs.foldl (recommend (nb.directTrust.getD (env.unsetTrust p.saddr))) x).free p)
    else .ok (x.free p)

/-- `recvProb`. -/
def recvProb (env : Env) (x : Exec) (p : Packet) : Exec :=
  (x.nbModify p.saddr (fun nb =>
    { nb with nbExpire := env.now + helloInterval, probRecvs := nb.probRecvs + 1 })).free p

/-! ## `recv` -/

/-- `recvTEAOMDV`. -/
def recvTEAOMDV (env : Env) (x : Exec) (p : Packet) : Result :=
  if p.sport ≠ rtPort ∨ p.dport ≠ rtPort then .error (.assertion .recvPort)
  else match p.body with
  | .rreq rq => x.recvRequest env p rq
  | .rrep rp => x.recvReply env p rp
  | .rerr re => x.recvError env p re
  | .hello rp => .ok (x.recvHello env p rp)
  | .rcom rc => x.recvRcom env p rc
  | .prob => .ok (x.recvProb env p)
  | .pta re => x.recvPta env p re
  | .payload => .error .exit

/-- `rt_resolve` on an entry that is down, for a packet of another node: a RERR upstream. -/
def reportNoRoute (x : Exec) (p : Packet) (rt : RtEntry) : Exec :=
  (x.alloc.sendError x.blank ⟨[(rt.rtDst, rt.rtSeqno)]⟩ false).drop p .rtrNoRoute

/-- `rt_resolve`. -/
def rtResolve (env : Env) (x : Exec) (p : Packet) : Result := do
  let x ← x.rtEnsure env p.daddr
  match x.rtLookup p.daddr with
  | none => .error .nullEntry
  | some rt =>
    if rt.rtFlags = .up then
      if rt.rtHops = infinity2 then .error (.assertion .rtResolveHops)
      else x.forward env (some p.daddr) p noTeaomdvDelay
    else if p.saddr = x.index then (x.enque env p).sendRequest env rt.rtDst
    else if rt.rtFlags = .inRepair then .ok (x.enque env p)
    else .ok (x.reportNoRoute p rt)

/-- `recv`. -/
def recv (env : Env) (x : Exec) (p : Packet) : Result :=
  if p.ptype = .teaomdv then x.recvTEAOMDV env { p with ttl := p.ttl - 1 }
  else if p.saddr = x.index ∧ p.numForwards = 0 then
    let p := { p with salvageCount := 0 }
    if p.daddr ≠ ipBroadcast then x.rtResolve env { p with ttl := networkDiameter }
    else x.forward env none p noTeaomdvDelay
  else if p.saddr = x.index then .ok (x.drop p .rtrRouteLoop)
  else
    let p := { p with ttl := p.ttl - 1 }
    if p.ttl = 0 then .ok (x.drop p .rtrTtl)
    else if p.daddr ≠ ipBroadcast then x.rtResolve env p
    else x.forward env none p noTeaomdvDelay

/-- `tap`: a unicast packet overheard from a neighbour this node gave it to. -/
def tap (x : Exec) (p : Packet) : Exec :=
  if p.pprevHop ≠ x.index then x
  else match p.ptype with
  | .cbr => x.nbModify p.prevHop (fun nb => { nb with cbrF := Neighbor.confirm nb.cbrF nb.cbrNum p.uid })
  | .teaomdv =>
    if p.daddr ≠ ipBroadcast then
      x.nbModify p.prevHop (fun nb => { nb with ptteaomdvF := Neighbor.confirm nb.ptteaomdvF nb.ptteaomdvNum p.uid })
    else x
  | .other _ => x

end Exec

end TeAomdv

import TeAomdv.Recv
/-!
# Timers — link failure, purging, trust rounds, and one invocation of a handler

The walks over the route table go through the entries in table order; no walk adds or removes an entry, so the walk is
over the destinations the table had when it began.
-/
namespace TeAomdv

namespace Exec

/-! ## Link failure -/

/-- The entry after its last path failed: a number past its own and at least the highest heard, then down. -/
def failed (inf : Nat) (rt : RtEntry) : RtEntry :=
  (rt.setSeqno (max (u32 (rt.rtSeqno + 1)) rt.rtHighestSeqnoHeard)).rtDown inf

/-- One entry of the walk of `handle_link_failure`, with the RERR slots written so far. -/
def failEntry (env : Env) (id : NsAddr) (acc : Exec × List (NsAddr × Nat)) (d : NsAddr) :
    Except Fault (Exec × List (NsAddr × Nat)) :=
  let x := acc.1
  match x.rtLookup d with
  | none => .ok acc
  | some rt =>
    if rt.rtFlags = .up ∧ (rt.pathLookup id).isSome then
      if rt.rtSeqno % 2 ≠ 0 then .error (.assertion .handleLinkFailureEven)
      else do
        let empty ← (rt.pathDelete id).pathEmpty
        let x := x.rtModify d (fun rt => rt.pathDelete id)
        if empty then
          if rt.rtError then
            if acc.2.length ≥ teaomdvMaxErrors then .error .overrun
            else .ok (x.rtModify d (fun rt => (failed env.inf rt).setError false),
              acc.2 ++ [(d, (failed env.inf rt).rtSeqno)])
          else .ok (x.rtModify d (failed env.inf), acc.2)
        else .ok (x, acc.2)
    else .ok acc

/-- `handle_link_failure`. -/
def handleLinkFailure (env : Env) (x : Exec) (id : NsAddr) : Result := do
  let rerr := x.blank
  let (x, re) ← (x.rtable.map (·.rtDst)).foldlM (failEntry env id) (x.alloc, [])
  .ok (if re.length > 0 then x.sendError rerr ⟨re⟩ false else x.free rerr)

/-! ## Route cache -/

/-- The entry after its last path expired: an odd number past its own and at least the highest heard, then down. -/
def expired (inf : Nat) (rt : RtEntry) : RtEntry :=
  let seqno := max (u32 (rt.rtSeqno + 1)) rt.rtHighestSeqnoHeard
  (rt.setSeqno (if seqno % 2 = 0 then u32 (seqno + 1) else seqno)).rtDown inf

/-- The packets buffered for an entry that is up, sent `ARP_DELAY` apart. -/
def sendBuffered (env : Env) (d : NsAddr) : Nat → Exec × ℚ → Except Fault (Exec × ℚ)
  | 0, acc => .ok acc
  | n + 1, (x, delay) =>
    match x.deque env d with
    | (none, x) => .ok (x, delay)
    | (some p, x) => x.forward env (some d) p delay >>= fun x => sendBuffered env d n (x, delay + arpDelay)

/-- One entry of the walk of `rt_purge`, with the delay reached so far. -/
def purgeEntry (env : Env) (acc : Exec × ℚ) (d : NsAddr) : Except Fault (Exec × ℚ) :=
  let x := acc.1
  match x.rtLookup d with
  | none => .ok acc
  | some rt =>
    if rt.rtFlags = .up ∧ rt.rtExpire < env.now then do
      let x := x.rtModify d (fun rt => rt.pathPurge env.now)
      let empty ← (rt.pathPurge env.now).pathEmpty
      if empty then
        let x ← x.drain env d (fun x q => .ok (x.drop q .rtrRtexpire))
        .ok (x.rtModify d (expired env.inf), acc.2)
      else .ok (x, acc.2)
    else if rt.rtFlags = .up then
      if rt.rtHops = infinity2 then .error (.assertion .rtPurgeHops)
      else sendBuffered env d (x.rqueue.length + 1) acc
    else if x.rqFind d then do
      let x ← x.sendRequest env d
      .ok (x, acc.2)
    else .ok acc

/-- `rt_purge`. -/
def rtPurge (env : Env) (x : Exec) : Result := do
  let (x, _) ← (x.rtable.map (·.rtDst)).foldlM (purgeEntry env) (x, 0)
  .ok x

/-! ## Neighbours -/

/-- One packet taken out of the interface queue: salvaged on another path of its entry, or dropped. -/
def salvage (env : Env) (x : Exec) (p : Packet) : Result :=
  let x := x.say (.filter p)
  if ¬ dataPacket p.ptype then .ok (x.drop p .rtrHello)
  else if (x.rtLookup p.daddr).any (fun rt => rt.rtFlags = RtFlag.up) ∧ p.salvageCount < teaomdvMaxSalvageCount then
    x.forward env (some p.daddr) { p with salvageCount := p.salvageCount + 1 } noTeaomdvDelay
  else .ok (x.drop p .rtrHello)

/-- `nb_delete`; `ifq id` lists what `filter(id)` returns until it returns null. -/
def nbDelete (env : Env) (ifq : NsAddr → List Packet) (x : Exec) (id : NsAddr) : Result := do
  let x := { x with seqno := u32 (x.seqno + 2) }
  if x.seqno % 2 ≠ 0 then .error (.assertion .nbDeleteEven)
  else
    let x := { x with nbhead := x.nbhead.eraseP (fun nb => nb.nbAddr = id) }
    let x ← x.handleLinkFailure env id
    (ifq id).foldlM (salvage env) x

/-- `nb_purge`.  The walk holds the next cell before it deletes one, and only cells before the current one are new. -/
def nbPurge (env : Env) (ifq : NsAddr → List Packet) (x : Exec) : Result :=
  x.nbhead.foldlM (fun x nb => if nb.nbExpire ≤ env.now then x.nbDelete env ifq nb.nbAddr else .ok x) x

/-! ## Trust rounds -/

/-- The state of the walk of `set_trust`: the packet being filled, its slots, and its `it_num`. -/
structure Batch where
  x : Exec
  p : Packet
  nbs : List (NsAddr × ℚ)
  itNum : Int

/-- One neighbour: evaluated, written into the packet, which is sent when it is full. -/
def trustEntry (env : Env) (b : Batch) (id : NsAddr) : Batch :=
  let x := b.x.nbModify id (fun nb => (nb.setTV env.now).tvInit env.now)
  match x.nbLookup id with
  | none => b
  | some nb =>
    let nbs := b.nbs ++ [(id, nb.directTrust.getD 0)]
    let itNum := if 5 / 10 < nb.deliveryRatio.getD 0 then b.itNum + 1 else b.itNum
    if nbs.length = maxNb then
      let x := x.sendRcom b.p ⟨nbs, itNum⟩
      ⟨x.alloc, x.blank, [], 0⟩
    else ⟨x, b.p, nbs, itNum⟩

/-- `set_trust`. -/
def setTrust (env : Env) (x : Exec) : Exec :=
  let b := (x.nbhead.map (·.nbAddr)).foldl (trustEntry env) ⟨x.alloc, x.blank, [], 0⟩
  if b.nbs.length ≠ 0 then b.x.sendRcom b.p ⟨b.nbs, b.itNum⟩ else b.x

/-! ## One invocation -/

/-- `TEAOMDVLocalRepairTimer::handle`; its packet is its own to free. -/
def localRepair (env : Env) (x : Exec) (p : Packet) : Exec :=
  match x.rtLookup p.daddr with
  | none => x.free p
  | some rt => (if rt.rtFlags ≠ .up then x.rtModify p.daddr (fun rt => rt.rtDown env.inf) else x).free p

end Exec

/-- The timers, with what a handler is given. -/
inductive Timer
  | broadcast
  | hello
  | probe
  | trust
  | neighbor (ifq : NsAddr → List Packet)
  | routeCache
  | localRepair (p : Packet)

/-- What can invoke the agent: a packet, an overheard packet, a failed transmission, a timer. -/
inductive Input
  | recv (p : Packet)
  | tap (p : Packet)
  | rtLlFailed (p : Packet)
  | timer (t : Timer)

namespace Exec

def timer (env : Env) (x : Exec) : Timer → Result
  | .broadcast => .ok (x.idPurge env)
  | .hello => .ok (if x.rtHasActiveRoute then x.sendHello else x)
  | .probe => .ok x.sendProb
  | .trust => .ok (x.setTrust env)
  | .neighbor ifq => x.nbPurge env ifq
  | .routeCache => x.rtPurge env
  | .localRepair p => .ok (x.localRepair env p)

/-- One invocation of the agent; without link-layer detection `rt_ll_failed` only drops. -/
def handle (env : Env) (x : Exec) : Input → Result
  | .recv p => x.recv env p
  | .tap p => .ok (x.tap p)
  | .rtLlFailed p => .ok (x.drop p .rtrMacCallback)
  | .timer t => x.timer env t

end Exec

end TeAomdv

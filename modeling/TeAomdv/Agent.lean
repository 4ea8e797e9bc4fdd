import TeAomdv.Rtable
import TeAomdv.Trust
/-!
# Agent — the routing agent's state and the primitive operations on it (`class TEAOMDV`)

A handler runs on an `Exec`: the agent, the allocation counter of the simulator, and the log of what the handler has
done to packets.  A failing `assert`, a null path, an access past an array and `exit` end the handler in a `Fault`.
A route entry is named by its destination, as `rt_lookup` finds it; a neighbour by its address; a cached broadcast id
by its source and number.
-/
namespace TeAomdv

/-! ## Constants of `teaomdv.h` -/

def myRouteTimeout : ℚ := 10
def activeRouteTimeout : ℚ := 10
def revRouteLife : ℚ := 6
def bcastIdSave : ℚ := 6
def rreqRetries : Nat := 3
def maxRreqTimeout : ℚ := 1
def ttlStart : Int := 5
def ttlIncrement : Int := 2
def ttlThreshold : Int := 7
def networkDiameter : Int := 30
def teaomdvDelay : ℚ := 1
def noTeaomdvDelay : ℚ := -1
def arpDelay : ℚ := 1 / 100
def helloInterval : ℚ := 2
def allowedHelloLoss : ℚ := 3
def nodeTraversalTime : ℚ := 3 / 100
def teaomdvMaxSalvageCount : Nat := 10

/-- `TEAOMDV_RTQ_MAX_LEN` and `TEAOMDV_RTQ_TIMEOUT`. -/
def teaomdvRtqMaxLen : Nat := 64
def teaomdvRtqTimeout : ℚ := 30

/-- What a handler reads besides its state: the clock, ns-2's `INFINITY`, and memory it has not written. -/
structure Env where
  inf : Nat
  now : ℚ
  /-- `rt_hops` of an entry just allocated. -/
  unsetHops : Nat := 0
  /-- `direct_trust` of a neighbour before `set_direct_trust` ran on it. -/
  unsetTrust : NsAddr → ℚ := fun _ => 0
  /-- `path->lasthop` after the path is deleted, as read for one precursor. -/
  freedLasthop : NsAddr → NsAddr := fun _ => 0

/-- `TEAOMDVBroadcastID`. -/
structure BroadcastId where
  src : NsAddr
  id : Nat
  expire : ℚ
  count : Nat := 0

/-- `class TEAOMDV`. -/
structure Agent where
  index : NsAddr
  hereAddr : NsAddr
  seqno : Nat := 2
  /-- An `int`, of which an RREQ carries the 32 bits. -/
  bid : Nat := 1
  rtable : List RtEntry := []
  nbhead : List Neighbor := []
  bihead : List BroadcastId := []
  rqueue : List Packet := []
  teaomdvMaxPaths : Int := 3
  teaomdvPrimAltPathLenDiff : Int := 1

/-- The constructor, with `here_` at the node's own address. -/
def Agent.new (id : NsAddr) : Agent := { index := id, hereAddr := id }

/-- The asserts of the source. -/
inductive Site
  | pathEmpty
  | rtAdd
  | handleLinkFailureEven
  | rtResolveHops
  | rtPurgeHops
  | recvPort
  | recvRequestUp
  | recvRequestHopcount
  | recvRequestEven
  | recvReplyUp
  | recvReplyHopcount
  | recvErrorEven
  | recvPtaEven
  | forwardUp
  | forwardDaddr
  | forwardNoRoute
  | sendRequestEntry
  | sendRequestHops
  | sendRequestEven
  | nbDeleteEven
  deriving DecidableEq, Repr

/-- How a handler can end early: an assert, a null path or a null entry used, an array overrun, `exit(1)`. -/
inductive Fault
  | assertion (s : Site)
  | nullPath
  | nullEntry
  | overrun
  | exit
  deriving DecidableEq, Repr

inductive DropReason
  | rtrTtl
  | rtrRouteLoop
  | rtrNoRoute
  | rtrMacCallback
  | rtrRtexpire
  | rtrHello
  | rtrQfull
  | rtrQtimeout
  deriving DecidableEq, Repr

/-- When the scheduler is to hand a packet over: after a fixed time, or after a random part of one. -/
inductive Delay
  | fixed (d : ℚ)
  | uniform (d : ℚ)

/-- What a handler does to a packet.  `timeout` is the queue's own purge; `distrust` is no act on a packet but the
trace of one branch of `forward`, with the entry's number and how many paths it left. -/
inductive Act
  | alloc (ptr : Nat)
  | schedule (p : Packet) (d : Delay)
  | dmux (p : Packet)
  | drop (p : Packet) (r : DropReason)
  | free (p : Packet)
  | enque (p : Packet)
  | deque (p : Packet)
  | timeout (p : Packet)
  | filter (p : Packet)
  | distrust (d : NsAddr) (seqno left : Nat)

/-- A handler under way. -/
structure Exec extends Agent where
  heap : Nat
  log : List Act

abbrev Result := Except Fault Exec

namespace Exec

def say (x : Exec) (a : Act) : Exec := { x with log := x.log ++ [a] }

def free (x : Exec) (p : Packet) : Exec := x.say (.free p)

def drop (x : Exec) (p : Packet) (r : DropReason) : Exec := x.say (.drop p r)

/-- `Scheduler::schedule(target_, p, d)`. -/
def schedule (x : Exec) (p : Packet) (d : Delay) : Exec := x.say (.schedule p d)

/-- `Packet::alloc()`: the next free address, which `blank` turns into a zeroed packet. -/
def alloc (x : Exec) : Exec := { x with heap := x.heap + 1 }.say (.alloc x.heap)

/-- The packet the next `alloc` returns. -/
def blank (x : Exec) : Packet := { ptr := x.heap }

/-! ## Route table -/

def rtLookup (x : Exec) (id : NsAddr) : Option RtEntry := x.rtable.find? (fun e => e.rtDst = id)

/-- `rt_add`. -/
def rtAdd (env : Env) (x : Exec) (id : NsAddr) : Result :=
  if (x.rtLookup id).isSome then .error (.assertion .rtAdd)
  else .ok { x with rtable := { rtDst := id, rtHops := env.unsetHops } :: x.rtable }

/-- A write through the pointer `rt_lookup` returned. -/
def rtModify (x : Exec) (id : NsAddr) (f : RtEntry → RtEntry) : Exec :=
  { x with rtable := Keyed.modifyFirst (fun e => e.rtDst = id) f x.rtable }

/-- `rt_has_active_route`. -/
def rtHasActiveRoute (x : Exec) : Bool := x.rtable.any (fun e => e.rtFlags = .up)

/-! ## Neighbours -/

def nbLookup (x : Exec) (id : NsAddr) : Option Neighbor := x.nbhead.find? (fun nb => nb.nbAddr = id)

def nbModify (x : Exec) (id : NsAddr) (f : Neighbor → Neighbor) : Exec :=
  { x with nbhead := Keyed.modifyFirst (fun nb => nb.nbAddr = id) f x.nbhead }

/-- `nb_insert`. -/
def nbInsert (env : Env) (x : Exec) (id : NsAddr) : Exec :=
  let expire := env.now + helloInterval * allowedHelloLoss
  match x.nbLookup id with
  | none => { x with nbhead := Neighbor.new id env.now expire :: x.nbhead }
  | some _ => x.nbModify id (fun nb => { nb with nbExpire := expire })

/-- The lookup that inserts a neighbour it does not find. -/
def nbEnsure (env : Env) (x : Exec) (id : NsAddr) : Exec :=
  match x.nbLookup id with
  | none => x.nbInsert env id
  | some _ => x

/-- `get_TV` of a neighbour that was just looked up or inserted; a new one starts at 1. -/
def trustOf (x : Exec) (id : NsAddr) : ℚ :=
  match x.nbLookup id with
  | none => 1
  | some nb => nb.tv

/-! ## Broadcast ids -/

def sameId (id : NsAddr) (bid : Nat) (b : BroadcastId) : Bool := b.src = id ∧ b.id = bid

/-- `id_insert`. -/
def idInsert (env : Env) (x : Exec) (id : NsAddr) (bid : Nat) : Exec :=
  { x with bihead := { src := id, id := bid, expire := env.now + bcastIdSave } :: x.bihead }

/-- `id_get`. -/
def idGet (x : Exec) (id : NsAddr) (bid : Nat) : Option BroadcastId := x.bihead.find? (sameId id bid)

/-- `b->count = 1`. -/
def idMark (x : Exec) (id : NsAddr) (bid : Nat) : Exec :=
  { x with bihead := Keyed.modifyFirst (sameId id bid) (fun b => { b with count := 1 }) x.bihead }

/-- `id_purge`. -/
def idPurge (env : Env) (x : Exec) : Exec := { x with bihead := x.bihead.filter (fun b => ¬ b.expire ≤ env.now) }

/-! ## Buffered packets

The queue as the list of its packets from `head_` to `tail_`. -/

/-- `purge`: aged packets are unlinked and nothing else is done with them. -/
def rqPurge (env : Env) (x : Exec) : Exec :=
  { x with
    rqueue := Keyed.eraseAll (fun p => p.ts < env.now) x.rqueue
    log := x.log ++ (x.rqueue.filter (fun p => p.ts < env.now)).map .timeout }

/-- `remove_head` and the drop of a full queue. -/
def rqEvict (env : Env) (x : Exec) : Exec :=
  match x.rqueue with
  | [] => x
  | p0 :: rest =>
    if x.rqueue.length = teaomdvRtqMaxLen then
      ({ x with rqueue := rest }.say (.deque p0)).drop p0 (if p0.ts > env.now then .rtrQfull else .rtrQtimeout)
    else x

/-- `enque`. -/
def enque (env : Env) (x : Exec) (p : Packet) : Exec :=
  let x := (x.rqPurge env).rqEvict env
  let p := { p with ts := env.now + teaomdvRtqTimeout }
  { x with rqueue := x.rqueue ++ [p] }.say (.enque p)

/-- `deque(dst)`. -/
def deque (env : Env) (x : Exec) (dst : NsAddr) : Option Packet × Exec :=
  let x := x.rqPurge env
  match x.rqueue.find? (fun p => p.daddr = dst) with
  | none => (none, x)
  | some p => (some p, { x with rqueue := x.rqueue.eraseP (fun p => p.daddr = dst) }.say (.deque p))

/-- `find`. -/
def rqFind (x : Exec) (dst : NsAddr) : Bool := (x.rqueue.find? (fun p => p.daddr = dst)).isSome

/-- `while ((p = rqueue.deque(dst))) body`, for at most `n` packets. -/
def drainLoop (env : Env) (dst : NsAddr) (body : Exec → Packet → Result) : Nat → Exec → Result
  | 0, x => .ok x
  | n + 1, x =>
    match x.deque env dst with
    | (none, x) => .ok x
    | (some p, x) => body x p >>= drainLoop env dst body n

/-- The loop over everything buffered for `dst`; no body puts packets back, so the queue's length bounds it. -/
def drain (env : Env) (dst : NsAddr) (body : Exec → Packet → Result) (x : Exec) : Result :=
  drainLoop env dst body (x.rqueue.length + 1) x

end Exec

/-- `path_empty`, with its asserts on the counter. -/
def RtEntry.pathEmpty (e : RtEntry) : Except Fault Bool :=
  if e.rtPathList.isEmpty then
    if e.rtNumPaths = 0 then .ok true else .error (.assertion .pathEmpty)
  else if e.rtNumPaths > 0 then .ok false else .error (.assertion .pathEmpty)

end TeAomdv

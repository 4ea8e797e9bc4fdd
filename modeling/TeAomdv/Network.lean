import TeAomdv.Timers
import TeAomdv.Lib.Runs
/-!
# Network — many nodes running the agent

Every address runs one agent.  `air` lists, with its sender, every packet an agent has handed to `target_` so far; a
packet can be delivered to whoever its link-layer destination allows, in any order, at any later time, and any number of
times, or never.  Any topology is such a choice of deliveries.  Timers expire whenever an event says so.  A handler that
ends in a fault ends the run: it has no next state.
-/
namespace TeAomdv

structure Net where
  now : ℚ
  heap : Nat
  node : NsAddr → Agent
  air : List (NsAddr × Packet)

/-- What happens at a node: packet `k` of the air arrives, is overheard, or is reported undelivered; an application
sends; a timer expires.  `ifq id` picks the packets of the air that `filter(id)` finds in the interface queue. -/
inductive What
  | deliver (k : Nat)
  | overhear (k : Nat)
  | undelivered (k : Nat)
  | originate (p : Packet)
  | broadcastTimer
  | helloTimer
  | probeTimer
  | trustTimer
  | neighborTimer (ifq : NsAddr → List Nat)
  | routeCacheTimer

structure Event where
  now : ℚ
  node : NsAddr
  what : What
  unsetHops : Nat := 0
  unsetTrust : NsAddr → ℚ := fun _ => 0
  freedLasthop : NsAddr → NsAddr := fun _ => 0

def Event.env (inf : Nat) (ev : Event) : Env := ⟨inf, ev.now, ev.unsetHops, ev.unsetTrust, ev.freedLasthop⟩

/-- A packet as the link layer hands it up: a copy, on its way up, forwarded once more. -/
def Packet.received (p : Packet) (ptr : Nat) : Packet :=
  { p with ptr := ptr, direction := .up, numForwards := p.numForwards + 1 }

/-- The packets handed to `target_`, in order. -/
def Exec.sent (x : Exec) : List Packet := x.log.filterMap (fun a => match a with | .schedule p _ => some p | _ => none)

namespace Net

def init : Net := ⟨0, 0, Agent.new, []⟩

/-- The packets of `i`'s interface queue for next hop `id`, as `filter(id)` returns them. -/
def queued (net : Net) (i : NsAddr) (ks : List Nat) (id : NsAddr) : List Packet :=
  ks.filterMap (fun k => match net.air[k]? with
    | some (src, p) => if src = i ∧ p.linkDst = id then some p else none
    | none => none)

/-- The invocation an event stands for, if it is enabled. -/
def input (net : Net) (ev : Event) : Option Input :=
  if ev.now < net.now ∨ ev.node = ipBroadcast then none
  else match ev.what with
  | .deliver k =>
    match net.air[k]? with
    | none => none
    | some (_, p) =>
      if p.linkDst = ipBroadcast ∨ p.linkDst = ev.node then some (.recv (p.received net.heap)) else none
  | .overhear k =>
    match net.air[k]? with
    | none => none
    | some (_, p) => some (.tap (p.received net.heap))
  | .undelivered k =>
    match net.air[k]? with
    | none => none
    | some (src, p) => if src = ev.node then some (.rtLlFailed p) else none
  | .originate p =>
    if p.ptype ≠ .teaomdv ∧ p.saddr = ev.node ∧ p.numForwards = 0 then some (.recv { p with ptr := net.heap }) else none
  | .broadcastTimer => some (.timer .broadcast)
  | .helloTimer => some (.timer .hello)
  | .probeTimer => some (.timer .probe)
  | .trustTimer => some (.timer .trust)
  | .neighborTimer ifq => some (.timer (.neighbor (fun id => net.queued ev.node (ifq id) id)))
  | .routeCacheTimer => some (.timer .routeCache)

/-- The agent of node `i` as a handler finds it. -/
def start (net : Net) (i : NsAddr) : Exec := { net.node i with heap := net.heap + 1, log := [] }

/-- The network with node `i` as a handler left it. -/
def commit (net : Net) (now : ℚ) (i : NsAddr) (x : Exec) : Net :=
  { now := now
    heap := x.heap
    node := fun a => if a = i then x.toAgent else net.node a
    air := net.air ++ x.sent.map (fun p => (i, p)) }

/-- The handler an event runs, and how it ends. -/
def exec (inf : Nat) (net : Net) (ev : Event) : Option Result :=
  (net.input ev).map ((net.start ev.node).handle (ev.env inf))

def step (inf : Nat) (net : Net) (ev : Event) : Option Net :=
  match net.exec inf ev with
  | some (.ok x) => some (net.commit ev.now ev.node x)
  | _ => none

/-- The states of the runs all of whose events meet the guard. -/
def Reach (inf : Nat) (guard : Net → Event → Prop) : Net → Prop := Runs.Reaches (step inf) guard init

/-- No guard. -/
def anyEvent (_ : Net) (_ : Event) : Prop := True

def replay (inf : Nat) (evs : List Event) : Option Net := Runs.replay (step inf) evs init

end Net

end TeAomdv

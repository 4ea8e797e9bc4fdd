import TeAomdv.TermsTimers
import TeAomdv.Reach
/-!
# Track — the history of a packet

Beside the network a `Trip` is kept for every packet of the air and for every packet a node holds: how often `recv` passed
it on, how many hops it came, what TTL it set out with, who the node got it from.  Data packets keep their address in
memory through a buffer and the interface queue, and with it their trip; a packet received is a new one, with the trip of
what was received and one hop more.
-/
namespace TeAomdv

open Fallible (Ends)

structure Trip where
  /-- How often `recv` passed it on to `rt_resolve`. -/
  passes : Nat := 0
  /-- How many hops it has come. -/
  hops : Nat := 0
  /-- The TTL of a routing packet when it was made. -/
  start : Int := 0
  /-- Who the node that has it got it from. -/
  giver : Option NsAddr := none

/-- The trips of the packets of the air, by position, and of the packets held by nodes, by address. -/
structure Trips where
  aired : Nat → Trip := fun _ => {}
  held : Nat → Trip := fun _ => {}

namespace Net

/-- The handler an event runs passes a data packet on to `rt_resolve`. -/
def resolves (net : Net) (ev : Event) : Bool :=
  match net.input ev with
  | some (.recv p) => (net.start ev.node).resolves p
  | _ => false

/-- The trip of the packet an event hands to a node. -/
def arrival (net : Net) (ev : Event) (t : Trips) : Trip :=
  match ev.what with
  | .deliver k =>
    match net.air[k]? with
    | some (src, _) => { t.aired k with hops := (t.aired k).hops + 1, giver := some src }
    | none => {}
  | _ => {}

/-- The trips of packets held, with that of the packet just received. -/
def holding (net : Net) (ev : Event) (t : Trips) (ptr : Nat) : Trip :=
  if ptr = net.heap then
    { net.arrival ev t with passes := (net.arrival ev t).passes + if net.resolves ev then 1 else 0 }
  else t.held ptr

/-- The trip of a packet that is sent: a new one, or that of the packet held. -/
def sending (net : Net) (ev : Event) (t : Trips) (q : Packet) : Trip :=
  if net.heap < q.ptr then { start := q.ttl } else net.holding ev t q.ptr

def noteTrips (net : Net) (ev : Event) (net' : Net) (t : Trips) : Trips where
  aired k :=
    if k < net.air.length then t.aired k
    else match net'.air[k]? with
      | some (_, q) => net.sending ev t q
      | none => {}
  held := net.holding ev t

/-- The network and the trips of its packets. -/
def trackedStep (inf : Nat) : Net × Trips → Event → Option (Net × Trips) := Runs.watch (step inf) noteTrips

/-- The runs from `net₀`, with the trips of their packets. -/
def TrackedReach (inf : Nat) (guard : Net → Event → Prop) (net₀ : Net) : Net × Trips → Prop :=
  Runs.Reaches (trackedStep inf) (fun s ev => guard s.1 ev) (net₀, {})

variable {inf : Nat} {net : Net} {ev : Event} {t : Trips} {x : Exec} {p q : Packet}

/-- **Every run has its trips.** -/
theorem tracked_of_reaches {guard : Net → Event → Prop} {net₀ : Net} (h : Runs.Reaches (step inf) guard net₀ net) :
    ∃ t, TrackedReach inf guard net₀ (net, t) := h.watch noteTrips {}

theorem trackedStep_eq_some {s s' : Net × Trips} (h : trackedStep inf s ev = some s') : ∃ inp x, s.1.input ev = some inp ∧
    (s.1.start ev.node).handle (ev.env inf) inp = .ok x ∧ s'.1 = s.1.commit ev.now ev.node x ∧
    s'.2 = s.1.noteTrips ev (s.1.commit ev.now ev.node x) s.2 := by
  obtain ⟨hs, ht⟩ := Runs.watch_eq_some h
  obtain ⟨inp, x, hinp, hx, heq⟩ := step_eq_some hs
  exact ⟨inp, x, hinp, hx, heq, heq ▸ ht⟩

theorem mem_queued {i id : NsAddr} {ks : List Nat} (h : p ∈ net.queued i ks id) :
    ∃ k : Nat, net.air[k]? = some (i, p) ∧ p.linkDst = id := by
  obtain ⟨k, -, hk⟩ := List.mem_filterMap.1 h
  split at hk
  · rename_i src q hq
    split at hk
    · rename_i hsrc
      obtain rfl := Option.some.inj hk
      exact ⟨k, by rw [hq, hsrc.1], hsrc.2⟩
    · cases hk
  · cases hk

theorem recv_ptr (h : net.input ev = some (.recv p)) : p.ptr = net.heap := by
  obtain ⟨-, -, ⟨k, src, q, -, -, -, rfl⟩ | ⟨q, -, -, rfl⟩⟩ := input_eq_some h
  · rfl
  · rfl

/-! ## What a trip tells of a packet -/

/-- A relation `V` between a trip and the packet a node sent, and one `W` between a trip and a packet it is to forward, that
the code's own writes respect. -/
structure Tells (V W : NsAddr → Trip → Packet → Prop) : Prop where
  forward : ∀ {i t q} n, W i t q → q.Data → V i t (q.forwarded i n)
  fresh : ∀ i {q}, q.ptype = .teaomdv → V i { start := q.ttl } q
  broadcast : ∀ i t {q}, q.ptype ≠ .teaomdv → q.daddr = ipBroadcast → V i t q
  origin : ∀ i {q}, q.ttl = networkDiameter → W i { passes := 1 } q
  pass : ∀ i {src t q q'}, V src t q → q.Data → q.ttl ≠ 1 → q'.ttl = q.ttl - 1 → q'.prevHop = q.prevHop →
    W i { t with passes := t.passes + 1, hops := t.hops + 1, giver := some src } q'
  relay : ∀ i {src t q q'}, V src t q → q.ptype = .teaomdv → q.ttl ≠ 1 → q'.ptype = .teaomdv → q'.ttl = q.ttl - 1 →
    V i { t with hops := t.hops + 1, giver := some src } q'

/-- The trips tell of the packets of the air and of those buffered. -/
structure Tracked (V W : NsAddr → Trip → Packet → Prop) (s : Net × Trips) : Prop where
  index : ∀ i, (s.1.node i).index = i
  queue : ∀ i, ∀ q ∈ (s.1.node i).rqueue, q.Data ∧ q.ptr < s.1.heap ∧ W i (s.2.held q.ptr) q
  air : ∀ (k : Nat) n q, s.1.air[k]? = some (n, q) →
    V n (s.2.aired k) q ∧ (q.Data → q.ptr < s.1.heap ∧ s.2.aired k = s.2.held q.ptr)

/-- A packet that is sent or buffered while an event is handled is told of by its trip. -/
def tripTerms (V W : NsAddr → Trip → Packet → Prop) (net : Net) (ev : Event) (t : Trips) : Terms where
  index := ev.node
  heap := net.heap + 1
  waits q := q.Data ∧ q.ptr ≤ net.heap ∧ W ev.node (net.holding ev t q.ptr) q
  goes q := V ev.node (net.sending ev t q) q ∧ (q.Data → q.ptr ≤ net.heap)

section Tells

variable {V W : NsAddr → Trip → Packet → Prop}

theorem sending_old (h : q.ptr ≤ net.heap) : net.sending ev t q = net.holding ev t q.ptr := if_neg (Nat.not_lt.2 h)

theorem sending_new (h : net.heap + 1 ≤ q.ptr) : net.sending ev t q = { start := q.ttl } := if_pos h

theorem holding_old {ptr : Nat} (h : ptr < net.heap) : net.holding ev t ptr = t.held ptr := if_neg (Nat.ne_of_lt h)

variable (hl : Tells V W)

include hl

theorem tripTerms_fresh (hp : q.ptype = .teaomdv) (h : net.heap + 1 ≤ q.ptr) : (net.tripTerms V W ev t).goes q := by
  refine ⟨?_, fun hd => absurd hp hd.1⟩
  rw [sending_new h]
  exact hl.fresh _ hp

theorem tripTerms_forward {n : NsAddr} (h : (net.tripTerms V W ev t).waits q) :
    (net.tripTerms V W ev t).goes (q.forwarded ev.node n) := by
  obtain ⟨hd, hptr, hw⟩ := h
  refine ⟨?_, fun _ => hptr⟩
  have hsend : net.sending ev t (q.forwarded ev.node n) = net.holding ev t q.ptr := sending_old hptr
  rw [hsend]
  exact hl.forward n hw hd

theorem tripTerms_lawful : (net.tripTerms V W ev t).Lawful where
  flush _ _ h _ := tripTerms_forward hl h
  news _ _ hp h _ _ := tripTerms_fresh hl hp h
  request _ _ _ _ hp h := tripTerms_fresh hl hp h
  fresh _ _ _ := trivial
  notes _ _ _ _ := trivial

/-- The data packet `recv` passes on is told of by the trip of what was received. -/
theorem waits_passed (hs : Tracked V W (net, t)) (hinp : net.input ev = some (.recv p))
    (hres : (net.start ev.node).resolves p = true) (ts : ℚ) :
    (net.tripTerms V W ev t).waits { (net.start ev.node).passed p with ts := ts } := by
  have hres' : net.resolves ev = true := by
    unfold resolves
    rw [hinp]
    exact hres
  obtain ⟨ht, hd, hgo⟩ := of_decide_eq_true hres
  have hindex : (net.start ev.node).index = ev.node := hs.index ev.node
  obtain ⟨-, -, ⟨k, src, q, hwhat, hq, -, rfl⟩ | ⟨q, hwhat, ⟨-, hsaddr, hn⟩, rfl⟩⟩ := input_eq_some hinp
  · have hnum : ¬ ((q.received net.heap).saddr = (net.start ev.node).index ∧ (q.received net.heap).numForwards = 0) :=
      fun h => absurd h.2 (Nat.succ_ne_zero _)
    have hhold : net.holding ev t net.heap = { t.aired k with
        passes := (t.aired k).passes + 1, hops := (t.aired k).hops + 1, giver := some src } := by
      unfold holding arrival
      rw [if_pos rfl, hwhat, hres']
      simp only [hq, if_true]
    unfold Exec.passed
    rw [if_neg hnum]
    refine ⟨⟨ht, hd⟩, Nat.le_refl _, ?_⟩
    show W ev.node (net.holding ev t net.heap) _
    rw [hhold]
    exact hl.pass ev.node (hs.air k src q hq).1 ⟨ht, hd⟩ (hgo.resolve_left hnum).2 rfl rfl
  · have hown : q.saddr = (net.start ev.node).index ∧ q.numForwards = 0 := ⟨hsaddr.trans hindex.symm, hn⟩
    have hhold : net.holding ev t net.heap = { passes := 1 } := by
      unfold holding arrival
      rw [if_pos rfl, hwhat, hres']
      rfl
    unfold Exec.passed
    rw [if_pos hown]
    refine ⟨⟨ht, hd⟩, Nat.le_refl _, ?_⟩
    show W ev.node (net.holding ev t net.heap) _
    rw [hhold]
    exact hl.origin ev.node rfl

/-- A routing packet passed on, one hop further and with one less to live, is told of by the trip of what was received. -/
theorem goes_relayed (hs : Tracked V W (net, t)) (hinp : net.input ev = some (.recv p)) (hp : p.ptype = .teaomdv)
    (h1 : p.ttl ≠ 1) (hptr : q.ptr = p.ptr) (hq : q.ptype = p.ptype) (httl : q.ttl = p.ttl - 1) :
    (net.tripTerms V W ev t).goes q := by
  obtain ⟨-, -, ⟨k, src, r, hwhat, hr, -, rfl⟩ | ⟨r, -, ⟨hne, -⟩, rfl⟩⟩ := input_eq_some hinp
  · have hptr : q.ptr = net.heap := hptr
    refine ⟨?_, fun hd => absurd (hq.trans hp) hd.1⟩
    have hhold : net.holding ev t q.ptr = { t.aired k with hops := (t.aired k).hops + 1, giver := some src } := by
      have hres : net.resolves ev = false := by
        unfold resolves
        rw [hinp]
        exact decide_eq_false (fun h => h.1 hp)
      unfold holding arrival
      rw [if_pos hptr, hwhat, hres]
      simp only [hr]
      rfl
    rw [sending_old (Nat.le_of_eq hptr), hhold]
    exact hl.relay ev.node (hs.air k src r hr).1 hp h1 (hq.trans hp) httl
  · exact absurd hp hne

/-- **Every event but a purge of neighbours** leaves packets told of by their trips. -/
theorem tripTerms_takes (hs : Tracked V W (net, t)) {inp : Input} (hinp : net.input ev = some inp)
    (hq : ∀ ifq, inp = .timer (.neighbor ifq) → ∀ id, ∀ p ∈ ifq id, (net.tripTerms V W ev t).Salvages p) (env : Env) :
    (net.start ev.node).Takes (net.tripTerms V W ev t) env inp := by
  cases inp with
  | recv p =>
    refine ⟨fun hres => waits_passed hl hs hinp hres, fun hres n => ?_, fun hne _ q hd hq => ?_,
      fun _ _ _ => ⟨fun _ _ _ => trivial, fun _ _ => trivial⟩, fun _ _ _ _ _ => trivial,
      fun rq _ _ q rp _ _ _ _ hq hnew => tripTerms_fresh hl hq hnew, fun rq hp hb h1 rq' _ _ => ?_,
      fun rp hp hb h1 rp' n _ => ?_, fun rc _ _ => ⟨fun _ _ => trivial, fun _ _ _ _ _ _ => trivial⟩,
      fun _ _ _ _ => trivial⟩
    · exact tripTerms_forward hl (waits_passed hl hs hinp hres _)
    · exact ⟨hl.broadcast _ _ (hq ▸ hne) hd, fun h => absurd hd h.2⟩
    · exact goes_relayed hl hs hinp hp h1 rfl rfl rfl
    · exact goes_relayed hl hs hinp hp h1 rfl rfl rfl
  | tap | rtLlFailed => trivial
  | timer tm =>
    cases tm with
    | neighbor ifq => exact hq ifq rfl
    | broadcast => exact trivial
    | trust => exact fun _ _ => trivial
    | hello | probe | routeCache | localRepair => trivial

omit hl

theorem tripTerms_meets (hs : Tracked V W (net, t)) : (net.start ev.node).Meets (net.tripTerms V W ev t) where
  index := hs.index ev.node
  heap := Nat.le_refl _
  ids := trivial
  queue := by
    intro q hq
    obtain ⟨hd, hlt, hw⟩ := hs.queue ev.node q hq
    exact ⟨hd, Nat.le_of_lt hlt, by rw [holding_old hlt]; exact hw⟩
  sent := fun _ _ hq => absurd hq List.not_mem_nil
  nbs := fun _ _ => trivial

/-- **What the handler leaves is told of again.** -/
theorem Tracked.commit (hs : Tracked V W (net, t)) (hx : x.Meets (net.tripTerms V W ev t)) (now : ℚ) :
    Tracked V W (net.commit now ev.node x, net.noteTrips ev (net.commit now ev.node x) t) := by
  have hheap : net.heap < x.heap := hx.heap
  refine ⟨fun i => ?_, fun i q hq => ?_, fun k n q hk => ?_⟩
  · show (if i = ev.node then x.toAgent else net.node i).index = i
    split
    · rename_i hi
      rw [hi]
      exact hx.index
    · exact hs.index i
  · have hq : q ∈ (if i = ev.node then x.toAgent else net.node i).rqueue := hq
    split at hq
    · rename_i hi
      obtain ⟨hd, hle, hw⟩ := hx.queue q hq
      rw [hi]
      exact ⟨hd, Nat.lt_of_le_of_lt hle hheap, hw⟩
    · obtain ⟨hd, hlt, hw⟩ := hs.queue i q hq
      refine ⟨hd, hlt.trans hheap, ?_⟩
      show W i (net.holding ev t q.ptr) q
      rwa [holding_old hlt]
  · show V n (if k < net.air.length then t.aired k else _) q ∧
      (q.Data → q.ptr < x.heap ∧ (if k < net.air.length then t.aired k else _) = net.holding ev t q.ptr)
    have hk' : (net.air ++ x.sent.map (fun p => (ev.node, p)))[k]? = some (n, q) := hk
    by_cases hlt : k < net.air.length
    · rw [List.getElem?_append_left hlt] at hk'
      rw [if_pos hlt]
      obtain ⟨hv, hd⟩ := hs.air k n q hk'
      refine ⟨hv, fun h => ?_⟩
      obtain ⟨hptr, heq⟩ := hd h
      exact ⟨hptr.trans hheap, by rw [holding_old hptr]; exact heq⟩
    · rw [if_neg hlt, hk]
      rw [List.getElem?_append_right (Nat.not_lt.1 hlt)] at hk'
      obtain ⟨p, hp, heq⟩ := List.mem_map.1 (List.mem_of_getElem? hk')
      obtain ⟨rfl, rfl⟩ := Prod.mk.inj heq
      obtain ⟨d, hsch⟩ := Exec.mem_log_of_sent hp
      obtain ⟨hv, hd⟩ := hx.sent _ _ hsch
      exact ⟨hv, fun h => ⟨Nat.lt_of_le_of_lt (hd h) hheap, sending_old (hd h)⟩⟩

end Tells

end Net

end TeAomdv

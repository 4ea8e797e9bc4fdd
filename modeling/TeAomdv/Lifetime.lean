import TeAomdv.Track
/-!
# Lifetime — how long a packet lives

The TTL of a data packet and the number of times it was passed on add up to one more than `NETWORK_DIAMETER` all its life,
whatever the tables say: the source sets the one as it counts the first of the other, and every later node takes one off
before it passes the packet on.  The TTL of a routing packet and the hops it came add up to what it set out with
(`lifetime_of_reaches`).
-/
namespace TeAomdv

open Fallible (Ends)

namespace Net

/-- Every node is itself, and no packet is under way.  The tables hold anything. -/
structure Idle (net : Net) : Prop where
  index : ∀ i, (net.node i).index = i
  queue : ∀ i, (net.node i).rqueue = []
  air : net.air = []

/-- A data packet to be forwarded has been passed on as often as its TTL is short of one more than the diameter. -/
def Aging (_ : NsAddr) (t : Trip) (q : Packet) : Prop := t.passes + q.ttl = networkDiameter + 1 ∧ 0 < q.ttl

/-- So has a data packet sent; a routing packet has come as many hops as its TTL is short of what it set out with. -/
def Aged (i : NsAddr) (t : Trip) (q : Packet) : Prop :=
  (q.Data → Aging i t q) ∧ (q.ptype = .teaomdv → 0 < t.start → t.hops + q.ttl = t.start ∧ 0 < q.ttl)

theorem aged_tells : Tells Aged Aging where
  forward n h hd := ⟨fun _ => h, fun ht => absurd ht hd.1⟩
  fresh i q hp := ⟨fun hd => absurd hp hd.1, fun _ h => ⟨by simp, h⟩⟩
  broadcast i t q hp hd := ⟨fun h => absurd hd h.2, fun h => absurd h hp⟩
  origin i q h := by
    unfold Aging
    rw [h]
    decide
  pass i src t q q' h hd h1 httl _ := by
    obtain ⟨hsum, hpos⟩ := h.1 hd
    unfold Aging
    rw [httl]
    push_cast
    omega
  relay i src t q q' h hp h1 hp' httl := by
    refine ⟨fun hd => absurd hp' hd.1, fun _ hstart => ?_⟩
    obtain ⟨hsum, hpos⟩ := h.2 hp hstart
    rw [httl]
    push_cast
    omega

variable {net : Net} {ev : Event} {t : Trips} {inf : Nat}

/-- A packet salvaged keeps its TTL. -/
theorem aged_salvages (hs : Tracked Aged Aging (net, t)) {ks : List Nat} {id : NsAddr} {p : Packet}
    (hp : p ∈ net.queued ev.node ks id) : (net.tripTerms Aged Aging ev t).Salvages p := by
  intro hdata _ n
  obtain ⟨k, hk, -⟩ := mem_queued hp
  obtain ⟨hv, hptr⟩ := hs.air k _ p hk
  have hne : p.ptype ≠ .teaomdv := by
    intro ht
    rw [ht] at hdata
    cases hdata
  refine ⟨⟨fun hd => ?_, fun ht => absurd ht hne⟩, fun hd => Nat.le_of_lt (hptr hd).1⟩
  obtain ⟨hlt, heq⟩ := hptr hd
  have hage : Aging ev.node (net.holding ev t p.ptr) p := by
    rw [holding_old hlt, ← heq]
    exact hv.1 hd
  have hsend : net.sending ev t ({ p with salvageCount := p.salvageCount + 1 }.forwarded ev.node n) =
      net.holding ev t p.ptr := sending_old (Nat.le_of_lt hlt)
  show Aging ev.node (net.sending ev t ({ p with salvageCount := p.salvageCount + 1 }.forwarded ev.node n)) _
  rw [hsend]
  exact hage

/-- The trips tell of the packets, and no packet was passed on more often than the diameter. -/
structure Lasting (s : Net × Trips) : Prop where
  tracked : Tracked Aged Aging s
  aired : ∀ k, ((s.2.aired k).passes : Int) ≤ networkDiameter
  held : ∀ ptr, ((s.2.held ptr).passes : Int) ≤ networkDiameter

theorem Idle.lasting (h : net.Idle) : Lasting (net, {}) where
  tracked := by
    refine ⟨h.index, fun i q hq => ?_, fun k n q hk => ?_⟩
    · rw [h.queue i] at hq
      exact absurd hq List.not_mem_nil
    · rw [h.air] at hk
      cases hk
  aired _ := show (0 : Int) ≤ networkDiameter by decide
  held _ := show (0 : Int) ≤ networkDiameter by decide

theorem Lasting.arrival (hs : Lasting (net, t)) : ((net.arrival ev t).passes : Int) ≤ networkDiameter := by
  unfold Net.arrival
  split
  · split
    · exact hs.aired _
    · decide
  · decide

theorem Lasting.holding (hs : Lasting (net, t)) (ptr : Nat) : ((net.holding ev t ptr).passes : Int) ≤ networkDiameter := by
  by_cases hptr : ptr = net.heap
  · subst hptr
    by_cases hres : net.resolves ev
    · have hres' := hres
      unfold resolves at hres'
      split at hres'
      · rename_i p hinp
        obtain ⟨-, -, hage⟩ := waits_passed aged_tells hs.tracked hinp hres' 0
        have hheap : ((net.start ev.node).passed p).ptr = net.heap := (Exec.ptr_passed _ _).trans (recv_ptr hinp)
        obtain ⟨hsum, hpos⟩ : Aging ev.node (net.holding ev t net.heap) _ := hheap ▸ hage
        omega
      · cases hres'
    · unfold Net.holding
      rw [if_pos rfl, if_neg hres]
      exact hs.arrival
  · unfold Net.holding
    rw [if_neg hptr]
    exact hs.held ptr

theorem Lasting.step {s s' : Net × Trips} (hs : Lasting s) (h : trackedStep inf s ev = some s') : Lasting s' := by
  obtain ⟨inp, x, hinp, hx, hnet, htrips⟩ := trackedStep_eq_some h
  obtain ⟨net, t⟩ := s
  obtain ⟨net', t'⟩ := s'
  obtain rfl : net' = net.commit ev.now ev.node x := hnet
  obtain rfl : t' = net.noteTrips ev (net.commit ev.now ev.node x) t := htrips
  have htakes := tripTerms_takes aged_tells hs.tracked hinp (fun ifq hi id p hp => by
    subst hi
    obtain ⟨-, -, ks, -, rfl⟩ := input_eq_some hinp
    exact aged_salvages hs.tracked hp) (ev.env inf)
  have hmeets := Exec.handle_meets (tripTerms_lawful aged_tells) htakes (tripTerms_meets hs.tracked) x hx
  refine ⟨hs.tracked.commit hmeets ev.now, fun k => ?_, hs.holding⟩
  show (((if k < net.air.length then t.aired k else _ : Trip)).passes : Int) ≤ networkDiameter
  split
  · exact hs.aired k
  split
  · rename_i q _
    unfold sending
    split
    · exact show (0 : Int) ≤ networkDiameter by decide
    · exact hs.holding _
  · exact show (0 : Int) ≤ networkDiameter by decide

/-- What the trips say of the packets of a run, when none lives for ever: a data packet was passed on at most
`NETWORK_DIAMETER` times, a routing packet was sent on fewer times than the TTL it set out with, and neither was sent
without any TTL left. -/
def Bounded (s : Net × Trips) : Prop :=
  (∀ ptr, ((s.2.held ptr).passes : Int) ≤ networkDiameter) ∧
    ∀ (k : Nat) n q, s.1.air[k]? = some (n, q) → (q.Data → 0 < q.ttl) ∧
      (q.ptype = .teaomdv → 1 ≤ (s.2.aired k).start → 0 < q.ttl ∧ (s.2.aired k).hops ≤ (s.2.aired k).start - 1)

/-- **No packet lives for ever**, whatever the tables say. -/
theorem lifetime_of_reaches {net₀ : Net} (h₀ : net₀.Idle) (h : Runs.Reaches (step inf) anyEvent net₀ net) :
    (∃ t, TrackedReach inf anyEvent net₀ (net, t)) ∧ ∀ t, TrackedReach inf anyEvent net₀ (net, t) → Bounded (net, t) := by
  refine ⟨tracked_of_reaches h, fun t ht => ?_⟩
  have hs : Lasting (net, t) := Runs.Reaches.invariant h₀.lasting (fun _ _ _ _ hs _ hstep => hs.step hstep) ht
  refine ⟨hs.held, fun k n q hk => ?_⟩
  obtain ⟨hdata, hrouting⟩ := (hs.tracked.air k n q hk).1
  refine ⟨fun hd => (hdata hd).2, fun hp hstart => ?_⟩
  obtain ⟨hsum, hpos⟩ := hrouting hp hstart
  exact ⟨hpos, by omega⟩

/-- Node 1 asks node 2 for a route to node 3 and sends a packet along it. -/
def threeNodes : List Event :=
  [(What.cbr 1 3 0).on 1 1, (What.deliver 0).on 2 2, (What.deliver 1).on 3 3, (What.deliver 2).on 4 2,
    (What.deliver 3).on 5 1, (What.deliver 4).on 6 2]

theorem lifetime_threeNodes : ∃ net, replay 65535 threeNodes = some net ∧ net.air.length = 6 ∧
    (∃ t, TrackedReach 65535 anyEvent init (net, t)) ∧ ∀ t, TrackedReach 65535 anyEvent init (net, t) → Bounded (net, t) := by
  obtain ⟨net, hnet, hr, hlen⟩ := reach_of_obeys 65535 (fun _ _ => true) (fun net => net.air.length == 6)
    (fun _ _ _ => trivial) threeNodes (by decide +kernel)
  exact ⟨net, hnet, eq_of_beq hlen, lifetime_of_reaches ⟨fun _ => rfl, fun _ => rfl, rfl⟩ hr⟩

end Net

end TeAomdv

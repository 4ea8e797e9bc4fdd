import TeAomdv.Journey
/-!
# Arrival — a discovery that nothing disturbs sets up a route

A row of nodes trust each other and know neither end of the row.  A packet of the first for the last starts a search; if the
request is carried to the other end hop by hop, and the answer back, then the packet follows it, whatever the nodes did before.
-/
namespace TeAomdv

open Fallible (ok_bind)

/-- **A node is where it was made.** -/
theorem Agent.here_of_reach {id : NsAddr} {a : Agent} (h : Reach id a) : a.hereAddr = id := by
  refine Runs.Reaches.invariant (P := fun a => a.hereAddr = id) rfl (fun a c a' hr ih _ hs => ?_) h
  obtain ⟨y, hy, rfl⟩ := call_eq_some hs
  have hdata : (a.exec c.heap).DataQueue := (tidy_of_reach hr).data
  refine (Exec.handle_strokes c.inp hdata y hy).invariant (P := fun z => z.hereAddr = id) (fun z w hz hstroke => ?_) ih
  cases hstroke with
  | request _ hw => exact (congrArg Prod.fst (Exec.sendRequest_self hw)).trans hz
  | @hold p => exact (congrArg Prod.fst (Exec.self_enque _ z p)).trans hz
  | @take d => exact (congrArg Prod.fst (Exec.self_deque _ z d)).trans hz
  | mark | raise | add | meet | hear | note | judge | part | own | cache | answered | expire | send | act => exact hz

theorem Agent.numbered_of_reach {id : NsAddr} {a : Agent} (h : Reach id a) : a.seqno % 2 = 0 := by
  obtain ⟨ws, hws⟩ := walked_of_reach h 0
  exact (numbered_of_walked hws).1.even

/-- Time starts at zero. -/
theorem Net.now_of_reach {inf : Nat} {guard : Net → Event → Prop} {net : Net} (h : Reach inf guard net) : 0 ≤ net.now := by
  refine Runs.Reaches.invariant (P := fun net => 0 ≤ net.now) (le_refl (0 : ℚ)) (fun net ev net' _ ih _ hstep => ?_) h
  obtain ⟨inp, x, hinp, -, rfl⟩ := step_eq_some hstep
  exact ih.trans (input_eq_some hinp).1

/-- Nodes in a row, no further apart than a packet can go. -/
structure Row where
  len : Nat
  node : Nat → NsAddr
  pos : 0 < len
  short : (len : Int) ≤ networkDiameter
  distinct : ∀ i j, i ≤ len → j ≤ len → node i = node j → i = j
  real : ∀ i, i ≤ len → node i ≠ ipBroadcast

namespace Row

variable (l : Row)

/-- The search that the next request of the first node for the last is part of. -/
def search (net : Net) : Search :=
  ⟨l.node 0, l.node l.len, (net.node (l.node 0)).bid, u32 ((net.node (l.node 0)).seqno + 2)⟩

/-- No node of the row has an entry for either end, and neighbours have nothing against each other. -/
structure Fresh (net : Net) : Prop where
  source : ∀ i, 0 < i → i ≤ l.len → net.entry (l.node i) (l.node 0) = none
  target : ∀ i, i < l.len → net.entry (l.node i) (l.node l.len) = none
  ahead : ∀ i, i < l.len → (net.node (l.node i)).Trusts (l.node (i + 1))
  behind : ∀ i, i < l.len → (net.node (l.node (i + 1))).Trusts (l.node i)

/-- Where event `n` takes place: along the row, back, and along it again. -/
def visit (n : Nat) : NsAddr := l.node (if n ≤ l.len then n else if n ≤ 2 * l.len then 2 * l.len - n else n - 2 * l.len)

/-- Packet `p` is sent off, and every packet that is handed over is delivered to the next node; the answer is back before `p`
has waited too long.  No event reads, from an `rt_hops` never assigned, the 255 that `rt_resolve` asserts it is not. -/
structure Timetable (net : Net) (p : Packet) (ev : Nat → Event) : Prop where
  node : ∀ n, n < 3 * l.len → (ev n).node = l.visit n
  first : (ev 0).what = .originate p
  next : ∀ n, n + 1 < 3 * l.len → (ev (n + 1)).what = .deliver (net.air.length + n)
  start : net.now ≤ (ev 0).now
  mono : ∀ n, (ev n).now ≤ (ev (n + 1)).now
  prompt : (ev (2 * l.len)).now ≤ (ev 0).now + teaomdvRtqTimeout
  hops : ∀ n, n < 3 * l.len → (ev n).unsetHops ≠ infinity2

variable {l : Row} {inf : Nat} {net₀ net : Net} {p q : Packet} {ev : Nat → Event} {n i j : Nat} {y : Exec}

theorem visit_out (h : n ≤ l.len) : l.visit n = l.node n := congrArg l.node (if_pos h)

theorem visit_back (h : j < l.len) : l.visit (l.len + j + 1) = l.node (l.len - 1 - j) := by
  unfold visit
  rw [if_neg (by omega), if_pos (by omega)]
  congr 1
  omega

theorem visit_again (j : Nat) : l.visit (2 * l.len + j + 1) = l.node (j + 1) := by
  unfold visit
  rw [if_neg (by omega), if_neg (by omega)]
  congr 1
  omega

/-! ## What the nodes know before -/

theorem waits (h : Net.Reach inf Net.anyEvent net) (m : NsAddr) {d : NsAddr} (he : net.entry m d = none) : ∀ q ∈ (net.node m).rqueue, q.daddr ≠ d := by
  rintro q hq rfl
  obtain ⟨e, he', -⟩ := Agent.waits_of_reach (Net.agent_of_reach h m) 0 q hq
  have he' : net.entry m q.daddr = some e := he'
  rw [he] at he'
  cases he'

theorem unaware (h : Net.Reach inf Net.anyEvent net) (hf : l.Fresh net) (hun : Net.Unspent net.air (l.node 0)) (h0 : 0 < i)
    (hi : i ≤ l.len) : (net.node (l.node i)).Unaware (l.search net) where
  entry := hf.source i h0 hi
  id := by
    refine List.find?_eq_none.2 (fun b hb heq => ?_)
    obtain ⟨hsrc, hid⟩ := of_decide_eq_true heq
    have hsrc : b.src = l.node 0 := hsrc
    have hlt := Net.issued_of_reach h (l.node i) b hb (hsrc ▸ hun)
    rw [hsrc, hid] at hlt
    exact lt_irrefl _ hlt
  queue := waits h _ (hf.source i h0 hi)

theorem lost (h : Net.Reach inf Net.anyEvent net) (hf : l.Fresh net) (hi : i < l.len) : (net.node (l.node i)).Lost (l.search net) :=
  ⟨hf.target i hi, waits h _ (hf.target i hi)⟩

/-! ## One event -/

/-- Before event `n` of the timetable. -/
structure Going (inf : Nat) (net₀ : Net) (ev : Nat → Event) (n : Nat) (net : Net) : Prop where
  reach : Net.Reach inf Net.anyEvent net
  length : net.air.length = net₀.air.length + n
  clock : net.now ≤ (ev n).now
  trust : ∀ m m', ((net.node m).exec 0).trustOf m' = ((net₀.node m).exec 0).trustOf m'

theorem Going.trusts (h : Going inf net₀ ev n net) {m m' : NsAddr} (ht : (net₀.node m).Trusts m') : (net.node m).Trusts m' :=
  ht.trans_eq (h.trust m m').symm

theorem Going.start (h : Going inf net₀ ev n net) (m : NsAddr) : (net.start m).index = m ∧ (net.start m).hereAddr = m ∧
    (net.start m).seqno % 2 = 0 :=
  ⟨Agent.index_of_reach (Net.agent_of_reach h.reach m), Agent.here_of_reach (Net.agent_of_reach h.reach m),
    Agent.numbered_of_reach (Net.agent_of_reach h.reach m)⟩

/-- An event at which a node takes up a packet and hands one over. -/
theorem Going.step (h : Going inf net₀ ev n net) (hmono : (ev n).now ≤ (ev (n + 1)).now) {m : NsAddr} (hm : (ev n).node = m)
    (hin : net.input (ev n) = some (.recv q)) {q' : Packet} (hy : (net.start m).recv ((ev n).env inf) q = .ok y)
    (hsent : y.sent = (net.start m).sent ++ [q']) (htrust : ∀ m', y.trustOf m' = (net.start m).trustOf m') : ∃ net',
      Net.step inf net (ev n) = some net' ∧ Going inf net₀ ev (n + 1) net' ∧ net'.node m = y.toAgent ∧
      (∀ m', m' ≠ m → net'.node m' = net.node m') ∧ net'.air[net₀.air.length + n]? = some (m, q') := by
  subst hm
  have hexec : net.exec inf (ev n) = some (.ok y) := by
    unfold Net.exec
    rw [hin]
    exact congrArg some hy
  have hstep : Net.step inf net (ev n) = some (net.commit (ev n).now (ev n).node y) := by
    unfold Net.step
    rw [hexec]
  have hair : (net.commit (ev n).now (ev n).node y).air = net.air ++ [((ev n).node, q')] := by
    show net.air ++ y.sent.map _ = _
    rw [hsent]
    rfl
  refine ⟨_, hstep, ⟨h.reach.step trivial hstep, ?_, hmono, fun m m' => ?_⟩, if_pos rfl, fun m hm => if_neg hm, ?_⟩
  · rw [hair, List.length_append, h.length]
    rfl
  · show Exec.trustOf ((if m = (ev n).node then y.toAgent else net.node m).exec 0) m' = _
    split
    · rename_i heq
      rw [heq]
      exact (htrust m').trans (h.trust _ m')
    · exact h.trust m m'
  · rw [hair, ← h.length, List.getElem?_concat_length]

theorem Going.delivers (h : Going inf net₀ ev (n + 1) net) (ht : l.Timetable net₀ p ev) (hn : n + 1 < 3 * l.len) {m : NsAddr}
    (hm : (ev (n + 1)).node = m) (hreal : m ≠ ipBroadcast) {src : NsAddr} (hq : net.air[net₀.air.length + n]? = some (src, q))
    (hto : q.linkDst = ipBroadcast ∨ q.linkDst = m) {q' : Packet}
    (hy : (net.start m).recv ((ev (n + 1)).env inf) (q.received net.heap) = .ok y) (hsent : y.sent = (net.start m).sent ++ [q'])
    (htrust : ∀ m', y.trustOf m' = (net.start m).trustOf m') : ∃ net',
      Net.step inf net (ev (n + 1)) = some net' ∧ Going inf net₀ ev (n + 2) net' ∧ net'.node m = y.toAgent ∧
      (∀ m', m' ≠ m → net'.node m' = net.node m') ∧ net'.air[net₀.air.length + (n + 1)]? = some (m, q') := by
  refine h.step (ht.mono (n + 1)) hm ?_ hy hsent htrust
  subst hm
  unfold Net.input
  rw [if_neg (fun hor => hor.elim (not_lt.2 h.clock) hreal), ht.next n hn]
  simp only [hq, hto, if_true]

/-! ## The three ways -/

/-- The request has come to node `j`, which handed it on. -/
structure Asked (l : Row) (inf : Nat) (net₀ : Net) (p : Packet) (ev : Nat → Event) (j : Nat) (net : Net) : Prop
    extends Going inf net₀ ev (j + 1) net where
  message : ∃ q, net.air[net₀.air.length + j]? = some (l.node j, q) ∧ (l.search net₀).Asks j (l.node j) q
  source : (net.node (l.node 0)).Awaits (l.search net₀) p ((ev 0).now + teaomdvRtqTimeout)
  passed : ∀ i, 0 < i → i ≤ j → (net.node (l.node i)).Heard (l.search net₀) (l.node (i - 1)) ∧
    (net.node (l.node i)).Lost (l.search net₀)
  ahead : ∀ i, j < i → i ≤ l.len → net.node (l.node i) = net₀.node (l.node i)

/-- The reply has come back `j` hops. -/
structure Answered (l : Row) (inf : Nat) (net₀ : Net) (p : Packet) (ev : Nat → Event) (j : Nat) (net : Net) : Prop
    extends Going inf net₀ ev (l.len + j + 1) net where
  message : ∃ q, net.air[net₀.air.length + (l.len + j)]? = some (l.node (l.len - j), q) ∧
    (l.search net₀).Answers j (l.node (l.len - j)) (l.node (l.len - 1 - j)) q
  source : (net.node (l.node 0)).Awaits (l.search net₀) p ((ev 0).now + teaomdvRtqTimeout)
  ahead : ∀ i, 0 < i → i + j < l.len → (net.node (l.node i)).Heard (l.search net₀) (l.node (i - 1)) ∧
    (net.node (l.node i)).Lost (l.search net₀)
  passed : ∀ i, l.len ≤ i + j → i < l.len → (net.node (l.node i)).Leads (l.search net₀) (l.node (i + 1))

/-- The packet has come to node `j`, which handed it on. -/
structure Carried (l : Row) (inf : Nat) (net₀ : Net) (p : Packet) (ev : Nat → Event) (j : Nat) (net : Net) : Prop
    extends Going inf net₀ ev (2 * l.len + j + 1) net where
  message : ∃ q, net.air[net₀.air.length + (2 * l.len + j)]? = some (l.node j, q) ∧
    (l.search net₀).Carries p j (l.node j) (l.node (j + 1)) q
  leads : ∀ i, i < l.len → (net.node (l.node i)).Leads (l.search net₀) (l.node (i + 1))

/-- What the timetable takes for granted of the nodes and the packet: the sequence number of the first node does not wrap, and
its broadcast ids are not used up. -/
structure Ready (l : Row) (inf : Nat) (net₀ : Net) (p : Packet) : Prop extends l.Fresh net₀ where
  reach : Net.Reach inf Net.anyEvent net₀
  seqno : (net₀.node (l.node 0)).seqno + 2 < 2 ^ 32
  unspent : Net.Unspent net₀.air (l.node 0)
  ptype : p.ptype ≠ .teaomdv
  saddr : p.saddr = l.node 0
  daddr : p.daddr = l.node l.len
  own : p.numForwards = 0

theorem node_ne (hij : i ≠ j) (hi : i ≤ l.len) (hj : j ≤ l.len) : l.node i ≠ l.node j := fun h => hij (l.distinct i j hi hj h)

/-- The first node asks. -/
theorem Ready.asks (h : l.Ready inf net₀ p) (ht : l.Timetable net₀ p ev) : ∃ net',
    Net.step inf net₀ (ev 0) = some net' ∧ l.Asked inf net₀ p ev 0 net' := by
  have hpos := l.pos
  have hgo : Going inf net₀ ev 0 net₀ := ⟨h.reach, rfl, ht.start, fun _ _ => rfl⟩
  obtain ⟨hindex, hhere, heven⟩ := hgo.start (l.node 0)
  have hm : (ev 0).node = l.node 0 := (ht.node 0 (by omega)).trans (visit_out (Nat.zero_le _))
  obtain ⟨y, q, hy, hsent, hq, hsource, htrust⟩ := Exec.recv_originates (x := net₀.start (l.node 0)) (s := l.search net₀)
    ((ev 0).env inf) h.ptype (h.saddr.trans hindex.symm) h.own h.daddr (l.real _ (le_refl _)) (lost h.reach h.toFresh hpos)
    ⟨hindex.symm, rfl, rfl⟩ heven (ht.hops 0 (by omega)) ((Net.now_of_reach h.reach).trans ht.start) net₀.heap
  have hin : net₀.input (ev 0) = some (.recv { p with ptr := net₀.heap }) := by
    unfold Net.input
    rw [if_neg (fun hor => hor.elim (not_lt.2 ht.start) (hm ▸ l.real 0 (Nat.zero_le _))), ht.first]
    exact if_pos ⟨h.ptype, h.saddr.trans hm.symm, h.own⟩
  obtain ⟨net', hstep, hgo', hself, hothers, hair⟩ := hgo.step (ht.mono 0) hm hin hy hsent htrust
  refine ⟨net', hstep, hgo', ⟨q, hair, hindex ▸ hq⟩, hself ▸ hsource, fun i h1 h2 => by omega, fun i h1 h2 => ?_⟩
  exact hothers _ (node_ne (by omega) h2 (Nat.zero_le _))

theorem Ready.seqno_pos (h : l.Ready inf net₀ p) : 0 < (l.search net₀).seqno := by
  have := h.seqno
  show 0 < u32 ((net₀.node (l.node 0)).seqno + 2)
  rw [u32_of_lt (by omega)]
  omega

theorem far (hj : j + 1 < l.len) : j + 1 < 30 := by
  have := l.short
  unfold networkDiameter at this
  omega

/-- A node on the way passes the request on. -/
theorem Asked.relays (h : l.Asked inf net₀ p ev j net) (hr : l.Ready inf net₀ p) (ht : l.Timetable net₀ p ev)
    (hj : j + 1 < l.len) : ∃ net', Net.step inf net (ev (j + 1)) = some net' ∧ l.Asked inf net₀ p ev (j + 1) net' := by
  obtain ⟨q, hq, hasks⟩ := h.message
  obtain ⟨hindex, hhere, -⟩ := h.start (l.node (j + 1))
  have hm : (ev (j + 1)).node = l.node (j + 1) := (ht.node _ (by omega)).trans (visit_out (by omega))
  have hsame := h.ahead (j + 1) (by omega) (by omega)
  have hu : (net.node (l.node (j + 1))).Unaware (l.search net₀) := hsame.symm ▸ unaware hr.reach hr.toFresh hr.unspent (by omega) (by omega)
  have hl : (net.node (l.node (j + 1))).Lost (l.search net₀) := hsame.symm ▸ lost hr.reach hr.toFresh hj
  obtain ⟨y, q', hy, hsent, hq', hheard, hlost, htrust⟩ := Exec.recv_relays (x := net.start (l.node (j + 1))) ((ev (j + 1)).env inf)
    hasks hu hl (hindex.symm ▸ node_ne (by omega) (by omega) (by omega)) (hindex.symm ▸ node_ne (by omega) (by omega) (by omega))
    (node_ne (by have := l.pos; omega) (le_refl _) (Nat.zero_le _)) (hhere.symm ▸ l.real _ (by omega))
    (h.trusts (hr.behind j (by omega))) hr.seqno_pos (far hj) net.heap
  obtain ⟨net', hstep, hgo, hself, hothers, hair⟩ := h.delivers ht (by omega) hm (l.real _ (by omega)) hq
    (.inl (by unfold Packet.linkDst; rw [hasks.addrType]; exact hasks.daddr)) hy hsent htrust
  refine ⟨net', hstep, hgo, ⟨q', hair, hindex ▸ hq'⟩, ?_, fun i h1 h2 => ?_, fun i h1 h2 => ?_⟩
  · rw [hothers _ (node_ne (by omega) (by omega) (by omega))]
    exact h.source
  · rcases Nat.lt_or_eq_of_le h2 with h2 | rfl
    · rw [hothers _ (node_ne (by omega) (by omega) (by omega))]
      exact h.passed i h1 (by omega)
    · rw [hself]
      exact ⟨hheard, hlost⟩
  · rw [hothers _ (node_ne (by omega) h2 (by omega))]
    exact h.ahead i (by omega) h2

/-- The last node answers. -/
theorem Asked.answers (h : l.Asked inf net₀ p ev j net) (hr : l.Ready inf net₀ p) (ht : l.Timetable net₀ p ev)
    (hj : j + 1 = l.len) : ∃ net', Net.step inf net (ev (j + 1)) = some net' ∧ l.Answered inf net₀ p ev 0 net' := by
  obtain ⟨q, hq, hasks⟩ := h.message
  obtain ⟨hindex, -, heven⟩ := h.start (l.node (j + 1))
  have hm : (ev (j + 1)).node = l.node (j + 1) := (ht.node _ (by omega)).trans (visit_out (by omega))
  have hsame := h.ahead (j + 1) (by omega) (by omega)
  have hu : (net.node (l.node (j + 1))).Unaware (l.search net₀) := hsame.symm ▸ unaware hr.reach hr.toFresh hr.unspent (by omega) (by omega)
  obtain ⟨y, q', hy, hsent, hq', htrust⟩ := Exec.recv_answers (x := net.start (l.node (j + 1))) ((ev (j + 1)).env inf)
    hasks hu (hindex.trans (congrArg l.node hj))
    (node_ne (by omega) (le_refl _) (Nat.zero_le _)) (h.trusts (hr.behind j (by omega))) hr.seqno_pos heven net.heap
  obtain ⟨net', hstep, hgo, hself, hothers, hair⟩ := h.delivers ht (by omega) hm (l.real _ (by omega)) hq
    (.inl (by unfold Packet.linkDst; rw [hasks.addrType]; exact hasks.daddr)) hy hsent htrust
  rw [hindex] at hq'
  rw [hj] at hair hq'
  have hlast : l.len - 1 - 0 = j := by omega
  refine ⟨net', hstep, hj ▸ hgo, ⟨q', hair, hlast.symm ▸ hq'⟩, ?_, fun i h1 h2 => ?_, fun i h1 h2 => by omega⟩
  · rw [hothers _ (node_ne (by omega) (by omega) (by omega))]
    exact h.source
  · rw [hothers _ (node_ne (by omega) (by omega) (by omega))]
    exact h.passed i h1 (by omega)

/-- A node on the way passes the reply on. -/
theorem Answered.returns (h : l.Answered inf net₀ p ev j net) (hr : l.Ready inf net₀ p) (ht : l.Timetable net₀ p ev)
    (hj : j + 1 < l.len) : ∃ net', Net.step inf net (ev (l.len + j + 1)) = some net' ∧ l.Answered inf net₀ p ev (j + 1) net' := by
  obtain ⟨k, hk⟩ : ∃ k, l.len = k + 1 + j := ⟨l.len - 1 - j, by omega⟩
  obtain ⟨q, hq, hans⟩ := h.message
  rw [show l.len - j = k + 1 by omega] at hq hans
  rw [show l.len - 1 - j = k by omega] at hans
  obtain ⟨hindex, hhere, -⟩ := h.start (l.node k)
  have hm : (ev (l.len + j + 1)).node = l.node k := by
    rw [ht.node _ (by omega), visit_back (by omega), show l.len - 1 - j = k by omega]
  obtain ⟨hheard, hlost⟩ := h.ahead k (by omega) (by omega)
  obtain ⟨y, q', hy, hsent, hq', hleads, htrust⟩ := Exec.recv_returns (x := net.start (l.node k)) ((ev (l.len + j + 1)).env inf)
    (hindex.symm ▸ hans) hheard hlost (hindex.symm ▸ node_ne (by omega) (by omega) (by omega))
    (hindex.symm ▸ node_ne (by omega) (by omega) (by omega)) (node_ne (by omega) (le_refl _) (Nat.zero_le _))
    (hhere.symm ▸ node_ne (by omega) (by omega) (by omega)) (l.real 0 (by omega)) (h.trusts (hr.ahead k (by omega)))
    (ht.hops _ (by omega)) (far hj) net.heap
  obtain ⟨net', hstep, hgo, hself, hothers, hair⟩ := h.delivers ht (by omega) hm (l.real _ (by omega)) hq
    (.inr (by unfold Packet.linkDst; rw [hans.addrType]; exact hans.nextHop)) hy hsent htrust
  have hlast : l.len - (j + 1) = k ∧ l.len - 1 - (j + 1) = k - 1 := by omega
  refine ⟨net', hstep, hgo, ⟨q', ?_, ?_⟩, ?_, fun i h1 h2 => ?_, fun i h1 h2 => ?_⟩
  · rw [hlast.1]
    exact hair
  · rw [hlast.1, hlast.2]
    exact hindex ▸ hq'
  · rw [hothers _ (node_ne (by omega) (by omega) (by omega))]
    exact h.source
  · rw [hothers _ (node_ne (by omega) (by omega) (by omega))]
    exact h.ahead i h1 (by omega)
  · by_cases hi : i = k
    · rw [hi, hself]
      exact hleads
    · rw [hothers _ (node_ne hi (by omega) (by omega))]
      exact h.passed i (by omega) h2

/-- At the first node the reply sends the packet off. -/
theorem Answered.releases (h : l.Answered inf net₀ p ev j net) (hr : l.Ready inf net₀ p) (ht : l.Timetable net₀ p ev)
    (hj : j + 1 = l.len) : ∃ net', Net.step inf net (ev (l.len + j + 1)) = some net' ∧ l.Carried inf net₀ p ev 0 net' := by
  obtain ⟨q, hq, hans⟩ := h.message
  rw [show l.len - j = 1 by omega] at hq hans
  rw [show l.len - 1 - j = 0 by omega] at hans
  obtain ⟨hindex, hhere, -⟩ := h.start (l.node 0)
  have hm : (ev (l.len + j + 1)).node = l.node 0 := by
    rw [ht.node _ (by omega), visit_back (by omega), show l.len - 1 - j = 0 by omega]
  have hlate : l.len + j + 1 = 2 * l.len := by omega
  obtain ⟨y, q', hy, hsent, hq', hleads, htrust⟩ := Exec.recv_releases (x := net.start (l.node 0)) ((ev (l.len + j + 1)).env inf)
    (hindex.symm ▸ hans) h.source hindex.symm (hindex.symm ▸ node_ne (by omega) (by omega) (by omega))
    (hhere.symm ▸ node_ne (by omega) (by omega) (by omega)) (l.real _ (le_refl _)) (h.trusts (hr.ahead 0 (by omega)))
    (hlate.symm ▸ ht.prompt) net.heap
  obtain ⟨net', hstep, hgo, hself, hothers, hair⟩ := h.delivers ht (by omega) hm (l.real _ (by omega)) hq
    (.inr (by unfold Packet.linkDst; rw [hans.addrType]; exact hans.nextHop)) hy hsent htrust
  refine ⟨net', hstep, ?_, ⟨q', ?_, hindex ▸ hq'⟩, fun i hi => ?_⟩
  · exact (show l.len + j + 2 = 2 * l.len + 0 + 1 by omega) ▸ hgo
  · rw [show 2 * l.len + 0 = l.len + j + 1 by omega]
    exact hair
  · by_cases h0 : i = 0
    · rw [h0, hself]
      exact hleads
    · rw [hothers _ (node_ne h0 (by omega) (by omega))]
      exact h.passed i (by omega) hi

/-- A node on the way passes the packet on. -/
theorem Carried.carries (h : l.Carried inf net₀ p ev j net) (hr : l.Ready inf net₀ p) (ht : l.Timetable net₀ p ev)
    (hj : j + 1 < l.len) : ∃ net', Net.step inf net (ev (2 * l.len + j + 1)) = some net' ∧ l.Carried inf net₀ p ev (j + 1) net' := by
  obtain ⟨q, hq, hcar⟩ := h.message
  obtain ⟨hindex, hhere, -⟩ := h.start (l.node (j + 1))
  have hm : (ev (2 * l.len + j + 1)).node = l.node (j + 1) := (ht.node _ (by omega)).trans (visit_again j)
  obtain ⟨y, q', hy, hsent, hq', hleads, htrust⟩ := Exec.recv_carries (x := net.start (l.node (j + 1))) ((ev (2 * l.len + j + 1)).env inf)
    (hindex.symm ▸ hcar) hr.ptype (h.leads (j + 1) hj) (hindex.symm ▸ node_ne (by omega) (by omega) (by omega))
    (hhere.symm ▸ node_ne (by omega) (by omega) (by omega)) (l.real _ (le_refl _)) (h.trusts (hr.ahead (j + 1) hj)) (far hj) net.heap
  obtain ⟨net', hstep, hgo, hself, hothers, hair⟩ := h.delivers ht (by omega) hm (l.real _ (by omega)) hq
    (.inr (by unfold Packet.linkDst; rw [hcar.addrType]; exact hcar.nextHop)) hy hsent htrust
  refine ⟨net', hstep, hgo, ⟨q', hair, hindex ▸ hq'⟩, fun i hi => ?_⟩
  by_cases hij : i = j + 1
  · rw [hij, hself]
    exact hleads
  · rw [hothers _ (node_ne hij (by omega) (by omega))]
    exact h.leads i hi

/-! ## The whole way -/

/-- Where the timetable has got to before event `n`. -/
inductive Stage (l : Row) (inf : Nat) (net₀ : Net) (p : Packet) (ev : Nat → Event) (n : Nat) (net : Net) : Prop
  | ready : n = 0 → net = net₀ → Stage l inf net₀ p ev n net
  | asked {j : Nat} : n = j + 1 → j < l.len → l.Asked inf net₀ p ev j net → Stage l inf net₀ p ev n net
  | answered {j : Nat} : n = l.len + j + 1 → j < l.len → l.Answered inf net₀ p ev j net → Stage l inf net₀ p ev n net
  | carried {j : Nat} : n = 2 * l.len + j + 1 → j < l.len → l.Carried inf net₀ p ev j net → Stage l inf net₀ p ev n net

theorem Stage.next (h : l.Stage inf net₀ p ev n net) (hr : l.Ready inf net₀ p) (ht : l.Timetable net₀ p ev) (hn : n < 3 * l.len) :
    ∃ net', Net.step inf net (ev n) = some net' ∧ l.Stage inf net₀ p ev (n + 1) net' := by
  cases h with
  | ready h0 hnet =>
    subst h0 hnet
    obtain ⟨net', hstep, h'⟩ := hr.asks ht
    exact ⟨net', hstep, .asked rfl l.pos h'⟩
  | @asked j hnj hj h =>
    subst hnj
    by_cases hlast : j + 1 = l.len
    · obtain ⟨net', hstep, h'⟩ := h.answers hr ht hlast
      exact ⟨net', hstep, .answered (by omega) l.pos h'⟩
    · obtain ⟨net', hstep, h'⟩ := h.relays hr ht (by omega)
      exact ⟨net', hstep, .asked rfl (by omega) h'⟩
  | @answered j hnj hj h =>
    subst hnj
    by_cases hlast : j + 1 = l.len
    · obtain ⟨net', hstep, h'⟩ := h.releases hr ht hlast
      exact ⟨net', hstep, .carried (by omega) l.pos h'⟩
    · obtain ⟨net', hstep, h'⟩ := h.returns hr ht (by omega)
      exact ⟨net', hstep, .answered (by omega) (by omega) h'⟩
  | @carried j hnj hj h =>
    subst hnj
    obtain ⟨net', hstep, h'⟩ := h.carries hr ht (by omega)
    exact ⟨net', hstep, .carried (by omega) (by omega) h'⟩

/-- **A discovery that nothing disturbs sets up a route, and the packet arrives**, from every state that is ready.  Each event of the timetable takes place and
hands over one packet; in the end every node of the row sends packets for the last on to the next, and the last packet handed
over is the one that was sent off, on its way to its destination. -/
theorem arrives (hr : l.Ready inf net₀ p) (ht : l.Timetable net₀ p ev) : ∃ net',
    Runs.replay (Net.step inf) ((List.range (3 * l.len)).map ev) net₀ = some net' ∧
      net'.air.length = net₀.air.length + 3 * l.len ∧
      (∀ i, i < l.len → (net'.node (l.node i)).Leads (l.search net₀) (l.node (i + 1))) ∧
      ∃ q, net'.air.getLast? = some (l.node (l.len - 1), q) ∧ q.linkDst = p.daddr ∧ q.daddr = p.daddr ∧ q.saddr = p.saddr ∧
        q.ptype = p.ptype ∧ q.uid = p.uid ∧ q.body = p.body := by
  obtain ⟨net', hrun, hstage⟩ := Runs.replay_stages (P := l.Stage inf net₀ p ev) (.ready rfl rfl) (3 * l.len)
    (fun n hn net h => h.next hr ht hn)
  have hpos := l.pos
  cases hstage with
  | ready h | asked h | answered h => omega
  | @carried j hnj hj h =>
    obtain rfl : j = l.len - 1 := by omega
    obtain ⟨q, hq, hcar⟩ := h.message
    have hlen : net'.air.length = net₀.air.length + 3 * l.len := h.length.trans (by omega)
    rw [show l.len - 1 + 1 = l.len by omega] at hcar
    refine ⟨net', hrun, hlen, h.leads, q, ?_, ?_, hcar.daddr.trans hr.daddr.symm, hcar.saddr.trans hr.saddr.symm, hcar.ptype, hcar.uid,
      hcar.body⟩
    · rw [List.getLast?_eq_getElem?, hlen, ← hq]
      congr 1
      omega
    · unfold Packet.linkDst
      rw [hcar.addrType]
      exact hcar.nextHop.trans hr.daddr.symm

/-- Nodes 1, 2 and 3. -/
def three : Row where
  len := 2
  node n := Int.ofNat (n + 1)
  pos := by decide
  short := by decide
  distinct := fun _ _ _ _ h => Nat.succ.inj (Int.ofNat.inj h)
  real := fun _ _ => nofun

/-- A packet of node 1 for node 3. -/
def threePacket : Packet := { ptr := 0, ptype := .cbr, saddr := 1, daddr := 3, uid := 7 }

def threeEvent : Nat → Event
  | 0 => { now := 0, node := 1, what := .originate threePacket }
  | n + 1 => { now := n + 1, node := three.visit (n + 1), what := .deliver n }

theorem arrives_three : ∃ net', Runs.replay (Net.step 65535) ((List.range 6).map threeEvent) Net.init = some net' ∧
    net'.air.length = 6 ∧ (∀ i, i < 2 → (net'.node (three.node i)).Leads (three.search Net.init) (three.node (i + 1))) ∧
    ∃ q, net'.air.getLast? = some (2, q) ∧ q.linkDst = 3 ∧ q.daddr = 3 ∧ q.saddr = 1 ∧ q.ptype = .cbr ∧ q.uid = 7 ∧
      q.body = .payload := by
  have htrust : ∀ m m' : NsAddr, (Net.init.node m).Trusts m' := fun _ _ => show trustThreshold ≤ 1 by norm_num [trustThreshold]
  have hr : three.Ready 65535 Net.init threePacket :=
    ⟨⟨fun _ _ _ => rfl, fun _ _ => rfl, fun _ _ => htrust _ _, fun _ _ => htrust _ _⟩, .init, by decide,
      show 0 + 1 < 2 ^ 32 by decide, by decide, rfl, rfl, rfl⟩
  have hnow : ∀ n, (threeEvent n).now = n := by
    rintro (_ | n)
    · rfl
    · exact (Nat.cast_succ n).symm
  have ht : three.Timetable Net.init threePacket threeEvent := by
    refine ⟨?_, rfl, fun n _ => ?_, le_refl _, fun n => ?_, ?_, ?_⟩
    · rintro (_ | n) -
      · rfl
      · rfl
    · show What.deliver n = What.deliver (0 + n)
      rw [Nat.zero_add]
    · rw [hnow, hnow]
      exact_mod_cast Nat.le_succ n
    · rw [hnow, hnow]
      norm_num [three, teaomdvRtqTimeout]
    · rintro (_ | n) - h
      · cases h
      · cases h
  exact arrives hr ht

end Row

end TeAomdv

import TeAomdv.Reach
/-!
# Numbers — what the sequence number of an entry says

Two invariants of all nodes at once, each over the runs whose accepted PTAs keep to a test: the paths of a live entry
carry its number, and a live entry's number is even.
-/
namespace TeAomdv

open Exec (Trace)

namespace Net

variable {inf : Nat} {net : Net} {ev : Event} {inp : Input}

/-! ## Labels -/

theorem sameNumber_heard (hinp : net.input ev = some inp) (hk : net.keepsSeqno ev = true) :
    ((net.start ev.node).heard inp).SameNumber := by
  intro r hs n ha hne
  obtain ⟨rt, p, re, hpta, -, -, rfl, rfl, rfl⟩ := heard_pta hinp ha
  unfold keepsSeqno at hk
  rw [hpta] at hk
  exact of_decide_eq_true hk (outlives_iff.2 hne)

theorem labels_of_reach (h : Reach inf (fun net ev => net.keepsSeqno ev) net) :
    ∀ i, ∀ e ∈ (net.node i).rtable, e.route.Labelled := by
  refine Runs.Reaches.invariant (P := fun net => ∀ i, ∀ e ∈ (net.node i).rtable, e.route.Labelled)
    (fun i e he => absurd he List.not_mem_nil) (fun net ev net' hr ih hk hstep => ?_) h
  obtain ⟨inp, x, hinp, hx, rfl⟩ := step_eq_some hstep
  have ht := handle_trace inf ev inp (fun i => (tidy_of_reach hr i).1)
  rw [hx] at ht
  have hsame := sameNumber_heard hinp hk
  refine (commit_forall (Q := fun a => ∀ e ∈ a.rtable, e.route.Labelled) (V := fun _ => True) ev.now ih
    (fun _ _ => trivial) ?_ (fun _ _ => trivial)).1
  refine ht.invariant (I := fun x => ∀ e ∈ x.rtable, e.route.Labelled) (fun y z hy hm => ?_) (ih ev.node)
  exact hm.entries (fun _ _ hup => nomatch hup) (fun r r' hl hrule => hl.rule hsame hrule)
    (fun r _ _ _ hup => nomatch hup) hy

/-- **The paths of a live entry came in with its number**, in a run in which no accepted PTA changes the number of an
entry it leaves a path. -/
theorem labelled_of_reach (h : Reach inf (fun net ev => net.keepsSeqno ev) net) (i : NsAddr) :
    ∀ e ∈ (net.node i).rtable, e.rtFlags = .up → ∀ f ∈ e.rtPathList, f.origin.seqno = e.rtSeqno :=
  fun e he hup f hf => labels_of_reach h i e he hup f.hop (List.mem_map_of_mem hf)

/-- Node 4 has two paths to node 1, through 2 and 3.  Node 1 renews its number with 2; 2 comes to distrust 1 and reports
the new number in a PTA, so 4 keeps the path through 3 under a number it did not come in with.  Later 3 loses its own
path and is given one through 4. -/
def loopEvents : List Event :=
  [(What.cbr 1 9 100).on 0 1, (What.deliver 0).on (1 / 10) 2, (What.deliver 0).on (1 / 10) 3,
    (What.deliver 1).on (2 / 10) 4, (What.deliver 2).on (3 / 10) 4,
    (What.cbr 4 1 200).on (5 / 10) 4, (What.deliver 4).on (6 / 10) 2, What.trustTimer.on 3 2,
    (What.cbr 1 9 101).on 4 1, (What.deliver 7).on (41 / 10) 2,
    (What.cbr 4 1 201).on 5 4, (What.deliver 9).on (51 / 10) 2, (What.deliver 10).on (52 / 10) 4,
    What.routeCacheTimer.on (62 / 10) 3, (What.cbr 3 1 300).on (63 / 10) 3, (What.deliver 12).on (64 / 10) 4,
    (What.deliver 13).on (65 / 10) 3]

theorem mislabelled_of_loopEvents : ∃ net, replay 65535 (loopEvents.take 13) = some net ∧
    Reach 65535 (fun net ev => net.unwrapped ev ∧ net.short ev) net ∧
    ∃ e ∈ (net.node 4).rtable, e.rtFlags = .up ∧ ∃ f ∈ e.rtPathList, f.origin.seqno ≠ e.rtSeqno := by
  obtain ⟨net, hnet, hr, hfin⟩ := reach_of_obeys 65535 (fun net ev => net.unwrapped ev && net.short ev)
    (fun net => (net.entry 4 1).any (fun e => e.rtFlags = .up ∧ e.rtPathList.any (fun f => f.origin.seqno ≠ e.rtSeqno)))
    (fun _ _ h => Bool.and_eq_true_iff.1 h) (loopEvents.take 13) (by decide +kernel)
  obtain ⟨e, he, -, hq⟩ := of_entry_any hfin
  simp only [decide_eq_true_eq, List.any_eq_true] at hq
  exact ⟨net, hnet, hr, e, he, hq⟩

theorem labelled_loopEvents : ∃ net, replay 65535 (loopEvents.take 12) = some net ∧
    ∀ e ∈ (net.node 4).rtable, e.rtFlags = .up → ∀ f ∈ e.rtPathList, f.origin.seqno = e.rtSeqno := by
  obtain ⟨net, hnet, hr, -⟩ := reach_of_obeys 65535 keepsSeqno (fun _ => true) (fun _ _ h => h) (loopEvents.take 12)
    (by decide +kernel)
  exact ⟨net, hnet, labelled_of_reach hr 4⟩

/-! ## Live entries have even numbers -/

/-- A routing packet gives even numbers only. -/
def EvenAir (p : Packet) : Prop := p.ptype = .teaomdv → ∀ s, p.number = some s → s % 2 = 0

/-- What `EvenUp` needs of a node and of what it sends. -/
structure EvenNode (x : Exec) : Prop where
  own : x.seqno % 2 = 0
  up : ∀ e ∈ x.rtable, e.route.EvenUp
  sent : ∀ p ∈ x.sent, EvenAir p

theorem evenAir_of_plain {p : Packet} (hp : p.Plain) : EvenAir p := by
  intro ht s hs
  have := hp ht
  unfold Packet.number at hs
  split at hs <;> simp_all

theorem EvenNode.micro {env : Env} {h : Heard} {x y : Exec} (hh : h.Even) (hx : EvenNode x) (hm : Micro env h x y) :
    EvenNode y where
  own := by
    cases hm with
    | aside ha => exact ha.seqno hx.own
    | entry | distrust | add | emit => exact hx.own
  up := hm.entries (fun _ _ hup => nomatch hup) (fun r r' he hrule => he.rule hh hrule) (fun r _ _ _ hup => nomatch hup) hx.up
  sent := by
    intro p hp
    rcases hm.sent hp with hp | hp | hp
    · exact hx.sent p hp
    · exact evenAir_of_plain hp
    · intro _ s hs
      rcases hp.number hs with rfl | heven | ⟨a, rfl, rfl⟩
      · exact hx.own
      · exact heven
      · exact hh

theorem packet_number {a : Advert} (hinp : net.input ev = some inp) (ha : (net.start ev.node).heard inp = .advert a) :
    ∃ p, net.packet ev = some p ∧ p.number = some a.seqno := by
  obtain ⟨p, hp, ⟨rq, hb, rfl⟩ | ⟨rp, hb, rfl⟩⟩ := heard_advert hinp ha
  · exact ⟨p, hp, by simp [Packet.number, hb]⟩
  · exact ⟨p, hp, by simp [Packet.number, hb]⟩

theorem even_heard (hair : ∀ sp ∈ net.air, EvenAir sp.2) (hinp : net.input ev = some inp) (hk : net.keepsEven ev = true) :
    ((net.start ev.node).heard inp).Even := by
  cases ha : (net.start ev.node).heard inp with
  | advert a =>
    obtain ⟨p, hp, hn⟩ := packet_number hinp ha
    obtain ⟨ht, src, q, hq, rfl⟩ := packet_mem_air hp
    exact hair _ hq ht _ hn
  | pta r hs n =>
    obtain ⟨rt, p, re, hpta, -, -, rfl, rfl, rfl⟩ := heard_pta hinp ha
    unfold keepsEven at hk
    rw [hpta] at hk
    exact fun hne => of_decide_eq_true hk (outlives_iff.2 hne)
  | nothing | error | clock | repair => trivial

theorem evenNode_of_reach (h : Reach inf (fun net ev => net.keepsEven ev) net) :
    (∀ i, (net.node i).seqno % 2 = 0 ∧ ∀ e ∈ (net.node i).rtable, e.route.EvenUp) ∧ ∀ sp ∈ net.air, EvenAir sp.2 := by
  refine Runs.Reaches.invariant (P := fun net => (∀ i, (net.node i).seqno % 2 = 0 ∧
    ∀ e ∈ (net.node i).rtable, e.route.EvenUp) ∧ ∀ sp ∈ net.air, EvenAir sp.2)
    ⟨fun i => ⟨show 2 % 2 = 0 from rfl, fun e he => absurd he List.not_mem_nil⟩,
      fun sp hsp => absurd hsp List.not_mem_nil⟩ (fun net ev net' hr ih hk hstep => ?_) h
  obtain ⟨inp, x, hinp, hx, rfl⟩ := step_eq_some hstep
  have ht := handle_trace inf ev inp (fun i => (tidy_of_reach hr i).1)
  rw [hx] at ht
  have hstart : EvenNode (net.start ev.node) :=
    ⟨(ih.1 ev.node).1, (ih.1 ev.node).2, fun p hp => nomatch hp⟩
  have hend := ht.invariant (I := EvenNode) (fun _ _ hx hm => hx.micro (even_heard ih.2 hinp hk) hm) hstart
  exact commit_forall (Q := fun a => a.seqno % 2 = 0 ∧ ∀ e ∈ a.rtable, e.route.EvenUp) ev.now ih.1 ih.2
    ⟨hend.own, hend.up⟩ hend.sent

/-- The asserts on the parity of a live entry's number. -/
def evenSites : List Site := [.handleLinkFailureEven, .recvRequestEven, .recvErrorEven, .recvPtaEven]

/-- **Live entries have even numbers, and no assert that says so fails**, in a run in which no accepted PTA leaves an odd
number on an entry it leaves a path. -/
theorem even_of_reach (h : Reach inf (fun net ev => net.keepsEven ev) net) :
    (∀ i, ∀ e ∈ (net.node i).rtable, e.rtFlags = .up → e.rtSeqno % 2 = 0) ∧
      ∀ ev, net.keepsEven ev → ∀ s ∈ evenSites, net.exec inf ev ≠ some (.error (.assertion s)) := by
  obtain ⟨hnode, hair⟩ := evenNode_of_reach h
  refine ⟨fun i e he hup => (hnode i).2 e he hup, fun ev hk s hs hexec => ?_⟩
  obtain ⟨inp, hinp, hx⟩ := exec_eq_some hexec
  have ht := handle_trace inf ev inp (fun i => (tidy_of_reach h i).1)
  rw [hx] at ht
  have hstart : EvenNode (net.start ev.node) :=
    ⟨(hnode ev.node).1, (hnode ev.node).2, fun p hp => nomatch hp⟩
  obtain ⟨y, hy, hb⟩ := ht.invariant_error (I := EvenNode) (fun _ _ hx hm => EvenNode.micro (even_heard hair hinp hk) hx hm) hstart
  have hblame : ∃ e ∈ y.rtable, e.rtFlags = .up ∧ e.rtSeqno % 2 ≠ 0 := by
    simp only [evenSites, List.mem_cons, List.not_mem_nil, or_false] at hs
    rcases hs with rfl | rfl | rfl | rfl <;> exact hb
  obtain ⟨e, he, hup, hodd⟩ := hblame
  exact hodd (hy.up e he hup)

/-- Node 5 has three paths to node 1, through 2, 3 and 4.  Node 2 loses its own path and reports an odd number, which 5
remembers; 3 comes to distrust 1 and sends a PTA, which makes 5 take the odd number and keep the path through 4. -/
def oddEvents : List Event :=
  [(What.cbr 1 9 100).on 0 1, (What.deliver 0).on (1 / 10) 2, (What.deliver 0).on (1 / 10) 3,
    (What.deliver 0).on (1 / 10) 4, (What.deliver 1).on (2 / 10) 5, (What.deliver 2).on (3 / 10) 5,
    (What.deliver 3).on (4 / 10) 5, What.routeCacheTimer.on (62 / 10) 2,
    (What.cbr 5 1 500).on (63 / 10) 5, (What.deliver 5).on (64 / 10) 2, (What.deliver 6).on (65 / 10) 5,
    (What.cbr 5 1 501).on (66 / 10) 5, (What.deliver 7).on (67 / 10) 3, What.trustTimer.on 9 3,
    (What.cbr 5 1 502).on (91 / 10) 5, (What.deliver 10).on (92 / 10) 3, (What.deliver 11).on (93 / 10) 5]

theorem odd_of_oddEvents : ∃ net, replay 65535 oddEvents = some net ∧
    Reach 65535 (fun net ev => net.unwrapped ev ∧ net.short ev) net ∧
    ∃ e ∈ (net.node 5).rtable, e.rtFlags = .up ∧ e.rtSeqno % 2 ≠ 0 := by
  obtain ⟨net, hnet, hr, hfin⟩ := reach_of_obeys 65535 (fun net ev => net.unwrapped ev && net.short ev)
    (fun net => (net.entry 5 1).any (fun e => e.rtFlags = .up ∧ e.rtSeqno % 2 ≠ 0))
    (fun _ _ h => Bool.and_eq_true_iff.1 h) oddEvents (by decide +kernel)
  obtain ⟨e, he, -, hq⟩ := of_entry_any hfin
  exact ⟨net, hnet, hr, e, he, of_decide_eq_true hq⟩

theorem even_oddEvents : ∃ net, replay 65535 (oddEvents.take 16) = some net ∧
    (∀ i, ∀ e ∈ (net.node i).rtable, e.rtFlags = .up → e.rtSeqno % 2 = 0) ∧
      ∀ ev, net.keepsEven ev → ∀ s ∈ evenSites, net.exec 65535 ev ≠ some (.error (.assertion s)) := by
  obtain ⟨net, hnet, hr, -⟩ := reach_of_obeys 65535 keepsEven (fun _ => true) (fun _ _ h => h) (oddEvents.take 16)
    (by decide +kernel)
  exact ⟨net, hnet, even_of_reach hr⟩

end Net

end TeAomdv

import TeAomdv.Network
import TeAomdv.Rep
/-!
# Reach — one step of the network, and what a run is held to

An enabled event runs one handler, from the node's agent and to it (`step_eq_some`), and what reaches a handler was
handed to `target_` before (`recv_mem_air`).  The tests below are those the results put on the events of a run: on the
packet received (`unwrapped`, `short`), on the PTA accepted, on the distrust of `forward`.
-/
namespace TeAomdv

open Exec (Trace)

/-! ## What a small step can change -/

section Micro

variable {env : Env} {h : Heard} {x y : Exec}

/-- A property of the entries that new entries have and the rules keep is kept, through distrust as well. -/
theorem Micro.entries {Q : Route → Prop} (hfresh : ∀ d adv, Q ⟨d, .down, 0, adv, 0, 0, []⟩)
    (hrule : ∀ r r', Q r → Rule env.inf x.teaomdvMaxPaths h r r' → Q r')
    (hfall : ∀ r, Q r → r.flags = .up → (y.Calm → r.seqno % 2 = 1) → Q (r.fall env.inf r.seqno))
    (hx : ∀ e ∈ x.rtable, Q e.route) (hm : Micro env h x y) : ∀ e ∈ y.rtable, Q e.route := by
  cases hm with
  | entry e' he hr =>
    intro a ha
    rcases Exec.mem_put ha with ha | rfl
    · exact hx a ha
    · exact hrule _ _ (hx _ (Exec.mem_of_rtLookup he)) hr
  | @distrust d e e' he hup hf =>
    intro a ha
    rcases Exec.mem_put ha with ha | rfl
    · exact hx a ha
    · rw [hf]
      exact hfall _ (hx e (Exec.mem_of_rtLookup he)) hup (fun hc => hc d e.rtSeqno (by simp [Exec.say]))
  | add hops hnone =>
    intro a ha
    rcases List.mem_cons.1 ha with rfl | ha
    · exact hfresh _ _
    · exact hx a ha
  | emit => exact hx
  | aside ha =>
    rw [ha.table]
    exact hx

@[simp] theorem Exec.sent_schedule (x : Exec) (p : Packet) (t : Delay) : (x.schedule p t).sent = x.sent ++ [p] := by
  simp [Exec.sent, Exec.schedule, Exec.say]

@[simp] theorem Exec.sent_free (x : Exec) (p : Packet) : (x.free p).sent = x.sent := by simp [Exec.sent, Exec.free, Exec.say]

@[simp] theorem Exec.sent_drop (x : Exec) (p : Packet) (r : DropReason) : (x.drop p r).sent = x.sent := by
  simp [Exec.sent, Exec.drop, Exec.say]

@[simp] theorem Exec.sent_alloc (x : Exec) : x.alloc.sent = x.sent := by simp [Exec.sent, Exec.alloc, Exec.say]

@[simp] theorem Exec.sent_dmux (x : Exec) (p : Packet) : (x.say (.dmux p)).sent = x.sent := by simp [Exec.sent, Exec.say]

@[simp] theorem Exec.sent_rtModify (x : Exec) (d : NsAddr) (f : RtEntry → RtEntry) : (x.rtModify d f).sent = x.sent := rfl

theorem Exec.mem_log_of_sent {p : Packet} (hp : p ∈ x.sent) : ∃ d, Act.schedule p d ∈ x.log := by
  obtain ⟨a, ha, hs⟩ := List.mem_filterMap.1 hp
  split at hs
  · obtain rfl := Option.some.inj hs
    exact ⟨_, ha⟩
  · cases hs

theorem Exec.sent_append {l : List Act} (hl : y.log = x.log ++ l) {p : Packet} (hp : p ∈ y.sent) :
    p ∈ x.sent ∨ ∃ d, Act.schedule p d ∈ l := by
  unfold Exec.sent at *
  rw [hl, List.filterMap_append] at hp
  rcases List.mem_append.1 hp with hp | hp
  · exact .inl hp
  · obtain ⟨a, ha, hs⟩ := List.mem_filterMap.1 hp
    split at hs
    · obtain rfl := Option.some.inj hs
      exact .inr ⟨_, ha⟩
    · cases hs

/-- A packet newly sent is no routing packet but a PTA, or is honest. -/
theorem Micro.sent (hm : Micro env h x y) {p : Packet} (hp : p ∈ y.sent) :
    p ∈ x.sent ∨ p.Plain ∨ x.Honest env.inf h p := by
  cases hm with
  | entry | add => exact .inl hp
  | @distrust d e =>
    rcases Exec.sent_append (l := [.distrust d e.rtSeqno 0]) rfl hp with hp | ⟨_, hp⟩
    · exact .inl hp
    · simp at hp
  | @emit q d _ hq =>
    rcases Exec.sent_append (l := [.schedule q d]) rfl hp with hp | ⟨_, hp⟩
    · exact .inl hp
    · obtain ⟨rfl, -⟩ : p = q ∧ _ = d := by simpa using hp
      exact .inr (.inr hq)
  | aside ha =>
    obtain ⟨acts, hl, hquiet⟩ := ha.log
    rcases Exec.sent_append hl hp with hp | ⟨_, hp⟩
    · exact .inl hp
    · exact .inr (.inl (hquiet _ hp))

theorem Micro.calm (hm : Micro env h x y) (hc : y.Calm) : x.Calm := by
  intro d n hd
  refine hc d n ?_
  cases hm with
  | entry | add => exact hd
  | distrust | emit => exact List.mem_append_left _ hd
  | aside ha =>
    obtain ⟨acts, hl, -⟩ := ha.log
    rw [hl]
    exact List.mem_append_left _ hd

/-- The number a RREQ gives of its source, or a RREP of its destination. -/
def Packet.number (p : Packet) : Option Nat :=
  match p.body with
  | .rreq rq => some rq.rqSrcSeqno
  | .rrep rp => some rp.rpDstSeqno
  | _ => none

theorem Exec.heard_advert {inp : Input} {a : Advert} (ha : x.heard inp = .advert a) :
    ∃ p, inp = .recv p ∧ p.ptype = .teaomdv ∧
      ((∃ rq, p.body = .rreq rq ∧ a = ⟨rq.rqSrc, rq.rqSrcSeqno, rq.rqHopCount, p.saddr,
          if rq.rqHopCount = 0 then x.index else rq.rqFirstHop⟩) ∨
        ∃ rp, p.body = .rrep rp ∧ a = ⟨rp.rpDst, rp.rpDstSeqno, rp.rpHopCount, rp.rpSrc, rp.rpFirstHop⟩) := by
  unfold Exec.heard at ha
  split at ha
  · rename_i p
    split at ha
    · rename_i hp
      refine ⟨p, rfl, hp, ?_⟩
      split at ha
      · rename_i rq hb
        exact .inl ⟨rq, hb, (Heard.advert.inj ha).symm⟩
      · rename_i rp hb
        exact .inr ⟨rp, hb, (Heard.advert.inj ha).symm⟩
      · cases ha
      · split at ha
        · split at ha <;> cases ha
        · cases ha
      · cases ha
    · cases ha
  all_goals cases ha

theorem Exec.Advertises.live {inf s k : Nat} {d l : NsAddr} (ha : x.Advertises inf d s k l) (hx : x.toAgent.Rep) :
    ∃ e, x.rtLookup d = some e ∧ e.rtFlags = .up ∧ e.route.Advertises inf s k l := by
  obtain ⟨r, hr, hadv⟩ := ha
  obtain ⟨e, he, rfl⟩ := Exec.exists_of_routeOf hr
  obtain ⟨f, hf, -⟩ := hadv.2.2.2
  refine ⟨e, he, (hx.sound he).up.2 (fun hnil => ?_), hadv⟩
  rw [hnil] at hf
  cases hf

/-- The number of an honest packet is the sender's own, or one passed on. -/
theorem Exec.Honest.number {inf s : Nat} {p : Packet} (hh : x.Honest inf h p) (hs : p.number = some s) :
    s = x.seqno ∨ Exec.Passes h s := by
  unfold Exec.Honest at hh
  unfold Packet.number at hs
  split at hs
  · rename_i rq hb
    simp only [hb] at hh
    obtain rfl := Option.some.inj hs
    exact hh.2.imp (fun h => h.2.2) (fun h => h.2.2)
  · rename_i rp hb
    simp only [hb] at hh
    obtain rfl := Option.some.inj hs
    exact hh.2.2.imp (fun h => h.2.2.1) (fun h => h.2.2)
  · cases hs

end Micro

namespace Net

variable {inf : Nat} {net net' : Net} {ev : Event}

theorem exec_eq_some {m : Result} (h : net.exec inf ev = some m) :
    ∃ inp, net.input ev = some inp ∧ (net.start ev.node).handle (ev.env inf) inp = m :=
  Option.map_eq_some_iff.1 h

theorem step_eq_some (h : step inf net ev = some net') :
    ∃ inp x, net.input ev = some inp ∧ (net.start ev.node).handle (ev.env inf) inp = .ok x ∧
      net' = net.commit ev.now ev.node x := by
  unfold step at h
  split at h
  · rename_i x hx
    obtain ⟨inp, hinp, hm⟩ := exec_eq_some hx
    exact ⟨inp, x, hinp, hm, (Option.some.inj h).symm⟩
  · cases h

/-- The event is one that invokes `inp`. -/
def Causes (net : Net) (ev : Event) : Input → Prop
  | .recv p =>
    (∃ (k : Nat) (src : NsAddr) (q : Packet), ev.what = .deliver k ∧ net.air[k]? = some (src, q) ∧
      (q.linkDst = ipBroadcast ∨ q.linkDst = ev.node) ∧ p = q.received net.heap) ∨
    ∃ q, ev.what = .originate q ∧ (q.ptype ≠ .teaomdv ∧ q.saddr = ev.node ∧ q.numForwards = 0) ∧
      p = { q with ptr := net.heap }
  | .tap p => ∃ (k : Nat) (src : NsAddr) (q : Packet), ev.what = .overhear k ∧ net.air[k]? = some (src, q) ∧
      p = q.received net.heap
  | .rtLlFailed p => ∃ k : Nat, ev.what = .undelivered k ∧ net.air[k]? = some (ev.node, p)
  | .timer .broadcast => ev.what = .broadcastTimer
  | .timer .hello => ev.what = .helloTimer
  | .timer .probe => ev.what = .probeTimer
  | .timer .trust => ev.what = .trustTimer
  | .timer (.neighbor ifq) => ∃ ks, ev.what = .neighborTimer ks ∧ ifq = fun id => net.queued ev.node (ks id) id
  | .timer .routeCache => ev.what = .routeCacheTimer
  | .timer (.localRepair _) => False

theorem input_eq_some {inp : Input} (h : net.input ev = some inp) :
    net.now ≤ ev.now ∧ ev.node ≠ ipBroadcast ∧ net.Causes ev inp := by
  unfold input at h
  split at h
  · cases h
  rename_i hen
  refine ⟨not_lt.1 (fun hlt => hen (.inl hlt)), fun he => hen (.inr he), ?_⟩
  cases hw : ev.what with
  | deliver k =>
    simp only [hw] at h
    split at h
    · cases h
    · rename_i src q hq
      split at h
      · rename_i hdst
        cases h
        exact .inl ⟨k, src, q, hw, hq, hdst, rfl⟩
      · cases h
  | overhear k =>
    simp only [hw] at h
    split at h
    · cases h
    · rename_i src q hq
      cases h
      exact ⟨k, src, q, hw, hq, rfl⟩
  | undelivered k =>
    simp only [hw] at h
    split at h
    · cases h
    · rename_i src q hq
      split at h
      · rename_i hsrc
        cases h
        exact ⟨k, hw, hsrc ▸ hq⟩
      · cases h
  | originate q =>
    simp only [hw] at h
    split at h
    · rename_i hq
      cases h
      exact .inr ⟨q, hw, hq, rfl⟩
    · cases h
  | neighborTimer ks =>
    simp only [hw] at h
    cases h
    exact ⟨ks, hw, rfl⟩
  | broadcastTimer | helloTimer | probeTimer | trustTimer | routeCacheTimer =>
    simp only [hw] at h
    cases h
    exact hw

/-- A routing packet that is received was sent. -/
theorem recv_mem_air {p : Packet} (h : net.input ev = some (.recv p)) (hp : p.ptype = .teaomdv) :
    ∃ src q, (src, q) ∈ net.air ∧ p = q.received net.heap ∧ (q.linkDst = ipBroadcast ∨ q.linkDst = ev.node) ∧
      ev.node ≠ ipBroadcast := by
  obtain ⟨-, hnode, ⟨k, src, q, -, hq, hdst, rfl⟩ | ⟨q, -, ⟨hne, -⟩, rfl⟩⟩ := input_eq_some h
  · exact ⟨src, q, List.mem_of_getElem? hq, rfl, hdst, hnode⟩
  · exact absurd hp hne

/-- In a run of the network every node makes a run of its own. -/
theorem agent_of_reach {guard : Net → Event → Prop} (h : Reach inf guard net) (i : NsAddr) : Agent.Reach i (net.node i) := by
  have h₀ : ∀ i, Agent.Reach i (init.node i) := fun i => (.init : Agent.Reach i (.new i))
  refine Runs.Reaches.invariant (P := fun net => ∀ i, Agent.Reach i (net.node i)) h₀
    (fun net ev net' _ ih _ hstep i => ?_) h i
  obtain ⟨inp, x, -, hx, rfl⟩ := step_eq_some hstep
  show Agent.Reach i (if i = ev.node then x.toAgent else net.node i)
  split
  · rename_i hi
    subst hi
    refine (ih ev.node).step trivial (e := ⟨ev.env inf, net.heap + 1, inp⟩) ?_
    have hcall : ((net.node ev.node).exec (net.heap + 1)).handle (ev.env inf) inp = .ok x := hx
    unfold Agent.call
    rw [hcall]
  · exact ih i

/-- A node is in order, and is who it was made as. -/
theorem tidy_of_reach {guard : Net → Event → Prop} (h : Reach inf guard net) (i : NsAddr) :
    (net.node i).Tidy ∧ (net.node i).index = i :=
  ⟨Agent.tidy_of_reach (agent_of_reach h i), Agent.index_of_reach (agent_of_reach h i)⟩

/-- The handler an event runs is traced from the agent it finds. -/
theorem handle_trace (inf : Nat) (ev : Event) (inp : Input) (ht : ∀ i, (net.node i).Tidy) :
    Trace (ev.env inf) ((net.start ev.node).heard inp) (net.start ev.node)
      ((net.start ev.node).handle (ev.env inf) inp) :=
  Exec.handle_trace (ht ev.node).data (fun _ _ hm => nomatch hm)

/-- What holds of every agent and of everything sent holds after a handler if it holds of its agent and of what it sent. -/
theorem commit_forall {Q : Agent → Prop} {V : NsAddr × Packet → Prop} {x : Exec} (t : ℚ) {i : NsAddr}
    (hnode : ∀ j, Q (net.node j)) (hair : ∀ sp ∈ net.air, V sp) (hx : Q x.toAgent) (hsent : ∀ p ∈ x.sent, V (i, p)) :
    (∀ j, Q ((net.commit t i x).node j)) ∧ ∀ sp ∈ (net.commit t i x).air, V sp := by
  constructor
  · intro j
    show Q (if j = i then x.toAgent else net.node j)
    split
    · exact hx
    · exact hnode j
  · intro sp hsp
    rcases List.mem_append.1 hsp with hsp | hsp
    · exact hair sp hsp
    · obtain ⟨p, hp, rfl⟩ := List.mem_map.1 hsp
      exact hsent p hp

/-! ## What a run is held to -/

/-- The routing packet an event hands to `recvTEAOMDV`. -/
def packet (net : Net) (ev : Event) : Option Packet :=
  match net.input ev with
  | some (.recv p) => if p.ptype = .teaomdv then some p else none
  | _ => none

/-- The PTA an event makes `recvPta` accept, with the entry it is about and the packet it came in. -/
def pta (net : Net) (ev : Event) : Option (RtEntry × Packet × Pta) :=
  match net.packet ev with
  | none => none
  | some p =>
    match p.body with
    | .pta re =>
      match (net.start ev.node).rtLookup re.unreachableDst with
      | none => none
      | some rt => if Exec.acceptsPta rt p.saddr re then some (rt, p, re) else none
    | _ => none

end Net

/-- The numbers of the packet did not wrap and are not about to: own numbers start at 2 and only grow. -/
def Packet.unwrapped (p : Packet) : Bool :=
  match p.body with
  | .rreq rq => 0 < rq.rqSrcSeqno ∧ rq.rqSrcSeqno < seqnoLimit
  | .rrep rp => 0 < rp.rpDstSeqno ∧ rp.rpDstSeqno < seqnoLimit
  | .rerr re => re.unreachable.all (fun s => s.2 < seqnoLimit)
  | .pta re => re.unreachableDstSeqno < seqnoLimit
  | _ => true

/-- The hop count, one hop on, stays below 255. -/
def Packet.short (p : Packet) : Bool :=
  match p.body with
  | .rreq rq => rq.rqHopCount + 1 < infinity2
  | .rrep rp => rp.rpHopCount + 1 < infinity2
  | _ => true

/-- The number `recvPta` is about to write. -/
def RtEntry.ptaSeqno (rt : RtEntry) (re : Pta) : Nat := max rt.rtHighestSeqnoHeard re.unreachableDstSeqno

/-- `recvPta` will find a path left. -/
def RtEntry.outlives (rt : RtEntry) (saddr : NsAddr) : Bool := !(rt.pathDelete saddr).rtPathList.isEmpty

namespace Net

variable {net : Net} {ev : Event}

theorem packet_eq_some {p : Packet} (h : net.packet ev = some p) : net.input ev = some (.recv p) ∧ p.ptype = .teaomdv := by
  unfold packet at h
  split at h
  · rename_i q hq
    split at h
    · rename_i hp
      obtain rfl := Option.some.inj h
      exact ⟨hq, hp⟩
    · cases h
  · cases h

/-- A routing packet received says what a packet of the air says. -/
theorem packet_mem_air {p : Packet} (hp : net.packet ev = some p) :
    p.ptype = .teaomdv ∧ ∃ src q, (src, q) ∈ net.air ∧ p = q.received net.heap := by
  obtain ⟨hinp, ht⟩ := packet_eq_some hp
  obtain ⟨src, q, hq, rfl, -⟩ := recv_mem_air hinp ht
  exact ⟨ht, src, q, hq, rfl⟩

section Heard

variable {inp : Input} (h : net.input ev = some inp)

include h

theorem heard_advert {a : Advert} (ha : (net.start ev.node).heard inp = .advert a) :
    ∃ p, net.packet ev = some p ∧
      ((∃ rq, p.body = .rreq rq ∧ a = ⟨rq.rqSrc, rq.rqSrcSeqno, rq.rqHopCount, p.saddr,
          if rq.rqHopCount = 0 then (net.node ev.node).index else rq.rqFirstHop⟩) ∨
        ∃ rp, p.body = .rrep rp ∧ a = ⟨rp.rpDst, rp.rpDstSeqno, rp.rpHopCount, rp.rpSrc, rp.rpFirstHop⟩) := by
  obtain ⟨p, rfl, hp, hb⟩ := Exec.heard_advert ha
  exact ⟨p, by simp [packet, h, hp], hb⟩

theorem heard_error {slots : List (NsAddr × Nat)} (ha : (net.start ev.node).heard inp = .error slots) :
    ∃ p re, net.packet ev = some p ∧ p.body = .rerr re ∧ slots = re.unreachable := by
  unfold Exec.heard at ha
  split at ha
  · rename_i p
    split at ha
    · rename_i hp
      split at ha
      · cases ha
      · cases ha
      · rename_i re hb
        exact ⟨p, re, by simp [packet, h, hp], hb, (Heard.error.inj ha).symm⟩
      · split at ha
        · split at ha <;> cases ha
        · cases ha
      · cases ha
    · cases ha
  all_goals cases ha

theorem heard_pta {r : Route} {hs : List Hop} {n : Nat} (ha : (net.start ev.node).heard inp = .pta r hs n) :
    ∃ rt p re, net.pta ev = some (rt, p, re) ∧ net.packet ev = some p ∧ p.body = .pta re ∧ r = rt.route ∧
      hs = (rt.pathDelete p.saddr).route.hops ∧ n = re.unreachableDstSeqno := by
  unfold Exec.heard at ha
  split at ha
  · rename_i p
    split at ha
    · rename_i hp
      have hpacket : net.packet ev = some p := by simp [packet, h, hp]
      split at ha
      · cases ha
      · cases ha
      · cases ha
      · rename_i re hb
        split at ha
        · rename_i rt hrt
          split at ha
          · rename_i hacc
            obtain ⟨h1, h2, h3⟩ := Heard.pta.inj ha
            exact ⟨rt, p, re, by simp [pta, hpacket, hb, hrt, hacc], hpacket, hb, h1.symm, h2.symm, h3.symm⟩
          · cases ha
        · cases ha
      · cases ha
    · cases ha
  all_goals cases ha

end Heard

theorem outlives_iff {rt : RtEntry} {saddr : NsAddr} :
    rt.outlives saddr = true ↔ (rt.pathDelete saddr).route.hops ≠ [] := by
  simp [RtEntry.outlives, RtEntry.route]

def unwrapped (net : Net) (ev : Event) : Bool := (net.packet ev).all Packet.unwrapped

def short (net : Net) (ev : Event) : Bool := (net.packet ev).all Packet.short

/-- No accepted PTA changes the number of an entry it leaves a path. -/
def keepsSeqno (net : Net) (ev : Event) : Bool :=
  (net.pta ev).all (fun a => a.1.outlives a.2.1.saddr → a.1.ptaSeqno a.2.2 = a.1.rtSeqno)

/-- No accepted PTA leaves an odd number on an entry it leaves a path. -/
def keepsEven (net : Net) (ev : Event) : Bool :=
  (net.pta ev).all (fun a => a.1.outlives a.2.1.saddr → a.1.ptaSeqno a.2.2 % 2 = 0)

/-- No accepted PTA leaves an even number on an entry it leaves no path. -/
def fallsOdd (net : Net) (ev : Event) : Bool :=
  (net.pta ev).all (fun a => ¬ a.1.outlives a.2.1.saddr → a.1.ptaSeqno a.2.2 % 2 = 1)

/-- The fault an event ends in. -/
def fault (inf : Nat) (net : Net) (ev : Event) : Option Fault := (net.exec inf ev).bind Fallible.failure

theorem exec_of_fault {inf : Nat} {f : Fault} (h : net.fault inf ev = some f) : net.exec inf ev = some (.error f) := by
  obtain ⟨m, hm, hf⟩ := Option.bind_eq_some_iff.1 h
  rw [hm, Fallible.failure_eq_some.1 hf]

/-- The entry of node `i` for `d`. -/
def entry (net : Net) (i d : NsAddr) : Option RtEntry := (net.node i).rtable.find? (fun e => e.rtDst = d)

theorem mem_of_entry {i d : NsAddr} {e : RtEntry} (he : net.entry i d = some e) :
    e ∈ (net.node i).rtable ∧ e.rtDst = d :=
  ⟨List.mem_of_find?_eq_some he, Keyed.key_of_find? he⟩

theorem of_entry_any {i d : NsAddr} {q : RtEntry → Bool} (h : (net.entry i d).any q = true) :
    ∃ e ∈ (net.node i).rtable, e.rtDst = d ∧ q e = true := by
  obtain ⟨e, he, hq⟩ := (Option.any_eq_true _ _).1 h
  exact ⟨e, (mem_of_entry he).1, (mem_of_entry he).2, hq⟩

end Net

/-! ## Runs written out -/

namespace What

/-- An application at `src` hands over a CBR packet for `dst`. -/
def cbr (src dst : NsAddr) (uid : Nat) : What :=
  .originate { ptr := 0, ptype := .cbr, saddr := src, daddr := dst, uid := uid }

def on (w : What) (now : ℚ) (node : NsAddr) : Event := { now := now, node := node, what := w }

end What

/-- A run that can be replayed under a test is a run under the guard the test decides. -/
theorem Net.reach_of_obeys (inf : Nat) {guard : Net → Event → Prop} (ok : Net → Event → Bool) (fin : Net → Bool)
    (hok : ∀ net ev, ok net ev = true → guard net ev) (evs : List Event)
    (h : Runs.obeys (Net.step inf) ok fin evs Net.init = true) :
    ∃ net, Net.replay inf evs = some net ∧ Net.Reach inf guard net ∧ fin net = true :=
  Runs.Reaches.of_obeys ok fin hok evs .init h

end TeAomdv

import TeAomdv.TraceTimers
import TeAomdv.Lib.Runs
/-!
# Rep — the representation invariant of a node's tables

The counter, the flag and the lists of every entry agree, and the tables have one entry per key, after any sequence of
invocations with any packets.
-/
namespace TeAomdv

open Exec (Trace Aside)

/-- The representation invariant of an entry. -/
structure RtEntry.Rep (maxPaths : Int) (e : RtEntry) : Prop where
  num : e.rtNumPaths = e.rtPathList.length
  le : e.rtNumPaths ≤ maxPaths
  nexthops : (e.rtPathList.map (·.nexthop)).Nodup
  lasthops : (e.rtPathList.map (·.lasthop)).Nodup
  up : e.rtFlags = .up ↔ e.rtPathList ≠ []
  precursors : e.rtPclist.Nodup

theorem RtEntry.rep_iff {maxPaths : Int} {e : RtEntry} :
    e.Rep maxPaths ↔ e.route.Sound maxPaths ∧ e.rtPclist.Nodup := by
  have hn : e.route.hops.map (·.nexthop) = e.rtPathList.map (·.nexthop) := List.map_map
  have hl : e.route.hops.map (·.lasthop) = e.rtPathList.map (·.lasthop) := List.map_map
  constructor
  · intro h
    exact ⟨⟨by simpa [RtEntry.route] using h.num, h.le, hn ▸ h.nexthops, hl ▸ h.lasthops,
      h.up.trans (by simp [RtEntry.route])⟩, h.precursors⟩
  · rintro ⟨h, hpc⟩
    exact ⟨by simpa [RtEntry.route] using h.num, h.le, hn ▸ h.nexthops, hl ▸ h.lasthops,
      h.up.trans (by simp [RtEntry.route]), hpc⟩

/-- The representation invariant of a node. -/
structure Agent.Rep (a : Agent) : Prop where
  dsts : (a.rtable.map (·.rtDst)).Nodup
  entries : ∀ e ∈ a.rtable, e.Rep a.teaomdvMaxPaths
  nbs : (a.nbhead.map (·.nbAddr)).Nodup
  ids : (a.bihead.map (fun b => (b.src, b.id))).Nodup
  room : 1 ≤ a.teaomdvMaxPaths

theorem Agent.Rep.new (id : NsAddr) : (Agent.new id).Rep where
  dsts := List.nodup_nil
  entries := fun _ h => nomatch h
  nbs := List.nodup_nil
  ids := List.nodup_nil
  room := show (1 : Int) ≤ 3 by decide

section Steps

variable {env : Env} {h : Heard} {x y : Exec}

theorem Agent.Rep.put {d : NsAddr} {e e' : RtEntry} (hx : x.toAgent.Rep) (he : x.rtLookup d = some e)
    (hs : e'.route.Sound x.teaomdvMaxPaths) (hd : e'.rtDst = d) (hpc : e.rtPclist.Nodup → e'.rtPclist.Nodup) :
    (x.put d e').toAgent.Rep where
  dsts := by
    show ((x.put d e').rtable.map _).Nodup
    rw [Exec.map_rtDst_put hd]
    exact hx.dsts
  entries := by
    intro a ha
    rcases Exec.mem_put ha with ha | rfl
    · exact hx.entries a ha
    · exact RtEntry.rep_iff.2 ⟨hs, hpc (hx.entries e (Exec.mem_of_rtLookup he)).precursors⟩
  nbs := hx.nbs
  ids := hx.ids
  room := hx.room

theorem Agent.Rep.add {d : NsAddr} (hx : x.toAgent.Rep) (hnone : x.rtLookup d = none) (hops : Nat) :
    ({ x with rtable := { rtDst := d, rtHops := hops } :: x.rtable } : Exec).toAgent.Rep where
  dsts := by
    refine List.nodup_cons.2 ⟨fun hm => ?_, hx.dsts⟩
    obtain ⟨a, ha, heq⟩ := List.mem_map.1 hm
    exact List.find?_eq_none.1 hnone a ha (by simpa using heq)
  entries := by
    intro a ha
    rcases List.mem_cons.1 ha with rfl | ha
    · exact RtEntry.rep_iff.2 ⟨Route.Sound.fresh hx.room d _, List.nodup_nil⟩
    · exact hx.entries a ha
  nbs := hx.nbs
  ids := hx.ids
  room := hx.room

theorem Agent.Rep.aside (hx : x.toAgent.Rep) (ha : Aside x y) : y.toAgent.Rep where
  dsts := by rw [ha.table]; exact hx.dsts
  entries := by rw [ha.table, ha.maxPaths]; exact hx.entries
  nbs := ha.nbs hx.nbs
  ids := ha.ids hx.ids
  room := by rw [ha.maxPaths]; exact hx.room

theorem Agent.Rep.sound {d : NsAddr} {e : RtEntry} (hx : x.toAgent.Rep) (he : x.rtLookup d = some e) :
    e.route.Sound x.teaomdvMaxPaths :=
  (RtEntry.rep_iff.1 (hx.entries e (Exec.mem_of_rtLookup he))).1

/-- Every small step keeps the tables in order. -/
theorem Micro.rep (hx : x.toAgent.Rep) (hm : Micro env h x y) : y.toAgent.Rep := by
  cases hm with
  | entry e' he hr hpc =>
    exact hx.put he ((hx.sound he).rule hx.room hr) (hr.dst.trans (Exec.rtDst_of_rtLookup he)) hpc
  | distrust e' he _ hf hpc =>
    have hs : e'.route.Sound x.teaomdvMaxPaths := by rw [hf]; exact (hx.sound he).fall _ _
    exact hx.put he hs ((congrArg Route.dst hf).trans (Exec.rtDst_of_rtLookup he)) hpc
  | add hops hnone => exact hx.add hnone hops
  | emit => exact hx
  | aside ha => exact hx.aside ha

theorem Exec.rep_of_trace {m : Result} (ht : Trace env h x m) (hx : x.toAgent.Rep) :
    Fallible.Ends (fun y => y.toAgent.Rep) m := by
  rintro y rfl
  exact ht.invariant (I := fun x => x.toAgent.Rep) (fun _ _ h hm => hm.rep h) hx

end Steps

/-! ## One node -/

/-- One invocation: its environment, the allocation counter it starts at, and what is handed to the agent. -/
structure Call where
  env : Env
  heap : Nat
  inp : Input

namespace Agent

/-- A handler starting on this agent. -/
def exec (a : Agent) (heap : Nat) : Exec := { a with heap := heap, log := [] }

/-- The agent after an invocation; none after a fault. -/
def call (a : Agent) (c : Call) : Option Agent :=
  match (a.exec c.heap).handle c.env c.inp with
  | .ok x => some x.toAgent
  | .error _ => none

/-- The agents any sequence of invocations can make of a new one. -/
def Reach (id : NsAddr) : Agent → Prop := Runs.Reaches call (fun _ _ => True) (new id)

/-- The queue holds data, so the handlers are traced. -/
structure Tidy (a : Agent) : Prop where
  rep : a.Rep
  data : ∀ q ∈ a.rqueue, q.Data

theorem Tidy.steps {env : Env} {h : Heard} {x y : Exec} (hx : x.toAgent.Tidy) (hs : Exec.Steps env h x y) :
    y.toAgent.Tidy :=
  ⟨Fallible.Traces.invariant_steps (I := fun x => x.toAgent.Rep) (fun _ _ h hm => hm.rep h) hx.rep hs,
    Exec.steps_dataQueue hs hx.data⟩

theorem Tidy.handle {env : Env} {inp : Input} {x y : Exec} (hx : x.toAgent.Tidy) (hc : x.Calm)
    (hy : x.handle env inp = .ok y) : y.toAgent.Tidy := by
  have ht : Trace env (x.heard inp) x (x.handle env inp) := Exec.handle_trace hx.data hc
  exact hx.steps (ht.of_ok hy)

theorem call_eq_some {a a' : Agent} {c : Call} (h : a.call c = some a') :
    ∃ x, (a.exec c.heap).handle c.env c.inp = .ok x ∧ x.toAgent = a' := by
  unfold call at h
  split at h
  · rename_i x hx
    exact ⟨x, hx, Option.some.inj h⟩
  · cases h

theorem exec_calm (a : Agent) (heap : Nat) : (a.exec heap).Calm := fun _ _ hm => nomatch hm

theorem Tidy.call {a a' : Agent} {c : Call} (ha : a.Tidy) (h : a.call c = some a') : a'.Tidy := by
  obtain ⟨x, hx, rfl⟩ := call_eq_some h
  exact Tidy.handle (x := a.exec c.heap) ha (exec_calm a c.heap) hx

theorem tidy_of_reach {id : NsAddr} {a : Agent} (h : Reach id a) : a.Tidy :=
  Runs.Reaches.invariant ⟨.new id, fun _ hq => nomatch hq⟩ (fun _ _ _ _ ha _ hs => ha.call hs) h

/-- A node is who it was made as. -/
theorem index_of_reach {id : NsAddr} {a : Agent} (h : Reach id a) : a.index = id := by
  refine Runs.Reaches.invariant (P := fun a => a.index = id) rfl (fun a c a' hr ih _ hs => ?_) h
  obtain ⟨x, hx, rfl⟩ := call_eq_some hs
  exact (Exec.steps_index ((Exec.handle_trace (x := a.exec c.heap) (tidy_of_reach hr).data (exec_calm a c.heap)).of_ok hx)).trans ih

/-- **The tables of a node are well formed after every sequence of invocations.** -/
theorem rep_of_reach {id : NsAddr} {a : Agent} (h : Reach id a) : a.Rep := (tidy_of_reach h).rep

/-- A node that hears a request on two disjoint paths, is told that one of them broke, and purges. -/
def twoPathCalls : List Call :=
  let request (saddr firstHop : NsAddr) : Packet :=
    { ptr := 0, saddr := saddr, daddr := ipBroadcast, sport := rtPort, dport := rtPort, ttl := 20, prevHop := saddr
      body := .rreq ⟨1, 7, 9, 0, 1, 4, 0, firstHop, trustThreshold, 1, 1⟩ }
  let broken : Packet :=
    { ptr := 0, saddr := 2, daddr := ipBroadcast, sport := rtPort, dport := rtPort, ttl := 1, body := .rerr ⟨[(1, 5)]⟩ }
  [⟨{ inf := 65535, now := 1 }, 1, .recv (request 2 2)⟩, ⟨{ inf := 65535, now := 2 }, 3, .recv (request 3 3)⟩,
    ⟨{ inf := 65535, now := 3 }, 5, .recv broken⟩, ⟨{ inf := 65535, now := 20 }, 7, .timer .routeCache⟩]

theorem rep_twoPathCalls : ∃ a, Runs.replay call twoPathCalls (new 5) = some a ∧ a.Rep := by
  obtain ⟨a, ha, hr, -⟩ := Runs.Reaches.of_obeys (fun _ _ => true) (fun _ => true) (fun _ _ _ => trivial)
    twoPathCalls (.init : Reach 5 (new 5)) (by decide +kernel)
  exact ⟨a, ha, rep_of_reach hr⟩

end Agent

end TeAomdv

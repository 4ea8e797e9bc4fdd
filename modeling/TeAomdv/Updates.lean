import TeAomdv.World
import TeAomdv.Answer
/-!
# Updates — which RREQs and RREPs change a route

The route to a destination goes by the rules, step by step (`routeFor_micro`).  `updates` is what a RREQ or RREP says that
its handler does not turn down and that is an update of the entry it is about.
-/
namespace TeAomdv

open Exec (Trace)
open Fallible (Ends ok_bind)

/-- A newer number, or the same and closer than the entry advertises. -/
def RtEntry.updatedBy (e : RtEntry) (a : Advert) : Bool :=
  e.rtSeqno < a.seqno ∨ e.rtSeqno = a.seqno ∧ a.hops < e.rtAdvertisedHops

namespace Exec

/-- The first tests of `recvRequest` and `recvReply`: the packet is the node's own, or not trusted. -/
def turnsDown (x : Exec) (p : Packet) : Bool :=
  match p.body with
  | .rreq rq => rq.rqSrc = x.index ∨ x.distrustsRequest p rq
  | .rrep rp => x.distrustsReply p rp ∨ rp.rpDst = x.index
  | _ => false

/-- What a RREQ or RREP says that gets as far as the route entry, and is an update of it. -/
def updates (env : Env) (x : Exec) (inp : Input) : Option Advert :=
  match inp, x.heard inp with
  | .recv p, .advert a => if ¬ x.turnsDown p ∧ (x.entryFor env a.dst).updatedBy a then some a else none
  | _, _ => none

/-- The route to `d`; before there is one, that of a new entry. -/
def routeFor (x : Exec) (d : NsAddr) : Route := ((x.rtLookup d).getD { rtDst := d, rtHops := 0 }).route

variable {env : Env} {x y : Exec} {d : NsAddr} {e : RtEntry} {p : Packet}

theorem routeFor_of_rtLookup (he : x.rtLookup d = some e) : x.routeFor d = e.route := by
  unfold routeFor
  rw [he]
  rfl

theorem routeFor_of_mem (hx : x.toAgent.Rep) (he : e ∈ x.rtable) : x.routeFor e.rtDst = e.route :=
  routeFor_of_rtLookup (Keyed.find?_of_mem_nodup RtEntry.rtDst hx.dsts he)

theorem dst_routeFor (x : Exec) (d : NsAddr) : (x.routeFor d).dst = d := by
  unfold routeFor
  cases he : x.rtLookup d with
  | none => rfl
  | some e => exact rtDst_of_rtLookup he

theorem routeFor_eq (x : Exec) (d : NsAddr) :
    x.routeFor d = (x.routeOf d).getD ({ rtDst := d, rtHops := 0 } : RtEntry).route := by
  unfold routeFor routeOf
  cases x.rtLookup d <;> rfl

theorem routeFor_congr (h : y.routeOf = x.routeOf) (d : NsAddr) : y.routeFor d = x.routeFor d := by
  rw [routeFor_eq, routeFor_eq, h]

/-- A new entry has the route there was. -/
theorem routeFor_cons (hnone : x.rtLookup d = none) (hops : Nat) (d' : NsAddr) :
    Exec.routeFor { x with rtable := { rtDst := d, rtHops := hops } :: x.rtable } d' = x.routeFor d' := by
  unfold routeFor
  by_cases hd : d' = d
  · subst hd
    have hnew : Exec.rtLookup { x with rtable := { rtDst := d', rtHops := hops } :: x.rtable } d' =
        some { rtDst := d', rtHops := hops } := List.find?_cons_of_pos (by simp)
    rw [hnew, hnone]
    rfl
  · have hold : Exec.rtLookup { x with rtable := { rtDst := d, rtHops := hops } :: x.rtable } d' = x.rtLookup d' :=
      List.find?_cons_of_neg (by simpa using Ne.symm hd)
    rw [hold]

/-- **A small step changes a route by a rule**, or brings it down for distrust. -/
theorem routeFor_micro {h : Heard} (hm : Micro env h x y) (d : NsAddr) :
    Rule env.inf x.teaomdvMaxPaths h (x.routeFor d) (y.routeFor d) ∨
      y.routeFor d = (x.routeFor d).fall env.inf (x.routeFor d).seqno := by
  cases he : x.rtLookup d with
  | some e =>
    obtain ⟨e', he', hr⟩ := hm.rtLookup he
    rw [routeFor_of_rtLookup he, routeFor_of_rtLookup he']
    exact hr
  | none =>
    have hkeep : y.routeFor d = x.routeFor d →
        Rule env.inf x.teaomdvMaxPaths h (x.routeFor d) (y.routeFor d) := by
      intro heq
      rw [heq]
      exact .keep
    have hput : ∀ {d' e e'}, x.rtLookup d' = some e → e'.rtDst = d' → (x.put d' e').routeFor d = x.routeFor d := by
      intro d' e e' he' hd
      have hne : d ≠ d' := by
        rintro rfl
        rw [he] at he'
        cases he'
      unfold routeFor
      rw [rtLookup_put_ne hd hne]
    refine .inl (hkeep ?_)
    cases hm with
    | entry e' he' hr => exact hput he' (hr.dst.trans (rtDst_of_rtLookup he'))
    | distrust e' he' _ hf => exact hput he' ((congrArg Route.dst hf).trans (rtDst_of_rtLookup he'))
    | add hops hnone => exact routeFor_cons hnone hops d
    | emit => rfl
    | aside ha =>
      unfold routeFor rtLookup
      rw [ha.table]

/-- What the rules and distrust keep of a route, a run of small steps keeps. -/
theorem routeFor_of_trace {h : Heard} {Q : Route → Prop} {m : Result}
    (hrule : ∀ k r r', Q r → r.dst = d → Rule env.inf k h r r' → Q r')
    (hfall : ∀ r, Q r → r.dst = d → Q (r.fall env.inf r.seqno)) (ht : Trace env h x m) (hx : Q (x.routeFor d)) :
    Ends (fun y => Q (y.routeFor d)) m := by
  rintro y rfl
  refine ht.invariant (I := fun z => Q (z.routeFor d)) (fun z w hz hm => ?_) hx
  rcases routeFor_micro hm d with hr | hf
  · exact hrule _ _ _ hz (dst_routeFor z d) hr
  · rw [hf]
    exact hfall _ hz (dst_routeFor z d)

/-- An entry stays in the table. -/
theorem present_of_trace {h : Heard} {m : Result} (ht : Trace env h x m) (he : x.rtLookup d = some e) :
    Ends (fun y => ∃ e', y.rtLookup d = some e') m := by
  rintro y rfl
  refine ht.invariant (I := fun z => ∃ e', z.rtLookup d = some e') (fun z w hz hm => ?_) ⟨e, he⟩
  obtain ⟨e₁, he₁⟩ := hz
  obtain ⟨e₂, he₂, -⟩ := hm.rtLookup he₁
  exact ⟨e₂, he₂⟩

/-! ## Before the route entry -/

/-- No route is changed, and nothing is sent. -/
structure Idle (x y : Exec) : Prop where
  routes : ∀ d, y.routeFor d = x.routeFor d
  sent : y.sent = x.sent
  maxPaths : y.teaomdvMaxPaths = x.teaomdvMaxPaths
  lenDiff : y.teaomdvPrimAltPathLenDiff = x.teaomdvPrimAltPathLenDiff
  queue : y.rqueue = x.rqueue

theorem Idle.refl (x : Exec) : x.Idle x := ⟨fun _ => rfl, rfl, rfl, rfl, rfl⟩

/-- The lookup that adds a missing entry. -/
theorem rtEnsure_idle (d : NsAddr) :
    Ends (fun y => x.Idle y ∧ y.rtLookup d = some (x.entryFor env d)) (x.rtEnsure env d) := by
  unfold rtEnsure rtAdd entryFor
  cases he : x.rtLookup d with
  | some e => exact Ends.ok ⟨.refl x, he⟩
  | none => exact Ends.ok ⟨⟨routeFor_cons he env.unsetHops, rfl, rfl, rfl, rfl⟩, List.find?_cons_of_pos (by simp)⟩

theorem prepareRequest_idle (rq : Rreq) :
    Ends (fun y => x.Idle y ∧ y.rtLookup rq.rqSrc = some (x.entryFor env rq.rqSrc)) (x.prepareRequest env rq) := by
  unfold prepareRequest
  obtain ⟨ids, hids⟩ : ∃ ids, (if (x.idGet rq.rqSrc rq.rqBcastId).isSome then x
      else x.idInsert env rq.rqSrc rq.rqBcastId) = { x with bihead := ids } := by
    split
    · exact ⟨x.bihead, rfl⟩
    · exact ⟨_, rfl⟩
  rw [hids]
  refine Ends.mono (rtEnsure_idle rq.rqSrc) (fun y hy => ⟨?_, hy.2⟩)
  exact ⟨hy.1.routes, hy.1.sent, hy.1.maxPaths, hy.1.lenDiff, hy.1.queue⟩

end Exec

/-- A RREQ of node 1 with number 4 comes in from a neighbour. -/
def Agent.requestFrom (saddr : NsAddr) (hops bid : Nat) : Call where
  env := { inf := 65535, now := 1 }
  heap := 1
  inp := .recv { ptr := 0, saddr := saddr, daddr := ipBroadcast, sport := rtPort, dport := rtPort, ttl := 20, prevHop := saddr
                 body := .rreq ⟨hops, bid, 9, 0, 1, 4, 0, saddr, trustThreshold, 1, 1⟩ }

end TeAomdv

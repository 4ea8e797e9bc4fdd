import TeAomdv.LinkFailure
import TeAomdv.Waiting
/-!
# Forsake — when distrust takes the last path of a live entry

`forward` deletes the first path of an entry when a CBR packet finds it distrusted, and brings the entry down under the
number it has when that path was the last.  Whether an invocation does so to an entry with an even number can be read off
the state before it (`Exec.forsakes`): off the entry's paths, the trust of their next hops, and the packets about to be
forwarded on it.  An invocation that does not leaves a calm log (`Exec.handle_calm`).
-/
namespace TeAomdv

open Fallible (Ends Outcome ok_bind)

namespace Exec

/-! ## The state before -/

/-- These packets, and the failures of these links between them, take the last path of the entry by distrust, while it is
live with an even number. -/
def sheds (x : Exec) (rt : RtEntry) (is : List (NsAddr ⊕ Packet)) : Bool :=
  decide (rt.rtFlags = .up ∧ rt.rtSeqno % 2 = 0) &&
    Wear.strips Prod.fst Prod.snd x.tests (rt.rtPathList.map x.mark) is

/-- The data packet as `recv` hands it to `rt_resolve`. -/
def resolved (x : Exec) (p : Packet) : Option Packet :=
  if p.daddr = ipBroadcast then none
  else if p.saddr = x.index then
    if p.numForwards = 0 then some { p with salvageCount := 0, ttl := networkDiameter } else none
  else some { p with ttl := p.ttl - 1 }

/-- The packet may be salvaged on the entry for `d`. -/
def salvages (d : NsAddr) (p : Packet) : Bool :=
  p.daddr = d ∧ dataPacket p.ptype ∧ p.salvageCount < teaomdvMaxSalvageCount

/-- What `nb_purge` does to the entry for `d`, in order: the link to a silent neighbour fails, packets are salvaged. -/
def severings (env : Env) (ifq : NsAddr → List Packet) (d : NsAddr) (nbs : List Neighbor) : List (NsAddr ⊕ Packet) :=
  (nbs.filter (fun nb => nb.nbExpire ≤ env.now)).flatMap (fun nb =>
    .inl nb.nbAddr :: ((ifq nb.nbAddr).filter (salvages d)).map .inr)

/-- The invocation takes the last path of a live entry with an even number by distrust: a RREQ or RREP once it is recorded,
a data packet, the packets `rt_purge` sends off, or those `nb_purge` salvages.  (RREQs and RREPs have even numbers.) -/
def forsakes (env : Env) (x : Exec) : Input → Bool
  | .recv p =>
    if p.ptype = .teaomdv then match p.body with
      | .rreq rq => (x.requestPaths env p rq).any (fun ps => x.WearsOut ps (x.buffered env rq.rqSrc))
      | .rrep rp => (x.replyPaths env p rp).any (fun ps => x.WearsOut ps (x.buffered env rp.rpDst))
      | _ => false
    else (x.resolved p).any (fun q => (x.rtLookup q.daddr).any (fun rt => x.sheds rt [.inr q]))
  | .timer .routeCache =>
    x.rtable.any (fun rt => ¬ rt.rtExpire < env.now && x.sheds rt ((x.buffered env rt.rtDst).map .inr))
  | .timer (.neighbor ifq) => x.rtable.any (fun rt => x.sheds rt (severings env ifq rt.rtDst x.nbhead))
  | _ => false

variable {env : Env} {x y z : Exec} {d d' id : NsAddr} {n : Nat} {e : RtEntry} {p q : Packet} {is : List (NsAddr ⊕ Packet)}

/-! ## An entry under way -/

/-- Within an invocation that began in `x`, with these items still to come for the entry for `d`: the entry is live with
number `n` and is not stripped by them, or it has another number. -/
structure Bears (x : Exec) (d : NsAddr) (n : Nat) (is : List (NsAddr ⊕ Packet)) (y : Exec) : Prop where
  rep : y.toAgent.Rep
  here : y.hereAddr = x.hereAddr
  entry : ∃ e, y.rtLookup d = some e ∧ (e.rtFlags ≠ .up → e.rtSeqno ≠ n) ∧ (e.rtFlags = .up → e.rtSeqno = n ∧
    (∀ f ∈ e.rtPathList, y.trustOf f.nexthop = x.trustOf f.nexthop) ∧
    Wear.strips Prod.fst Prod.snd x.tests (e.rtPathList.map x.mark) is = false)

/-- The entry for `d` is live, or has another number than `n`. -/
def Stands (d : NsAddr) (n : Nat) (y : Exec) : Prop := ∃ e, y.rtLookup d = some e ∧ (e.rtFlags ≠ .up → e.rtSeqno ≠ n)

theorem map_mark_congr {fs : List Path} (h : ∀ f ∈ fs, y.trustOf f.nexthop = x.trustOf f.nexthop) :
    fs.map y.mark = fs.map x.mark := by
  refine List.map_congr_left (fun f hf => ?_)
  unfold mark distrusts
  rw [h f hf]

theorem tests_congr (hh : y.hereAddr = x.hereAddr) (p : Packet) : y.tests p = x.tests p := by
  unfold tests forMe
  rw [hh]

/-- No packet goes out on an entry that is not up. -/
theorem forward_idle (hno : ∀ e, y.rtLookup d = some e → e.rtFlags ≠ .up) (p : Packet) (delay : ℚ) :
    Ends (fun z => ∃ a, z = y.say a) (y.forward env (some d) p delay) := by
  unfold forward
  split
  · exact Ends.ok ⟨_, rfl⟩
  split
  · exact Ends.ok ⟨_, rfl⟩
  simp only
  unfold forwardRoute
  cases he : y.rtLookup d with
  | none => exact Ends.error _
  | some e =>
    simp only [if_pos (hno e he)]
    exact Ends.error _

/-- An entry that is live after a link failure has the number it had. -/
theorem rtSeqno_cut {inf : Nat} (hup : (e.cut inf id).rtFlags = .up) : (e.cut inf id).rtSeqno = e.rtSeqno := by
  unfold RtEntry.cut at hup ⊢
  split
  · rename_i hf
    have hdown := (RtEntry.rtPathList_cut_of_falls hf inf).2
    unfold RtEntry.cut at hdown
    rw [hdown] at hup
    cases hup
  · split
    · exact rtSeqno_pathDelete e id
    · rfl

/-- A link failure wears the marks of the paths. -/
theorem marks_cut {m : Int} (he : e.Rep m) (x : Exec) (inf : Nat) : (e.cut inf id).rtPathList.map x.mark =
    Wear.shed Prod.fst Prod.snd x.tests (e.rtPathList.map x.mark) (.inl id) := by
  show _ = (e.rtPathList.map x.mark).eraseP (fun a => a.1 = id)
  rw [List.eraseP_map, (RtEntry.cut_cutOff he inf id).kept]
  refine congrArg (List.map x.mark) (Eq.trans ?_ (Keyed.eraseP_eq_filter Path.nexthop he.nexthops id).symm)
  exact List.filter_congr (fun _ _ => by simp)

/-- A deleted neighbour takes its own trust along, and no other. -/
theorem trustOf_linkFailed (hnb : z.nbhead = y.nbhead.eraseP (fun nb => nb.nbAddr = id)) {a : NsAddr} (ha : a ≠ id) :
    (z.linkFailed env id).trustOf a = y.trustOf a := by
  have hsame : (y.nbhead.eraseP (fun nb => nb.nbAddr = id)).find? (fun nb => nb.nbAddr = a) =
      y.nbhead.find? (fun nb => nb.nbAddr = a) := by
    refine Keyed.find?_eraseP_ne (fun nb hnb => ?_) y.nbhead
    rw [of_decide_eq_true hnb]
    exact decide_eq_false ha.symm
  unfold trustOf nbLookup
  rw [nbhead_linkFailed, hnb, hsame]

namespace Bears

/-- A live entry, before anything is done to it. -/
theorem start (hx : x.toAgent.Rep) (he : x.rtLookup d = some e) (hup : e.rtFlags = .up) (heven : e.rtSeqno % 2 = 0)
    (hs : x.sheds e is = false) : x.Bears d e.rtSeqno is x := by
  refine ⟨hx, rfl, e, he, fun h => absurd hup h, fun _ => ⟨rfl, fun _ _ => rfl, ?_⟩⟩
  unfold sheds at hs
  rwa [decide_eq_true ⟨hup, heven⟩, Bool.true_and] at hs

theorem stands (hb : x.Bears d n is y) : Stands d n y := by
  obtain ⟨e, he, hdown, -⟩ := hb.entry
  exact ⟨e, he, hdown⟩

/-- No more is to come. -/
theorem stop (hb : x.Bears d n is y) : x.Bears d n [] y := by
  obtain ⟨e, he, hdown, hup⟩ := hb.entry
  exact ⟨hb.rep, hb.here, e, he, hdown, fun h => ⟨(hup h).1, (hup h).2.1, Wear.strips_nil _⟩⟩

/-- Something else is done. -/
theorem spares (hb : x.Bears d n is y) (hs : Spares d' y z) (hne : d ≠ d') (hrep : z.toAgent.Rep) : x.Bears d n is z := by
  obtain ⟨e, he, hdown, hup⟩ := hb.entry
  refine ⟨hrep, hs.here.trans hb.here, e, (hs.others d hne).trans he, hdown, fun h => ?_⟩
  obtain ⟨hn, htrust, hstrip⟩ := hup h
  exact ⟨hn, fun f hf => (hs.trust _).trans (htrust f hf), hstrip⟩

theorem aside (hb : x.Bears d n is y) (ha : Aside y z) (hs : Spares d y z) : x.Bears d n is z := by
  obtain ⟨e, he, hdown, hup⟩ := hb.entry
  refine ⟨hb.rep.aside ha, hs.here.trans hb.here, e, (rtLookup_congr ha.table d).trans he, hdown, fun h => ?_⟩
  obtain ⟨hn, hf, hstrip⟩ := hup h
  exact ⟨hn, fun f hm => (hs.trust _).trans (hf f hm), hstrip⟩

/-- A packet is forwarded on the entry. -/
theorem forward (hb : x.Bears d n (.inr q :: is) y) (hp : p.Plain) (ht : x.tests p = x.tests q) (delay : ℚ) :
    Ends (x.Bears d n is) (y.forward env (some d) p delay) := by
  intro z hz
  have htrace : Trace env .nothing y (y.forward env (some d) p delay) := forward_some_trace (fun h => absurd hp h) delay
  have hrep : z.toAgent.Rep := rep_of_trace htrace hb.rep z hz
  obtain ⟨e, he, hdown, hlive⟩ := hb.entry
  have hk : e.Kept := (hb.rep.entries e (mem_of_rtLookup he)).toKept
  by_cases hup : e.rtFlags = .up
  swap
  · have hno : ∀ e', y.rtLookup d = some e' → e'.rtFlags ≠ .up := by
      rintro _ he'
      obtain rfl := Option.some.inj (he.symm.trans he')
      exact hup
    obtain ⟨a, rfl⟩ := forward_idle hno p delay z hz
    exact ⟨hrep, hb.here, e, he, hdown, fun h => absurd h hup⟩
  obtain ⟨f, fs, hpaths⟩ := List.exists_cons_of_ne_nil (hk.2.1 hup)
  obtain ⟨hn, htrust, hstrip⟩ := hlive hup
  obtain ⟨hlast, hrest⟩ := Wear.strips_cons_eq_false.1 hstrip
  obtain ⟨e', hl, hm⟩ := (forward_outcome env he hk hpaths p delay).ends z hz
  have hseq : e'.rtSeqno = e.rtSeqno := by
    obtain ⟨r, hr, hs⟩ := steps_nothing_seqno (htrace.of_ok hz) (routeOf_of_rtLookup he)
    obtain rfl := Option.some.inj ((routeOf_of_rtLookup hl.entry).symm.trans hr)
    exact hs
  have htrust' : ∀ g ∈ e'.rtPathList, y.trustOf g.nexthop = x.trustOf g.nexthop := by
    intro g hg
    have hmem : y.mark g ∈ (f :: fs).map y.mark := by
      have hmem : y.mark g ∈ e'.rtPathList.map y.mark := List.mem_map_of_mem hg
      rw [hm] at hmem
      split at hmem
      · exact List.mem_cons_of_mem _ hmem
      · exact hmem
    obtain ⟨g', hg', heq⟩ := List.mem_map.1 hmem
    have hnext : g'.nexthop = g.nexthop := congrArg Prod.fst heq
    rw [← hnext]
    exact htrust g' (hpaths ▸ hg')
  have hshed : e'.rtPathList.map x.mark =
      Wear.shed Prod.fst Prod.snd x.tests (e.rtPathList.map x.mark) (.inr q : NsAddr ⊕ Packet) := by
    have hmarks : (f :: fs).map y.mark = (f :: fs).map x.mark := map_mark_congr (fun g hg => htrust g (hpaths ▸ hg))
    rw [List.map_cons, List.map_cons] at hmarks
    obtain ⟨hf, hfs⟩ := List.cons.inj hmarks
    rw [← map_mark_congr htrust', hm, tests_congr hb.here, ht, List.map_cons, hf, hfs, hpaths]
    have hbad : y.distrusts f = (x.mark f).2 := congrArg Prod.snd hf
    rw [hbad]
    rfl
  refine ⟨hrep, hl.spares.here.trans hb.here, e', hl.entry, fun h => ?_, fun _ => ⟨hseq.trans hn, fun g hg => ?_, ?_⟩⟩
  · have hnil : e'.rtPathList = [] := not_not.1 (fun hne => h (hl.kept.2.2 hne))
    rw [hnil] at hshed
    exact absurd hshed.symm (Wear.shed_inr_ne_nil (by simp [hpaths]) hlast)
  · exact (hl.spares.trust _).trans (htrust' g hg)
  · rw [hshed]
    exact hrest

/-- What is buffered for the entry is sent off. -/
theorem sendBuffered : ∀ (k : Nat) {y : Exec} (delay : ℚ), y.toAgent.Tidy →
    x.Bears d n ((y.buffered env d).map .inr) y → Ends (fun a => x.Bears d n [] a.1) (Exec.sendBuffered env d k (y, delay))
  | 0, _, _, _, hb => Ends.ok hb.stop
  | k + 1, y, delay, hy, hb => by
    have haside := Aside.deque env y d
    unfold Exec.sendBuffered
    rcases deque_spec env y d with ⟨-, hdeque⟩ | ⟨q, z, hdeque, hcons, -, hspare, -⟩
    · rw [hdeque]
      exact Ends.ok (hb.stop.aside (.rqPurge env y) {})
    · rw [hdeque] at haside ⊢
      have hplain : q.Plain := plain_of_ne (hy.data q (mem_of_deque hdeque).1).1
      rw [hcons, List.map_cons] at hb
      have hz : z.toAgent.Tidy := ⟨hy.rep.aside haside, haside.queue hy.data⟩
      have htrace : Trace env .nothing z (z.forward env (some d) q delay) := forward_some_trace (fun h => absurd hplain h) delay
      intro a hm
      obtain ⟨w, hw, hm⟩ := Fallible.bind_eq_ok hm
      have hbuf : w.buffered env d = z.buffered env d := by
        unfold buffered
        rw [forward_queue (some d) delay w hw]
      have hnext := (hb.aside haside hspare).forward hplain rfl delay w hw
      rw [← hbuf] at hnext
      exact sendBuffered k (delay + arpDelay) (hz.steps (htrace.of_ok hw)) hnext a hm

/-- The link to a neighbour fails. -/
theorem cut (hb : x.Bears d n (.inl id :: is) y) (hn : n + 1 < 4294967296) (hrt : z.rtable = y.rtable)
    (hnb : z.nbhead = y.nbhead.eraseP (fun nb => nb.nbAddr = id)) (hh : z.hereAddr = y.hereAddr)
    (hrep : (z.linkFailed env id).toAgent.Rep) : x.Bears d n is (z.linkFailed env id) := by
  obtain ⟨e, he, hdown, hlive⟩ := hb.entry
  have hhere : (z.linkFailed env id).hereAddr = z.hereAddr := by
    unfold linkFailed
    simp only
    split <;> rfl
  have hlook : (z.linkFailed env id).rtLookup d = some (e.cut env.inf id) := by
    rw [rtLookup_linkFailed, rtLookup_congr hrt, he]
    rfl
  have hre := hb.rep.entries e (mem_of_rtLookup he)
  have hc := RtEntry.cut_cutOff hre env.inf id
  refine ⟨hrep, (hhere.trans hh).trans hb.here, _, hlook, fun hnup => ?_, fun hup => ?_⟩
  · by_cases hup : e.rtFlags = .up
    · -- brought down by the failure, so its number grew
      have hnil : (e.cut env.inf id).rtPathList = [] :=
        not_not.1 (fun hne => hnup ((hrep.entries _ (mem_of_rtLookup hlook)).up.2 hne))
      have hlt := (hc.fallen (hre.up.1 hup) hnil).2.2.1
      have := (hlive hup).1
      omega
    · have hnone : e.rtPathList = [] := not_not.1 (fun hne => hup (hre.up.2 hne))
      rw [hc.unchanged (by simp [hnone])]
      exact hdown hup
  · have hkept : e.rtPathList ≠ [] := by
      intro hnil
      have hne := (hrep.entries _ (mem_of_rtLookup hlook)).up.1 hup
      rw [hc.kept, hnil] at hne
      exact hne rfl
    obtain ⟨hseq, htr, hstrip⟩ := hlive (hre.up.2 hkept)
    refine ⟨(rtSeqno_cut hup).trans hseq, fun f hf => ?_, ?_⟩
    · rw [trustOf_linkFailed hnb (hc.clear hup f hf)]
      rw [hc.kept] at hf
      exact htr f (List.mem_of_mem_filter hf)
    · rw [marks_cut hre]
      exact (Wear.strips_cons_eq_false.1 hstrip).2

/-- A packet taken out of the interface queue is salvaged, or not. -/
theorem salvage {qs : List Packet} (hb : x.Bears d n ((((p :: qs).filter (salvages d)).map .inr) ++ is) y) :
    Ends (x.Bears d n ((qs.filter (salvages d)).map .inr ++ is)) (y.salvage env p) := by
  have hsay : Aside y (y.say (.filter p)) := .say y trivial
  have hdrop : ∀ js, x.Bears d n js y → x.Bears d n js ((y.say (.filter p)).drop p .rtrHello) :=
    fun js h => h.aside (hsay.trans (.drop _ p _)) {}
  -- an entry that is not live takes nothing more from the stream
  have hidle : ∀ {i js}, x.Bears d n (i :: js) y → ¬ (y.rtLookup d).any (fun rt => rt.rtFlags = .up) = true → x.Bears d n js y := by
    intro i js h hno
    obtain ⟨e, he, hdown, -⟩ := h.entry
    have hnup : e.rtFlags ≠ .up := fun hup => hno (by simp [he, hup])
    exact ⟨h.rep, h.here, e, he, hdown, fun hup => absurd hup hnup⟩
  have htrace : Trace env .nothing y (y.salvage env p) := salvage_trace y p
  unfold Exec.salvage at htrace ⊢
  simp only at htrace ⊢
  rw [List.filter_cons] at hb
  by_cases hdata : dataPacket p.ptype = true
  swap
  · have hno : ¬ salvages d p = true := fun h => hdata (of_decide_eq_true h).2.1
    rw [if_neg hno] at hb
    rw [if_pos hdata]
    exact Ends.ok (hdrop _ hb)
  have hplain : ({ p with salvageCount := p.salvageCount + 1 } : Packet).Plain :=
    plain_of_ne (fun h => by rw [show p.ptype = .teaomdv from h] at hdata; cases hdata)
  rw [if_neg (not_not.2 hdata)] at htrace ⊢
  by_cases hd : p.daddr = d
  · subst hd
    by_cases hcount : p.salvageCount < teaomdvMaxSalvageCount
    · have hyes : salvages p.daddr p = true := decide_eq_true ⟨rfl, hdata, hcount⟩
      rw [if_pos hyes] at hb
      split
      · exact (hb.aside hsay {}).forward hplain rfl _
      · rename_i hno
        exact Ends.ok (hdrop _ (hidle hb (fun h => hno ⟨h, hcount⟩)))
    · have hno : ¬ salvages p.daddr p = true := fun h => hcount (of_decide_eq_true h).2.2
      rw [if_neg hno] at hb
      rw [if_neg (fun h => hcount h.2)]
      exact Ends.ok (hdrop _ hb)
  · have hno : ¬ salvages d p = true := fun h => hd (of_decide_eq_true h).1
    rw [if_neg hno] at hb
    split
    · rename_i hup
      rw [if_pos hup] at htrace
      obtain ⟨e, he, hflag⟩ := (Option.any_eq_true _ _).1 hup.1
      have hk := (hb.rep.entries e (mem_of_rtLookup (x := y) he)).toKept
      obtain ⟨f, fs, hpaths⟩ := List.exists_cons_of_ne_nil (hk.2.1 (of_decide_eq_true hflag))
      intro z hz
      obtain ⟨e', hl, -⟩ := (forward_outcome env (x := y.say (.filter p)) he hk hpaths _ _).ends z hz
      exact (hb.aside hsay {}).spares hl.spares (fun h => hd h.symm) (rep_of_trace htrace hb.rep z hz)
    · exact Ends.ok (hdrop _ hb)

theorem salvageAll : ∀ (qs : List Packet) {y : Exec}, x.Bears d n ((qs.filter (salvages d)).map .inr ++ is) y →
    Ends (x.Bears d n is) (qs.foldlM (Exec.salvage env) y)
  | [], _, hb => Ends.ok hb
  | p :: qs, y, hb => by
    rw [List.foldlM_cons]
    exact Ends.bind hb.salvage (fun z hz => salvageAll qs hz)

theorem nbDelete {ifq : NsAddr → List Packet}
    (hb : x.Bears d n (.inl id :: (((ifq id).filter (salvages d)).map .inr ++ is)) y) (hn : n + 1 < 4294967296) :
    Ends (x.Bears d n is) (y.nbDelete env ifq id) := by
  intro w hw
  obtain ⟨z, -, hrt, hnb, hh, hrep, hw⟩ := nbDelete_eq_ok hb.rep hw
  exact salvageAll (ifq id) (hb.cut hn hrt hnb hh hrep) w hw

/-- The walk over the neighbours. -/
theorem nbPurge {ifq : NsAddr → List Packet} (hn : n + 1 < 4294967296) : ∀ (nbs : List Neighbor) {y : Exec},
    x.Bears d n (severings env ifq d nbs) y → Ends (x.Bears d n [])
      (nbs.foldlM (fun x nb => if nb.nbExpire ≤ env.now then x.nbDelete env ifq nb.nbAddr else .ok x) y)
  | [], _, hb => Ends.ok hb
  | nb :: nbs, y, hb => by
    rw [List.foldlM_cons]
    unfold severings at hb
    rw [List.filter_cons] at hb
    by_cases hexp : nb.nbExpire ≤ env.now
    · rw [if_pos (decide_eq_true hexp), List.flatMap_cons] at hb
      rw [if_pos hexp]
      exact Ends.bind (hb.nbDelete hn) (fun z hz => nbPurge hn nbs hz)
    · rw [if_neg (by simpa using hexp)] at hb
      rw [if_neg hexp]
      exact Ends.bind (Ends.ok (Q := x.Bears d n (severings env ifq d nbs)) hb) (fun z hz => nbPurge hn nbs hz)

end Bears

/-! ## The walk over the route table -/

/-- Only the entry for `d` changes, and what is buffered for it. -/
structure Apart (env : Env) (d : NsAddr) (y z : Exec) : Prop where
  spares : Spares d y z
  buffered : ∀ d', d' ≠ d → z.buffered env d' = y.buffered env d'

namespace Apart

theorem trans {w : Exec} (h : Apart env d y z) (h' : Apart env d z w) : Apart env d y w where
  spares := h.spares.trans h'.spares
  buffered := fun d' hne => (h'.buffered d' hne).trans (h.buffered d' hne)

theorem of_queue (hs : Spares d y z) (hq : z.rqueue = y.rqueue) : Apart env d y z where
  spares := hs
  buffered := fun d' _ => by
    unfold Exec.buffered
    rw [hq]

theorem rtModify (y : Exec) {f : RtEntry → RtEntry} (hf : ∀ e, (f e).rtDst = e.rtDst) : Apart env d y (y.rtModify d f) :=
  .of_queue (.rtModify y hf) rfl

theorem deque (env : Env) (y : Exec) (d : NsAddr) : Apart env d y (y.deque env d).2 := by
  have hpurge : (y.rqPurge env).rqueue = y.rqueue.filter (fun q => !decide (q.ts < env.now)) := Keyed.eraseAll_eq_filter _
  have hsame : ∀ d', (y.rqPurge env).buffered env d' = y.buffered env d' := by
    intro d'
    rw [buffered_eq, buffered_eq, hpurge, List.filter_filter (l := y.rqueue)]
    simp only [Bool.and_self]
  have hfirst : Apart env d y (y.rqPurge env) := ⟨{}, fun d' _ => hsame d'⟩
  unfold Exec.deque
  simp only
  split
  · exact hfirst
  · refine hfirst.trans ⟨{}, fun d' hne => ?_⟩
    -- the packet taken out was not for `d'`
    have herase := Keyed.filter_eraseP (p := fun q : Packet => decide (q.daddr = d)) (y.rqPurge env).rqueue
    have hfor : ∀ l : List Packet, l.filter (fun q => ¬ q.ts < env.now ∧ q.daddr = d') =
        (l.filter (fun q => !decide (q.daddr = d))).filter (fun q => ¬ q.ts < env.now ∧ q.daddr = d') := by
      intro l
      rw [List.filter_filter]
      refine List.filter_congr (fun q _ => ?_)
      by_cases hd' : q.daddr = d'
      · simp [hd', hne]
      · simp [hd']
    show List.filter _ ((y.rqPurge env).rqueue.eraseP _) = List.filter _ (y.rqPurge env).rqueue
    rw [hfor, herase, ← hfor]

theorem drain {body : Exec → Packet → Result} (hbody : ∀ w q, Ends (Apart env d w) (body w q)) (y : Exec) :
    Ends (Apart env d y) (y.drain env d body) := by
  have loop : ∀ n (y : Exec), Ends (Apart env d y) (drainLoop env d body n y) := by
    intro n
    induction n with
    | zero => exact fun y => Ends.ok ⟨.refl y, fun _ _ => rfl⟩
    | succ n ih =>
      intro y
      have ha := deque env y d
      unfold drainLoop
      split
      · rename_i z hz
        rw [hz] at ha
        exact Ends.ok ha
      · rename_i q z hz
        rw [hz] at ha
        exact Ends.bind (hbody z q) (fun w hw => (ih w).mono (fun v hv => (ha.trans hw).trans hv))
  exact loop _ y

/-- A packet forwarded on an entry. -/
theorem forward (hy : y.toAgent.Rep) (p : Packet) (delay : ℚ) : Ends (Apart env d y) (y.forward env (some d) p delay) := by
  intro z hz
  refine .of_queue ?_ (forward_queue (some d) delay z hz)
  by_cases hno : ∀ e, y.rtLookup d = some e → e.rtFlags ≠ .up
  · obtain ⟨a, rfl⟩ := forward_idle hno p delay z hz
    exact {}
  · push Not at hno
    obtain ⟨e, he, hup⟩ := hno
    have hk := (hy.entries e (mem_of_rtLookup he)).toKept
    obtain ⟨f, fs, hpaths⟩ := List.exists_cons_of_ne_nil (hk.2.1 hup)
    obtain ⟨e', hl, -⟩ := (forward_outcome env he hk hpaths p delay).ends z hz
    exact hl.spares

theorem sendBuffered (d : NsAddr) : ∀ (n : Nat) {y : Exec} (delay : ℚ), y.toAgent.Tidy →
    Ends (fun a => Apart env d y a.1) (Exec.sendBuffered env d n (y, delay))
  | 0, y, _, _ => Ends.ok ⟨.refl y, fun _ _ => rfl⟩
  | n + 1, y, delay, hy => by
    have ha := deque env y d
    have haside := Aside.deque env y d
    unfold Exec.sendBuffered
    split
    · rename_i z hz
      rw [hz] at ha
      exact Ends.ok ha
    · rename_i q z hz
      rw [hz] at ha haside
      have hplain : q.Plain := plain_of_ne (hy.data q (mem_of_deque hz).1).1
      have htidy : z.toAgent.Tidy := ⟨hy.rep.aside haside, haside.queue hy.data⟩
      have htrace : Trace env .nothing z (z.forward env (some d) q delay) := forward_some_trace (fun h => absurd hplain h) delay
      intro a hm
      obtain ⟨w, hw, hm⟩ := Fallible.bind_eq_ok hm
      have hrest := sendBuffered d n (delay + arpDelay) (htidy.steps (htrace.of_ok hw)) a hm
      exact (ha.trans (forward htidy.rep q delay w hw)).trans hrest

theorem sendRequest (y : Exec) (d : NsAddr) : Ends (Apart env d y) (y.sendRequest env d) := by
  have hfree : ∀ w : Exec, Apart env d y w → Apart env d y (w.free y.blank) := fun w h => h.trans (.of_queue {} rfl)
  have halloc : Apart env d y y.alloc := .of_queue {} rfl
  unfold Exec.sendRequest
  simp only
  split
  · exact Ends.error _
  split
  · split
    · exact Ends.error _
    · exact Ends.ok (hfree _ halloc)
  split
  · exact Ends.ok (hfree _ halloc)
  split
  · have hgiven : Apart env d y (y.alloc.rtModify d (fun rt => { rt with rtReqTimeout := env.now + maxRreqTimeout, rtReqCnt := 0 })) :=
      halloc.trans (.rtModify _ (fun _ => rfl))
    have hdrain : ∀ w, Ends (Apart env d w) (w.drain env d (fun x q => .ok (x.drop q .rtrNoRoute))) :=
      drain (fun w q => Ends.ok (.of_queue {} rfl))
    exact Ends.bind (hdrain _) (fun w hw => Ends.ok (hfree w (hgiven.trans hw)))
  · unfold emitRequest
    simp only
    split
    · exact Ends.error _
    · exact Ends.ok ((halloc.trans (.rtModify _ (f := requested env) (fun _ => rfl))).trans (.of_queue {} rfl))

/-- One entry of the walk of `rt_purge`. -/
theorem purgeEntry (hy : y.toAgent.Tidy) (delay : ℚ) (d : NsAddr) :
    Ends (fun a => Apart env d y a.1) (Exec.purgeEntry env (y, delay) d) := by
  have hrefl : Apart env d y y := ⟨.refl y, fun _ _ => rfl⟩
  unfold Exec.purgeEntry
  simp only
  split
  · exact Ends.ok hrefl
  split
  · have hpurged : Apart env d y (y.rtModify d (fun rt => rt.pathPurge env.now)) := .rtModify y (fun _ => rfl)
    have hdrain : ∀ w, Ends (Apart env d w) (w.drain env d (fun x q => .ok (x.drop q .rtrRtexpire))) :=
      drain (fun w q => Ends.ok (.of_queue {} rfl))
    refine Ends.bind (P := fun _ => True) (fun _ _ => trivial) (fun empty _ => ?_)
    cases empty with
    | true =>
      refine Ends.bind (hdrain _) (fun w hw => Ends.ok ?_)
      refine (hpurged.trans hw).trans (.rtModify w (fun e => ?_))
      exact RtEntry.rtDst_rtDown (e.setSeqno _) _
    | false => exact Ends.ok hpurged
  split
  · split
    · exact Ends.error _
    · exact sendBuffered d _ delay hy
  split
  · exact Ends.bind (sendRequest y d) (fun w hw => Ends.ok hw)
  · exact Ends.ok hrefl

end Apart

/-- The entry for `d` has not been reached by the walk, which will not strip it. -/
structure Poised (env : Env) (d : NsAddr) (n : Nat) (y : Exec) : Prop where
  even : n % 2 = 0
  entry : ∃ e, y.rtLookup d = some e ∧ e.rtFlags = .up ∧ e.rtSeqno = n ∧
    (¬ e.rtExpire < env.now → y.sheds e ((y.buffered env d).map .inr) = false)

theorem Poised.apart (hp : Poised env d n y) (ha : Apart env d' y z) (hne : d ≠ d') : Poised env d n z where
  even := hp.even
  entry := by
    obtain ⟨e, he, hup, hseq, hs⟩ := hp.entry
    refine ⟨e, (ha.spares.others d hne).trans he, hup, hseq, fun hexp => ?_⟩
    unfold sheds at hs ⊢
    rw [ha.buffered d hne, funext ha.spares.mark_eq, funext ha.spares.tests_eq]
    exact hs hexp

/-- The walk reaches the entry. -/
theorem Poised.purgeEntry (hp : Poised env d n y) (hy : y.toAgent.Tidy) (delay : ℚ) :
    Ends (fun a => Stands d n a.1) (Exec.purgeEntry env (y, delay) d) := by
  obtain ⟨e, he, hup, hseq, hs⟩ := hp.entry
  have heven := hp.even
  have hd : e.rtDst = d := rtDst_of_rtLookup he
  unfold Exec.purgeEntry
  simp only [he]
  by_cases hexp : e.rtExpire < env.now
  · rw [if_pos ⟨hup, hexp⟩]
    refine Ends.bind (P := fun _ => True) (fun _ _ => trivial) (fun empty _ => ?_)
    have hpurged : (y.rtModify d (fun rt => rt.pathPurge env.now)).rtLookup d = some (e.pathPurge env.now) :=
      rtLookup_rtModify he hd
    cases empty with
    | true =>
      -- the number of an entry that expires is odd
      obtain ⟨w, hw, ha⟩ := drain_drop env (y.rtModify d (fun rt => rt.pathPurge env.now)) d .rtrRtexpire
      have hlook : (w.rtModify d (expired env.inf)).rtLookup d = some (expired env.inf (e.pathPurge env.now)) :=
        rtLookup_rtModify ((rtLookup_congr ha.table d).trans hpurged)
          ((RtEntry.rtDst_rtDown ((e.pathPurge env.now).setSeqno _) _).trans hd)
      have hroute := RtEntry.route_expired (e := e.pathPurge env.now) (by rw [show (e.pathPurge env.now).rtFlags = .up from hup]; nofun) env.inf
      have hnum : (expired env.inf (e.pathPurge env.now)).rtSeqno = (e.pathPurge env.now).route.expiredSeqno :=
        congrArg Route.seqno hroute
      have hodd := Route.odd_expiredSeqno (e.pathPurge env.now).route
      rw [if_pos rfl, hw]
      exact Ends.ok ⟨_, hlook, fun _ => by omega⟩
    | false => exact Ends.ok ⟨_, hpurged, fun h => absurd hup h⟩
  · have hno : ¬ (e.rtFlags = .up ∧ e.rtExpire < env.now) := fun h => hexp h.2
    rw [if_neg hno, if_pos hup]
    split
    · exact Ends.error _
    · subst hseq
      exact ((Bears.start hy.rep he hup heven (hs hexp)).sendBuffered _ delay hy).mono (fun _ hb => hb.stands)

/-- The rest of the walk, with the entry still to come or behind it. -/
theorem purgeWalk_stands : ∀ (ds : List NsAddr) {y : Exec} (delay : ℚ), y.toAgent.Tidy → ds.Nodup →
    (d ∈ ds → Poised env d n y) → (d ∉ ds → Stands d n y) →
      Ends (fun a => Stands d n a.1) (ds.foldlM (Exec.purgeEntry env) (y, delay))
  | [], _, _, _, _, _, hstand => Ends.ok (hstand List.not_mem_nil)
  | d' :: ds, y, delay, hy, hnd, hpoise, hstand => by
    obtain ⟨hnew, hnd⟩ := List.nodup_cons.1 hnd
    rw [List.foldlM_cons]
    intro b hm
    obtain ⟨⟨z, delay'⟩, ha, hm⟩ := Fallible.bind_eq_ok hm
    have hz : z.toAgent.Tidy := hy.steps ((purgeEntry_trace (h := .clock) rfl hy.data delay d').of_ok ha)
    have hapart : Apart env d' y z := Apart.purgeEntry hy delay d' _ ha
    refine purgeWalk_stands ds delay' hz hnd (fun hd => ?_) (fun hd => ?_) b hm
    · exact (hpoise (List.mem_cons_of_mem _ hd)).apart hapart (ne_of_mem_of_not_mem hd hnew)
    · by_cases hdd : d = d'
      · subst hdd
        exact (hpoise List.mem_cons_self).purgeEntry hy delay _ ha
      · obtain ⟨e, he, hdown⟩ := hstand (fun h => (List.mem_cons.1 h).elim hdd hd)
        exact ⟨e, (hapart.spares.others d hdd).trans he, hdown⟩

/-- **`rt_purge` forsakes no entry its packets do not strip.** -/
theorem rtPurge_stands (hx : x.toAgent.Tidy) (hk : x.forsakes env (.timer .routeCache) = false)
    (he : x.rtLookup d = some e) (hup : e.rtFlags = .up) (heven : e.rtSeqno % 2 = 0) :
    Ends (Stands d e.rtSeqno) (x.rtPurge env) := by
  unfold rtPurge
  have hmem := mem_of_rtLookup he
  have hd := rtDst_of_rtLookup he
  refine Ends.bind (purgeWalk_stands (x.rtable.map (·.rtDst)) 0 hx hx.rep.dsts (fun _ => ?_) (fun hno => ?_))
    (fun a ha => Ends.ok ha)
  · refine ⟨heven, e, he, hup, rfl, fun hexp => ?_⟩
    have hall := List.any_eq_false.1 hk e hmem
    rw [hd, Bool.and_eq_true, decide_eq_true hexp] at hall
    simpa using hall
  · exact absurd (List.mem_map.2 ⟨e, hmem, hd⟩) hno

/-- **`nb_purge` forsakes no entry its failures and packets do not strip.** -/
theorem nbPurge_stands {ifq : NsAddr → List Packet} (hx : x.toAgent.Rep)
    (hk : x.forsakes env (.timer (.neighbor ifq)) = false) (he : x.rtLookup d = some e) (hup : e.rtFlags = .up)
    (heven : e.rtSeqno % 2 = 0) (hlim : e.rtSeqno + 1 < 4294967296) : Ends (Stands d e.rtSeqno) (x.nbPurge env ifq) := by
  have hs := List.any_eq_false.1 hk e (mem_of_rtLookup he)
  rw [rtDst_of_rtLookup he, Bool.not_eq_true] at hs
  exact ((Bears.start hx he hup heven hs).nbPurge hlim x.nbhead).mono (fun _ hb => hb.stands)

end Exec

end TeAomdv

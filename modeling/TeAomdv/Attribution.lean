import TeAomdv.Track
/-!
# Attribution — which hop a forwarded packet names

`forward` moves the previous hops on each time it runs: a packet that went through it once names the node and who the
node got it from.  A salvaged packet goes through it again, and names the node twice.  As long as no packet can be
salvaged, every data packet sent names the right two nodes (`attributed_of_reach`).
-/
namespace TeAomdv

open Fallible (Ends)

/-! ## Packets to be salvaged -/

/-- With the neighbours `ids` deleted the packet, found in the interface queue, has a path left to be salvaged on. -/
def Agent.spares (a : Agent) (ids : List NsAddr) (p : Packet) : Bool :=
  dataPacket p.ptype ∧ p.salvageCount < teaomdvMaxSalvageCount ∧
    (a.rtable.find? (fun e => e.rtDst = p.daddr)).any (fun rt =>
      rt.rtFlags = .up ∧ rt.rtPathList.any (fun path => path.nexthop ∉ ids))

/-- `nb_purge`, going through these neighbours with some deleted already, finds no packet to salvage. -/
def Agent.unsalvaged (a : Agent) (now : ℚ) (ifq : NsAddr → List Packet) : List NsAddr → List Neighbor → Bool
  | _, [] => true
  | ids, nb :: nbs =>
    if nb.nbExpire ≤ now then
      (ifq nb.nbAddr).all (fun p => !a.spares (nb.nbAddr :: ids) p) && a.unsalvaged now ifq (nb.nbAddr :: ids) nbs
    else a.unsalvaged now ifq ids nbs

/-- No packet is salvaged. -/
def Net.unsalvaged (net : Net) (ev : Event) : Bool :=
  match ev.what with
  | .neighborTimer ks => (net.node ev.node).unsalvaged ev.now (fun id => net.queued ev.node (ks id) id) []
      (net.node ev.node).nbhead
  | _ => true

/-! ## What a link failure leaves -/

namespace RtEntry

/-- What the failure of the links to `ids` leaves of an entry: its precursors, and some of its paths; one at least, if it
is up, and none by way of `ids`. -/
structure Shed (ids : List NsAddr) (e e' : RtEntry) : Prop where
  precursors : e'.rtPclist = e.rtPclist
  paths : e'.rtPathList.Sublist e.rtPathList
  up : e'.rtFlags = .up → e.rtFlags = .up
  left : e'.rtFlags = .up → e.rtPathList ≠ [] → e'.rtPathList ≠ []
  avoids : e'.rtFlags = .up → ∀ path ∈ e'.rtPathList, path.nexthop ∉ ids

variable {ids ids' : List NsAddr} {e e' e'' : RtEntry} {id : NsAddr}

theorem Shed.refl (e : RtEntry) : Shed [] e e := ⟨rfl, List.Sublist.refl _, id, fun _ h => h, fun _ _ _ => List.not_mem_nil⟩

theorem Shed.mono (h : Shed ids e e') (hsub : ids' ⊆ ids) : Shed ids' e e' :=
  ⟨h.precursors, h.paths, h.up, h.left, fun hup path hp hm => h.avoids hup path hp (hsub hm)⟩

theorem Shed.trans (h : Shed ids e e') (h' : Shed ids' e' e'') : Shed (ids' ++ ids) e e'' where
  precursors := h'.precursors.trans h.precursors
  paths := h'.paths.trans h.paths
  up hup := h.up (h'.up hup)
  left hup hne := h'.left hup (h.left (h'.up hup) hne)
  avoids hup path hp hm := by
    rcases List.mem_append.1 hm with hm | hm
    · exact h'.avoids hup path hp hm
    · exact h.avoids (h'.up hup) path (h'.paths.subset hp) hm

theorem nexthop_ne_of_mem_pathDelete (hnd : (e.rtPathList.map (·.nexthop)).Nodup) {path : Path}
    (hp : path ∈ (e.pathDelete id).rtPathList) : path.nexthop ≠ id := by
  unfold pathDelete at hp
  split at hp
  · rintro rfl
    exact Keyed.key_ne_of_mem_eraseP Path.nexthop hnd hp rfl
  · rename_i hnone
    rintro rfl
    refine hnone ?_
    unfold pathLookup
    rw [List.find?_isSome]
    exact ⟨path, hp, by simp⟩

theorem pathDelete_sublist (e : RtEntry) (id : NsAddr) : (e.pathDelete id).rtPathList.Sublist e.rtPathList := by
  unfold pathDelete
  split
  · exact List.eraseP_sublist
  · exact List.Sublist.refl _

end RtEntry

namespace Exec

variable {env : Env} {x y : Exec} {d id : NsAddr} {ids : List NsAddr}

/-- Every entry of `y` is what the failure of the links to `ids` left of one of `x`. -/
def Shed (ids : List NsAddr) (x y : Exec) : Prop :=
  ∀ d e', y.rtLookup d = some e' → ∃ e, x.rtLookup d = some e ∧ e.Shed ids e'

/-- One entry was replaced by what is left of it. -/
theorem shed_put {rt e₁ : RtEntry} (hrt : x.rtLookup d = some rt) (hd : e₁.rtDst = d) (h : rt.Shed [id] e₁) :
    ∀ d' e', (x.put d e₁).rtLookup d' = some e' →
      ∃ e, x.rtLookup d' = some e ∧ e.Shed (if d' = d then [id] else []) e' := by
  intro d' e' he'
  by_cases hdd : d' = d
  · subst hdd
    rw [rtLookup_put hrt hd] at he'
    obtain rfl := Option.some.inj he'
    exact ⟨rt, hrt, by rw [if_pos rfl]; exact h⟩
  · rw [rtLookup_put_ne hd hdd] at he'
    exact ⟨e', he', by rw [if_neg hdd]; exact .refl e'⟩

theorem failEntry_shed {acc : Exec × List (NsAddr × Nat)} (hnd : ∀ e, acc.1.rtLookup d = some e →
      (e.rtPathList.map (·.nexthop)).Nodup) :
    Ends (fun acc' => ∀ d' e', acc'.1.rtLookup d' = some e' → ∃ e, acc.1.rtLookup d' = some e ∧
      e.Shed (if d' = d then [id] else []) e') (failEntry env id acc d) := by
  intro acc' hok
  rcases failEntry_cases hok with ⟨rfl, hno⟩ | ⟨rt, hrt, hup, -, hcase⟩
  · intro d' e' he'
    refine ⟨e', he', ?_⟩
    split
    · rename_i hd
      exact ⟨rfl, List.Sublist.refl _, fun h => h, fun _ h => h, fun hup path hp hm =>
        hno e' (hd ▸ he') hup path hp (List.mem_singleton.1 hm)⟩
    · exact .refl e'
  have hd := rtDst_of_rtLookup hrt
  have hflags : (rt.pathDelete id).rtFlags ≠ .down := by rw [rtFlags_pathDelete, hup]; nofun
  have hroute := RtEntry.route_failed hflags env.inf
  have hfall : rt.Shed [id] (failed env.inf (rt.pathDelete id)) := by
    have hnil : (failed env.inf (rt.pathDelete id)).rtPathList = [] := List.map_eq_nil_iff.1 (congrArg Route.hops hroute)
    have hdown : (failed env.inf (rt.pathDelete id)).rtFlags ≠ .up := fun h =>
      nomatch (congrArg Route.flags hroute).symm.trans h
    exact ⟨by simp [failed], hnil ▸ List.nil_sublist _, fun h => absurd h hdown, fun h => absurd h hdown,
      fun h => absurd h hdown⟩
  have hdst : (failed env.inf (rt.pathDelete id)).rtDst = d :=
    (congrArg Route.dst hroute).trans ((rtDst_pathDelete rt id).trans hd)
  rcases hcase with ⟨hne, rfl⟩ | ⟨-, rfl | rfl⟩
  · refine shed_put hrt ((rtDst_pathDelete rt id).trans hd)
      ⟨by simp, rt.pathDelete_sublist id, fun _ => hup, fun _ _ => hne, ?_⟩
    intro _ path hp hm
    exact RtEntry.nexthop_ne_of_mem_pathDelete (hnd rt hrt) hp (List.mem_singleton.1 hm)
  · exact shed_put hrt hdst hfall
  · exact shed_put hrt hdst ⟨hfall.precursors, hfall.paths, hfall.up, hfall.left, hfall.avoids⟩

/-- Every entry has one path by way of a neighbour, and one at least when it is up. -/
structure Routed (x : Exec) : Prop where
  nexthops : ∀ d e, x.rtLookup d = some e → (e.rtPathList.map (·.nexthop)).Nodup
  live : ∀ d e, x.rtLookup d = some e → e.rtFlags = .up → e.rtPathList ≠ []

theorem Shed.nexthops (h : Shed ids x y) (hx : x.Routed) {e : RtEntry} (he : y.rtLookup d = some e) :
    (e.rtPathList.map (·.nexthop)).Nodup := by
  obtain ⟨e₀, he₀, hs⟩ := h d e he
  exact (hx.nexthops d e₀ he₀).sublist (hs.paths.map _)

theorem failWalk_shed : ∀ (ds : List NsAddr) (acc : Exec × List (NsAddr × Nat)),
    (∀ d e, acc.1.rtLookup d = some e → (e.rtPathList.map (·.nexthop)).Nodup) →
    Ends (fun acc' => ∀ d e', acc'.1.rtLookup d = some e' → ∃ e, acc.1.rtLookup d = some e ∧
      e.Shed (if d ∈ ds then [id] else []) e') (ds.foldlM (failEntry env id) acc)
  | [], acc, _ => Ends.ok (fun d e' he' => ⟨e', he', .refl e'⟩)
  | d₀ :: ds, acc, hnd => by
    rw [List.foldlM_cons]
    refine Ends.bind (failEntry_shed (hnd d₀)) (fun acc₁ h₁ => ?_)
    refine Ends.mono (failWalk_shed ds acc₁ (fun d e he => ?_)) (fun acc₂ h₂ d e₂ he₂ => ?_)
    · obtain ⟨e₀, he₀, hs⟩ := h₁ d e he
      exact (hnd d e₀ he₀).sublist (hs.paths.map _)
    · obtain ⟨e₁, he₁, hs₂⟩ := h₂ d e₂ he₂
      obtain ⟨e₀, he₀, hs₁⟩ := h₁ d e₁ he₁
      refine ⟨e₀, he₀, (hs₁.trans hs₂).mono (fun i hi => ?_)⟩
      by_cases hd : d = d₀
      · rw [if_pos (by simp [hd])] at hi
        simp [hd, hi]
      · simpa [hd] using hi

theorem handleLinkFailure_shed (hnd : ∀ d e, x.rtLookup d = some e → (e.rtPathList.map (·.nexthop)).Nodup) :
    Ends (Exec.Shed [id] x) (x.handleLinkFailure env id) := by
  unfold handleLinkFailure
  refine Ends.bind (failWalk_shed _ (x.alloc, []) hnd) (fun acc h => ?_)
  have hend : Exec.Shed [id] x acc.1 := by
    intro d e' he'
    obtain ⟨e, he, hs⟩ := h d e' he'
    have he : x.rtLookup d = some e := he
    have hm : d ∈ x.rtable.map (·.rtDst) := List.mem_map.2 ⟨e, mem_of_rtLookup he, rtDst_of_rtLookup he⟩
    rw [if_pos hm] at hs
    exact ⟨e, he, hs⟩
  obtain ⟨y, slots⟩ := acc
  refine Ends.ok ?_
  show Exec.Shed [id] x (if slots.length > 0 then _ else _)
  split <;> exact hend

/-- A packet that has no path left is not salvaged. -/
theorem salvage_shed (h : Shed ids x y) (hx : x.Routed) {p : Packet} (hp : x.toAgent.spares ids p = false) :
    y.salvage env p = .ok ((y.say (.filter p)).drop p .rtrHello) := by
  unfold salvage
  simp only
  split
  · rfl
  rename_i hdata
  split
  · rename_i hgo
    exfalso
    obtain ⟨hup, hcount⟩ := hgo
    obtain ⟨e', he', hup⟩ := (Option.any_eq_true _ _).1 hup
    have hup : e'.rtFlags = .up := of_decide_eq_true hup
    obtain ⟨e, he, hs⟩ := h p.daddr e' he'
    obtain ⟨path, hpath⟩ := List.exists_mem_of_ne_nil _ (hs.left hup (hx.live _ e he (hs.up hup)))
    have hspares : x.toAgent.spares ids p = true := by
      refine decide_eq_true ⟨not_not.1 hdata, hcount, (Option.any_eq_true _ _).2 ⟨e, he, decide_eq_true ⟨hs.up hup, ?_⟩⟩⟩
      exact List.any_eq_true.2 ⟨path, hs.paths.subset hpath, decide_eq_true (hs.avoids hup path hpath)⟩
    rw [hp] at hspares
    cases hspares
  · rfl

section Purge

variable {T : Terms} (hT : T.Lawful) {ifq : NsAddr → List Packet} (hx : x.Routed)

include hT hx

theorem nbDelete_shed (h : Shed ids x y) (hm : y.Meets T) (hq : ∀ p ∈ ifq id, x.toAgent.spares (id :: ids) p = false) :
    Ends (fun z => z.Meets T ∧ Shed (id :: ids) x z) (y.nbDelete env ifq id) := by
  unfold nbDelete
  simp only
  split
  · exact Ends.error _
  have hm₁ : Meets T { y with seqno := u32 (y.seqno + 2), nbhead := y.nbhead.eraseP (fun nb => nb.nbAddr = id) } :=
    ⟨hm.index, hm.heap, hm.ids, hm.queue, hm.sent, fun nb hnb => hm.nbs nb (List.mem_of_mem_eraseP hnb)⟩
  have h₁ : Shed ids x { y with seqno := u32 (y.seqno + 2), nbhead := y.nbhead.eraseP (fun nb => nb.nbAddr = id) } := h
  intro w hw
  obtain ⟨z, hz, hw⟩ := Fallible.bind_eq_ok hw
  have hz₁ := handleLinkFailure_meets hT id hm₁ z hz
  have hz₂ : Shed (id :: ids) x z := by
    intro d e' he'
    obtain ⟨e₁, he₁, hs₁⟩ := handleLinkFailure_shed (fun d e he => h₁.nexthops hx he) z hz d e' he'
    obtain ⟨e, he, hs⟩ := h d e₁ he₁
    exact ⟨e, he, hs.trans hs₁⟩
  refine Ends.foldlM (Q := fun z => z.Meets T ∧ Shed (id :: ids) x z) (fun v p hp hv => ?_) ⟨hz₁, hz₂⟩ w hw
  rw [salvage_shed hv.2 hx (hq p hp)]
  exact Ends.ok ⟨(hv.1.say (a := .filter p) (fun _ _ h => nomatch h)).drop p _, hv.2⟩

/-- **A purge that finds no packet to salvage sends none**, and takes an entry only paths. -/
theorem nbPurge_shed : ∀ (nbs : List Neighbor) {ids : List NsAddr} {y : Exec}, Shed ids x y → y.Meets T →
    x.toAgent.unsalvaged env.now ifq ids nbs = true → Ends (fun z => z.Meets T ∧ ∃ ids, Shed ids x z)
      (nbs.foldlM (fun x nb => if nb.nbExpire ≤ env.now then x.nbDelete env ifq nb.nbAddr else .ok x) y)
  | [], ids, y, h, hm, _ => Ends.ok ⟨hm, ids, h⟩
  | nb :: nbs, ids, y, h, hm, hun => by
    rw [List.foldlM_cons]
    unfold Agent.unsalvaged at hun
    split at hun
    · rename_i hexp
      obtain ⟨hall, hun⟩ := Bool.and_eq_true_iff.1 hun
      rw [if_pos hexp]
      refine Ends.bind (nbDelete_shed hT hx h hm (fun p hp => ?_)) (fun z hz => nbPurge_shed nbs hz.2 hz.1 hun)
      simpa using List.all_eq_true.1 hall p hp
    · rename_i hexp
      rw [if_neg hexp]
      exact nbPurge_shed nbs h hm hun

end Purge

end Exec

namespace Net

/-! ## Runs -/

/-- A data packet to be forwarded names who the node got it from. -/
def Credits (_ : NsAddr) (t : Trip) (q : Packet) : Prop := ∀ u, t.giver = some u → q.prevHop = u

/-- A data packet sent names the node, and before it who the node got it from. -/
def Credited (i : NsAddr) (t : Trip) (q : Packet) : Prop :=
  q.Data → q.prevHop = i ∧ ∀ u, t.giver = some u → q.pprevHop = u

theorem credited_tells : Tells Credited Credits where
  forward n h _ _ := ⟨rfl, h⟩
  fresh i q hp hd := absurd hp hd.1
  broadcast i t q _ hd h := absurd hd h.2
  origin i q _ u hu := nomatch hu
  pass i src t q q' h hd _ _ hprev u hu := by
    obtain rfl := Option.some.inj hu
    exact hprev.trans (h hd).1
  relay i src t q q' _ _ _ hp' _ hd := absurd hp' hd.1

variable {inf : Nat} {guard : Net → Event → Prop} {net net' : Net} {ev : Event} {t : Trips}

theorem routed_start (h : (net.node ev.node).Rep) : (net.start ev.node).Routed where
  nexthops _ e he := (h.entries e (Exec.mem_of_rtLookup he)).nexthops
  live _ e he hup := (h.entries e (Exec.mem_of_rtLookup he)).up.1 hup

theorem unsalvaged_shed {T : Terms} (hT : T.Lawful) (hrep : (net.node ev.node).Rep) (hm : (net.start ev.node).Meets T)
    {ks : NsAddr → List Nat} (hwhat : ev.what = .neighborTimer ks) (hun : net.unsalvaged ev = true) :
    Ends (fun y => y.Meets T ∧ ∃ ids, Exec.Shed ids (net.start ev.node) y)
      ((net.start ev.node).nbPurge (ev.env inf) (fun id => net.queued ev.node (ks id) id)) := by
  unfold unsalvaged at hun
  rw [hwhat] at hun
  have hun : (net.start ev.node).toAgent.unsalvaged (ev.env inf).now (fun id => net.queued ev.node (ks id) id) []
    (net.start ev.node).nbhead = true := hun
  exact Exec.nbPurge_shed hT (routed_start hrep) _ (fun _ e he => ⟨e, he, .refl e⟩) hm hun

/-- The handler of an event that salvages nothing leaves packets told of by their trips. -/
theorem credited_meets (hs : Tracked Credited Credits (net, t)) (hrep : (net.node ev.node).Rep)
    (hun : net.unsalvaged ev = true) {inp : Input} (hinp : net.input ev = some inp) :
    Ends (Exec.Meets (net.tripTerms Credited Credits ev t)) ((net.start ev.node).handle (ev.env inf) inp) := by
  have hT : (net.tripTerms Credited Credits ev t).Lawful := tripTerms_lawful credited_tells
  by_cases hq : ∃ ifq, inp = .timer (.neighbor ifq)
  · obtain ⟨ifq, rfl⟩ := hq
    obtain ⟨-, -, ks, hwhat, rfl⟩ := input_eq_some hinp
    exact (unsalvaged_shed hT hrep (tripTerms_meets hs) hwhat hun).mono (fun _ h => h.1)
  · refine Exec.handle_meets hT (tripTerms_takes credited_tells hs hinp (fun ifq h => absurd ⟨ifq, h⟩ hq) _)
      (tripTerms_meets hs)

theorem credited_of_reach (hguard : ∀ net ev, guard net ev → net.unsalvaged ev = true) {s : Net × Trips}
    (h : TrackedReach inf guard init s) : Tracked Credited Credits s := by
  refine Runs.Reaches.invariant (P := Tracked Credited Credits) ?_ (fun s ev s' hr hs hg hstep => ?_) h
  · exact ⟨fun _ => rfl, fun _ _ hq => absurd hq List.not_mem_nil, fun _ _ _ hk => nomatch hk⟩
  obtain ⟨inp, x, hinp, hx, hnet, htrips⟩ := trackedStep_eq_some hstep
  obtain ⟨net, t⟩ := s
  obtain ⟨net', t'⟩ := s'
  obtain rfl : net' = net.commit ev.now ev.node x := hnet
  obtain rfl : t' = net.noteTrips ev (net.commit ev.now ev.node x) t := htrips
  have hrep := (tidy_of_reach (Runs.Reaches.of_watch hr) ev.node).1.rep
  exact hs.commit (credited_meets hs hrep (hguard _ _ hg) hinp x hx) ev.now

/-- **Forwarding is attributed to the right hop**, as long as no packet is salvaged: every data packet a node sends names
the node and, before it, who the node got the packet from; and a purge of neighbours records no precursor. -/
theorem attributed_of_reach (hguard : ∀ net ev, guard net ev → net.unsalvaged ev = true) {s : Net × Trips}
    (h : TrackedReach inf guard init s) :
    (∀ (k : Nat) n q, s.1.air[k]? = some (n, q) → q.Data →
      q.prevHop = n ∧ ∀ u, (s.2.aired k).giver = some u → q.pprevHop = u) ∧
    ∀ ev ks net', ev.what = .neighborTimer ks → guard s.1 ev → step inf s.1 ev = some net' →
      ∀ e' ∈ (net'.node ev.node).rtable, ∃ e ∈ (s.1.node ev.node).rtable, e.rtDst = e'.rtDst ∧
        e'.rtPclist = e.rtPclist := by
  have hs := credited_of_reach hguard h
  refine ⟨fun k n q hk => (hs.air k n q hk).1, fun ev ks net' hwhat hg hstep e' he' => ?_⟩
  have hr : Reach inf guard s.1 := Runs.Reaches.of_watch h
  have hrep' := (tidy_of_reach (hr.step hg hstep) ev.node).1.rep
  obtain ⟨inp, x, hinp, hx, rfl⟩ := step_eq_some hstep
  unfold input at hinp
  split at hinp
  · cases hinp
  simp only [hwhat] at hinp
  obtain rfl := Option.some.inj hinp
  have hrep := (tidy_of_reach hr ev.node).1.rep
  obtain ⟨-, ids, hshed⟩ := unsalvaged_shed (tripTerms_lawful credited_tells) hrep (tripTerms_meets hs) hwhat
    (hguard _ _ hg) x hx
  have hnode : ((s.1.commit ev.now ev.node x).node ev.node).rtable = x.rtable := congrArg Agent.rtable (if_pos rfl)
  have hdsts := hrep'.dsts
  rw [hnode] at he' hdsts
  obtain ⟨e, he, hkept⟩ := hshed e'.rtDst e' (Keyed.find?_of_mem_nodup RtEntry.rtDst hdsts he')
  exact ⟨e, Exec.mem_of_rtLookup he, Exec.rtDst_of_rtLookup he, hkept.precursors⟩

/-- Node 1 sends node 5 a packet, which node 2 has handed to node 3 and could have handed to node 4. -/
def twoWays : List Event :=
  [(What.cbr 1 5 0).on 1 1, (What.deliver 0).on 1 2, (What.deliver 1).on 2 3, (What.deliver 1).on 2 4,
    (What.deliver 2).on 3 5, (What.deliver 3).on 3 5, (What.deliver 4).on 4 3, (What.deliver 5).on 4 4,
    (What.deliver 6).on 5 2, (What.deliver 7).on 5 2, (What.deliver 8).on 6 1, (What.deliver 9).on 7 2]

theorem attributed_twoWays : ∃ s, Runs.replay (trackedStep 65535) twoWays (init, {}) = some s ∧ s.1.air.length = 11 ∧
    ∀ (k : Nat) n q, s.1.air[k]? = some (n, q) → q.Data →
      q.prevHop = n ∧ ∀ u, (s.2.aired k).giver = some u → q.pprevHop = u := by
  let guard (net : Net) (ev : Event) : Prop := net.unsalvaged ev = true
  obtain ⟨s, hs, hr, hlen⟩ := Runs.Reaches.of_obeys (fun s ev => s.1.unsalvaged ev) (fun s : Net × Trips => s.1.air.length == 11)
    (fun _ _ h => h) twoWays (.init : TrackedReach 65535 guard init (init, {})) (by decide +kernel)
  exact ⟨s, hs, eq_of_beq hlen, (attributed_of_reach (fun _ _ h => h) hr).1⟩

/-- **A packet salvaged names the node twice**, and the node becomes a precursor of its own route: the link to node 3 fails
with the packet node 1 sent still in the interface queue. -/
theorem not_attributed_twoWays : ∃ s, Runs.replay (trackedStep 65535)
      (twoWays ++ [(What.neighborTimer (fun id => if id = 3 then [10] else [])).on 14 2]) (init, {}) = some s ∧
    (∃ (k : Nat) (q : Packet), s.1.air[k]? = some (2, q) ∧ q.Data ∧ (s.2.aired k).giver = some 1 ∧ q.pprevHop = 2) ∧
    ∃ e ∈ (s.1.node 2).rtable, e.rtDst = 5 ∧ 2 ∈ e.rtPclist := by
  obtain ⟨s, hs, -, hfin⟩ := Runs.Reaches.of_obeys (fun _ _ => true)
    (fun s : Net × Trips => (s.1.air[11]?).any (fun sp => sp.1 = 2 ∧ (sp.2.ptype ≠ .teaomdv ∧ sp.2.daddr ≠ ipBroadcast) ∧
      (s.2.aired 11).giver = some 1 ∧ sp.2.pprevHop = 2) &&
      (s.1.node 2).rtable.any (fun e => e.rtDst = 5 ∧ 2 ∈ e.rtPclist))
    (fun _ _ _ => trivial) (twoWays ++ [(What.neighborTimer (fun id => if id = 3 then [10] else [])).on 14 2])
    (.init : TrackedReach 65535 anyEvent init (init, {})) (by decide +kernel)
  obtain ⟨hair, hpc⟩ := Bool.and_eq_true_iff.1 hfin
  obtain ⟨⟨n, q⟩, hk, hq⟩ := (Option.any_eq_true _ _).1 hair
  obtain ⟨rfl, hd, hgiver, hprev⟩ := of_decide_eq_true hq
  obtain ⟨e, he, hmem⟩ := List.any_eq_true.1 hpc
  exact ⟨s, hs, ⟨11, q, hk, hd, hgiver, hprev⟩, e, he, of_decide_eq_true hmem⟩

end Net

end TeAomdv

import TeAomdv.Numbers
import TeAomdv.World
/-!
# Loops — loop freedom and disjoint routes

Along an edge to a node that has a live entry itself, the number grows or the advertised hop count falls
(`Route.Above`), so the next hops have no cycle.  Along first paths that still are the ones that renewed their entries,
the last hop stays the same, so two paths with different last hops lead to the destination over different nodes.
-/
namespace TeAomdv

open Relation (TransGen ReflTransGen)

namespace Net

variable {inf : Nat} {net : Net} {d i j : NsAddr}

theorem entry_of_mem (htidy : (net.node i).Tidy) {e : RtEntry} (he : e ∈ (net.node i).rtable) (hd : e.rtDst = d) :
    net.entry i d = some e := by
  subst hd
  exact Keyed.find?_of_mem_nodup (fun e : RtEntry => e.rtDst) htidy.rep.dsts he

/-! ## Loop freedom -/

/-- From a node other than `d` to the next hop of a path of its live entry for `d`. -/
def Edge (net : Net) (d i j : NsAddr) : Prop :=
  i ≠ d ∧ ∃ e ∈ (net.node i).rtable, e.rtDst = d ∧ e.rtFlags = .up ∧ ∃ f ∈ e.rtPathList, f.nexthop = j

def LoopFree (net : Net) : Prop := ∀ d i, ¬ TransGen (net.Edge d) i i

/-- The order of nodes along live entries. -/
def NodeAbove (net : Net) (d i j : NsAddr) : Prop :=
  ∃ e e', net.entry i d = some e ∧ net.entry j d = some e' ∧ e.route.Above e'.route

theorem NodeAbove.trans {k : NsAddr} (h : net.NodeAbove d i j) (h' : net.NodeAbove d j k) : net.NodeAbove d i k := by
  obtain ⟨e, e₁, he, he₁, hab⟩ := h
  obtain ⟨e₂, e', he₂, he', hab'⟩ := h'
  obtain rfl := Option.some.inj (he₁.symm.trans he₂)
  exact ⟨e, e', he, he', hab.trans hab'⟩

theorem NodeAbove.irrefl (i : NsAddr) : ¬ net.NodeAbove d i i := by
  rintro ⟨e, e', he, he', hab⟩
  obtain rfl := Option.some.inj (he.symm.trans he')
  exact Route.Above.irrefl _ hab

/-- An edge to a node that has an edge goes up. -/
theorem Edge.above {k : NsAddr} (htidy : ∀ i, (net.node i).Tidy) (hw : World inf net)
    (hl : ∀ i, ∀ e ∈ (net.node i).rtable, e.route.Labelled) (h : net.Edge d i j) (h' : net.Edge d j k) :
    net.NodeAbove d i j := by
  obtain ⟨-, e, he, rfl, hup, f, hf, rfl⟩ := h
  obtain ⟨hjd, e', he', hd', hup', -⟩ := h'
  have hmem : f.hop ∈ e.route.hops := List.mem_map_of_mem hf
  obtain ⟨n, hn, hb⟩ := hw.paths i e he _ hmem
  have hentry := entry_of_mem (htidy _) he' hd'
  refine ⟨e, e', entry_of_mem (htidy i) he rfl, hentry, ?_⟩
  rcases hb with ⟨hs, -⟩ | ⟨-, -, e'', he'', hv⟩
  · exact absurd hs hjd
  · obtain rfl := Option.some.inj (hentry.symm.trans he'')
    exact Route.Above.of_vouches (hl i e he) (hw.ordered i e he) hup hmem hn hup' hv

/-- **The next hops never form a loop**, in a run in which no accepted PTA changes the number of an entry it leaves a
path. -/
theorem loopFree_of_reach (hinf : infinity2 ≤ inf)
    (h : Reach inf (fun net ev => net.unwrapped ev ∧ net.short ev ∧ net.keepsSeqno ev) net) : net.LoopFree := by
  intro d i
  have htidy := fun i => (tidy_of_reach h i).1
  have hw := world_of_reach hinf (fun _ _ hg => ⟨hg.1, hg.2.1⟩) h
  have hl := labels_of_reach (h.mono (fun _ _ hg => hg.2.2))
  exact Runs.acyclic (net.NodeAbove d) NodeAbove.trans NodeAbove.irrefl (fun _ _ _ h h' => h.above htidy hw hl h') i

/-- The test for an edge. -/
def hasEdge (net : Net) (d i j : NsAddr) : Bool :=
  i ≠ d ∧ (net.entry i d).any (fun e => e.rtFlags = .up ∧ e.rtPathList.any (fun f => f.nexthop = j))

theorem edge_of_hasEdge (h : net.hasEdge d i j = true) : net.Edge d i j := by
  obtain ⟨hid, h⟩ := of_decide_eq_true h
  obtain ⟨e, he, hd, hq⟩ := of_entry_any h
  simp only [decide_eq_true_eq, List.any_eq_true] at hq
  exact ⟨hid, e, he, hd, hq⟩

theorem not_loopFree_of_loopEvents : ∃ net, replay 65535 loopEvents = some net ∧
    Reach 65535 (fun net ev => net.unwrapped ev ∧ net.short ev) net ∧ ¬ net.LoopFree := by
  obtain ⟨net, hnet, hr, hfin⟩ := reach_of_obeys 65535 (fun net ev => net.unwrapped ev && net.short ev)
    (fun net => net.hasEdge 1 3 4 && net.hasEdge 1 4 3) (fun _ _ h => Bool.and_eq_true_iff.1 h) loopEvents
    (by decide +kernel)
  obtain ⟨h34, h43⟩ := Bool.and_eq_true_iff.1 hfin
  refine ⟨net, hnet, hr, fun hfree => hfree 1 3 ?_⟩
  exact .tail (.single (edge_of_hasEdge h34)) (edge_of_hasEdge h43)

theorem loopFree_loopEvents : ∃ net, replay 65535 (loopEvents.take 12) = some net ∧ net.Edge 1 4 2 ∧ net.Edge 1 4 3 ∧
    net.LoopFree := by
  obtain ⟨net, hnet, hr, hfin⟩ := reach_of_obeys 65535
    (fun net ev => decide (net.unwrapped ev ∧ net.short ev ∧ net.keepsSeqno ev))
    (fun net => net.hasEdge 1 4 2 && net.hasEdge 1 4 3) (fun _ _ h => of_decide_eq_true h) (loopEvents.take 12)
    (by decide +kernel)
  obtain ⟨h42, h43⟩ := Bool.and_eq_true_iff.1 hfin
  exact ⟨net, hnet, edge_of_hasEdge h42, edge_of_hasEdge h43, loopFree_of_reach (by decide) hr⟩

/-! ## Disjoint routes -/

/-- From a node other than `d` to the next hop of the first path of its live entry for `d`. -/
def Next (net : Net) (d i j : NsAddr) : Prop :=
  i ≠ d ∧ ∃ e f, net.entry i d = some e ∧ e.rtFlags = .up ∧ e.pathFind = some f ∧ f.nexthop = j

/-- The nodes on the route that goes to `j` and on along first paths. -/
def OnRoute (net : Net) (d j m : NsAddr) : Prop := ReflTransGen (net.Next d) j m

/-- Node `m` has a live entry for `d` with number `s`, and its first path is the one that renewed the entry. -/
def Aligned (net : Net) (d : NsAddr) (s : Nat) (m : NsAddr) : Prop :=
  ∃ e f, net.entry m d = some e ∧ e.rtFlags = .up ∧ e.pathFind = some f ∧ e.rtSeqno = s ∧ f.origin = ⟨s, true⟩

theorem mem_of_pathFind {e : RtEntry} {f : Path} (hf : e.pathFind = some f) :
    f ∈ e.rtPathList ∧ f.hop ∈ e.route.hops.head? := by
  refine ⟨List.mem_of_mem_head? hf, ?_⟩
  show f.hop ∈ (e.rtPathList.map Path.hop).head?
  rw [List.head?_map]
  exact Option.mem_map_of_mem _ hf

/-- Along aligned nodes the last hop is that of the first path taken. -/
theorem lasthop_of_onRoute {s : Nat} {l m : NsAddr} (hw : World inf net)
    (hj : j = d ∨ ∃ k, net.Promised j d s k l) (halign : ∀ m, net.OnRoute d j m → m ≠ d → net.Aligned d s m)
    (h : net.OnRoute d j m) : m = d ∨ ∃ k, net.Promised m d s k l := by
  induction h with
  | refl => exact hj
  | @tail m n hm hn ih =>
    obtain ⟨hmd, e, f, he, hup, hf, rfl⟩ := hn
    obtain ⟨k, -, e', he', hv⟩ := ih.resolve_left hmd
    obtain ⟨e₁, f₁, he₁, -, hf₁, hs, ho⟩ := halign m hm hmd
    obtain rfl := Option.some.inj (he.symm.trans he')
    obtain rfl := Option.some.inj (he.symm.trans he₁)
    obtain rfl := Option.some.inj (hf.symm.trans hf₁)
    obtain ⟨hmem, hhead⟩ := mem_of_pathFind hf
    have hl : f.lasthop = l := by
      rcases hv with hv | ⟨-, hv⟩
      · exact absurd hv (by show ¬ s < e.rtSeqno; omega)
      · exact (hv hup).2 f.hop hhead ho
    obtain ⟨hin, hd⟩ := mem_of_entry he
    obtain ⟨k', -, hb⟩ := hw.paths m e hin f.hop (List.mem_map_of_mem hmem)
    rcases hb with ⟨hself, -⟩ | ⟨-, hp⟩
    · exact .inl (hself.trans hd)
    · refine .inr ⟨k', ?_⟩
      have hp : net.Promised f.nexthop e.rtDst f.origin.seqno k' f.lasthop := hp
      rw [hd, ho, hl] at hp
      exact hp

/-- **Two paths of a live entry lead to the destination over different nodes**, as long as every node on the way still
has, under the entry's number, the first path it advertised. -/
theorem disjoint_of_reach (hinf : infinity2 ≤ inf) (h : Reach inf (fun net ev => net.unwrapped ev ∧ net.short ev) net)
    {i d : NsAddr} {e : RtEntry} (he : net.entry i d = some e) {f g : Path} (hf : f ∈ e.rtPathList)
    (hg : g ∈ e.rtPathList) (hfg : f.nexthop ≠ g.nexthop) (hfs : f.origin.seqno = e.rtSeqno) (hgs : g.origin.seqno = e.rtSeqno)
    (halign : ∀ m, net.OnRoute d f.nexthop m ∨ net.OnRoute d g.nexthop m → m ≠ d → net.Aligned d e.rtSeqno m) :
    ∀ m, net.OnRoute d f.nexthop m → net.OnRoute d g.nexthop m → m = d := by
  have hw := world_of_reach hinf (fun _ _ hg => hg) h
  obtain ⟨hin, hd⟩ := mem_of_entry he
  have hrep := (tidy_of_reach h i).1.rep.entries e hin
  have hlast : f.lasthop ≠ g.lasthop := by
    intro heq
    have := List.inj_on_of_nodup_map hrep.lasthops hf hg heq
    exact hfg (congrArg Path.nexthop this)
  have hstart : ∀ p ∈ e.rtPathList, p.origin.seqno = e.rtSeqno →
      p.nexthop = d ∨ ∃ k, net.Promised p.nexthop d e.rtSeqno k p.lasthop := by
    intro p hp hs
    obtain ⟨k, -, hb⟩ := hw.paths i e hin p.hop (List.mem_map_of_mem hp)
    rcases hb with ⟨hself, -⟩ | ⟨-, hb⟩
    · exact .inl (hself.trans hd)
    · refine .inr ⟨k, ?_⟩
      have hb : net.Promised p.nexthop e.rtDst p.origin.seqno k p.lasthop := hb
      rwa [hd, hs] at hb
  intro m hmf hmg
  by_contra hmd
  obtain ⟨e', f', he', hup', hf', hs', ho'⟩ := halign m (.inl hmf) hmd
  have hlasthop : ∀ l, (∃ k, net.Promised m d e.rtSeqno k l) → f'.lasthop = l := by
    rintro l ⟨k, -, e'', he'', hv⟩
    obtain rfl := Option.some.inj (he'.symm.trans he'')
    rcases hv with hv | ⟨-, hv⟩
    · exact absurd hv (by show ¬ e.rtSeqno < e'.rtSeqno; omega)
    · exact (hv hup').2 f'.hop (mem_of_pathFind hf').2 ho'
  have h1 := (lasthop_of_onRoute hw (hstart f hf hfs) (fun m hm => halign m (.inl hm)) hmf).resolve_left hmd
  have h2 := (lasthop_of_onRoute hw (hstart g hg hgs) (fun m hm => halign m (.inr hm)) hmg).resolve_left hmd
  exact hlast ((hlasthop _ h1).symm.trans (hlasthop _ h2))

/-- The next hop of the first path of a live entry. -/
def firstHop (net : Net) (d i : NsAddr) : Option NsAddr :=
  match net.entry i d with
  | none => none
  | some e => if e.rtFlags = .up then e.pathFind.map (·.nexthop) else none

theorem next_iff : net.Next d i j ↔ i ≠ d ∧ net.firstHop d i = some j := by
  unfold Next firstHop
  refine and_congr_right (fun _ => ?_)
  cases net.entry i d with
  | none => simp
  | some e =>
    by_cases hup : e.rtFlags = .up
    · simp [hup]
    · simp [hup]

/-- The test for an aligned node. -/
def isAligned (net : Net) (d : NsAddr) (s : Nat) (m : NsAddr) : Bool :=
  (net.entry m d).any (fun e => e.rtFlags = .up ∧ e.rtSeqno = s ∧ e.pathFind.any (fun f => f.origin = ⟨s, true⟩))

theorem aligned_of_isAligned {s : Nat} {m : NsAddr} (h : net.isAligned d s m = true) : net.Aligned d s m := by
  obtain ⟨e, he, hq⟩ := (Option.any_eq_true _ _).1 h
  obtain ⟨hup, hs, hf⟩ := of_decide_eq_true hq
  obtain ⟨f, hf, ho⟩ := (Option.any_eq_true _ _).1 hf
  exact ⟨e, f, he, hup, hf, hs, of_decide_eq_true ho⟩

/-- Nodes that go to each other's first hops contain the route from each. -/
theorem onRoute_mem {ms : List NsAddr} (hms : ∀ m ∈ ms, m ≠ d → ∀ n, net.firstHop d m = some n → n ∈ ms) (hj : j ∈ ms)
    {m : NsAddr} (h : net.OnRoute d j m) : m ∈ ms := by
  induction h with
  | refl => exact hj
  | tail _ hn ih =>
    obtain ⟨hne, hn⟩ := next_iff.1 hn
    exact hms _ ih hne _ hn

/-- Node 6 has two paths to node 1: through 4, which went on to 2, and through 5, which goes on to 3.  Node 4 had a second
path of its own, through 3, which is the first once the other expires. -/
def crossingEvents : List Event :=
  [(What.cbr 1 9 100).on 0 1, (What.deliver 0).on (1 / 10) 2, (What.deliver 0).on (1 / 10) 3,
    (What.deliver 1).on (2 / 10) 4, (What.deliver 2).on (3 / 10) 4, (What.deliver 2).on (3 / 10) 5,
    (What.deliver 3).on (4 / 10) 6, (What.deliver 4).on (4 / 10) 6, What.routeCacheTimer.on (625 / 100) 4]

theorem crossing_of_crossingEvents : ∃ net, replay 65535 crossingEvents = some net ∧
    Reach 65535 (fun net ev => net.unwrapped ev ∧ net.short ev) net ∧
    ∃ e f g, net.entry 6 1 = some e ∧ e.rtFlags = .up ∧ f ∈ e.rtPathList ∧ g ∈ e.rtPathList ∧ f.nexthop ≠ g.nexthop ∧
      ∃ m, m ≠ 1 ∧ net.OnRoute 1 f.nexthop m ∧ net.OnRoute 1 g.nexthop m := by
  obtain ⟨net, hnet, hr, hfin⟩ := reach_of_obeys 65535 (fun net ev => net.unwrapped ev && net.short ev)
    (fun net => ((net.entry 6 1).any (fun e => e.rtFlags = .up ∧ e.rtPathList.any (fun f => f.nexthop = 4) ∧
      e.rtPathList.any (fun f => f.nexthop = 5))) && (net.firstHop 1 4 = some 3 && net.firstHop 1 5 = some 3))
    (fun _ _ h => Bool.and_eq_true_iff.1 h) crossingEvents (by decide +kernel)
  simp only [Bool.and_eq_true, decide_eq_true_eq] at hfin
  obtain ⟨h6, h4, h5⟩ := hfin
  obtain ⟨e, he, hq⟩ := (Option.any_eq_true _ _).1 h6
  simp only [decide_eq_true_eq, List.any_eq_true] at hq
  obtain ⟨hup, ⟨f, hf, hf4⟩, g, hg, hg5⟩ := hq
  refine ⟨net, hnet, hr, e, f, g, he, hup, hf, hg, by rw [hf4, hg5]; decide, 3, by decide, ?_, ?_⟩
  · rw [hf4]
    exact .single (next_iff.2 ⟨by decide, h4⟩)
  · rw [hg5]
    exact .single (next_iff.2 ⟨by decide, h5⟩)

theorem disjoint_crossingEvents : ∃ net, replay 65535 (crossingEvents.take 8) = some net ∧
    ∃ e f g, net.entry 6 1 = some e ∧ f ∈ e.rtPathList ∧ g ∈ e.rtPathList ∧ f.nexthop = 4 ∧ g.nexthop = 5 ∧
      ∀ m, net.OnRoute 1 f.nexthop m → net.OnRoute 1 g.nexthop m → m = 1 := by
  obtain ⟨net, hnet, hr, hfin⟩ := reach_of_obeys 65535 (fun net ev => net.unwrapped ev && net.short ev)
    (fun net => ((net.entry 6 1).any (fun e => e.rtSeqno = 4 ∧
      e.rtPathList.any (fun f => f.nexthop = 4 ∧ f.origin.seqno = 4) ∧
      e.rtPathList.any (fun f => f.nexthop = 5 ∧ f.origin.seqno = 4))) &&
      [1, 2, 3, 4, 5].all (fun m => m = 1 ∨ net.isAligned 1 4 m ∧ (net.firstHop 1 m).all (fun n => n ∈ [1, 2, 3, 4, 5])))
    (fun _ _ h => Bool.and_eq_true_iff.1 h) (crossingEvents.take 8) (by decide +kernel)
  obtain ⟨h6, hms⟩ := Bool.and_eq_true_iff.1 hfin
  obtain ⟨e, he, hq⟩ := (Option.any_eq_true _ _).1 h6
  simp only [decide_eq_true_eq, List.any_eq_true] at hq
  obtain ⟨hs, ⟨f, hf, hf4, hfs⟩, g, hg, hg5, hgs⟩ := hq
  have hms : ∀ m ∈ [1, 2, 3, 4, 5], m ≠ 1 → net.isAligned 1 4 m = true ∧
      (net.firstHop 1 m).all (fun n => decide (n ∈ [1, 2, 3, 4, 5])) = true :=
    fun m hm hne => (of_decide_eq_true (List.all_eq_true.1 hms m hm)).resolve_left hne
  have hclosed : ∀ m ∈ [1, 2, 3, 4, 5], m ≠ 1 → ∀ n, net.firstHop 1 m = some n → n ∈ [1, 2, 3, 4, 5] := by
    intro m hm hne n hn
    have := (hms m hm hne).2
    rw [hn] at this
    exact of_decide_eq_true this
  refine ⟨net, hnet, e, f, g, he, hf, hg, hf4, hg5, ?_⟩
  refine disjoint_of_reach (by decide) hr he hf hg (by rw [hf4, hg5]; decide) (hfs.trans hs.symm) (hgs.trans hs.symm) ?_
  rw [hf4, hg5, hs]
  rintro m (hm | hm) hne
  · exact aligned_of_isAligned (hms m (onRoute_mem hclosed (by decide) hm) hne).1
  · exact aligned_of_isAligned (hms m (onRoute_mem hclosed (by decide) hm) hne).1

end Net

end TeAomdv

import TeAomdv.Reach
/-!
# World — what the nodes have told each other

A RREQ or RREP is a promise of its sender about its route entry (`Promised`), and a promise once made is kept
(`Promised.micro`).  Every path of every entry, and every routing packet of the air, is backed by the node it leads to or
comes from (`World`), as long as numbers do not wrap and hop counts stay below 255.
-/
namespace TeAomdv

open Exec (Trace)

/-- Where an entry is after a small step: changed by a rule, or brought down for distrust. -/
theorem Micro.rtLookup {env : Env} {h : Heard} {x y : Exec} {d : NsAddr} {e : RtEntry} (hm : Micro env h x y)
    (he : x.rtLookup d = some e) : ∃ e', y.rtLookup d = some e' ∧
      (Rule env.inf x.teaomdvMaxPaths h e.route e'.route ∨ e'.route = e.route.fall env.inf e.rtSeqno) := by
  have hput : ∀ {d' e₁ e₂}, x.rtLookup d' = some e₁ → e₂.rtDst = d' →
      (Rule env.inf x.teaomdvMaxPaths h e₁.route e₂.route ∨ e₂.route = e₁.route.fall env.inf e₁.rtSeqno) →
      ∃ e', (x.put d' e₂).rtLookup d = some e' ∧
        (Rule env.inf x.teaomdvMaxPaths h e.route e'.route ∨ e'.route = e.route.fall env.inf e.rtSeqno) := by
    intro d' e₁ e₂ he₁ hd hr
    by_cases hdd : d = d'
    · subst hdd
      obtain rfl := Option.some.inj (he.symm.trans he₁)
      exact ⟨e₂, Exec.rtLookup_put he₁ hd, hr⟩
    · exact ⟨e, (Exec.rtLookup_put_ne hd hdd).trans he, .inl .keep⟩
  cases hm with
  | entry e' he' hr => exact hput he' (hr.dst.trans (Exec.rtDst_of_rtLookup he')) (.inl hr)
  | distrust e' he' _ hf =>
    exact hput he' ((congrArg Route.dst hf).trans (Exec.rtDst_of_rtLookup he')) (.inr hf)
  | @add d' hops hnone =>
    refine ⟨e, ?_, .inl .keep⟩
    have hne : d' ≠ d := by
      rintro rfl
      rw [hnone] at he
      cases he
    exact (List.find?_cons_of_neg (by simpa using hne)).trans he
  | emit => exact ⟨e, he, .inl .keep⟩
  | aside ha =>
    refine ⟨e, ?_, .inl .keep⟩
    unfold Exec.rtLookup
    rw [ha.table]
    exact he

/-- A rule leaves only paths that were there, or the one heard of. -/
theorem Rule.hops {inf : Nat} {maxPaths : Int} {h : Heard} {r r' : Route} (hr : Rule inf maxPaths h r r') {f : Hop}
    (hf : f ∈ r'.hops) : f ∈ r.hops ∨ ∃ a b, h = .advert a ∧ r.dst = a.dst ∧ f = a.hop b := by
  cases hr with
  | keep | freeze => exact .inl hf
  | lose _ _ _ hsub | errorLose _ _ _ _ _ _ hsub | ptaLose _ _ _ _ _ hsub => exact .inl (hsub.subset hf)
  | renew a hd => exact .inr ⟨a, true, rfl, hd, by simpa using hf⟩
  | extend a hd =>
    rcases List.mem_append.1 hf with hf | hf
    · exact .inl hf
    · exact .inr ⟨a, false, rfl, hd, by simpa using hf⟩
  | errorFall | ptaFall | failed | expired | repaired => cases hf

namespace Net

/-- Node `j` promised number `s`, `k` hops and last hop `l` for `d`. -/
def Promised (net : Net) (j d : NsAddr) (s k : Nat) (l : NsAddr) : Prop :=
  k < infinity2 ∧ ∃ e, net.entry j d = some e ∧ e.route.Vouches s k l

/-- What node `i` hears from the destination itself, or from a node that promised it. -/
def Backs (net : Net) (i : NsAddr) (a : Advert) : Prop :=
  (a.sender = a.dst ∧ a.lasthop = i) ∨ (a.sender ≠ a.dst ∧ net.Promised a.sender a.dst a.seqno a.hops a.lasthop)

/-- A packet of the air, from `src`: an advertisement of itself, or of what it promised. -/
def Backed (net : Net) (src : NsAddr) (p : Packet) : Prop :=
  p.ptype = .teaomdv → match p.body with
    | .rreq rq => p.saddr = src ∧ ((rq.rqSrc = src ∧ rq.rqHopCount = 0) ∨
        (rq.rqSrc ≠ src ∧ 0 < rq.rqHopCount ∧ net.Promised src rq.rqSrc rq.rqSrcSeqno rq.rqHopCount rq.rqFirstHop))
    | .rrep rp => rp.rpSrc = src ∧ ((rp.rpDst = src ∧ p.linkDst = rp.rpFirstHop ∧ p.linkDst ≠ ipBroadcast) ∨
        (rp.rpDst ≠ src ∧ net.Promised src rp.rpDst rp.rpDstSeqno rp.rpHopCount rp.rpFirstHop))
    | _ => True

/-- The path is of a length one more than what its next hop promised. -/
def PathBacked (net : Net) (i d : NsAddr) (f : Hop) : Prop :=
  ∃ k, f.hopcount = k + 1 ∧ net.Backs i ⟨d, f.origin.seqno, k, f.nexthop, f.lasthop⟩

structure World (inf : Nat) (net : Net) : Prop where
  ordered : ∀ i, ∀ e ∈ (net.node i).rtable, e.route.Ordered inf
  paths : ∀ i, ∀ e ∈ (net.node i).rtable, ∀ f ∈ e.route.hops, net.PathBacked i e.rtDst f
  air : ∀ sp ∈ net.air, sp.1 ≠ ipBroadcast ∧ net.Backed sp.1 sp.2

/-- The network with a handler under way at node `i`, who heard `h`. -/
structure Underway (inf : Nat) (net : Net) (i : NsAddr) (h : Heard) (x : Exec) : Prop where
  index : x.index = i
  rep : x.toAgent.Rep
  fits : h.Fits
  heard : ∀ a, h = .advert a → a.sender ≠ ipBroadcast ∧ (net.commit 0 i x).Backs i a
  world : World inf (net.commit 0 i x)

section Commit

variable {net : Net} {i j d : NsAddr} {x y : Exec} {s k : Nat} {l : NsAddr}

theorem node_commit_self : ((net.commit 0 i x).node i).rtable = x.rtable := by
  show (if i = i then x.toAgent else net.node i).rtable = _
  rw [if_pos rfl]

theorem node_commit_ne (hj : j ≠ i) : (net.commit 0 i x).node j = net.node j := if_neg hj

theorem entry_commit_self (t : ℚ) : (net.commit t i x).entry i d = x.rtLookup d := by
  show List.find? _ (if i = i then x.toAgent else net.node i).rtable = _
  rw [if_pos rfl]
  rfl

theorem entry_commit_ne (t : ℚ) (hj : j ≠ i) : (net.commit t i x).entry j d = net.entry j d := by
  show List.find? _ (if j = i then x.toAgent else net.node j).rtable = _
  rw [if_neg hj]
  rfl

variable {env : Env} {h : Heard}

/-- **A promise is kept through every step of every node.** -/
theorem Promised.micro (hinf : infinity2 ≤ env.inf) (hm : Micro env h x y) (hx : x.toAgent.Rep)
    (hord : ∀ e ∈ x.rtable, e.route.Ordered env.inf) (hp : (net.commit 0 i x).Promised j d s k l) :
    (net.commit 0 i y).Promised j d s k l := by
  obtain ⟨hk, e, he, hv⟩ := hp
  refine ⟨hk, ?_⟩
  by_cases hj : j = i
  · subst hj
    rw [entry_commit_self] at he ⊢
    obtain ⟨e', he', hr | hf⟩ := hm.rtLookup he
    · exact ⟨e', he', hv.rule hinf hk (hx.sound he) (hord e (Exec.mem_of_rtLookup he)) hr⟩
    · exact ⟨e', he', by rw [hf]; exact hv.fall (Nat.le_refl _)⟩
  · rw [entry_commit_ne 0 hj] at he ⊢
    exact ⟨e, he, hv⟩

theorem Backs.mono {net net' : Net} {a : Advert}
    (hmono : ∀ j d s k l, net.Promised j d s k l → net'.Promised j d s k l) (hb : net.Backs i a) : net'.Backs i a :=
  hb.imp_right (fun ⟨hne, hp⟩ => ⟨hne, hmono _ _ _ _ _ hp⟩)

theorem Backed.mono {net net' : Net} {src : NsAddr} {p : Packet}
    (hmono : ∀ j d s k l, net.Promised j d s k l → net'.Promised j d s k l) (hb : net.Backed src p) :
    net'.Backed src p := by
  intro ht
  have hb := hb ht
  unfold Backed at *
  split
  · rename_i rq hbody
    simp only [hbody] at hb
    exact ⟨hb.1, hb.2.imp_right (fun ⟨h1, h2, h3⟩ => ⟨h1, h2, hmono _ _ _ _ _ h3⟩)⟩
  · rename_i rp hbody
    simp only [hbody] at hb
    exact ⟨hb.1, hb.2.imp_right (fun ⟨h1, h2⟩ => ⟨h1, hmono _ _ _ _ _ h2⟩)⟩
  · trivial

/-- What a live, ordered entry advertises it promises from then on. -/
theorem promised_of_advertises {inf : Nat} (hinf : infinity2 ≤ inf) (hx : x.toAgent.Rep)
    (hord : ∀ e ∈ x.rtable, e.route.Ordered inf) (ha : x.Advertises inf d s k l) :
    0 < k ∧ (net.commit 0 i x).Promised i d s k l := by
  obtain ⟨e, he, hup, hseq, hk, hmax, f, hf, hl⟩ := ha.live hx
  have ho := hord e (Exec.mem_of_rtLookup he)
  have hmem : f ∈ e.route.hops := List.mem_of_mem_head? hf
  have hadv : e.route.adv < infinity2 := by
    rcases ho.frozen hup with hadv | hadv
    · have := maxHops_lt (List.ne_nil_of_mem hmem) ho.short
      rw [hmax hadv] at this
      omega
    · exact hadv
  have hk' : k = e.route.adv := hk.trans (u8_of_lt (by unfold infinity2 at hadv; omega))
  refine ⟨?_, by omega, e, by rw [entry_commit_self]; exact he, .inr ⟨hseq, fun _ => ⟨by omega, ?_⟩⟩⟩
  · have h1 := ho.below hup f hmem
    have h2 := (ho.short f hmem).1
    omega
  · intro g hg _
    obtain rfl := Option.some.inj (hf.symm.trans hg)
    exact hl

/-- An honest packet is backed. -/
theorem backed_of_honest {inf : Nat} {p : Packet} (hinf : infinity2 ≤ inf) (hx : Underway inf net i h x)
    (hp : x.Honest inf h p) : (net.commit 0 i x).Backed i p := by
  have hord : ∀ e ∈ x.rtable, e.route.Ordered inf := by
    have := hx.world.ordered i
    rwa [node_commit_self] at this
  intro _
  unfold Exec.Honest at hp
  split at hp
  · rename_i rq hb
    simp only [hb, hx.index] at hp ⊢
    exact ⟨hp.1, hp.2.imp (fun h => ⟨h.1, h.2.1⟩) (fun h => ⟨h.1, promised_of_advertises hinf hx.rep hord h.2.1⟩)⟩
  · rename_i rp hb
    simp only [hb, hx.index] at hp ⊢
    refine ⟨hp.2.1, hp.2.2.imp (fun h => ?_) (fun h => ⟨h.1, (promised_of_advertises hinf hx.rep hord h.2.1).2⟩)⟩
    obtain ⟨h1, -, -, a, ha, h2, h3⟩ := h
    exact ⟨h1, h2.trans h3.symm, by rw [h2]; exact (hx.heard a ha).1⟩
  · rename_i re hb
    simp only [hb]
  · rename_i h1 h2 h3
    split
    · rename_i rq hb
      exact absurd hb (h1 rq)
    · rename_i rp hb
      exact absurd hb (h2 rp)
    · trivial

theorem backed_of_plain {net : Net} {p : Packet} (hp : p.Plain) : net.Backed i p := by
  intro ht
  have := hp ht
  split <;> simp_all

/-- A path heard of is backed by who it was heard from. -/
theorem pathBacked_of_heard {net : Net} {a : Advert} (ha : net.Backs i a) (b : Bool) : net.PathBacked i a.dst (a.hop b) :=
  ⟨a.hops, rfl, ha⟩

theorem PathBacked.mono {net net' : Net} {f : Hop}
    (hmono : ∀ j d s k l, net.Promised j d s k l → net'.Promised j d s k l) (hb : net.PathBacked i d f) :
    net'.PathBacked i d f := by
  obtain ⟨k, hk, hb⟩ := hb
  exact ⟨k, hk, hb.mono hmono⟩

/-- **Every small step keeps the world.** -/
theorem Underway.micro (hinf : infinity2 ≤ env.inf) (hi : i ≠ ipBroadcast) (hx : Underway env.inf net i h x)
    (hm : Micro env h x y) : Underway env.inf net i h y := by
  have hord : ∀ e ∈ x.rtable, e.route.Ordered env.inf := by
    have := hx.world.ordered i
    rwa [node_commit_self] at this
  have hmono : ∀ j d s k l, (net.commit 0 i x).Promised j d s k l → (net.commit 0 i y).Promised j d s k l :=
    fun _ _ _ _ _ hp => hp.micro hinf hm hx.rep hord
  have hheard : ∀ a, h = .advert a → a.sender ≠ ipBroadcast ∧ (net.commit 0 i y).Backs i a :=
    fun a ha => ⟨(hx.heard a ha).1, (hx.heard a ha).2.mono hmono⟩
  have hpaths : ∀ e ∈ x.rtable, ∀ f ∈ e.route.hops, (net.commit 0 i y).PathBacked i e.route.dst f := by
    have := hx.world.paths i
    rw [node_commit_self] at this
    exact fun e he f hf => (this e he f hf).mono hmono
  refine ⟨(Exec.steps_index (.single hm)).trans hx.index, hm.rep hx.rep, hx.fits, hheard, ?_, ?_, ?_⟩
  · intro j
    by_cases hj : j = i
    · subst hj
      rw [node_commit_self]
      exact hm.entries (Route.Ordered.fresh env.inf) (fun r r' hr hrule => hr.rule hinf hx.fits hrule)
        (fun r hr _ _ => hr.fall _) hord
    · have := hx.world.ordered j
      rwa [node_commit_ne hj] at this ⊢
  · intro j
    by_cases hj : j = i
    · subst hj
      rw [node_commit_self]
      refine hm.entries (Q := fun r => ∀ f ∈ r.hops, (net.commit 0 j y).PathBacked j r.dst f) (fun _ _ _ hf => nomatch hf)
        (fun r r' hr hrule f hf => ?_) (fun _ _ _ _ _ hf => nomatch hf) hpaths
      rw [hrule.dst]
      rcases hrule.hops hf with hf | ⟨a, b, ha, hd, rfl⟩
      · exact hr f hf
      · rw [hd]
        exact pathBacked_of_heard (hheard a ha).2 b
    · have := hx.world.paths j
      rw [node_commit_ne hj] at this ⊢
      exact fun e he f hf => (this e he f hf).mono hmono
  · intro sp hsp
    rcases List.mem_append.1 hsp with hsp | hsp
    · obtain ⟨h1, h2⟩ := hx.world.air sp (List.mem_append_left _ hsp)
      exact ⟨h1, h2.mono hmono⟩
    · obtain ⟨p, hp, rfl⟩ := List.mem_map.1 hsp
      refine ⟨hi, ?_⟩
      rcases hm.sent hp with hp | hp | hp
      · exact (hx.world.air (i, p) (List.mem_append_right _ (List.mem_map_of_mem hp))).2.mono hmono
      · exact backed_of_plain hp
      · exact (backed_of_honest hinf hx hp).mono hmono

end Commit

variable {inf : Nat} {net : Net} {ev : Event} {inp : Input}

/-- What a node receives is backed by who sent it. -/
theorem backs_heard (hw : World inf net) (hindex : (net.node ev.node).index = ev.node) (hinp : net.input ev = some inp)
    {a : Advert} (ha : (net.start ev.node).heard inp = .advert a) : a.sender ≠ ipBroadcast ∧ net.Backs ev.node a := by
  obtain ⟨p, hp, hbody⟩ := heard_advert hinp ha
  obtain ⟨hin, ht⟩ := packet_eq_some hp
  obtain ⟨src, q, hq, rfl, hdst, -⟩ := recv_mem_air hin ht
  obtain ⟨hsrc, hb⟩ := hw.air _ hq
  have hb := hb ht
  rcases hbody with ⟨rq, hbody, rfl⟩ | ⟨rp, hbody, rfl⟩
  · have hbody : q.body = .rreq rq := hbody
    simp only [hbody] at hb
    have hsaddr : (q.received net.heap).saddr = src := hb.1
    refine ⟨by rw [hsaddr]; exact hsrc, ?_⟩
    rw [hsaddr, hindex]
    rcases hb.2 with ⟨h1, h2⟩ | ⟨h1, h2, h3⟩
    · rw [if_pos h2]
      exact .inl ⟨h1.symm, rfl⟩
    · rw [if_neg (by omega)]
      exact .inr ⟨fun h => h1 h.symm, h3⟩
  · have hbody : q.body = .rrep rp := hbody
    simp only [hbody] at hb
    obtain ⟨hrp, hb⟩ := hb
    refine ⟨by rw [hrp]; exact hsrc, ?_⟩
    rcases hb with ⟨h1, h2, h3⟩ | ⟨h1, h2⟩
    · exact .inl ⟨hrp.trans h1.symm, h2.symm.trans (hdst.resolve_left h3)⟩
    · exact .inr ⟨fun h => h1 (h.symm.trans hrp), by rw [hrp]; exact h2⟩

theorem fits_heard (hinp : net.input ev = some inp) (hw : net.unwrapped ev = true) (hs : net.short ev = true) :
    ((net.start ev.node).heard inp).Fits := by
  unfold unwrapped at hw
  unfold short at hs
  cases ha : (net.start ev.node).heard inp with
  | advert a =>
    obtain ⟨p, hp, hbody⟩ := heard_advert hinp ha
    rw [hp] at hw hs
    simp only [Option.all_some, Packet.unwrapped, Packet.short] at hw hs
    rcases hbody with ⟨rq, hb, rfl⟩ | ⟨rp, hb, rfl⟩
    · simp only [hb, decide_eq_true_eq] at hw hs
      exact ⟨hw.2, hs⟩
    · simp only [hb, decide_eq_true_eq] at hw hs
      exact ⟨hw.2, hs⟩
  | error slots =>
    obtain ⟨p, re, hp, hb, rfl⟩ := heard_error hinp ha
    rw [hp] at hw
    simp only [Option.all_some, Packet.unwrapped, hb, List.all_eq_true, decide_eq_true_eq] at hw
    exact hw
  | pta r hs n =>
    obtain ⟨rt, p, re, -, hp, hb, rfl, rfl, rfl⟩ := heard_pta hinp ha
    rw [hp] at hw
    simp only [Option.all_some, Packet.unwrapped, hb, decide_eq_true_eq] at hw
    exact hw
  | nothing | clock | repair => trivial

theorem world_of_reach {guard : Net → Event → Prop} (hinf : infinity2 ≤ inf)
    (hguard : ∀ net ev, guard net ev → net.unwrapped ev = true ∧ net.short ev = true) (h : Reach inf guard net) :
    World inf net := by
  refine Runs.Reaches.invariant (P := World inf) ⟨fun i e he => absurd he List.not_mem_nil,
    fun i e he => absurd he List.not_mem_nil, fun sp hsp => absurd hsp List.not_mem_nil⟩
    (fun net ev net' hr hw hg hstep => ?_) h
  obtain ⟨inp, x, hinp, hx, rfl⟩ := step_eq_some hstep
  obtain ⟨hunw, hshort⟩ := hguard _ _ hg
  have hi := (input_eq_some hinp).2.1
  have ht := handle_trace inf ev inp (fun i => (tidy_of_reach hr i).1)
  rw [hx] at ht
  obtain ⟨htidy, hindex⟩ := tidy_of_reach hr ev.node
  have hcommit : net.commit 0 ev.node (net.start ev.node) = { net with now := 0, heap := net.heap + 1 } := by
    have hnode : (fun a => if a = ev.node then (net.start ev.node).toAgent else net.node a) = net.node := by
      funext a
      split
      · rename_i ha
        rw [ha]
        rfl
      · rfl
    unfold commit
    rw [hnode]
    simp [start, Exec.sent]
  have hstart : Underway inf net ev.node ((net.start ev.node).heard inp) (net.start ev.node) :=
    ⟨hindex, htidy.rep, fits_heard hinp hunw hshort, fun a ha => by rw [hcommit]; exact backs_heard hw hindex hinp ha,
      by rw [hcommit]; exact ⟨hw.ordered, hw.paths, hw.air⟩⟩
  have hend := ht.invariant (I := Underway inf net ev.node _) (fun _ _ hx hm => hx.micro hinf hi hm) hstart
  exact ⟨hend.world.ordered, hend.world.paths, hend.world.air⟩

end Net

end TeAomdv

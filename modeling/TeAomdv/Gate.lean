import TeAomdv.Recorded
import TeAomdv.Reach
/-!
# Gate — the trust test of a reply

`recvReply` spares a sender that names itself `rp_src`, and every node that sends a RREP writes itself there: the test
refuses no reply at all (`passes_of_reach`).  What it was to keep out stays out in the runs whose replies from untrusted
neighbours are those the table has no use for (`vetted_of_reach`).
-/
namespace TeAomdv

open Fallible (Ends ok_bind)
open Exec (Aside)

/-- The path leads straight to the destination, or its FPT passes the trust test. -/
def Vetted (d : NsAddr) (f : Path) : Prop := f.nexthop = d ∨ trustThreshold ≤ f.FPT

/-- The trust a RREQ or RREP carries when every node runs the agent; a RREP names who sent it. -/
def Packet.Tagged (p : Packet) : Prop :=
  match p.body with
  | .rreq rq => trustThreshold ≤ rq.FPT
  | .rrep rp => rp.RT = trustThreshold ∧ p.prevHop = rp.rpSrc
  | _ => True

theorem vetted_lawful : Lawful Vetted Packet.Tagged where
  expire := fun _ h => h
  lower := fun _ _ hq => .inr (not_lt.1 hq)
  mute := by
    intro p hp
    unfold Packet.Mute at hp
    unfold Packet.Tagged
    split <;> simp_all

namespace Exec

variable {env : Env} {x y : Exec} {d : NsAddr} {e : RtEntry} {p : Packet}

/-- The reply comes from a neighbour the node does not trust, and not from the destination itself. -/
def untrustedReply (x : Exec) (p : Packet) (rp : Rrep) : Bool :=
  (rp.lowerForward (x.nbLookup p.prevHop)).FPT < rp.RT ∧ p.prevHop ≠ rp.rpDst

/-- The entry has no use for the reply: it is older, as old and not shorter, or of a path neither stored nor storable. -/
def disregards (x : Exec) (rp : Rrep) (rt : RtEntry) : Bool :=
  rp.rpDstSeqno < rt.rtSeqno ∨ (rt.rtSeqno = rp.rpDstSeqno ∧
    (rt.rtAdvertisedHops ≤ rp.rpHopCount ∨
      (rt.rtFlags = .up ∧ (rt.disjointPathLookup rp.rpSrc rp.rpFirstHop).isNone ∧
        ¬ (rt.newDisjointPath rp.rpSrc rp.rpFirstHop ∧ rt.rtNumPaths < x.teaomdvMaxPaths ∧ ¬ x.tooLong rp.rpHopCount rt))))

/-- The reply is of a route to the node itself, or its entry has no use for it. -/
def ignoresReply (x : Exec) (rp : Rrep) : Bool :=
  rp.rpDst = x.index ∨ (x.rtLookup rp.rpDst).any (x.disregards rp)

/-- What the trust test was to see to. -/
def gatedReply (x : Exec) (p : Packet) (rp : Rrep) : Bool := !x.untrustedReply p rp || x.ignoresReply rp

/-- A reply that is ignored is freed, and nothing else is done. -/
theorem recvReply_ignored {rp : Rrep} (hi : x.ignoresReply rp = true) : x.recvReply env p rp = .ok (x.free p) := by
  unfold recvReply
  split
  · rfl
  split
  · rfl
  rename_i hdst
  obtain ⟨rt, hrt, hno⟩ : ∃ rt, x.rtLookup rp.rpDst = some rt ∧ x.disregards rp rt = true := by
    unfold ignoresReply at hi
    rcases of_decide_eq_true hi with h | h
    · exact absurd h hdst
    · exact (Option.any_eq_true _ _).1 h
  have hlow : ∀ nbt, (rp.lowerForward nbt).rpDst = rp.rpDst ∧ (rp.lowerForward nbt).rpDstSeqno = rp.rpDstSeqno ∧
      (rp.lowerForward nbt).rpHopCount = rp.rpHopCount ∧ (rp.lowerForward nbt).rpSrc = rp.rpSrc ∧
      (rp.lowerForward nbt).rpFirstHop = rp.rpFirstHop := by
    intro nbt
    unfold Rrep.lowerForward
    split <;> exact ⟨rfl, rfl, rfl, rfl, rfl⟩
  obtain ⟨h1, h2, h3, h4, h5⟩ := hlow (x.nbLookup p.prevHop)
  have hensure : x.rtEnsure env rp.rpDst = .ok x := by
    unfold rtEnsure
    rw [hrt]
    rfl
  have hroute : x.forwardRouteTo env (rp.lowerForward (x.nbLookup p.prevHop)) (x.nbLookup p.prevHop) = .ok (x, false) := by
    unfold forwardRouteTo
    simp only [h1, h2, h3, h4, h5, hrt]
    have hno := of_decide_eq_true hno
    rcases hno with hlt | ⟨heq, hle | ⟨hup, hnone, hroom⟩⟩
    · have hgt : ¬ rt.rtSeqno < rp.rpDstSeqno := by omega
      have hne : ¬ (rt.rtSeqno = rp.rpDstSeqno ∧ rt.rtAdvertisedHops > rp.rpHopCount) := fun h => by omega
      rw [if_neg hgt, if_neg hne]
    · have hgt : ¬ rt.rtSeqno < rp.rpDstSeqno := by omega
      have hne : ¬ (rt.rtSeqno = rp.rpDstSeqno ∧ rt.rtAdvertisedHops > rp.rpHopCount) := fun h => by omega
      rw [if_neg hgt, if_neg hne]
    · have hgt : ¬ rt.rtSeqno < rp.rpDstSeqno := by omega
      rw [if_neg hgt]
      split
      · rw [if_neg (not_not.2 hup), Option.isNone_iff_eq_none.1 hnone]
      · rfl
  simp only [h1]
  rw [hensure, ok_bind, hroute, ok_bind]

/-! ## Every handler keeps the paths vetted and the packets tagged -/

abbrev Safe (x : Exec) : Prop := x.Carries Vetted Packet.Tagged

/-- A function that keeps them so. -/
abbrev Guards (x : Exec) (m : Result) : Prop := x.Keeps Vetted Packet.Tagged m

theorem downIfEmpty_guards {rt : RtEntry} {renumber : RtEntry → RtEntry} (hd : ∀ e, (renumber e).rtDst = e.rtDst)
    (hs : ∀ e, (renumber e).rtPathList ⊆ e.rtPathList) (hx : x.Safe) :
    Ends (fun a => a.1.Safe) (x.downIfEmpty env d rt renumber) := by
  intro a ha
  obtain ⟨y, b⟩ := a
  obtain ⟨-, rfl⟩ := downIfEmpty_ok ha
  show (if b then _ else x : Exec).Safe
  split
  · refine hx.keep d (fun e => ?_) (fun e => ?_)
    · exact (RtEntry.rtDst_rtDown _ _).trans (hd e)
    · exact List.Subset.trans (RtEntry.rtDown_subset _ _) (hs e)
  · exact hx

theorem emitRequest_guards (x : Exec) (p : Packet) (rt : RtEntry) : x.Guards (x.emitRequest env p rt) := by
  intro hx
  unfold emitRequest
  simp only
  split
  · exact Ends.error _
  · have h₁ : Safe { x with bid := u32 (x.bid + 1), seqno := u32 (x.seqno + 2) } := ⟨hx.paths, hx.sent, hx.queue⟩
    refine Ends.ok (h₁.schedule (fun _ => ?_) _)
    show trustThreshold ≤ 1
    decide +kernel

theorem sendRequest_guards (d : NsAddr) : x.Guards (x.sendRequest env d) := by
  intro hx
  unfold sendRequest
  simp only
  split
  · exact Ends.error _
  split
  · split
    · exact Ends.error _
    · exact Ends.ok (hx.alloc.free _)
  split
  · exact Ends.ok (hx.alloc.free _)
  split
  · refine Keeps.bind (drain_keeps (vetted_lawful.at _) (fun y q _ hy => Ends.ok (hy.drop q _)) _)
      (fun y hy => Ends.ok (hy.free _)) (hx.alloc.keep d (fun _ => rfl) (fun _ => List.Subset.refl _))
  · exact emitRequest_guards _ _ _ (hx.alloc.keep d (f := requested env) (fun _ => rfl) (fun _ => List.Subset.refl _))

/-! ### Requests -/

theorem recvRequest_guards {rq : Rreq} (hq : trustThreshold ≤ rq.FPT) : x.Guards (x.recvRequest env p rq) := by
  refine recvRequest_keeps (vetted_lawful.at _) (fun f hn hf => .inr (hf ▸ hq)) (fun q rp hb hRT hprev => ?_)
    (fun q rq' hb hf _ _ => ?_)
  · unfold Packet.Tagged
    rw [hb]
    exact ⟨hRT, hprev⟩
  · unfold Packet.Tagged
    rw [hb]
    exact le_of_le_of_eq hq hf.symm

/-! ### Replies -/

section Reply

variable {rp : Rrep}

/-- The paths a reply may bring: straight from the destination, or of an FPT that passes the test. -/
theorem forwardRouteTo_guards {nbt : Option Neighbor} (hx : x.Safe)
    (hnew : rp.rpSrc = rp.rpDst ∨ trustThreshold ≤ rp.FPT)
    (hold : rp.rpSrc = rp.rpDst ∨ ∀ f : Path, trustThreshold ≤ f.FPT → trustThreshold ≤ (refreshForward env rp nbt f).FPT) :
    Ends (fun a => a.1.Safe) (x.forwardRouteTo env rp nbt) := by
  refine Ends.mono (forwardRouteTo_noted env x rp nbt).ends (fun a ha => ?_)
  obtain ⟨rt, -, hn⟩ := ha
  refine hn.carries (fun _ => hnew) (fun f hf hnext => ?_) hx
  rcases hold with h | h
  · exact .inl (hnext.trans h)
  · exact hf.imp id (h f)

/-- A reply that passes the test, or that the table has no use for, brings no path to be kept out. -/
theorem recvReply_guards (hp : p.Tagged) (hb : p.body = .rrep rp) (hg : x.gatedReply p rp = true) :
    x.Guards (x.recvReply env p rp) := by
  intro hx
  unfold gatedReply at hg
  cases hi : x.ignoresReply rp with
  | true =>
    rw [recvReply_ignored hi]
    exact Ends.ok (hx.free p)
  | false =>
  rw [hi, Bool.or_false, Bool.not_eq_true'] at hg
  have hg := of_decide_eq_false hg
  unfold Packet.Tagged at hp
  rw [hb] at hp
  obtain ⟨hRT, hprev⟩ := hp
  -- the sender is the destination, or the lowered FPT passes the test
  have hsafe : rp.rpSrc = rp.rpDst ∨ trustThreshold ≤ (rp.lowerForward (x.nbLookup p.prevHop)).FPT := by
    rcases not_and_or.1 hg with h | h
    · exact .inr (hRT ▸ not_lt.1 h)
    · exact .inl (hprev ▸ not_not.1 h)
  obtain ⟨t, hlow⟩ := lowerForward_eq rp (x.nbLookup p.prevHop)
  unfold recvReply
  split
  · exact Ends.ok (hx.free p)
  split
  · exact Ends.ok (hx.free p)
  simp only
  refine Ends.bind (rtEnsure_keeps _ hx) (fun y hy => Ends.bind (forwardRouteTo_guards hy ?_ ?_) (fun a ha => ?_))
  · rwa [hlow] at hsafe ⊢
  · refine Or.imp (fun h => by rwa [hlow]) (fun h f hf => ?_) hsafe
    unfold refreshForward
    cases hn : x.nbLookup p.prevHop with
    | none =>
      show trustThreshold ≤ rp.RT + 1 / 10
      rw [hRT]
      decide +kernel
    | some nb =>
      rw [hn] at h
      exact le_min hf (le_trans h (min_le_right rp.FPT nb.tv))
  obtain ⟨z, b⟩ := a
  cases b with
  | false => exact Ends.ok (ha.free p)
  | true =>
    refine Keeps.bind (flush_keeps (vetted_lawful.at _) _) (fun w hw => ?_) ha
    split
    · exact Ends.ok (hw.free p)
    · refine relayReply_keeps (vetted_lawful.at _) (fun q rp' hb _ hRT' _ hprev' _ => ?_) hw
      unfold Packet.Tagged
      rw [hb, hlow] at *
      exact ⟨hRT'.trans hRT, hprev'⟩

end Reply

/-! ### Reports, and everything else received -/

theorem reported_safe (hx : x.Safe) (d id : NsAddr) (n : Nat) :
    (x.rtModify d (fun rt => (rt.pathDelete id).setHighestSeqnoHeard n)).Safe :=
  hx.keep d (fun e => rtDst_pathDelete e id) (fun e => RtEntry.pathDelete_subset e id)

theorem errorSlot_guards {saddr : NsAddr} (acc : Exec × List (NsAddr × Nat)) (slot : NsAddr × Nat) (hx : acc.1.Safe) :
    Ends (fun a => a.1.Safe) (errorSlot env saddr acc slot) := by
  unfold errorSlot
  simp only
  split
  · exact Ends.ok hx
  split
  · split
    · exact Ends.error _
    refine Ends.bind (downIfEmpty_guards (fun _ => rfl) (fun _ => List.Subset.refl _) (reported_safe hx _ _ _))
      (fun a ha => ?_)
    split
    · exact Ends.ok (ha.keep slot.1 (f := fun rt => rt.setError false) (fun _ => rfl) (fun _ => List.Subset.refl _))
    · exact Ends.ok ha
  · exact Ends.ok hx

theorem sendError_safe (hx : x.Safe) (p : Packet) (re : Rerr) (jitter : Bool) : (x.sendError p re jitter).Safe := by
  refine hx.schedule ?_ _
  exact fun _ => trivial

theorem recvError_guards (p : Packet) (re : Rerr) : x.Guards (x.recvError env p re) := by
  intro hx
  unfold recvError
  simp only
  split
  · exact Ends.error _
  · refine Ends.bind (P := fun a => a.1.Safe) (Ends.foldlM (fun a s _ => errorSlot_guards a s) hx.alloc) (fun a ha => ?_)
    refine Ends.ok (Carries.free ?_ p)
    split
    · exact sendError_safe ha _ _ _
    · exact ha.free _

theorem recvPta_guards (p : Packet) (re : Pta) : x.Guards (x.recvPta env p re) := by
  intro hx
  unfold recvPta
  split
  · exact Ends.ok (hx.free p)
  split
  · split
    · exact Ends.error _
    simp only
    refine Ends.bind (downIfEmpty_guards (fun _ => rfl) (fun _ => List.Subset.refl _) (reported_safe hx _ _ _))
      (fun a ha => Ends.ok (Carries.free (Carries.aside vetted_lawful.mute ?_ (Aside.foldl (reportDistrust_aside _ _ _) _ _)) p))
    exact ha.keep re.unreachableDst (fun _ => rfl) (fun _ => List.Subset.refl _)
  · exact Ends.ok (hx.free p)

theorem recvRcom_guards (p : Packet) (rc : Recommen) : x.Guards (x.recvRcom env p rc) := by
  intro hx
  unfold recvRcom
  split
  · exact Ends.ok (hx.free p)
  split
  · split
    · exact Ends.error _
    · have h₁ := hx.aside vetted_lawful.mute (Aside.nbModify x p.saddr
        (f := fun nb => { nb with interactNbs := nb.interactNbs + rc.itNum }) (fun _ => rfl))
      refine Ends.ok (Carries.free (h₁.aside vetted_lawful.mute (Aside.foldl (fun x r => ?_) _ _)) p)
      exact Aside.nbModify x r.1 (fun _ => rfl)
  · exact Ends.ok (hx.free p)

/-- What was received, if it was not to be gated. -/
theorem recvTEAOMDV_guards (hp : p.Tagged) (hg : ∀ rp, p.body = .rrep rp → x.gatedReply p rp = true) :
    x.Guards (x.recvTEAOMDV env p) := by
  intro hx
  unfold recvTEAOMDV
  split
  · exact Ends.error _
  cases hb : p.body with
  | rreq rq =>
    unfold Packet.Tagged at hp
    rw [hb] at hp
    exact recvRequest_guards hp hx
  | rrep rp => exact recvReply_guards hp hb (hg rp hb) hx
  | rerr re => exact recvError_guards p re hx
  | hello rp => exact Ends.ok (hx.aside vetted_lawful.mute (recvHello_aside env x p rp))
  | rcom rc => exact recvRcom_guards p rc hx
  | prob => exact Ends.ok (hx.aside vetted_lawful.mute (recvProb_aside env x p))
  | pta re => exact recvPta_guards p re hx
  | payload => exact Ends.error _

/-! ### Data packets -/

theorem rtResolve_guards (hp : p.Data) : x.Guards (x.rtResolve env p) := by
  intro hx
  unfold rtResolve
  refine Ends.bind (rtEnsure_keeps _ hx) (fun y hy => ?_)
  split
  · exact Ends.error _
  split
  · split
    · exact Ends.error _
    · exact forward_some_keeps (vetted_lawful.at _) (fun h => absurd h hp.1) _ hy
  split
  · exact sendRequest_guards _ (hy.aside vetted_lawful.mute (Aside.enque env y hp))
  split
  · exact Ends.ok (hy.aside vetted_lawful.mute (Aside.enque env y hp))
  · exact Ends.ok ((sendError_safe hy.alloc _ _ _).drop p _)

theorem recv_guards (hp : p.ptype = .teaomdv → p.Tagged)
    (hg : p.ptype = .teaomdv → ∀ rp, p.body = .rrep rp → x.gatedReply p rp = true) : x.Guards (x.recv env p) := by
  intro hx
  unfold recv
  split
  · rename_i ht
    exact recvTEAOMDV_guards (p := { p with ttl := p.ttl - 1 }) (hp ht) (hg ht) hx
  rename_i ht
  have hdata : ∀ q : Packet, q.ptype = p.ptype → q.daddr ≠ ipBroadcast → x.Guards (x.rtResolve env q) :=
    fun q hq hd => rtResolve_guards ⟨by rw [hq]; exact ht, hd⟩
  have hup : ∀ q : Packet, q.ptype = p.ptype → x.Guards (x.forward env none q noTeaomdvDelay) :=
    fun q hq => forward_none_keeps (fun h => absurd (hq.symm.trans h) ht) _
  split
  · simp only
    split
    · rename_i hd
      exact hdata _ rfl hd hx
    · exact hup _ rfl hx
  split
  · exact Ends.ok (hx.drop p _)
  simp only
  split
  · exact Ends.ok (hx.drop _ _)
  split
  · rename_i hd
    exact hdata _ rfl hd hx
  · exact hup _ rfl hx

/-! ### Timers -/

/-- An entry brought down, under whatever number. -/
theorem fall_safe (hx : x.Safe) (d : NsAddr) {inf : Nat} {f : RtEntry → RtEntry}
    (hf : ∀ e, ∃ n, (f e).rtDst = ((e.setSeqno n).rtDown inf).rtDst ∧
      (f e).rtPathList = ((e.setSeqno n).rtDown inf).rtPathList) : (x.rtModify d f).Safe := by
  refine hx.keep d (fun e => ?_) (fun e => ?_)
  · obtain ⟨n, hd, -⟩ := hf e
    exact hd.trans (RtEntry.rtDst_rtDown _ _)
  · obtain ⟨n, -, hs⟩ := hf e
    rw [hs]
    exact RtEntry.rtDown_subset (e.setSeqno n) inf

theorem failEntry_guards {id : NsAddr} (acc : Exec × List (NsAddr × Nat)) (d : NsAddr) (hx : acc.1.Safe) :
    Ends (fun a => a.1.Safe) (failEntry env id acc d) := by
  unfold failEntry
  simp only
  split
  · exact Ends.ok hx
  rename_i rt _
  split
  swap
  · exact Ends.ok hx
  split
  · exact Ends.error _
  have h₁ := hx.keep d (f := fun rt => rt.pathDelete id) (fun e => rtDst_pathDelete e id)
    (fun e => RtEntry.pathDelete_subset e id)
  refine Ends.bind (P := fun _ => True) (fun _ _ => trivial) (fun empty _ => ?_)
  split
  · split
    · split
      · exact Ends.error _
      · exact Ends.ok (fall_safe h₁ d (fun _ => ⟨_, rfl, rfl⟩))
    · exact Ends.ok (fall_safe h₁ d (fun _ => ⟨_, rfl, rfl⟩))
  · exact Ends.ok h₁

theorem handleLinkFailure_guards (id : NsAddr) : x.Guards (x.handleLinkFailure env id) := by
  intro hx
  unfold handleLinkFailure
  refine Ends.bind (P := fun a => a.1.Safe) (Ends.foldlM (fun a d _ => failEntry_guards a d) hx.alloc) (fun a ha => ?_)
  refine Ends.ok ?_
  show (if a.2.length > 0 then _ else _ : Exec).Safe
  split
  · exact sendError_safe ha _ _ _
  · exact ha.free _

theorem sendBuffered_guards (d : NsAddr) : ∀ (n : Nat) (a : Exec × ℚ), a.1.Safe →
    Ends (fun a => a.1.Safe) (sendBuffered env d n a)
  | 0, a, hx => Ends.ok hx
  | n + 1, (x, delay), hx => by
    have ha := Aside.deque env x d
    unfold sendBuffered
    split
    · rename_i y hy
      rw [hy] at ha
      exact Ends.ok (hx.aside vetted_lawful.mute ha)
    · rename_i q y hy
      rw [hy] at ha
      have hq := hx.queue q (mem_of_deque hy).1
      exact Ends.bind (forward_some_keeps (vetted_lawful.at _) (fun h => absurd h hq.1) _ (hx.aside vetted_lawful.mute ha))
        (fun z hz => sendBuffered_guards d n (z, delay + arpDelay) hz)

theorem purgeEntry_guards (a : Exec × ℚ) (d : NsAddr) (hx : a.1.Safe) :
    Ends (fun a => a.1.Safe) (purgeEntry env a d) := by
  unfold purgeEntry
  simp only
  split
  · exact Ends.ok hx
  split
  · have h₁ := hx.keep d (f := fun rt => rt.pathPurge env.now) (fun _ => rfl) (fun e => RtEntry.pathPurge_subset e _)
    refine Ends.bind (P := fun _ => True) (fun _ _ => trivial) (fun empty _ => ?_)
    split
    · refine Ends.bind (drain_keeps (vetted_lawful.at _) (fun y q _ hy => Ends.ok (hy.drop q _)) _ h₁) (fun y hy => Ends.ok ?_)
      exact fall_safe hy d (fun _ => ⟨_, rfl, rfl⟩)
    · exact Ends.ok h₁
  split
  · split
    · exact Ends.error _
    · exact sendBuffered_guards d _ a hx
  split
  · exact Ends.bind (sendRequest_guards d hx) (fun y hy => Ends.ok hy)
  · exact Ends.ok hx

theorem rtPurge_guards : x.Guards (x.rtPurge env) := by
  intro hx
  unfold rtPurge
  exact Ends.bind (P := fun a => a.1.Safe) (Ends.foldlM (fun a d _ => purgeEntry_guards a d) hx) (fun a ha => Ends.ok ha)

theorem salvage_guards (p : Packet) : x.Guards (x.salvage env p) := by
  intro hx
  have h₁ := hx.aside vetted_lawful.mute (Aside.say x (a := .filter p) trivial)
  unfold salvage
  simp only
  split
  · exact Ends.ok (h₁.drop p _)
  rename_i hdata
  split
  · refine forward_some_keeps (vetted_lawful.at _) (fun h => ?_) _ h₁
    have ht : p.ptype = .teaomdv := h
    simp [ht, dataPacket] at hdata
  · exact Ends.ok (h₁.drop p _)

theorem nbDelete_guards (ifq : NsAddr → List Packet) (id : NsAddr) : x.Guards (x.nbDelete env ifq id) := by
  intro hx
  unfold nbDelete
  simp only
  split
  · exact Ends.error _
  · refine Ends.bind (handleLinkFailure_guards id ⟨hx.paths, hx.sent, hx.queue⟩) (fun y hy => ?_)
    exact Ends.foldlM (fun z p _ hz => salvage_guards p hz) hy

theorem nbPurge_guards (ifq : NsAddr → List Packet) : x.Guards (x.nbPurge env ifq) := by
  intro hx
  unfold nbPurge
  refine Ends.foldlM (fun y nb _ hy => ?_) hx
  split
  · exact nbDelete_guards ifq _ hy
  · exact Ends.ok hy

theorem localRepair_safe (hx : x.Safe) (p : Packet) : (x.localRepair env p).Safe := by
  unfold localRepair
  split
  · exact hx.free p
  · refine Carries.free ?_ p
    split
    · exact fall_safe hx _ (fun rt => ⟨rt.rtSeqno, rfl, rfl⟩)
    · exact hx

/-- **Every handler keeps the paths vetted and the packets tagged**, given that what it receives is not to be gated. -/
theorem handle_guards (inp : Input)
    (hp : ∀ p, inp = .recv p → p.ptype = .teaomdv → p.Tagged ∧ ∀ rp, p.body = .rrep rp → x.gatedReply p rp = true) :
    x.Guards (x.handle env inp) := by
  intro hx
  cases inp with
  | recv p => exact recv_guards (fun ht => (hp p rfl ht).1) (fun ht => (hp p rfl ht).2) hx
  | tap p => exact Ends.ok (hx.aside vetted_lawful.mute (tap_aside x p))
  | rtLlFailed p => exact Ends.ok (hx.drop p _)
  | timer t =>
    cases t with
    | broadcast => exact Ends.ok (hx.aside vetted_lawful.mute (Aside.idPurge env x))
    | hello =>
      refine Ends.ok ?_
      split
      · exact hx.aside vetted_lawful.mute (sendHello_aside x)
      · exact hx
    | probe => exact Ends.ok (hx.aside vetted_lawful.mute (sendProb_aside x))
    | trust => exact Ends.ok (hx.aside vetted_lawful.mute (setTrust_aside env x))
    | neighbor ifq => exact nbPurge_guards ifq hx
    | routeCache => exact rtPurge_guards hx
    | localRepair p => exact Ends.ok (localRepair_safe hx p)

end Exec

namespace Net

variable {inf : Nat} {net : Net} {ev : Event}

/-- The reply an event hands to `recvReply`, if any, is not one the trust test was to keep out. -/
def gated (net : Net) (ev : Event) : Bool :=
  (net.packet ev).all (fun p => match p.body with
    | .rrep rp => (net.start ev.node).gatedReply p rp
    | _ => true)

theorem vetted_of_reach (h : Reach inf (fun net ev => net.gated ev = true) net) :
    (∀ i, ∀ e ∈ (net.node i).rtable, e.Holds Vetted) ∧ ∀ sp ∈ net.air, sp.2.ptype = .teaomdv → sp.2.Tagged := by
  refine Runs.Reaches.invariant (P := fun net => (∀ i, ∀ e ∈ (net.node i).rtable, e.Holds Vetted) ∧
      ∀ sp ∈ net.air, sp.2.ptype = .teaomdv → sp.2.Tagged)
    ⟨fun i e he => absurd he List.not_mem_nil, fun sp hsp => absurd hsp List.not_mem_nil⟩
    (fun net ev net' hr ih hg hstep => ?_) h
  obtain ⟨inp, x, hinp, hx, rfl⟩ := step_eq_some hstep
  have hstart : (net.start ev.node).Safe :=
    ⟨ih.1 ev.node, fun _ _ hm => absurd hm List.not_mem_nil, (tidy_of_reach hr ev.node).1.data⟩
  have hend := Exec.handle_guards inp (fun p hp ht => ?_) hstart x hx
  · refine commit_forall (Q := fun a => ∀ e ∈ a.rtable, e.Holds Vetted) ev.now ih.1 ih.2 hend.paths (fun p hp => ?_)
    obtain ⟨d, hd⟩ := Exec.mem_log_of_sent hp
    exact hend.sent p d hd
  · subst hp
    have hpacket : net.packet ev = some p := by simp [packet, hinp, ht]
    obtain ⟨-, src, q, hq, rfl⟩ := packet_mem_air hpacket
    refine ⟨ih.2 (src, q) hq ht, fun rp hb => ?_⟩
    unfold gated at hg
    rw [hpacket, Option.all_some] at hg
    simpa only [hb] using hg

/-- **No path of a distrusted neighbour is learnt from a RREP, but from the destination itself**, in a run whose replies
from such neighbours are all of no use to the table; and such a reply is freed without effect. -/
theorem gate_of_reach (h : Reach inf (fun net ev => net.gated ev = true) net) :
    (∀ i, ∀ e ∈ (net.node i).rtable, ∀ f ∈ e.rtPathList, f.nexthop = e.rtDst ∨ trustThreshold ≤ f.FPT) ∧
      ∀ ev p rp, net.gated ev = true → net.packet ev = some p → p.body = .rrep rp →
        (net.start ev.node).untrustedReply p rp = true →
        (net.start ev.node).recvReply (ev.env inf) p rp = .ok ((net.start ev.node).free p) := by
  refine ⟨(vetted_of_reach h).1, fun ev p rp hg hp hb hu => Exec.recvReply_ignored ?_⟩
  unfold gated at hg
  rw [hp, Option.all_some] at hg
  simp only [hb] at hg
  simpa [Exec.gatedReply, hu] using hg

/-- Every RREP names the node that sent it. -/
theorem rpSrc_of_reach {guard : Net → Event → Prop} (h : Reach inf guard net) :
    ∀ sp ∈ net.air, sp.2.ptype = .teaomdv → ∀ rp, sp.2.body = .rrep rp → sp.2.prevHop = rp.rpSrc := by
  refine Runs.Reaches.invariant (P := fun net => ∀ sp ∈ net.air, sp.2.ptype = .teaomdv → ∀ rp,
    sp.2.body = .rrep rp → sp.2.prevHop = rp.rpSrc) (fun sp hsp => absurd hsp List.not_mem_nil)
    (fun net ev net' hr ih _ hstep => ?_) h
  obtain ⟨inp, x, -, hx, rfl⟩ := step_eq_some hstep
  have ht := handle_trace inf ev inp (fun i => (tidy_of_reach hr i).1)
  rw [hx] at ht
  have hsent := ht.invariant (I := fun x => ∀ p ∈ x.sent, p.ptype = .teaomdv → ∀ rp, p.body = .rrep rp →
    p.prevHop = rp.rpSrc) (fun y z hy hm p hp hpt rp hb => ?_) (fun p hp => absurd hp List.not_mem_nil)
  · exact (commit_forall (Q := fun _ => True) ev.now (fun _ => trivial) ih trivial hsent).2
  · rcases hm.sent hp with hp | hp | hp
    · exact hy p hp hpt rp hb
    · have := hp hpt
      simp only [hb] at this
    · unfold Exec.Honest at hp
      simp only [hb] at hp
      exact hp.1.trans hp.2.1.symm

/-- **The trust test refuses no reply**, in any run. -/
theorem passes_of_reach {guard : Net → Event → Prop} (h : Reach inf guard net) {p : Packet} {rp : Rrep}
    (hp : net.packet ev = some p) (hb : p.body = .rrep rp) : ¬ (net.start ev.node).distrustsReply p rp = true := by
  obtain ⟨ht, src, q, hq, rfl⟩ := packet_mem_air hp
  have hsrc : q.prevHop = rp.rpSrc := rpSrc_of_reach h (src, q) hq ht rp hb
  intro hd
  exact (of_decide_eq_true hd).2 hsrc

/-- Node 1 answers a request of 2, comes to distrust it, and asks for 3; the answer of 3 comes back through 2. -/
def heedlessEvents : List Event :=
  let data : What := .originate { ptr := 0, ptype := .other true, saddr := 1, daddr := 3, uid := 200 }
  [(What.cbr 2 1 100).on 0 2, (What.deliver 0).on 1 1, What.trustTimer.on 4 1, data.on 5 1, (What.deliver 3).on 6 2,
    (What.deliver 5).on 7 3, (What.deliver 6).on 8 2]

theorem learnt_of_heedlessEvents : ∃ net, replay 65535 heedlessEvents = some net ∧ Reach 65535 anyEvent net ∧
    ∃ p rp net', net.packet ((What.deliver 7).on 9 1) = some p ∧ p.body = .rrep rp ∧
      (net.start 1).untrustedReply p rp = true ∧ (net.entry 1 rp.rpDst).all (·.rtPathList.isEmpty) = true ∧
      step 65535 net ((What.deliver 7).on 9 1) = some net' ∧
      ∃ e ∈ (net'.node 1).rtable, e.rtDst = rp.rpDst ∧ ∃ f ∈ e.rtPathList, f.nexthop = p.prevHop ∧ f.FPT < trustThreshold := by
  obtain ⟨net, hnet, hr, hfin⟩ := reach_of_obeys 65535 (fun _ _ => true)
    (fun net => (net.packet ((What.deliver 7).on 9 1)).any (fun p => match p.body with
      | .rrep rp => (net.start 1).untrustedReply p rp && (net.entry 1 rp.rpDst).all (·.rtPathList.isEmpty) &&
          (step 65535 net ((What.deliver 7).on 9 1)).any (fun net' => (net'.entry 1 rp.rpDst).any (fun e =>
            e.rtPathList.any (fun f => f.nexthop = p.prevHop ∧ f.FPT < trustThreshold)))
      | _ => false))
    (fun net ev _ => (trivial : anyEvent net ev)) heedlessEvents (by decide +kernel)
  obtain ⟨p, hp, hfin⟩ := (Option.any_eq_true _ _).1 hfin
  split at hfin
  · rename_i rp hb
    simp only [Bool.and_eq_true] at hfin
    obtain ⟨⟨hu, hnone⟩, hstep⟩ := hfin
    obtain ⟨net', hnet', hentry⟩ := (Option.any_eq_true _ _).1 hstep
    obtain ⟨e, he, hd, hpath⟩ := of_entry_any hentry
    obtain ⟨f, hf, hbad⟩ := List.any_eq_true.1 hpath
    exact ⟨net, hnet, hr, p, rp, net', hp, hb, hu, hnone, hnet', e, he, hd, f, hf, of_decide_eq_true hbad⟩
  · cases hfin

/-- All the events but the last were gated. -/
theorem gate_heedlessEvents : ∃ net, replay 65535 heedlessEvents = some net ∧
    (∀ i, ∀ e ∈ (net.node i).rtable, ∀ f ∈ e.rtPathList, f.nexthop = e.rtDst ∨ trustThreshold ≤ f.FPT) ∧
      ∀ ev p rp, net.gated ev = true → net.packet ev = some p → p.body = .rrep rp →
        (net.start ev.node).untrustedReply p rp = true →
        (net.start ev.node).recvReply (ev.env 65535) p rp = .ok ((net.start ev.node).free p) := by
  obtain ⟨net, hnet, hr, -⟩ := reach_of_obeys 65535 (fun net ev => net.gated ev)
    (fun _ => true) (fun _ _ h => h) heedlessEvents (by decide +kernel)
  exact ⟨net, hnet, gate_of_reach hr⟩

end Net

end TeAomdv

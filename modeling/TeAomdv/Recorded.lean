import TeAomdv.Carry
import TeAomdv.Rep
/-!
# Recorded — `recvRequest` and `recvReply` up to the answer

What the two handlers do before they answer or relay: the trust test, the update of the route entry, and the packets sent
off.  `reversePaths` and `forwardPaths` give the paths the entry has when the sending off begins, from the state the
handler finds.
-/
namespace TeAomdv

open Fallible (Ends ok_bind error_bind)

theorem RtEntry.Rep.toKept {maxPaths : Int} {e : RtEntry} (h : e.Rep maxPaths) : e.Kept := ⟨h.num, h.up⟩

namespace RtEntry

/-- The paths a request leaves its reverse entry; `none` when it is freed, or an assert on it fails. -/
def reversePaths (env : Env) (x : Exec) (p : Packet) (rq : Rreq) (rt0 : RtEntry) : Option (List Path) :=
  if rt0.rtSeqno < rq.rqSrcSeqno then some (Exec.renewReverse env p rq rt0).rtPathList
  else if rt0.rtSeqno ≠ rq.rqSrcSeqno ∨ rt0.rtAdvertisedHops ≤ rq.rqHopCount ∨ rt0.rtFlags ≠ .up then none
  else match rt0.disjointPathLookup p.saddr rq.rqFirstHop with
  | some path => if path.hopcount = rq.rqHopCount + 1 then some rt0.rtPathList else none
  | none =>
    if rt0.newDisjointPath p.saddr rq.rqFirstHop then
      if rt0.rtNumPaths < x.teaomdvMaxPaths ∧ ¬ x.tooLong rq.rqHopCount rt0 then
        if x.tooLong rq.rqHopCount (Exec.extendReverse env p rq rt0) then none
        else some (Exec.extendReverse env p rq rt0).rtPathList
      else if x.tooLong rq.rqHopCount rt0 then none
      else some rt0.rtPathList
    else if rq.rqDst = x.index ∧
        ((rt0.pathLookupLasthop rq.rqFirstHop).all (fun erp => rq.rqHopCount + 1 > erp.hopcount)) then none
    else some rt0.rtPathList

/-- The paths a reply leaves its forward entry; `none` when it is freed, or an assert on it fails. -/
def forwardPaths (env : Env) (x : Exec) (rp : Rrep) (nbt : Option Neighbor) (rt : RtEntry) : Option (List Path) :=
  if rt.rtSeqno < rp.rpDstSeqno then some (Exec.renewForward env rp rt).rtPathList
  else if rt.rtSeqno ≠ rp.rpDstSeqno ∨ rt.rtAdvertisedHops ≤ rp.rpHopCount ∨ rt.rtFlags ≠ .up then none
  else match rt.disjointPathLookup rp.rpSrc rp.rpFirstHop with
  | some path =>
    if path.hopcount = rp.rpHopCount + 1 then
      some (rt.modifyDisjoint rp.rpSrc rp.rpFirstHop (Exec.refreshForward env rp nbt)).rtPathList
    else none
  | none =>
    if rt.newDisjointPath rp.rpSrc rp.rpFirstHop ∧ rt.rtNumPaths < x.teaomdvMaxPaths ∧ ¬ x.tooLong rp.rpHopCount rt then
      some (Exec.extendForward env rp rt).rtPathList
    else none

/-- The entry as a RREQ or RREP of number `s` leaves it, with the paths `ps`. -/
def recorded (inf : Nat) (e : RtEntry) (s : Nat) (ps : List Path) : RtEntry :=
  { e with
    rtFlags := .up, rtSeqno := s, rtAdvertisedHops := if e.rtSeqno < s then inf else e.rtAdvertisedHops, rtPathList := ps }

end RtEntry

namespace Exec

/-- The request sets `reverse_path`: it renews the entry of its source, or names a path again, or brings a path that fits. -/
def setsReverse (env : Env) (x : Exec) (p : Packet) (rq : Rreq) (rt0 : RtEntry) : Bool :=
  if rt0.rtSeqno < rq.rqSrcSeqno then true
  else if rt0.rtSeqno ≠ rq.rqSrcSeqno ∨ rt0.rtAdvertisedHops ≤ rq.rqHopCount ∨ rt0.rtFlags ≠ .up then false
  else match rt0.disjointPathLookup p.saddr rq.rqFirstHop with
  | some path => path.hopcount = rq.rqHopCount + 1
  | none => rt0.newDisjointPath p.saddr rq.rqFirstHop ∧ rt0.rtNumPaths < x.teaomdvMaxPaths ∧
      ¬ x.tooLong rq.rqHopCount rt0 ∧ ¬ x.tooLong rq.rqHopCount (extendReverse env p rq rt0)

/-- An entry is recorded as `r`, but for what neither the trust test nor an answer reads. -/
structure Records (x : Exec) (r e : RtEntry) : Prop where
  up : e.rtFlags = .up
  seqno : e.rtSeqno = r.rtSeqno
  adv : e.rtAdvertisedHops = r.rtAdvertisedHops
  hops : e.rtPathList.map Path.hop = r.rtPathList.map Path.hop
  marks : e.rtPathList.map x.distrusts = r.rtPathList.map x.distrusts

variable {env : Env} {x y z : Exec} {d : NsAddr} {e : RtEntry} {p : Packet}

/-- The entry for `d` that a handler works on: the one it finds, or a new one. -/
def entryFor (env : Env) (x : Exec) (d : NsAddr) : RtEntry :=
  (x.rtLookup d).getD { rtDst := d, rtHops := env.unsetHops }

theorem kept_entryFor (env : Env) (hx : x.toAgent.Rep) (d : NsAddr) : (x.entryFor env d).Kept := by
  unfold entryFor
  cases he : x.rtLookup d with
  | none => exact ⟨rfl, by simp⟩
  | some e => exact (hx.entries e (mem_of_rtLookup he)).toKept

/-- The lookup that adds a missing entry leaves the entry to work on. -/
theorem rtEnsure_left (hk : (x.entryFor env d).Kept) :
    ∃ y, x.rtEnsure env d = .ok y ∧ Left d x y (x.entryFor env d) ∧ y.log = x.log := by
  unfold rtEnsure rtAdd entryFor at *
  cases he : x.rtLookup d with
  | some e =>
    rw [he] at hk
    exact ⟨x, rfl, ⟨he, hk, .refl x, rfl⟩, rfl⟩
  | none =>
    rw [he] at hk
    refine ⟨_, rfl, ⟨?_, hk, { others := fun d' hne => ?_ }, rfl⟩, rfl⟩
    · exact List.find?_cons_of_pos (by simp)
    · exact List.find?_cons_of_neg (by simpa using hne.symm)

/-- The broadcast id is cached, and the reverse entry is there. -/
theorem prepareRequest_left (rq : Rreq) (hk : (x.entryFor env rq.rqSrc).Kept) :
    ∃ ids y, x.prepareRequest env rq = .ok y ∧ Left rq.rqSrc { x with bihead := ids } y (x.entryFor env rq.rqSrc) ∧
      y.log = x.log ∧
      ids = (if (x.idGet rq.rqSrc rq.rqBcastId).isSome then x else x.idInsert env rq.rqSrc rq.rqBcastId).bihead := by
  obtain ⟨ids, hids⟩ : ∃ ids, (if (x.idGet rq.rqSrc rq.rqBcastId).isSome then x
      else x.idInsert env rq.rqSrc rq.rqBcastId) = { x with bihead := ids } := by
    split
    · exact ⟨x.bihead, rfl⟩
    · exact ⟨_, rfl⟩
  unfold prepareRequest
  rw [hids]
  obtain ⟨y, hy, hl, hlog⟩ := rtEnsure_left (x := { x with bihead := ids }) hk
  exact ⟨ids, y, hy, hl, hlog, rfl⟩

/-- The id counts as answered just if it did when the request came. -/
theorem unanswered_cached (env : Env) (x : Exec) (s : NsAddr) (b : Nat) (q : BroadcastId → Bool)
    (hq : ∀ t, q { src := s, id := b, expire := t } = true) :
    ((if (x.idGet s b).isSome then x else x.idInsert env s b).idGet s b).all q = (x.idGet s b).all q := by
  cases hget : x.idGet s b with
  | some i => simp [hget]
  | none =>
    have hnew : (x.idInsert env s b).idGet s b = some { src := s, id := b, expire := env.now + bcastIdSave } :=
      List.find?_cons_of_pos (by simp [sameId])
    simp [hnew, hq]

/-! ## The update of the reverse entry -/

section Reverse

variable {rq : Rreq} {rt0 : RtEntry}

theorem kept_renewReverse (env : Env) (p : Packet) (rq : Rreq) (rt0 : RtEntry) : (renewReverse env p rq rt0).Kept :=
  ⟨rfl, by simp [renewReverse, RtEntry.pathInsert]⟩

theorem kept_extendReverse (hk : rt0.Kept) (hup : rt0.rtFlags = .up) (env : Env) (p : Packet) (rq : Rreq) :
    (extendReverse env p rq rt0).Kept := by
  refine ⟨?_, by simp [extendReverse, RtEntry.pathInsert, hup]⟩
  have := hk.1
  simp only [extendReverse, RtEntry.pathInsert, List.length_append, List.length_singleton]
  omega

theorem kept_modifyDisjoint (hk : rt0.Kept) (nexthop lasthop : NsAddr) (f : Path → Path) :
    (rt0.modifyDisjoint nexthop lasthop f).Kept := by
  refine ⟨?_, hk.2.trans (not_congr ?_)⟩
  · show rt0.rtNumPaths = (Keyed.modifyFirst _ f rt0.rtPathList).length
    rw [Keyed.length_modifyFirst]
    exact hk.1
  · show _ ↔ Keyed.modifyFirst _ f rt0.rtPathList = []
    rw [← List.length_eq_zero_iff, ← List.length_eq_zero_iff, Keyed.length_modifyFirst]

/-- **How a request is recorded**: with the paths `reversePaths` gives, or not at all. -/
theorem reverseRoute_spec (env : Env) (p : Packet) (he : x.rtLookup rq.rqSrc = some rt0) (hk : rt0.Kept) :
    match rt0.reversePaths env x p rq with
    | some ps => ∃ y e, x.reverseRoute env p rq = .ok (y, some (x.setsReverse env p rq rt0)) ∧ Left rq.rqSrc x y e ∧
        y.log = x.log ∧ x.Records (rt0.recorded env.inf rq.rqSrcSeqno ps) e
    | none => (∃ y, x.reverseRoute env p rq = .ok (y, none) ∧ y.log = x.log) ∨
        ∃ s, x.reverseRoute env p rq = .error (.assertion s) := by
  unfold reverseRoute RtEntry.reversePaths setsReverse
  rw [he]
  simp only
  by_cases hlt : rt0.rtSeqno < rq.rqSrcSeqno
  · rw [if_pos hlt, if_pos hlt, if_pos hlt]
    refine ⟨_, _, rfl, .rtModify he (fun _ => rfl) (kept_renewReverse ..), rfl, rfl, rfl, ?_, rfl, rfl⟩
    exact (if_pos hlt).symm
  rw [if_neg hlt, if_neg hlt, if_neg hlt]
  by_cases heq : rt0.rtSeqno = rq.rqSrcSeqno ∧ rt0.rtAdvertisedHops > rq.rqHopCount
  · rw [if_pos heq]
    by_cases hup : rt0.rtFlags = .up
    · have hgo : ¬ (rt0.rtSeqno ≠ rq.rqSrcSeqno ∨ rt0.rtAdvertisedHops ≤ rq.rqHopCount ∨ rt0.rtFlags ≠ .up) := by
        simp only [heq.1, hup, ne_eq, not_true_eq_false, or_false, false_or]
        omega
      have hup' : ¬ rt0.rtFlags ≠ .up := not_not.2 hup
      rw [if_neg hgo, if_neg hgo, if_neg hup']
      have hsame : Left rq.rqSrc x x rt0 := ⟨he, hk, .refl x, rfl⟩
      have hadv : rt0.rtAdvertisedHops = if rt0.rtSeqno < rq.rqSrcSeqno then env.inf else rt0.rtAdvertisedHops :=
        (if_neg hlt).symm
      have hkept : x.Records (rt0.recorded env.inf rq.rqSrcSeqno rt0.rtPathList) rt0 := ⟨hup, heq.1, hadv, rfl, rfl⟩
      cases hfind : rt0.disjointPathLookup p.saddr rq.rqFirstHop with
      | some path =>
        simp only
        by_cases hh : path.hopcount = rq.rqHopCount + 1
        · have hh' : ¬ path.hopcount ≠ rq.rqHopCount + 1 := not_not.2 hh
          rw [if_pos hh, if_neg hh']
          rw [decide_eq_true hh]
          refine ⟨_, _, rfl, .rtModify he (fun _ => rfl) (kept_modifyDisjoint hk _ _ _), rfl, hup, heq.1, hadv, ?_, ?_⟩
          · refine Keyed.map_modifyFirst Path.hop (fun a _ => ?_) _
            rfl
          · refine Keyed.map_modifyFirst x.distrusts (fun a _ => ?_) _
            rfl
        · rw [if_neg hh, if_pos hh]
          exact .inr ⟨_, rfl⟩
      | none =>
        simp only
        by_cases hnew : rt0.newDisjointPath p.saddr rq.rqFirstHop = true
        · rw [if_pos hnew, if_pos hnew]
          by_cases hroom : rt0.rtNumPaths < x.teaomdvMaxPaths ∧ ¬ x.tooLong rq.rqHopCount rt0 = true
          · rw [if_pos hroom, if_pos hroom]
            by_cases hlong : x.tooLong rq.rqHopCount (extendReverse env p rq rt0) = true
            · rw [if_pos hlong, if_pos hlong]
              exact .inl ⟨_, rfl, rfl⟩
            · rw [if_neg hlong, if_neg hlong, decide_eq_true ⟨hnew, hroom.1, hroom.2, hlong⟩]
              exact ⟨_, _, rfl, .rtModify he (fun _ => rfl) (kept_extendReverse hk hup ..), rfl, hup, heq.1, hadv, rfl, rfl⟩
          · rw [if_neg hroom, if_neg hroom]
            by_cases hlong : x.tooLong rq.rqHopCount rt0 = true
            · rw [if_pos hlong, if_pos hlong]
              exact .inl ⟨_, rfl, rfl⟩
            · rw [if_neg hlong, if_neg hlong, decide_eq_false (fun h => hroom ⟨h.2.1, h.2.2.1⟩)]
              exact ⟨_, _, rfl, hsame, rfl, hkept⟩
        · rw [if_neg hnew, if_neg hnew]
          by_cases hown : rq.rqDst = x.index ∧
              (rt0.pathLookupLasthop rq.rqFirstHop).all (fun erp => rq.rqHopCount + 1 > erp.hopcount) = true
          · rw [if_pos hown, if_pos hown]
            exact .inl ⟨_, rfl, rfl⟩
          · rw [if_neg hown, if_neg hown, decide_eq_false (fun h => hnew h.1)]
            exact ⟨_, _, rfl, hsame, rfl, hkept⟩
    · have hgo : rt0.rtSeqno ≠ rq.rqSrcSeqno ∨ rt0.rtAdvertisedHops ≤ rq.rqHopCount ∨ rt0.rtFlags ≠ .up := .inr (.inr hup)
      rw [if_pos hgo, if_pos hup]
      exact .inr ⟨_, rfl⟩
  · have hgo : rt0.rtSeqno ≠ rq.rqSrcSeqno ∨ rt0.rtAdvertisedHops ≤ rq.rqHopCount ∨ rt0.rtFlags ≠ .up := by
      by_cases hs : rt0.rtSeqno = rq.rqSrcSeqno
      · exact .inr (.inl (Nat.le_of_not_lt (fun h => heq ⟨hs, h⟩)))
      · exact .inl hs
    rw [if_pos hgo, if_neg heq]
    exact .inl ⟨_, rfl, rfl⟩

end Reverse

/-! ## The update of the forward entry -/

section Forward

variable {rp : Rrep} {rt : RtEntry} {nbt : Option Neighbor}

theorem kept_extendForward (hk : rt.Kept) (hup : rt.rtFlags = .up) (env : Env) (rp : Rrep) :
    (extendForward env rp rt).Kept := by
  refine ⟨?_, by simp [extendForward, RtEntry.pathInsert, hup]⟩
  have := hk.1
  simp only [extendForward, RtEntry.pathInsert, List.length_append, List.length_singleton]
  omega

/-- **How a reply is recorded**: with the paths `forwardPaths` gives, or not at all. -/
theorem forwardRouteTo_spec (env : Env) (nbt : Option Neighbor) (he : x.rtLookup rp.rpDst = some rt) (hk : rt.Kept) :
    match rt.forwardPaths env x rp nbt with
    | some ps => ∃ y e, x.forwardRouteTo env rp nbt = .ok (y, true) ∧ Left rp.rpDst x y e ∧ y.log = x.log ∧
        x.Records (rt.recorded env.inf rp.rpDstSeqno ps) e
    | none => x.forwardRouteTo env rp nbt = .ok (x, false) ∨ ∃ s, x.forwardRouteTo env rp nbt = .error (.assertion s) := by
  unfold forwardRouteTo RtEntry.forwardPaths
  rw [he]
  simp only
  by_cases hlt : rt.rtSeqno < rp.rpDstSeqno
  · rw [if_pos hlt, if_pos hlt]
    refine ⟨_, _, rfl, .rtModify he (fun _ => rfl) ⟨rfl, by simp [renewForward, RtEntry.pathInsert]⟩, rfl, rfl, rfl, ?_, rfl, rfl⟩
    exact (if_pos hlt).symm
  rw [if_neg hlt, if_neg hlt]
  by_cases heq : rt.rtSeqno = rp.rpDstSeqno ∧ rt.rtAdvertisedHops > rp.rpHopCount
  · by_cases hup : rt.rtFlags = .up
    · have hgo : ¬ (rt.rtSeqno ≠ rp.rpDstSeqno ∨ rt.rtAdvertisedHops ≤ rp.rpHopCount ∨ rt.rtFlags ≠ .up) := by
        simp only [heq.1, hup, ne_eq, not_true_eq_false, or_false, false_or]
        omega
      have hup' : ¬ rt.rtFlags ≠ .up := not_not.2 hup
      have hadv : rt.rtAdvertisedHops = if rt.rtSeqno < rp.rpDstSeqno then env.inf else rt.rtAdvertisedHops :=
        (if_neg hlt).symm
      rw [if_neg hgo, if_pos heq, if_neg hup']
      cases hfind : rt.disjointPathLookup rp.rpSrc rp.rpFirstHop with
      | some path =>
        simp only
        by_cases hh : path.hopcount = rp.rpHopCount + 1
        · have hh' : ¬ path.hopcount ≠ rp.rpHopCount + 1 := not_not.2 hh
          rw [if_pos hh, if_neg hh']
          exact ⟨_, _, rfl, .rtModify he (fun _ => rfl) (kept_modifyDisjoint hk _ _ _), rfl, hup, heq.1, hadv, rfl, rfl⟩
        · rw [if_neg hh, if_pos hh]
          exact .inr ⟨_, rfl⟩
      | none =>
        simp only
        by_cases hnew : rt.newDisjointPath rp.rpSrc rp.rpFirstHop = true ∧ rt.rtNumPaths < x.teaomdvMaxPaths ∧
            ¬ x.tooLong rp.rpHopCount rt = true
        · rw [if_pos hnew, if_pos hnew]
          exact ⟨_, _, rfl, .rtModify he (fun _ => rfl) (kept_extendForward hk hup ..), rfl, hup, heq.1, hadv, rfl, rfl⟩
        · rw [if_neg hnew, if_neg hnew]
          exact .inl rfl
    · have hgo : rt.rtSeqno ≠ rp.rpDstSeqno ∨ rt.rtAdvertisedHops ≤ rp.rpHopCount ∨ rt.rtFlags ≠ .up := .inr (.inr hup)
      rw [if_pos hgo, if_pos heq, if_pos hup]
      exact .inr ⟨_, rfl⟩
  · have hgo : rt.rtSeqno ≠ rp.rpDstSeqno ∨ rt.rtAdvertisedHops ≤ rp.rpHopCount ∨ rt.rtFlags ≠ .up := by
      by_cases hs : rt.rtSeqno = rp.rpDstSeqno
      · exact .inr (.inl (Nat.le_of_not_lt (fun h => heq ⟨hs, h⟩)))
      · exact .inl hs
    rw [if_pos hgo, if_neg heq]
    exact .inl rfl

end Forward

/-! ## Up to the answer -/

/-- The paths of the reverse entry when `recvRequest` begins to send off what is buffered; `none` if it does not. -/
def requestPaths (env : Env) (x : Exec) (p : Packet) (rq : Rreq) : Option (List Path) :=
  if rq.rqSrc = x.index ∨ x.distrustsRequest p rq then none
  else (x.entryFor env rq.rqSrc).reversePaths env x p (x.seenRequest p rq)

/-- The paths of the forward entry when `recvReply` begins to send off what is buffered; `none` if it does not. -/
def replyPaths (env : Env) (x : Exec) (p : Packet) (rp : Rrep) : Option (List Path) :=
  if x.distrustsReply p rp ∨ rp.rpDst = x.index then none
  else (x.entryFor env rp.rpDst).forwardPaths env x (rp.lowerForward (x.nbLookup p.prevHop)) (x.nbLookup p.prevHop)

/-- A flush with nothing to send leaves the entry its paths. -/
theorem flush_idle (he : x.rtLookup d = some e) (hup : e.rtFlags = .up) (hidle : x.buffered env d = []) :
    Ends (fun y => y.rtLookup d = some e.resetSoftState) (x.flush env d) := by
  unfold flush drain drainLoop
  rw [he]
  simp only [hup, if_true]
  rcases deque_spec env (x.rtModify d RtEntry.resetSoftState) d with ⟨-, hdeque⟩ | ⟨q, y, -, hcons, -⟩
  · rw [hdeque]
    exact Ends.ok (rtLookup_rtModify he (show e.rtDst = d from rtDst_of_rtLookup he))
  · have : (x.rtModify d RtEntry.resetSoftState).buffered env d = [] := hidle
    rw [this] at hcons
    cases hcons

/-- The state in which a handler answers, once the entry for `d` has been recorded as `r` and what was buffered for it
sent off. -/
structure Flushed (env : Env) (d : NsAddr) (r : RtEntry) (x y : Exec) (e : RtEntry) : Prop where
  entry : y.rtLookup d = some e
  kept : e.Kept
  spares : Spares d x y
  recorded : ∃ z e₀, Left d x z e₀ ∧ x.Records r e₀ ∧ z.flush env d = .ok y
  nonempty : r.rtPathList ≠ []
  empty : e.rtPathList = [] ↔ x.WearsOut r.rtPathList (x.buffered env d)
  settles : x.Settles 0 (ptrs (x.worn env d r.rtPathList).2) y
  mute : y.Carries (fun _ _ => True) (fun q => q.Mute ∨ ∃ t, Act.schedule q t ∈ x.log)
  calm : e.rtPathList ≠ [] → x.Calm → y.Calm

/-- Sending off goes by the marks of the paths. -/
theorem Left.flush {r : RtEntry} (hl : Left d x y e) (hlog : y.log = x.log) (hr : x.Records r e) (hq : x.DataQueue) :
    ∃ z e', y.flush env d = .ok z ∧ Flushed env d r x z e' := by
  have hqy : y.DataQueue := by
    unfold DataQueue
    rw [hl.queue]
    exact hq
  have hworn : y.worn env d e.rtPathList = x.worn env d r.rtPathList := by
    unfold worn buffered
    rw [hl.queue, funext hl.spares.distrusts_eq, funext hl.spares.tests_eq, hr.marks]
  obtain ⟨z, e', hz, he', hk', hs, hempty, hsettle⟩ := flush_ok env hl.entry hl.kept hr.up hqy
  rw [← worn_fst_eq_nil, hworn, worn_fst_eq_nil] at hempty
  rw [hworn] at hsettle
  have hmute := flush_keeps (S := fun _ _ => True) (V := fun q => q.Mute ∨ ∃ t, Act.schedule q t ∈ x.log)
    ⟨fun _ _ => trivial, fun _ _ _ => trivial, .inl⟩ d
    ⟨fun _ _ _ _ => trivial, fun q t hq _ => .inr ⟨t, hlog ▸ hq⟩, hqy⟩ z hz
  have hne : r.rtPathList ≠ [] := by
    intro hnil
    have hm := hr.hops
    rw [hnil] at hm
    exact hl.kept.2.1 hr.up (List.map_eq_nil_iff.1 hm)
  have htrace : Trace env .nothing y (y.flush env d) := flush_trace d hqy
  have hsinks : Sinks y z := steps_sinks (.inl rfl) (htrace.of_ok hz)
  refine ⟨z, e', hz, he', hk', hl.spares.trans hs, ⟨y, e, hl, hr, hz⟩, hne, hempty, (Settles.of_log 0 hlog).trans hsettle, hmute, ?_⟩
  intro hleft hc d' n hm
  rcases hsinks.fell d' n hm with hm | ⟨e₁, e₂, he₁, hup₁, -, he₂, hnup₂, -⟩
  · exact hc d' n (hlog ▸ hm)
  -- only the entry worked on could fall, and it has paths
  · by_cases hd : d' = d
    · subst hd
      obtain rfl := Option.some.inj (he'.symm.trans he₂)
      exact absurd (hk'.2.2 hleft) hnup₂
    · rw [hs.others d' hd, he₁] at he₂
      obtain rfl := Option.some.inj he₂
      exact absurd hup₁ hnup₂

theorem Records.spares {r : RtEntry} (hr : y.Records r e) (hs : Spares d x y) : x.Records r e :=
  ⟨hr.up, hr.seqno, hr.adv, hr.hops, funext hs.distrusts_eq ▸ hr.marks⟩

theorem setsReverse_congr (h : Spares d x y) (p : Packet) (rq : Rreq) (rt0 : RtEntry) :
    y.setsReverse env p rq rt0 = x.setsReverse env p rq rt0 := by
  unfold setsReverse tooLong
  rw [h.maxPaths, h.lenDiff]

theorem reversePaths_congr (h : Spares d x y) (p : Packet) (rq : Rreq) (rt0 : RtEntry) :
    rt0.reversePaths env y p rq = rt0.reversePaths env x p rq := by
  unfold RtEntry.reversePaths tooLong
  rw [h.index, h.maxPaths, h.lenDiff]

theorem forwardPaths_congr (h : Spares d x y) (rp : Rrep) (nbt : Option Neighbor) (rt : RtEntry) :
    rt.forwardPaths env y rp nbt = rt.forwardPaths env x rp nbt := by
  unfold RtEntry.forwardPaths tooLong
  rw [h.maxPaths, h.lenDiff]

/-- **`recvRequest` up to the answer.** -/
theorem recvRequest_spec (env : Env) (p : Packet) (rq : Rreq) (hx : x.toAgent.Tidy) :
    match x.requestPaths env p rq with
    | some ps => ∃ ids y e, x.recvRequest env p rq =
          y.answerRequest env p (x.seenRequest p rq) (x.idGet rq.rqSrc rq.rqBcastId).isSome
            (x.setsReverse env p (x.seenRequest p rq) (x.entryFor env rq.rqSrc)) ∧
        ids = (if (x.idGet rq.rqSrc rq.rqBcastId).isSome then x else x.idInsert env rq.rqSrc rq.rqBcastId).bihead ∧
        rq.rqSrc ≠ x.index ∧ Flushed env rq.rqSrc ((x.entryFor env rq.rqSrc).recorded env.inf rq.rqSrcSeqno ps)
          { x with bihead := ids } y e
    | none => (∃ y : Exec, x.recvRequest env p rq = .ok (y.free p) ∧ y.log = x.log) ∨
        ∃ s, x.recvRequest env p rq = .error (.assertion s) := by
  unfold requestPaths recvRequest
  by_cases hsrc : rq.rqSrc = x.index
  · rw [if_pos (.inl hsrc), if_pos hsrc]
    exact .inl ⟨x, rfl, rfl⟩
  by_cases ht : x.distrustsRequest p rq = true
  · rw [if_pos (.inr ht), if_neg hsrc, if_pos ht]
    exact .inl ⟨x, rfl, rfl⟩
  have hno : ¬ (rq.rqSrc = x.index ∨ x.distrustsRequest p rq = true) := not_or.2 ⟨hsrc, ht⟩
  rw [if_neg hno, if_neg hsrc, if_neg ht]
  simp only
  obtain ⟨hseen, hbid, hseqno⟩ : (x.seenRequest p rq).rqSrc = rq.rqSrc ∧
      (x.seenRequest p rq).rqBcastId = rq.rqBcastId ∧ (x.seenRequest p rq).rqSrcSeqno = rq.rqSrcSeqno := by
    rw [seenRequest_eq]
    exact ⟨rfl, rfl, rfl⟩
  generalize x.seenRequest p rq = rq' at hseen hbid hseqno ⊢
  rw [← hseen, ← hbid, ← hseqno]
  obtain ⟨ids, y, hprep, hl, hlog, hids⟩ := prepareRequest_left rq' (kept_entryFor env hx.rep rq'.rqSrc)
  rw [hprep, ok_bind]
  have hspec := reverseRoute_spec env p hl.entry hl.kept
  rw [reversePaths_congr hl.spares] at hspec
  have hsame : (x.entryFor env rq'.rqSrc).reversePaths env x p rq' =
    (x.entryFor env rq'.rqSrc).reversePaths env { x with bihead := ids } p rq' := rfl
  rw [hsame]
  cases hps : (x.entryFor env rq'.rqSrc).reversePaths env { x with bihead := ids } p rq' with
  | none =>
    rw [hps] at hspec
    rcases hspec with ⟨z, hz, hlogz⟩ | ⟨s, hs⟩
    · rw [hz, ok_bind]
      exact .inl ⟨z, rfl, hlogz.trans hlog⟩
    · rw [hs]
      exact .inr ⟨s, rfl⟩
  | some ps =>
    rw [hps] at hspec
    obtain ⟨z, e, hz, hlz, hlogz, hr⟩ := hspec
    obtain ⟨w, e', hw, hf⟩ := (hl.trans hlz).flush (hlogz.trans hlog) (hr.spares hl.spares) hx.data
    rw [hz, ok_bind]
    simp only
    rw [hw, ok_bind, setsReverse_congr hl.spares]
    exact ⟨ids, w, e', rfl, hids, hseen ▸ hsrc, hf⟩

/-- **`recvReply` up to the relay.** -/
theorem recvReply_spec (env : Env) (p : Packet) (rp : Rrep) (hx : x.toAgent.Tidy) :
    match x.replyPaths env p rp with
    | some ps => ∃ y e, x.recvReply env p rp = (if p.daddr = y.index then .ok (y.free p)
          else y.relayReply env p (rp.lowerForward (x.nbLookup p.prevHop))) ∧
        rp.rpDst ≠ x.index ∧
        Flushed env rp.rpDst ((x.entryFor env rp.rpDst).recorded env.inf rp.rpDstSeqno ps) x y e
    | none => (∃ y : Exec, x.recvReply env p rp = .ok (y.free p) ∧ y.log = x.log) ∨
        ∃ s, x.recvReply env p rp = .error (.assertion s) := by
  unfold replyPaths recvReply
  by_cases ht : x.distrustsReply p rp = true
  · rw [if_pos (.inl ht), if_pos ht]
    exact .inl ⟨x, rfl, rfl⟩
  by_cases hdst : rp.rpDst = x.index
  · rw [if_pos (.inr hdst), if_neg ht, if_pos hdst]
    exact .inl ⟨x, rfl, rfl⟩
  have hno : ¬ (x.distrustsReply p rp = true ∨ rp.rpDst = x.index) := not_or.2 ⟨ht, hdst⟩
  rw [if_neg hno, if_neg ht, if_neg hdst]
  simp only
  obtain ⟨hlow, hseqno⟩ : (rp.lowerForward (x.nbLookup p.prevHop)).rpDst = rp.rpDst ∧
      (rp.lowerForward (x.nbLookup p.prevHop)).rpDstSeqno = rp.rpDstSeqno := by
    obtain ⟨q, h⟩ := lowerForward_eq rp (x.nbLookup p.prevHop)
    rw [h]
    exact ⟨rfl, rfl⟩
  generalize x.nbLookup p.prevHop = nbt at hlow hseqno ⊢
  generalize rp.lowerForward nbt = rp' at hlow hseqno ⊢
  rw [← hlow, ← hseqno]
  obtain ⟨y, hy, hl, hlog⟩ := rtEnsure_left (kept_entryFor env hx.rep rp'.rpDst)
  rw [hy, ok_bind]
  have hspec := forwardRouteTo_spec env nbt hl.entry hl.kept
  rw [forwardPaths_congr hl.spares] at hspec
  cases hps : (x.entryFor env rp'.rpDst).forwardPaths env x rp' nbt with
  | none =>
    rw [hps] at hspec
    rcases hspec with hz | ⟨s, hs⟩
    · rw [hz, ok_bind]
      exact .inl ⟨y, rfl, hlog⟩
    · rw [hs]
      exact .inr ⟨s, rfl⟩
  | some ps =>
    rw [hps] at hspec
    obtain ⟨z, e, hz, hlz, hlogz, hr⟩ := hspec
    obtain ⟨w, e', hw, hf⟩ := (hl.trans hlz).flush (hlogz.trans hlog) (hr.spares hl.spares) hx.data
    rw [hz, ok_bind]
    simp only
    rw [hw, ok_bind]
    exact ⟨w, e', rfl, hlow ▸ hdst, hf⟩

/-! ## What the two handlers are given -/

section Routing

variable (htype : p.ptype = .teaomdv) (hport : p.sport = rtPort ∧ p.dport = rtPort)

include htype hport

theorem recv_rreq {rq : Rreq} (hb : p.body = .rreq rq) : x.recv env p = x.recvRequest env { p with ttl := p.ttl - 1 } rq := by
  have hport' : ¬ (p.sport ≠ rtPort ∨ p.dport ≠ rtPort) := by simp [hport]
  unfold recv recvTEAOMDV
  rw [if_pos htype, if_neg hport']
  simp only [hb]

theorem recv_rrep {rp : Rrep} (hb : p.body = .rrep rp) : x.recv env p = x.recvReply env { p with ttl := p.ttl - 1 } rp := by
  have hport' : ¬ (p.sport ≠ rtPort ∨ p.dport ≠ rtPort) := by simp [hport]
  unfold recv recvTEAOMDV
  rw [if_pos htype, if_neg hport']
  simp only [hb]

end Routing

end Exec

end TeAomdv

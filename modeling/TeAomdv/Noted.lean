import TeAomdv.TraceForward
/-!
# Noted — what a RREQ or RREP does to the entry it is about

`recvRequest` and `recvReply` update an entry in one way, each with writes of its own (`Update`): they renew it, confirm the
path they name again, add a path, or leave it as it is (`Noted`).
-/
namespace TeAomdv

open Fallible (Outcome)

/-- The writes of an update by what `a` says. -/
structure Update (inf : Nat) (a : Advert) where
  renew : RtEntry → RtEntry
  extend : RtEntry → RtEntry
  refresh : Path → Path
  /-- The path it brings, by whether the entry is renewed. -/
  path : Bool → Path
  renewed : ∀ rt, (renew rt).route =
    { rt.route with flags := .up, seqno := a.seqno, adv := inf, num := 1, hops := [a.hop true] }
  extended : ∀ rt, (extend rt).route = { rt.route with num := rt.route.num + 1, hops := rt.route.hops ++ [a.hop false] }
  refreshed : ∀ f, (refresh f).hop = f.hop
  renewedPaths : ∀ rt, (renew rt).rtPathList = [path true]
  extendedPaths : ∀ rt, (extend rt).rtPathList = rt.rtPathList ++ [path false]
  renewedPcs : ∀ rt, (renew rt).rtPclist = rt.rtPclist
  extendedPcs : ∀ rt, (extend rt).rtPclist = rt.rtPclist

theorem disjoint_of_newDisjointPath {e : RtEntry} {a : Advert} (hd : e.newDisjointPath a.sender a.lasthop = true) :
    e.route.Disjoint a := by
  intro f hf
  obtain ⟨q, hq, rfl⟩ := List.mem_map.1 hf
  have : ∀ q ∈ e.rtPathList, q.nexthop ≠ a.sender ∧ q.lasthop ≠ a.lasthop := by
    simpa [RtEntry.newDisjointPath] using hd
  exact this q hq

theorem route_pathInsert (e : RtEntry) (n : NsAddr) (k : Nat) (t : ℚ) (l : NsAddr) (fpt rpt : ℚ) (o : Origin) :
    (e.pathInsert n k t l fpt rpt o).route =
      { e.route with num := e.route.num + 1, hops := e.route.hops ++ [⟨n, k, l, o⟩] } := by
  simp [RtEntry.pathInsert, RtEntry.route, Path.hop]

namespace Exec

/-- The writes of `recvRequest`. -/
def reverseUpdate (env : Env) (p : Packet) (rq : Rreq) :
    Update env.inf ⟨rq.rqSrc, rq.rqSrcSeqno, rq.rqHopCount, p.saddr, rq.rqFirstHop⟩ where
  renew := renewReverse env p rq
  extend := extendReverse env p rq
  refresh := fun path => { path with expire := max path.expire (env.now + revRouteLife) }
  path := fun renewed => ⟨p.saddr, rq.rqHopCount + 1, env.now + revRouteLife, rq.rqFirstHop, rq.FPT, rq.RPT,
    ⟨rq.rqSrcSeqno, renewed⟩⟩
  renewed := fun _ => rfl
  extended := fun rt => route_pathInsert rt ..
  refreshed := fun _ => rfl
  renewedPaths := fun _ => rfl
  extendedPaths := fun _ => rfl
  renewedPcs := fun _ => rfl
  extendedPcs := fun _ => rfl

/-- The writes of `recvReply`. -/
def forwardUpdate (env : Env) (rp : Rrep) (nbt : Option Neighbor) :
    Update env.inf ⟨rp.rpDst, rp.rpDstSeqno, rp.rpHopCount, rp.rpSrc, rp.rpFirstHop⟩ where
  renew := renewForward env rp
  extend := extendForward env rp
  refresh := refreshForward env rp nbt
  path := fun renewed => ⟨rp.rpSrc, rp.rpHopCount + 1, env.now + rp.rpLifetime, rp.rpFirstHop, rp.FPT, rp.RPT,
    ⟨rp.rpDstSeqno, renewed⟩⟩
  renewed := fun _ => rfl
  extended := fun rt => route_pathInsert rt ..
  refreshed := fun _ => rfl
  renewedPaths := fun _ => rfl
  extendedPaths := fun _ => rfl
  renewedPcs := fun _ => rfl
  extendedPcs := fun _ => rfl

/-- What an update leaves of `x`, in which the entry is `rt`, and whether the packet goes on. -/
inductive Noted {inf : Nat} {a : Advert} (u : Update inf a) (x : Exec) (rt : RtEntry) : Exec → Bool → Prop
  | renew : rt.rtSeqno < a.seqno → Noted u x rt (x.rtModify a.dst u.renew) true
  | refresh : rt.rtSeqno = a.seqno → rt.rtFlags = .up →
      Noted u x rt (x.rtModify a.dst (fun rt => rt.modifyDisjoint a.sender a.lasthop u.refresh)) true
  | extend (goes : Bool) : rt.rtSeqno = a.seqno → a.hops < rt.rtAdvertisedHops → rt.rtFlags = .up →
      rt.newDisjointPath a.sender a.lasthop → rt.rtNumPaths < x.teaomdvMaxPaths → ¬ x.tooLong a.hops rt →
      Noted u x rt (x.rtModify a.dst u.extend) goes
  | keep (goes : Bool) : (goes = true → rt.rtSeqno = a.seqno ∧ rt.rtFlags = .up) → Noted u x rt x goes

/-- **What `recvRequest` does to the reverse entry**; a number heard again meets a live entry, or the assert fails. -/
theorem reverseRoute_noted (env : Env) (x : Exec) (p : Packet) (rq : Rreq) :
    Outcome (fun r => ∃ rt, x.rtLookup rq.rqSrc = some rt ∧ Noted (reverseUpdate env p rq) x rt r.1 r.2.isSome)
      (fun f => x.Calm → Blame (.advert ⟨rq.rqSrc, rq.rqSrcSeqno, rq.rqHopCount, p.saddr, rq.rqFirstHop⟩) x f)
      (x.reverseRoute env p rq) := by
  unfold reverseRoute
  cases he : x.rtLookup rq.rqSrc with
  | none => exact fun _ => trivial
  | some rt =>
    simp only
    split
    · rename_i hlt
      exact ⟨rt, rfl, .renew hlt⟩
    split
    · rename_i hcond
      obtain ⟨hseq, hadv⟩ := hcond
      by_cases hup : rt.rtFlags = .up
      · rw [if_neg (not_not.2 hup)]
        split
        · split
          · exact fun _ => trivial
          · exact ⟨rt, rfl, .refresh hseq hup⟩
        split
        · rename_i hnew
          split
          · rename_i hroom
            exact ⟨rt, rfl, .extend _ hseq hadv hup hnew hroom.1 hroom.2⟩
          · exact ⟨rt, rfl, .keep _ (fun _ => ⟨hseq, hup⟩)⟩
        split
        · exact ⟨rt, rfl, .keep _ (fun _ => ⟨hseq, hup⟩)⟩
        · exact ⟨rt, rfl, .keep _ (fun _ => ⟨hseq, hup⟩)⟩
      · rw [if_pos hup]
        exact fun hc => ⟨hc, _, rfl, rt, mem_of_rtLookup he, hseq, hup⟩
    · exact ⟨rt, rfl, .keep _ nofun⟩

/-- **What `recvReply` does to the forward entry.** -/
theorem forwardRouteTo_noted (env : Env) (x : Exec) (rp : Rrep) (nbt : Option Neighbor) :
    Outcome (fun r => ∃ rt, x.rtLookup rp.rpDst = some rt ∧ Noted (forwardUpdate env rp nbt) x rt r.1 r.2)
      (fun f => x.Calm → Blame (.advert ⟨rp.rpDst, rp.rpDstSeqno, rp.rpHopCount, rp.rpSrc, rp.rpFirstHop⟩) x f)
      (x.forwardRouteTo env rp nbt) := by
  unfold forwardRouteTo
  cases he : x.rtLookup rp.rpDst with
  | none => exact fun _ => trivial
  | some rt =>
    simp only
    split
    · rename_i hlt
      exact ⟨rt, rfl, .renew hlt⟩
    split
    · rename_i hcond
      obtain ⟨hseq, hadv⟩ := hcond
      by_cases hup : rt.rtFlags = .up
      · rw [if_neg (not_not.2 hup)]
        split
        · split
          · exact fun _ => trivial
          · exact ⟨rt, rfl, .refresh hseq hup⟩
        split
        · rename_i hroom
          exact ⟨rt, rfl, .extend _ hseq hadv hup hroom.1 hroom.2.1 hroom.2.2⟩
        · exact ⟨rt, rfl, .keep _ (fun _ => ⟨hseq, hup⟩)⟩
      · rw [if_pos hup]
        exact fun hc => ⟨hc, _, rfl, rt, mem_of_rtLookup he, hseq, hup⟩
    · exact ⟨rt, rfl, .keep _ nofun⟩

namespace Noted

variable {env : Env} {inf : Nat} {a : Advert} {x y : Exec} {rt : RtEntry} {goes : Bool}

/-- An update is a step, by the rules of an entry. -/
theorem steps {u : Update env.inf a} (h : Noted u x rt y goes) (he : x.rtLookup a.dst = some rt) :
    Steps env (.advert a) x y := by
  have hd := rtDst_of_rtLookup he
  cases h with
  | renew hlt =>
    rw [rtModify_eq_put he]
    refine steps_put he ?_ (u.renewedPcs rt)
    rw [u.renewed]
    exact .renew a hd hlt
  | refresh =>
    exact steps_keep x _ (fun e => e.route_modifyDisjoint _ _ u.refreshed) (fun _ h => h)
  | extend goes hseq hadv hup hnew hroom =>
    rw [rtModify_eq_put he]
    refine steps_put he ?_ (u.extendedPcs rt)
    rw [u.extended]
    exact .extend a hd hup hseq hadv (disjoint_of_newDisjointPath hnew) hroom
  | keep => exact .refl

/-- A packet that goes on leaves the entry up, with its number. -/
theorem entry {u : Update inf a} (h : Noted u x rt y true) (he : x.rtLookup a.dst = some rt) :
    ∃ e, y.rtLookup a.dst = some e ∧ e.rtSeqno = a.seqno ∧ e.rtFlags = .up := by
  have hd := rtDst_of_rtLookup he
  cases h with
  | renew hlt =>
    have hroute := u.renewed rt
    exact ⟨_, rtLookup_rtModify he ((congrArg Route.dst hroute).trans hd), congrArg Route.seqno hroute,
      congrArg Route.flags hroute⟩
  | refresh hseq hup => exact ⟨_, rtLookup_rtModify he hd, hseq, hup⟩
  | extend goes hseq hadv hup =>
    have hroute := u.extended rt
    exact ⟨_, rtLookup_rtModify he ((congrArg Route.dst hroute).trans hd), (congrArg Route.seqno hroute).trans hseq,
      (congrArg Route.flags hroute).trans hup⟩
  | keep goes hkeep => exact ⟨rt, he, hkeep rfl⟩

end Noted

end Exec

end TeAomdv

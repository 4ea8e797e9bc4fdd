import TeAomdv.Fresher
import TeAomdv.Waiting
/-!
# Stale — how long the replies of a run last

A RREP of the destination lasts for `MY_ROUTE_TIMEOUT`, and a relay leaves it as it is.  An answer from the table lasts as
long as the first path of the entry, and no one looks whether that has run out: only a timer calls `path_purge`.
-/
namespace TeAomdv

open Fallible (Ends ok_bind)

/-- A RREP has some of its lifetime left. -/
def Packet.Lasting (p : Packet) : Prop := ∀ rp, p.body = .rrep rp → 0 < rp.rpLifetime

namespace RtEntry

/-- A request is answered from the entry, whose first path has run out. -/
def isStale (env : Env) (rq : Rreq) (e : RtEntry) : Bool :=
  e.rtFlags = .up ∧ e.rtSeqno ≥ rq.rqDstSeqno ∧ e.pathFind.any (fun f => f.expire ≤ env.now)

/-- So it is once the request is recorded: where the entry is that of its source too, it may be renewed, or its first path
named again. -/
def staysStale (env : Env) (p : Packet) (rq : Rreq) (e : RtEntry) : Bool :=
  e.isStale env rq ∧ (rq.rqDst = rq.rqSrc → e.rtSeqno ≥ rq.rqSrcSeqno ∧
    ¬ e.pathFind.any (fun f => samePath p.saddr rq.rqFirstHop f))

end RtEntry

namespace Exec

/-- The request is answered from the table, for the first time, and the first path of the entry has run out. -/
def answersStale (env : Env) (x : Exec) (p : Packet) (rq : Rreq) : Bool :=
  rq.rqSrc ≠ x.index ∧ rq.rqDst ≠ x.index ∧ ¬ x.distrustsRequest p rq ∧
    x.setsReverse env p (x.seenRequest p rq) (x.entryFor env rq.rqSrc) ∧
    (x.idGet rq.rqSrc rq.rqBcastId).all (fun b => b.count = 0) ∧
    (x.rtLookup rq.rqDst).any (fun e => e.staysStale env p (x.seenRequest p rq))

/-- The path has not run out, or was there in `x` with the same expiry. -/
def Lasts (x : Exec) (now : ℚ) (d : NsAddr) (f : Path) : Prop :=
  now < f.expire ∨ ∃ e ∈ x.rtable, e.rtDst = d ∧ ∃ g ∈ e.rtPathList,
    g.nexthop = f.nexthop ∧ g.lasthop = f.lasthop ∧ g.expire = f.expire

variable {env : Env} {x y z w : Exec} {d : NsAddr} {e e' : RtEntry} {p : Packet} {rq : Rreq}

/-! ## A reply received -/

theorem lasts_lawful (x : Exec) (now : ℚ) : LawfulAt now (x.Lasts now) Packet.Lasting where
  expire := fun ht _ => .inl ht
  lower := fun _ h _ => h
  mute := by
    intro p hp rp hb
    unfold Packet.Mute at hp
    rw [hb] at hp
    exact hp.elim

theorem lasts_start (hlog : x.log = []) (hq : x.DataQueue) (now : ℚ) : x.Carries (x.Lasts now) Packet.Lasting where
  paths := fun e he f hf => .inr ⟨e, he, rfl, f, hf, rfl, rfl, rfl⟩
  sent := by
    intro p t hp
    rw [hlog] at hp
    exact absurd hp List.not_mem_nil
  queue := hq

/-- **A reply that lasts brings paths that last**, and what is passed on lasts. -/
theorem recvReply_lasts {rp : Rrep} (hrp : 0 < rp.rpLifetime) (hlog : x.log = []) (hq : x.DataQueue) :
    Ends (Carries (x.Lasts env.now) Packet.Lasting) (x.recvReply env p rp) := by
  have hl := lasts_lawful x env.now
  have hx := lasts_start hlog hq env.now
  have hnow : env.now < env.now + rp.rpLifetime := lt_add_of_pos_right _ hrp
  unfold recvReply
  split
  · exact Ends.ok (hx.free p)
  split
  · exact Ends.ok (hx.free p)
  obtain ⟨t, hlow⟩ := lowerForward_eq rp (x.nbLookup p.prevHop)
  simp only [hlow]
  refine Ends.bind (rtEnsure_keeps _ hx) (fun y hy => Ends.bind (forwardRouteTo_noted env y _ _).ends (fun r hr => ?_))
  obtain ⟨z, b⟩ := r
  obtain ⟨rt, -, hn⟩ := hr
  have hz := hn.carries (fun _ => .inl hnow) (fun f _ _ => .inl (lt_max_of_lt_right hnow)) hy
  cases b with
  | false => exact Ends.ok (hz.free p)
  | true =>
    refine Ends.bind (flush_keeps hl _ hz) (fun w hw => ?_)
    split
    · exact Ends.ok (hw.free p)
    · refine relayReply_keeps hl (fun q rp' hb _ _ _ _ hlife rp'' hb' => ?_) hw
      obtain rfl := Body.rrep.inj (hb.symm.trans hb')
      exact hlife.symm ▸ hrp

/-! ## A request recorded -/

/-- What a request that sets `reverse_path` makes of the entry of its source. -/
structure Reversed (env : Env) (p : Packet) (rq : Rreq) (e e' : RtEntry) : Prop where
  dst : e'.rtDst = e.rtDst
  up : e'.rtFlags = .up
  kept : e'.Kept
  renewed : e.rtSeqno < rq.rqSrcSeqno → ∀ f ∈ e'.rtPathList, env.now < f.expire
  confirmed : rq.rqSrcSeqno ≤ e.rtSeqno → e.rtFlags = .up ∧ e'.rtSeqno = e.rtSeqno ∧ e'.pathFind = e.pathFind.map (fun f =>
    if RtEntry.samePath p.saddr rq.rqFirstHop f then { f with expire := max f.expire (env.now + revRouteLife) } else f)

theorem reversed_renew (hlt : e.rtSeqno < rq.rqSrcSeqno) : Reversed env p rq e (renewReverse env p rq e) where
  dst := rfl
  up := rfl
  kept := kept_renewReverse env p rq e
  renewed := by
    intro _ f hf
    rw [List.mem_singleton.1 hf]
    exact lt_reverse env.now
  confirmed := fun h => absurd hlt (Nat.not_lt.2 h)

theorem reversed_confirm (hk : e.Kept) (hup : e.rtFlags = .up) (hnlt : ¬ e.rtSeqno < rq.rqSrcSeqno) :
    Reversed env p rq e (e.modifyDisjoint p.saddr rq.rqFirstHop
      (fun f => { f with expire := max f.expire (env.now + revRouteLife) })) where
  dst := rfl
  up := hup
  kept := kept_modifyDisjoint hk _ _ _
  renewed := fun h => absurd h hnlt
  confirmed := fun _ => ⟨hup, rfl, Keyed.head?_modifyFirst _⟩

/-- A path put at the end is not the first, and the first is not the one the request names. -/
theorem reversed_extend (hk : e.Kept) (hup : e.rtFlags = .up) (hnlt : ¬ e.rtSeqno < rq.rqSrcSeqno)
    (hnew : e.newDisjointPath p.saddr rq.rqFirstHop = true) : Reversed env p rq e (extendReverse env p rq e) where
  dst := rfl
  up := hup
  kept := kept_extendReverse hk hup env p rq
  renewed := fun h => absurd h hnlt
  confirmed := by
    refine fun _ => ⟨hup, rfl, ?_⟩
    obtain ⟨f, fs, hfs⟩ := List.exists_cons_of_ne_nil (hk.2.1 hup)
    have hne : RtEntry.samePath p.saddr rq.rqFirstHop f = false := by
      unfold RtEntry.newDisjointPath at hnew
      simp only [hfs, List.any_cons, Bool.not_eq_true', Bool.or_eq_false_iff] at hnew
      simpa [RtEntry.samePath] using fun h => absurd (.inl h) (of_decide_eq_false hnew.1)
    have hcons : (extendReverse env p rq e).rtPathList = f :: (fs ++ [_]) := congrArg (· ++ _) hfs
    unfold RtEntry.pathFind
    rw [hcons, hfs]
    simp only [List.head?_cons, Option.map_some, hne, Bool.false_eq_true, if_false]

/-- **When `recvRequest` sets `reverse_path`**, and what it has written then. -/
theorem reverseRoute_takes (he : x.rtLookup rq.rqSrc = some e) (hk : e.Kept) :
    Ends (fun r => (r.2 = some true ↔ x.setsReverse env p rq e = true) ∧
      (r.2 = some true → ∃ e', r.1 = x.put rq.rqSrc e' ∧ Reversed env p rq e e')) (x.reverseRoute env p rq) := by
  have hnone : ¬ (none : Option Bool) = some true := by decide
  have hfalse : ¬ some false = some true := by decide
  unfold reverseRoute setsReverse
  rw [he]
  simp only
  by_cases hlt : e.rtSeqno < rq.rqSrcSeqno
  · rw [if_pos hlt, if_pos hlt]
    exact Ends.ok ⟨iff_of_true rfl rfl, fun _ => ⟨_, rtModify_eq_put he _, reversed_renew hlt⟩⟩
  rw [if_neg hlt, if_neg hlt]
  by_cases heq : e.rtSeqno = rq.rqSrcSeqno ∧ e.rtAdvertisedHops > rq.rqHopCount
  swap
  · have hno : e.rtSeqno ≠ rq.rqSrcSeqno ∨ e.rtAdvertisedHops ≤ rq.rqHopCount ∨ e.rtFlags ≠ .up := by
      by_cases hs : e.rtSeqno = rq.rqSrcSeqno
      · exact .inr (.inl (Nat.le_of_not_lt (fun h => heq ⟨hs, h⟩)))
      · exact .inl hs
    rw [if_neg heq, if_pos hno]
    exact Ends.ok ⟨iff_of_false hnone Bool.false_ne_true, fun h => absurd h hnone⟩
  rw [if_pos heq]
  by_cases hup : e.rtFlags = .up
  swap
  · rw [if_pos hup]
    exact Ends.error _
  have hgo : ¬ (e.rtSeqno ≠ rq.rqSrcSeqno ∨ e.rtAdvertisedHops ≤ rq.rqHopCount ∨ e.rtFlags ≠ .up) := by
    simp only [heq.1, hup, ne_eq, not_true_eq_false, or_false, false_or]
    omega
  rw [if_neg (not_not.2 hup), if_neg hgo]
  cases hfind : e.disjointPathLookup p.saddr rq.rqFirstHop with
  | some path =>
    simp only
    split
    · exact Ends.error _
    rename_i hhops
    exact Ends.ok ⟨iff_of_true rfl (decide_eq_true (not_not.1 hhops)),
      fun _ => ⟨_, rtModify_eq_put he _, reversed_confirm hk hup hlt⟩⟩
  | none =>
    simp only
    split
    swap
    · rename_i hnew
      have hno : ¬ decide (e.newDisjointPath p.saddr rq.rqFirstHop = true ∧ e.rtNumPaths < x.teaomdvMaxPaths ∧
          ¬ x.tooLong rq.rqHopCount e = true ∧ ¬ x.tooLong rq.rqHopCount (extendReverse env p rq e) = true) = true :=
        fun h => hnew (of_decide_eq_true h).1
      split
      · exact Ends.ok ⟨iff_of_false hnone hno, fun h => absurd h hnone⟩
      · exact Ends.ok ⟨iff_of_false hfalse hno, fun h => absurd h hfalse⟩
    rename_i hnew
    split
    · rename_i hroom
      by_cases hlong : x.tooLong rq.rqHopCount (extendReverse env p rq e) = true
      · rw [if_pos hlong]
        exact Ends.ok ⟨iff_of_false hnone (fun h => (of_decide_eq_true h).2.2.2 hlong), fun h => absurd h hnone⟩
      rw [if_neg hlong]
      exact Ends.ok ⟨iff_of_true rfl (decide_eq_true ⟨hnew, hroom.1, hroom.2, hlong⟩),
        fun _ => ⟨_, rtModify_eq_put he _, reversed_extend hk hup hlt hnew⟩⟩
    · rename_i hroom
      have hno : (if x.tooLong rq.rqHopCount e = true then none else some false) ≠ some true := by
        split
        · exact hnone
        · exact hfalse
      refine Ends.ok ⟨iff_of_false hno (fun h => ?_), fun h => absurd h hno⟩
      exact hroom ⟨(of_decide_eq_true h).2.1, (of_decide_eq_true h).2.2.1⟩

/-! ## Up to the answer -/

/-- The state `w` in which a request recorded is answered. -/
structure Recorded (env : Env) (rq : Rreq) (stale : Prop) (x w : Exec) : Prop where
  index : w.index = x.index
  ids : w.bihead = x.bihead
  mute : w.replied = []
  stale : (w.rtLookup rq.rqDst).any (fun e => e.isStale env rq) = true ↔ stale

/-- An entry recorded in is not answered from for a stale path, unless it stays stale. -/
theorem Reversed.isStale_iff (h : Reversed env p rq e e') (hd : rq.rqDst = rq.rqSrc) (hconf : rq.rqSrcSeqno ≤ e.rtSeqno) :
    e'.isStale env rq = true ↔ e.staysStale env p rq = true := by
  obtain ⟨hup, hseqno, hfind⟩ := h.confirmed hconf
  unfold RtEntry.staysStale RtEntry.isStale
  rw [hfind, h.up, hup, hseqno]
  cases e.pathFind with
  | none => simp
  | some f =>
    have hlive : ¬ max f.expire (env.now + revRouteLife) ≤ env.now :=
      not_le.2 (lt_max_of_lt_right (lt_reverse env.now))
    cases hsame : RtEntry.samePath p.saddr rq.rqFirstHop f with
    | true => simp [hsame, hd, hlive]
    | false => simp [hsame, hconf]

/-- A renewed entry has no path that has run out. -/
theorem Reversed.carries (h : Reversed env p rq e e') (he : y.rtLookup rq.rqSrc = some e) (hrep : y.toAgent.Rep)
    (hlog : y.log = []) (hq : (y.put rq.rqSrc e').DataQueue) : (y.put rq.rqSrc e').Carries
      (fun d f => e.rtSeqno < rq.rqSrcSeqno → d = rq.rqSrc → env.now < f.expire) (fun q => q.reply = none) where
  paths := by
    intro a ha f hf hlt hd
    have hdst : e'.rtDst = rq.rqSrc := h.dst.trans (rtDst_of_rtLookup he)
    have hnodup : ((y.put rq.rqSrc e').rtable.map (·.rtDst)).Nodup := by
      rw [map_rtDst_put hdst]
      exact hrep.dsts
    have ha' := Keyed.find?_of_mem_nodup (·.rtDst) hnodup ha
    rw [hd] at ha'
    obtain rfl := Option.some.inj ((rtLookup_put he hdst).symm.trans ha')
    exact h.renewed hlt f hf
  sent := by
    intro q t hm _
    have hm : Act.schedule q t ∈ y.log := hm
    rw [hlog] at hm
    exact absurd hm List.not_mem_nil
  queue := hq

/-- **What is sent off before the answer** is no RREP, and leaves the entry answered from as stale as the request did. -/
theorem Reversed.flush (h : Reversed env p rq e e') (he : y.rtLookup rq.rqSrc = some e) (hrep : y.toAgent.Rep)
    (hlog : y.log = []) (hq : y.DataQueue) (hidle : e.rtFlags = .up → y.buffered env rq.rqSrc = []) :
    Ends (Recorded env rq ((y.rtLookup rq.rqDst).any (fun e => e.staysStale env p rq) = true) y)
      ((y.put rq.rqSrc e').flush env rq.rqSrc) := by
  have hdst : e'.rtDst = rq.rqSrc := h.dst.trans (rtDst_of_rtLookup he)
  have he' := rtLookup_put he hdst
  have hqz : (y.put rq.rqSrc e').DataQueue := hq
  obtain ⟨w, -, hw, -, -, hsp, -⟩ := flush_ok env he' h.kept h.up hqz
  have hcarry : w.Carries (fun d f => e.rtSeqno < rq.rqSrcSeqno → d = rq.rqSrc → env.now < f.expire) (fun q => q.reply = none) :=
    flush_keeps ⟨fun ht _ _ _ => ht, fun _ h _ => h, Packet.reply_of_mute⟩ rq.rqSrc (h.carries he hrep hlog hqz) w hw
  rw [hw]
  refine Ends.ok ⟨hsp.index, hsp.ids, replied_eq_nil hcarry.sent, ?_⟩
  by_cases hd : rq.rqDst = rq.rqSrc
  swap
  · have hsame : w.rtLookup rq.rqDst = y.rtLookup rq.rqDst := (hsp.others _ hd).trans (rtLookup_put_ne hdst hd)
    rw [hsame]
    simp [RtEntry.staysStale, hd]
  rw [hd, he, Option.any_some]
  by_cases hconf : rq.rqSrcSeqno ≤ e.rtSeqno
  · have hnone : (y.put rq.rqSrc e').buffered env rq.rqSrc = [] := hidle (h.confirmed hconf).1
    rw [flush_idle he' h.up hnone w hw, Option.any_some]
    exact h.isStale_iff hd hconf
  · refine iff_of_false (fun hany => ?_) (fun hstale => ?_)
    · obtain ⟨a, ha, hstale⟩ := (Option.any_eq_true _ _).1 hany
      obtain ⟨-, -, hfind⟩ := of_decide_eq_true hstale
      obtain ⟨f, hf, hover⟩ := (Option.any_eq_true _ _).1 hfind
      exact absurd (hcarry.paths a (mem_of_rtLookup ha) f (List.mem_of_mem_head? hf) (Nat.lt_of_not_le hconf)
        (rtDst_of_rtLookup ha)) (not_lt.2 (of_decide_eq_true hover))
    · exact hconf ((of_decide_eq_true hstale).2 hd).1

/-! ## The answer -/

/-- The reply is the destination's own, or lasts as long as the first path of the entry for the destination. -/
def Backs (env : Env) (y : Exec) (rp : Rrep) : Prop := rp.rpDst = y.index ∧ rp.rpLifetime = myRouteTimeout ∨
  ∃ e f, y.rtLookup rp.rpDst = some e ∧ e.pathFind = some f ∧ rp.rpLifetime = f.expire - env.now

/-- Every reply sent is backed, and one has no lifetime left just if `stale`. -/
structure Answers (env : Env) (stale : Prop) (y : Exec) : Prop where
  backed : ∀ rp ∈ y.replied, y.Backs env rp
  stale : (∃ rp ∈ y.replied, rp.rpLifetime ≤ 0) ↔ stale

theorem Answers.of_none {stale : Prop} (h : y.replied = []) (hs : ¬ stale) : Answers env stale y := by
  refine ⟨fun rp hrp => ?_, iff_of_false (fun ⟨rp, hrp, _⟩ => ?_) hs⟩
  · rw [h] at hrp
    exact absurd hrp List.not_mem_nil
  · rw [h] at hrp
    exact absurd hrp List.not_mem_nil

theorem Answers.of_one {stale : Prop} {rp : Rrep} (h : y.replied = [rp]) (hb : y.Backs env rp)
    (hs : rp.rpLifetime ≤ 0 ↔ stale) : Answers env stale y := by
  constructor
  · intro rp' hrp'
    rw [h] at hrp'
    rw [List.mem_singleton.1 hrp']
    exact hb
  · rw [h, ← hs]
    exact ⟨fun ⟨rp', hrp', hle⟩ => List.mem_singleton.1 hrp' ▸ hle, fun hle => ⟨rp, List.mem_singleton_self rp, hle⟩⟩

theorem relayRequest_mute (hx : x.replied = []) (hp : p.ptype = .teaomdv) (rt : Option RtEntry) (kill : Bool) :
    Ends (fun y => y.replied = []) (x.relayRequest env p rq rt kill) := by
  refine Ends.mono (relayRequest_ends hp rt kill) (fun y hy => ?_)
  rcases hy with ⟨-, rfl⟩ | ⟨-, e, f, rq', -, -, -, -, hy⟩
  · exact (replied_free x p).trans hx
  · unfold replied
    rcases hy.sent with ⟨-, hsent⟩ | ⟨-, q, hsent, hq, -⟩
    · rw [hsent]
      exact hx
    · have hnone : q.reply = none := by
        unfold Packet.reply
        rw [hq]
      have hx' : x.sent.filterMap Packet.reply = [] := hx
      have hsame : (x.rtModify rq.rqSrc (fun rt => rt.advertise env.inf)).sent = x.sent := rfl
      rw [hsent, List.filterMap_append, hsame, hx', List.filterMap_cons_none hnone]
      rfl

/-- **An answer from the table** lasts as long as the first path of the entry. -/
theorem replyFromTable_answers (hx : x.replied = []) (he : x.rtLookup rq.rqDst = some e) (hup : e.rtFlags = .up)
    (hseqno : e.rtSeqno ≥ rq.rqDstSeqno) (reverse : Bool) :
    Ends (Answers env (reverse = true ∧ (x.idGet rq.rqSrc rq.rqBcastId).all (fun b => b.count = 0) = true ∧
      e.isStale env rq = true)) (x.replyFromTable env p rq e reverse) := by
  unfold replyFromTable
  split
  · exact Ends.error _
  split
  swap
  · rename_i hno
    exact Ends.ok (.of_none ((replied_free x p).trans hx) (fun h => hno ⟨h.1, h.2.1⟩))
  rename_i hgo
  cases hf : e.pathFind with
  | none => exact Ends.error _
  | some f =>
    refine Ends.ok ?_
    have hz : ((x.idMark rq.rqSrc rq.rqBcastId).rtModify rq.rqDst (fun rt => (rt.advertise env.inf).setError true)).replied =
      [] := hx
    have hez := rtLookup_rtModify (x := x.idMark rq.rqSrc rq.rqBcastId) he (f := fun rt => (rt.advertise env.inf).setError true)
      ((rtDst_advertise e env.inf).trans (rtDst_of_rtLookup he))
    generalize (x.idMark rq.rqSrc rq.rqBcastId).rtModify rq.rqDst (fun rt => (rt.advertise env.inf).setError true) = z at hz hez ⊢
    obtain ⟨rp, hreplied, hdst, -, hlife⟩ := replied_sendReply z rq.rqSrc (e.advertise env.inf).rtAdvertisedHops rq.rqDst
      e.rtSeqno (f.expire - env.now) rq.rqTimestamp p.saddr rq.rqBcastId f.lasthop f.FPT f.RPT
    rw [hz, List.nil_append] at hreplied
    refine .of_one ((replied_free _ p).trans hreplied) (.inr ⟨_, f, hdst ▸ hez, ?_, hlife⟩) ?_
    · exact (pathFind_advertise e env.inf).trans hf
    · rw [hlife, sub_nonpos]
      refine ⟨fun hle => ⟨hgo.1, hgo.2, decide_eq_true ⟨hup, hseqno, ?_⟩⟩, fun h => ?_⟩
      · rw [hf]
        exact decide_eq_true hle
      · have := (of_decide_eq_true h.2.2).2.2
        rw [hf] at this
        exact of_decide_eq_true this

/-- **What the answer is backed by**, and when it is stale. -/
theorem answerRequest_answers (hx : x.replied = []) (hp : p.ptype = .teaomdv) (kill reverse : Bool) :
    Ends (Answers env (rq.rqDst ≠ x.index ∧ reverse = true ∧
      (x.idGet rq.rqSrc rq.rqBcastId).all (fun b => b.count = 0) = true ∧
      (x.rtLookup rq.rqDst).any (fun e => e.isStale env rq) = true)) (x.answerRequest env p rq kill reverse) := by
  unfold answerRequest
  split
  · rename_i hdst
    obtain ⟨rp, hreplied, hself, -, hlife⟩ := replied_replyAsDestination env x p rq
    obtain ⟨_, -, hemits⟩ := replyAsDestination_emits env x p rq
    rw [hx, List.nil_append] at hreplied
    refine Ends.ok (.of_one hreplied (.inl ⟨hself.trans hemits.index.symm, hlife⟩) (iff_of_false (fun hle => ?_) (fun h => h.1 hdst)))
    rw [hlife] at hle
    exact absurd hle (by decide)
  rename_i hdst
  cases he : x.rtLookup rq.rqDst with
  | none => exact Ends.mono (relayRequest_mute hx hp none kill) (fun y hy => .of_none hy (fun h => nomatch h.2.2.2))
  | some e =>
    simp only [Option.any_some]
    split
    · rename_i hlive
      refine Ends.mono (replyFromTable_answers hx he hlive.1 hlive.2 reverse) (fun y hy => ⟨hy.backed, hy.stale.trans ?_⟩)
      exact ⟨fun h => ⟨hdst, h⟩, fun h => h.2⟩
    · rename_i hlive
      refine Ends.mono (relayRequest_mute hx hp (some e) kill) (fun y hy => .of_none hy (fun h => hlive ?_))
      obtain ⟨hup, hseqno, -⟩ := of_decide_eq_true h.2.2.2
      exact ⟨hup, hseqno⟩

/-- The lookup that adds an entry for the source does not make any stale. -/
theorem staysStale_left {ids : List BroadcastId} (hl : Left rq.rqSrc { x with bihead := ids } y (x.entryFor env rq.rqSrc)) :
    (y.rtLookup rq.rqDst).any (fun e => e.staysStale env p rq) = (x.rtLookup rq.rqDst).any (fun e => e.staysStale env p rq) := by
  by_cases hd : rq.rqDst = rq.rqSrc
  · rw [hd, hl.entry]
    unfold entryFor
    cases he : x.rtLookup rq.rqSrc with
    | some e => rfl
    | none => rfl
  · rw [hl.spares.others _ hd]
    rfl

/-- A silent handler: its paths may be any, and it has sent no RREP. -/
theorem carries_silent (hlog : x.log = []) (hq : x.DataQueue) : x.Carries (fun _ _ => True) (fun q => q.reply = none) := by
  refine ⟨fun _ _ _ _ => trivial, fun q t hm _ => ?_, hq⟩
  rw [hlog] at hm
  exact absurd hm List.not_mem_nil

/-- What a request is answered with from the update of its reverse entry on. -/
theorem reverseRoute_answers (he : x.rtLookup rq.rqSrc = some e) (hk : e.Kept) (hrep : x.toAgent.Rep) (hlog : x.log = [])
    (hq : x.DataQueue) (hidle : e.rtFlags = .up → x.buffered env rq.rqSrc = []) (hp : p.ptype = .teaomdv) (kill : Bool) :
    Ends (Answers env (rq.rqDst ≠ x.index ∧ x.setsReverse env p rq e = true ∧
      (x.idGet rq.rqSrc rq.rqBcastId).all (fun b => b.count = 0) = true ∧
      (x.rtLookup rq.rqDst).any (fun e => e.staysStale env p rq) = true))
      (x.reverseRoute env p rq >>= fun r => match r with
        | (x, none) => .ok (x.free p)
        | (x, some reverse) => x.flush env rq.rqSrc >>= fun x => x.answerRequest env p rq kill reverse) := by
  refine Ends.bind (P := fun r => x.reverseRoute env p rq = .ok r) (fun r hr => hr) (fun r hr => ?_)
  obtain ⟨hiff, htakes⟩ := reverseRoute_takes he hk r hr
  obtain ⟨rt, -, hn⟩ := (reverseRoute_noted env x p rq).ends r hr
  have hz := hn.carries (fun _ => trivial) (fun _ _ _ => trivial) (carries_silent hlog hq)
  obtain ⟨z, b⟩ := r
  cases b with
  | none => exact Ends.ok (.of_none ((replied_free z p).trans (replied_eq_nil hz.sent)) (fun h => nomatch hiff.2 h.2.1))
  | some b =>
    cases b with
    | false =>
      have hflush : Ends _ (z.flush env rq.rqSrc) :=
        flush_keeps ⟨fun _ _ => trivial, fun _ _ _ => trivial, Packet.reply_of_mute⟩ rq.rqSrc hz
      refine Ends.bind hflush (fun w hw => ?_)
      refine Ends.mono (answerRequest_answers (replied_eq_nil hw.sent) hp kill false) (fun v hv => ⟨hv.backed, ?_⟩)
      exact hv.stale.trans (iff_of_false (fun h => nomatch h.2.1) (fun h => nomatch hiff.2 h.2.1))
    | true =>
      obtain ⟨e', rfl, hrev⟩ := htakes rfl
      refine Ends.bind (hrev.flush he hrep hlog hq hidle) (fun w hw => ?_)
      refine Ends.mono (answerRequest_answers hw.mute hp kill true) (fun v hv => ⟨hv.backed, hv.stale.trans ?_⟩)
      have hids : w.idGet rq.rqSrc rq.rqBcastId = x.idGet rq.rqSrc rq.rqBcastId := by
        unfold idGet
        rw [hw.ids]
      rw [hids, hw.stale, hw.index]
      exact ⟨fun h => ⟨h.1, hiff.1 rfl, h.2.2⟩, fun h => ⟨h.1, rfl, h.2.2⟩⟩

/-- **What `recvRequest` answers with**, and when it answers with a path that has run out. -/
theorem recvRequest_answers (hx : x.toAgent.Tidy) (hlog : x.log = []) (hw : x.Waits) (hp : p.ptype = .teaomdv) :
    Ends (Answers env (x.answersStale env p rq = true)) (x.recvRequest env p rq) := by
  have hmute : x.replied = [] := replied_eq_nil (fun q t hm _ => absurd (hlog ▸ hm) List.not_mem_nil)
  unfold recvRequest
  split
  · rename_i hsrc
    exact Ends.ok (.of_none ((replied_free x p).trans hmute) (fun h => (of_decide_eq_true h).1 hsrc))
  rename_i hsrc
  split
  · rename_i hd
    exact Ends.ok (.of_none ((replied_free x p).trans hmute) (fun h => (of_decide_eq_true h).2.2.1 hd))
  rename_i hd
  obtain ⟨h1, h2, h3⟩ : (x.seenRequest p rq).rqSrc = rq.rqSrc ∧ (x.seenRequest p rq).rqDst = rq.rqDst ∧
      (x.seenRequest p rq).rqBcastId = rq.rqBcastId := by
    rw [seenRequest_eq]
    exact ⟨rfl, rfl, rfl⟩
  unfold answersStale
  generalize x.seenRequest p rq = rq' at h1 h2 h3
  rw [← h1] at hsrc
  rw [← h1, ← h2, ← h3]
  simp only
  obtain ⟨ids, y, hprep, hl, hlogy, hids⟩ := prepareRequest_left rq' (kept_entryFor env hx.rep rq'.rqSrc)
  have hrep : y.toAgent.Rep := rep_of_trace (h := .nothing) (prepareRequest_trace x rq') hx.rep y hprep
  have hqueue : y.rqueue = x.rqueue := hl.queue
  have hidle : (x.entryFor env rq'.rqSrc).rtFlags = .up → y.buffered env rq'.rqSrc = [] := by
    intro hup
    rw [← unbuffered hw hup]
    unfold buffered
    rw [hqueue]
  rw [hprep, ok_bind]
  refine Ends.mono (reverseRoute_answers hl.entry hl.kept hrep (hlogy.trans hlog) (fun q hm => hx.data q (hqueue ▸ hm)) hidle hp _)
    (fun v hv => ⟨hv.backed, hv.stale.trans ?_⟩)
  have hsets : y.setsReverse env p rq' (x.entryFor env rq'.rqSrc) = x.setsReverse env p rq' (x.entryFor env rq'.rqSrc) := by
    unfold setsReverse tooLong
    rw [hl.spares.maxPaths, hl.spares.lenDiff]
  have hget : (y.idGet rq'.rqSrc rq'.rqBcastId).all (fun b => b.count = 0) =
      (x.idGet rq'.rqSrc rq'.rqBcastId).all (fun b => b.count = 0) := by
    rw [← unanswered_cached env x rq'.rqSrc rq'.rqBcastId (fun b => b.count = 0) (fun _ => rfl)]
    unfold idGet
    rw [hl.spares.ids, hids]
    rfl
  rw [hsets, hget, hl.spares.index, staysStale_left hl, decide_eq_true_eq]
  exact ⟨fun h => ⟨hsrc, h.1, hd, h.2⟩, fun h => ⟨h.2.1, h.2.2.2⟩⟩

/-! ## Any invocation -/

/-- **Only a RREQ or a RREP makes a node send RREPs.** -/
theorem handle_mute {inp : Input} (hlog : x.log = []) (hq : x.DataQueue) (hinp : ∀ p, inp = .recv p → p.ptype = .teaomdv →
    (∀ rq, p.body ≠ .rreq rq) ∧ ∀ rp, p.body ≠ .rrep rp) : Ends (fun y => y.replied = []) (x.handle env inp) := by
  have hx : x.Meets x.muteTerms := ⟨rfl, Nat.zero_le _, trivial, fun q hm => (hq q hm).1,
    fun q t hm => absurd (hlog ▸ hm) List.not_mem_nil, fun _ _ => trivial⟩
  refine Ends.mono (handle_meets (muteTerms_lawful x) ?_ hx) (fun y hy => hy.mute)
  cases inp with
  | recv p =>
    refine ⟨fun hr t => ptype_passed hr, fun hr n => Packet.reply_of_ptype (p := (x.passed p).forwarded _ n) (ptype_passed hr),
      fun ht _ q _ hqt => Packet.reply_of_ptype (hqt ▸ ht), fun _ _ _ => ⟨fun _ _ _ => trivial, fun _ _ => trivial⟩,
      fun _ _ _ _ _ => trivial, fun rq ht hb => absurd hb ((hinp p rfl ht).1 rq), fun rq ht hb => absurd hb ((hinp p rfl ht).1 rq),
      fun rp ht hb => absurd hb ((hinp p rfl ht).2 rp), fun _ _ _ => ⟨fun _ _ => trivial, fun _ _ _ _ _ _ => trivial⟩,
      fun _ _ _ _ => trivial⟩
  | tap | rtLlFailed => trivial
  | timer t =>
    cases t with
    | neighbor ifq =>
      intro id p _ hdata _ n
      refine Packet.reply_of_ptype (fun ht => ?_)
      have ht : p.ptype = .teaomdv := ht
      rw [ht] at hdata
      cases hdata
    | broadcast => trivial
    | trust => exact fun _ _ => trivial
    | hello | probe | routeCache | localRepair => trivial

end Exec

namespace Net

variable {inf : Nat} {net : Net} {ev : Event} {x : Exec}

/-- The event makes a node answer a request by a path that has run out. -/
def stale (inf : Nat) (net : Net) (ev : Event) : Bool :=
  (net.packet ev).any (fun p => match p.body with
    | .rreq rq => (net.start ev.node).answersStale (ev.env inf) p rq
    | _ => false)

/-- No RREP of the air has run out. -/
def AirLasts (net : Net) : Prop := ∀ sp ∈ net.air, ∀ rp, sp.2.reply = some rp → 0 < rp.rpLifetime

/-- What an event does with its packet when no RREP of the air has run out: an answer to a RREQ is backed, and stale just if
the event is; a RREP brings paths that last, and one that lasts is passed on. -/
structure Lasts (inf : Nat) (net : Net) (ev : Event) (x : Exec) : Prop where
  request : ∀ p rq, net.packet ev = some p → p.body = .rreq rq → ∀ rp ∈ x.replied, x.Backs (ev.env inf) rp
  reply : ∀ p rp, net.packet ev = some p → p.body = .rrep rp → ∀ e ∈ x.rtable, e.Holds ((net.start ev.node).Lasts ev.now)
  stale : (∃ rp ∈ x.replied, rp.rpLifetime ≤ 0) ↔ net.stale inf ev = true

/-- Where no RREQ or RREP comes in, no RREP is sent. -/
theorem Lasts.of_mute (h : x.replied = [])
    (hno : ∀ p, net.packet ev = some p → (∀ rq, p.body ≠ .rreq rq) ∧ ∀ rp, p.body ≠ .rrep rp) : net.Lasts inf ev x := by
  refine ⟨fun p rq hp hb => absurd hb ((hno p hp).1 rq), fun p rp hp hb => absurd hb ((hno p hp).2 rp), ?_⟩
  rw [h]
  refine iff_of_false ?_ (fun hstale => ?_)
  · rintro ⟨rp, hrp, -⟩
    exact absurd hrp List.not_mem_nil
  · obtain ⟨p, hp, hstale⟩ := (Option.any_eq_true _ _).1 hstale
    split at hstale
    · rename_i rq hb
      exact (hno p hp).1 rq hb
    · cases hstale

/-- A RREQ is answered by what is backed. -/
theorem Lasts.of_answers {p : Packet} {rq : Rreq} (hp : net.packet ev = some p) (hb : p.body = .rreq rq)
    (h : Exec.Answers (ev.env inf) ((net.start ev.node).answersStale (ev.env inf) p rq = true) x) : net.Lasts inf ev x := by
  refine ⟨fun _ _ _ _ => h.backed, fun p' rp hp' hb' => ?_, ?_⟩
  · obtain rfl := Option.some.inj (hp.symm.trans hp')
    cases hb.symm.trans hb'
  · unfold Net.stale
    rw [hp, Option.any_some]
    simp only [hb]
    exact h.stale

/-- A RREP that lasts brings paths that last, and is passed on as one. -/
theorem Lasts.of_carries {p : Packet} {rp : Rrep} (hp : net.packet ev = some p) (hb : p.body = .rrep rp)
    (h : x.Carries ((net.start ev.node).Lasts ev.now) Packet.Lasting) : net.Lasts inf ev x := by
  refine ⟨fun p' rq hp' hb' => ?_, fun _ _ _ _ => h.paths, ?_⟩
  · obtain rfl := Option.some.inj (hp.symm.trans hp')
    cases hb.symm.trans hb'
  · unfold Net.stale
    rw [hp, Option.any_some]
    simp only [hb]
    refine iff_of_false ?_ Bool.false_ne_true
    rintro ⟨rp', hrp', hle⟩
    refine absurd hle (not_le.2 ?_)
    obtain ⟨r, hr, hreply⟩ := List.mem_filterMap.1 hrp'
    obtain ⟨hrt, hrb⟩ := Packet.reply_eq_some.1 hreply
    obtain ⟨t, hm⟩ := Exec.mem_log_of_sent hr
    exact h.sent r t hm hrt rp' hrb

theorem AirLasts.lasts {guard : Net → Event → Prop} (hr : Reach inf guard net) (hair : net.AirLasts)
    (hx : net.exec inf ev = some (.ok x)) : net.Lasts inf ev x := by
  obtain ⟨inp, hinp, hx⟩ : ∃ inp, net.input ev = some inp ∧ (net.start ev.node).handle (ev.env inf) inp = .ok x :=
    Option.map_eq_some_iff.1 hx
  have htidy : (net.start ev.node).toAgent.Tidy := (tidy_of_reach hr ev.node).1
  by_cases hroute : ∃ p, inp = .recv p ∧ p.ptype = .teaomdv ∧ ((∃ rq, p.body = .rreq rq) ∨ ∃ rp, p.body = .rrep rp)
  swap
  · have hno : ∀ p, inp = .recv p → p.ptype = .teaomdv → (∀ rq, p.body ≠ .rreq rq) ∧ ∀ rp, p.body ≠ .rrep rp :=
      fun p hi ht => ⟨fun rq hb => hroute ⟨p, hi, ht, .inl ⟨rq, hb⟩⟩, fun rp hb => hroute ⟨p, hi, ht, .inr ⟨rp, hb⟩⟩⟩
    refine .of_mute (Exec.handle_mute rfl htidy.data hno x hx) (fun p hp => ?_)
    obtain ⟨hi, ht⟩ := packet_eq_some hp
    exact hno p (Option.some.inj (hinp.symm.trans hi)) ht
  obtain ⟨p, rfl, ht, hbody⟩ := hroute
  have hp : net.packet ev = some p := by simp [packet, hinp, ht]
  have hx : (net.start ev.node).recv (ev.env inf) p = .ok x := hx
  have hport : p.sport = rtPort ∧ p.dport = rtPort := by
    by_contra hport
    rw [Exec.recv_of_port ht hport] at hx
    cases hx
  rcases hbody with ⟨rq, hb⟩ | ⟨rp, hb⟩
  · rw [Exec.recv_rreq ht hport hb] at hx
    have hwaits : (net.start ev.node).Waits := Agent.waits_of_reach (agent_of_reach hr ev.node) _
    exact .of_answers hp hb (Exec.recvRequest_answers (p := { p with ttl := p.ttl - 1 }) htidy rfl hwaits ht x hx)
  · rw [Exec.recv_rrep ht hport hb] at hx
    obtain ⟨-, src, q, hq, rfl⟩ := packet_mem_air hp
    have hrp : 0 < rp.rpLifetime := hair (src, q) hq rp (Packet.reply_eq_some.2 ⟨ht, hb⟩)
    exact .of_carries hp hb (Exec.recvReply_lasts hrp rfl htidy.data x hx)

/-- **Every reply lasts, and so do the paths it brings**, in a run in which no node answers by a path that has run out; an
event that does not make a node do so is one whose replies last. -/
theorem lasting_of_reach (h : Reach inf (fun net ev => net.stale inf ev = false) net) :
    (∀ sp ∈ net.air, ∀ rp, sp.2.reply = some rp → 0 < rp.rpLifetime) ∧
      ∀ ev x, net.exec inf ev = some (.ok x) → net.Lasts inf ev x := by
  have hair : net.AirLasts := by
    refine Runs.Reaches.invariant (P := AirLasts) (fun sp hsp => absurd hsp List.not_mem_nil)
      (fun net ev net' hr ih hfresh hstep => ?_) h
    obtain ⟨inp, x, hinp, hx, rfl⟩ := step_eq_some hstep
    have hexec : net.exec inf ev = some (.ok x) := by
      unfold exec
      rw [hinp]
      exact congrArg some hx
    have hlasts := ih.lasts hr hexec
    refine (commit_forall (Q := fun _ => True) ev.now (fun _ => trivial) ih trivial (fun p hp rp hrp => ?_)).2
    by_contra hle
    have : net.stale inf ev = true := hlasts.stale.1 ⟨rp, List.mem_filterMap.2 ⟨p, hp, hrp⟩, not_lt.1 hle⟩
    rw [this] at hfresh
    cases hfresh
  exact ⟨hair, fun ev x hx => hair.lasts h hx⟩

/-- Node 1 learns a route to 3, used for the last time at 3, purges, and is asked for it by 5, through 2, at `t`. -/
def askedAt (t : ℚ) : List Event :=
  let data (i : NsAddr) : What := .originate { ptr := 0, ptype := .other true, saddr := i, daddr := 3, uid := 200 }
  [(data 1).on 1 1, (What.deliver 0).on 2 3, (What.deliver 1).on 3 1, What.routeCacheTimer.on 12 1, (data 5).on t 5,
    (What.deliver 3).on t 2, (What.deliver 4).on t 1]

/-- **A reply that ran out before it was sent brings a path that has run out**: node 1 answers at 14 by a path that lasts until
13, and node 2 stores one that lasts until 15, at 16. -/
theorem stale_of_askedAt : ∃ net, replay 65535 (askedAt 14) = some net ∧ Reach 65535 anyEvent net ∧
    (∃ sp ∈ net.air, ∃ rp, sp.2.reply = some rp ∧ rp.rpLifetime = -1) ∧ (net.entry 2 3).isNone = true ∧
    ∃ net', step 65535 net ((What.deliver 5).on 16 2) = some net' ∧
      ∃ e ∈ (net'.node 2).rtable, e.rtDst = 3 ∧ ∃ f ∈ e.rtPathList, f.expire = 15 := by
  obtain ⟨net, hnet, hr, hfin⟩ := reach_of_obeys 65535 (fun _ _ => true)
    (fun net => net.air.any (fun sp => sp.2.reply.any (fun rp => rp.rpLifetime = -1)) && (net.entry 2 3).isNone &&
      (step 65535 net ((What.deliver 5).on 16 2)).any (fun net' => (net'.entry 2 3).any (fun e =>
        e.rtPathList.any (fun f => f.expire = 15))))
    (fun net ev _ => (trivial : anyEvent net ev)) (askedAt 14) (by decide +kernel)
  simp only [Bool.and_eq_true] at hfin
  obtain ⟨⟨hair, hnone⟩, hstep⟩ := hfin
  obtain ⟨sp, hsp, hreply⟩ := List.any_eq_true.1 hair
  obtain ⟨rp, hrp, hlife⟩ := (Option.any_eq_true _ _).1 hreply
  obtain ⟨net', hnet', hentry⟩ := (Option.any_eq_true _ _).1 hstep
  obtain ⟨e, he, hd, hpath⟩ := of_entry_any hentry
  obtain ⟨f, hf, hexpire⟩ := List.any_eq_true.1 hpath
  exact ⟨net, hnet, hr, ⟨sp, hsp, rp, hrp, of_decide_eq_true hlife⟩, hnone, net', hnet', e, he, hd, f, hf,
    of_decide_eq_true hexpire⟩

/-- Asked at 12, it answers by a path that lasts until 13. -/
theorem lasting_askedAt : ∃ net, replay 65535 (askedAt 12) = some net ∧
    (∃ sp ∈ net.air, ∃ rp, sp.2.reply = some rp ∧ rp.rpLifetime = 1) ∧
    (∀ sp ∈ net.air, ∀ rp, sp.2.reply = some rp → 0 < rp.rpLifetime) ∧
      ∀ ev x, net.exec 65535 ev = some (.ok x) → net.Lasts 65535 ev x := by
  obtain ⟨net, hnet, hr, hair⟩ := reach_of_obeys 65535 (fun net ev => !net.stale 65535 ev)
    (fun net => net.air.any (fun sp => sp.2.reply.any (fun rp => rp.rpLifetime = 1)))
    (fun _ _ h => (Bool.not_eq_true' _).mp h) (askedAt 12) (by decide +kernel)
  obtain ⟨sp, hsp, hreply⟩ := List.any_eq_true.1 hair
  obtain ⟨rp, hrp, hlife⟩ := (Option.any_eq_true _ _).1 hreply
  exact ⟨net, hnet, ⟨sp, hsp, rp, hrp, of_decide_eq_true hlife⟩, lasting_of_reach hr⟩

end Net

end TeAomdv

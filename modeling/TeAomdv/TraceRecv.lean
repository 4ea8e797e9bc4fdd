import TeAomdv.Noted
/-!
# TraceRecv — the reception routines are runs of small steps

`recvRequest` and `recvReply` update an entry by the number heard, send off what is buffered, which changes no number
(`flush_seqno`), and pass on what the entry then advertises.
-/
namespace TeAomdv

open Relation (ReflTransGen)
open Fallible (Traces ok_bind error_bind)

namespace Exec

variable {env : Env} {h : Heard} {x y : Exec} {d : NsAddr} {e : RtEntry} {p : Packet}

/-! ## Route requests received -/

theorem flush_trace (d : NsAddr) (hq : x.DataQueue) : Trace env h x (x.flush env d) := by
  unfold flush
  split
  · exact Traces.error trivial
  · split
    · refine Traces.trans (steps_keep x d (f := RtEntry.resetSoftState) (fun _ => rfl) (fun _ h => h))
        (drain_trace (fun y q _ hq => ?_) d hq)
      unfold flushOne
      split
      · exact Traces.error trivial
      · split
        · exact forward_some_trace (fun hpl => absurd (plain_of_ne hq.1) hpl) _
        · exact Traces.ok .refl
    · exact Traces.ok .refl

/-- Sending off what is buffered changes no number. -/
theorem flush_seqno {r : Route} {d' : NsAddr} (hq : x.DataQueue) (hx : x.flush env d = .ok y) (hr : x.routeOf d' = some r) :
    ∃ r', y.routeOf d' = some r' ∧ r'.seqno = r.seqno := by
  have ht : Trace env .nothing x (x.flush env d) := flush_trace d hq
  rw [hx] at ht
  exact steps_nothing_seqno ht hr

theorem rtEnsure_trace (x : Exec) (d : NsAddr) : Trace env h x (x.rtEnsure env d) := by
  unfold rtEnsure rtAdd
  split
  · rename_i hnone
    split
    · exact Traces.error trivial
    · exact Traces.ok (.single (.add _ (by simpa using hnone)))
  · exact Traces.ok .refl

theorem log_of_rtEnsure (hx : x.rtEnsure env d = .ok y) : y.log = x.log := by
  unfold rtEnsure rtAdd at hx
  split at hx
  · split at hx
    · cases hx
    · cases hx
      rfl
  · cases hx
    rfl

theorem prepareRequest_aside (env : Env) (x : Exec) (rq : Rreq) :
    Aside x (if (x.idGet rq.rqSrc rq.rqBcastId).isSome then x else x.idInsert env rq.rqSrc rq.rqBcastId) := by
  split
  · exact .refl x
  · rename_i hnone
    exact Aside.idInsert env (by simpa using hnone)

theorem prepareRequest_trace (x : Exec) (rq : Rreq) : Trace env h x (x.prepareRequest env rq) :=
  Traces.trans (prepareRequest_aside env x rq).steps (rtEnsure_trace _ _)

theorem log_of_prepareRequest {rq : Rreq} (hx : x.prepareRequest env rq = .ok y) : y.log = x.log := by
  unfold prepareRequest at hx
  rw [log_of_rtEnsure hx]
  split <;> rfl

/-- The reverse entry renewed, extended or confirmed. -/
theorem reverseRoute_trace {rq : Rreq} (hc : x.Calm)
    (hh : h = .advert ⟨rq.rqSrc, rq.rqSrcSeqno, rq.rqHopCount, p.saddr, rq.rqFirstHop⟩) :
    TraceFst env h x (x.reverseRoute env p rq) := by
  subst hh
  refine (reverseRoute_noted env x p rq).traces (fun a ha => ?_) (fun f hf => hf hc)
  obtain ⟨rt, he, hn⟩ := ha
  exact hn.steps he

/-- A request that goes on leaves the reverse entry with its number. -/
theorem reverseRoute_seqno {rq : Rreq} {b : Bool} (hx : x.reverseRoute env p rq = .ok (y, some b)) :
    ∃ r, y.routeOf rq.rqSrc = some r ∧ r.seqno = rq.rqSrcSeqno := by
  obtain ⟨rt, he, hn⟩ := (reverseRoute_noted env x p rq).ends _ hx
  obtain ⟨e, he', hs, -⟩ := hn.entry he
  exact ⟨_, routeOf_of_rtLookup he', hs⟩

theorem even_replySeqno (s n : Nat) : replySeqno s n % 2 = 0 := by
  unfold replySeqno
  simp only
  generalize (if s < _ then _ else s : Nat) = t
  split
  · rw [u32_mod_two]
    omega
  · omega

/-- A reply of this node for itself. -/
theorem replyAsDestination_steps {a : Advert} (env : Env) (x : Exec) (rq : Rreq) (hh : h = .advert a)
    (hsender : a.sender = p.saddr) :
    Steps env h x (x.replyAsDestination env p rq) := by
  unfold replyAsDestination
  simp only
  have ha : Aside x { x with seqno := replySeqno x.seqno rq.rqDstSeqno } := { seqno := fun _ => even_replySeqno _ _ }
  have hb := ha.trans (Aside.nbEnsure env _ p.saddr)
  generalize ({ x with seqno := replySeqno x.seqno rq.rqDstSeqno } : Exec).nbEnsure env p.saddr = y at hb ⊢
  refine ((hb.trans (Aside.alloc y)).steps.trans (steps_schedule (fun _ => ?_) _)).trans (Aside.free _ _).steps
  exact ⟨rfl, rfl, .inl ⟨rfl, rfl, rfl, a, hh, hsender.symm, hsender.symm⟩⟩

theorem advertises_advertise {inf : Nat} {f : Path} (hf : e.pathFind = some f) :
    (e.advertise inf).route.Advertises inf e.rtSeqno (u8 (e.advertise inf).rtAdvertisedHops) f.lasthop := by
  have hhead : e.route.hops.head? = some f.hop := by
    show (e.rtPathList.map Path.hop).head? = _
    rw [List.head?_map]
    exact congrArg (Option.map Path.hop) hf
  refine ⟨?_, rfl, ?_, ?_⟩
  · rw [RtEntry.route_advertise]
    split <;> rfl
  · rw [RtEntry.route_advertise]
    split
    · exact id
    · rename_i hne
      exact fun h => absurd h hne
  · rw [RtEntry.route_advertise]
    split <;> exact ⟨f.hop, hhead, rfl⟩

theorem ne_nil_of_pathFind {f : Path} (hf : e.pathFind = some f) : e.rtPathList ≠ [] := by
  intro hnil
  unfold RtEntry.pathFind at hf
  rw [hnil] at hf
  cases hf

theorem rule_advertise {inf : Nat} {maxPaths : Int} (hne : e.rtPathList ≠ []) :
    Rule inf maxPaths h e.route (e.advertise inf).route := by
  rw [RtEntry.route_advertise]
  split
  · rename_i hadv
    exact .freeze (by simpa [RtEntry.route] using hne) hadv
  · exact .keep

theorem rtDst_advertise (e : RtEntry) (inf : Nat) : (e.advertise inf).rtDst = e.rtDst := by
  unfold RtEntry.advertise
  split <;> rfl

/-- A reply from the table says what the live entry advertises. -/
theorem replyFromTable_trace {rq : Rreq} {rt : RtEntry} (hrt : x.rtLookup rq.rqDst = some rt) (hup : rt.rtFlags = .up)
    (hne : rq.rqDst ≠ x.index) (reverse : Bool) : Trace env h x (x.replyFromTable env p rq rt reverse) := by
  unfold replyFromTable
  split
  · rename_i hodd
    exact Traces.error ⟨rt, mem_of_rtLookup hrt, hup, hodd⟩
  rename_i heven
  split
  · split
    · rename_i hpath
      exact Traces.error (.inl ⟨rt, mem_of_rtLookup hrt, hup, List.head?_eq_none_iff.1 hpath⟩)
    · rename_i path hpath
      have hmark : (x.idMark rq.rqSrc rq.rqBcastId).rtLookup rq.rqDst = some rt := hrt
      have hd : ((rt.advertise env.inf).setError true).rtDst = rq.rqDst :=
        (rtDst_advertise rt _).trans (rtDst_of_rtLookup hrt)
      have hput : Steps env h (x.idMark rq.rqSrc rq.rqBcastId) ((x.idMark rq.rqSrc rq.rqBcastId).put rq.rqDst
          ((rt.advertise env.inf).setError true)) :=
        steps_put hmark (rule_advertise (ne_nil_of_pathFind hpath)) (rt.rtPclist_advertise env.inf)
      simp only
      rw [rtModify_eq_put hmark]
      refine Traces.trans ((Aside.idMark x _ _).steps.trans hput) ?_
      refine Traces.trans (Aside.alloc _).steps (Traces.ok ((steps_schedule (fun _ => ?_) _).trans (Aside.free _ _).steps))
      exact ⟨rfl, rfl, .inr ⟨hne, ⟨_, routeOf_of_rtLookup (rtLookup_put hmark hd), advertises_advertise hpath⟩,
        .inl (not_not.1 heven)⟩⟩
  · exact (Aside.free _ _).trace

/-- A relayed request says what the reverse entry advertises. -/
theorem relayRequest_trace {rq : Rreq} {a : Advert} (hh : h = .advert a) (ha : a.seqno = rq.rqSrcSeqno)
    (hs : ∃ r, x.routeOf rq.rqSrc = some r ∧ r.seqno = rq.rqSrcSeqno) (hne : rq.rqSrc ≠ x.index)
    (rt : Option RtEntry) (kill : Bool) : Trace env h x (x.relayRequest env p rq rt kill) := by
  unfold relayRequest
  split
  · exact (Aside.free _ _).trace
  cases he : x.rtLookup rq.rqSrc with
  | none => exact Traces.error trivial
  | some rt0 =>
    simp only
    split
    · exact Traces.error (.inr ⟨a, hh⟩)
    · rename_i path hpath
      have hpath' : rt0.pathFind = some path := by
        unfold RtEntry.advertise at hpath
        split at hpath <;> exact hpath
      have hseq : rt0.rtSeqno = rq.rqSrcSeqno := by
        obtain ⟨r, hr, hseq⟩ := hs
        rw [routeOf_of_rtLookup he] at hr
        obtain rfl := Option.some.inj hr
        exact hseq
      have hd := (rtDst_advertise rt0 env.inf).trans (rtDst_of_rtLookup he)
      rw [rtModify_eq_put he]
      refine Traces.trans (steps_put he (rule_advertise (ne_nil_of_pathFind hpath')) (by simp)) ?_
      refine forward_none_trace (fun _ => ⟨_, rfl, ?_⟩) _
      refine ⟨rfl, .inr ⟨hne, ⟨_, routeOf_of_rtLookup (rtLookup_put he hd), ?_⟩, .inr ⟨a, hh, ha⟩⟩⟩
      rw [← hseq]
      exact advertises_advertise hpath'

theorem answerRequest_trace {rq : Rreq} {a : Advert} (hh : h = .advert a) (ha : a.sender = p.saddr)
    (hseq : a.seqno = rq.rqSrcSeqno) (hs : ∃ r, x.routeOf rq.rqSrc = some r ∧ r.seqno = rq.rqSrcSeqno)
    (hne : rq.rqSrc ≠ x.index) (kill reverse : Bool) : Trace env h x (x.answerRequest env p rq kill reverse) := by
  unfold answerRequest
  split
  · exact Traces.ok (replyAsDestination_steps env x rq hh ha)
  · rename_i hdst
    split
    · exact relayRequest_trace hh hseq hs hne _ _
    · rename_i rt hrt
      split
      · rename_i hup
        exact replyFromTable_trace hrt hup.1 hdst _
      · exact relayRequest_trace hh hseq hs hne _ _

theorem recvRequest_trace {rq : Rreq} (hq : x.DataQueue) (hc : x.Calm)
    (hh : h = .advert ⟨rq.rqSrc, rq.rqSrcSeqno, rq.rqHopCount, p.saddr, if rq.rqHopCount = 0 then x.index else rq.rqFirstHop⟩) :
    Trace env h x (x.recvRequest env p rq) := by
  unfold recvRequest
  split
  · exact (Aside.free _ _).trace
  rename_i hsrc
  split
  · exact (Aside.free _ _).trace
  have hseen : h = .advert ⟨(x.seenRequest p rq).rqSrc, (x.seenRequest p rq).rqSrcSeqno, (x.seenRequest p rq).rqHopCount,
      p.saddr, (x.seenRequest p rq).rqFirstHop⟩ := by
    rw [hh, seenRequest_eq]
  have hsrc' : (x.seenRequest p rq).rqSrc ≠ x.index := by
    rwa [seenRequest_eq]
  generalize x.seenRequest p rq = rq' at hseen hsrc' ⊢
  refine Traces.bind (prepareRequest_trace x rq') (fun y hy => ?_)
  have hxy : Steps env h x y := (prepareRequest_trace x rq').of_ok hy
  have hcy : y.Calm := by
    unfold Calm
    rw [log_of_prepareRequest hy]
    exact hc
  refine Traces.bind (reverseRoute_trace hcy hseen) (fun z hz => ?_)
  obtain ⟨z, b⟩ := z
  have hyz : Steps env h y z := (reverseRoute_trace hcy hseen).of_ok hz
  cases b with
  | none => exact (Aside.free _ _).trace
  | some reverse =>
    have hqz := steps_dataQueue (hxy.trans hyz) hq
    refine Traces.bind (flush_trace _ hqz) (fun w hw => ?_)
    have hzw : Steps env h z w := (flush_trace rq'.rqSrc hqz).of_ok hw
    obtain ⟨r, hr, hs⟩ := reverseRoute_seqno hz
    obtain ⟨r', hr', hs'⟩ := flush_seqno hqz hw hr
    exact answerRequest_trace hseen rfl rfl ⟨r', hr', hs'.trans hs⟩ (by rwa [steps_index ((hxy.trans hyz).trans hzw)]) _ _

/-! ## Route replies received -/

theorem forwardRouteTo_trace (rp : Rrep) (nbt : Option Neighbor) (hc : x.Calm)
    (hh : h = .advert ⟨rp.rpDst, rp.rpDstSeqno, rp.rpHopCount, rp.rpSrc, rp.rpFirstHop⟩) :
    TraceFst env h x (x.forwardRouteTo env rp nbt) := by
  subst hh
  refine (forwardRouteTo_noted env x rp nbt).traces (fun a ha => ?_) (fun f hf => hf hc)
  obtain ⟨rt, he, hn⟩ := ha
  exact hn.steps he

/-- A reply that goes on leaves the forward entry with its number. -/
theorem forwardRouteTo_seqno {rp : Rrep} {nbt : Option Neighbor} (hx : x.forwardRouteTo env rp nbt = .ok (y, true)) :
    ∃ r, y.routeOf rp.rpDst = some r ∧ r.seqno = rp.rpDstSeqno := by
  obtain ⟨rt, he, hn⟩ := (forwardRouteTo_noted env x rp nbt).ends _ hx
  obtain ⟨e, he', hs, -⟩ := hn.entry he
  exact ⟨_, routeOf_of_rtLookup he', hs⟩

theorem lowerForward_eq (rp : Rrep) (nbt : Option Neighbor) : ∃ q, rp.lowerForward nbt = { rp with FPT := q } := by
  unfold Rrep.lowerForward
  split <;> exact ⟨_, rfl⟩

theorem lowerReverse_eq (rp : Rrep) (nbt : Option Neighbor) : ∃ q, rp.lowerReverse nbt = { rp with RPT := q } := by
  unfold Rrep.lowerReverse
  split <;> exact ⟨_, rfl⟩

/-- A relayed reply says what the forward entry advertises. -/
theorem relayReply_trace {rp : Rrep} {a : Advert} (hh : h = .advert a) (ha : a.seqno = rp.rpDstSeqno)
    (hs : ∃ r, x.routeOf rp.rpDst = some r ∧ r.seqno = rp.rpDstSeqno) (hne : rp.rpDst ≠ x.index) :
    Trace env h x (x.relayReply env p rp) := by
  unfold relayReply
  split
  · split
    · exact (Aside.free _ _).trace
    split
    · exact Traces.error (.inr ⟨a, hh⟩)
    rename_i reversePath _
    obtain ⟨q, hq⟩ := lowerReverse_eq rp ((x.idMark p.daddr rp.rpBcastId).nbLookup reversePath.nexthop)
    simp only [hq]
    cases he : (x.idMark p.daddr rp.rpBcastId).rtLookup rp.rpDst with
    | none => exact Traces.error trivial
    | some rt =>
      simp only
      split
      · exact Traces.error (.inr ⟨a, hh⟩)
      rename_i path hpath
      have hpath' : rt.pathFind = some path := by
        unfold RtEntry.advertise at hpath
        split at hpath <;> exact hpath
      have hseq : rt.rtSeqno = rp.rpDstSeqno := by
        obtain ⟨r, hr, hseq⟩ := hs
        obtain rfl := Option.some.inj (hr.symm.trans (routeOf_of_rtLookup (x := x) he))
        exact hseq
      have hd := (rtDst_advertise rt env.inf).trans (rtDst_of_rtLookup he)
      rw [rtModify_eq_put he]
      refine Traces.trans (Aside.idMark x p.daddr rp.rpBcastId).steps (Traces.trans
        (steps_put he (rule_advertise (ne_nil_of_pathFind hpath')) (by simp)) ?_)
      have hadv : ((x.idMark p.daddr rp.rpBcastId).put rp.rpDst (rt.advertise env.inf)).Advertises env.inf rp.rpDst
          rp.rpDstSeqno (u8 (rt.advertise env.inf).rtAdvertisedHops) path.lasthop :=
        ⟨_, routeOf_of_rtLookup (rtLookup_put he hd), hseq ▸ advertises_advertise hpath'⟩
      have hi : ((x.idMark p.daddr rp.rpBcastId).put rp.rpDst (rt.advertise env.inf)).index = x.index := rfl
      generalize (x.idMark p.daddr rp.rpBcastId).put rp.rpDst (rt.advertise env.inf) = y at hadv hi ⊢
      have hexp : ∀ rt0 : RtEntry,
          (rt0.modifyFind (fun path => { path with expire := env.now + activeRouteTimeout })).route = rt0.route :=
        fun rt0 => rt0.route_modifyFind (fun _ => rfl)
      have a1 := (alike_keep y p.daddr hexp).trans
        (alike_keep _ rp.rpDst (f := fun rt => { rt with rtError := true }) (fun _ => rfl))
      refine Traces.trans ((steps_keep y p.daddr hexp (fun _ h => h)).trans
        (steps_keep _ rp.rpDst (f := fun rt => { rt with rtError := true }) (fun _ => rfl) (fun _ h => h))) ?_
      refine forward_some_trace (fun _ => ⟨_, rfl, rfl, ?_, ?_, ?_⟩) _
      · show rp.rpDst ≠ _
        rwa [a1.index, hi]
      · exact a1.advertises hadv
      · exact .inr ⟨a, hh, ha⟩
  · exact (Aside.free _ _).trace

theorem recvReply_trace {rp : Rrep} (hq : x.DataQueue) (hc : x.Calm)
    (hh : h = .advert ⟨rp.rpDst, rp.rpDstSeqno, rp.rpHopCount, rp.rpSrc, rp.rpFirstHop⟩) :
    Trace env h x (x.recvReply env p rp) := by
  unfold recvReply
  split
  · exact (Aside.free _ _).trace
  split
  · exact (Aside.free _ _).trace
  rename_i hdst
  obtain ⟨f, hf⟩ := lowerForward_eq rp (x.nbLookup p.prevHop)
  simp only [hf]
  refine Traces.bind (rtEnsure_trace x rp.rpDst) (fun y hy => ?_)
  have hxy : Steps env h x y := (rtEnsure_trace x rp.rpDst).of_ok hy
  have hcy : y.Calm := by
    unfold Calm
    rw [log_of_rtEnsure hy]
    exact hc
  refine Traces.bind (forwardRouteTo_trace _ _ hcy hh) (fun z hz => ?_)
  obtain ⟨z, b⟩ := z
  have hyz : Steps env h y z := (forwardRouteTo_trace { rp with FPT := f } (x.nbLookup p.prevHop) hcy hh).of_ok hz
  cases b with
  | false => exact (Aside.free _ _).trace
  | true =>
    have hqz := steps_dataQueue (hxy.trans hyz) hq
    refine Traces.bind (flush_trace _ hqz) (fun w hw => ?_)
    have hzw : Steps env h z w := (flush_trace rp.rpDst hqz).of_ok hw
    obtain ⟨r, hr, hs⟩ := forwardRouteTo_seqno hz
    obtain ⟨r', hr', hs'⟩ := flush_seqno hqz hw hr
    split
    · exact (Aside.free _ _).trace
    · have hi := steps_index ((hxy.trans hyz).trans hzw)
      exact relayReply_trace hh rfl ⟨r', hr', hs'.trans hs⟩ (fun heq => hdst (heq.trans hi))

/-! ## Errors and PTAs received -/

/-- Every slot names an entry that is not live, with its number. -/
def Told (x : Exec) (slots : List (NsAddr × Nat)) : Prop :=
  ∀ s ∈ slots, ∃ r, x.routeOf s.1 = some r ∧ r.flags ≠ .up ∧ r.seqno = s.2

/-- A write to a live entry does not touch what was told. -/
theorem told_put {slots : List (NsAddr × Nat)} {e' : RtEntry} (ht : x.Told slots) (he : x.rtLookup d = some e)
    (hup : e.rtFlags = .up) (hd : e'.rtDst = d) : (x.put d e').Told slots := by
  intro s hs
  obtain ⟨r, hr, hnup, hseq⟩ := ht s hs
  have hne : s.1 ≠ d := by
    rintro rfl
    rw [routeOf_of_rtLookup he] at hr
    obtain rfl := Option.some.inj hr
    exact hnup hup
  refine ⟨r, ?_, hnup, hseq⟩
  unfold routeOf
  rw [rtLookup_put_ne hd hne]
  exact hr

theorem told_append {slots : List (NsAddr × Nat)} {n : Nat} (ht : x.Told slots) (he : x.rtLookup d = some e)
    (hnup : e.rtFlags ≠ .up) (hs : e.rtSeqno = n) : x.Told (slots ++ [(d, n)]) := by
  intro s hs'
  rcases List.mem_append.1 hs' with hs' | hs'
  · exact ht s hs'
  · obtain rfl := List.mem_singleton.1 hs'
    exact ⟨e.route, routeOf_of_rtLookup he, hnup, hs⟩

/-- A RERR sent after what was told is honest. -/
theorem sendError_steps {slots : List (NsAddr × Nat)} (ht : x.Told slots) (p : Packet) (jitter : Bool) :
    Steps env h x (x.sendError p ⟨slots⟩ jitter) := by
  refine steps_schedule (fun _ => ?_) _
  exact ht

theorem downIfEmpty_ok {rt : RtEntry} {renumber : RtEntry → RtEntry} {b : Bool}
    (hok : x.downIfEmpty env d rt renumber = .ok (y, b)) :
    (b = true ↔ rt.rtPathList = []) ∧
      y = if b then x.rtModify d (fun rt => (renumber rt).rtDown env.inf) else x := by
  unfold downIfEmpty at hok
  obtain ⟨b', hb, hok⟩ := Fallible.bind_eq_ok hok
  obtain ⟨rfl, rfl⟩ := Prod.mk.inj (Except.ok.inj hok)
  exact ⟨pathEmpty_eq_ok hb, rfl⟩

theorem downIfEmpty_error {rt : RtEntry} {renumber : RtEntry → RtEntry} {f : Fault}
    (herr : x.downIfEmpty env d rt renumber = .error f) (y : Exec) : Blame h y f := by
  unfold downIfEmpty at herr
  cases hp : rt.pathEmpty with
  | ok b =>
    rw [hp] at herr
    cases herr
  | error f' =>
    rw [hp] at herr
    obtain rfl := Except.error.inj herr
    exact blame_pathEmpty hp y

/-- The paths left when the one through `id` is deleted. -/
theorem route_hops_pathDelete (e : RtEntry) (id : NsAddr) :
    (e.pathDelete id).route.hops.Sublist e.route.hops ∧
      ((e.pathDelete id).route.hops = [] ↔ (e.pathDelete id).rtPathList = []) := by
  refine ⟨?_, by simp [RtEntry.route]⟩
  rw [RtEntry.route_pathDelete]
  exact List.eraseP_sublist

/-- What one slot can do to an entry that has it: nothing, or take a path of a live one, which goes down with its last. -/
inductive Slotted (inf : Nat) (n : Nat) (rt : RtEntry) : RtEntry → Prop
  | lost {e' : RtEntry} (hs : List Hop) : hs ≠ [] → hs.Sublist rt.route.hops →
      e'.route = { rt.route.left hs with highest := max rt.route.highest n } → Slotted inf n rt e'
  | fell {e' : RtEntry} :
      e'.route = { rt.route.fall inf (max rt.route.highest n) with highest := max rt.route.highest n } → Slotted inf n rt e'

theorem errorSlot_ok {saddr : NsAddr} {slots : List (NsAddr × Nat)} {acc' : Exec × List (NsAddr × Nat)}
    {slot : NsAddr × Nat} (ht : x.Told slots) (hok : errorSlot env saddr (x, slots) slot = .ok acc') :
    acc' = (x, slots) ∨ ∃ rt e', x.rtLookup slot.1 = some rt ∧ rt.rtFlags = .up ∧ rt.rtSeqno ≤ slot.2 ∧
      acc'.1 = x.put slot.1 e' ∧ e'.rtPclist = rt.rtPclist ∧ Slotted env.inf slot.2 rt e' ∧ acc'.1.Told acc'.2 := by
  unfold errorSlot at hok
  cases he : x.rtLookup slot.1 with
  | none =>
    simp only [he] at hok
    exact .inl (Except.ok.inj hok).symm
  | some rt =>
    simp only [he] at hok
    split at hok
    · rename_i hcond
      obtain ⟨hup, -, hle⟩ := hcond
      split at hok
      · cases hok
      obtain ⟨⟨y, b⟩, hy, hok⟩ := Fallible.bind_eq_ok hok
      obtain ⟨hnil, hy⟩ := downIfEmpty_ok hy
      have hd := rtDst_of_rtLookup he
      have hd1 : ((rt.pathDelete saddr).setHighestSeqnoHeard (max rt.rtHighestSeqnoHeard slot.2)).rtDst = slot.1 :=
        (rtDst_pathDelete rt saddr).trans hd
      refine .inr ?_
      rw [rtModify_eq_put he] at hy
      cases b with
      | false =>
        obtain ⟨hsub, hne⟩ := route_hops_pathDelete rt saddr
        rw [if_neg Bool.false_ne_true] at hy
        simp only [Bool.false_eq_true, false_and, if_false, hy] at hok
        obtain rfl := Except.ok.inj hok
        refine ⟨rt, _, rfl, hup, hle, rfl, by simp,
          .lost (rt.pathDelete saddr).route.hops (fun h => nomatch hnil.2 (hne.1 h)) hsub ?_, told_put ht he hup hd1⟩
        rw [RtEntry.route_setHighestSeqnoHeard, RtEntry.route_pathDelete]
        rfl
      | true =>
        have hroute := RtEntry.route_reported hup saddr env.inf (max rt.rtHighestSeqnoHeard slot.2)
        have hd2 := (congrArg Route.dst hroute).trans hd
        rw [if_pos rfl, put_rtModify he hd1] at hy
        simp only [true_and] at hok
        split at hok
        · obtain rfl := Except.ok.inj hok
          rw [hy, put_rtModify he hd2]
          refine ⟨rt, _, rfl, hup, hle, rfl, by simp, .fell hroute, ?_⟩
          refine told_append (told_put ht he hup hd2) (rtLookup_put he hd2) ?_ (congrArg Route.seqno hroute)
          exact fun h => nomatch (congrArg Route.flags hroute).symm.trans h
        · obtain rfl := Except.ok.inj hok
          rw [hy]
          exact ⟨rt, _, rfl, hup, hle, rfl, by simp, .fell hroute, told_put ht he hup hd2⟩
    · exact .inl (Except.ok.inj hok).symm

theorem errorSlot_error {saddr : NsAddr} {slots : List (NsAddr × Nat)} {slot : NsAddr × Nat} {f : Fault}
    (herr : errorSlot env saddr (x, slots) slot = .error f) : Blame h x f := by
  unfold errorSlot at herr
  cases he : x.rtLookup slot.1 with
  | none =>
    simp only [he] at herr
    cases herr
  | some rt =>
    simp only [he] at herr
    split at herr
    · rename_i hcond
      split at herr
      · rename_i hodd
        obtain rfl := Except.error.inj herr
        exact ⟨rt, mem_of_rtLookup he, hcond.1, hodd⟩
      · cases hdown : (x.rtModify slot.1 (fun rt' => (rt'.pathDelete saddr).setHighestSeqnoHeard
            (max rt.rtHighestSeqnoHeard slot.2))).downIfEmpty env slot.1 (rt.pathDelete saddr)
              (fun rt' => rt'.setSeqno (max rt.rtHighestSeqnoHeard slot.2)) with
        | error f' =>
          rw [hdown] at herr
          obtain rfl := Except.error.inj herr
          exact downIfEmpty_error hdown x
        | ok yb =>
          rw [hdown] at herr
          simp only [ok_bind] at herr
          split at herr <;> cases herr
    · cases herr

theorem errorSlot_trace {saddr : NsAddr} {slots heard : List (NsAddr × Nat)} {slot : NsAddr × Nat} (hh : h = .error heard)
    (hslot : slot ∈ heard) (ht : x.Told slots) : TraceFst env h x (errorSlot env saddr (x, slots) slot) := by
  subst hh
  refine Traces.of_cases (fun acc' hok => ?_) (fun f herr => errorSlot_error herr)
  rcases errorSlot_ok ht hok with rfl | ⟨rt, e', he, hup, hle, hx, hpc, hs, -⟩
  · exact .refl
  · have hmem : (rt.route.dst, slot.2) ∈ heard := by
      show (rt.rtDst, slot.2) ∈ heard
      rwa [rtDst_of_rtLookup he]
    rw [hx]
    refine steps_put he ?_ hpc
    cases hs with
    | lost hs hne hsub hr =>
      rw [hr]
      exact .errorLose slot.2 hs hmem hup hle hne hsub
    | fell hr =>
      rw [hr]
      exact .errorFall slot.2 hmem hup hle

theorem recvError_trace {re : Rerr} (hh : h = .error re.unreachable) : Trace env h x (x.recvError env p re) := by
  unfold recvError
  simp only
  split
  · exact Traces.error trivial
  refine Traces.trans (Aside.alloc x).steps ?_
  have hround : ∀ a : Exec × List (NsAddr × Nat), ∀ c ∈ re.unreachable, a.1.Told a.2 →
      Traces (Micro env h) (Blame h) Prod.fst a.1 (errorSlot env p.saddr a c) :=
    fun a c hc ha => errorSlot_trace hh hc ha
  have hinv : ∀ a : Exec × List (NsAddr × Nat), ∀ c ∈ re.unreachable, ∀ a', a.1.Told a.2 →
      errorSlot env p.saddr a c = .ok a' → a'.1.Told a'.2 := by
    intro a c _ a' ha hok
    rcases errorSlot_ok ha hok with rfl | ⟨_, _, _, _, _, _, _, _, ht⟩
    · exact ha
    · exact ht
  have hnil : (x.alloc, ([] : List (NsAddr × Nat))).1.Told [] := fun _ hs => nomatch hs
  refine Traces.bind (Traces.foldlM (I := fun a : Exec × List (NsAddr × Nat) => a.1.Told a.2) hround hinv hnil) ?_
  rintro ⟨y, nre⟩ hy
  have ht : y.Told nre := Fallible.Ends.foldlM (Q := fun a : Exec × List (NsAddr × Nat) => a.1.Told a.2)
    (fun a c hc ha a' hok => hinv a c hc a' ha hok) hnil _ hy
  refine Traces.ok (ReflTransGen.trans ?_ (Aside.free _ p).steps)
  split
  · exact sendError_steps ht _ _
  · exact (Aside.free _ _).steps

/-- What a PTA may do: take a path of the live entry it is about, under the number heard, or bring it down. -/
theorem recvPta_trace {re : Pta} (hh : ∀ rt, x.rtLookup re.unreachableDst = some rt → acceptsPta rt p.saddr re = true →
      h = .pta rt.route (rt.pathDelete p.saddr).route.hops re.unreachableDstSeqno) :
    Trace env h x (x.recvPta env p re) := by
  unfold recvPta
  cases he : x.rtLookup re.unreachableDst with
  | none => exact (Aside.free _ _).trace
  | some rt =>
    simp only
    split
    swap
    · exact (Aside.free _ _).trace
    rename_i hacc
    have hh := hh rt he hacc
    unfold acceptsPta at hacc
    rw [decide_eq_true_eq] at hacc
    obtain ⟨hup, hle, -⟩ := hacc
    split
    · rename_i hodd
      exact Traces.error ⟨rt, mem_of_rtLookup he, hup, hodd⟩
    generalize hn : max rt.rtHighestSeqnoHeard re.unreachableDstSeqno = n
    have hd := rtDst_of_rtLookup he
    have hd1 : ((rt.pathDelete p.saddr).setHighestSeqnoHeard n).rtDst = re.unreachableDst :=
      (rtDst_pathDelete rt p.saddr).trans hd
    rw [rtModify_eq_put he]
    cases hdown : (x.put re.unreachableDst ((rt.pathDelete p.saddr).setHighestSeqnoHeard n)).downIfEmpty env
        re.unreachableDst (rt.pathDelete p.saddr) id with
    | error f => exact Traces.error (downIfEmpty_error hdown x)
    | ok yb =>
      obtain ⟨y, b⟩ := yb
      obtain ⟨hnil, hy⟩ := downIfEmpty_ok hdown
      obtain ⟨hsub, hhops⟩ := route_hops_pathDelete rt p.saddr
      simp only [ok_bind]
      suffices hstep : Steps env h x (y.rtModify re.unreachableDst (fun rt => rt.setSeqno n)) from
        Traces.ok ((hstep.trans (Aside.foldl (reportDistrust_aside _ _ _) _ _).steps).trans (Aside.free _ _).steps)
      cases b with
      | false =>
        rw [hy, if_neg Bool.false_ne_true, put_rtModify he hd1]
        refine steps_put he ?_ (by simp)
        have hrule := @Rule.ptaLose env.inf x.teaomdvMaxPaths rt.route
          (rt.pathDelete p.saddr).route.hops re.unreachableDstSeqno hup hle (fun h => nomatch hnil.2 (hhops.1 h)) hsub
        rw [hh]
        convert hrule using 1
        rw [RtEntry.route_setSeqno, RtEntry.route_setHighestSeqnoHeard, RtEntry.route_pathDelete, ← hn]
        rfl
      | true =>
        have hroute := RtEntry.route_reported hup p.saddr env.inf n
        rw [RtEntry.rtDown_setSeqno] at hroute
        have hd2 : (((rt.pathDelete p.saddr).setHighestSeqnoHeard n).rtDown env.inf).rtDst = re.unreachableDst :=
          (congrArg Route.dst hroute).trans hd
        rw [hy, if_pos rfl, put_rtModify he hd1, id, put_rtModify he hd2]
        refine steps_put he ?_ (by simp)
        have hrule := @Rule.ptaFall env.inf x.teaomdvMaxPaths rt.route
          re.unreachableDstSeqno hup hle
        rw [hh, hhops.2 (hnil.1 rfl), hroute, ← hn]
        exact hrule

/-! ## Everything else received -/

theorem recvHello_aside (env : Env) (x : Exec) (p : Packet) (rp : Rrep) : Aside x (x.recvHello env p rp) := by
  unfold recvHello
  split
  · exact (Aside.nbInsert env x rp.rpDst).then_free p
  · refine Aside.then_free (Aside.nbModify x rp.rpDst ?_) p
    exact fun _ => rfl

theorem recvRcom_trace (x : Exec) (p : Packet) (rc : Recommen) : Trace env h x (x.recvRcom env p rc) := by
  unfold recvRcom
  split
  · exact (Aside.free _ _).trace
  · split
    · split
      · exact Traces.error trivial
      · have hfold : ∀ (w : ℚ) (x : Exec) (r : NsAddr × ℚ), Aside x (recommend w x r) :=
          fun w x r => Aside.nbModify x r.1 (fun _ => rfl)
        refine Aside.trace (Aside.then_free (Aside.trans (y := x.nbModify p.saddr _) (Aside.nbModify x p.saddr ?_)
          (Aside.foldl (hfold _) rc.nbs _)) p)
        exact fun _ => rfl
    · exact (Aside.free _ _).trace

theorem recvProb_aside (env : Env) (x : Exec) (p : Packet) : Aside x (x.recvProb env p) := by
  refine Aside.then_free (Aside.nbModify x p.saddr ?_) p
  exact fun _ => rfl

theorem recvTEAOMDV_trace (hq : x.DataQueue) (hc : x.Calm) (hp : p.ptype = .teaomdv) (hh : h = x.heard (.recv p)) :
    Trace env h x (x.recvTEAOMDV env p) := by
  unfold recvTEAOMDV
  split
  · exact Traces.error trivial
  unfold heard at hh
  simp only [hp, if_true] at hh
  cases hb : p.body with
  | rreq rq => exact recvRequest_trace hq hc (by simpa only [hb] using hh)
  | rrep rp => exact recvReply_trace hq hc (by simpa only [hb] using hh)
  | rerr re => exact recvError_trace (by simpa only [hb] using hh)
  | hello rp => exact (recvHello_aside env x p rp).trace
  | rcom rc => exact recvRcom_trace x p rc
  | prob => exact (recvProb_aside env x p).trace
  | pta re => exact recvPta_trace (fun rt he hacc => by simpa only [hb, he, hacc, if_true] using hh)
  | payload => exact Traces.error trivial

/-- A data packet without a route asks for one, waits, or is reported. -/
theorem rtResolve_trace (hq : x.DataQueue) (hp : p.Data) : Trace env h x (x.rtResolve env p) := by
  unfold rtResolve
  refine Traces.bind (rtEnsure_trace x p.daddr) (fun y hy => ?_)
  have hxy : Steps env h x y := (rtEnsure_trace x p.daddr).of_ok hy
  have hqy := steps_dataQueue hxy hq
  cases he : y.rtLookup p.daddr with
  | none => exact Traces.error trivial
  | some rt =>
    simp only
    split
    · split
      · exact Traces.error trivial
      · exact forward_some_trace (fun hpl => absurd (plain_of_ne hp.1) hpl) _
    rename_i hnup
    split
    · have ha := Aside.enque env y hp
      exact Traces.trans ha.steps (sendRequest_trace _ _ (ha.queue hqy))
    · split
      · exact (Aside.enque env y hp).trace
      · refine Traces.ok (ReflTransGen.trans ((Aside.alloc y).steps.trans (sendError_steps ?_ _ _)) (Aside.drop _ p _).steps)
        intro s hs
        obtain rfl := List.mem_singleton.1 hs
        exact ⟨rt.route, by rw [rtDst_of_rtLookup he]; exact routeOf_of_rtLookup (x := y.alloc) he, hnup, rfl⟩

theorem recv_trace (hq : x.DataQueue) (hc : x.Calm) (hh : h = x.heard (.recv p)) : Trace env h x (x.recv env p) := by
  unfold recv
  split
  · rename_i hp
    exact recvTEAOMDV_trace hq hc hp hh
  · rename_i hp
    split
    · simp only
      split
      · rename_i hdst
        exact rtResolve_trace hq ⟨hp, hdst⟩
      · refine forward_none_trace (fun hpl => ?_) _
        exact absurd (plain_of_ne hp) hpl
    · split
      · exact (Aside.drop _ _ _).trace
      · simp only
        split
        · exact (Aside.drop _ _ _).trace
        · split
          · rename_i hdst
            exact rtResolve_trace hq ⟨hp, hdst⟩
          · refine forward_none_trace (fun hpl => ?_) _
            exact absurd (plain_of_ne hp) hpl

theorem tap_aside (x : Exec) (p : Packet) : Aside x (x.tap p) := by
  unfold tap
  split
  · exact .refl x
  · split
    · exact .nbModify x p.prevHop (fun _ => rfl)
    · split
      · exact .nbModify x p.prevHop (fun _ => rfl)
      · exact .refl x
    · exact .refl x

end Exec

end TeAomdv

import TeAomdv.Strokes
/-!
# StrokesRecv — the reception routines and the timers are runs of strokes

What a RREQ or RREP raises is the entry it is about, what is sent on is what was received, and an expiry is set for the
neighbour that was heard.
-/
namespace TeAomdv

open Fallible (Ends)

namespace Exec

variable {env : Env} {inp : Input} {x y z : Exec} {d : NsAddr} {p : Packet}

/-- A data packet repeats nothing. -/
theorem forward_data_strokes (x : Exec) (rt : Option NsAddr) (p : Packet) (delay : ℚ) (hp : p.ptype ≠ .teaomdv) :
    Ends (Strokes env inp x) (x.forward env rt p delay) := forward_strokes (fun h => absurd h hp) x rt delay

theorem sendRequest_strokes (hs : inp.Seeks) (x : Exec) (d : NsAddr) : Ends (Strokes env inp x) (x.sendRequest env d) :=
  fun _ hy => .one (.request hs hy)

theorem flushOne_strokes (d : NsAddr) (y : Exec) {q : Packet} (hq : q.Data) : Ends (Strokes env inp y) (flushOne env d y q) := by
  unfold flushOne
  split
  · exact Ends.error _
  split
  · exact forward_data_strokes y (some d) q noTeaomdvDelay hq.1
  · exact Ends.ok (.refl y)

theorem flush_strokes (hd : inp.Advertises d) (hx : x.DataQueue) : Ends (Strokes env inp x) (x.flush env d) := by
  unfold flush
  split
  · exact Ends.error _
  split
  · have h1 : Strokes env inp x (x.rtModify d RtEntry.resetSoftState) := .one (.raise hd (fun _ => ⟨rfl, .inr rfl, id⟩))
    refine Ends.mono (drain_strokes (fun y q _ hq => flushOne_strokes d y hq) ?_ d) (fun y hy => h1.trans hy)
    exact hx
  · exact Ends.ok (.refl x)

theorem rtEnsure_strokes (x : Exec) (d : NsAddr) : Ends (Strokes env inp x) (x.rtEnsure env d) := by
  unfold rtEnsure rtAdd
  split
  · rename_i hnone
    split
    · exact Ends.error _
    · exact Ends.ok (.one (.add (by simpa using hnone)))
  · exact Ends.ok (.refl x)

/-! ## Requests -/

section Request

variable {q : Packet} {rq : Rreq}

/-- What is received, up to what a handler may change before it looks at it. -/
def Asks (inp : Input) (rq : Rreq) : Prop :=
  ∃ q rq₀, inp = .recv q ∧ q.ptype = .teaomdv ∧ q.body = .rreq rq₀ ∧ rq₀.Akin rq

theorem Asks.advertises (h : Asks inp rq) : inp.Advertises rq.rqSrc := by
  obtain ⟨q, rq₀, hinp, ht, hb, hk⟩ := h
  exact ⟨q, hinp, ht, .inl ⟨rq₀, hb, hk.src.symm⟩⟩

theorem Asks.requests (h : Asks inp rq) : inp.Requests rq.rqSrc rq.rqBcastId := by
  obtain ⟨q, rq₀, hinp, ht, hb, hk⟩ := h
  exact ⟨q, rq₀, hinp, ht, hb, hk.src.symm, hk.bcastId.symm⟩

theorem sendReply_strokes (h : Asks inp rq) (x : Exec) (k seq : Nat) (life : ℚ) (n l : NsAddr) (fpt rpt : ℚ) :
    Strokes env inp x (x.sendReply rq.rqSrc k rq.rqDst seq life rq.rqTimestamp n rq.rqBcastId l fpt rpt) := by
  obtain ⟨q, rq₀, hinp, ht, hb, hk⟩ := h
  apply (Strokes.alloc x).trans
  exact .one (.send (.answer hinp ht hb rfl rfl hk.src ⟨hk.bcastId, hk.dst, hk.timestamp⟩))

theorem reverseRoute_strokes (h : Asks inp rq) (x : Exec) (p : Packet) :
    Ends (fun r => Strokes env inp x r.1) (x.reverseRoute env p rq) := by
  unfold reverseRoute
  split
  · exact Ends.error _
  split
  · exact Ends.ok (.one (.raise h.advertises (fun _ => ⟨rfl, .inl rfl, fun _ => Int.natCast_nonneg _⟩)))
  split
  · split
    · exact Ends.error _
    split
    · split
      · exact Ends.error _
      · exact Ends.ok (.mark x _ (fun e => .modifyDisjoint e _ _ (fun _ => rfl)))
    split
    · split
      · exact Ends.ok (.one (.raise h.advertises (fun _ => ⟨rfl, .inl rfl, fun _ => Int.natCast_nonneg _⟩)))
      · exact Ends.ok (.refl x)
    split <;> exact Ends.ok (.refl x)
  · exact Ends.ok (.refl x)

theorem replyAsDestination_strokes (h : Asks inp rq) (hd : rq.rqDst = x.index) (p : Packet) :
    Strokes env inp x (x.replyAsDestination env p rq) := by
  have h1 : Strokes env inp x { x with seqno := replySeqno x.seqno rq.rqDstSeqno } := .one (.own _ x.heap)
  have h2 := h1.trans (nbEnsure_strokes { x with seqno := replySeqno x.seqno rq.rqDstSeqno } p.saddr)
  have hindex : (nbEnsure env { x with seqno := replySeqno x.seqno rq.rqDstSeqno } p.saddr).index = rq.rqDst :=
    (Aside.nbEnsure env { x with seqno := replySeqno x.seqno rq.rqDstSeqno } p.saddr).index.trans hd.symm
  unfold replyAsDestination
  simp only
  rw [hindex]
  exact (h2.trans (sendReply_strokes h _ _ _ _ _ _ _ _)).then_free p

theorem replyFromTable_strokes (h : Asks inp rq) (x : Exec) (p : Packet) (rt : RtEntry) (reverse : Bool) :
    Ends (Strokes env inp x) (x.replyFromTable env p rq rt reverse) := by
  unfold replyFromTable
  split
  · exact Ends.error _
  split
  · split
    · exact Ends.error _
    · have h1 : Strokes env inp x (x.idMark rq.rqSrc rq.rqBcastId) := .one (.answered _ _)
      have h2 := h1.then_mark rq.rqDst (f := fun rt => (rt.advertise env.inf).setError true)
        (fun e => (RtEntry.Marks.advertise e env.inf).trans (.setError _ true))
      exact Ends.ok ((h2.trans (sendReply_strokes h _ _ _ _ _ _ _ _)).then_free p)
  · exact Ends.ok (.free x p)

theorem relayRequest_strokes (h : Asks inp rq) (x : Exec) (p : Packet) (rt : Option RtEntry) (kill : Bool) :
    Ends (Strokes env inp x) (x.relayRequest env p rq rt kill) := by
  unfold relayRequest
  split
  · exact Ends.ok (.free x p)
  split
  · exact Ends.error _
  simp only
  split
  · exact Ends.error _
  · refine Ends.mono (forward_strokes ?_ _ none _) (fun y hy => (Strokes.mark x _ (fun e => .advertise e _)).trans hy)
    intro hp y q hq hbody _
    obtain ⟨q₀, rq₀, hinp, ht, hb, hk⟩ := h
    exact .request hinp ht hb (hq.trans hp) hbody ⟨hk.src, hk.bcastId, hk.dst, hk.srcSeqno, hk.timestamp⟩

theorem answerRequest_strokes (h : Asks inp rq) (x : Exec) (p : Packet) (kill reverse : Bool) :
    Ends (Strokes env inp x) (x.answerRequest env p rq kill reverse) := by
  unfold answerRequest
  split
  · rename_i hd
    exact Ends.ok (replyAsDestination_strokes h hd p)
  split
  · exact relayRequest_strokes h x p _ _
  split
  · exact replyFromTable_strokes h x p _ _
  · exact relayRequest_strokes h x p _ _

theorem recvRequest_strokes (h : Asks inp rq) (hx : x.DataQueue) (p : Packet) :
    Ends (Strokes env inp x) (x.recvRequest env p rq) := by
  unfold recvRequest
  split
  · exact Ends.ok (.free x p)
  split
  · exact Ends.ok (.free x p)
  simp only
  have h' : Asks inp (x.seenRequest p rq) := by
    obtain ⟨q, rq₀, hinp, ht, hb, hk⟩ := h
    refine ⟨q, rq₀, hinp, ht, hb, ?_⟩
    rw [seenRequest_eq]
    exact ⟨hk.src, hk.bcastId, hk.dst, hk.srcSeqno, hk.timestamp⟩
  generalize x.seenRequest p rq = rq' at h'
  refine Ends.bind (P := Strokes env inp x) ?_ (fun y hy => ?_)
  · unfold prepareRequest
    split
    · exact rtEnsure_strokes x _
    · have h1 : Strokes env inp x (x.idInsert env rq'.rqSrc rq'.rqBcastId) := .one (.cache h'.requests)
      exact Ends.mono (rtEnsure_strokes _ _) (fun y hy => h1.trans hy)
  refine Ends.bind (reverseRoute_strokes h' y p) (fun a ha => ?_)
  obtain ⟨z, b⟩ := a
  have hz := hy.trans ha
  cases b with
  | none => exact Ends.ok (hz.then_free p)
  | some reverse =>
    refine Ends.bind (flush_strokes h'.advertises (strokes_dataQueue hz hx)) (fun w hw => ?_)
    exact Ends.mono (answerRequest_strokes h' w p _ _) (fun v hv => (hz.trans hw).trans hv)

end Request

/-! ## Replies -/

section Reply

variable {rp : Rrep}

/-- What is received, up to the trust a handler lowers before it looks at it. -/
def Replies (inp : Input) (p : Packet) (rp : Rrep) : Prop :=
  ∃ q rp₀, inp = .recv q ∧ q.ptype = .teaomdv ∧ q.body = .rrep rp₀ ∧ p.daddr = q.daddr ∧ rp₀.Akin rp

theorem Replies.advertises (h : Replies inp p rp) : inp.Advertises rp.rpDst := by
  obtain ⟨q, rp₀, hinp, ht, hb, -, hk⟩ := h
  exact ⟨q, hinp, ht, .inr ⟨rp₀, hb, hk.dst.symm⟩⟩

theorem forwardRouteTo_strokes (h : Replies inp p rp) (x : Exec) (nbt : Option Neighbor) :
    Ends (fun r => Strokes env inp x r.1) (x.forwardRouteTo env rp nbt) := by
  unfold forwardRouteTo
  split
  · exact Ends.error _
  split
  · exact Ends.ok (.one (.raise h.advertises (fun _ => ⟨rfl, .inl rfl, fun _ => Int.natCast_nonneg _⟩)))
  split
  · split
    · exact Ends.error _
    split
    · split
      · exact Ends.error _
      · exact Ends.ok (.mark x _ (fun e => .modifyDisjoint e _ _ (fun _ => rfl)))
    split
    · exact Ends.ok (.one (.raise h.advertises (fun _ => ⟨rfl, .inl rfl, fun _ => Int.natCast_nonneg _⟩)))
    · exact Ends.ok (.refl x)
  · exact Ends.ok (.refl x)

theorem relayReply_strokes (h : Replies inp p rp) (x : Exec) : Ends (Strokes env inp x) (x.relayReply env p rp) := by
  unfold relayReply
  split
  · rename_i rt0 b _ _
    split
    · exact Ends.ok (.free x p)
    split
    · exact Ends.error _
    rename_i reversePath _
    simp only
    have h1 : Strokes env inp x (x.idMark p.daddr rp.rpBcastId) := .one (.answered _ _)
    obtain ⟨t, hlow⟩ := lowerReverse_eq rp ((x.idMark p.daddr rp.rpBcastId).nbLookup reversePath.nexthop)
    rw [hlow]
    simp only
    split
    · exact Ends.error _
    split
    · exact Ends.error _
    have h2 := ((h1.then_mark rp.rpDst (fun e => .advertise e env.inf)).then_mark p.daddr
      (f := fun rt0 => rt0.modifyFind (fun path => { path with expire := env.now + activeRouteTimeout }))
      (fun e => .modifyFind e (fun _ => rfl))).then_mark rp.rpDst (fun e => .setError e true)
    refine Ends.mono (forward_strokes ?_ _ _ _) (fun y hy => h2.trans hy)
    intro hp y q hq hbody hd
    obtain ⟨q₀, rp₀, hinp, ht, hb, hdaddr, hk⟩ := h
    exact .reply hinp ht hb (hq.trans hp) hbody (hd.trans hdaddr) ⟨hk.bcastId, hk.dst, hk.timestamp⟩
  · exact Ends.ok (.free x p)

theorem recvReply_strokes (h : Replies inp p rp) (hx : x.DataQueue) : Ends (Strokes env inp x) (x.recvReply env p rp) := by
  unfold recvReply
  split
  · exact Ends.ok (.free x p)
  split
  · exact Ends.ok (.free x p)
  obtain ⟨t, hlow⟩ := lowerForward_eq rp (x.nbLookup p.prevHop)
  have h' : Replies inp p { rp with FPT := t } := by
    obtain ⟨q, rp₀, hinp, ht, hb, hd, hk⟩ := h
    exact ⟨q, rp₀, hinp, ht, hb, hd, hk.bcastId, hk.dst, hk.timestamp⟩
  simp only [hlow]
  refine Ends.bind (P := Strokes env inp x) (rtEnsure_strokes x rp.rpDst) (fun y hy => ?_)
  refine Ends.bind (forwardRouteTo_strokes h' y _) (fun a ha => ?_)
  obtain ⟨z, b⟩ := a
  have hz := hy.trans ha
  cases b with
  | false => exact Ends.ok (hz.then_free p)
  | true =>
    refine Ends.bind (flush_strokes h'.advertises (strokes_dataQueue hz hx)) (fun w hw => ?_)
    split
    · exact Ends.ok ((hz.trans hw).then_free p)
    · exact Ends.mono (relayReply_strokes h' w) (fun v hv => (hz.trans hw).trans hv)

end Reply

/-! ## Errors, distrust reports and neighbours -/

theorem errorSlot_strokes (acc : Exec × List (NsAddr × Nat)) (saddr : NsAddr) (slot : NsAddr × Nat) :
    Ends (fun r => Strokes env inp acc.1 r.1) (errorSlot env saddr acc slot) := by
  unfold errorSlot
  simp only
  split
  · exact Ends.ok (.refl acc.1)
  rename_i rt _
  split
  · split
    · exact Ends.error _
    refine Ends.bind (P := fun r => Strokes env inp _ r.1) (downIfEmpty_strokes _ slot.1 _ (fun e => .setSeqno e _))
      (fun r hr => ?_)
    have h1 : Strokes env inp acc.1 _ := .trans (.mark acc.1 slot.1
      (fun e => (RtEntry.Marks.pathDelete e saddr).trans (.setHighestSeqnoHeard _ (max rt.rtHighestSeqnoHeard slot.2)))) hr
    split
    · exact Ends.ok (h1.then_mark _ (fun e => .setError e false))
    · exact Ends.ok h1
  · exact Ends.ok (.refl acc.1)

theorem sendError_strokes (x : Exec) (p : Packet) (re : Rerr) (jitter : Bool) : Strokes env inp x (x.sendError p re jitter) := by
  unfold sendError
  exact .news x (by trivial) rfl _

theorem recvError_strokes (x : Exec) (p : Packet) (re : Rerr) : Ends (Strokes env inp x) (x.recvError env p re) := by
  unfold recvError
  simp only
  split
  · exact Ends.error _
  have hround : ∀ acc : Exec × List (NsAddr × Nat), ∀ slot ∈ re.unreachable, Strokes env inp x acc.1 →
      Ends (fun r => Strokes env inp x r.1) (errorSlot env p.saddr acc slot) :=
    fun acc slot _ h => Ends.mono (errorSlot_strokes acc p.saddr slot) (fun r hr => h.trans hr)
  refine Ends.bind (Ends.foldlM (Q := fun acc => Strokes env inp x acc.1) hround (.alloc x)) (fun r hr => ?_)
  obtain ⟨y, nre⟩ := r
  refine Ends.ok (Strokes.then_free ?_ p)
  split
  · exact hr.trans (sendError_strokes y _ _ _)
  · exact hr.then_free _

theorem recvPta_strokes (x : Exec) (p : Packet) (re : Pta) : Ends (Strokes env inp x) (x.recvPta env p re) := by
  unfold recvPta
  split
  · exact Ends.ok (.free x p)
  rename_i rt _
  split
  · split
    · exact Ends.error _
    simp only
    refine Ends.bind (P := fun r => Strokes env inp _ r.1) (downIfEmpty_strokes _ re.unreachableDst _ .refl) (fun r hr => ?_)
    have h1 : Strokes env inp x _ := .trans (.mark x re.unreachableDst (fun e => (RtEntry.Marks.pathDelete e p.saddr).trans
      (.setHighestSeqnoHeard _ (max rt.rtHighestSeqnoHeard re.unreachableDstSeqno)))) hr
    refine Ends.ok (Strokes.then_free ?_ p)
    exact (h1.then_mark _ (fun e => .setSeqno e _)).trans (reports_strokes _ _ _ _ _)
  · exact Ends.ok (.free x p)

theorem recvHello_strokes {rp : Rrep} (h : inp.Hears rp.rpDst) (x : Exec) (p : Packet) :
    Strokes env inp x (x.recvHello env p rp) := by
  unfold recvHello
  split
  · rename_i hn
    exact (nbInsert_strokes hn).then_free p
  · have h1 : Strokes env inp x (x.nbModify rp.rpDst (fun nb =>
        { nb with nbExpire := env.now + 15 / 10 * allowedHelloLoss * helloInterval })) := by
      refine .one (.hear h (fun nb => ⟨rfl, rfl, ?_, le_refl _⟩))
      exact add_le_add_right (by decide +kernel) _
    exact h1.then_free p

theorem recvRcom_strokes (x : Exec) (p : Packet) (rc : Recommen) : Ends (Strokes env inp x) (x.recvRcom env p rc) := by
  unfold recvRcom
  split
  · exact Ends.ok (.free x p)
  rename_i nb _
  split
  · split
    · exact Ends.error _
    refine Ends.ok (Strokes.then_free ?_ p)
    have hall : ∀ (l : List (NsAddr × ℚ)) (y : Exec), Strokes env inp x y → Strokes env inp x
        (l.foldl (recommend (nb.directTrust.getD (env.unsetTrust p.saddr))) y) := by
      intro l
      induction l with
      | nil => exact fun _ h => h
      | cons r l ih => exact fun y h => ih _ (h.trans (.one (.note (fun _ => ⟨rfl, rfl, rfl⟩))))
    exact hall rc.nbs _ (.one (.note (fun _ => ⟨rfl, rfl, rfl⟩)))
  · exact Ends.ok (.free x p)

theorem recvProb_strokes (x : Exec) (p : Packet) (h : inp.Hears p.saddr) : Strokes env inp x (x.recvProb env p) := by
  have h1 : Strokes env inp x (x.nbModify p.saddr (fun nb =>
      { nb with nbExpire := env.now + helloInterval, probRecvs := nb.probRecvs + 1 })) := by
    refine .one (.hear h (fun nb => ⟨rfl, rfl, le_refl _, ?_⟩))
    exact add_le_add_right (by decide +kernel) _
  exact h1.then_free p

/-! ## `recv` -/

theorem recvTEAOMDV_strokes (hp : p.ptype = .teaomdv) (hinp : inp = .recv p) (hx : x.DataQueue) :
    Ends (Strokes env inp x) (x.recvTEAOMDV env { p with ttl := p.ttl - 1 }) := by
  unfold recvTEAOMDV
  split
  · exact Ends.error _
  cases hb : p.body with
  | rreq rq => exact recvRequest_strokes ⟨p, rq, hinp, hp, hb, rfl, rfl, rfl, rfl, rfl⟩ hx _
  | rrep rp => exact recvReply_strokes ⟨p, rp, hinp, hp, hb, rfl, rfl, rfl, rfl⟩ hx
  | rerr re => exact recvError_strokes x _ re
  | hello rp => exact Ends.ok (recvHello_strokes ⟨p, hinp, hp, .inl ⟨rp, hb, rfl⟩⟩ x _)
  | rcom rc => exact recvRcom_strokes x _ rc
  | prob => exact Ends.ok (recvProb_strokes x _ ⟨p, hinp, hp, .inr ⟨hb, rfl⟩⟩)
  | pta re => exact recvPta_strokes x _ re
  | payload => exact Ends.error _

theorem rtResolve_strokes (hb : inp.Brings) (x : Exec) (p : Packet) (hp : p.Data) : Ends (Strokes env inp x) (x.rtResolve env p) := by
  unfold rtResolve
  refine Ends.bind (P := Strokes env inp x) (rtEnsure_strokes x p.daddr) (fun y hxy => ?_)
  split
  · exact Ends.error _
  rename_i rt _
  have hold : Strokes env inp x (y.enque env p) := hxy.trans (.one (.hold hb hp))
  split
  · split
    · exact Ends.error _
    · exact Ends.mono (forward_data_strokes y _ p _ hp.1) (fun z hz => hxy.trans hz)
  split
  · exact Ends.mono (sendRequest_strokes (.inr hb) _ rt.rtDst) (fun z hz => hold.trans hz)
  split
  · exact Ends.ok hold
  · exact Ends.ok (((hxy.trans (.alloc y)).trans (sendError_strokes y.alloc y.blank _ false)).trans (.drop _ p _))

theorem recv_strokes (hinp : inp = .recv p) (hx : x.DataQueue) : Ends (Strokes env inp x) (x.recv env p) := by
  unfold recv
  split
  · rename_i hp
    exact recvTEAOMDV_strokes hp hinp hx
  rename_i hp
  have hb : inp.Brings := ⟨p, hinp, hp⟩
  split
  · simp only
    split
    · rename_i hd
      exact rtResolve_strokes hb x _ ⟨hp, hd⟩
    · exact forward_data_strokes x none _ _ hp
  split
  · exact Ends.ok (.drop x p _)
  simp only
  split
  · exact Ends.ok (.drop x _ _)
  split
  · rename_i hd
    exact rtResolve_strokes hb x _ ⟨hp, hd⟩
  · exact forward_data_strokes x none _ _ hp

theorem tap_strokes (x : Exec) (p : Packet) : Strokes env inp x (x.tap p) := by
  unfold tap
  split
  · exact .refl x
  split
  · exact .one (.note (fun _ => ⟨rfl, rfl, rfl⟩))
  · split
    · exact .one (.note (fun _ => ⟨rfl, rfl, rfl⟩))
    · exact .refl x
  · exact .refl x

/-! ## Timers -/

theorem failEntry_strokes (id : NsAddr) (acc : Exec × List (NsAddr × Nat)) (d : NsAddr) :
    Ends (fun r => Strokes env inp acc.1 r.1) (failEntry env id acc d) := by
  unfold failEntry
  simp only
  split
  · exact Ends.ok (.refl acc.1)
  split
  · split
    · exact Ends.error _
    refine Ends.bind (P := fun _ => True) (fun _ _ => trivial) (fun empty _ => ?_)
    have h1 : Strokes env inp acc.1 (acc.1.rtModify d (fun e => e.pathDelete id)) := .mark acc.1 d (fun e => .pathDelete e id)
    split
    · split
      · split
        · exact Ends.error _
        · exact Ends.ok (h1.then_mark d (fun e => (RtEntry.Marks.failed e env.inf).trans (.setError _ false)))
      · exact Ends.ok (h1.then_mark d (fun e => .failed e env.inf))
    · exact Ends.ok h1
  · exact Ends.ok (.refl acc.1)

theorem handleLinkFailure_strokes (x : Exec) (id : NsAddr) : Ends (Strokes env inp x) (x.handleLinkFailure env id) := by
  unfold handleLinkFailure
  simp only
  refine Ends.bind (Ends.foldlM (Q := fun acc => Strokes env inp x acc.1) (fun acc d _ h => ?_) (.alloc x)) (fun r hr => ?_)
  · exact Ends.mono (failEntry_strokes id acc d) (fun r hr => h.trans hr)
  · obtain ⟨y, re⟩ := r
    refine Ends.ok ?_
    simp only
    split
    · exact Strokes.trans hr (sendError_strokes y _ _ _)
    · exact Strokes.then_free hr _

theorem sendBuffered_strokes (d : NsAddr) : ∀ (n : Nat) (acc : Exec × ℚ), acc.1.DataQueue →
    Ends (fun r => Strokes env inp acc.1 r.1) (sendBuffered env d n acc)
  | 0, acc, _ => Ends.ok (.refl acc.1)
  | n + 1, (x, delay), hx => by
    have htake : Strokes env inp x (x.deque env d).2 := .one .take
    unfold sendBuffered
    split
    · rename_i y hy
      rw [hy] at htake
      exact Ends.ok htake
    · rename_i q y hy
      rw [hy] at htake
      have hq := hx q (mem_of_deque hy).1
      refine Ends.bind (P := Strokes env inp y) (forward_data_strokes y (some d) q delay hq.1) (fun z hz => ?_)
      have hxz := htake.trans hz
      exact Ends.mono (sendBuffered_strokes d n (z, delay + arpDelay) (strokes_dataQueue hxz hx)) (fun r hr => hxz.trans hr)

theorem purgeEntry_strokes (hs : inp.Seeks) (acc : Exec × ℚ) (d : NsAddr) (hx : acc.1.DataQueue) :
    Ends (fun r => Strokes env inp acc.1 r.1) (purgeEntry env acc d) := by
  unfold purgeEntry
  simp only
  split
  · exact Ends.ok (.refl acc.1)
  split
  · refine Ends.bind (P := fun _ => True) (fun _ _ => trivial) (fun empty _ => ?_)
    have h1 : Strokes env inp acc.1 _ := .mark acc.1 d (fun e => .pathPurge e env.now)
    split
    · have hdrop := @drain_strokes env inp _ _ (fun y q _ _ => Ends.ok (.drop y q .rtrRtexpire)) (strokes_dataQueue h1 hx) d
      refine Ends.bind hdrop (fun y hy => Ends.ok ?_)
      exact (h1.trans hy).then_mark d (fun e => .expired e _)
    · exact Ends.ok h1
  split
  · split
    · exact Ends.error _
    · exact sendBuffered_strokes d _ acc hx
  split
  · exact Ends.bind (sendRequest_strokes hs acc.1 d) (fun y hy => Ends.ok hy)
  · exact Ends.ok (.refl acc.1)

theorem rtPurge_strokes (hs : inp.Seeks) (hx : x.DataQueue) : Ends (Strokes env inp x) (x.rtPurge env) := by
  unfold rtPurge
  have hround : ∀ acc : Exec × ℚ, ∀ d ∈ x.rtable.map (·.rtDst), Strokes env inp x acc.1 →
      Ends (fun r => Strokes env inp x r.1) (purgeEntry env acc d) :=
    fun acc d _ h => Ends.mono (purgeEntry_strokes hs acc d (strokes_dataQueue h hx)) (fun r hr => h.trans hr)
  have hend := Ends.foldlM (Q := fun acc : Exec × ℚ => Strokes env inp x acc.1) (a := (x, 0)) hround (.refl x)
  exact Ends.bind hend (fun r hr => Ends.ok hr)

theorem salvage_strokes (x : Exec) (p : Packet) : Ends (Strokes env inp x) (x.salvage env p) := by
  have h1 : Strokes env inp x (x.say (.filter p)) := by
    refine .act x ?_
    rintro _ _ ⟨⟩
  unfold salvage
  simp only
  split
  · exact Ends.ok (h1.trans (.drop _ p _))
  rename_i hdata
  split
  · have hp : p.ptype ≠ .teaomdv := by
      intro ht
      rw [ht] at hdata
      exact hdata (by simp [dataPacket])
    exact Ends.mono (forward_data_strokes _ _ _ _ hp) (fun y hy => h1.trans hy)
  · exact Ends.ok (h1.trans (.drop _ p _))

/-- What `nb_delete(id)` does once `id` is out of the list and its routes are gone. -/
theorem salvages_strokes : ∀ (ps : List Packet) (x : Exec), Ends (Strokes env inp x) (ps.foldlM (salvage env) x) :=
  fun _ x => Ends.foldlM (fun y p _ hy => Ends.mono (salvage_strokes y p) (fun _ hz => hy.trans hz)) (.refl x)

theorem nbDelete_strokes (hf : inp.Forgets) (ifq : NsAddr → List Packet) (x : Exec) (id : NsAddr) :
    Ends (Strokes env inp x) (x.nbDelete env ifq id) := by
  unfold nbDelete
  simp only
  split
  · exact Ends.error _
  have h1 : Strokes env inp x { x with seqno := u32 (x.seqno + 2) } := .one (.own _ x.heap)
  have h2 : Strokes env inp x { x with
      seqno := u32 (x.seqno + 2), nbhead := x.nbhead.eraseP (fun nb => nb.nbAddr = id) } := h1.trans (.one (.part hf))
  refine Ends.bind (P := Strokes env inp _) (handleLinkFailure_strokes _ id) (fun y hy => ?_)
  exact Ends.mono (salvages_strokes (ifq id) y) (fun z hz => (h2.trans hy).trans hz)

theorem nbPurge_strokes (hf : inp.Forgets) (ifq : NsAddr → List Packet) (x : Exec) :
    Ends (Strokes env inp x) (x.nbPurge env ifq) := by
  unfold nbPurge
  refine Ends.foldlM (fun y nb _ hy => ?_) (.refl x)
  split
  · exact Ends.mono (nbDelete_strokes hf ifq y nb.nbAddr) (fun z hz => hy.trans hz)
  · exact Ends.ok hy

theorem trustEntry_strokes (hinp : inp = .timer .trust) (b : Batch) (id : NsAddr) :
    Strokes env inp b.x (trustEntry env b id).x := by
  have h1 : Strokes env inp b.x (b.x.nbModify id (fun nb => (nb.setTV env.now).tvInit env.now)) := .one (.judge hinp)
  unfold trustEntry
  simp only
  split
  · exact .refl b.x
  split
  · exact (h1.trans (.news _ (by trivial) rfl _)).trans (.alloc _)
  · exact h1

theorem setTrust_strokes (hinp : inp = .timer .trust) (x : Exec) : Strokes env inp x (x.setTrust env) := by
  have loop : ∀ (l : List NsAddr) (b : Batch), Strokes env inp x b.x → Strokes env inp x (l.foldl (trustEntry env) b).x := by
    intro l
    induction l with
    | nil => exact fun _ h => h
    | cons id l ih => exact fun b h => ih _ (h.trans (trustEntry_strokes hinp b id))
  have h1 := loop (x.nbhead.map (·.nbAddr)) ⟨x.alloc, x.blank, [], 0⟩ (.alloc x)
  unfold setTrust
  simp only
  split
  · exact h1.trans (.news _ (by trivial) rfl _)
  · exact h1

theorem localRepair_strokes (x : Exec) (p : Packet) : Strokes env inp x (x.localRepair env p) := by
  unfold localRepair
  split
  · exact .free x p
  refine Strokes.then_free ?_ p
  split
  · exact .mark x _ (fun e => .rtDown e _)
  · exact .refl x

/-- **Every handler is a run of strokes.** -/
theorem handle_strokes (inp : Input) (hx : x.DataQueue) : Ends (Strokes env inp x) (x.handle env inp) := by
  cases inp with
  | recv p => exact recv_strokes rfl hx
  | tap p => exact Ends.ok (tap_strokes x p)
  | rtLlFailed p => exact Ends.ok (.drop x p _)
  | timer t =>
    cases t with
    | broadcast => exact Ends.ok (.one (.expire rfl))
    | hello =>
      refine Ends.ok ?_
      split
      · exact (Strokes.alloc x).trans (.news _ (by trivial) rfl _)
      · exact .refl x
    | probe => exact Ends.ok ((Strokes.alloc x).trans (.news _ (by trivial) rfl _))
    | trust => exact Ends.ok (setTrust_strokes rfl x)
    | neighbor ifq => exact nbPurge_strokes ⟨ifq, rfl⟩ ifq x
    | routeCache => exact rtPurge_strokes (.inl rfl) hx
    | localRepair p => exact Ends.ok (localRepair_strokes x p)

end Exec

end TeAomdv

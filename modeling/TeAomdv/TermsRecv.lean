import TeAomdv.Terms
/-!
# TermsRecv — the terms of the reception routines

What `recv` and the handlers behind it send and buffer, given what the terms say of the packet received (`Admits`).
-/
namespace TeAomdv

open Fallible (Ends)

namespace Exec

variable {T : Terms} {env : Env} {x y : Exec} {d : NsAddr} {p : Packet}

section Laws

variable (hT : T.Lawful)

include hT

/-! ## Requests and replies -/

omit hT in
theorem sendReply_meets (hx : x.Meets T) {ipdst : NsAddr} {bid : Nat} (hp : ∀ (q : Packet) rp, q.body = .rrep rp →
      rp.rpBcastId = bid → q.daddr = ipdst → q.ttl = networkDiameter → q.ptype = .teaomdv → T.heap ≤ q.ptr → T.goes q)
    (k : Nat) (rpdst : NsAddr) (seq : Nat) (life time : ℚ) (n l : NsAddr) (fpt rpt : ℚ) :
    (x.sendReply ipdst k rpdst seq life time n bid l fpt rpt).Meets T := by
  refine hx.alloc.schedule ?_ _
  exact hp _ _ rfl rfl rfl rfl rfl hx.heap

omit hT in
theorem Noted.meets {inf : Nat} {a : Advert} {u : Update inf a} {rt : RtEntry} {goes : Bool} (h : Noted u x rt y goes)
    (hx : x.Meets T) : y.Meets T := by
  cases h with
  | renew | refresh | extend => exact hx.rtModify _ _
  | keep => exact hx

section Request

variable {rq : Rreq}

omit hT in
theorem reverseRoute_meets (hx : x.Meets T) : Ends (fun a => a.1.Meets T) (x.reverseRoute env p rq) := by
  refine Ends.mono (reverseRoute_noted env x p rq).ends (fun a ha => ?_)
  obtain ⟨rt, -, hn⟩ := ha
  exact hn.meets hx

variable (hcaches : T.Caches env.now rq.rqSrc rq.rqBcastId) (hmarks : T.Marks rq.rqSrc rq.rqBcastId)
  (hreply : ∀ (q : Packet) rp, q.body = .rrep rp → rp.rpBcastId = rq.rqBcastId → q.daddr = rq.rqSrc →
    q.ttl = networkDiameter → q.ptype = .teaomdv → T.heap ≤ q.ptr → T.goes q)
  (hrelay : p.ttl ≠ 0 → ∀ rq' : Rreq, rq'.rqSrc = rq.rqSrc → rq'.rqBcastId = rq.rqBcastId →
    T.goes { p with saddr := T.index, body := .rreq rq', addrType := .none, direction := .down })

include hreply in
theorem replyAsDestination_meets (hx : x.Meets T) : (x.replyAsDestination env p rq).Meets T := by
  have h₁ : Meets T { x with seqno := replySeqno x.seqno rq.rqDstSeqno } :=
    ⟨hx.index, hx.heap, hx.ids, hx.queue, hx.sent, hx.nbs⟩
  exact (sendReply_meets (h₁.nbEnsure hT env p.saddr) hreply _ _ _ _ _ _ _ _ _).free p

omit hT

include hcaches in
theorem prepareRequest_meets : x.Abides T (x.prepareRequest env rq) := by
  intro hx
  unfold prepareRequest
  refine rtEnsure_meets _ ?_
  split
  · exact hx
  · rename_i hnone
    exact ⟨hx.index, hx.heap, hcaches _ hx.ids (Option.not_isSome_iff_eq_none.1 hnone), hx.queue, hx.sent, hx.nbs⟩

include hmarks hreply in
theorem replyFromTable_meets (rt : RtEntry) (b : Bool) : x.Abides T (x.replyFromTable env p rq rt b) := by
  intro hx
  unfold replyFromTable
  split
  · exact Ends.error _
  split
  · split
    · exact Ends.error _
    · have h₁ : (x.idMark rq.rqSrc rq.rqBcastId).Meets T :=
        ⟨hx.index, hx.heap, hmarks _ hx.ids, hx.queue, hx.sent, hx.nbs⟩
      exact Ends.ok ((sendReply_meets (h₁.rtModify rq.rqDst _) hreply _ _ _ _ _ _ _ _ _).free p)
  · exact Ends.ok (hx.free p)

include hrelay in
theorem relayRequest_meets (rt : Option RtEntry) (kill : Bool) : x.Abides T (x.relayRequest env p rq rt kill) := by
  intro hx
  unfold relayRequest
  split
  · exact Ends.ok (hx.free p)
  split
  · exact Ends.error _
  simp only
  split
  · exact Ends.error _
  · have h₁ := hx.rtModify rq.rqSrc (fun rt => rt.advertise env.inf)
    refine forward_none_meets (fun ht => ?_) _ h₁
    rw [h₁.index]
    exact hrelay ht _ rfl rfl

include hT hmarks hreply hrelay

theorem answerRequest_meets (kill b : Bool) : x.Abides T (x.answerRequest env p rq kill b) := by
  intro hx
  unfold answerRequest
  split
  · exact Ends.ok (replyAsDestination_meets hT hreply hx)
  split
  · exact relayRequest_meets hrelay _ _ hx
  split
  · exact replyFromTable_meets hmarks hreply _ b hx
  · exact relayRequest_meets hrelay _ _ hx

include hcaches

/-- **What `recvRequest` sends**: what was buffered, a reply of its own, or the request passed on. -/
theorem recvRequest_meets : x.Abides T (x.recvRequest env p rq) := by
  intro hx
  unfold recvRequest
  split
  · exact Ends.ok (hx.free p)
  split
  · exact Ends.ok (hx.free p)
  obtain ⟨l, q, hseen⟩ : ∃ l q, x.seenRequest p rq = { rq with rqFirstHop := l, RPT := q } :=
    ⟨_, _, seenRequest_eq x p rq⟩
  simp only [hseen]
  refine Ends.bind (prepareRequest_meets hcaches hx) (fun y hy => Ends.bind (reverseRoute_meets hy) (fun a ha => ?_))
  obtain ⟨z, b⟩ := a
  cases b with
  | none => exact Ends.ok (ha.free p)
  | some b =>
    refine Ends.bind (flush_meets hT _ ha) (fun w hw => ?_)
    refine answerRequest_meets hT ?_ ?_ ?_ _ b hw
    · exact hmarks
    · exact hreply
    · exact hrelay

end Request

section Reply

variable {rp : Rrep} (hmarks : T.Marks p.daddr rp.rpBcastId)
  (hrelay : p.ttl ≠ 0 → ∀ (rp' : Rrep) (n : NsAddr), rp'.rpBcastId = rp.rpBcastId →
    T.goes ({ p with body := .rrep rp' }.forwarded T.index n))

omit hT in
theorem forwardRouteTo_meets (hx : x.Meets T) (nbt : Option Neighbor) :
    Ends (fun a => a.1.Meets T) (x.forwardRouteTo env rp nbt) := by
  refine Ends.mono (forwardRouteTo_noted env x rp nbt).ends (fun a ha => ?_)
  obtain ⟨rt, -, hn⟩ := ha
  exact hn.meets hx

include hmarks hrelay

theorem relayReply_meets : x.Abides T (x.relayReply env p rp) := by
  intro hx
  unfold relayReply
  split
  swap
  · exact Ends.ok (hx.free p)
  split
  · exact Ends.ok (hx.free p)
  split
  · exact Ends.error _
  rename_i reversePath _
  obtain ⟨t, hlow⟩ := lowerReverse_eq rp ((x.idMark p.daddr rp.rpBcastId).nbLookup reversePath.nexthop)
  simp only [hlow]
  split
  · exact Ends.error _
  split
  · exact Ends.error _
  have h₁ : (x.idMark p.daddr rp.rpBcastId).Meets T := ⟨hx.index, hx.heap, hmarks _ hx.ids, hx.queue, hx.sent, hx.nbs⟩
  have h₄ := ((h₁.rtModify rp.rpDst (fun rt => rt.advertise env.inf)).rtModify p.daddr (fun rt0 =>
    rt0.modifyFind (fun path => { path with expire := env.now + activeRouteTimeout }))).rtModify rp.rpDst
      (fun rt => rt.setError true)
  refine forward_some_meets hT (fun ht n => ?_) _ _ h₄
  exact hrelay ht _ n rfl

/-- **What `recvReply` sends**: what was buffered, or the reply passed on. -/
theorem recvReply_meets : x.Abides T (x.recvReply env p rp) := by
  intro hx
  unfold recvReply
  split
  · exact Ends.ok (hx.free p)
  split
  · exact Ends.ok (hx.free p)
  obtain ⟨t, hlow⟩ := lowerForward_eq rp (x.nbLookup p.prevHop)
  simp only [hlow]
  refine Ends.bind (rtEnsure_meets _ hx) (fun y hy => Ends.bind (forwardRouteTo_meets hy _) (fun a ha => ?_))
  obtain ⟨z, b⟩ := a
  cases b with
  | false => exact Ends.ok (ha.free p)
  | true =>
    refine Ends.bind (flush_meets hT _ ha) (fun w hw => ?_)
    split
    · exact Ends.ok (hw.free p)
    · refine relayReply_meets hT ?_ ?_ hw
      · exact hmarks
      · exact hrelay

end Reply

/-! ## Reports, and everything else received -/

omit hT in
theorem errorSlot_meets {saddr : NsAddr} (a : Exec × List (NsAddr × Nat)) (slot : NsAddr × Nat) (hx : a.1.Meets T) :
    Ends (fun a => a.1.Meets T) (errorSlot env saddr a slot) := by
  unfold errorSlot
  simp only
  split
  · exact Ends.ok hx
  split
  · split
    · exact Ends.error _
    refine Ends.bind (downIfEmpty_meets (hx.rtModify _ _) _ _) (fun b hb => ?_)
    split
    · exact Ends.ok (hb.rtModify _ _)
    · exact Ends.ok hb
  · exact Ends.ok hx

theorem recvError_meets (p : Packet) (re : Rerr) : x.Abides T (x.recvError env p re) := by
  intro hx
  unfold recvError
  simp only
  split
  · exact Ends.error _
  · refine Ends.bind (P := fun a => a.1.Meets T) (Ends.foldlM (fun a s _ => errorSlot_meets a s) hx.alloc) (fun a ha => ?_)
    refine Ends.ok (Meets.free ?_ p)
    split
    · exact ha.sendError hT hx.heap _ _
    · exact ha.free _

theorem recvPta_meets (p : Packet) (re : Pta) : x.Abides T (x.recvPta env p re) := by
  intro hx
  unfold recvPta
  split
  · exact Ends.ok (hx.free p)
  split
  · split
    · exact Ends.error _
    simp only
    refine Ends.bind (downIfEmpty_meets (hx.rtModify _ _) _ _) (fun a ha => Ends.ok (Meets.free ?_ p))
    exact Meets.foldl (fun y pc _ hy => hy.reportDistrust hT _ _ _ pc) (ha.rtModify _ _)
  · exact Ends.ok (hx.free p)

theorem recvHello_meets (p : Packet) (rp : Rrep) (hx : x.Meets T) : (x.recvHello env p rp).Meets T := by
  unfold recvHello
  split
  · exact (hx.nbInsert hT env _).free p
  · exact (hx.nbNote hT _ (fun nb => .expiry nb _)).free p

omit hT

theorem recvRcom_meets {rc : Recommen} (hrc : T.Heeds (env.unsetTrust p.saddr) rc) :
    x.Abides T (x.recvRcom env p rc) := by
  intro hx
  unfold recvRcom
  split
  · exact Ends.ok (hx.free p)
  rename_i nb hnb
  split
  · split
    · exact Ends.error _
    · have hby := hx.nbs nb (List.mem_of_find?_eq_some hnb)
      refine Ends.ok (Meets.free ?_ p)
      exact Meets.foldl (fun y r hr hy => hy.nbModify r.1 (fun nb' hk => hrc.recommend nb nb' hby hk r hr))
        (hx.nbModify p.saddr hrc.interact)
  · exact Ends.ok (hx.free p)

/-! ## Data packets -/

/-- `recv` passes the packet on to `rt_resolve`. -/
def resolves (x : Exec) (p : Packet) : Bool :=
  p.ptype ≠ .teaomdv ∧ p.daddr ≠ ipBroadcast ∧
    ((p.saddr = x.index ∧ p.numForwards = 0) ∨ (p.saddr ≠ x.index ∧ p.ttl ≠ 1))

/-- A data packet as `recv` goes on with it: the source sets the TTL, every other node takes one off. -/
def passed (x : Exec) (p : Packet) : Packet :=
  if p.saddr = x.index ∧ p.numForwards = 0 then { p with salvageCount := 0, ttl := networkDiameter }
  else { p with ttl := p.ttl - 1 }

/-- **What `recv` does with a data packet.** -/
theorem recv_data (x : Exec) (env : Env) (hp : p.ptype ≠ .teaomdv) (hd : p.daddr ≠ ipBroadcast) :
    if x.resolves p then x.recv env p = x.rtResolve env (x.passed p)
    else ∃ q r, x.recv env p = .ok (x.drop q r) := by
  unfold resolves passed recv
  rw [if_neg hp]
  by_cases hown : p.saddr = x.index ∧ p.numForwards = 0
  · rw [if_pos (by simp [hp, hd, hown]), if_pos hown, if_pos hown]
    simp [hd]
  rw [if_neg hown, if_neg hown]
  by_cases hs : p.saddr = x.index
  · have hn : p.numForwards ≠ 0 := fun hn => hown ⟨hs, hn⟩
    rw [if_neg (by simp [hs, hn]), if_pos hs]
    exact ⟨_, _, rfl⟩
  rw [if_neg hs]
  by_cases ht : p.ttl = 1
  · rw [if_neg (by simp [hs, ht])]
    simp only [ht]
    exact ⟨_, _, rfl⟩
  · have ht' : ¬ p.ttl - 1 = 0 := by omega
    rw [if_pos (by simp [hp, hd, hs, ht])]
    simp only
    rw [if_neg ht', if_pos hd]

theorem ptr_passed (x : Exec) (p : Packet) : (x.passed p).ptr = p.ptr := by
  unfold passed
  split <;> rfl

theorem ptype_passed (h : x.resolves p) : (x.passed p).ptype ≠ .teaomdv := by
  have hp := (of_decide_eq_true h).1
  unfold passed
  split <;> exact hp

include hT

theorem rtResolve_meets (hwait : ∀ t, T.waits { p with ts := t }) (hgo : p.ttl ≠ 0 → ∀ n, T.goes (p.forwarded T.index n)) :
    x.Abides T (x.rtResolve env p) := by
  intro hx
  unfold rtResolve
  refine Ends.bind (rtEnsure_meets _ hx) (fun y hy => ?_)
  split
  · exact Ends.error _
  split
  · split
    · exact Ends.error _
    · exact forward_some_meets hT hgo _ _ hy
  split
  · exact sendRequest_meets hT _ (hy.enque env hwait)
  split
  · exact Ends.ok (hy.enque env hwait)
  · exact Ends.ok ((hy.alloc.sendError hT hy.heap _ _).drop p _)

omit hT

/-- What the terms have to say of a packet received. -/
structure Admits (T : Terms) (env : Env) (x : Exec) (p : Packet) : Prop where
  waits : x.resolves p → ∀ t, T.waits { x.passed p with ts := t }
  passes : x.resolves p → ∀ n, T.goes ((x.passed p).forwarded T.index n)
  broadcasts : p.ptype ≠ .teaomdv → p.daddr = ipBroadcast → ∀ q : Packet, q.daddr = ipBroadcast → q.ptype = p.ptype → T.goes q
  caches : ∀ rq, p.ptype = .teaomdv → p.body = .rreq rq →
    T.Caches env.now rq.rqSrc rq.rqBcastId ∧ T.Marks rq.rqSrc rq.rqBcastId
  marks : ∀ rp, p.ptype = .teaomdv → p.body = .rrep rp → T.Marks p.daddr rp.rpBcastId
  replies : ∀ rq, p.ptype = .teaomdv → p.body = .rreq rq → ∀ (q : Packet) rp, q.body = .rrep rp →
    rp.rpBcastId = rq.rqBcastId → q.daddr = rq.rqSrc → q.ttl = networkDiameter → q.ptype = .teaomdv → T.heap ≤ q.ptr →
    T.goes q
  relays : ∀ rq, p.ptype = .teaomdv → p.body = .rreq rq → p.ttl ≠ 1 → ∀ rq' : Rreq, rq'.rqSrc = rq.rqSrc →
    rq'.rqBcastId = rq.rqBcastId →
    T.goes { p with ttl := p.ttl - 1, saddr := T.index, body := .rreq rq', addrType := .none, direction := .down }
  returns : ∀ rp, p.ptype = .teaomdv → p.body = .rrep rp → p.ttl ≠ 1 → ∀ (rp' : Rrep) (n : NsAddr),
    rp'.rpBcastId = rp.rpBcastId → T.goes ({ p with ttl := p.ttl - 1, body := .rrep rp' }.forwarded T.index n)
  heeds : ∀ rc, p.ptype = .teaomdv → p.body = .rcom rc → T.Heeds (env.unsetTrust p.saddr) rc
  probes : p.ptype = .teaomdv → p.body = .prob → ∀ nb, T.knows nb →
    T.knows { nb with nbExpire := env.now + helloInterval, probRecvs := nb.probRecvs + 1 }

variable (hp : x.Admits T env p)

include hT hp

theorem recvTEAOMDV_meets (ht : p.ptype = .teaomdv) : x.Abides T (x.recvTEAOMDV env { p with ttl := p.ttl - 1 }) := by
  have hne : p.ttl - 1 ≠ 0 → p.ttl ≠ 1 := by omega
  intro hx
  unfold recvTEAOMDV
  split
  · exact Ends.error _
  simp only
  cases hb : p.body with
  | rreq rq =>
    refine recvRequest_meets hT (hp.caches rq ht hb).1 (hp.caches rq ht hb).2 (hp.replies rq ht hb) (fun h rq' h1 h2 => ?_) hx
    exact hp.relays rq ht hb (hne h) rq' h1 h2
  | rrep rp =>
    refine recvReply_meets hT (hp.marks rp ht hb) (fun h rp' n h1 => ?_) hx
    exact hp.returns rp ht hb (hne h) rp' n h1
  | rerr re => exact recvError_meets hT _ re hx
  | hello rp => exact Ends.ok (recvHello_meets hT _ rp hx)
  | rcom rc => exact recvRcom_meets (hp.heeds rc ht hb) hx
  | prob => exact Ends.ok ((hx.nbModify _ (hp.probes ht hb)).free _)
  | pta re => exact recvPta_meets hT _ re hx
  | payload => exact Ends.error _

/-- **Whatever is received, the terms are met.** -/
theorem recv_meets : x.Abides T (x.recv env p) := by
  intro hx
  by_cases ht : p.ptype = .teaomdv
  · unfold recv
    rw [if_pos ht]
    exact recvTEAOMDV_meets hT hp ht hx
  by_cases hd : p.daddr = ipBroadcast
  · have hup : ∀ q : Packet, q.daddr = p.daddr → q.ptype = p.ptype → Ends (Meets T) (x.forward env none q noTeaomdvDelay) :=
      fun q h1 h2 => forward_none_meets (fun _ => hp.broadcasts ht hd _ (h1.trans hd) h2) _ hx
    have hd' : ¬ p.daddr ≠ ipBroadcast := not_not.2 hd
    unfold recv
    rw [if_neg ht]
    split
    · simp only
      rw [if_neg hd']
      exact hup _ rfl rfl
    split
    · exact Ends.ok (hx.drop p _)
    simp only
    split
    · exact Ends.ok (hx.drop _ _)
    · exact hup _ rfl rfl
  · have hrecv := recv_data x env ht hd
    split at hrecv
    · rename_i hres
      rw [hrecv]
      exact rtResolve_meets hT (hp.waits hres) (fun _ => hp.passes hres) hx
    · obtain ⟨q, r, hq⟩ := hrecv
      rw [hq]
      exact Ends.ok (hx.drop q r)

end Laws

end Exec

end TeAomdv

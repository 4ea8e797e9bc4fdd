import TeAomdv.TermsTimers
import TeAomdv.Answer
/-!
# Once — a request is passed on once, and answered once

A broadcast id is cached before the copy it came in is passed on, and its mark is set before a reply goes out, from the
table or relayed.  What a node may still send for a request is the credit its cache leaves it (`relayCredit`,
`replyCredit`): no invocation sends more than it takes off the credit (`handle_once`), so a run that does not purge the id
sends one of each at most (`once_of_reach`).
-/
namespace TeAomdv

open Fallible (Ends)

/-- A RREQ of this identity. -/
def Packet.requests (s : NsAddr) (b : Nat) (p : Packet) : Bool :=
  match p.body with
  | .rreq rq => p.ptype = .teaomdv ∧ rq.rqSrc = s ∧ rq.rqBcastId = b
  | _ => false

/-- A RREP for the request of this identity. -/
def Packet.answers (s : NsAddr) (b : Nat) (p : Packet) : Bool :=
  match p.body with
  | .rrep rp => p.ptype = .teaomdv ∧ p.daddr = s ∧ rp.rpBcastId = b
  | _ => false

theorem Packet.requests_eq_true {s : NsAddr} {b : Nat} {p : Packet} (h : p.requests s b = true) :
    ∃ rq, p.body = .rreq rq ∧ p.ptype = .teaomdv ∧ rq.rqSrc = s ∧ rq.rqBcastId = b := by
  unfold Packet.requests at h
  split at h
  · rename_i rq hb
    exact ⟨rq, hb, of_decide_eq_true h⟩
  · cases h

theorem Packet.answers_eq_true {s : NsAddr} {b : Nat} {p : Packet} (h : p.answers s b = true) :
    ∃ rp, p.body = .rrep rp ∧ p.ptype = .teaomdv ∧ p.daddr = s ∧ rp.rpBcastId = b := by
  unfold Packet.answers at h
  split at h
  · rename_i rp hb
    exact ⟨rp, hb, of_decide_eq_true h⟩
  · cases h

/-- How often the request may still be passed on. -/
def relayCredit (s : NsAddr) (b : Nat) (l : List BroadcastId) : Nat := if (l.find? (Exec.sameId s b)).isSome then 0 else 1

/-- How often it may still be answered. -/
def replyCredit (s : NsAddr) (b : Nat) (l : List BroadcastId) : Nat :=
  if (l.find? (Exec.sameId s b)).all (fun i => i.count = 0) then 1 else 0

namespace Exec

/-- What was sent of a request, and what may still be. -/
def relays (x : Exec) (s : NsAddr) (b : Nat) : Nat := x.sent.countP (Packet.requests s b) + relayCredit s b x.bihead

/-- What was sent in answer to it, and what may still be. -/
def replies (x : Exec) (s : NsAddr) (b : Nat) : Nat := x.sent.countP (Packet.answers s b) + replyCredit s b x.bihead

variable {env : Env} {x y : Exec} {s d : NsAddr} {b : Nat} {p : Packet}

/-! ## What a reply and a relay cost -/

theorem relays_of_emits {go : Prop} {body : Body} (h : x.Emits go body y) (s : NsAddr) (b : Nat) : y.relays s b ≤ x.relays s b + 1 := by
  unfold relays
  obtain ⟨-, hids, -, ⟨-, hsent⟩ | ⟨-, q, hsent, -⟩⟩ := h
  · rw [hids, hsent]
    omega
  · rw [hids, hsent, List.countP_append]
    have := List.countP_le_length (p := Packet.requests s b) (l := [q])
    simp only [List.length_singleton] at this
    omega

theorem relays_of_emits_rrep {go : Prop} {rp : Rrep} (h : x.Emits go (.rrep rp) y) (s : NsAddr) (b : Nat) :
    y.relays s b = x.relays s b := by
  unfold relays
  obtain ⟨-, hids, -, ⟨-, hsent⟩ | ⟨-, q, hsent, hb, -⟩⟩ := h
  · rw [hids, hsent]
  · rw [hids, hsent, List.countP_append]
    simp [Packet.requests, hb]

theorem replies_of_emits_rreq {go : Prop} {rq : Rreq} (h : x.Emits go (.rreq rq) y) (s : NsAddr) (b : Nat) :
    y.replies s b = x.replies s b := by
  unfold replies
  obtain ⟨-, hids, -, ⟨-, hsent⟩ | ⟨-, q, hsent, hb, -⟩⟩ := h
  · rw [hids, hsent]
  · rw [hids, hsent, List.countP_append]
    simp [Packet.answers, hb]

theorem relays_congr {x y : Exec} (hids : y.bihead = x.bihead) (hsent : y.sent = x.sent) (s : NsAddr) (b : Nat) :
    y.relays s b = x.relays s b ∧ y.replies s b = x.replies s b := by
  unfold relays replies
  rw [hids, hsent]
  exact ⟨rfl, rfl⟩

theorem find?_idMark (x : Exec) (s : NsAddr) (b : Nat) :
    (x.idMark s b).idGet s b = (x.idGet s b).map (fun i => { i with count := 1 }) :=
  Keyed.find?_modifyFirst (p := sameId s b) (f := fun i => { i with count := 1 }) (fun _ h => h) x.bihead

/-- **A reply costs the mark**: the id was cached, and had not been answered. -/
theorem emits_of_idMark {i : BroadcastId} {go : Prop} {body : Body} {f : RtEntry → RtEntry} (hget : x.idGet s b = some i)
    (hcount : i.count = 0) (h : ((x.idMark s b).rtModify d f).Emits go body y) : y.replies s b ≤ x.replies s b := by
  have hmark : (x.idMark s b).bihead.find? (sameId s b) = some { i with count := 1 } := by
    have := x.find?_idMark s b
    rw [hget] at this
    exact this
  have hget : x.bihead.find? (sameId s b) = some i := hget
  have hids : y.bihead.find? (sameId s b) = _ := (congrArg (List.find? (sameId s b)) h.ids).trans hmark
  unfold replies replyCredit
  rw [hids, hget]
  simp only [Option.all_some, hcount]
  rcases h.sent with ⟨-, hsent⟩ | ⟨-, q, hsent, -⟩
  · rw [hsent]
    simp
  · rw [hsent, sent_rtModify, sent_idMark, List.countP_append]
    have := List.countP_le_length (p := Packet.answers s b) (l := [q])
    simpa using this

theorem relays_idMark (x : Exec) (s : NsAddr) (b : Nat) : (x.idMark s b).relays s b = x.relays s b := by
  have hfind : (x.idMark s b).bihead.find? (sameId s b) = _ := x.find?_idMark s b
  unfold relays relayCredit
  rw [hfind, sent_idMark, Option.isSome_map]
  rfl

/-! ## Terms of one request -/

/-- Nothing is sent of the request or in answer to it, and its cached id stays as it is. -/
def onceTerms (x : Exec) (s : NsAddr) (b : Nat) : Terms where
  index := x.index
  heap := 0
  ids := fun l => l.find? (sameId s b) = x.bihead.find? (sameId s b)
  waits := fun q => q.ptype ≠ .teaomdv
  goes := fun q => q.requests s b = false ∧ q.answers s b = false

theorem foreign_of_ptype (hp : p.ptype ≠ .teaomdv) : p.requests s b = false ∧ p.answers s b = false := by
  constructor
  · by_contra h
    obtain ⟨-, -, ht, -⟩ := Packet.requests_eq_true (Bool.not_eq_false _ ▸ h)
    exact hp ht
  · by_contra h
    obtain ⟨-, -, ht, -⟩ := Packet.answers_eq_true (Bool.not_eq_false _ ▸ h)
    exact hp ht

theorem onceTerms_lawful (hs : s ≠ x.index) : (x.onceTerms s b).Lawful where
  flush := fun q n hq _ => foreign_of_ptype hq
  news := by
    intro q hq _ _ _ _
    unfold Packet.Mute at hq
    constructor
    · cases hb : q.body <;> simp_all [Packet.requests]
    · cases hb : q.body <;> simp_all [Packet.answers]
  request := by
    intro q rq hb hsrc _ _
    have hne : ¬ rq.rqSrc = s := fun h => hs (h.symm.trans hsrc)
    constructor
    · simp [Packet.requests, hb, hne]
    · simp [Packet.answers, hb]
  fresh := fun _ _ _ => trivial
  notes := fun _ _ _ _ => trivial

theorem onceTerms_meets (hlog : x.log = []) (hq : x.DataQueue) : x.Meets (x.onceTerms s b) where
  index := rfl
  heap := Nat.zero_le _
  ids := rfl
  queue := fun q hm => (hq q hm).1
  sent := by simp [hlog]
  nbs := fun _ _ => trivial

/-- Whatever meets the terms has sent nothing of the request, and has the credit there was. -/
theorem credit_of_meets (h : y.Meets (x.onceTerms s b)) :
    y.relays s b = relayCredit s b x.bihead ∧ y.replies s b = replyCredit s b x.bihead := by
  have hids : y.bihead.find? (sameId s b) = x.bihead.find? (sameId s b) := h.ids
  have hgo : ∀ q ∈ y.sent, q.requests s b = false ∧ q.answers s b = false := by
    intro q hq
    obtain ⟨t, ht⟩ := mem_log_of_sent hq
    exact h.sent q t ht
  have h1 : y.sent.countP (Packet.requests s b) = 0 := List.countP_eq_zero.2 (fun q hq => by simp [(hgo q hq).1])
  have h2 : y.sent.countP (Packet.answers s b) = 0 := List.countP_eq_zero.2 (fun q hq => by simp [(hgo q hq).2])
  unfold relays replies relayCredit replyCredit
  rw [h1, h2, hids]
  exact ⟨Nat.zero_add _, Nat.zero_add _⟩

/-! ## The handlers -/

section Request

variable {rq : Rreq}

theorem relayRequest_once (hp : p.ptype = .teaomdv) (rt : Option RtEntry) (kill : Bool) (s : NsAddr) (b : Nat) :
    Ends (fun y => y.relays s b ≤ x.relays s b + (if kill then 0 else 1) ∧ y.replies s b = x.replies s b)
      (x.relayRequest env p rq rt kill) := by
  refine Ends.mono (relayRequest_ends hp rt kill) (fun y hy => ?_)
  rcases hy with ⟨-, rfl⟩ | ⟨rfl, -, -, rq', -, -, -, -, hy⟩
  · obtain ⟨h1, h2⟩ := relays_congr (x := x) (y := x.free p) rfl (sent_free x p) s b
    exact ⟨h1.le.trans (Nat.le_add_right _ _), h2⟩
  · exact ⟨relays_of_emits hy s b, replies_of_emits_rreq hy s b⟩

/-- A reply from the table: the mark is set for it. -/
theorem replyFromTable_once (hget : (x.idGet rq.rqSrc rq.rqBcastId).isSome) (rt : RtEntry) (reverse : Bool) :
    Ends (fun y => y.relays rq.rqSrc rq.rqBcastId = x.relays rq.rqSrc rq.rqBcastId ∧
      y.replies rq.rqSrc rq.rqBcastId ≤ x.replies rq.rqSrc rq.rqBcastId) (x.replyFromTable env p rq rt reverse) := by
  obtain ⟨i, hi⟩ := Option.isSome_iff_exists.1 hget
  refine Ends.mono (replyFromTable_ends reverse) (fun y hy => ?_)
  rcases hy with ⟨-, rfl⟩ | ⟨⟨-, hfirst⟩, -, rp, -, -, -, hy⟩
  · obtain ⟨h1, h2⟩ := relays_congr (x := x) (y := x.free p) rfl (sent_free x p) rq.rqSrc rq.rqBcastId
    exact ⟨h1, h2.le⟩
  · have hcount : i.count = 0 := by simpa [hi] using hfirst
    exact ⟨(relays_of_emits_rrep hy _ _).trans (relays_idMark x _ _), emits_of_idMark hi hcount hy⟩

theorem answerRequest_once (hp : p.ptype = .teaomdv) (rq : Rreq) (hget : (x.idGet rq.rqSrc rq.rqBcastId).isSome)
    (kill reverse : Bool) :
    Ends (fun y => y.relays rq.rqSrc rq.rqBcastId ≤ x.relays rq.rqSrc rq.rqBcastId + (if kill then 0 else 1) ∧
      (rq.rqDst ≠ x.index → y.replies rq.rqSrc rq.rqBcastId ≤ x.replies rq.rqSrc rq.rqBcastId))
      (x.answerRequest env p rq kill reverse) := by
  unfold answerRequest
  by_cases hdst : rq.rqDst = x.index
  · rw [if_pos hdst]
    obtain ⟨rp, -, hrp⟩ := replyAsDestination_emits env x p rq
    refine Ends.ok ⟨?_, fun hne => absurd hdst hne⟩
    rw [relays_of_emits_rrep hrp]
    exact Nat.le_add_right _ _
  rw [if_neg hdst]
  cases x.rtLookup rq.rqDst with
  | none => exact Ends.mono (relayRequest_once hp none kill _ _) (fun y hy => ⟨hy.1, fun _ => hy.2.le⟩)
  | some rt =>
    simp only
    by_cases hup : rt.rtFlags = .up ∧ rt.rtSeqno ≥ rq.rqDstSeqno
    · rw [if_pos hup]
      refine Ends.mono (replyFromTable_once hget rt reverse) (fun y hy => ⟨?_, fun _ => hy.2⟩)
      rw [hy.1]
      exact Nat.le_add_right _ _
    · rw [if_neg hup]
      exact Ends.mono (relayRequest_once hp (some rt) kill _ _) (fun y hy => ⟨hy.1, fun _ => hy.2.le⟩)

/-- Caching the id takes the credit for passing it on. -/
theorem cache_credit (env : Env) (x : Exec) (s : NsAddr) (b : Nat) : ∃ x₁ : Exec,
    (if (x.idGet s b).isSome then x else x.idInsert env s b) = x₁ ∧ x₁.log = x.log ∧ x₁.rqueue = x.rqueue ∧
    x₁.index = x.index ∧ (x₁.bihead.find? (sameId s b)).isSome ∧
    relayCredit s b x₁.bihead + (if (x.idGet s b).isSome then 0 else 1) = relayCredit s b x.bihead ∧
    replyCredit s b x₁.bihead = replyCredit s b x.bihead := by
  cases hi : x.bihead.find? (sameId s b) with
  | some i => exact ⟨x, by simp [idGet, hi], rfl, rfl, rfl, by simp [hi], by simp [idGet, hi, relayCredit], rfl⟩
  | none =>
    refine ⟨x.idInsert env s b, by simp [idGet, hi], rfl, rfl, rfl, ?_, ?_, ?_⟩
    · simp [idInsert, sameId]
    · simp [idInsert, idGet, hi, relayCredit, sameId]
    · simp [idInsert, hi, replyCredit, sameId]

/-- **A request**: the credit covers the copy passed on, and the reply. -/
theorem recvRequest_once (hp : p.ptype = .teaomdv) (rq : Rreq) (hlog : x.log = []) (hq : x.DataQueue) :
    Ends (fun y => y.relays rq.rqSrc rq.rqBcastId ≤ x.relays rq.rqSrc rq.rqBcastId ∧
      (rq.rqDst ≠ x.index → y.replies rq.rqSrc rq.rqBcastId ≤ x.replies rq.rqSrc rq.rqBcastId))
      (x.recvRequest env p rq) := by
  obtain ⟨hfree₁, hfree₂⟩ := relays_congr (x := x) (y := x.free p) rfl (sent_free x p) rq.rqSrc rq.rqBcastId
  have hsilent := credit_of_meets (onceTerms_meets (s := rq.rqSrc) (b := rq.rqBcastId) hlog hq)
  unfold recvRequest
  split
  · exact Ends.ok ⟨hfree₁.le, fun _ => hfree₂.le⟩
  rename_i hsrc
  split
  · exact Ends.ok ⟨hfree₁.le, fun _ => hfree₂.le⟩
  obtain ⟨l, q, hseen⟩ : ∃ l q, x.seenRequest p rq = { rq with rqFirstHop := l, RPT := q } :=
    ⟨_, _, seenRequest_eq x p rq⟩
  simp only [hseen]
  unfold prepareRequest
  obtain ⟨x₁, hx₁, hlog₁, hq₁, hindex, hget, hrelay, hreply⟩ := cache_credit env x rq.rqSrc rq.rqBcastId
  rw [hlog] at hlog₁
  rw [hx₁]
  have hT : (x₁.onceTerms rq.rqSrc rq.rqBcastId).Lawful := onceTerms_lawful (fun h => hsrc (h.trans hindex))
  have hx₁ : x₁.Meets (x₁.onceTerms rq.rqSrc rq.rqBcastId) := onceTerms_meets hlog₁ (fun q hm => hq q (hq₁ ▸ hm))
  refine Ends.bind (rtEnsure_meets _ hx₁) (fun y hy => Ends.bind (reverseRoute_meets hy) (fun a ha => ?_))
  obtain ⟨z, k⟩ := a
  cases k with
  | none =>
    have hz := credit_of_meets (ha.free p)
    refine Ends.ok ⟨?_, fun _ => ?_⟩
    · rw [hz.1, hsilent.1]
      omega
    · rw [hz.2, hsilent.2, hreply]
  | some k =>
    refine Ends.bind (flush_meets hT _ ha) (fun w hw => ?_)
    have hids : w.bihead.find? (sameId rq.rqSrc rq.rqBcastId) = x₁.bihead.find? (sameId rq.rqSrc rq.rqBcastId) := hw.ids
    have hwindex : w.index = x.index := hw.index.trans hindex
    have hw := credit_of_meets hw
    have hcached : (w.idGet rq.rqSrc rq.rqBcastId).isSome := by
      unfold idGet
      rw [hids]
      exact hget
    refine Ends.mono (answerRequest_once hp { rq with rqFirstHop := l, RPT := q } hcached _ k) (fun v hv => ⟨?_, ?_⟩)
    · refine hv.1.trans ?_
      show w.relays rq.rqSrc rq.rqBcastId + _ ≤ _
      rw [hw.1, hsilent.1, hrelay]
    · intro hdst
      refine (hv.2 (fun h => hdst (h.trans hwindex))).trans ?_
      show w.replies rq.rqSrc rq.rqBcastId ≤ _
      rw [hw.2, hsilent.2, hreply]

end Request

section Reply

theorem relayReply_once (hp : p.ptype = .teaomdv) (rp : Rrep) :
    Ends (fun y => y.relays p.daddr rp.rpBcastId = x.relays p.daddr rp.rpBcastId ∧
      y.replies p.daddr rp.rpBcastId ≤ x.replies p.daddr rp.rpBcastId) (x.relayReply env p rp) := by
  refine Ends.mono (relayReply_ends hp rp) (fun y hy => ?_)
  rcases hy with ⟨-, rfl⟩ | ⟨⟨-, i, hget, hcount⟩, -, -, rp', -, -, -, -, hy⟩
  · obtain ⟨h1, h2⟩ := relays_congr (x := x) (y := x.free p) rfl (sent_free x p) p.daddr rp.rpBcastId
    exact ⟨h1, h2.le⟩
  · exact ⟨(relays_of_emits_rrep hy _ _).trans (relays_idMark x _ _), emits_of_idMark hget hcount hy⟩

/-- **A reply**: it is relayed only by setting the mark. -/
theorem recvReply_once (hp : p.ptype = .teaomdv) (rp : Rrep) (hlog : x.log = []) (hq : x.DataQueue)
    (hs : p.daddr ≠ x.index) :
    Ends (fun y => y.relays p.daddr rp.rpBcastId ≤ x.relays p.daddr rp.rpBcastId ∧
      y.replies p.daddr rp.rpBcastId ≤ x.replies p.daddr rp.rpBcastId) (x.recvReply env p rp) := by
  have hx := onceTerms_meets (s := p.daddr) (b := rp.rpBcastId) hlog hq
  have hT : (x.onceTerms p.daddr rp.rpBcastId).Lawful := onceTerms_lawful hs
  have hsilent : ∀ y : Exec, y.Meets (x.onceTerms p.daddr rp.rpBcastId) →
      y.relays p.daddr rp.rpBcastId = x.relays p.daddr rp.rpBcastId ∧
        y.replies p.daddr rp.rpBcastId = x.replies p.daddr rp.rpBcastId := by
    intro y hy
    rw [(credit_of_meets hy).1, (credit_of_meets hy).2, (credit_of_meets hx).1, (credit_of_meets hx).2]
    exact ⟨rfl, rfl⟩
  have hstop : ∀ y : Exec, y.Meets (x.onceTerms p.daddr rp.rpBcastId) →
      y.relays p.daddr rp.rpBcastId ≤ x.relays p.daddr rp.rpBcastId ∧
        y.replies p.daddr rp.rpBcastId ≤ x.replies p.daddr rp.rpBcastId :=
    fun y hy => ⟨(hsilent y hy).1.le, (hsilent y hy).2.le⟩
  unfold recvReply
  split
  · exact Ends.ok (hstop _ (hx.free p))
  split
  · exact Ends.ok (hstop _ (hx.free p))
  obtain ⟨t, hlow⟩ := lowerForward_eq rp (x.nbLookup p.prevHop)
  simp only [hlow]
  refine Ends.bind (rtEnsure_meets _ hx) (fun y hy => Ends.bind (forwardRouteTo_meets hy _) (fun a ha => ?_))
  obtain ⟨z, k⟩ := a
  cases k with
  | false => exact Ends.ok (hstop _ (ha.free p))
  | true =>
    refine Ends.bind (flush_meets hT _ ha) (fun w hw => ?_)
    split
    · exact Ends.ok (hstop _ (hw.free p))
    · obtain ⟨h1, h2⟩ := hsilent w hw
      rw [← h1, ← h2]
      exact Ends.mono (relayReply_once hp { rp with FPT := t }) (fun v hv => ⟨hv.1.le, hv.2⟩)

end Reply

/-- The id keeps its place in the cache: `id_purge` does not take it. -/
def keepsId (x : Exec) (env : Env) (s : NsAddr) (b : Nat) : Input → Bool
  | .timer .broadcast => (x.idGet s b).all (fun i => ¬ i.expire ≤ env.now)
  | _ => true

/-- The input is no copy of the request that is meant for this node. -/
def elsewhere (x : Exec) (s : NsAddr) (b : Nat) : Input → Bool
  | .recv p => match p.body with
    | .rreq rq => ¬ (p.requests s b ∧ rq.rqDst = x.index)
    | _ => true
  | _ => true

theorem find?_idPurge (hk : x.keepsId env s b (.timer .broadcast) = true) :
    (x.idPurge env).bihead.find? (sameId s b) = x.bihead.find? (sameId s b) := Keyed.find?_filter_of_all hk

theorem onceTerms_caches {s' : NsAddr} {b' : Nat} (hne : ¬ (s' = s ∧ b' = b)) (t : ℚ) :
    (x.onceTerms s b).Caches t s' b' ∧ (x.onceTerms s b).Marks s' b' := by
  have hother : ∀ i : BroadcastId, sameId s' b' i = true → sameId s b i = false := by
    intro i hi
    obtain ⟨rfl, rfl⟩ := of_decide_eq_true hi
    exact decide_eq_false hne
  constructor
  · intro l hl _
    exact (List.find?_cons_of_neg (by simpa [sameId] using hne)).trans hl
  · intro l hl
    have hmark := Keyed.find?_modifyFirst_ne (p := sameId s' b') (q := sameId s b) (f := fun i => { i with count := 1 })
      hother (fun i hi => hother i hi) l
    exact hmark.trans hl

/-- Of any other packet the terms ask nothing. -/
theorem admits_of_foreign (hp : p.requests s b = false ∧ p.answers s b = false) : x.Admits (x.onceTerms s b) env p := by
  have hrq : ∀ rq, p.ptype = .teaomdv → p.body = .rreq rq → ¬ (rq.rqSrc = s ∧ rq.rqBcastId = b) := by
    intro rq ht hb hm
    simp [Packet.requests, hb, ht, hm] at hp
  have hrp : ∀ rp, p.ptype = .teaomdv → p.body = .rrep rp → ¬ (p.daddr = s ∧ rp.rpBcastId = b) := by
    intro rp ht hb hm
    simp [Packet.answers, hb, ht, hm] at hp
  refine ⟨fun h _ => ptype_passed h, fun h _ => foreign_of_ptype (ptype_passed h), fun ht _ q _ hq => foreign_of_ptype (hq ▸ ht),
    fun rq ht hb => onceTerms_caches (hrq rq ht hb) _, fun rp ht hb => (onceTerms_caches (hrp rp ht hb) env.now).2,
    ?_, ?_, ?_, fun _ _ _ => ⟨fun _ _ => trivial, fun _ _ _ _ _ _ => trivial⟩, fun _ _ _ _ => trivial⟩
  · intro rq ht hb q rp hq h1 h2 _ _ _
    have := hrq rq ht hb
    rw [← h1, ← h2] at this
    constructor
    · simp [Packet.requests, hq]
    · simp [Packet.answers, hq, this]
  · intro rq ht hb _ rq' h1 h2
    have := hrq rq ht hb
    rw [← h1, ← h2] at this
    constructor
    · simp [Packet.requests, this]
    · simp [Packet.answers]
  · intro rp ht hb _ rp' n h1
    have := hrp rp ht hb
    rw [← h1] at this
    constructor
    · simp [Packet.forwarded, Packet.requests]
    · simp [Packet.forwarded, Packet.answers, this]

/-- **No invocation sends more of a request than it takes off the credit**, as long as the id is not purged. -/
theorem handle_once {inp : Input} (hs : s ≠ x.index) (hlog : x.log = []) (hq : x.DataQueue)
    (hk : x.keepsId env s b inp = true) : Ends (fun y => y.relays s b ≤ x.relays s b ∧
      (x.elsewhere s b inp = true → y.replies s b ≤ x.replies s b)) (x.handle env inp) := by
  have hx := onceTerms_meets (s := s) (b := b) hlog hq
  have hother : x.Takes (x.onceTerms s b) env inp → Ends (fun y => y.relays s b ≤ x.relays s b ∧
      (x.elsewhere s b inp = true → y.replies s b ≤ x.replies s b)) (x.handle env inp) := by
    intro hin
    refine Ends.mono (handle_meets (onceTerms_lawful hs) hin hx) (fun y hy => ?_)
    rw [(credit_of_meets hy).1, (credit_of_meets hy).2, (credit_of_meets hx).1, (credit_of_meets hx).2]
    exact ⟨Nat.le_refl _, fun _ => Nat.le_refl _⟩
  cases inp with
  | recv p =>
    by_cases hrq : p.requests s b = true
    · obtain ⟨rq, hb, ht, rfl, rfl⟩ := Packet.requests_eq_true hrq
      show Ends _ (x.recv env p)
      by_cases hport : p.sport = rtPort ∧ p.dport = rtPort
      · rw [recv_rreq ht hport hb]
        refine Ends.mono (recvRequest_once (p := { p with ttl := p.ttl - 1 }) ht rq hlog hq)
          (fun y hy => ⟨hy.1, fun he => hy.2 (fun hd => ?_)⟩)
        simp [elsewhere, hb, hrq, hd] at he
      · rw [recv_of_port ht hport]
        exact Ends.error _
    by_cases hrp : p.answers s b = true
    · obtain ⟨rp, hb, ht, rfl, rfl⟩ := Packet.answers_eq_true hrp
      show Ends _ (x.recv env p)
      by_cases hport : p.sport = rtPort ∧ p.dport = rtPort
      · rw [recv_rrep ht hport hb]
        exact Ends.mono (recvReply_once (p := { p with ttl := p.ttl - 1 }) ht rp hlog hq hs)
          (fun y hy => ⟨hy.1, fun _ => hy.2⟩)
      · rw [recv_of_port ht hport]
        exact Ends.error _
    · exact hother (admits_of_foreign ⟨by simpa using hrq, by simpa using hrp⟩)
  | tap | rtLlFailed => exact hother trivial
  | timer t =>
    cases t with
    | broadcast => exact hother (find?_idPurge hk)
    | trust => exact hother (fun _ _ => trivial)
    | neighbor ifq =>
      refine hother (fun id p _ hdata _ n => foreign_of_ptype ?_)
      rintro (ht : p.ptype = .teaomdv)
      rw [ht] at hdata
      cases hdata
    | hello | probe | routeCache | localRepair => exact hother trivial

/-! ## The node's own requests -/

/-- A request of the node itself is freed, whatever else it says. -/
theorem recv_own {rq : Rreq} (ht : p.ptype = .teaomdv) (hb : p.body = .rreq rq) (hsrc : rq.rqSrc = x.index) :
    Ends (fun y => y.bihead = x.bihead ∧ y.sent = x.sent) (x.recv env p) := by
  by_cases hport : p.sport = rtPort ∧ p.dport = rtPort
  · rw [recv_rreq ht hport hb]
    unfold recvRequest
    rw [if_pos hsrc]
    exact Ends.ok ⟨rfl, sent_free x _⟩
  · rw [recv_of_port ht hport]
    exact Ends.error _

/-- No id of the node's own is cached. -/
def foreignTerms (x : Exec) : Terms := { index := x.index, heap := 0, ids := fun l => ∀ i ∈ l, i.src ≠ x.index }

theorem handle_foreign {inp : Input} (hx : ∀ i ∈ x.bihead, i.src ≠ x.index) :
    Ends (fun y => ∀ i ∈ y.bihead, i.src ≠ x.index) (x.handle env inp) := by
  have hT : x.foreignTerms.Lawful := ⟨fun _ _ _ _ => trivial, fun _ _ _ _ _ _ => trivial,
    fun _ _ _ _ _ _ => trivial, fun _ _ _ => trivial, fun _ _ _ _ => trivial⟩
  have hmarks : ∀ s b, x.foreignTerms.Marks s b := by
    intro s b l hl i hi
    rcases Keyed.mem_modifyFirst hi with hi | ⟨j, hj, rfl⟩
    · exact hl i hi
    · exact hl j (List.mem_of_find?_eq_some hj)
  have hother : x.Takes x.foreignTerms env inp → Ends (fun y => ∀ i ∈ y.bihead, i.src ≠ x.index) (x.handle env inp) :=
    fun hin => Ends.mono (handle_meets hT hin ⟨rfl, Nat.zero_le _, hx, fun _ _ => trivial, fun _ _ _ => trivial,
      fun _ _ => trivial⟩) (fun y hy => hy.ids)
  cases inp with
  | recv p =>
    by_cases hown : ∃ rq, p.ptype = .teaomdv ∧ p.body = .rreq rq ∧ rq.rqSrc = x.index
    · obtain ⟨rq, ht, hb, hsrc⟩ := hown
      refine Ends.mono (recv_own ht hb hsrc) (fun y hy => ?_)
      rw [hy.1]
      exact hx
    · refine hother ⟨fun _ _ => trivial, fun _ _ => trivial, fun _ _ _ _ _ => trivial, fun rq ht hb => ⟨?_, hmarks _ _⟩,
        fun _ _ _ => hmarks _ _, fun _ _ _ _ _ _ _ _ _ _ _ => trivial, fun _ _ _ _ _ _ _ => trivial,
        fun _ _ _ _ _ _ _ => trivial, fun _ _ _ => ⟨fun _ _ => trivial, fun _ _ _ _ _ _ => trivial⟩,
        fun _ _ _ _ => trivial⟩
      intro l hl _ i hi
      rcases List.mem_cons.1 hi with rfl | hi
      · exact fun h => hown ⟨rq, ht, hb, h⟩
      · exact hl i hi
  | tap | rtLlFailed => exact hother trivial
  | timer t =>
    cases t with
    | broadcast => exact hother (fun i hi => hx i (List.mem_of_mem_filter hi))
    | trust => exact hother (fun _ _ => trivial)
    | neighbor ifq => exact hother (fun _ _ _ _ _ _ => trivial)
    | hello | probe | routeCache | localRepair => exact hother trivial

end Exec

namespace Agent

variable {id : NsAddr} {a a' : Agent} {c : Call}

/-- The run with all it has sent. -/
def callSent : Agent × List Packet → Call → Option (Agent × List Packet) :=
  Runs.watch call (fun a c _ out => out ++ a.outbox c)

def keepsId (s : NsAddr) (b : Nat) (a : Agent) (c : Call) : Bool := (a.exec c.heap).keepsId c.env s b c.inp

def elsewhere (s : NsAddr) (b : Nat) (a : Agent) (c : Call) : Bool := (a.exec c.heap).elsewhere s b c.inp

/-- The node is who it was made as, and has none of its own ids in its cache. -/
theorem foreign_of_reach (h : Reach id a) : a.index = id ∧ ∀ i ∈ a.bihead, i.src ≠ id := by
  refine ⟨index_of_reach h, ?_⟩
  refine Runs.Reaches.invariant (P := fun a => ∀ i ∈ a.bihead, i.src ≠ id) (fun _ hi => absurd hi List.not_mem_nil) ?_ h
  intro a c a' hr ha _ hs
  obtain rfl := index_of_reach hr
  obtain ⟨x, hx, rfl⟩ := call_eq_some hs
  exact Exec.handle_foreign (x := a.exec c.heap) ha x hx

theorem call_once {s : NsAddr} {b : Nat} (h : Reach id a) (hs : s ≠ id) (hk : keepsId s b a c = true)
    (hc : a.call c = some a') :
    (a.outbox c).countP (Packet.requests s b) + relayCredit s b a'.bihead ≤ relayCredit s b a.bihead ∧
      (elsewhere s b a c = true →
        (a.outbox c).countP (Packet.answers s b) + replyCredit s b a'.bihead ≤ replyCredit s b a.bihead) := by
  obtain ⟨x, hx, rfl⟩ := call_eq_some hc
  have hne : s ≠ (a.exec c.heap).index := fun he => hs (he.trans (foreign_of_reach h).1)
  have hstart : (a.exec c.heap).relays s b = relayCredit s b a.bihead ∧
      (a.exec c.heap).replies s b = replyCredit s b a.bihead := by
    constructor
    · simp [Exec.relays, Exec.sent, exec]
    · simp [Exec.replies, Exec.sent, exec]
  have honce := Exec.handle_once hne rfl (tidy_of_reach h).data hk x hx
  rw [hstart.1, hstart.2] at honce
  rw [outbox_of_ok hx]
  exact honce

/-- A node's own request, received back, is neither passed on nor answered. -/
theorem outbox_own {p : Packet} {rq : Rreq} (h : Reach id a) (hin : c.inp = .recv p) (ht : p.ptype = .teaomdv)
    (hb : p.body = .rreq rq) (hsrc : rq.rqSrc = id) : a.outbox c = [] := by
  unfold outbox
  rw [hin]
  split
  · rename_i x hx
    have hown : rq.rqSrc = (a.exec c.heap).index := hsrc.trans (foreign_of_reach h).1.symm
    exact (Exec.recv_own ht hb hown x hx).2
  · rfl

theorem relayCredit_le_one (s : NsAddr) (b : Nat) (l : List BroadcastId) : relayCredit s b l ≤ 1 := by
  unfold relayCredit
  split <;> omega

theorem replyCredit_le_one (s : NsAddr) (b : Nat) (l : List BroadcastId) : replyCredit s b l ≤ 1 := by
  unfold replyCredit
  split <;> omega

/-- **Duplicate suppression**: while the id stays in the cache a request is passed on at most once, and a node it is not
for answers it at most once; one's own requests are neither cached, passed on nor answered. -/
theorem once_of_reach {a₀ : Agent} (h : Reach id a₀) :
    (∀ s b a out, s ≠ id → Runs.Reaches callSent (fun t c => keepsId s b t.1 c = true) (a₀, []) (a, out) →
      out.countP (Packet.requests s b) ≤ 1) ∧
    (∀ s b a out, s ≠ id →
      Runs.Reaches callSent (fun t c => keepsId s b t.1 c = true ∧ elsewhere s b t.1 c = true) (a₀, []) (a, out) →
      out.countP (Packet.answers s b) ≤ 1) ∧
    (∀ i ∈ a₀.bihead, i.src ≠ id) ∧
    ∀ c p rq, c.inp = .recv p → p.ptype = .teaomdv → p.body = .rreq rq → rq.rqSrc = id → a₀.outbox c = [] := by
  refine ⟨?_, ?_, (foreign_of_reach h).2, ?_⟩
  · intro s b a out hs hrun
    have hle := Runs.Reaches.spend (fun a c => keepsId s b a c = true) (fun a => relayCredit s b a.bihead)
      (fun a₁ c a₂ hr hk hc => (call_once (h.trans (hr.mono (fun _ _ _ => trivial))) hs hk hc).1) hrun
    have := relayCredit_le_one s b a₀.bihead
    omega
  · intro s b a out hs hrun
    have hle := Runs.Reaches.spend (fun a c => keepsId s b a c = true ∧ elsewhere s b a c = true)
      (fun a => replyCredit s b a.bihead)
      (fun a₁ c a₂ hr hk hc => (call_once (h.trans (hr.mono (fun _ _ _ => trivial))) hs hk.1 hc).2 hk.2) hrun
    have := replyCredit_le_one s b a₀.bihead
    omega
  · exact fun c p rq hin ht hb hsrc => outbox_own h hin ht hb hsrc

/-- A request and its reply come twice, by two ways each, and `id_purge` runs while the id is young. -/
def onceCalls : List Call :=
  let request (saddr firstHop : NsAddr) : Packet :=
    { ptr := 0, saddr := saddr, daddr := ipBroadcast, sport := rtPort, dport := rtPort, ttl := 20, prevHop := saddr
      body := .rreq ⟨1, 7, 9, 0, 1, 4, 0, firstHop, trustThreshold, 1, 1⟩ }
  let reply (rpSrc firstHop : NsAddr) : Packet :=
    { ptr := 0, saddr := rpSrc, daddr := 1, sport := rtPort, dport := rtPort, ttl := 20, prevHop := rpSrc
      body := .rrep ⟨0, 9, 6, rpSrc, 10, 0, 7, firstHop, trustThreshold, 1, 1⟩ }
  [⟨{ inf := 65535, now := 1 }, 1, .recv (request 2 2)⟩, ⟨{ inf := 65535, now := 2 }, 3, .recv (request 3 3)⟩,
    ⟨{ inf := 65535, now := 3 }, 5, .recv (reply 8 8)⟩, ⟨{ inf := 65535, now := 4 }, 7, .recv (reply 4 4)⟩,
    ⟨{ inf := 65535, now := 5 }, 9, .timer .broadcast⟩]

theorem once_onceCalls : ∃ a out, Runs.replay callSent onceCalls (new 5, []) = some (a, out) ∧ out.length = 2 ∧
    out.countP (Packet.requests 1 7) ≤ 1 ∧ out.countP (Packet.answers 1 7) ≤ 1 := by
  obtain ⟨⟨a, out⟩, ha, hr, hlen⟩ := Runs.Reaches.of_obeys
    (fun t c => keepsId 1 7 t.1 c && elsewhere 1 7 t.1 c) (fun t : Agent × List Packet => t.2.length == 2)
    (fun t c h => Bool.and_eq_true_iff.1 h) onceCalls
    (.init : Runs.Reaches callSent (fun t c => keepsId 1 7 t.1 c = true ∧ elsewhere 1 7 t.1 c = true) (new 5, []) _)
    (by decide +kernel)
  have honce := once_of_reach (.init : Reach 5 (new 5))
  exact ⟨a, out, ha, eq_of_beq hlen, honce.1 1 7 a out (by decide) (hr.mono (fun _ _ h => h.1)),
    honce.2.1 1 7 a out (by decide) hr⟩

end Agent

end TeAomdv

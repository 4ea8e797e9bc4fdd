import TeAomdv.Absent
/-!
# Ownership — who disposes of the packets a handler takes into hand

What an invocation is given, allocates and takes out of a queue is disposed of once, but for two leaks: a packet taken
out of the buffer for an entry that has just gone down, and the packet `set_trust` allocates after a full one and does
not fill.  `abandoned` lists what is left in hand, `leaks` tells when there is any.
-/
namespace TeAomdv

open Fallible (Ends)

/-- The packets an invocation hands to the agent. -/
def Input.owned : Input → Multiset Nat
  | .recv p | .rtLlFailed p | .timer (.localRepair p) => {p.ptr}
  | .tap _ | .timer _ => 0

/-- A packet is disposed of as often as it was handed over, allocated or taken out of a queue. -/
def Accounted (inp : Input) (log : List Act) : Prop :=
  inp.owned + Ledger.total Act.takes log = Ledger.total Act.gives log

instance (inp : Input) (log : List Act) : Decidable (Accounted inp log) := inferInstanceAs (Decidable (_ = _))

namespace Exec

variable {env : Env} {x y : Exec} {d : NsAddr} {e : RtEntry} {p : Packet}

/-- The packets that a walk over what is buffered for `d` takes out once the paths are gone. -/
def strays (env : Env) (x : Exec) (d : NsAddr) (paths : Option (List Path)) : Multiset Nat :=
  paths.elim 0 (fun ps => ptrs (x.worn env d ps).2)

/-- Before the last packet buffered for `d` the paths are gone. -/
def outlasts (env : Env) (x : Exec) (d : NsAddr) (paths : Option (List Path)) : Bool :=
  paths.any (fun ps => x.WearsOut ps (x.buffered env d).dropLast)

/-- What an invocation leaves in hand. -/
def abandoned (env : Env) (x : Exec) : Input → Multiset Nat
  | .recv p =>
    if p.ptype = .teaomdv ∧ p.sport = rtPort ∧ p.dport = rtPort then
      match p.body with
      | .rreq rq => x.strays env rq.rqSrc (x.requestPaths env p rq)
      | .rrep rp => x.strays env rp.rpDst (x.replyPaths env p rp)
      | _ => 0
    else 0
  | .timer .trust => if x.nbhead.length % maxNb = 0 then {x.heap + x.nbhead.length / maxNb} else 0
  | _ => 0

/-- A request or a reply is recorded in an entry that loses its paths before its buffered packets are sent off, or a
trust round ends with an empty packet. -/
def leaks (env : Env) (x : Exec) : Input → Bool
  | .recv p =>
    decide (p.ptype = .teaomdv ∧ p.sport = rtPort ∧ p.dport = rtPort) && match p.body with
      | .rreq rq => x.outlasts env rq.rqSrc (x.requestPaths env p rq)
      | .rrep rp => x.outlasts env rp.rpDst (x.replyPaths env p rp)
      | _ => false
  | .timer .trust => x.nbhead.length % maxNb = 0
  | _ => false

/-! ## Answers to a request -/

theorem replyAsDestination_settles (x : Exec) (p : Packet) (rq : Rreq) :
    x.Settles {p.ptr} 0 (x.replyAsDestination env p rq) := by
  unfold replyAsDestination
  simp only
  have hnb : x.Settles 0 0 ({ x with seqno := replySeqno x.seqno rq.rqDstSeqno }.nbEnsure env p.saddr) :=
    (Settles.of_log 0 rfl).trans (nbEnsure_settles env { x with seqno := replySeqno x.seqno rq.rqDstSeqno } p.saddr)
  exact (hnb.trans (sendReply_settles ..)).before (free_settles _ p)

theorem replyFromTable_settles (x : Exec) (p : Packet) (rq : Rreq) (rt : RtEntry) (b : Bool) :
    x.Closes {p.ptr} (x.replyFromTable env p rq rt b) := by
  unfold replyFromTable
  split
  · exact .error _
  split
  · split
    · exact .error _
    · refine .ok (Settles.before ?_ (free_settles _ p))
      exact (Settles.of_log 0 rfl).trans (sendReply_settles ..)
  · exact .ok (free_settles x p)

theorem relayRequest_settles (x : Exec) (p : Packet) (rq : Rreq) (rt : Option RtEntry) (kill : Bool) :
    x.Closes {p.ptr} (x.relayRequest env p rq rt kill) := by
  unfold relayRequest
  split
  · exact .ok (free_settles x p)
  split
  · exact .error _
  · simp only
    split
    · exact .error _
    · exact .after (.of_log _ rfl) (forward_settles _ none _ _)

theorem answerRequest_settles (x : Exec) (p : Packet) (rq : Rreq) (kill b : Bool) :
    x.Closes {p.ptr} (x.answerRequest env p rq kill b) := by
  unfold answerRequest
  split
  · exact .ok (replyAsDestination_settles x p rq)
  split
  · exact relayRequest_settles x p rq none kill
  · split
    · exact replyFromTable_settles x p rq _ b
    · exact relayRequest_settles x p rq _ kill

theorem relayReply_settles (x : Exec) (p : Packet) (rp : Rrep) : x.Closes {p.ptr} (x.relayReply env p rp) := by
  unfold relayReply
  split
  · split
    · exact .ok (free_settles x p)
    split
    · exact .error _
    · simp only
      split
      · exact .error _
      · split
        · exact .error _
        · exact .after (.of_log _ rfl) (forward_settles _ (some p.daddr) _ _)
  · exact .ok (free_settles x p)

/-! ## A request, a reply -/

/-- What is left in hand is what sending off left. -/
theorem Flushed.leaves {r : RtEntry} {m : Result} (hf : Flushed env d r x y e) (hm : y.Closes {p.ptr} m) :
    Ends (fun z => x.Settles {p.ptr} (x.strays env d (some r.rtPathList)) z) m := by
  refine hm.mono (fun z hz => ?_)
  have h1 := Ledger.Settles.frame hf.settles {p.ptr}
  have h2 := Ledger.Settles.frame hz (ptrs (x.worn env d r.rtPathList).2)
  rw [zero_add, add_comm] at h1
  rw [zero_add] at h2
  exact h1.trans h2

/-- A packet that is not taken in is freed, or an assertion stops the handler. -/
theorem freed_settles {m : Result} (h : (∃ y : Exec, m = .ok (y.free p) ∧ y.log = x.log) ∨ ∃ s, m = .error (.assertion s)) :
    Ends (fun z => x.Settles {p.ptr} (x.strays env d none) z) m := by
  rcases h with ⟨y, rfl, hlog⟩ | ⟨s, rfl⟩
  · exact .ok ((Settles.of_log _ hlog).trans (free_settles y p))
  · exact .error _

theorem recvRequest_settles (env : Env) (p : Packet) (rq : Rreq) (hx : x.toAgent.Tidy) :
    Ends (fun z => x.Settles {p.ptr} (x.strays env rq.rqSrc (x.requestPaths env p rq)) z) (x.recvRequest env p rq) := by
  have hspec := recvRequest_spec env p rq hx
  cases hps : x.requestPaths env p rq with
  | none =>
    rw [hps] at hspec
    exact freed_settles hspec
  | some ps =>
    rw [hps] at hspec
    obtain ⟨ids, y, e, hy, -, -, hf⟩ := hspec
    rw [hy]
    exact hf.leaves (answerRequest_settles y p _ _ _)

theorem recvReply_settles (env : Env) (p : Packet) (rp : Rrep) (hx : x.toAgent.Tidy) :
    Ends (fun z => x.Settles {p.ptr} (x.strays env rp.rpDst (x.replyPaths env p rp)) z) (x.recvReply env p rp) := by
  have hspec := recvReply_spec env p rp hx
  cases hps : x.replyPaths env p rp with
  | none =>
    rw [hps] at hspec
    exact freed_settles hspec
  | some ps =>
    rw [hps] at hspec
    obtain ⟨y, e, hy, -, hf⟩ := hspec
    rw [hy]
    refine hf.leaves ?_
    split
    · exact .ok (free_settles y p)
    · exact relayReply_settles y p _

/-! ## The other packets of the protocol -/

theorem errorSlot_log (saddr : NsAddr) (acc : Exec × List (NsAddr × Nat)) (slot : NsAddr × Nat) :
    Ends (fun a => a.1.log = acc.1.log) (errorSlot env saddr acc slot) := by
  unfold errorSlot
  simp only
  split
  · exact .ok rfl
  split
  · split
    · exact .error _
    · refine Ends.bind downIfEmpty_log (fun a ha => ?_)
      split
      · exact .ok ha
      · exact .ok ha
  · exact .ok rfl

theorem recvError_settles (x : Exec) (p : Packet) (re : Rerr) : x.Closes {p.ptr} (x.recvError env p re) := by
  unfold recvError
  simp only
  split
  · exact .error _
  · have hslots : Ends (fun a : Exec × List (NsAddr × Nat) => a.1.log = x.alloc.log)
        (re.unreachable.foldlM (errorSlot env p.saddr) (x.alloc, [])) :=
      Ends.foldlM (fun a s _ ha => (errorSlot_log p.saddr a s).mono (fun _ h => h.trans ha)) rfl
    refine hslots.bind (fun a ha => .ok ?_)
    have halloc : x.Settles 0 {x.blank.ptr} a.1 := (alloc_settles x).trans (.of_log _ ha)
    have hsend : x.Settles 0 0 (if a.2.length > 0 then a.1.sendError x.blank ⟨a.2⟩ true else a.1.free x.blank) := by
      split
      · exact halloc.trans (sendError_settles a.1 x.blank _ _)
      · exact halloc.trans (free_settles a.1 x.blank)
    exact hsend.before (free_settles _ p)

theorem recvPta_settles (x : Exec) (p : Packet) (re : Pta) : x.Closes {p.ptr} (x.recvPta env p re) := by
  unfold recvPta
  split
  · exact .ok (free_settles x p)
  split
  · split
    · exact .error _
    · refine Ends.bind downIfEmpty_log (fun a ha => .ok (Settles.before ?_ (free_settles _ p)))
      refine Settles.trans (Settles.of_log 0 ?_) (.foldl (reportDistrust_settles _ _ _) _ _)
      exact ha
  · exact .ok (free_settles x p)

theorem recvHello_settles (x : Exec) (p : Packet) (rp : Rrep) : x.Settles {p.ptr} 0 (x.recvHello env p rp) := by
  unfold recvHello
  split
  · refine Settles.before (.of_log 0 ?_) (free_settles _ p)
    unfold nbInsert
    simp only
    split <;> rfl
  · exact Settles.before (.of_log 0 rfl) (free_settles _ p)

theorem recommend_settles (w : ℚ) (x : Exec) (r : NsAddr × ℚ) : x.Settles 0 0 (recommend w x r) := .of_log 0 rfl

theorem recvRcom_settles (x : Exec) (p : Packet) (rc : Recommen) : x.Closes {p.ptr} (x.recvRcom env p rc) := by
  unfold recvRcom
  split
  · exact .ok (free_settles x p)
  split
  · split
    · exact .error _
    · refine .ok (Settles.before ?_ (free_settles _ p))
      exact Settles.trans (Settles.of_log 0 rfl) (.foldl (recommend_settles _) _ _)
  · exact .ok (free_settles x p)

/-! ## Data -/

theorem reportNoRoute_settles (x : Exec) (p : Packet) (rt : RtEntry) : x.Settles {p.ptr} 0 (x.reportNoRoute p rt) :=
  Settles.before ((alloc_settles x).trans (sendError_settles x.alloc x.blank _ _)) (drop_settles _ p _)

theorem rtResolve_settles (x : Exec) (p : Packet) : x.Closes {p.ptr} (x.rtResolve env p) := by
  unfold rtResolve
  refine (rtEnsure_settles x p.daddr).bind (fun y => ?_)
  split
  · exact .error _
  split
  · split
    · exact .error _
    · exact forward_settles y _ p _
  split
  · exact .after (enque_settles y p) (sendRequest_settles _ _)
  split
  · exact .ok (enque_settles y p)
  · exact .ok (reportNoRoute_settles y p _)

theorem recv_data_settles (x : Exec) {p : Packet} (htype : p.ptype ≠ .teaomdv) : x.Closes {p.ptr} (x.recv env p) := by
  unfold recv
  rw [if_neg htype]
  split
  · simp only
    split
    · exact (rtResolve_settles x _).of_ptr rfl
    · exact (forward_settles x none _ _).of_ptr rfl
  split
  · exact .ok (drop_settles x p _)
  · simp only
    split
    · exact .ok (drop_settles x _ _)
    split
    · exact (rtResolve_settles x _).of_ptr rfl
    · exact (forward_settles x none _ _).of_ptr rfl

theorem recvTEAOMDV_settles (env : Env) {p : Packet} (htype : p.ptype = .teaomdv) (hx : x.toAgent.Tidy) :
    Ends (fun z => x.Settles {p.ptr} (x.abandoned env (.recv p)) z) (x.recvTEAOMDV env p) := by
  unfold recvTEAOMDV abandoned
  by_cases hport : p.sport = rtPort ∧ p.dport = rtPort
  swap
  · rw [if_pos (not_and_or.1 hport)]
    exact .error _
  have hport' : ¬ (p.sport ≠ rtPort ∨ p.dport ≠ rtPort) := by simp [hport]
  simp only
  rw [if_neg hport', if_pos ⟨htype, hport⟩]
  cases p.body with
  | rreq rq => exact recvRequest_settles env p rq hx
  | rrep rp => exact recvReply_settles env p rp hx
  | rerr re => exact recvError_settles x p re
  | hello rp => exact .ok (recvHello_settles x p rp)
  | rcom rc => exact recvRcom_settles x p rc
  | prob => exact .ok (Settles.before (.of_log 0 rfl) (free_settles _ p))
  | pta re => exact recvPta_settles x p re
  | payload => exact .error _

/-- **What `recv` leaves in hand.** -/
theorem recv_settles (env : Env) (p : Packet) (hx : x.toAgent.Tidy) :
    Ends (fun z => x.Settles {p.ptr} (x.abandoned env (.recv p)) z) (x.recv env p) := by
  by_cases htype : p.ptype = .teaomdv
  · unfold recv
    rw [if_pos htype]
    exact recvTEAOMDV_settles env (p := { p with ttl := p.ttl - 1 }) htype hx
  · have hnone : x.abandoned env (.recv p) = 0 := if_neg (fun h => htype h.1)
    rw [hnone]
    exact recv_data_settles x htype

/-! ## Link failure -/

theorem failEntry_log (id : NsAddr) (acc : Exec × List (NsAddr × Nat)) (d : NsAddr) :
    Ends (fun a => a.1.log = acc.1.log) (failEntry env id acc d) := by
  intro acc' hok
  rcases failEntry_cases hok with ⟨rfl, -⟩ | ⟨rt, -, -, -, ⟨-, rfl⟩ | ⟨-, rfl | rfl⟩⟩
  · rfl
  · rfl
  · rfl
  · rfl

theorem handleLinkFailure_settles (x : Exec) (id : NsAddr) : x.Closes 0 (x.handleLinkFailure env id) := by
  unfold handleLinkFailure
  simp only
  have hwalk : Ends (fun a : Exec × List (NsAddr × Nat) => a.1.log = x.alloc.log)
      ((x.rtable.map (·.rtDst)).foldlM (failEntry env id) (x.alloc, [])) :=
    Ends.foldlM (fun a d _ ha => (failEntry_log id a d).mono (fun _ h => h.trans ha)) rfl
  refine hwalk.bind (fun a ha => .ok ?_)
  have halloc : x.Settles 0 {x.blank.ptr} a.1 := (alloc_settles x).trans (.of_log _ ha)
  split
  · exact halloc.trans (sendError_settles a.1 x.blank _ _)
  · exact halloc.trans (free_settles a.1 x.blank)

theorem salvage_settles (x : Exec) (p : Packet) : x.Closes 0 (x.salvage env p) := by
  have hfilter := filter_settles x p
  unfold salvage
  simp only
  split
  · exact .ok (hfilter.trans (drop_settles _ p _))
  split
  · exact .after hfilter (forward_settles _ _ { p with salvageCount := p.salvageCount + 1 } _)
  · exact .ok (hfilter.trans (drop_settles _ p _))

theorem nbDelete_settles (ifq : NsAddr → List Packet) (x : Exec) (id : NsAddr) : x.Closes 0 (x.nbDelete env ifq id) := by
  unfold nbDelete
  simp only
  split
  · exact .error _
  · refine .after (.of_log 0 rfl) (Closes.bind (handleLinkFailure_settles _ id) (fun y => ?_))
    exact .foldlM salvage_settles _ y

theorem nbPurge_settles (ifq : NsAddr → List Packet) (x : Exec) : x.Closes 0 (x.nbPurge env ifq) := by
  refine .foldlM (fun y nb => ?_) _ x
  split
  · exact nbDelete_settles ifq y nb.nbAddr
  · exact .ok (.refl y 0)

/-! ## The route cache -/

theorem sendBuffered_settles (d : NsAddr) : ∀ (n : Nat) (acc : Exec × ℚ),
    Ends (fun a => acc.1.Settles 0 0 a.1) (sendBuffered env d n acc)
  | 0, acc => .ok (.refl acc.1 0)
  | n + 1, (x, delay) => by
    unfold sendBuffered
    cases hy : x.deque env d with
    | mk o y =>
      have hs := settles_of_deque hy
      cases o with
      | none => exact .ok hs
      | some q =>
        refine Ends.bind (forward_settles y (some d) q delay) (fun z hz => ?_)
        exact (sendBuffered_settles d n (z, delay + arpDelay)).mono (fun _ h => (hs.trans hz).trans h)

theorem purgeEntry_settles (acc : Exec × ℚ) (d : NsAddr) :
    Ends (fun a => acc.1.Settles 0 0 a.1) (purgeEntry env acc d) := by
  unfold purgeEntry
  simp only
  split
  · exact .ok (.refl acc.1 0)
  split
  · refine Ends.bind (P := fun _ => True) (fun _ _ => trivial) (fun empty _ => ?_)
    split
    · have hdrop (x : Exec) : x.Closes 0 (x.drain env d (fun y q => .ok (y.drop q .rtrRtexpire))) :=
        drain_settles (fun y q => .ok (drop_settles y q _)) x
      exact Ends.bind (hdrop _) (fun y hy => .ok (Settles.trans (Settles.of_log 0 rfl) (hy.trans (.of_log 0 rfl))))
    · exact .ok (.of_log 0 rfl)
  split
  · split
    · exact .error _
    · exact sendBuffered_settles d _ acc
  split
  · exact Ends.bind (sendRequest_settles acc.1 d) (fun y hy => .ok hy)
  · exact .ok (.refl acc.1 0)

theorem rtPurge_settles (x : Exec) : x.Closes 0 (x.rtPurge env) := by
  have hwalk : Ends (fun a : Exec × ℚ => x.Settles 0 0 a.1) ((x.rtable.map (·.rtDst)).foldlM (purgeEntry env) (x, 0)) :=
    Ends.foldlM (fun a d _ ha => (purgeEntry_settles a d).mono (fun _ h => ha.trans h)) (.refl x 0)
  exact hwalk.bind (fun a ha => .ok ha)

/-! ## Trust rounds -/

/-- The walk of `set_trust` after `k` neighbours. -/
structure Filling (x₀ : Exec) (k : Nat) (b : Batch) : Prop where
  settles : x₀.Settles 0 {b.p.ptr} b.x
  slots : b.nbs.length = k % maxNb
  ptr : b.p.ptr = x₀.heap + k / maxNb
  heap : b.x.heap = b.p.ptr + 1
  known : b.x.nbhead.map (·.nbAddr) = x₀.nbhead.map (·.nbAddr)

theorem Filling.start (x : Exec) : Filling x 0 ⟨x.alloc, x.blank, [], 0⟩ where
  settles := alloc_settles x
  slots := rfl
  ptr := rfl
  heap := rfl
  known := rfl

theorem Filling.step {x₀ : Exec} {k : Nat} {b : Batch} {id : NsAddr} (h : Filling x₀ k b)
    (hid : id ∈ x₀.nbhead.map (·.nbAddr)) : Filling x₀ (k + 1) (trustEntry env b id) := by
  unfold trustEntry
  simp only
  have hs : x₀.Settles 0 {b.p.ptr} (b.x.nbModify id (fun nb => (nb.setTV env.now).tvInit env.now)) :=
    h.settles.trans (.of_log _ rfl)
  have hknown : (b.x.nbModify id (fun nb => (nb.setTV env.now).tvInit env.now)).nbhead.map (·.nbAddr) =
      x₀.nbhead.map (·.nbAddr) :=
    (Keyed.map_modifyFirst (fun nb => nb.nbAddr) (fun nb _ => nbAddr_setTV nb env.now) b.x.nbhead).trans h.known
  have hheap : (b.x.nbModify id (fun nb => (nb.setTV env.now).tvInit env.now)).heap = b.p.ptr + 1 := h.heap
  generalize b.x.nbModify id (fun nb => (nb.setTV env.now).tvInit env.now) = x at hs hknown hheap
  have hlen := h.slots
  have hptr := h.ptr
  simp only [maxNb] at hlen hptr ⊢
  cases hnb : x.nbLookup id with
  | none =>
    rw [← hknown] at hid
    obtain ⟨nb, hmem, rfl⟩ := List.mem_map.1 hid
    exact absurd (List.find?_eq_none.1 hnb nb hmem) (by simp)
  | some nb =>
    simp only [List.length_append, List.length_singleton]
    by_cases hfull : b.nbs.length + 1 = 50
    · rw [if_pos hfull]
      refine ⟨hs.trans ((sendRcom_settles x b.p _).trans (alloc_settles _)), ?_, ?_, rfl, hknown⟩
      · show 0 = (k + 1) % 50
        omega
      · show x.heap = x₀.heap + (k + 1) / 50
        omega
    · rw [if_neg hfull]
      refine ⟨hs, ?_, ?_, hheap, hknown⟩
      · show (b.nbs ++ _).length = (k + 1) % 50
        rw [List.length_append, List.length_singleton]
        omega
      · show b.p.ptr = x₀.heap + (k + 1) / 50
        omega

theorem Filling.walk {x₀ : Exec} : ∀ (ids : List NsAddr) {k : Nat} {b : Batch}, Filling x₀ k b →
    (∀ id ∈ ids, id ∈ x₀.nbhead.map (·.nbAddr)) → Filling x₀ (k + ids.length) (ids.foldl (trustEntry env) b)
  | [], _, _, h, _ => h
  | id :: ids, k, b, h, hids => by
    rw [List.foldl_cons, List.length_cons, Nat.add_comm ids.length 1, ← Nat.add_assoc]
    exact walk ids (h.step (hids id List.mem_cons_self)) (fun id' h' => hids id' (List.mem_cons_of_mem _ h'))

/-- **A trust round leaves the packet it has not begun to fill.** -/
theorem setTrust_settles (env : Env) (x : Exec) : x.Settles 0 (x.abandoned env (.timer .trust)) (x.setTrust env) := by
  have h : Filling x (0 + (x.nbhead.map (·.nbAddr)).length)
      ((x.nbhead.map (·.nbAddr)).foldl (trustEntry env) ⟨x.alloc, x.blank, [], 0⟩) :=
    (Filling.start x).walk (x.nbhead.map (·.nbAddr)) (fun _ h => h)
  rw [List.length_map, Nat.zero_add] at h
  unfold setTrust abandoned
  simp only
  generalize (x.nbhead.map (·.nbAddr)).foldl (trustEntry env) ⟨x.alloc, x.blank, [], 0⟩ = b at h
  have hs := h.settles
  by_cases hz : x.nbhead.length % maxNb = 0
  · rw [if_pos hz, if_neg (by rw [h.slots]; exact not_not.2 hz), ← h.ptr]
    exact hs
  · rw [if_neg hz, if_pos (by rw [h.slots]; exact hz)]
    exact hs.trans (sendRcom_settles b.x b.p _)

/-! ## Any invocation -/

/-- **What an invocation leaves in hand.** -/
theorem handle_settles (env : Env) (inp : Input) (hx : x.toAgent.Tidy) :
    Ends (fun y => x.Settles inp.owned (x.abandoned env inp) y) (x.handle env inp) := by
  cases inp with
  | recv p => exact recv_settles env p hx
  | tap p =>
    refine .ok (.of_log 0 ?_)
    unfold tap
    repeat' split
    all_goals rfl
  | rtLlFailed p => exact .ok (drop_settles x p _)
  | timer t =>
    cases t with
    | broadcast => exact .ok (.of_log 0 rfl)
    | hello =>
      refine .ok ?_
      split
      · exact sendHello_settles x
      · exact .refl x 0
    | probe => exact .ok (sendProb_settles x)
    | trust => exact .ok (setTrust_settles env x)
    | neighbor ifq => exact nbPurge_settles ifq x
    | routeCache => exact rtPurge_settles x
    | localRepair p =>
      refine .ok ?_
      unfold localRepair
      split
      · exact free_settles x p
      · refine Settles.before (.of_log 0 ?_) (free_settles _ p)
        split <;> rfl

/-- Something is left just when the paths are gone before the last buffered packet. -/
theorem strays_eq_zero {paths : Option (List Path)} (hp : ∀ ps, paths = some ps → ps ≠ []) :
    x.strays env d paths = 0 ↔ ¬ x.outlasts env d paths = true := by
  cases paths with
  | none => simp [strays, outlasts]
  | some ps =>
    have hworn := worn_snd_ne_nil env x d (hp ps rfl)
    simp only [strays, outlasts, Option.elim, Option.any_some, decide_eq_true_eq, ← hworn, not_not]
    unfold ptrs
    rw [Multiset.coe_eq_zero, List.map_eq_nil_iff]

theorem requestPaths_ne_nil (hx : x.toAgent.Tidy) {rq : Rreq} {ps : List Path} (h : x.requestPaths env p rq = some ps) :
    ps ≠ [] := by
  have hspec := recvRequest_spec env p rq hx
  rw [h] at hspec
  obtain ⟨_, _, _, _, _, _, hf⟩ := hspec
  exact hf.nonempty

theorem replyPaths_ne_nil (hx : x.toAgent.Tidy) {rp : Rrep} {ps : List Path} (h : x.replyPaths env p rp = some ps) :
    ps ≠ [] := by
  have hspec := recvReply_spec env p rp hx
  rw [h] at hspec
  obtain ⟨_, _, _, _, hf⟩ := hspec
  exact hf.nonempty

theorem abandoned_eq_zero (hx : x.toAgent.Tidy) (inp : Input) :
    x.abandoned env inp = 0 ↔ ¬ x.leaks env inp = true := by
  cases inp with
  | recv p =>
    unfold abandoned leaks
    by_cases hp : p.ptype = .teaomdv ∧ p.sport = rtPort ∧ p.dport = rtPort
    swap
    · simp [hp]
    simp only [hp, and_self, if_true, decide_true, Bool.true_and]
    cases p.body with
    | rreq rq => exact strays_eq_zero (fun ps h => requestPaths_ne_nil hx h)
    | rrep rp => exact strays_eq_zero (fun ps h => replyPaths_ne_nil hx h)
    | payload | rerr | hello | rcom | prob | pta => simp
  | tap p => simp [abandoned, leaks]
  | rtLlFailed p => simp [abandoned, leaks]
  | timer t => cases t <;> simp [abandoned, leaks]

end Exec

namespace Agent

/-- **Every packet is disposed of exactly once just when the invocation leaks none**: in every reachable state, which is
tidy (`tidy_of_reach`), with any trust values, any number of neighbours and any data in the buffer. -/
theorem accounted_iff {a : Agent} (ha : a.Tidy) (heap : Nat) (env : Env) (inp : Input) {y : Exec}
    (hy : (a.exec heap).handle env inp = .ok y) : Accounted inp y.log ↔ ¬ (a.exec heap).leaks env inp = true := by
  have hs : (a.exec heap).Settles inp.owned ((a.exec heap).abandoned env inp) y :=
    Exec.handle_settles env inp (x := a.exec heap) ha y hy
  rw [← Exec.abandoned_eq_zero (x := a.exec heap) ha, Accounted, Ledger.Settles.balance hs]
  exact add_eq_left

/-- Node 5 of `doubtfulCalls` buffers a second packet for 1. -/
def crowdedCalls : List Call :=
  doubtfulCalls ++ [⟨{ inf := 65535, now := 4 }, 5, .recv { ptr := 4, ptype := .cbr, saddr := 5, daddr := 1 }⟩]

/-- A request of node 1 for node 5, received from 1 itself. -/
def requestForFive : Input :=
  .recv { ptr := 9, saddr := 1, daddr := ipBroadcast, sport := rtPort, dport := rtPort, ttl := 30, prevHop := 1
          body := .rreq ⟨0, 1, 5, 0, 1, 4, 4, 0, trustThreshold, 1, 1⟩ }

/-- The second buffered packet is lost, and so is the packet of a trust round without neighbours. -/
theorem not_accounted_crowdedCalls :
    (∃ a y, Reach 5 a ∧ (a.exec 10).handle { inf := 65535, now := 4 } requestForFive = .ok y ∧
      ¬ Accounted requestForFive y.log) ∧
    ∃ y, ((new 5).exec 10).handle { inf := 65535, now := 1 } (.timer .trust) = .ok y ∧
      ¬ Accounted (.timer .trust) y.log := by
  constructor
  · obtain ⟨a, -, hr, hf⟩ := Runs.Reaches.of_obeys (fun _ _ => true)
      (fun a => ((a.exec 10).handle { inf := 65535, now := 4 } requestForFive).toOption.any
        (fun y => ¬ Accounted requestForFive y.log))
      (fun _ _ _ => trivial) crowdedCalls (.init : Reach 5 (new 5)) (by decide +kernel)
    obtain ⟨y, hy, hn⟩ := Fallible.any_toOption.1 hf
    exact ⟨a, y, hr, hy, of_decide_eq_true hn⟩
  · exact ⟨_, rfl, by decide⟩

/-- With one buffered packet none is lost. -/
theorem accounted_doubtfulCalls : ∃ a y, Runs.replay call doubtfulCalls (new 5) = some a ∧
    (a.exec 10).handle { inf := 65535, now := 4 } requestForFive = .ok y ∧ Accounted requestForFive y.log := by
  obtain ⟨a, ha, hr, hf⟩ := Runs.Reaches.of_obeys (fun _ _ => true)
    (fun a => ((a.exec 10).handle { inf := 65535, now := 4 } requestForFive).toOption.any
      (fun _ => !(a.exec 10).leaks { inf := 65535, now := 4 } requestForFive))
    (fun _ _ _ => trivial) doubtfulCalls (.init : Reach 5 (new 5)) (by decide +kernel)
  obtain ⟨y, hy, hn⟩ := Fallible.any_toOption.1 hf
  exact ⟨a, y, ha, hy, (accounted_iff (tidy_of_reach hr) 10 _ _ hy).2 (by simpa using hn)⟩

end Agent

end TeAomdv

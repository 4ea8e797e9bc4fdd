import TeAomdv.Forsake
import TeAomdv.Numbers
/-!
# Settled — entries that are not live have numbers no one gives

An invocation that forsakes no live entry leaves a calm log (`Exec.handle_calm`).  In a run of such invocations, in which
no PTA leaves an even number where it leaves no path, an entry that is not live has an odd number or 0, and the asserts
that rely on it hold (`Net.settled_of_reach`).
-/
namespace TeAomdv

open Fallible (Ends ok_bind)

namespace Exec

variable {env : Env} {x y z : Exec} {d : NsAddr} {p : Packet}

/-! ## A calm log -/

namespace Calm

theorem of_log (hx : x.Calm) (h : y.log = x.log) : y.Calm := fun d n hm => hx d n (h ▸ hm)

theorem aside (hx : x.Calm) (ha : Aside x y) : y.Calm := by
  obtain ⟨acts, hl, hquiet⟩ := ha.log
  intro d n hm
  rw [hl] at hm
  exact (List.mem_append.1 hm).elim (hx d n) (fun h => absurd rfl (hquiet _ h))

theorem free (hx : x.Calm) (p : Packet) : (x.free p).Calm := hx.aside (.free x p)

theorem schedule (hx : x.Calm) (p : Packet) (dl : Delay) : (x.schedule p dl).Calm := by
  intro d n hm
  exact (List.mem_append.1 hm).elim (hx d n) (fun h => nomatch List.mem_singleton.1 h)

end Calm

/-- No live entry with an even number fell under it. -/
theorem Sinks.calm (hs : Sinks x y) (hx : x.Calm)
    (h : ∀ d e, x.rtLookup d = some e → e.rtFlags = .up → e.rtSeqno % 2 = 0 → Stands d e.rtSeqno y) : y.Calm := by
  intro d n hm
  rcases hs.fell d n hm with hm | ⟨e, e', he, hup, rfl, he', hnup, hseq⟩
  · exact hx d n hm
  · by_contra hodd
    obtain ⟨e₂, he₂, hne⟩ := h d e he hup (by omega)
    obtain rfl := Option.some.inj (he'.symm.trans he₂)
    exact hne hnup hseq

/-! ## Packets that are not tested -/

theorem forwardSend_calm (hx : x.Calm) (delay : ℚ) : Ends Calm (x.forwardSend env d p delay) := by
  unfold forwardSend
  simp only
  split
  · exact Ends.error _
  · refine Ends.ok (Calm.schedule (hx.of_log ?_) _ _)
    split
    · exact log_countForward x p
    · exact log_countForward x p

/-- Only CBR packets are put to the trust test. -/
theorem forward_some_calm (hx : x.Calm) (hp : p.ptype ≠ .cbr) (delay : ℚ) : Ends Calm (x.forward env (some d) p delay) := by
  unfold forward
  split
  · exact Ends.ok (hx.aside (.drop x p _))
  split
  · exact Ends.ok (hx.aside (.say x trivial))
  simp only
  unfold forwardRoute
  split
  · exact Ends.error _
  split
  · exact Ends.error _
  split
  · exact Ends.error _
  · simp only [if_neg hp]
    exact forwardSend_calm (Calm.aside (x := x.rtModify d _) hx (.nbEnsure env _ _)) delay

theorem forward_none_calm (hx : x.Calm) (delay : ℚ) : Ends Calm (x.forward env none p delay) := by
  unfold forward
  split
  · exact Ends.ok (hx.aside (.drop x p _))
  split
  · exact Ends.ok (hx.aside (.say x trivial))
  simp only
  split
  · exact Ends.ok (hx.schedule _ _)
  · exact Ends.error _

/-! ## What follows the sending off -/

theorem sendReply_calm {ipdst dst nexthop first : NsAddr} {k s bid : Nat} {lifetime stamp fpt rpt : ℚ} (hx : x.Calm) :
    (x.sendReply ipdst k dst s lifetime stamp nexthop bid first fpt rpt).Calm :=
  (hx.aside (.alloc x)).schedule _ _

theorem relayRequest_calm (hx : x.Calm) (p : Packet) (rq : Rreq) (rt : Option RtEntry) (kill : Bool) :
    Ends Calm (x.relayRequest env p rq rt kill) := by
  unfold relayRequest
  split
  · exact Ends.ok (hx.free p)
  split
  · exact Ends.error _
  simp only
  split
  · exact Ends.error _
  · exact forward_none_calm (x := x.rtModify rq.rqSrc _) hx _

theorem answerRequest_calm (hx : x.Calm) (p : Packet) (rq : Rreq) (kill reverse : Bool) :
    Ends Calm (x.answerRequest env p rq kill reverse) := by
  unfold answerRequest
  split
  · unfold replyAsDestination
    refine Ends.ok (Calm.free (sendReply_calm ?_) p)
    exact Calm.aside (x := { x with seqno := replySeqno x.seqno rq.rqDstSeqno }) hx (.nbEnsure env _ _)
  split
  · exact relayRequest_calm hx p rq none kill
  split
  · unfold replyFromTable
    split
    · exact Ends.error _
    split
    · split
      · exact Ends.error _
      · exact Ends.ok (Calm.free (sendReply_calm (hx.of_log rfl)) p)
    · exact Ends.ok (hx.free p)
  · exact relayRequest_calm hx p rq _ kill

theorem relayReply_calm (hx : x.Calm) (hp : p.ptype = .teaomdv) (rp : Rrep) : Ends Calm (x.relayReply env p rp) := by
  unfold relayReply
  split
  · split
    · exact Ends.ok (hx.free p)
    split
    · exact Ends.error _
    simp only
    split
    · exact Ends.error _
    split
    · exact Ends.error _
    · refine forward_some_calm (hx.of_log ?_) ?_ _
      · rfl
      · rw [hp]
        nofun
  · exact Ends.ok (hx.free p)

theorem recvRequest_calm (hx : x.toAgent.Tidy) (hc : x.Calm) {rq : Rreq}
    (hk : (x.requestPaths env p rq).any (fun ps => x.WearsOut ps (x.buffered env rq.rqSrc)) = false) :
    Ends Calm (x.recvRequest env p rq) := by
  have hspec := recvRequest_spec env p rq hx
  cases hps : x.requestPaths env p rq with
  | none =>
    rw [hps] at hspec
    rcases hspec with ⟨y, hy, hlog⟩ | ⟨s, hs⟩
    · rw [hy]
      exact Ends.ok (Calm.free (hc.of_log hlog) p)
    · rw [hs]
      exact Ends.error _
  | some ps =>
    rw [hps] at hspec hk
    obtain ⟨ids, y, e, hy, -, -, hf⟩ := hspec
    have hleft : e.rtPathList ≠ [] := fun hnil => of_decide_eq_false hk (hf.empty.1 hnil)
    rw [hy]
    exact answerRequest_calm (hf.calm hleft hc) p _ _ _

theorem recvReply_calm (hx : x.toAgent.Tidy) (hc : x.Calm) (hp : p.ptype = .teaomdv) {rp : Rrep}
    (hk : (x.replyPaths env p rp).any (fun ps => x.WearsOut ps (x.buffered env rp.rpDst)) = false) :
    Ends Calm (x.recvReply env p rp) := by
  have hspec := recvReply_spec env p rp hx
  cases hps : x.replyPaths env p rp with
  | none =>
    rw [hps] at hspec
    rcases hspec with ⟨y, hy, hlog⟩ | ⟨s, hs⟩
    · rw [hy]
      exact Ends.ok (Calm.free (hc.of_log hlog) p)
    · rw [hs]
      exact Ends.error _
  | some ps =>
    rw [hps] at hspec hk
    obtain ⟨y, e, hy, -, hf⟩ := hspec
    have hleft : e.rtPathList ≠ [] := fun hnil => of_decide_eq_false hk (hf.empty.1 hnil)
    rw [hy]
    split
    · exact Ends.ok (Calm.free (hf.calm hleft hc) p)
    · exact relayReply_calm (hf.calm hleft hc) hp _

/-! ## The other packets -/

theorem recvError_calm (hc : x.Calm) (p : Packet) (re : Rerr) : Ends Calm (x.recvError env p re) := by
  unfold recvError
  simp only
  split
  · exact Ends.error _
  · have hslots : Ends (fun a : Exec × List (NsAddr × Nat) => a.1.log = x.alloc.log)
        (re.unreachable.foldlM (errorSlot env p.saddr) (x.alloc, [])) :=
      Ends.foldlM (fun a s _ ha => (errorSlot_log p.saddr a s).mono (fun _ h => h.trans ha)) rfl
    refine hslots.bind (fun a ha => Ends.ok (Calm.free ?_ p))
    have ha : a.1.Calm := (hc.aside (.alloc x)).of_log ha
    split
    · exact ha.schedule _ _
    · exact ha.free _

theorem recvPta_calm (hc : x.Calm) (p : Packet) (re : Pta) : Ends Calm (x.recvPta env p re) := by
  unfold recvPta
  split
  · exact Ends.ok (hc.free p)
  split
  · split
    · exact Ends.error _
    · refine Ends.bind downIfEmpty_log (fun a ha => Ends.ok (Calm.free ?_ p))
      refine Calm.aside (x := a.1.rtModify re.unreachableDst _) (hc.of_log ha) (.foldl (fun y pc => ?_) _ _)
      exact reportDistrust_aside _ _ _ y pc
  · exact Ends.ok (hc.free p)

theorem recvRcom_calm (hc : x.Calm) (p : Packet) (rc : Recommen) : Ends Calm (x.recvRcom env p rc) := by
  unfold recvRcom
  split
  · exact Ends.ok (hc.free p)
  split
  · split
    · exact Ends.error _
    · refine Ends.ok (Calm.free (Calm.aside (x := x.nbModify p.saddr _) (hc.of_log rfl) (.foldl (fun y r => ?_) _ _)) p)
      exact .nbModify y r.1 (fun _ => rfl)
  · exact Ends.ok (hc.free p)

theorem recvTEAOMDV_calm (hx : x.toAgent.Tidy) (hc : x.Calm) (hp : p.ptype = .teaomdv)
    (hk : x.forsakes env (.recv p) = false) : Ends Calm (x.recvTEAOMDV env { p with ttl := p.ttl - 1 }) := by
  simp only [forsakes, if_pos hp] at hk
  unfold recvTEAOMDV
  split
  · exact Ends.error _
  cases hb : p.body with
  | rreq rq =>
    rw [hb] at hk
    exact recvRequest_calm hx hc hk
  | rrep rp =>
    rw [hb] at hk
    exact recvReply_calm (p := { p with ttl := p.ttl - 1, body := .rrep rp }) hx hc hp hk
  | rerr re => exact recvError_calm hc _ re
  | hello rp => exact Ends.ok (hc.aside (recvHello_aside env x _ rp))
  | rcom rc => exact recvRcom_calm hc _ rc
  | prob => exact Ends.ok (hc.aside (recvProb_aside env x _))
  | pta re => exact recvPta_calm hc _ re
  | payload => exact Ends.error _

/-! ## Data -/

theorem sendRequest_calm (hc : x.Calm) (d : NsAddr) : Ends Calm (x.sendRequest env d) := by
  have halloc : x.alloc.Calm := hc.aside (.alloc x)
  unfold sendRequest
  simp only
  split
  · exact Ends.error _
  split
  · split
    · exact Ends.error _
    · exact Ends.ok (halloc.free _)
  split
  · exact Ends.ok (halloc.free _)
  split
  · obtain ⟨w, hw, ha⟩ := drain_drop env (x.alloc.rtModify d (fun rt =>
      { rt with rtReqTimeout := env.now + maxRreqTimeout, rtReqCnt := 0 })) d .rtrNoRoute
    rw [hw]
    exact Ends.ok (Calm.free (Calm.aside (x := x.alloc.rtModify d _) (halloc.of_log rfl) ha) _)
  · unfold emitRequest
    simp only
    split
    · exact Ends.error _
    · exact Ends.ok (Calm.schedule (halloc.of_log rfl) _ _)

/-- A packet forwarded on an entry it does not strip. -/
theorem forward_calm (hx : x.toAgent.Rep) (hc : x.Calm) (hp : p.Plain)
    (hk : ∀ e, x.rtLookup d = some e → x.sheds e [.inr p] = false) (delay : ℚ) :
    Ends Calm (x.forward env (some d) p delay) := by
  intro z hz
  have htrace : Trace env .nothing x (x.forward env (some d) p delay) := forward_some_trace (fun h => absurd hp h) delay
  refine (steps_sinks (.inl rfl) (htrace.of_ok hz)).calm hc (fun d' e he hup heven => ?_)
  by_cases hd : d' = d
  · subst hd
    exact ((Bears.start hx he hup heven (hk e he)).forward hp rfl delay z hz).stands
  · exact ⟨e, ((Apart.forward hx p delay z hz).spares.others d' hd).trans he, fun h => absurd hup h⟩

theorem rtResolve_calm (hx : x.toAgent.Tidy) (hc : x.Calm) (hp : p.Data)
    (hk : ∀ e, x.rtLookup p.daddr = some e → x.sheds e [.inr p] = false) : Ends Calm (x.rtResolve env p) := by
  unfold rtResolve
  intro z hz
  obtain ⟨y, hy, hm⟩ := Fallible.bind_eq_ok hz
  have hcy : y.Calm := hc.of_log (log_of_rtEnsure hy)
  cases he : y.rtLookup p.daddr with
  | none =>
    rw [he] at hm
    cases hm
  | some rt =>
    rw [he] at hm
    simp only at hm
    split at hm
    · rename_i hup
      split at hm
      · cases hm
      -- an entry just added is not up
      have hsame : y = x := by
        unfold rtEnsure rtAdd at hy
        cases hlook : x.rtLookup p.daddr with
        | none =>
          simp only [hlook, Option.isNone_none, if_true, Option.isSome_none, Bool.false_eq_true, if_false] at hy
          obtain rfl := Except.ok.inj hy
          obtain rfl := Option.some.inj ((List.find?_cons_of_pos (by simp)).symm.trans he)
          cases hup
        | some e =>
          rw [hlook] at hy
          exact (Except.ok.inj hy).symm
      subst hsame
      exact forward_calm hx.rep hc (plain_of_ne hp.1) hk _ z hm
    split at hm
    · exact sendRequest_calm (hcy.aside (.enque env y hp)) _ z hm
    split at hm
    · obtain rfl := Except.ok.inj hm
      exact hcy.aside (.enque env y hp)
    · obtain rfl := Except.ok.inj hm
      exact Calm.aside (Calm.schedule (hcy.aside (.alloc y)) _ _) (.drop _ p _)

theorem recv_calm (hx : x.toAgent.Tidy) (hc : x.Calm) (hk : x.forsakes env (.recv p) = false) :
    Ends Calm (x.recv env p) := by
  by_cases htype : p.ptype = .teaomdv
  · unfold recv
    rw [if_pos htype]
    exact recvTEAOMDV_calm hx hc htype hk
  have hresolve : ∀ q, x.resolved p = some q → q.daddr = p.daddr → ∀ e, x.rtLookup p.daddr = some e →
      x.sheds e [.inr q] = false := by
    intro q hq hd e he
    simp only [forsakes, if_neg htype, hq, hd, he, Option.any_some] at hk
    exact hk
  unfold recv
  rw [if_neg htype]
  split
  · rename_i hown
    simp only
    split
    · rename_i hdst
      refine rtResolve_calm hx hc ⟨htype, hdst⟩ (hresolve _ ?_ rfl)
      unfold resolved
      rw [if_neg hdst, if_pos hown.1, if_pos hown.2]
    · exact forward_none_calm hc _
  · rename_i hown
    split
    · exact Ends.ok (hc.aside (.drop x p _))
    · rename_i hsrc
      simp only
      split
      · exact Ends.ok (hc.aside (.drop x _ _))
      split
      · rename_i hdst
        refine rtResolve_calm hx hc ⟨htype, hdst⟩ (hresolve _ ?_ rfl)
        unfold resolved
        rw [if_neg hdst, if_neg hsrc]
      · exact forward_none_calm hc _

/-! ## One invocation -/

/-- **An invocation that forsakes no live entry leaves a calm log.** -/
theorem handle_calm {inp : Input} (hx : x.toAgent.Tidy) (hc : x.Calm)
    (hlim : ∀ e ∈ x.rtable, e.rtFlags = .up → e.rtSeqno + 1 < 4294967296) (hk : x.forsakes env inp = false) :
    Ends Calm (x.handle env inp) := by
  cases inp with
  | recv p => exact recv_calm hx hc hk
  | tap p => exact Ends.ok (hc.aside (tap_aside x p))
  | rtLlFailed p => exact Ends.ok (hc.aside (.drop x p _))
  | timer t =>
    cases t with
    | broadcast => exact Ends.ok (hc.aside (.idPurge env x))
    | hello =>
      refine Ends.ok ?_
      split
      · exact hc.aside (sendHello_aside x)
      · exact hc
    | probe => exact Ends.ok (hc.aside (sendProb_aside x))
    | trust => exact Ends.ok (hc.aside (setTrust_aside env x))
    | neighbor ifq =>
      intro z hz
      have htrace : Trace env .clock x (x.nbPurge env ifq) := nbPurge_trace rfl ifq x
      have hsinks := steps_sinks (.inr rfl) (htrace.of_ok hz)
      exact hsinks.calm hc (fun d e he hup heven =>
        nbPurge_stands hx.rep hk he hup heven (hlim e (mem_of_rtLookup he) hup) z hz)
    | routeCache =>
      intro z hz
      have htrace : Trace env .clock x (x.rtPurge env) := rtPurge_trace rfl hx.data
      have hsinks := steps_sinks (.inr rfl) (htrace.of_ok hz)
      exact hsinks.calm hc (fun d e he hup heven => rtPurge_stands hx hk he hup heven z hz)
    | localRepair p =>
      refine Ends.ok ?_
      unfold localRepair
      split
      · exact hc.free p
      · refine Calm.free (hc.of_log ?_) p
        split <;> rfl

end Exec

namespace Net

open Exec (Trace)

variable {inf : Nat} {net : Net} {ev : Event} {inp : Input}

/-! ## Entries that are not live have numbers no one gives -/

/-- A routing packet gives even numbers, and reports odd ones, or 0. -/
def SettledAir (p : Packet) : Prop :=
  p.ptype = .teaomdv → (∀ s, p.number = some s → s % 2 = 0) ∧
    ∀ re, p.body = .rerr re → ∀ s ∈ re.unreachable, s.2 % 2 = 1 ∨ s.2 = 0

structure SettledNode (x : Exec) : Prop where
  own : x.seqno % 2 = 0
  entries : ∀ e ∈ x.rtable, e.route.Settled
  sent : ∀ p ∈ x.sent, SettledAir p

theorem settledAir_of_plain {p : Packet} (hp : p.Plain) : SettledAir p := by
  intro ht
  have := hp ht
  refine ⟨fun s hs => evenAir_of_plain hp ht s hs, fun re hb => ?_⟩
  simp [hb] at this

theorem SettledNode.micro {env : Env} {h : Heard} {x y : Exec} (hh : h.Settled) (hx : SettledNode x) (hc : y.Calm)
    (hm : Micro env h x y) : SettledNode y where
  own := by
    cases hm with
    | aside ha => exact ha.seqno hx.own
    | entry | distrust | add | emit => exact hx.own
  entries := hm.entries Route.Settled.fresh
    (fun r r' he hrule => he.rule hh hrule) (fun r he _ hodd => he.fall (hodd hc) (Nat.le_refl _) env.inf) hx.entries
  sent := by
    intro p hp
    rcases hm.sent hp with hp | hp | hp
    · exact hx.sent p hp
    · exact settledAir_of_plain hp
    · refine fun _ => ⟨fun s hs => ?_, fun re hb s hs => ?_⟩
      · rcases hp.number hs with rfl | heven | ⟨a, rfl, rfl⟩
        · exact hx.own
        · exact heven
        · exact hh.1
      · unfold Exec.Honest at hp
        simp only [hb] at hp
        obtain ⟨r, hr, hnup, hseq⟩ := hp s hs
        obtain ⟨e, he, rfl⟩ := Exec.exists_of_routeOf hr
        rw [← hseq]
        exact (hx.entries e (Exec.mem_of_rtLookup he)).down hnup

/-- The handler the event runs forsakes a live entry. -/
def forsakes (inf : Nat) (net : Net) (ev : Event) : Bool :=
  (net.input ev).any (fun inp => (net.start ev.node).forsakes (ev.env inf) inp)

/-- The condition under which the number of an entry tells whether it is live. -/
def tellsApart (inf : Nat) (net : Net) (ev : Event) : Bool := net.fallsOdd ev && !net.forsakes inf ev

theorem tellsApart_iff : net.tellsApart inf ev = true ↔ net.fallsOdd ev = true ∧ net.forsakes inf ev = false := by
  unfold tellsApart
  rw [Bool.and_eq_true, Bool.not_eq_true']

theorem settled_heard (hair : ∀ sp ∈ net.air, SettledAir sp.2) (hinp : net.input ev = some inp)
    (hw : net.unwrapped ev = true) (hf : net.fallsOdd ev = true) :
    ((net.start ev.node).heard inp).Settled := by
  unfold unwrapped at hw
  cases ha : (net.start ev.node).heard inp with
  | advert a =>
    obtain ⟨p, hp, hn⟩ := packet_number hinp ha
    obtain ⟨ht, src, q, hq, rfl⟩ := packet_mem_air hp
    rw [hp] at hw
    refine ⟨(hair _ hq ht).1 _ hn, ?_⟩
    unfold Packet.number at hn
    unfold Packet.unwrapped at hw
    simp only [Option.all_some] at hw
    split at hn
    · rename_i rq hb
      rw [← Option.some.inj hn]
      simpa only [hb, decide_eq_true_eq] using hw
    · rename_i rp hb
      rw [← Option.some.inj hn]
      simpa only [hb, decide_eq_true_eq] using hw
    · cases hn
  | error slots =>
    obtain ⟨p, re, hp, hb, rfl⟩ := heard_error hinp ha
    obtain ⟨ht, src, q, hq, rfl⟩ := packet_mem_air hp
    rw [hp] at hw
    simp only [Option.all_some, Packet.unwrapped, hb, List.all_eq_true, decide_eq_true_eq] at hw
    exact fun s hs => ⟨(hair _ hq ht).2 re hb s hs, hw s hs⟩
  | pta r hs n =>
    obtain ⟨rt, p, re, hpta, hp, hb, rfl, rfl, rfl⟩ := heard_pta hinp ha
    rw [hp] at hw
    simp only [Option.all_some, Packet.unwrapped, hb, decide_eq_true_eq] at hw
    unfold fallsOdd at hf
    rw [hpta] at hf
    exact ⟨hw, fun hnil => of_decide_eq_true hf (fun ho => outlives_iff.1 ho hnil)⟩
  | nothing | clock | repair => trivial

/-- A node of settled entries is left calm by an event that forsakes none. -/
theorem calm_of_settled {x : Exec} (htidy : (net.node ev.node).Tidy) (hs : ∀ e ∈ (net.node ev.node).rtable, e.route.Settled)
    (hinp : net.input ev = some inp) (hg : net.forsakes inf ev = false)
    (hx : (net.start ev.node).handle (ev.env inf) inp = .ok x) : x.Calm := by
  unfold forsakes at hg
  rw [hinp, Option.any_some] at hg
  refine Exec.handle_calm (x := net.start ev.node) htidy (fun _ _ hm => nomatch hm) (fun e he hup => ?_) hg x hx
  have hlt : e.rtSeqno < seqnoLimit := ((hs e he).up hup).2
  unfold seqnoLimit at hlt
  omega

theorem settledNode_of_reach (h : Reach inf (fun net ev => net.unwrapped ev ∧ net.tellsApart inf ev) net) :
    (∀ i, (net.node i).seqno % 2 = 0 ∧ ∀ e ∈ (net.node i).rtable, e.route.Settled) ∧ ∀ sp ∈ net.air, SettledAir sp.2 := by
  refine Runs.Reaches.invariant (P := fun net => (∀ i, (net.node i).seqno % 2 = 0 ∧
    ∀ e ∈ (net.node i).rtable, e.route.Settled) ∧ ∀ sp ∈ net.air, SettledAir sp.2)
    ⟨fun i => ⟨show 2 % 2 = 0 from rfl, fun e he => absurd he List.not_mem_nil⟩,
      fun sp hsp => absurd hsp List.not_mem_nil⟩ (fun net ev net' hr ih hg hstep => ?_) h
  obtain ⟨inp, x, hinp, hx, rfl⟩ := step_eq_some hstep
  obtain ⟨hw, hg⟩ := hg
  obtain ⟨hf, hk⟩ := tellsApart_iff.1 hg
  have htidy := fun i => (tidy_of_reach hr i).1
  have hcalm := calm_of_settled (htidy ev.node) (ih.1 ev.node).2 hinp hk hx
  have ht := handle_trace inf ev inp htidy
  rw [hx] at ht
  have hstart : SettledNode (net.start ev.node) := ⟨(ih.1 ev.node).1, (ih.1 ev.node).2, fun p hp => nomatch hp⟩
  have hend := ht.invariant (I := fun x => x.Calm → SettledNode x)
    (fun y z hy hm hc => (hy (hm.calm hc)).micro (settled_heard ih.2 hinp hw hf) hc hm) (fun _ => hstart)
  have hend : SettledNode x := hend hcalm
  exact commit_forall (Q := fun a => a.seqno % 2 = 0 ∧ ∀ e ∈ a.rtable, e.route.Settled) ev.now ih.1 ih.2
    ⟨hend.own, hend.entries⟩ hend.sent

/-- **An entry that is not live has a number no RREQ or RREP carries, and no assert that says so fails**, in a run in
which distrust takes the last path of no live entry with an even number, and no accepted PTA leaves an even number on an
entry it leaves no path. -/
theorem settled_of_reach (h : Reach inf (fun net ev => net.unwrapped ev ∧ net.tellsApart inf ev) net) :
    (∀ i, ∀ e ∈ (net.node i).rtable, e.rtFlags ≠ .up → e.rtSeqno % 2 = 1 ∨ e.rtSeqno = 0) ∧
      (∀ sp ∈ net.air, sp.2.ptype = .teaomdv → ∀ s, sp.2.number = some s → s % 2 = 0) ∧
      ∀ ev, net.unwrapped ev → net.tellsApart inf ev →
        net.exec inf ev ≠ some (.error (.assertion .recvRequestUp)) ∧
        net.exec inf ev ≠ some (.error (.assertion .recvReplyUp)) := by
  obtain ⟨hnode, hair⟩ := settledNode_of_reach h
  refine ⟨fun i e he hnup => ((hnode i).2 e he).down hnup, fun sp hsp ht s hs => (hair sp hsp ht).1 s hs, ?_⟩
  intro ev hw hg
  have key : ∀ f, net.exec inf ev = some (.error f) → (∀ y h, Blame h y f → y.Calm ∧ ∃ a, h = .advert a ∧
      ∃ e ∈ y.rtable, e.rtSeqno = a.seqno ∧ e.rtFlags ≠ .up) → False := by
    intro f hexec hblame
    obtain ⟨inp, hinp, hx⟩ := exec_eq_some hexec
    have hh := settled_heard hair hinp hw (tellsApart_iff.1 hg).1
    have ht := handle_trace inf ev inp (fun i => (tidy_of_reach h i).1)
    rw [hx] at ht
    have hstart : SettledNode (net.start ev.node) := ⟨(hnode ev.node).1, (hnode ev.node).2, fun p hp => nomatch hp⟩
    obtain ⟨y, hy, hb⟩ := ht.invariant_error (I := fun x => x.Calm → SettledNode x)
      (fun y z hy hm hc => (hy (hm.calm hc)).micro hh hc hm) (fun _ => hstart)
    obtain ⟨hc, a, ha, e, he, hseq, hnup⟩ := hblame y _ hb
    rw [ha] at hh
    have h1 := ((hy hc).entries e he).down hnup
    have h2 : a.seqno % 2 = 0 ∧ 0 < a.seqno ∧ a.seqno < seqnoLimit := hh
    have h3 : e.rtSeqno % 2 = 1 ∨ e.rtSeqno = 0 := h1
    omega
  exact ⟨fun hx => key _ hx (fun _ _ hb => hb), fun hx => key _ hx (fun _ _ hb => hb)⟩

/-- Node 2 comes to distrust node 1, so its entry for 1 goes down with the number it had; then node 3 passes on the
request that 2 took that number from. -/
def confusedEvents : List Event :=
  [(What.cbr 1 9 100).on 0 1, (What.deliver 0).on (1 / 10) 2, (What.deliver 0).on (1 / 10) 3,
    (What.cbr 2 1 200).on (5 / 10) 2, What.trustTimer.on 3 2, (What.cbr 2 1 201).on 4 2]

theorem confused_of_confusedEvents : ∃ net, replay 65535 confusedEvents = some net ∧
    Reach 65535 (fun net ev => net.unwrapped ev ∧ net.short ev) net ∧
    ∃ ev, net.unwrapped ev ∧ net.exec 65535 ev = some (.error (.assertion .recvRequestUp)) := by
  obtain ⟨net, hnet, hr, hfin⟩ := reach_of_obeys 65535 (fun net ev => net.unwrapped ev && net.short ev)
    (fun net => net.unwrapped ((What.deliver 2).on 5 2) ∧
      net.fault 65535 ((What.deliver 2).on 5 2) = some (.assertion .recvRequestUp))
    (fun _ _ h => Bool.and_eq_true_iff.1 h) confusedEvents (by decide +kernel)
  obtain ⟨hw, hf⟩ := of_decide_eq_true hfin
  exact ⟨net, hnet, hr, _, hw, exec_of_fault hf⟩

theorem settled_loopEvents : ∃ net, replay 65535 (loopEvents.take 11) = some net ∧
    (∀ i, ∀ e ∈ (net.node i).rtable, e.rtFlags ≠ .up → e.rtSeqno % 2 = 1 ∨ e.rtSeqno = 0) ∧
      (∀ sp ∈ net.air, sp.2.ptype = .teaomdv → ∀ s, sp.2.number = some s → s % 2 = 0) ∧
      ∀ ev, net.unwrapped ev → net.tellsApart 65535 ev →
        net.exec 65535 ev ≠ some (.error (.assertion .recvRequestUp)) ∧
        net.exec 65535 ev ≠ some (.error (.assertion .recvReplyUp)) := by
  obtain ⟨net, hnet, hr, -⟩ := reach_of_obeys 65535 (fun net ev => net.unwrapped ev && net.tellsApart 65535 ev)
    (fun _ => true) (fun _ _ h => Bool.and_eq_true_iff.1 h) (loopEvents.take 11) (by decide +kernel)
  exact ⟨net, hnet, settled_of_reach hr⟩

end Net

end TeAomdv

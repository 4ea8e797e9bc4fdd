import TeAomdv.StrokesRecv
import TeAomdv.Lifetime
import TeAomdv.Lib.Issued
/-!
# Identity — which discovery a request and a reply belong to

A RREQ is known by its source and broadcast id, a RREP by the broadcast id and the node it goes to.  A node numbers its
requests by `bid`, which grows until it wraps, and everything else is a copy or an answer.  So in any run of the network every
RREQ goes back to the node it names, every reply in the air is to a request that this node did send, and the ids of a node that
has not used them up (`Unspent`) name one discovery each.
-/
namespace TeAomdv

open Fallible (Ends)
open Issued (Named)

/-- The RREQ the packet carries. -/
def Packet.request (p : Packet) : Option Rreq :=
  match p.body with
  | .rreq rq => if p.ptype = .teaomdv then some rq else none
  | _ => none

theorem Packet.request_eq_some {p : Packet} {rq : Rreq} : p.request = some rq ↔ p.ptype = .teaomdv ∧ p.body = .rreq rq := by
  unfold Packet.request
  split
  · rename_i rq' hb
    rw [hb]
    by_cases ht : p.ptype = .teaomdv <;> simp [ht]
  · rename_i hb
    exact iff_of_false nofun (fun h => hb rq h.2)

theorem Packet.request_of_mute {p : Packet} (h : p.Mute) : p.request = none := by
  unfold Packet.Mute at h
  unfold Packet.request
  split
  · rename_i hb
    rw [hb] at h
    exact h.elim
  · rfl

namespace Rreq.Akin

variable {rq rq' rq'' : Rreq}

theorem refl (rq : Rreq) : rq.Akin rq := ⟨rfl, rfl, rfl, rfl, rfl⟩

theorem symm (h : rq.Akin rq') : rq'.Akin rq :=
  ⟨h.src.symm, h.bcastId.symm, h.dst.symm, h.srcSeqno.symm, h.timestamp.symm⟩

theorem trans (h : rq.Akin rq') (h' : rq'.Akin rq'') : rq.Akin rq'' where
  src := h'.src.trans h.src
  bcastId := h'.bcastId.trans h.bcastId
  dst := h'.dst.trans h.dst
  srcSeqno := h'.srcSeqno.trans h.srcSeqno
  timestamp := h'.timestamp.trans h.timestamp

end Rreq.Akin

namespace Exec

variable {env : Env} {x y : Exec} {d : NsAddr}

theorem bid_rqEvict (env : Env) (x : Exec) : (x.rqEvict env).bid = x.bid := by
  unfold rqEvict
  split
  · rfl
  · split <;> rfl

theorem bid_enque (env : Env) (x : Exec) (p : Packet) : (x.enque env p).bid = x.bid := bid_rqEvict env (x.rqPurge env)

theorem bid_deque (env : Env) (x : Exec) (d : NsAddr) : (x.deque env d).2.bid = x.bid := by
  unfold deque
  simp only
  split <;> rfl

/-- What neither taking a packet out nor dropping it changes, no loop that drops packets does. -/
theorem drain_fixes {α : Type*} {g : Exec → α} {r : DropReason} (hd : ∀ x, g (x.deque env d).2 = g x)
    (hr : ∀ x q, g (drop x q r) = g x) (x : Exec) : Ends (fun y => g y = g x) (x.drain env d (fun x q => .ok (x.drop q r))) := by
  have loop : ∀ (n : Nat) (y : Exec), g y = g x →
      Ends (fun y => g y = g x) (drainLoop env d (fun x q => .ok (x.drop q r)) n y) := by
    intro n
    induction n with
    | zero => exact fun _ h => Ends.ok h
    | succ n ih =>
      intro y hy
      have hg := hd y
      unfold drainLoop
      split
      · rename_i z hz
        rw [hz] at hg
        exact Ends.ok (hg.trans hy)
      · rename_i q z hz
        rw [hz] at hg
        exact ih (z.drop q r) ((hr z q).trans (hg.trans hy))
  exact loop _ x rfl

theorem drain_bid (env : Env) (d : NsAddr) (r : DropReason) (x : Exec) :
    Ends (fun y => y.bid = x.bid) (x.drain env d (fun x q => .ok (x.drop q r))) :=
  drain_fixes (g := fun y => y.bid) (bid_deque env · d) (fun _ _ => rfl) x

theorem sent_act {a : Act} (ha : ∀ p t, a ≠ .schedule p t) : (x.say a).sent = x.sent := by
  unfold sent say
  rw [List.filterMap_append, List.filterMap_cons]
  cases a with
  | schedule p t => exact absurd rfl (ha p t)
  | alloc | dmux | drop | free | enque | deque | timeout | filter | distrust => exact List.append_nil _

theorem sent_enque (env : Env) (x : Exec) (p : Packet) : (x.enque env p).sent = x.sent := by
  have hevict : ((x.rqPurge env).rqEvict env).sent = (x.rqPurge env).sent := by
    unfold rqEvict
    split
    · rfl
    · split
      · unfold drop
        rw [sent_act (by rintro _ _ ⟨⟩), sent_act (by rintro _ _ ⟨⟩)]
        rfl
      · rfl
  unfold enque
  simp only
  rw [sent_act (by rintro _ _ ⟨⟩)]
  exact hevict.trans (sent_rqPurge env x)

theorem sent_deque (env : Env) (x : Exec) (d : NsAddr) : (x.deque env d).2.sent = x.sent := by
  unfold deque
  simp only
  split
  · exact sent_rqPurge env x
  · rw [sent_act (by rintro _ _ ⟨⟩)]
    exact sent_rqPurge env x

/-- What `sendRequest` numbers: nothing, or the one request it hands over. -/
theorem sendRequest_numbers (h : x.sendRequest env d = .ok y) : y.bid = x.bid ∧ y.sent = x.sent ∨
    ∃ p rq, y.bid = u32 (x.bid + 1) ∧ y.sent = x.sent ++ [p] ∧ p.request = some rq ∧ p.reply = none ∧ rq.rqSrc = x.index ∧
      rq.rqBcastId = x.bid := by
  obtain ⟨rt, he, hs⟩ := exists_of_sendRequest h
  have he' : x.alloc.rtLookup d = some rt := he
  obtain ⟨ps, hsent, hno, -⟩ := hs.sent
  unfold sendRequest at h
  simp only [he'] at h
  split at h
  · split at h
    · cases h
    · obtain rfl := Except.ok.inj h
      exact .inl ⟨rfl, by rw [sent_free, sent_alloc]⟩
  rename_i hup
  split at h
  · obtain rfl := Except.ok.inj h
    exact .inl ⟨rfl, by rw [sent_free, sent_alloc]⟩
  rename_i hwait
  split at h
  · rename_i hcnt
    obtain ⟨z, hz, h⟩ := Fallible.bind_eq_ok h
    obtain rfl := Except.ok.inj h
    have ha : rt.attempt env ≠ .ask := by
      unfold RtEntry.attempt
      rw [if_neg (fun h => h.elim hup hwait), if_pos hcnt]
      nofun
    have hbid := drain_bid env d .rtrNoRoute _ z hz
    refine .inl ⟨hbid, ?_⟩
    rw [hsent, hno ha, List.append_nil]
  · unfold emitRequest at h
    simp only at h
    split at h
    · cases h
    · obtain rfl := Except.ok.inj h
      exact .inr ⟨_, _, rfl, (sent_schedule _ _ _).trans (congrArg (· ++ _) (sent_alloc x)),
        Packet.request_eq_some.2 ⟨rfl, rfl⟩, rfl, rfl, rfl⟩

/-- Where a node lives and which ids it has cached. -/
def self (x : Exec) : NsAddr × List BroadcastId := (x.hereAddr, x.bihead)

theorem self_enque (env : Env) (x : Exec) (p : Packet) : (x.enque env p).self = x.self := by
  have hevict : ((x.rqPurge env).rqEvict env).self = x.self := by
    unfold rqEvict
    split
    · rfl
    · split <;> rfl
  exact hevict

theorem self_deque (env : Env) (x : Exec) (d : NsAddr) : (x.deque env d).2.self = x.self := by
  unfold deque
  simp only
  split <;> rfl

theorem sendRequest_self (h : x.sendRequest env d = .ok y) : y.self = x.self := by
  unfold sendRequest at h
  simp only at h
  split at h
  · cases h
  split at h
  · split at h
    · cases h
    · obtain rfl := Except.ok.inj h
      rfl
  split at h
  · obtain rfl := Except.ok.inj h
    rfl
  split at h
  · obtain ⟨z, hz, h⟩ := Fallible.bind_eq_ok h
    obtain rfl := Except.ok.inj h
    exact drain_fixes (r := .rtrNoRoute) (g := self) (self_deque env · d) (fun _ _ => rfl) (x.alloc.rtModify d _) z hz
  · unfold emitRequest at h
    simp only at h
    split at h
    · cases h
    · obtain rfl := Except.ok.inj h
      rfl

end Exec

namespace Net

/-- The requests of the air, each with the node that handed it over. -/
def requests (air : List (NsAddr × Packet)) : List (NsAddr × Rreq) :=
  air.filterMap (fun sp => sp.2.request.map (fun rq => (sp.1, rq)))

/-- What a request names: a source and a broadcast id. -/
def matter (m : NsAddr × Rreq) : NsAddr × Nat := (m.2.rqSrc, m.2.rqBcastId)

/-- How many requests of its own node `i` has sent. -/
def raised (air : List (NsAddr × Packet)) (i : NsAddr) : Nat := (requests air).countP (fun m => m.1 = i ∧ m.2.rqSrc = i)

/-- The ids of node `i`, which start at 1 and have 32 bits, are not used up. -/
def Unspent (air : List (NsAddr × Packet)) (i : NsAddr) : Prop := raised air i + 1 < 2 ^ 32

/-- Every request goes back to its source; an id of a node that has not used them up names one discovery, and the node goes on
to a larger one; a reply is to a request sent. -/
structure Corresponds (air : List (NsAddr × Packet)) (bid : NsAddr → Nat) : Prop where
  named : Named matter (fun m m' => m.2.Akin m'.2) (fun m => m.1 = m.2.rqSrc) (fun k => Unspent air k.1) (requests air)
  below : ∀ m ∈ requests air, Unspent air m.2.rqSrc → m.2.rqBcastId < bid m.2.rqSrc
  counted : ∀ i, Unspent air i → bid i ≤ raised air i + 1
  solicited : ∀ sp ∈ air, ∀ rp, sp.2.reply = some rp → ∃ m ∈ requests air, m.1 = sp.2.daddr ∧ m.2.rqSrc = sp.2.daddr ∧ rp.To m.2

variable {inf : Nat} {net net' : Net} {ev : Event} {air : List (NsAddr × Packet)} {bid bid' : NsAddr → Nat} {i : NsAddr}
  {p : Packet}

theorem mem_requests {sp : NsAddr × Packet} {rq : Rreq} (hsp : sp ∈ air) (hrq : sp.2.request = some rq) :
    (sp.1, rq) ∈ requests air := List.mem_filterMap.2 ⟨sp, hsp, by rw [hrq]; rfl⟩

theorem mem_air_of_requests {m : NsAddr × Rreq} (hm : m ∈ requests air) : ∃ q, (m.1, q) ∈ air ∧ q.request = some m.2 := by
  obtain ⟨sp, hsp, heq⟩ := List.mem_filterMap.1 hm
  obtain ⟨rq, hrq, rfl⟩ := Option.map_eq_some_iff.1 heq
  exact ⟨sp.2, hsp, hrq⟩

theorem requests_append (air : List (NsAddr × Packet)) (i : NsAddr) (p : Packet) :
    requests (air ++ [(i, p)]) = requests air ++ (p.request.map (fun rq => (i, rq))).toList := by
  unfold requests
  rw [List.filterMap_append, List.filterMap_cons]
  cases p.request <;> rfl

theorem requests_snoc {rq : Rreq} (hp : p.request = some rq) : requests (air ++ [(i, p)]) = requests air ++ [(i, rq)] := by
  rw [requests_append, hp]
  rfl

theorem raised_le (air air' : List (NsAddr × Packet)) (j : NsAddr) : raised air j ≤ raised (air ++ air') j := by
  unfold raised requests
  rw [List.filterMap_append, List.countP_append]
  exact Nat.le_add_right _ _

theorem Unspent.of_append {air' : List (NsAddr × Packet)} {j : NsAddr} (h : Unspent (air ++ air') j) : Unspent air j :=
  (Nat.succ_le_succ (raised_le air air' j)).trans_lt h

/-- A request of its own is counted. -/
theorem raised_snoc {rq : Rreq} (hp : p.request = some rq) (hsrc : rq.rqSrc = i) :
    raised (air ++ [(i, p)]) i = raised air i + 1 := by
  unfold raised
  rw [requests_snoc hp, List.countP_append, List.countP_singleton, if_pos (decide_eq_true ⟨rfl, hsrc⟩)]

namespace Corresponds

theorem nil (hb : ∀ i, bid i = 1) : Corresponds [] bid :=
  ⟨.nil, fun _ h => absurd h List.not_mem_nil, fun i _ => (hb i).le, fun _ h => absurd h List.not_mem_nil⟩

/-- Every request goes back to its source. -/
theorem origin (h : Corresponds air bid) {m : NsAddr × Rreq} (hm : m ∈ requests air) :
    ∃ o ∈ requests air, o.1 = m.2.rqSrc ∧ o.2.Akin m.2 := by
  obtain ⟨o, ho, hfirst, hkey, hk⟩ := h.named.origin m hm
  exact ⟨o, ho, hfirst.trans (congrArg Prod.fst hkey), hk⟩

/-- A packet that is no request, and whose reply is to a request sent. -/
theorem snoc (h : Corresponds air bid) (hp : p.request = none) (hr : ∀ rp, p.reply = some rp →
    ∃ m ∈ requests air, m.1 = p.daddr ∧ m.2.rqSrc = p.daddr ∧ rp.To m.2) : Corresponds (air ++ [(i, p)]) bid := by
  have hreq : requests (air ++ [(i, p)]) = requests air := by
    rw [requests_append, hp]
    exact List.append_nil _
  refine ⟨?_, ?_, fun j hj => (h.counted j hj.of_append).trans (Nat.succ_le_succ (raised_le air _ j)), fun sp hsp rp hrp => ?_⟩
  · rw [hreq]
    exact h.named.anti (fun _ => Unspent.of_append)
  · rw [hreq]
    exact fun m hm hun => h.below m hm hun.of_append
  · rw [hreq]
    rcases List.mem_append.1 hsp with hsp | hsp
    · exact h.solicited sp hsp rp hrp
    · obtain rfl := List.mem_singleton.1 hsp
      exact hr rp hrp

/-- A request that is appended to what corresponds. -/
theorem snoc_request {rq : Rreq} (h : Corresponds air bid) (hp : p.request = some rq) (hr : p.reply = none)
    (hnamed : Named matter (fun m m' => m.2.Akin m'.2) (fun m => m.1 = m.2.rqSrc) (fun k => Unspent (air ++ [(i, p)]) k.1)
      (requests air ++ [(i, rq)]))
    (hbid : ∀ j, Unspent (air ++ [(i, p)]) j → bid j ≤ bid' j ∧ bid' j ≤ raised (air ++ [(i, p)]) j + 1)
    (hlt : Unspent (air ++ [(i, p)]) rq.rqSrc → rq.rqBcastId < bid' rq.rqSrc) : Corresponds (air ++ [(i, p)]) bid' := by
  have hreq : requests (air ++ [(i, p)]) = requests air ++ [(i, rq)] := requests_snoc hp
  refine ⟨hreq ▸ hnamed, fun m hm hun => ?_, fun j hj => (hbid j hj).2, fun sp hsp rp hrp => ?_⟩
  · rw [hreq] at hm
    rcases List.mem_append.1 hm with hm | hm
    · exact (h.below m hm hun.of_append).trans_le (hbid _ hun).1
    · obtain rfl := List.mem_singleton.1 hm
      exact hlt hun
  · rw [hreq]
    rcases List.mem_append.1 hsp with hsp | hsp
    · obtain ⟨m, hm, hrest⟩ := h.solicited sp hsp rp hrp
      exact ⟨m, List.mem_append_left _ hm, hrest⟩
    · obtain rfl := List.mem_singleton.1 hsp
      rw [hr] at hrp
      cases hrp

end Corresponds

/-- The air once node `i` has handed these packets over, and the ids with its own. -/
def aired (net : Net) (i : NsAddr) (x : Exec) : List (NsAddr × Packet) := net.air ++ x.sent.map (fun p => (i, p))

def bids (net : Net) (i : NsAddr) (x : Exec) (j : NsAddr) : Nat := if j = i then x.bid else (net.node j).bid

theorem bids_start (net : Net) (i j : NsAddr) : net.bids i (net.start i) j = (net.node j).bid := by
  unfold bids
  split
  · rename_i hj
    rw [hj]
    rfl
  · rfl

/-- What a handler that runs on `inp` can have heard was handed over. -/
def Carries (net : Net) (inp : Input) : Prop :=
  ∀ p, inp = .recv p → p.ptype = .teaomdv → ∃ src q, (src, q) ∈ net.air ∧ q.ptype = p.ptype ∧ q.body = p.body ∧ q.daddr = p.daddr

variable {env : Env} {inp : Input} {x y : Exec}

theorem mem_requests_of_carries (hc : net.Carries inp) {q : Packet} {rq : Rreq} (hinp : inp = .recv q)
    (ht : q.ptype = .teaomdv) (hb : q.body = .rreq rq) : ∃ src, (src, rq) ∈ requests (net.aired i x) := by
  obtain ⟨src, q₀, hq, ht', hb', -⟩ := hc q hinp ht
  have hsent : (src, q₀) ∈ net.aired i x := List.mem_append_left _ hq
  exact ⟨src, mem_requests hsent (Packet.request_eq_some.2 ⟨ht'.trans ht, hb'.trans hb⟩)⟩

theorem aired_schedule (net : Net) (i : NsAddr) (x : Exec) (p : Packet) (t : Delay) :
    net.aired i (x.schedule p t) = net.aired i x ++ [(i, p)] := by
  unfold aired
  rw [Exec.sent_schedule, List.map_append, ← List.append_assoc]
  rfl

/-- **A packet handed over corresponds to what was heard.** -/
theorem corresponds_send (hc : net.Carries inp) (h : Corresponds (net.aired i x) bid) (hs : Exec.Sends inp x p) :
    Corresponds (net.aired i x ++ [(i, p)]) bid := by
  cases hs with
  | news hmute =>
    refine h.snoc (Packet.request_of_mute hmute) (fun rp hrp => ?_)
    rw [Packet.reply_of_mute hmute] at hrp
    cases hrp
  | @answer q rq rp hinp ht hb _ hbody hd hto =>
    have hnone : p.request = none := by
      unfold Packet.request
      rw [hbody]
    refine h.snoc hnone (fun rp' hrp => ?_)
    obtain rfl : rp = rp' := Body.rrep.inj (hbody.symm.trans (Packet.reply_eq_some.1 hrp).2)
    obtain ⟨src, hm⟩ := mem_requests_of_carries (i := i) (x := x) hc hinp ht hb
    obtain ⟨o, ho, hfirst, hk⟩ := h.origin hm
    exact ⟨o, ho, hfirst.trans hd.symm, hk.src.symm.trans hd.symm, hto.bcastId.trans hk.bcastId, hto.dst.trans hk.dst,
      hto.timestamp.trans hk.timestamp⟩
  | @request q rq rq' hinp ht hb hp hbody hk =>
    obtain ⟨src, hm⟩ := mem_requests_of_carries (i := i) (x := x) hc hinp ht hb
    have hnone : p.reply = none := by
      unfold Packet.reply
      rw [hbody]
    refine h.snoc_request (Packet.request_eq_some.2 ⟨hp, hbody⟩) hnone ?_ (fun j hj => ?_) (fun hun => ?_)
    · exact (h.named.anti (fun _ => Unspent.of_append)).copy (fun _ => Rreq.Akin.refl _) Rreq.Akin.symm Rreq.Akin.trans hm
        (Prod.ext hk.src.symm hk.bcastId.symm) hk
    · exact ⟨le_refl _, (h.counted j hj.of_append).trans (Nat.succ_le_succ (raised_le _ _ j))⟩
    · have := h.below _ hm
      rw [hk.src] at hun ⊢
      rw [hk.bcastId]
      exact this hun.of_append
  | @reply q rp rp' hinp ht hb _ hbody hd hk =>
    have hnone : p.request = none := by
      unfold Packet.request
      rw [hbody]
    refine h.snoc hnone (fun rp'' hrp => ?_)
    obtain rfl : rp' = rp'' := Body.rrep.inj (hbody.symm.trans (Packet.reply_eq_some.1 hrp).2)
    obtain ⟨src, q₀, hq, ht', hb', hd'⟩ := hc q hinp ht
    obtain ⟨m, hm, h1, h2, hto⟩ := h.solicited (src, q₀) (List.mem_append_left _ hq) rp
      (Packet.reply_eq_some.2 ⟨ht'.trans ht, hb'.trans hb⟩)
    have hdd : p.daddr = q₀.daddr := hd.trans hd'.symm
    exact ⟨m, hm, h1.trans hdd.symm, h2.trans hdd.symm, hk.bcastId.trans hto.bcastId, hk.dst.trans hto.dst,
      hk.timestamp.trans hto.timestamp⟩
  | data hp =>
    refine h.snoc ?_ (fun rp hrp => absurd (Packet.reply_eq_some.1 hrp).1 hp)
    cases hr : p.request with
    | none => rfl
    | some rq => exact absurd (Packet.request_eq_some.1 hr).1 hp

/-- A stroke keeps the correspondence: it numbers one request, hands over one packet, or does neither. -/
theorem corresponds_stroke (hc : net.Carries inp) (hs : Exec.Stroke env inp x y)
    (h : x.index = i ∧ Corresponds (net.aired i x) (net.bids i x)) :
    y.index = i ∧ Corresponds (net.aired i y) (net.bids i y) := by
  obtain ⟨hi, h⟩ := h
  have silent : ∀ {z : Exec}, z.index = x.index → z.sent = x.sent → z.bid = x.bid →
      z.index = i ∧ Corresponds (net.aired i z) (net.bids i z) := by
    intro z h1 h2 h3
    unfold aired bids
    rw [h2, h3]
    exact ⟨h1.trans hi, h⟩
  cases hs with
  | request _ hy =>
    obtain ⟨rt, -, hsought⟩ := Exec.exists_of_sendRequest hy
    rcases Exec.sendRequest_numbers hy with ⟨hbid, hsent⟩ | ⟨p, rq, hbid, hsent, hreq, hrep, hsrc, hid⟩
    · exact silent hsought.index hsent hbid
    refine ⟨hsought.index.trans hi, ?_⟩
    have hair : net.aired i y = net.aired i x ++ [(i, p)] := by
      unfold aired
      rw [hsent, List.map_append, ← List.append_assoc]
      rfl
    have hsrc : rq.rqSrc = i := hsrc.trans hi
    rw [hair]
    -- the counter does not wrap as long as the node has ids left
    have hself : net.bids i x i = x.bid := if_pos rfl
    have hnext : Unspent (net.aired i x ++ [(i, p)]) i →
        y.bid = x.bid + 1 ∧ x.bid + 1 ≤ raised (net.aired i x ++ [(i, p)]) i + 1 := by
      intro hun
      have hle := h.counted i hun.of_append
      rw [hself] at hle
      unfold Unspent at hun
      rw [raised_snoc hreq hsrc] at hun ⊢
      rw [hbid, u32_of_lt (by omega)]
      omega
    refine h.snoc_request hreq hrep ((h.named.anti (fun _ => Unspent.of_append)).raise (Rreq.Akin.refl rq) hsrc.symm
      (fun hun o ho heq => ?_)) (fun j hun => ?_) (fun hun => ?_)
    · -- the number is larger than any this node has used
      obtain ⟨h1, h2⟩ := Prod.mk.inj heq
      have hlt := h.below o ho (h1 ▸ hun.of_append)
      rw [h1.trans hsrc, h2, hid, hself] at hlt
      exact absurd hlt (lt_irrefl _)
    · by_cases hj : j = i
      · subst hj
        have := hnext hun
        rw [hself, show net.bids j y j = y.bid from if_pos rfl]
        omega
      · rw [show net.bids i y j = net.bids i x j from (if_neg hj).trans (if_neg hj).symm]
        exact ⟨le_refl _, (h.counted j hun.of_append).trans (Nat.succ_le_succ (raised_le _ _ j))⟩
    · rw [hsrc] at hun ⊢
      have := hnext hun
      rw [show net.bids i y i = y.bid from if_pos rfl]
      omega
  | @send p t hp =>
    rw [aired_schedule]
    exact ⟨hi, corresponds_send hc h hp⟩
  | hold => exact silent (Exec.Quiet.enque env x _).index (Exec.sent_enque env x _) (Exec.bid_enque env x _)
  | take => exact silent (Exec.Quiet.deque env x _).index (Exec.sent_deque env x _) (Exec.bid_deque env x _)
  | act ha => exact silent rfl (Exec.sent_act ha) rfl
  | mark | raise | add | meet | hear | note | judge | part | own | cache | answered | expire => exact silent rfl rfl rfl

/-- What arrives is in the air. -/
theorem carries_of_input (hinp : net.input ev = some inp) : net.Carries inp := by
  rintro p rfl ht
  obtain ⟨src, q, hq, rfl, -⟩ := recv_mem_air hinp ht
  exact ⟨src, q, hq, rfl, rfl, rfl⟩

/-- **Requests and replies correspond**, in any run. -/
theorem corresponds_of_reach {guard : Net → Event → Prop} (h : Reach inf guard net) :
    Corresponds net.air (fun i => (net.node i).bid) := by
  refine Runs.Reaches.invariant (P := fun net => Corresponds net.air (fun i => (net.node i).bid)) (.nil fun _ => rfl)
    (fun net ev net' hr ih _ hstep => ?_) h
  obtain ⟨inp, x, hinp, hx, rfl⟩ := step_eq_some hstep
  obtain ⟨htidy, hindex⟩ := tidy_of_reach hr ev.node
  have hstart : Corresponds (net.aired ev.node (net.start ev.node)) (net.bids ev.node (net.start ev.node)) := by
    have hair : net.aired ev.node (net.start ev.node) = net.air := List.append_nil _
    rw [hair, funext (bids_start net ev.node)]
    exact ih
  have hdata : (net.start ev.node).DataQueue := htidy.data
  have hend := (Exec.handle_strokes inp hdata x hx).invariant
    (P := fun z => z.index = ev.node ∧ Corresponds (net.aired ev.node z) (net.bids ev.node z))
    (fun _ _ h hs => corresponds_stroke (carries_of_input hinp) hs h) ⟨hindex, hstart⟩
  have hbid : net.bids ev.node x = fun i => ((net.commit ev.now ev.node x).node i).bid := by
    funext j
    show (if j = ev.node then x.bid else (net.node j).bid) = (if j = ev.node then x.toAgent else net.node j).bid
    split <;> rfl
  exact hbid ▸ hend.2

/-- The ids a handler at node `i` has cached were issued. -/
structure Caching (net : Net) (i : NsAddr) (x : Exec) : Prop where
  grown : Unspent (net.aired i x) i → (net.node i).bid ≤ x.bid
  issued : ∀ b ∈ x.bihead, Unspent (net.aired i x) b.src → b.id < net.bids i x b.src

theorem Caching.le_bids (h : net.Caching i x) {j : NsAddr} (hj : Unspent (net.aired i x) j) : (net.node j).bid ≤ net.bids i x j := by
  unfold bids
  split
  · rename_i heq
    subst heq
    exact h.grown hj
  · exact le_refl _

theorem Caching.mono (h : net.Caching i x) (hun : ∀ j, Unspent (net.aired i y) j → Unspent (net.aired i x) j)
    (hb : Unspent (net.aired i y) i → x.bid ≤ y.bid)
    (hids : ∀ b ∈ y.bihead, ∃ b' ∈ x.bihead, b'.src = b.src ∧ b'.id = b.id) : net.Caching i y := by
  refine ⟨fun hi => (h.grown (hun i hi)).trans (hb hi), fun b hm hj => ?_⟩
  obtain ⟨b', hm', hsrc, hid⟩ := hids b hm
  have hlt := h.issued b' hm' (hsrc ▸ hun _ hj)
  rw [hsrc, hid] at hlt
  refine hlt.trans_le ?_
  unfold bids
  split
  · rename_i heq
    exact hb (heq ▸ hj)
  · exact le_refl _

/-- A stroke caches the id of a request received, and no other. -/
theorem caching_stroke (hc : ∀ src bid, inp.Requests src bid → Unspent net.air src → bid < (net.node src).bid)
    (hs : Exec.Stroke env inp x y) (hx : x.index = i ∧ Corresponds (net.aired i x) (net.bids i x)) (h : net.Caching i x) :
    net.Caching i y := by
  have same : ∀ {z : Exec}, z.sent = x.sent → z.bid = x.bid → z.bihead = x.bihead → net.Caching i z := by
    intro z h1 h2 h3
    refine h.mono (fun j hj => ?_) (fun _ => h2.ge) (fun b hm => ⟨b, h3 ▸ hm, rfl, rfl⟩)
    unfold aired at hj
    rwa [h1] at hj
  cases hs with
  | request _ hy =>
    have hids : y.bihead = x.bihead := congrArg Prod.snd (Exec.sendRequest_self hy)
    rcases Exec.sendRequest_numbers hy with ⟨hbid, hsent⟩ | ⟨p, rq, hbid, hsent, hreq, -, hsrc, -⟩
    · exact same hsent hbid hids
    have hair : net.aired i y = net.aired i x ++ [(i, p)] := by
      unfold aired
      rw [hsent, List.map_append, ← List.append_assoc]
      rfl
    refine h.mono (fun j hj => ?_) (fun hun => ?_) (fun b hm => ⟨b, hids ▸ hm, rfl, rfl⟩)
    · rw [hair] at hj
      exact hj.of_append
    · rw [hair] at hun
      have hle := hx.2.counted i hun.of_append
      rw [show net.bids i x i = x.bid from if_pos rfl] at hle
      unfold Unspent at hun
      rw [raised_snoc hreq (hsrc.trans hx.1)] at hun
      rw [hbid, u32_of_lt (by omega)]
      exact Nat.le_succ _
  | cache hr =>
    refine ⟨h.grown, fun b hm hj => ?_⟩
    rcases List.mem_cons.1 hm with rfl | hm
    · exact (hc _ _ hr (Unspent.of_append hj)).trans_le (h.le_bids hj)
    · exact h.issued b hm hj
  | answered src bid =>
    refine h.mono (fun _ hj => hj) (fun _ => le_refl _) (fun b hm => ?_)
    rcases Keyed.mem_modifyFirst hm with hm | ⟨b', hm', rfl⟩
    · exact ⟨b, hm, rfl, rfl⟩
    · exact ⟨b', List.mem_of_find?_eq_some hm', rfl, rfl⟩
  | expire => exact h.mono (fun _ hj => hj) (fun _ => le_refl _) (fun b hm => ⟨b, List.mem_of_mem_filter hm, rfl, rfl⟩)
  | @hold p => exact same (Exec.sent_enque env x p) (Exec.bid_enque env x p) (congrArg Prod.snd (Exec.self_enque env x p))
  | @take d => exact same (Exec.sent_deque env x d) (Exec.bid_deque env x d) (congrArg Prod.snd (Exec.self_deque env x d))
  | @send p t _ =>
    refine h.mono (fun j hj => ?_) (fun _ => le_refl _) (fun b hm => ⟨b, hm, rfl, rfl⟩)
    rw [aired_schedule] at hj
    exact hj.of_append
  | act ha => exact same (Exec.sent_act ha) rfl rfl
  | mark | raise | add | meet | hear | note | judge | part | own => exact same rfl rfl rfl

/-- **A cached id was issued**: it is below what its source goes on with, in any run, unless the source has used them up. -/
theorem issued_of_reach {guard : Net → Event → Prop} (h : Reach inf guard net) :
    ∀ i, ∀ b ∈ (net.node i).bihead, Unspent net.air b.src → b.id < (net.node b.src).bid := by
  refine Runs.Reaches.invariant
    (P := fun net => ∀ i, ∀ b ∈ (net.node i).bihead, Unspent net.air b.src → b.id < (net.node b.src).bid)
    (fun _ _ hb => absurd hb List.not_mem_nil) (fun net ev net' hr ih _ hstep => ?_) h
  obtain ⟨inp, x, hinp, hx, rfl⟩ := step_eq_some hstep
  obtain ⟨htidy, hindex⟩ := tidy_of_reach hr ev.node
  have hcorr := corresponds_of_reach hr
  have hreq : ∀ src bid, inp.Requests src bid → Unspent net.air src → bid < (net.node src).bid := by
    rintro src bid ⟨p, rq, rfl, ht, hb, rfl, rfl⟩ hun
    obtain ⟨s, q, hq, ht', hb', -⟩ := carries_of_input hinp p rfl ht
    exact hcorr.below _ (mem_requests hq (Packet.request_eq_some.2 ⟨ht'.trans ht, hb'.trans hb⟩)) hun
  have hair : net.aired ev.node (net.start ev.node) = net.air := List.append_nil _
  have hstart : net.Caching ev.node (net.start ev.node) := by
    refine ⟨fun _ => le_refl _, fun b hm hun => ?_⟩
    rw [hair] at hun
    rw [bids_start]
    exact ih ev.node b hm hun
  have hbids : Corresponds (net.aired ev.node (net.start ev.node)) (net.bids ev.node (net.start ev.node)) := by
    rw [hair, funext (bids_start net ev.node)]
    exact hcorr
  have hdata : (net.start ev.node).DataQueue := htidy.data
  have hend := (Exec.handle_strokes inp hdata x hx).invariant
    (P := fun z => (z.index = ev.node ∧ Corresponds (net.aired ev.node z) (net.bids ev.node z)) ∧ net.Caching ev.node z)
    (fun _ _ h hs => ⟨corresponds_stroke (carries_of_input hinp) hs h.1, caching_stroke hreq hs h.1 h.2⟩)
    ⟨⟨hindex, hbids⟩, hstart⟩
  have hbid : ∀ j, ((net.commit ev.now ev.node x).node j).bid = net.bids ev.node x j := by
    intro j
    show (if j = ev.node then x.toAgent else net.node j).bid = if j = ev.node then x.bid else (net.node j).bid
    split <;> rfl
  intro i b hb hun
  rw [hbid]
  have hb : b ∈ (if i = ev.node then x.toAgent else net.node i).bihead := hb
  split at hb
  · exact hend.2.issued b hb hun
  · exact (ih i b hb (Unspent.of_append hun)).trans_le (hend.2.le_bids hun)

/-- **No reply is unsolicited**: every RREP in the air is on its way to a node that did ask, under this id and at this time,
for the destination the reply is about. -/
theorem solicited_of_reach {guard : Net → Event → Prop} (h : Reach inf guard net) :
    ∀ sp ∈ net.air, ∀ rp, sp.2.reply = some rp →
      ∃ q rq, (sp.2.daddr, q) ∈ net.air ∧ q.request = some rq ∧ rq.rqSrc = sp.2.daddr ∧ rp.To rq := by
  intro sp hsp rp hrp
  obtain ⟨m, hm, hfirst, hsrc, hto⟩ := (corresponds_of_reach h).solicited sp hsp rp hrp
  obtain ⟨q, hq, hqr⟩ := mem_air_of_requests hm
  exact ⟨q, m.2, hfirst ▸ hq, hqr, hsrc, hto⟩

theorem solicited_threeNodes : ∃ net, replay 65535 threeNodes = some net ∧
    (net.air.any (fun sp => sp.2.reply.any (fun rp => rp.rpDst ≠ sp.1))) = true ∧
    ∀ sp ∈ net.air, ∀ rp, sp.2.reply = some rp →
      ∃ q rq, (sp.2.daddr, q) ∈ net.air ∧ q.request = some rq ∧ rq.rqSrc = sp.2.daddr ∧ rp.To rq := by
  obtain ⟨net, hnet, hr, hfin⟩ := reach_of_obeys 65535 (fun _ _ => true)
    (fun net => net.air.any (fun sp => sp.2.reply.any (fun rp => rp.rpDst ≠ sp.1)))
    (fun net ev _ => (trivial : anyEvent net ev)) threeNodes (by decide +kernel)
  exact ⟨net, hnet, hfin, solicited_of_reach hr⟩

end Net

end TeAomdv

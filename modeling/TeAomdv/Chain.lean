import Mathlib.Tactic.Linarith
import TeAomdv.Answer
/-!
# Chain — the trust values carried along a chain of relays

A relay lowers the value a RREQ or RREP carries to the trust of the neighbour it has to do with, if it knows it; in a RREP
it puts a default, a tenth over the threshold, in the place of the value if it does not.
-/
namespace TeAomdv

open Runs (Trail)
open Fallible (Ends)

/-- The trust fields of a RREQ or RREP. -/
def Packet.RT (p : Packet) : ℚ :=
  match p.body with
  | .rreq rq => rq.RT
  | .rrep rp => rp.RT
  | _ => 0

def Packet.FPT (p : Packet) : ℚ :=
  match p.body with
  | .rreq rq => rq.FPT
  | .rrep rp => rp.FPT
  | _ => 0

def Packet.RPT (p : Packet) : ℚ :=
  match p.body with
  | .rreq rq => rq.RPT
  | .rrep rp => rp.RPT
  | _ => 0

def Packet.isRequest (p : Packet) : Bool :=
  p.ptype = .teaomdv && match p.body with
    | .rreq _ => true
    | _ => false

def Packet.isReply (p : Packet) : Bool :=
  p.ptype = .teaomdv && match p.body with
    | .rrep _ => true
    | _ => false

theorem Packet.isRequest_iff {p : Packet} : p.isRequest = true ↔ p.ptype = .teaomdv ∧ ∃ rq, p.body = .rreq rq := by
  unfold isRequest
  cases p.body <;> simp

theorem Packet.isReply_iff {p : Packet} : p.isReply = true ↔ p.ptype = .teaomdv ∧ ∃ rp, p.body = .rrep rp := by
  unfold isReply
  cases p.body <;> simp

namespace Agent

/-- The agent, on receiving `p`, sends `p'`. -/
def Passes (a : Agent) (p p' : Packet) : Prop :=
  ∃ env heap ptr y, (a.exec heap).handle env (.recv (p.received ptr)) = .ok y ∧ p' ∈ y.sent

/-- What the agent knows of a neighbour. -/
def nbLookup (a : Agent) (id : NsAddr) : Option Neighbor := (a.exec 0).nbLookup id

end Agent

/-- Some agent passes the RREQ `p` on as `p'`; `n` is what it knows of the neighbour that sent `p`. -/
def RequestHop (n : Option Neighbor) (p p' : Packet) : Prop :=
  ∃ a : Agent, a.Tidy ∧ a.Passes p p' ∧ p.isRequest ∧ p'.isRequest ∧ n = a.nbLookup p.saddr

/-- Some agent passes the RREP `p` on as `p'`; the pair is what it knows of the neighbour that sent `p`, and of the one
`p'` goes to. -/
def ReplyHop (n : Option Neighbor × Option Neighbor) (p p' : Packet) : Prop :=
  ∃ a : Agent, a.Tidy ∧ a.Passes p p' ∧ p.isReply ∧ p'.isReply ∧ n = (a.nbLookup p.prevHop, a.nbLookup p'.nextHop)

/-- The smaller of the value and the neighbour's trust, or the default if the neighbour is unknown. -/
def lowerOr (default : ℚ) (n : Option Neighbor) (t : ℚ) : ℚ :=
  match n with
  | none => default
  | some nb => min t nb.tv

theorem Rrep.FPT_lowerForward (rp : Rrep) (n : Option Neighbor) :
    (rp.lowerForward n).FPT = lowerOr (rp.RT + 1 / 10) n rp.FPT := by
  cases n <;> rfl

theorem Rrep.RPT_lowerReverse (rp : Rrep) (n : Option Neighbor) :
    (rp.lowerReverse n).RPT = lowerOr (rp.RT + 1 / 10) n rp.RPT := by
  cases n <;> rfl

theorem Agent.Tidy.carries {a : Agent} (ha : a.Tidy) (heap : Nat) (V : Packet → Prop) :
    (a.exec heap).Carries (fun _ _ => True) V :=
  ⟨fun _ _ _ _ => trivial, fun _ _ hm => absurd hm List.not_mem_nil, ha.data⟩

/-- Sending off data leaves what is known of a neighbour, or makes one known that is trusted fully. -/
theorem Exec.Spares.lowerOr {x y : Exec} {d : NsAddr} (h : Exec.Spares d x y) (default t : ℚ) (id : NsAddr) :
    TeAomdv.lowerOr default (y.nbLookup id) t = TeAomdv.lowerOr default (x.nbLookup id) t ∨
      x.nbLookup id = none ∧ TeAomdv.lowerOr default (y.nbLookup id) t = min t 1 := by
  have htrust := h.trust id
  have hknown := h.known id
  rw [Exec.trustOf_eq, Exec.trustOf_eq] at htrust
  unfold TeAomdv.lowerOr
  cases hx : x.nbLookup id with
  | none =>
    cases hy : y.nbLookup id with
    | none => exact .inl rfl
    | some nb =>
      rw [hx, hy] at htrust
      exact .inr ⟨rfl, congrArg (min t) htrust⟩
  | some nb =>
    rw [hx] at hknown htrust
    obtain ⟨nb', hy⟩ := Option.isSome_iff_exists.1 (hknown rfl)
    rw [hy] at htrust ⊢
    exact .inl (congrArg (min t) htrust)

section Hops

variable {n m : Option Neighbor} {p p' : Packet}

/-- A routing packet whose handler ends normally came in on the right ports. -/
theorem ports_of_handle {x y : Exec} {env : Env} {q : Packet} (ht : q.ptype = .teaomdv) (hy : x.handle env (.recv q) = .ok y) :
    q.sport = rtPort ∧ q.dport = rtPort := by
  unfold Exec.handle Exec.recv Exec.recvTEAOMDV at hy
  simp only [ht, if_true] at hy
  split at hy
  · cases hy
  · rename_i hport
    exact ⟨not_not.1 (not_or.1 hport).1, not_not.1 (not_or.1 hport).2⟩

/-- **What a relay makes of a request's RPT** if it knows the sender. -/
theorem RequestHop.trust (h : RequestHop n p p') : p'.RT = p.RT ∧ ∀ nb ∈ n, p'.RPT = min p.RPT nb.tv := by
  obtain ⟨a, ha, ⟨env, heap, ptr, y, hy, hsent⟩, hp, hp', rfl⟩ := h
  obtain ⟨ht, rq, hb⟩ := Packet.isRequest_iff.1 hp
  obtain ⟨ht', rq', hb'⟩ := Packet.isRequest_iff.1 hp'
  have hport := ports_of_handle (q := p.received ptr) ht hy
  have hy' : (a.exec heap).recvRequest env { p.received ptr with ttl := p.ttl - 1 } rq = .ok y :=
    (Exec.recv_rreq (p := p.received ptr) ht hport hb).symm.trans hy
  have hkeep := Exec.recvRequest_keeps (S := fun _ _ => True) (V := fun q => ∀ rq', q.body = .rreq rq' →
      rq'.RPT = (rq.lowerReverse (a.nbLookup p.saddr)).RPT ∧ rq'.RT = rq.RT)
    ⟨fun _ _ => trivial, fun _ _ _ => trivial, fun {q} hq rq' hb => ?_⟩ (fun _ _ _ => trivial) (fun q rp hb _ _ rq' hb' => ?_)
    (fun q rq₁ hb _ hRPT hRT rq' hb' => ?_) (ha.carries heap _) y hy'
  · obtain ⟨d, hd⟩ := Exec.mem_log_of_sent hsent
    obtain ⟨hRPT, hRT⟩ := hkeep.sent p' d hd ht' rq' hb'
    unfold Packet.RT Packet.RPT
    rw [hb, hb']
    refine ⟨hRT, fun nb hnb => hRPT.trans ?_⟩
    rw [Option.mem_def.1 hnb]
    rfl
  · unfold Packet.Mute at hq
    rw [hb] at hq
    exact hq.elim
  · rw [hb] at hb'
    cases hb'
  · rw [hb] at hb'
    obtain rfl := Body.rreq.inj hb'
    exact ⟨hRPT, hRT⟩

/-- The trust fields of the RREPs `recvReply` sends: its relay puts them in, and nothing else it does sends a RREP. -/
theorem recvReply_trust {x : Exec} (hx : x.toAgent.Tidy) (hlog : x.log = []) (env : Env) (q : Packet) (rp : Rrep) :
    Ends (fun y => ∀ p' ∈ y.sent, p'.ptype = .teaomdv → ∀ rp', p'.body = .rrep rp' → rp'.RT = rp.RT ∧
      rp'.FPT = lowerOr (rp.RT + 1 / 10) (x.nbLookup q.prevHop) rp.FPT ∧
      (rp'.RPT = lowerOr (rp.RT + 1 / 10) (x.nbLookup p'.nextHop) rp.RPT ∨
        x.nbLookup p'.nextHop = none ∧ rp'.RPT = min rp.RPT 1)) (x.recvReply env q rp) := by
  intro y hy p' hsent ht' rp' hb'
  obtain ⟨d, hd⟩ := Exec.mem_log_of_sent hsent
  have hspec := Exec.recvReply_spec env q rp hx
  split at hspec
  · obtain ⟨y₁, e, hy₁, -, hf⟩ := hspec
    rw [hy₁] at hy
    have hmute : ∀ q : Packet, (q.Mute ∨ ∃ t, Act.schedule q t ∈ x.log) → ∀ rp', q.body ≠ .rrep rp' := by
      rintro q (hq | ⟨t, hq⟩) rp' hb
      · unfold Packet.Mute at hq
        rw [hb] at hq
        exact hq
      · rw [hlog] at hq
        exact absurd hq List.not_mem_nil
    split at hy
    · obtain rfl := Except.ok.inj hy
      rcases List.mem_append.1 hd with hd | hd
      · exact absurd hb' (hmute p' (hf.mute.sent p' d hd ht') rp')
      · cases List.mem_singleton.1 hd
    · have hkeep := Exec.relayReply_keeps (S := fun _ _ => True) (V := fun q₁ => ∀ rp', q₁.body = .rrep rp' →
          rp'.FPT = (rp.lowerForward (x.nbLookup q.prevHop)).FPT ∧ rp'.RT = rp.RT ∧
            rp'.RPT = (rp.lowerReverse (y₁.nbLookup q₁.nextHop)).RPT)
        ⟨fun _ _ => trivial, fun _ _ _ => trivial, fun {q₁} hq rp' hb => ?_⟩ (fun q₁ rp₁ hb hFPT hRT hRPT _ _ rp' hb' => ?_)
        ⟨hf.mute.paths, fun q₁ t hq ht rp' hb => ?_, hf.mute.queue⟩ y hy
      · obtain ⟨hFPT, hRT, hRPT⟩ := hkeep.sent p' d hd ht' rp' hb'
        rw [Rrep.FPT_lowerForward] at hFPT
        rw [Rrep.RPT_lowerReverse] at hRPT
        refine ⟨hRT, hFPT, ?_⟩
        exact (hf.spares.lowerOr (rp.RT + 1 / 10) rp.RPT p'.nextHop).imp hRPT.trans (fun h => ⟨h.1, hRPT.trans h.2⟩)
      · exact absurd hb (hmute q₁ (.inl hq) rp')
      · rw [hb] at hb'
        obtain rfl := Body.rrep.inj hb'
        obtain ⟨t, hlow⟩ := Exec.lowerForward_eq rp (x.nbLookup q.prevHop)
        refine ⟨hFPT, hRT.trans (by rw [hlow]), hRPT.trans ?_⟩
        rw [Rrep.RPT_lowerReverse, Rrep.RPT_lowerReverse, hlow]
      · exact absurd hb (hmute q₁ (hf.mute.sent q₁ t hq ht) rp')
  · rcases hspec with ⟨z, hz, hlogz⟩ | ⟨s, hs⟩
    · rw [hz] at hy
      obtain rfl := Except.ok.inj hy
      rcases List.mem_append.1 hd with hd | hd
      · rw [hlogz, hlog] at hd
        exact absurd hd List.not_mem_nil
      · cases List.mem_singleton.1 hd
    · rw [hs] at hy
      cases hy

/-- **What a relay makes of a reply's FPT and RPT**; a neighbour the sending off of data made known is trusted fully. -/
theorem ReplyHop.trust (h : ReplyHop (n, m) p p') :
    p'.RT = p.RT ∧ p'.FPT = lowerOr (p.RT + 1 / 10) n p.FPT ∧
      (p'.RPT = lowerOr (p.RT + 1 / 10) m p.RPT ∨ m = none ∧ p'.RPT = min p.RPT 1) := by
  obtain ⟨a, ha, ⟨env, heap, ptr, y, hy, hsent⟩, hp, hp', hn⟩ := h
  obtain ⟨ht, rp, hb⟩ := Packet.isReply_iff.1 hp
  obtain ⟨ht', rp', hb'⟩ := Packet.isReply_iff.1 hp'
  obtain ⟨rfl, rfl⟩ := Prod.mk.inj hn
  have hport := ports_of_handle (q := p.received ptr) ht hy
  have hy' : (a.exec heap).recvReply env { p.received ptr with ttl := p.ttl - 1 } rp = .ok y :=
    (Exec.recv_rrep (p := p.received ptr) ht hport hb).symm.trans hy
  unfold Packet.RT Packet.FPT Packet.RPT
  rw [hb, hb']
  exact recvReply_trust (x := a.exec heap) ha rfl env _ rp y hy' p' hsent ht' rp' hb'

end Hops

/-! ## Along a chain -/

section Chains

variable {p p' : Packet}

theorem lowerOr_le_max (default : ℚ) (n : Option Neighbor) (t : ℚ) : lowerOr default n t ≤ max t default := by
  cases n with
  | none => exact le_max_right t default
  | some nb => exact (min_le_left t nb.tv).trans (le_max_left t default)

theorem lowerOr_le {n : Option Neighbor} (hn : n.isSome) (default t : ℚ) : lowerOr default n t ≤ t := by
  obtain ⟨nb, rfl⟩ := Option.isSome_iff_exists.1 hn
  exact min_le_left t nb.tv

/-- **A request's RPT along a chain of relays that know the sender**: the running minimum of the trust in each. -/
theorem request_chain {nbs : List Neighbor} (h : Trail (fun nb => RequestHop (some nb)) nbs p p') :
    p'.RPT = nbs.foldl (fun t nb => min t nb.tv) p.RPT ∧ p'.RPT ≤ p.RPT ∧ (p.RPT < p.RT → p'.RPT < p'.RT) := by
  have hle : p'.RT = p.RT ∧ p'.RPT ≤ p.RPT := by
    refine h.invariant (P := fun q => q.RT = p.RT ∧ q.RPT ≤ p.RPT) (fun nb _ a b hop ha => ?_) ⟨rfl, le_rfl⟩
    obtain ⟨hRT, hRPT⟩ := hop.trust
    refine ⟨hRT.trans ha.1, ?_⟩
    rw [hRPT nb rfl]
    exact (min_le_left a.RPT nb.tv).trans ha.2
  refine ⟨h.foldl (g := fun t nb => min t nb.tv) (fun nb a b hop => hop.trust.2 nb rfl), hle.2, fun hlt => ?_⟩
  rw [hle.1]
  exact hle.2.trans_lt hlt

theorem foldl_fixed (ns : List (Option Neighbor × Option Neighbor)) (r t : ℚ) :
    ns.foldl (fun (t : ℚ × ℚ) n => (t.1, lowerOr (t.1 + 1 / 10) n.1 t.2)) (r, t) =
      (r, ns.foldl (fun t n => lowerOr (r + 1 / 10) n.1 t) t) := by
  induction ns generalizing t with
  | nil => rfl
  | cons n ns ih => exact ih _

/-- What a chain of relays makes of one of the two values of a reply: at most the larger of its start and the default, so at
most 1, and over known neighbours never more than it was. -/
structure Dampened (known : Prop) (t r t' r' : ℚ) : Prop where
  rt : r' = r
  le_max : t' ≤ max t (r + 1 / 10)
  le_one : r ≤ 9 / 10 → t ≤ 1 → t' ≤ 1
  falls : known → t' ≤ t ∧ (t < r → t' < r')

theorem Dampened.of_le {known : Prop} {t r t' r' : ℚ} (hrt : r' = r) (hmax : t' ≤ max t (r + 1 / 10)) (hle : known → t' ≤ t) :
    Dampened known t r t' r' := by
  refine ⟨hrt, hmax, fun hr ht => hmax.trans (max_le ht (by linarith)), fun hk => ⟨hle hk, fun hlt => ?_⟩⟩
  rw [hrt]
  exact (hle hk).trans_lt hlt

/-- **A reply's FPT and RPT along a chain of relays.** -/
theorem reply_chain {ns : List (Option Neighbor × Option Neighbor)} (h : Trail ReplyHop ns p p') :
    p'.FPT = ns.foldl (fun t n => lowerOr (p.RT + 1 / 10) n.1 t) p.FPT ∧
      Dampened (∀ n ∈ ns, n.1.isSome) p.FPT p.RT p'.FPT p'.RT ∧ Dampened (∀ n ∈ ns, n.2.isSome) p.RPT p.RT p'.RPT p'.RT := by
  have hmax : p'.RT = p.RT ∧ p'.FPT ≤ max p.FPT (p.RT + 1 / 10) ∧ p'.RPT ≤ max p.RPT (p.RT + 1 / 10) := by
    refine h.invariant (P := fun q => q.RT = p.RT ∧ q.FPT ≤ max p.FPT (p.RT + 1 / 10) ∧ q.RPT ≤ max p.RPT (p.RT + 1 / 10))
      (fun (n, m) _ a b hop ha => ?_) ⟨rfl, le_max_left _ _, le_max_left _ _⟩
    obtain ⟨hrt, hfpt, hrpt⟩ := hop.trust
    obtain ⟨h1, h2, h3⟩ := ha
    refine ⟨hrt.trans h1, ?_, ?_⟩
    · rw [hfpt, h1]
      exact (lowerOr_le_max _ n _).trans (max_le h2 (le_max_right _ _))
    · rcases hrpt with h | ⟨-, h⟩
      · rw [h, h1]
        exact (lowerOr_le_max _ m _).trans (max_le h3 (le_max_right _ _))
      · rw [h]
        exact (min_le_left _ _).trans h3
  refine ⟨?_, .of_le hmax.1 hmax.2.1 (fun hknown => ?_), .of_le hmax.1 hmax.2.2 (fun hknown => ?_)⟩
  · have hfold := h.foldl (f := fun q => (q.RT, q.FPT)) (g := fun t n => (t.1, lowerOr (t.1 + 1 / 10) n.1 t.2))
      (fun (n, m) a b hop => Prod.ext hop.trust.1 hop.trust.2.1)
    rw [foldl_fixed] at hfold
    exact congrArg Prod.snd hfold
  · refine h.invariant (P := fun q => q.FPT ≤ p.FPT) (fun (n, m) hn a b hop ha => ?_) le_rfl
    rw [hop.trust.2.1]
    exact (lowerOr_le (hknown _ hn) _ _).trans ha
  · refine h.invariant (P := fun q => q.RPT ≤ p.RPT) (fun (n, m) hn a b hop ha => ?_) le_rfl
    have hm := hknown _ hn
    rcases hop.trust.2.2 with h | ⟨hnone, -⟩
    · rw [h]
      exact (lowerOr_le hm _ _).trans ha
    · simp only [hnone, Option.isSome_none, Bool.false_eq_true] at hm

/-- **The trust carried along a chain of relays** of any length, with any neighbour tables: RT as it is; the RPT of a request
over relays that know the sender; the FPT and RPT of a reply. -/
theorem trust_chain :
    (∀ (ns : List (Option Neighbor)) (p p' : Packet), Trail RequestHop ns p p' → p'.RT = p.RT) ∧
    (∀ (nbs : List Neighbor) (p p' : Packet), Trail (fun nb => RequestHop (some nb)) nbs p p' →
      p'.RPT = nbs.foldl (fun t nb => min t nb.tv) p.RPT ∧ p'.RPT ≤ p.RPT ∧ (p.RPT < p.RT → p'.RPT < p'.RT)) ∧
    (∀ (ns : List (Option Neighbor × Option Neighbor)) (p p' : Packet), Trail ReplyHop ns p p' →
      p'.FPT = ns.foldl (fun t n => lowerOr (p.RT + 1 / 10) n.1 t) p.FPT ∧
      Dampened (∀ n ∈ ns, n.1.isSome) p.FPT p.RT p'.FPT p'.RT ∧ Dampened (∀ n ∈ ns, n.2.isSome) p.RPT p.RT p'.RPT p'.RT) ∧
    ∀ (n m : Option Neighbor) (p p' : Packet), ReplyHop (n, m) p p' →
      p'.RPT = lowerOr (p.RT + 1 / 10) m p.RPT ∨ m = none ∧ p'.RPT = min p.RPT 1 :=
  ⟨fun _ p _ h => h.invariant (P := fun q => q.RT = p.RT) (fun _ _ _ _ hop ha => hop.trust.1.trans ha) rfl,
    fun _ _ _ h => request_chain h, fun _ _ _ h => reply_chain h, fun _ _ _ _ h => h.trust.2.2⟩

/-! ### A request of node 1 and its reply -/

/-- A new node with these neighbours and this trust in them. -/
def knowing (id : NsAddr) (nbs : List (NsAddr × ℚ)) : Agent :=
  { Agent.new id with nbhead := nbs.map (fun n => { nbAddr := n.1, nbExpire := 9, tv := n.2 }) }

theorem tidy_knowing {id : NsAddr} {nbs : List (NsAddr × ℚ)} (h : (nbs.map Prod.fst).Nodup) : (knowing id nbs).Tidy := by
  have hrep := Agent.Rep.new id
  refine ⟨⟨hrep.dsts, hrep.entries, ?_, hrep.ids, hrep.room⟩, fun _ hm => nomatch hm⟩
  show ((nbs.map _).map (fun nb : Neighbor => nb.nbAddr)).Nodup
  rw [List.map_map]
  exact h

/-- The request as it leaves node 1, for node 9. -/
def requestOut : Packet :=
  { ptr := 0, saddr := 1, daddr := ipBroadcast, sport := rtPort, dport := rtPort, ttl := 30, prevHop := 1
    body := .rreq ⟨0, 1, 9, 0, 1, 4, 0, 0, trustThreshold, 1, 1⟩ }

/-- A node takes in a packet. -/
def taking (p : Packet) : Call := { env := { inf := 65535, now := 1 }, heap := 1, inp := .recv (p.received 0) }

/-- A node takes in a packet: the node afterwards, and what it sends last. -/
def answering (a : Agent) (p : Packet) : Option (Agent × Packet) :=
  (a.call (taking p)).bind (fun a' => (a.outbox (taking p)).getLast?.map (fun p' => (a', p')))

/-- The same of a node that is known to answer. -/
def after (a : Agent) (p : Packet) : Agent × Packet := (answering a p).getD (a, p)

theorem passes_after {a : Agent} (h : (answering a p).isSome) : a.call (taking p) = some (after a p).1 ∧ a.Passes p (after a p).2 := by
  obtain ⟨⟨a', p'⟩, h⟩ := Option.isSome_iff_exists.1 h
  unfold after
  rw [h]
  obtain ⟨b, hb, h⟩ := Option.bind_eq_some_iff.1 h
  obtain ⟨q, hq, h⟩ := Option.map_eq_some_iff.1 h
  obtain ⟨rfl, rfl⟩ := Prod.mk.inj h
  obtain ⟨x, hx, -⟩ := Agent.call_eq_some hb
  have hm := List.mem_of_getLast? hq
  rw [Agent.outbox_of_ok hx] at hm
  exact ⟨hb, _, _, _, x, hx, hm⟩

theorem requestHop_after {a : Agent} (ha : a.Tidy)
    (h : ((answering a p).isSome && p.isRequest && (after a p).2.isRequest) = true) :
    RequestHop (a.nbLookup p.saddr) p (after a p).2 ∧ (after a p).1.Tidy := by
  obtain ⟨h, hp'⟩ := Bool.and_eq_true_iff.1 h
  obtain ⟨h, hp⟩ := Bool.and_eq_true_iff.1 h
  obtain ⟨hc, hpass⟩ := passes_after h
  exact ⟨⟨a, ha, hpass, hp, hp', rfl⟩, ha.call hc⟩

theorem replyHop_after {a : Agent} (ha : a.Tidy)
    (h : ((answering a p).isSome && p.isReply && (after a p).2.isReply) = true) :
    ReplyHop (a.nbLookup p.prevHop, a.nbLookup (after a p).2.nextHop) p (after a p).2 := by
  obtain ⟨h, hp'⟩ := Bool.and_eq_true_iff.1 h
  obtain ⟨h, hp⟩ := Bool.and_eq_true_iff.1 h
  exact ⟨a, ha, (passes_after h).2, hp, hp', rfl⟩

/-- The request goes on over nodes 5, 6 and 7, of which only 5 does not know the sender; the reply comes back over 7, which
does not know node 9, and 6. -/
theorem trust_chain_requestOut : ∃ p₁ p₃ r r₂ nbs ns,
    Trail RequestHop (none :: nbs.map some) requestOut p₃ ∧ p₃.RT = requestOut.RT ∧
    Trail (fun nb => RequestHop (some nb)) nbs p₁ p₃ ∧ nbs.map (·.tv) = [9 / 10, 4 / 5] ∧
    p₃.RPT = nbs.foldl (fun t nb => min t nb.tv) p₁.RPT ∧
    Trail ReplyHop ns r r₂ ∧ ns.map (fun n => (n.1.map (·.tv), n.2.map (·.tv))) =
      [(none, some (4 / 5)), (some (3 / 4), some (9 / 10))] ∧
    r₂.FPT = 3 / 4 ∧ r₂.FPT ≤ max r.FPT (r.RT + 1 / 10) ∧ r₂.RPT ≤ r.RPT := by
  let n₅ := knowing 5 []
  let n₆ := knowing 6 [(5, 9 / 10), (7, 3 / 4)]
  let n₇ := knowing 7 [(6, 4 / 5)]
  let m₅ := after n₅ requestOut
  let m₆ := after n₆ m₅.2
  let m₇ := after n₇ m₆.2
  let r := (after (.new 9) m₇.2).2
  let r₁ := (after m₇.1 r).2
  let r₂ := (after m₆.1 r₁).2
  obtain ⟨h₅, -⟩ : RequestHop (n₅.nbLookup requestOut.saddr) requestOut m₅.2 ∧ m₅.1.Tidy :=
    requestHop_after (tidy_knowing (by decide)) (by decide +kernel)
  obtain ⟨h₆, t₆⟩ : RequestHop (n₆.nbLookup m₅.2.saddr) m₅.2 m₆.2 ∧ m₆.1.Tidy :=
    requestHop_after (tidy_knowing (by decide)) (by decide +kernel)
  obtain ⟨h₇, t₇⟩ : RequestHop (n₇.nbLookup m₆.2.saddr) m₆.2 m₇.2 ∧ m₇.1.Tidy :=
    requestHop_after (tidy_knowing (by decide)) (by decide +kernel)
  have hr₁ : ReplyHop (m₇.1.nbLookup r.prevHop, m₇.1.nbLookup r₁.nextHop) r r₁ := replyHop_after t₇ (by decide +kernel)
  have hr₂ : ReplyHop (m₆.1.nbLookup r₁.prevHop, m₆.1.nbLookup r₂.nextHop) r₁ r₂ := replyHop_after t₆ (by decide +kernel)
  obtain ⟨a, ha, hta⟩ := Option.map_eq_some_iff.1 (show (n₆.nbLookup m₅.2.saddr).map (·.tv) = some (9 / 10) by decide +kernel)
  obtain ⟨b, hb, htb⟩ := Option.map_eq_some_iff.1 (show (n₇.nbLookup m₆.2.saddr).map (·.tv) = some (4 / 5) by decide +kernel)
  rw [ha] at h₆
  rw [hb] at h₇
  have hknown : Trail (fun nb => RequestHop (some nb)) [a, b] m₅.2 m₇.2 := .cons h₆ (.cons h₇ (.nil _))
  have hrequest : Trail RequestHop [none, some a, some b] requestOut m₇.2 := .cons h₅ (.cons h₆ (.cons h₇ (.nil _)))
  have hreply : Trail ReplyHop _ r r₂ := .cons hr₁ (.cons hr₂ (.nil _))
  obtain ⟨-, hfpt, hrpt⟩ := trust_chain.2.2.1 _ _ _ hreply
  refine ⟨m₅.2, m₇.2, r, r₂, [a, b], _, hrequest, trust_chain.1 _ _ _ hrequest, hknown, ?_,
    (trust_chain.2.1 _ _ _ hknown).1, hreply, by decide +kernel, by decide +kernel, hfpt.le_max, (hrpt.falls ?_).1⟩
  · simp only [List.map_cons, List.map_nil, hta, htb]
  · decide +kernel

/-- **A default launders what a reply has gathered**: its FPT falls below RT at node 7 and is above RT after node 6, which does
not know node 7; its RPT rises there too. -/
theorem laundered_reply : ∃ r r₁ r₂ ns n m, Trail ReplyHop ns r r₁ ∧ ReplyHop (n, m) r₁ r₂ ∧
    r.FPT ≤ 1 ∧ r₁.FPT < r₁.RT ∧ r₂.RT ≤ r₂.FPT ∧ r₁.FPT < r₂.FPT ∧ r₁.RPT < r₂.RPT := by
  let n₆ := knowing 6 []
  let n₇ := knowing 7 [(9, 13 / 20), (6, 7 / 10)]
  let m₆ := after n₆ requestOut
  let m₇ := after n₇ m₆.2
  let r := (after (.new 9) m₇.2).2
  let r₁ := (after m₇.1 r).2
  let r₂ := (after m₆.1 r₁).2
  obtain ⟨-, t₆⟩ : RequestHop (n₆.nbLookup requestOut.saddr) requestOut m₆.2 ∧ m₆.1.Tidy :=
    requestHop_after (tidy_knowing (by decide)) (by decide +kernel)
  obtain ⟨-, t₇⟩ : RequestHop (n₇.nbLookup m₆.2.saddr) m₆.2 m₇.2 ∧ m₇.1.Tidy :=
    requestHop_after (tidy_knowing (by decide)) (by decide +kernel)
  have hr₁ : ReplyHop (m₇.1.nbLookup r.prevHop, m₇.1.nbLookup r₁.nextHop) r r₁ := replyHop_after t₇ (by decide +kernel)
  have hr₂ : ReplyHop (m₆.1.nbLookup r₁.prevHop, m₆.1.nbLookup r₂.nextHop) r₁ r₂ := replyHop_after t₆ (by decide +kernel)
  exact ⟨r, r₁, r₂, _, _, _, .cons hr₁ (.nil _), hr₂, by decide +kernel, by decide +kernel, by decide +kernel,
    by decide +kernel, by decide +kernel⟩

end Chains

end TeAomdv

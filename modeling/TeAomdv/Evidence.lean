import TeAomdv.Unread
/-!
# Evidence — RCOMs and PROBs between two rounds of `set_trust`

What a RCOM or a PROB adds to the evidence of the neighbours depends on the standing of its sender only, and no call
between two rounds changes that.  So what such a run makes of the neighbours is what its other calls make of them, with
the sum of what its RCOMs and PROBs add (`Agent.Between.gathers`), in whatever order they came.
-/
namespace TeAomdv

open Fallible (Pairs)

namespace Neighbor

/-- A neighbour's trust value and the terms it is mixed from, under its address. -/
def trust (nb : Neighbor) : NsAddr × ℚ × Option ℚ × Option ℚ × Option ℚ × Option ℚ :=
  (nb.nbAddr, nb.tv, nb.directTrust, nb.recommenTrust, nb.deliveryRatio, nb.activityDegree)

end Neighbor

/-! ## What a packet adds -/

/-- What a recommendation is tested and weighed by: the trust value and the direct trust of a neighbour, none of a stranger. -/
abbrev Standing := NsAddr → Option (ℚ × Option ℚ)

namespace Standing

/-- This for one neighbour, and nothing for the others; nothing for a stranger. -/
def only (s : Standing) (id : NsAddr) (e : Evidence) (id' : NsAddr) : Evidence := if id' = id ∧ (s id').isSome then e else 0

/-- One neighbour recommended with direct trust `r.2` by a neighbour of weight `w`. -/
def recommended (s : Standing) (w : ℚ) (r : NsAddr × ℚ) : NsAddr → Evidence :=
  s.only r.1 ⟨w * r.2, w, 0, if trustThreshold ≤ r.2 then 1 else 0, 0⟩

end Standing

/-- What a RCOM or PROB adds to the evidence of each neighbour. -/
def Packet.adds (s : Standing) (p : Packet) : NsAddr → Evidence :=
  match p.body with
  | .prob => s.only p.saddr ⟨0, 0, 1, 0, 0⟩
  | .rcom rc =>
    match s p.saddr with
    | none => 0
    | some (tv, dt) =>
      if trustThreshold ≤ tv then
        s.only p.saddr ⟨0, 0, 0, 0, rc.itNum⟩ + (rc.nbs.map (s.recommended (dt.getD 0))).sum
      else 0
  | _ => 0

/-- The RCOM or PROB is well addressed, and a RCOM that is heeded has no more slots than there are. -/
def Packet.Readable (s : Standing) (p : Packet) : Prop :=
  (p.sport = rtPort ∧ p.dport = rtPort) ∧
    match p.body with
    | .rcom rc => ∀ e ∈ s p.saddr, trustThreshold ≤ e.1 → rc.nbs.length ≤ maxNb
    | _ => True

namespace Exec

variable {δ ε : NsAddr → Evidence} {env : Env} {x y z : Exec} {id : NsAddr} {p : Packet} {s : Standing}

def standing (x : Exec) : Standing := fun id => (x.nbLookup id).map (fun nb => (nb.tv, nb.directTrust))

namespace Kin

theorem refl (x : Exec) : Kin 0 x x where
  rest := rfl
  nbs := List.forall₂_same.2 (fun nb _ => ⟨nb.nbExpire, nb.plus_zero.symm⟩)
  absent _ _ := rfl

theorem addrs (h : Kin δ x y) : y.nbhead.map (·.nbAddr) = x.nbhead.map (·.nbAddr) := by
  have hnbs := h.nbs
  generalize x.nbhead = l, y.nbhead = l' at hnbs
  induction hnbs with
  | nil => rfl
  | cons hnb _ ih => rw [List.map_cons, List.map_cons, hnb.addr, ih]

theorem standing (h : Kin δ x y) : y.standing = x.standing :=
  funext (fun id => h.ask id (Option.map (fun nb => (nb.tv, nb.directTrust))) (fun _ _ _ => rfl))

theorem trans (h : Kin δ x y) (h' : Kin ε y z) : Kin (δ + ε) x z where
  rest := by
    rw [h'.rest, h.rest]
    rfl
  nbs := by
    have hheavy : ∀ a b c : Neighbor, a.Heavier δ b → b.Heavier ε c → a.Heavier (δ + ε) c := by
      rintro a _ _ ⟨t, rfl⟩ ⟨t', rfl⟩
      exact ⟨t', a.plus_plus _ _ _ _⟩
    exact Keyed.forall₂_trans hheavy h.nbs h'.nbs
  absent id hnone := by
    show δ id + ε id = 0
    rw [h.absent id hnone, h'.absent id ((h.none_iff id).2 hnone), add_zero]

/-- The agents they leave, at the start of another handler. -/
theorem exec (h : Kin δ x y) (heap : Nat) : Kin δ (x.toAgent.exec heap) (y.toAgent.exec heap) :=
  h.same (f := fun z => z.toAgent.exec heap) (fun _ _ => rfl)

/-- Evidence added to one neighbour. -/
theorem gain (hx : (x.nbhead.map (·.nbAddr)).Nodup) (hs : x.standing = s) (id : NsAddr) {f : Neighbor → Neighbor}
    {e : Evidence} (hf : ∀ nb, ∃ t, f nb = nb.plus e t) : Kin (s.only id e) x (x.nbModify id f) := by
  subst hs
  refine ⟨rfl, ?_, fun id' hnone => ?_⟩
  · unfold Exec.nbModify
    rw [Keyed.modifyFirst_eq_map Neighbor.nbAddr hx, List.forall₂_map_right_iff]
    refine List.forall₂_same.2 (fun nb hnb => ?_)
    have hfind : x.nbLookup nb.nbAddr = some nb := Keyed.find?_of_mem_nodup Neighbor.nbAddr hx hnb
    unfold Neighbor.Heavier Standing.only Exec.standing
    rw [hfind]
    by_cases hid : nb.nbAddr = id
    · rw [if_pos hid, if_pos ⟨hid, rfl⟩]
      exact hf nb
    · rw [if_neg hid, if_neg (fun h => hid h.1)]
      exact ⟨nb.nbExpire, nb.plus_zero.symm⟩
  · unfold Standing.only Exec.standing
    rw [hnone]
    exact if_neg (fun h => nomatch h.2)

end Kin

theorem recommends_gain (w : ℚ) : ∀ (nbs : List (NsAddr × ℚ)) {x : Exec}, (x.nbhead.map (·.nbAddr)).Nodup → x.standing = s →
    Kin (nbs.map (s.recommended w)).sum x (nbs.foldl (recommend w) x)
  | [], x, _, _ => .refl x
  | r :: nbs, x, hx, hs => by
    have h : Kin (s.recommended w r) x (recommend w x r) := by
      refine Kin.gain hx hs r.1 (fun nb => ⟨nb.nbExpire, ?_⟩)
      unfold Neighbor.plus
      simp only [add_zero]
      split <;> simp
    rw [List.map_cons, List.sum_cons]
    exact h.trans (recommends_gain w nbs (by rwa [h.addrs]) (h.standing.trans hs))

theorem recvRcom_gain (hx : (x.nbhead.map (·.nbAddr)).Nodup) (hs : x.standing = s)
    (hjudged : ∀ nb ∈ x.nbhead, nb.directTrust.isSome) {rc : Recommen} (hb : p.body = .rcom rc)
    (hy : x.recvRcom env p rc = .ok y) : ∃ z, Kin (p.adds s) x z ∧ y = z.free p := by
  have hsaddr : s p.saddr = (x.nbLookup p.saddr).map (fun nb => (nb.tv, nb.directTrust)) := congrFun hs.symm _
  unfold recvRcom at hy
  unfold Packet.adds
  rw [hb]
  simp only
  rw [hsaddr]
  cases hnb : x.nbLookup p.saddr with
  | none =>
    rw [hnb] at hy
    exact ⟨x, .refl x, (Except.ok.inj hy).symm⟩
  | some nb =>
    obtain ⟨dt, hdt⟩ := Option.isSome_iff_exists.1 (hjudged nb (List.mem_of_find?_eq_some hnb))
    rw [hnb] at hy
    simp only [hdt, Option.getD_some] at hy
    simp only [Option.map_some, hdt, Option.getD_some]
    by_cases htv : trustThreshold ≤ nb.tv
    · rw [if_pos htv] at hy ⊢
      split at hy
      · cases hy
      · have hone : Kin (s.only p.saddr ⟨0, 0, 0, 0, rc.itNum⟩) x
            (x.nbModify p.saddr (fun nb => { nb with interactNbs := nb.interactNbs + rc.itNum })) := by
          refine Kin.gain hx hs p.saddr (fun nb => ⟨nb.nbExpire, ?_⟩)
          unfold Neighbor.plus
          simp only [add_zero]
        exact ⟨_, hone.trans (recommends_gain dt rc.nbs (by rwa [hone.addrs]) (hone.standing.trans hs)), (Except.ok.inj hy).symm⟩
    · rw [if_neg htv] at hy ⊢
      exact ⟨x, .refl x, (Except.ok.inj hy).symm⟩

/-- **What a RCOM or PROB does**: it adds to the evidence, and its packet is freed. -/
theorem recv_gain (hx : (x.nbhead.map (·.nbAddr)).Nodup) (hs : x.standing = s)
    (hjudged : ∀ nb ∈ x.nbhead, nb.directTrust.isSome) (hp : p.testifies = true) (hy : x.recv env p = .ok y) :
    ∃ z q, Kin (p.adds s) x z ∧ y = z.free q := by
  obtain ⟨htype, hbody⟩ := (Bool.and_eq_true _ _).mp hp
  unfold recv at hy
  rw [if_pos (of_decide_eq_true htype)] at hy
  unfold recvTEAOMDV at hy
  split at hy
  · cases hy
  cases hb : p.body with
  | rcom rc =>
    simp only [hb] at hy
    obtain ⟨z, hz, hfree⟩ := recvRcom_gain (p := { p with ttl := p.ttl - 1, body := .rcom rc }) hx hs hjudged rfl hy
    refine ⟨z, _, ?_, hfree⟩
    unfold Packet.adds at hz ⊢
    rw [hb]
    exact hz
  | prob =>
    simp only [hb] at hy
    refine ⟨_, _, ?_, (Except.ok.inj hy).symm⟩
    unfold Packet.adds
    rw [hb]
    refine Kin.gain hx hs p.saddr (fun nb => ⟨env.now + helloInterval, ?_⟩)
    unfold Neighbor.plus
    simp only [add_zero]
  | rreq | rrep | rerr | hello | pta | payload =>
    rw [hb] at hbody
    cases hbody

/-- A RCOM or PROB is taken without a fault just when nothing past its slots is read. -/
theorem recv_ok_iff (hs : x.standing = s) (hp : p.testifies = true) : (∃ y, x.recv env p = .ok y) ↔ p.Readable s := by
  obtain ⟨htype, hbody⟩ := (Bool.and_eq_true _ _).mp hp
  have hsaddr : s p.saddr = (x.nbLookup p.saddr).map (fun nb => (nb.tv, nb.directTrust)) := congrFun hs.symm _
  unfold recv Packet.Readable
  rw [if_pos (of_decide_eq_true htype)]
  unfold recvTEAOMDV
  by_cases hport : p.sport = rtPort ∧ p.dport = rtPort
  · simp only
    rw [if_neg (fun h => h.elim (· hport.1) (· hport.2)), and_iff_right hport]
    cases hb : p.body with
    | prob => exact iff_of_true ⟨_, rfl⟩ trivial
    | rcom rc =>
      simp only
      unfold recvRcom
      rw [hsaddr]
      cases x.nbLookup p.saddr with
      | none => exact iff_of_true ⟨_, rfl⟩ (fun _ h => nomatch h)
      | some nb =>
        simp only [Option.map_some, Option.mem_def, Option.some.injEq, forall_eq']
        by_cases htv : trustThreshold ≤ nb.tv
        · rw [if_pos htv, imp_iff_right htv]
          split
          · rename_i hlen
            exact iff_of_false (fun ⟨_, h⟩ => nomatch h) (not_le.2 hlen)
          · rename_i hlen
            exact iff_of_true ⟨_, rfl⟩ (not_lt.1 hlen)
        · rw [if_neg htv]
          exact iff_of_true ⟨_, rfl⟩ (fun h => absurd h htv)
    | rreq | rrep | rerr | hello | pta | payload =>
      rw [hb] at hbody
      cases hbody
  · rw [if_pos (not_and_or.1 hport)]
    exact iff_of_false (fun ⟨_, h⟩ => nomatch h) (fun h => hport h.1)

/-! ## What changes no standing -/

theorem Stride.standing {k : Deed} (hs : Stride env k x y) (hpart : k ≠ .part id) (hround : k ≠ .observe id .round)
    (hid : x.standing id ≠ none) : y.standing id = x.standing id := by
  unfold Exec.standing at hid ⊢
  rcases hs.entry hpart hround with h | ⟨nb, o, hnb, ho, h⟩ | ⟨hnone, -⟩
  · rw [h]
  · rw [h, hnb, Option.map_some, Option.map_some, nb.tv_observe env.now ho, nb.directTrust_observe env.now ho]
  · rw [hnone] at hid
    exact absurd rfl hid

theorem Goes.standing {K : Deed → Prop} (h : Goes env K x y) (hK : ∀ k, K k → k ≠ .part id ∧ k ≠ .observe id .round)
    (hid : x.standing id ≠ none) : y.standing id = x.standing id := by
  induction h with
  | refl => rfl
  | tail _ hs ih =>
    obtain ⟨k, hk, hs⟩ := hs
    exact (hs.standing (hK k hk).1 (hK k hk).2 (by rwa [ih])).trans ih

/-- **A handler that is no round and forgets no one** leaves every standing as it was, once it inserts no one. -/
theorem handle_standing {inp : Input} (hinp : inp.blind = true) (hy : x.handle env inp = .ok y)
    (haddrs : y.nbhead.map (·.nbAddr) = x.nbhead.map (·.nbAddr)) : y.standing = x.standing := by
  have stranger : ∀ {z : Exec} {id : NsAddr}, z.standing id = none ↔ id ∉ z.nbhead.map (·.nbAddr) := by
    intro z id
    unfold Exec.standing nbLookup
    rw [Option.map_eq_none_iff, List.find?_eq_none, List.mem_map]
    simp
  funext id
  by_cases hid : x.standing id = none
  · rw [hid, stranger, haddrs]
    exact stranger.1 hid
  · refine (handle_goes inp y hy).standing (fun k hk => ⟨?_, ?_⟩) hid
    · rintro rfl
      obtain ⟨ifq, rfl⟩ := hk
      cases hinp
    · rintro rfl
      obtain rfl : inp = .timer .trust := hk
      cases hinp

/-- `nb_purge` that finds no one expired. -/
theorem nbPurge_none (ifq : NsAddr → List Packet) (h : ∀ nb ∈ x.nbhead, env.now < nb.nbExpire) : x.nbPurge env ifq = .ok x := by
  unfold nbPurge
  generalize x.nbhead = l at h
  induction l with
  | nil => rfl
  | cons nb l ih =>
    rw [List.foldlM_cons, if_neg (not_le.2 (h nb List.mem_cons_self))]
    exact ih (fun nb' hnb' => h nb' (List.mem_cons_of_mem _ hnb'))

end Exec

/-! ## Between two rounds -/

/-- The RCOM or PROB that the call hands to the agent. -/
def Call.testimony (c : Call) : Option Packet :=
  match c.inp with
  | .recv p => if p.testifies then some p else none
  | _ => none

/-- The call is no testimony, and neither timer that reads the evidence or the expiry. -/
def Call.blind (c : Call) : Bool := c.inp.blind

theorem Call.blind_cases (c : Call) : c.blind = true ∧ c.testimony = none ∨
    (∃ p, c.inp = .recv p ∧ p.testifies = true ∧ c.blind = false ∧ c.testimony = some p) ∨
    (∃ t, c.inp = .timer t ∧ (t = .trust ∨ ∃ ifq, t = .neighbor ifq) ∧ c.blind = false ∧ c.testimony = none) := by
  obtain ⟨env, heap, inp⟩ := c
  unfold blind testimony Input.blind
  cases inp with
  | recv p =>
    cases hp : p.testifies with
    | false => exact .inl ⟨by simp [hp], by simp [hp]⟩
    | true => exact .inr (.inl ⟨p, rfl, hp, by simp [hp], by simp [hp]⟩)
  | tap | rtLlFailed => exact .inl ⟨rfl, rfl⟩
  | timer t =>
    cases t with
    | broadcast | hello | probe | routeCache | localRepair => exact .inl ⟨rfl, rfl⟩
    | trust => exact .inr (.inr ⟨_, rfl, .inl rfl, rfl, rfl⟩)
    | neighbor ifq => exact .inr (.inr ⟨_, rfl, .inr ⟨ifq, rfl⟩, rfl, rfl⟩)

namespace Agent

/-- The call is no round of `set_trust`, and the agent forgets no neighbour and gets to know none. -/
def keeps (a : Agent) (c : Call) : Bool :=
  match c.inp with
  | .timer .trust => false
  | .timer (.neighbor _) => a.nbhead.all (fun nb => c.env.now < nb.nbExpire)
  | _ => (a.call c).all (fun a' => a'.nbhead.map (·.nbAddr) = a.nbhead.map (·.nbAddr))

/-- The calls from one round of `set_trust` to the next. -/
def Between : List Call → Agent → Agent → Prop := Runs.Trail (fun c a a' => a.keeps c = true ∧ a.call c = some a')

/-- What the RCOMs and PROBs among the calls add to the evidence of each neighbour. -/
def gathered (s : Standing) (cs : List Call) : NsAddr → Evidence := ((cs.filterMap Call.testimony).map (Packet.adds s)).sum

/-- The agent is `b` but for this evidence and when neighbours expire, and no neighbour's standing is another than in `a`. -/
structure Gathering (a : Agent) (δ : NsAddr → Evidence) (b c : Agent) : Prop where
  kin : Exec.Kin δ (b.exec 0) (c.exec 0)
  standing : (c.exec 0).standing = (a.exec 0).standing
  addrs : c.nbhead.map (·.nbAddr) = a.nbhead.map (·.nbAddr)

variable {a b b' c c' : Agent} {k : Call} {δ : NsAddr → Evidence}

theorem Gathering.judged (h : Gathering a δ b c) (hx : (a.nbhead.map (·.nbAddr)).Nodup)
    (hjudged : ∀ nb ∈ a.nbhead, nb.directTrust.isSome) : ∀ nb ∈ c.nbhead, nb.directTrust.isSome := by
  intro nb hnb
  have hfind : (c.exec 0).nbLookup nb.nbAddr = some nb := Keyed.find?_of_mem_nodup Neighbor.nbAddr (h.addrs ▸ hx) hnb
  have hs := congrFun h.standing nb.nbAddr
  unfold Exec.standing at hs
  rw [hfind] at hs
  obtain ⟨nb', hnb', heq⟩ := Option.map_eq_some_iff.1 hs.symm
  rw [← (Prod.mk.inj heq).2]
  exact hjudged nb' (List.mem_of_find?_eq_some hnb')

/-- One more RCOM or PROB. -/
theorem Gathering.gain (h : Gathering a δ b c) (hx : (a.nbhead.map (·.nbAddr)).Nodup)
    (hjudged : ∀ nb ∈ a.nbhead, nb.directTrust.isSome) {p : Packet} (hp : p.testifies = true) (hinp : k.inp = .recv p)
    (hk : c.call k = some c') : Gathering a (δ + p.adds (a.exec 0).standing) b c' := by
  obtain ⟨y, hy, rfl⟩ := call_eq_some hk
  rw [hinp] at hy
  obtain ⟨z, q, hz, rfl⟩ := Exec.recv_gain (x := c.exec k.heap) (s := (a.exec 0).standing) (h.addrs ▸ hx) h.standing
    (h.judged hx hjudged) hp hy
  have hz' : Exec.Kin (p.adds (a.exec 0).standing) (c.exec 0) (z.toAgent.exec 0) := hz.exec 0
  exact ⟨h.kin.trans hz', hz'.standing.trans h.standing, hz'.addrs.trans h.addrs⟩

/-- It is taken just when it is readable to a node of this standing. -/
theorem Gathering.call_isSome_iff (h : Gathering a δ b c) {p : Packet} (hp : p.testifies = true) (hinp : k.inp = .recv p) :
    (∃ c', c.call k = some c') ↔ p.Readable (a.exec 0).standing := by
  have hok : (∃ y, (c.exec k.heap).recv k.env p = .ok y) ↔ p.Readable (a.exec 0).standing := Exec.recv_ok_iff h.standing hp
  rw [← hok]
  have hhandle : (c.exec k.heap).handle k.env k.inp = (c.exec k.heap).recv k.env p := by rw [hinp]; rfl
  unfold Agent.call
  rw [hhandle]
  cases (c.exec k.heap).recv k.env p with
  | ok y => exact iff_of_true ⟨_, rfl⟩ ⟨_, rfl⟩
  | error e => exact iff_of_false (fun ⟨_, h⟩ => nomatch h) (fun ⟨_, h⟩ => nomatch h)

/-- One more call that reads no evidence, here and there. -/
theorem Gathering.calls (h : Gathering a δ b c) (hblind : k.blind = true) :
    Option.Rel (fun b' c' => Exec.Kin δ (b'.exec 0) (c'.exec 0)) (b.call k) (c.call k) := by
  have hpair : Pairs (Exec.Kin δ) ((b.exec k.heap).handle k.env k.inp) ((c.exec k.heap).handle k.env k.inp) :=
    Exec.handle_unread (h.kin.exec k.heap) hblind
  unfold Agent.call
  generalize (b.exec k.heap).handle k.env k.inp = m, (c.exec k.heap).handle k.env k.inp = m' at hpair
  cases m with
  | ok x => cases m' with
    | ok y => exact .some (hpair.exec 0)
    | error e => exact hpair.elim
  | error e => cases m' with
    | ok y => exact hpair.elim
    | error e' => exact .none

theorem keeps_blind (hblind : k.blind = true) (hk : c.call k = some c') :
    c.keeps k = decide (c'.nbhead.map (·.nbAddr) = c.nbhead.map (·.nbAddr)) := by
  unfold Call.blind at hblind
  unfold keeps
  split
  · rename_i hinp
    rw [hinp] at hblind
    cases hblind
  · rename_i hinp
    rw [hinp] at hblind
    cases hblind
  · rw [hk]
    rfl

theorem Gathering.hop (h : Gathering a δ b c) (hblind : k.blind = true) (hb : b.call k = some b') (hc : c.call k = some c')
    (hkin : Exec.Kin δ (b'.exec 0) (c'.exec 0)) :
    b.keeps k = c.keeps k ∧ (c.keeps k = true → Gathering a δ b' c') := by
  have hold : c.nbhead.map (·.nbAddr) = b.nbhead.map (·.nbAddr) := h.kin.addrs
  have hnew : c'.nbhead.map (·.nbAddr) = b'.nbhead.map (·.nbAddr) := hkin.addrs
  rw [keeps_blind hblind hb, keeps_blind hblind hc, hold, hnew]
  refine ⟨rfl, fun hkeep => ?_⟩
  have haddrs : c'.nbhead.map (·.nbAddr) = c.nbhead.map (·.nbAddr) := by
    rw [hold, hnew]
    exact of_decide_eq_true hkeep
  obtain ⟨y, hy, rfl⟩ := call_eq_some hc
  exact ⟨hkin, (Exec.handle_standing hblind hy haddrs).trans h.standing, haddrs.trans h.addrs⟩

/-- A purge that finds no one expired. -/
theorem call_neighbor {ifq : NsAddr → List Packet} (hinp : k.inp = .timer (.neighbor ifq)) (hkeep : c.keeps k = true)
    (hk : c.call k = some c') : c' = c := by
  obtain ⟨y, hy, rfl⟩ := call_eq_some hk
  unfold keeps at hkeep
  rw [hinp] at hy hkeep
  have hnone : (c.exec k.heap).nbPurge k.env ifq = .ok (c.exec k.heap) :=
    Exec.nbPurge_none ifq (fun nb hnb => of_decide_eq_true (List.all_eq_true.1 hkeep nb hnb))
  obtain rfl : y = c.exec k.heap := Except.ok.inj (hy.symm.trans hnone)
  rfl

/-- **What the calls between two rounds do**: what those that are no testimony do, and the sum of what the testimonies add. -/
theorem Between.gathers (hx : (a.nbhead.map (·.nbAddr)).Nodup) (hjudged : ∀ nb ∈ a.nbhead, nb.directTrust.isSome)
    {cs : List Call} (h : Between cs a c) : (∀ p ∈ cs.filterMap Call.testimony, p.Readable (a.exec 0).standing) ∧
      ∃ b, Between (cs.filter Call.blind) a b ∧ Gathering a (gathered (a.exec 0).standing cs) b c := by
  refine Runs.Trail.history (P := fun cs c => (∀ p ∈ cs.filterMap Call.testimony, p.Readable (a.exec 0).standing) ∧
    ∃ b, Between (cs.filter Call.blind) a b ∧ Gathering a (gathered (a.exec 0).standing cs) b c) h
    ⟨fun _ hp => absurd hp List.not_mem_nil, a, .nil a, .refl _, rfl, rfl⟩ ?_
  rintro cs k c c' - ⟨hread, b, hb, hgath⟩ ⟨hkeep, hk⟩
  unfold gathered at hgath ⊢
  rw [List.filter_append, List.filterMap_append]
  rcases k.blind_cases with ⟨hblind, hnone⟩ | ⟨p, hinp, hp, hblind, hsome⟩ | ⟨t, hinp, ht, hblind, hnone⟩
  · rw [List.filter_cons_of_pos hblind, List.filter_nil, List.filterMap_cons_none hnone, List.filterMap_nil, List.append_nil]
    have hrel := hgath.calls hblind
    rw [hk] at hrel
    cases hb' : b.call k with
    | none =>
      rw [hb'] at hrel
      cases hrel
    | some b' =>
      rw [hb'] at hrel
      obtain ⟨hsame, hgath'⟩ := hgath.hop hblind hb' hk (by cases hrel; assumption)
      exact ⟨hread, b', hb.snoc ⟨hsame.trans hkeep, hb'⟩, hgath' hkeep⟩
  · rw [List.filter_cons_of_neg (by rw [hblind]; decide), List.filter_nil, List.append_nil, List.filterMap_cons_some hsome,
      List.filterMap_nil, List.map_append, List.sum_append, List.map_cons, List.map_nil, List.sum_singleton]
    refine ⟨fun q hq => ?_, b, hb, hgath.gain hx hjudged hp hinp hk⟩
    rcases List.mem_append.1 hq with hq | hq
    · exact hread q hq
    · rw [List.mem_singleton.1 hq]
      exact (hgath.call_isSome_iff hp hinp).1 ⟨c', hk⟩
  · rw [List.filter_cons_of_neg (by rw [hblind]; decide), List.filter_nil, List.append_nil, List.filterMap_cons_none hnone,
      List.filterMap_nil, List.append_nil]
    rcases ht with rfl | ⟨ifq, rfl⟩
    · unfold keeps at hkeep
      rw [hinp] at hkeep
      cases hkeep
    · rw [call_neighbor hinp hkeep hk]
      exact ⟨hread, b, hb, hgath⟩

/-- **Testimony is taken in any order**: the calls can be made once those that read no evidence can, on their own, and no
testimony is unreadable. -/
theorem Gathering.possible (hx : (a.nbhead.map (·.nbAddr)).Nodup) (hjudged : ∀ nb ∈ a.nbhead, nb.directTrust.isSome) :
    ∀ (cs : List Call) {δ : NsAddr → Evidence} {b c : Agent}, Gathering a δ b c → Between (cs.filter Call.blind) b b' →
      (∀ k ∈ cs, k.blind = true ∨ k.testimony.isSome = true) →
      (∀ p ∈ cs.filterMap Call.testimony, p.Readable (a.exec 0).standing) → ∃ c', Between cs c c'
  | [], _, _, c, _, _, _, _ => ⟨c, .nil c⟩
  | k :: cs, δ, b, c, h, hrun, hcs, hread => by
    have hcs' : ∀ k ∈ cs, k.blind = true ∨ k.testimony.isSome = true := fun k hk => hcs k (List.mem_cons_of_mem _ hk)
    rcases k.blind_cases with ⟨hblind, hnone⟩ | ⟨p, hinp, hp, hblind, hsome⟩ | ⟨t, hinp, ht, hblind, hnone⟩
    · rw [List.filter_cons_of_pos hblind] at hrun
      rw [List.filterMap_cons_none hnone] at hread
      cases hrun with
      | @cons _ _ _ b₁ _ hstep hrun =>
        have hrel := h.calls hblind
        rw [hstep.2] at hrel
        cases hc : c.call k with
        | none =>
          rw [hc] at hrel
          cases hrel
        | some c₁ =>
          rw [hc] at hrel
          obtain ⟨hsame, hgath⟩ := h.hop hblind hstep.2 hc (by cases hrel; assumption)
          have hkeep : c.keeps k = true := hsame.symm.trans hstep.1
          obtain ⟨c', hc'⟩ := possible hx hjudged cs (hgath hkeep) hrun hcs' hread
          exact ⟨c', .cons ⟨hkeep, hc⟩ hc'⟩
    · rw [List.filter_cons_of_neg (by rw [hblind]; decide)] at hrun
      rw [List.filterMap_cons_some hsome] at hread
      obtain ⟨c₁, hc⟩ := (h.call_isSome_iff hp hinp).2 (hread p List.mem_cons_self)
      have hgath := h.gain hx hjudged hp hinp hc
      have hkeep : c.keeps k = true := by
        unfold keeps
        rw [hinp, hc]
        exact decide_eq_true (hgath.addrs.trans h.addrs.symm)
      obtain ⟨c', hc'⟩ := possible hx hjudged cs hgath hrun hcs' (fun q hq => hread q (List.mem_cons_of_mem _ hq))
      exact ⟨c', .cons ⟨hkeep, hc⟩ hc'⟩
    · rcases hcs k List.mem_cons_self with hb | hb
      · rw [hblind] at hb
        cases hb
      · rw [hnone] at hb
        cases hb

/-- What a round makes of neighbours that differ in nothing but when they expire. -/
theorem trust_setTrust {c₁ c₂ : Agent} (hx : (a.nbhead.map (·.nbAddr)).Nodup) (h₁ : Gathering a δ b c₁)
    (h₂ : Gathering a δ b c₂) (env : Env) (heap₁ heap₂ : Nat) :
    ((c₁.exec heap₁).setTrust env).nbhead.map Neighbor.trust = ((c₂.exec heap₂).setTrust env).nbhead.map Neighbor.trust := by
  have hround : ∀ {c : Agent}, Gathering a δ b c → ∀ heap, ((c.exec heap).setTrust env).nbhead.map Neighbor.trust =
      b.nbhead.map (fun nb => ((nb.plus (δ nb.nbAddr) 0).evaluated env.now).trust) := by
    intro c h heap
    rw [Exec.nbhead_setTrust env (h.addrs ▸ hx), List.map_map]
    have hnbs : List.Forall₂ (Neighbor.Heavier δ) b.nbhead c.nbhead := h.kin.nbs
    show c.nbhead.map _ = _
    generalize b.nbhead = l, c.nbhead = l' at hnbs
    induction hnbs with
    | nil => rfl
    | cons hnb _ ih =>
      obtain ⟨t, rfl⟩ := hnb
      rw [List.map_cons, List.map_cons, ih]
      rfl
  rw [hround h₁ heap₁, hround h₂ heap₂]

/-- **Testimony counts the same in any order**: two runs from one round of `set_trust` to the next that take the same RCOMs
and PROBs, and make the same other calls in the same order, give every neighbour the same trust; and no order ends in a
fault when another does not. -/
theorem testimony_unordered {a a₁ : Agent} {cs₁ cs₂ : List Call} (hx : (a.nbhead.map (·.nbAddr)).Nodup)
    (hjudged : ∀ nb ∈ a.nbhead, nb.directTrust.isSome) (h₁ : Between cs₁ a a₁)
    (htold : (cs₁.filterMap Call.testimony).Perm (cs₂.filterMap Call.testimony))
    (hrest : cs₁.filter Call.blind = cs₂.filter Call.blind) :
    (∀ a₂, Between cs₂ a a₂ → ∀ (env : Env) (heap₁ heap₂ : Nat), ((a₁.exec heap₁).setTrust env).nbhead.map Neighbor.trust =
      ((a₂.exec heap₂).setTrust env).nbhead.map Neighbor.trust) ∧
    ((∀ k ∈ cs₂, k.blind = true ∨ k.testimony.isSome = true) → ∃ a₂, Between cs₂ a a₂) := by
  obtain ⟨hread, b₁, hb₁, hgath₁⟩ := h₁.gathers hx hjudged
  refine ⟨fun a₂ h₂ env heap₁ heap₂ => ?_, fun hcs => ?_⟩
  · obtain ⟨-, b₂, hb₂, hgath₂⟩ := h₂.gathers hx hjudged
    have hreplay : ∀ {cs : List Call} {c : Agent}, Between cs a c → Runs.replay Agent.call cs a = some c :=
      fun h => h.replay (fun _ _ _ hop => hop.2)
    obtain rfl : b₁ = b₂ := Option.some.inj ((hreplay hb₁).symm.trans (hrest ▸ hreplay hb₂))
    have hsum : gathered (a.exec 0).standing cs₁ = gathered (a.exec 0).standing cs₂ := (htold.map _).sum_eq
    exact trust_setTrust hx hgath₁ (hsum ▸ hgath₂) env heap₁ heap₂
  · exact Gathering.possible hx hjudged cs₂ ⟨.refl _, rfl, rfl⟩ (hrest ▸ hb₁) hcs (fun p hp => hread p (htold.mem_iff.2 hp))

/-- A node with two neighbours that a round has judged. -/
def acquainted : Agent := { new 5 with nbhead := [(Neighbor.new 2 0 9).evaluated 1, (Neighbor.new 3 0 9).evaluated 1] }

/-- A packet of a neighbour of this kind, at this time. -/
def heardFrom (id : NsAddr) (now : ℚ) (body : Body) : Call :=
  ⟨{ inf := 65535, now := now }, 1, .recv { ptr := 0, saddr := id, sport := rtPort, dport := rtPort, ttl := 1, body := body }⟩

/-- Neighbour 2 recommends 3 with half a trust, then 3 probes; and the other way round. -/
theorem testimony_unordered_acquainted : ∃ a₁ a₂,
    Between [heardFrom 2 2 (.rcom ⟨[(3, 1 / 2)], 1⟩), ⟨{ inf := 65535, now := 2 }, 2, .timer .probe⟩, heardFrom 3 3 .prob]
      acquainted a₁ ∧
    Between [heardFrom 3 1 .prob, ⟨{ inf := 65535, now := 2 }, 2, .timer .probe⟩, heardFrom 2 3 (.rcom ⟨[(3, 1 / 2)], 1⟩)]
      acquainted a₂ ∧
    ((a₁.exec 9).setTrust { inf := 65535, now := 4 }).nbhead.map Neighbor.trust =
      ((a₂.exec 9).setTrust { inf := 65535, now := 4 }).nbhead.map Neighbor.trust := by
  have hobeys : Runs.obeys call keeps (fun _ => true) [heardFrom 2 2 (.rcom ⟨[(3, 1 / 2)], 1⟩),
    ⟨{ inf := 65535, now := 2 }, 2, .timer .probe⟩, heardFrom 3 3 .prob] acquainted = true := by decide +kernel
  obtain ⟨a₁, h₁, -⟩ := Runs.Trail.of_obeys _ _ _ hobeys
  have htold : ([heardFrom 2 2 (.rcom ⟨[(3, 1 / 2)], 1⟩), ⟨{ inf := 65535, now := 2 }, 2, .timer .probe⟩,
      heardFrom 3 3 .prob].filterMap Call.testimony).Perm
    ([heardFrom 3 1 .prob, ⟨{ inf := 65535, now := 2 }, 2, .timer .probe⟩,
      heardFrom 2 3 (.rcom ⟨[(3, 1 / 2)], 1⟩)].filterMap Call.testimony) := .swap _ _ _
  obtain ⟨hsame, hpossible⟩ := testimony_unordered (by decide +kernel) (by decide +kernel) h₁ htold rfl
  obtain ⟨a₂, h₂⟩ := hpossible (by simp [heardFrom, Call.blind, Call.testimony, Input.blind, Packet.testifies])
  exact ⟨a₁, a₂, h₁, h₂, hsame a₂ h₂ _ 9 9⟩

end Agent

end TeAomdv

import TeAomdv.Fresher
/-!
# Weights — the trust a recommendation is weighed with

A neighbour is inserted with a trust value that passes the test of `recvRcom` and no direct trust; `set_trust` is what
assigns one.  What a node knows of a neighbour's direct trust changes when it is inserted, forgotten or judged, and at no
other stride (`Exec.Minds`), so those without one are the ones inserted since the trust timer last expired (`Agent.fresh`).
-/
namespace TeAomdv

open Fallible (Ends)

/-- With other contents of the direct trust of neighbours that have none yet. -/
def Env.unset (env : Env) (u : NsAddr → ℚ) : Env := { env with unsetTrust := u }

namespace Neighbor

theorem Notes.observe (nb : Neighbor) (now : ℚ) (o : Observation) :
    o = .round ∨ (∃ e z u r t i, o = .other e z u r t i) ∨ nb.Notes (nb.observe now o) := by
  cases o with
  | round => exact .inl rfl
  | other e z u r t i => exact .inr (.inl ⟨e, z, u, r, t, i, rfl⟩)
  | handed c uid last =>
    cases c with
    | data => cases last with
      | true => exact .inr (.inr (.addDataForward nb))
      | false => exact .inr (.inr (.recordCbr nb uid now))
    | control => cases last with
      | true => exact .inr (.inr (.addControlForward nb))
      | false => exact .inr (.inr (.recordPtteaomdv nb uid now))
  | overheard c uid =>
    cases c with
    | data => exact .inr (.inr (.cbrF nb _))
    | control => exact .inr (.inr (.ptteaomdvF nb _))

theorem directTrust_observe (nb : Neighbor) (now : ℚ) {o : Observation} (ho : o ≠ .round) :
    (nb.observe now o).directTrust = nb.directTrust := by
  rcases Notes.observe nb now o with h | ⟨_, _, _, _, _, _, rfl⟩ | h
  · exact absurd h ho
  · rfl
  · exact h.directTrust

theorem tv_observe (nb : Neighbor) (now : ℚ) {o : Observation} (ho : o ≠ .round) : (nb.observe now o).tv = nb.tv := by
  rcases Notes.observe nb now o with h | ⟨_, _, _, _, _, _, rfl⟩ | h
  · exact absurd h ho
  · rfl
  · exact h.tv

theorem nbAddr_observe (nb : Neighbor) (now : ℚ) (o : Observation) : (nb.observe now o).nbAddr = nb.nbAddr := by
  rcases Notes.observe nb now o with rfl | ⟨_, _, _, _, _, _, rfl⟩ | h
  · rfl
  · rfl
  · exact h.addr

end Neighbor

namespace Exec

variable {env : Env} {x y z : Exec} {id : NsAddr} {p : Packet}

/-! ## Strides -/

/-- What the node has of a neighbour: nothing, no direct trust yet, or one. -/
def trustIn (x : Exec) (id : NsAddr) : Option (Option ℚ) := (x.nbLookup id).map (·.directTrust)

/-- `id` was not judged or forgotten: what the node has of it is as before, or it was inserted. -/
def Minds (id : NsAddr) (x y : Exec) : Prop :=
  y.trustIn id = x.trustIn id ∨ x.trustIn id = none ∧ y.trustIn id = some none

/-- `id` is no neighbour, or has no direct trust. -/
def Blank (id : NsAddr) (x : Exec) : Prop := x.trustIn id = none ∨ x.trustIn id = some none

theorem Minds.trans (h : Minds id x y) (h' : Minds id y z) : Minds id x z := by
  rcases h with h | ⟨h1, h2⟩
  · rcases h' with h' | ⟨h1, h2⟩
    · exact .inl (h'.trans h)
    · exact .inr ⟨h.symm.trans h1, h2⟩
  · rcases h' with h' | ⟨h3, -⟩
    · exact .inr ⟨h1, h'.trans h2⟩
    · rw [h2] at h3
      cases h3

theorem Blank.minds (hx : Blank id x) (h : Minds id x y) : Blank id y := by
  rcases h with h | ⟨-, h⟩
  · unfold Blank
    rwa [h]
  · exact .inr h

theorem trustIn_congr (h : y.nbhead = x.nbhead) (id : NsAddr) : y.trustIn id = x.trustIn id := by
  unfold trustIn nbLookup
  rw [h]

theorem nbLookup_meet (x : Exec) (nb : Neighbor) (id : NsAddr) :
    ({ x with nbhead := nb :: x.nbhead } : Exec).nbLookup id = if nb.nbAddr = id then some nb else x.nbLookup id := by
  unfold nbLookup
  rw [List.find?_cons]
  by_cases h : nb.nbAddr = id <;> simp [h]

theorem nbLookup_observe {id' : NsAddr} {nb : Neighbor} (hnb : x.nbLookup id' = some nb) (now : ℚ) (o : Observation) :
    (x.nbModify id' (fun _ => nb.observe now o)).nbLookup id = if id = id' then some (nb.observe now o) else x.nbLookup id := by
  have hobs : (nb.observe now o).nbAddr = id' := (nb.nbAddr_observe now o).trans (Keyed.key_of_find? hnb)
  unfold nbModify
  by_cases h : id = id'
  · subst h
    rw [if_pos rfl]
    refine (Keyed.find?_modifyFirst (f := fun _ => nb.observe now o) (fun _ _ => decide_eq_true hobs) x.nbhead).trans ?_
    exact congrArg (Option.map _) hnb
  · rw [if_neg h]
    refine Keyed.find?_modifyFirst_ne (fun a ha => ?_) (fun a ha => ?_) x.nbhead
    · exact decide_eq_false (fun heq => h (heq.symm.trans (of_decide_eq_true ha)))
    · exact decide_eq_false (fun heq => h (heq.symm.trans hobs))

theorem nbLookup_part (x : Exec) {id' : NsAddr} (hne : id ≠ id') :
    ({ x with nbhead := x.nbhead.eraseP (fun nb => nb.nbAddr = id') } : Exec).nbLookup id = x.nbLookup id :=
  Keyed.find?_eraseP_ne (fun _ ha => decide_eq_false (fun heq => hne (heq.symm.trans (of_decide_eq_true ha)))) x.nbhead

/-- **Any stride but these two leaves a neighbour's entry alone**, or it notes something in it; or the neighbour is new. -/
theorem Stride.entry {k : Deed} (hs : Stride env k x y) (hpart : k ≠ .part id) (hround : k ≠ .observe id .round) :
    y.nbLookup id = x.nbLookup id ∨
      (∃ nb o, x.nbLookup id = some nb ∧ o ≠ .round ∧ y.nbLookup id = some (nb.observe env.now o)) ∨
      x.nbLookup id = none ∧ ∃ expire, y.nbLookup id = some (.new id env.now expire) := by
  have congr : ∀ {y : Exec}, y.nbhead = x.nbhead → y.nbLookup id = x.nbLookup id := by
    intro y hy
    unfold nbLookup
    rw [hy]
  cases hs with
  | mark | rise | settle | add | bump | answer => exact .inl rfl
  | request hy =>
    obtain ⟨rt, -, hs⟩ := exists_of_sendRequest hy
    exact .inl (congr hs.nbs)
  | quiet hq => exact .inl (congr hq.nbs)
  | @observe _ id' nb o hnb =>
    rw [nbLookup_observe hnb]
    split
    · rename_i h
      subst h
      exact .inr (.inl ⟨nb, o, hnb, fun ho => hround (ho ▸ rfl), rfl⟩)
    · exact .inl rfl
  | @meet _ id' expire hnone =>
    rw [nbLookup_meet]
    split
    · rename_i h
      obtain rfl : id' = id := h
      exact .inr (.inr ⟨hnone, expire, rfl⟩)
    · exact .inl rfl
  | part _ id' => exact .inl (nbLookup_part x (fun h => hpart (congrArg Deed.part h.symm)))

theorem Stride.minds {k : Deed} (hs : Stride env k x y) (hpart : k ≠ .part id) (hround : k ≠ .observe id .round) :
    Minds id x y := by
  unfold Minds trustIn
  rcases hs.entry hpart hround with h | ⟨nb, o, hnb, ho, h⟩ | ⟨hnone, expire, h⟩
  · exact .inl (congrArg _ h)
  · rw [h, hnb]
    exact .inl (congrArg some (nb.directTrust_observe env.now ho))
  · rw [h, hnone]
    exact .inr ⟨rfl, rfl⟩

theorem Goes.minds {K : Deed → Prop} (h : Goes env K x y) (hK : ∀ k, K k → k ≠ .part id ∧ k ≠ .observe id .round) :
    Minds id x y := by
  induction h with
  | refl => exact .inl rfl
  | tail _ hs ih =>
    obtain ⟨k, hk, hs⟩ := hs
    exact ih.trans (hs.minds (hK k hk).1 (hK k hk).2)

/-- Neighbours are kept one entry each. -/
theorem Goes.nbs {K : Deed → Prop} (h : Goes env K x y) (hx : (x.nbhead.map (·.nbAddr)).Nodup) :
    (y.nbhead.map (·.nbAddr)).Nodup := by
  induction h with
  | refl => exact hx
  | tail _ hs ih =>
    obtain ⟨k, -, hs⟩ := hs
    cases hs with
    | mark | rise | settle | add | bump | answer => exact ih
    | request hy =>
      obtain ⟨rt, -, hs⟩ := exists_of_sendRequest hy
      rwa [hs.nbs]
    | quiet hq => rwa [hq.nbs]
    | @observe _ id' nb o hnb =>
      have hobs : (nb.observe env.now o).nbAddr = id' := (nb.nbAddr_observe env.now o).trans (Keyed.key_of_find? hnb)
      unfold nbModify
      rwa [Keyed.map_modifyFirst Neighbor.nbAddr (fun _ ha => hobs.trans (of_decide_eq_true ha).symm)]
    | @meet x id' expire hnone =>
      refine List.nodup_cons.2 ⟨fun hm => ?_, ih⟩
      obtain ⟨nb, hnb, heq⟩ := List.mem_map.1 hm
      exact List.find?_eq_none.1 hnone nb hnb (decide_eq_true heq)
    | part => exact Keyed.nodup_eraseP ih

/-! ## The timers that judge and forget -/

theorem nbDelete_minds (ifq : NsAddr → List Packet) (hx : (x.nbhead.map (·.nbAddr)).Nodup) (id : NsAddr) :
    Ends (fun y => (y.nbhead.map (·.nbAddr)).Nodup ∧ Blank id y ∧ ∀ id', id' ≠ id → Minds id' x y) (x.nbDelete env ifq id) := by
  have hgone : Exec.trustIn { x with seqno := u32 (x.seqno + 2), nbhead := x.nbhead.eraseP (fun nb => nb.nbAddr = id) } id = none := by
    refine Option.map_eq_none_iff.2 (List.find?_eq_none.2 (fun nb hnb heq => ?_))
    exact Keyed.key_ne_of_mem_eraseP Neighbor.nbAddr hx hnb (of_decide_eq_true heq)
  have tame : ∀ {id k}, Deed.Tame k → k ≠ .part id ∧ k ≠ .observe id .round :=
    fun hk => ⟨fun h => by subst h; exact hk, fun h => by subst h; exact hk⟩
  intro y hy
  have hrest := nbDelete_rest ifq x id y hy
  have hgoes := nbDelete_goes ifq x id y hy
  refine ⟨hgoes.nbs hx, Blank.minds (.inl hgone) (hrest.minds (fun _ => tame)), fun id' hne => hgoes.minds ?_⟩
  rintro k (hk | rfl | rfl)
  · exact tame hk
  · exact ⟨nofun, nofun⟩
  · exact ⟨fun h => hne (Deed.part.inj h).symm, nofun⟩

/-- **`nb_purge` minds the neighbours it leaves**; one it forgets is no neighbour afterwards, or a new one. -/
theorem nbPurge_minds (ifq : NsAddr → List Packet) (hx : (x.nbhead.map (·.nbAddr)).Nodup) :
    Ends (fun y => ∀ id, (Blank id x → Blank id y) ∧
      ((∀ nb ∈ x.nbhead, nb.nbAddr = id → env.now < nb.nbExpire) → Minds id x y) ∧
      ∀ nb ∈ x.nbhead, nb.nbAddr = id → nb.nbExpire ≤ env.now → Blank id y) (x.nbPurge env ifq) := by
  have walk : ∀ (nbs : List Neighbor) (y : Exec), (y.nbhead.map (·.nbAddr)).Nodup →
      Ends (fun z => ∀ id, (Blank id y → Blank id z) ∧
        ((∀ nb ∈ nbs, nb.nbAddr = id → env.now < nb.nbExpire) → Minds id y z) ∧
        ∀ nb ∈ nbs, nb.nbAddr = id → nb.nbExpire ≤ env.now → Blank id z)
        (nbs.foldlM (fun x nb => if nb.nbExpire ≤ env.now then x.nbDelete env ifq nb.nbAddr else .ok x) y) := by
    intro nbs
    induction nbs with
    | nil => exact fun y _ => Ends.ok (fun id => ⟨fun h => h, fun _ => .inl rfl, fun _ h => (nomatch h)⟩)
    | cons nb nbs ih =>
      intro y hy
      rw [List.foldlM_cons]
      split
      · rename_i hle
        refine Ends.bind (nbDelete_minds ifq hy nb.nbAddr) (fun w hw => Ends.mono (ih w hw.1) (fun z hz id => ?_))
        obtain ⟨hblank, hminds, hgone⟩ := hz id
        by_cases hid : id = nb.nbAddr
        · subst hid
          refine ⟨fun _ => hblank hw.2.1, fun hall => ?_, fun _ _ _ _ => hblank hw.2.1⟩
          exact absurd (hall nb List.mem_cons_self rfl) (not_lt.2 hle)
        · have hmind := hw.2.2 id hid
          refine ⟨fun h => hblank (h.minds hmind), fun hall => hmind.trans (hminds ?_), fun nb' hnb' heq => ?_⟩
          · exact fun nb' hnb' => hall nb' (List.mem_cons_of_mem _ hnb')
          · rcases List.mem_cons.1 hnb' with rfl | hnb'
            · exact absurd heq.symm hid
            · exact hgone nb' hnb' heq
      · rename_i hlt
        refine Ends.mono (ih y hy) (fun z hz id => ?_)
        obtain ⟨hblank, hminds, hgone⟩ := hz id
        refine ⟨hblank, fun hall => hminds (fun nb' hnb' => hall nb' (List.mem_cons_of_mem _ hnb')), fun nb' hnb' heq hle => ?_⟩
        rcases List.mem_cons.1 hnb' with rfl | hnb'
        · exact absurd hle hlt
        · exact hgone nb' hnb' heq hle
  exact walk x.nbhead x hx

theorem trustIn_trustEntry (env : Env) (b : Batch) (id id' : NsAddr) (h : (trustEntry env b id).x.trustIn id' = some none) :
    id' ≠ id ∧ b.x.trustIn id' = some none := by
  have hlook : (b.x.nbModify id (fun nb => (nb.setTV env.now).tvInit env.now)).nbLookup id' = _ :=
    nbLookup_nbModify b.x id (fun nb => nbAddr_setTV nb env.now) id'
  have hself : ∀ {y : Exec}, y.nbhead = (b.x.nbModify id (fun nb => (nb.setTV env.now).tvInit env.now)).nbhead →
      y.trustIn id' = some none → id' ≠ id ∧ b.x.trustIn id' = some none := by
    intro y hy ht
    rw [trustIn_congr hy, trustIn, hlook] at ht
    by_cases hid : id' = id
    · rw [if_pos hid] at ht
      cases hnb : b.x.nbLookup id' with
      | none =>
        rw [hnb] at ht
        cases ht
      | some nb =>
        rw [hnb] at ht
        cases Option.some.inj ht
    · rw [if_neg hid] at ht
      exact ⟨hid, ht⟩
  unfold trustEntry at h
  simp only at h
  split at h
  · rename_i hnone
    refine ⟨fun hid => ?_, h⟩
    subst hid
    rw [hlook, if_pos rfl, Option.map_eq_none_iff] at hnone
    unfold trustIn at h
    rw [hnone] at h
    cases h
  · split at h
    · exact hself rfl h
    · exact hself rfl h

/-- **`set_trust` assigns every neighbour a direct trust.** -/
theorem setTrust_judges (env : Env) (x : Exec) (id : NsAddr) : (x.setTrust env).trustIn id ≠ some none := by
  have loop : ∀ (l : List NsAddr) (b : Batch), (b.x.trustIn id = some none → id ∈ l) →
      (l.foldl (trustEntry env) b).x.trustIn id ≠ some none := by
    intro l
    induction l with
    | nil => exact fun b hb h => absurd (hb h) List.not_mem_nil
    | cons id' l ih =>
      refine fun b hb => ih _ (fun h => ?_)
      obtain ⟨hne, h⟩ := trustIn_trustEntry env b id' id h
      exact (List.mem_cons.1 (hb h)).resolve_left hne
  have hall := loop (x.nbhead.map (·.nbAddr)) ⟨x.alloc, x.blank, [], 0⟩ (fun h => ?_)
  · unfold setTrust
    simp only
    split <;> exact hall
  · cases hnb : x.nbLookup id with
    | none =>
      have h : x.trustIn id = some none := h
      unfold trustIn at h
      rw [hnb] at h
      cases h
    | some nb => exact List.mem_map.2 ⟨nb, List.mem_of_find?_eq_some hnb, Keyed.key_of_find? hnb⟩

/-! ## What the weight is not read for -/

section Unset

variable (env : Env) (u : NsAddr → ℚ)

theorem drain_unset (x : Exec) (d : NsAddr) (body : Exec → Packet → Result) :
    x.drain (env.unset u) d body = x.drain env d body := by
  have loop : ∀ (n : Nat) (x : Exec), drainLoop (env.unset u) d body n x = drainLoop env d body n x := by
    intro n
    induction n with
    | zero => exact fun _ => rfl
    | succ n ih =>
      intro x
      unfold drainLoop
      rw [funext ih]
      rfl
  exact loop _ x

theorem flush_unset (x : Exec) (d : NsAddr) : x.flush (env.unset u) d = x.flush env d := by
  unfold flush
  simp only [drain_unset]
  rfl

theorem sendRequest_unset (x : Exec) (d : NsAddr) : x.sendRequest (env.unset u) d = x.sendRequest env d := by
  unfold sendRequest
  simp only [drain_unset]
  rfl

theorem recvRequest_unset (x : Exec) (p : Packet) (rq : Rreq) :
    x.recvRequest (env.unset u) p rq = x.recvRequest env p rq := by
  unfold recvRequest
  simp only [flush_unset]
  rfl

theorem recvReply_unset (x : Exec) (p : Packet) (rp : Rrep) : x.recvReply (env.unset u) p rp = x.recvReply env p rp := by
  unfold recvReply
  simp only [flush_unset]
  rfl

theorem rtResolve_unset (x : Exec) (p : Packet) : x.rtResolve (env.unset u) p = x.rtResolve env p := by
  unfold rtResolve
  simp only [sendRequest_unset]
  rfl

theorem sendBuffered_unset (d : NsAddr) (n : Nat) (acc : Exec × ℚ) :
    sendBuffered (env.unset u) d n acc = sendBuffered env d n acc := by
  induction n generalizing acc with
  | zero => rfl
  | succ n ih =>
    unfold sendBuffered
    simp only [ih]
    rfl

theorem purgeEntry_unset (acc : Exec × ℚ) (d : NsAddr) : purgeEntry (env.unset u) acc d = purgeEntry env acc d := by
  unfold purgeEntry
  simp only [drain_unset, sendBuffered_unset, sendRequest_unset]
  rfl

theorem rtPurge_unset (x : Exec) : x.rtPurge (env.unset u) = x.rtPurge env := by
  unfold rtPurge
  rw [show purgeEntry (env.unset u) = purgeEntry env from funext fun acc => funext fun d => purgeEntry_unset env u acc d]

end Unset

/-- An RCOM is accepted, and reports a neighbour. -/
def weighs (x : Exec) (p : Packet) (rc : Recommen) : Bool :=
  (x.nbLookup p.saddr).any (fun nb => trustThreshold ≤ nb.tv) ∧ rc.nbs.any (fun r => (x.nbLookup r.1).isSome)

theorem foldl_recommend_of_none (w : ℚ) : ∀ (l : List (NsAddr × ℚ)) (x : Exec), (∀ r ∈ l, x.nbLookup r.1 = none) →
    l.foldl (recommend w) x = x
  | [], _, _ => rfl
  | r :: l, x, h => by
    have hone : recommend w x r = x := by
      unfold recommend nbModify
      rw [Keyed.modifyFirst_of_none (h r List.mem_cons_self)]
    rw [List.foldl_cons, hone]
    exact foldl_recommend_of_none w l x (fun r' hr' => h r' (List.mem_cons_of_mem _ hr'))

/-- Where an RCOM weighs nothing, or what it weighs with is assigned, nothing unassigned is read. -/
theorem recvRcom_unset (env : Env) (u : NsAddr → ℚ) (x : Exec) (p : Packet) (rc : Recommen)
    (h : x.weighs p rc = true → x.trustIn p.saddr ≠ some none) : x.recvRcom (env.unset u) p rc = x.recvRcom env p rc := by
  unfold recvRcom
  cases hnb : x.nbLookup p.saddr with
  | none => rfl
  | some nb =>
    simp only
    split
    · rename_i htv
      split
      · rfl
      cases hdt : nb.directTrust with
      | some w => rfl
      | none =>
        have hnone : ∀ r ∈ rc.nbs, x.nbLookup r.1 = none := by
          intro r hr
          by_contra hsome
          refine h (decide_eq_true ⟨?_, List.any_eq_true.2 ⟨r, hr, Option.isSome_iff_ne_none.2 hsome⟩⟩) ?_
          · rw [hnb]
            exact decide_eq_true htv
          · unfold trustIn
            rw [hnb, ← hdt]
            rfl
        have hrest : ∀ w, rc.nbs.foldl (recommend w) (x.nbModify p.saddr (fun nb =>
            { nb with interactNbs := nb.interactNbs + rc.itNum })) =
            x.nbModify p.saddr (fun nb => { nb with interactNbs := nb.interactNbs + rc.itNum }) := by
          refine fun w => foldl_recommend_of_none w rc.nbs _ (fun r hr => ?_)
          refine (nbLookup_nbModify x p.saddr (fun _ => by rfl) r.1).trans ?_
          rw [hnone r hr]
          split <;> rfl
        rw [hrest, hrest]
    · rfl

/-- **No handler reads what is unassigned** but `recvRcom`. -/
theorem handle_unset (env : Env) (u : NsAddr → ℚ) (x : Exec) (inp : Input) (h : ∀ p rc, inp = .recv p → p.ptype = .teaomdv →
    p.body = .rcom rc → x.weighs p rc = true → x.trustIn p.saddr ≠ some none) :
    x.handle (env.unset u) inp = x.handle env inp := by
  cases inp with
  | recv p =>
    show x.recv (env.unset u) p = x.recv env p
    unfold recv
    split
    · rename_i htype
      unfold recvTEAOMDV
      split
      · rfl
      cases hb : p.body with
      | rreq rq => exact recvRequest_unset env u x _ rq
      | rrep rp => exact recvReply_unset env u x _ rp
      | rcom rc => exact recvRcom_unset env u x _ rc (fun hw => h p rc rfl htype hb hw)
      | rerr re => rfl
      | hello rp => rfl
      | prob => rfl
      | pta re => rfl
      | payload => rfl
    · simp only [rtResolve_unset]
      rfl
  | tap p => rfl
  | rtLlFailed p => rfl
  | timer t =>
    cases t with
    | routeCache => exact rtPurge_unset env u x
    | broadcast => rfl
    | hello => rfl
    | probe => rfl
    | trust => rfl
    | neighbor ifq => rfl
    | localRepair p => rfl

/-! ## One handler -/

/-- `id` is a neighbour, and the handler does not forget it. -/
def keepsNb (x : Exec) (env : Env) (inp : Input) (id : NsAddr) : Bool :=
  (x.nbLookup id).any (fun nb => match inp with
    | .timer (.neighbor _) => env.now < nb.nbExpire
    | _ => true)

/-- **A handler but the trust timer's leaves a neighbour it keeps as it is**; any other it leaves is new. -/
theorem handle_minds (hx : (x.nbhead.map (·.nbAddr)).Nodup) {inp : Input} (hinp : inp ≠ .timer .trust) (id : NsAddr) :
    Ends (fun y => if x.keepsNb env inp id = true then y.trustIn id = x.trustIn id else Blank id y) (x.handle env inp) := by
  have known : ∀ {y : Exec}, (x.nbLookup id).isSome → Minds id x y → y.trustIn id = x.trustIn id := by
    intro y hsome hmind
    refine hmind.resolve_right (fun ⟨hnone, _⟩ => ?_)
    rw [Option.map_eq_none_iff.1 hnone] at hsome
    cases hsome
  intro y hy
  by_cases hnbr : ∃ ifq, inp = .timer (.neighbor ifq)
  · obtain ⟨ifq, rfl⟩ := hnbr
    obtain ⟨hblank, hminds, hgone⟩ := nbPurge_minds ifq hx y hy id
    unfold keepsNb
    cases hnb : x.nbLookup id with
    | none => exact hblank (.inl (by unfold trustIn; rw [hnb]; rfl))
    | some nb =>
      have hmem : nb ∈ x.nbhead := List.mem_of_find?_eq_some hnb
      simp only [Option.any_some, decide_eq_true_eq]
      split
      · rename_i hlt
        refine known (by rw [hnb]; rfl) (hminds (fun nb' hnb' heq => ?_))
        have hfind : x.nbLookup id = some nb' := heq ▸ Keyed.find?_of_mem_nodup Neighbor.nbAddr hx hnb'
        obtain rfl := Option.some.inj (hnb.symm.trans hfind)
        exact hlt
      · rename_i hle
        exact hgone nb hmem (Keyed.key_of_find? hnb) (not_lt.1 hle)
  · have hminds : Minds id x y := (handle_goes inp y hy).minds (fun k hk => ⟨?_, ?_⟩)
    · have hkeeps : x.keepsNb env inp id = (x.nbLookup id).isSome := by
        unfold keepsNb
        cases x.nbLookup id with
        | none => rfl
        | some nb =>
          rw [Option.any_some]
          split
          · rename_i ifq
            exact absurd ⟨ifq, rfl⟩ hnbr
          · rfl
      rw [hkeeps]
      split
      · rename_i hsome
        exact known hsome hminds
      · rename_i hnone
        refine Blank.minds (.inl ?_) hminds
        unfold trustIn
        rw [Option.not_isSome_iff_eq_none.1 hnone]
        rfl
    · rintro rfl
      exact hnbr hk
    · rintro rfl
      exact hinp hk

end Exec

namespace Agent

variable {id : NsAddr} {a : Agent} {fresh : List NsAddr}

/-- The neighbours inserted since the trust timer last expired, after one more invocation. -/
def noteFresh (a : Agent) (c : Call) (a' : Agent) (fresh : List NsAddr) : List NsAddr :=
  match c.inp with
  | .timer .trust => []
  | _ => (a'.nbhead.map (·.nbAddr)).filter (fun id => id ∈ fresh ∨ ¬ (a.exec c.heap).keepsNb c.env c.inp id = true)

/-- The runs of node `id`, with the neighbours inserted since the trust timer last expired beside its state. -/
def FreshReach (id : NsAddr) : Agent × List NsAddr → Prop :=
  Runs.Reaches (Runs.watch call noteFresh) (fun _ _ => True) (new id, [])

theorem noteFresh_of_ne {a' : Agent} {c : Call} (h : c.inp ≠ .timer .trust) : noteFresh a c a' fresh =
    (a'.nbhead.map (·.nbAddr)).filter (fun id => id ∈ fresh ∨ ¬ (a.exec c.heap).keepsNb c.env c.inp id = true) := by
  unfold noteFresh
  split
  · rename_i htrust
    exact absurd htrust h
  · rfl

theorem mem_nbAddrs_iff {x : Exec} {id' : NsAddr} : id' ∈ x.nbhead.map (·.nbAddr) ↔ x.trustIn id' ≠ none := by
  have hfind : (x.nbLookup id').isSome ↔ id' ∈ x.nbhead.map (·.nbAddr) := by
    unfold Exec.nbLookup
    rw [List.find?_isSome, List.mem_map]
    simp
  rw [← hfind, Exec.trustIn, ne_eq, Option.map_eq_none_iff, Option.isSome_iff_ne_none]

/-- **The neighbours with no direct trust are the fresh ones.** -/
theorem fresh_iff (h : FreshReach id (a, fresh)) (heap : Nat) (id' : NsAddr) :
    id' ∈ fresh ↔ (a.exec heap).trustIn id' = some none := by
  have hnew : ∀ heap id', id' ∈ ([] : List NsAddr) ↔ ((new id).exec heap).trustIn id' = some none :=
    fun _ _ => ⟨fun h => absurd h List.not_mem_nil, nofun⟩
  refine Runs.Reaches.invariant (P := fun s : Agent × List NsAddr => ∀ heap id', id' ∈ s.2 ↔ (s.1.exec heap).trustIn id' = some none)
    hnew ?_ h heap id'
  rintro ⟨a, fresh⟩ c ⟨a', fresh'⟩ hr ih - hs heap id'
  obtain ⟨hcall, hnote⟩ := Runs.watch_eq_some hs
  simp only at hcall hnote ih
  obtain ⟨x, hx, rfl⟩ := call_eq_some hcall
  show id' ∈ fresh' ↔ x.trustIn id' = some none
  rw [hnote]
  by_cases htrust : c.inp = .timer .trust
  · rw [htrust] at hx
    obtain rfl := Except.ok.inj hx
    unfold noteFresh
    simp only [htrust]
    exact ⟨fun h => absurd h List.not_mem_nil, fun h => absurd h (Exec.setTrust_judges _ _ _)⟩
  have hminds := Exec.handle_minds (x := a.exec c.heap) (tidy_of_reach hr.of_watch).rep.nbs htrust id' x hx
  rw [noteFresh_of_ne htrust, List.mem_filter, decide_eq_true_eq, mem_nbAddrs_iff, ih c.heap]
  simp only at hminds
  by_cases hkeeps : (a.exec c.heap).keepsNb c.env c.inp id' = true
  · rw [if_pos hkeeps] at hminds
    rw [hminds]
    exact ⟨fun h => h.2.resolve_right (not_not.2 hkeeps), fun h => ⟨by rw [h]; nofun, .inl h⟩⟩
  · rw [if_neg hkeeps] at hminds
    exact ⟨fun h => hminds.resolve_left h.1, fun h => ⟨by rw [h]; nofun, .inr hkeeps⟩⟩

/-- **A recommendation is weighed with an assigned direct trust** just when it does not come from a neighbour inserted since
the trust timer last expired; and a handler that weighs none from such a neighbour reads nothing that is unassigned. -/
theorem weighed_assigned (h : FreshReach id (a, fresh)) (heap : Nat) :
    (∀ p rc, ((a.exec heap).weighs p rc = true →
        ∃ nb w, (a.exec heap).nbLookup p.saddr = some nb ∧ nb.directTrust = some w) ↔
      ¬ ((a.exec heap).weighs p rc = true ∧ p.saddr ∈ fresh)) ∧
    ∀ env inp, (∀ p rc, inp = .recv p → p.ptype = .teaomdv → p.body = .rcom rc →
        ¬ ((a.exec heap).weighs p rc = true ∧ p.saddr ∈ fresh)) →
      ∀ u, (a.exec heap).handle (env.unset u) inp = (a.exec heap).handle env inp := by
  have hfresh := fresh_iff h heap
  refine ⟨fun p rc => ⟨fun hw ⟨hweighs, hmem⟩ => ?_, fun hnot hweighs => ?_⟩, fun env inp hguard u => ?_⟩
  · obtain ⟨nb, w, hnb, hdt⟩ := hw hweighs
    have hnone := (hfresh p.saddr).1 hmem
    unfold Exec.trustIn at hnone
    rw [hnb, Option.map_some, hdt] at hnone
    cases Option.some.inj hnone
  · obtain ⟨nb, hnb, -⟩ := (Option.any_eq_true _ _).1 (of_decide_eq_true hweighs).1
    cases hdt : nb.directTrust with
    | some w => exact ⟨nb, w, hnb, hdt⟩
    | none =>
      refine absurd ⟨hweighs, (hfresh p.saddr).2 ?_⟩ hnot
      unfold Exec.trustIn
      rw [hnb, ← hdt]
      rfl
  · exact Exec.handle_unset env u _ inp
      (fun p rc h1 h2 h3 hw hnone => hguard p rc h1 h2 h3 ⟨hw, (hfresh p.saddr).2 hnone⟩)

/-- A hello of `src`. -/
def helloOf (src : NsAddr) : Call :=
  ⟨{ inf := 65535, now := 1 }, 1, .recv {
    ptr := 0, saddr := src, daddr := ipBroadcast, sport := rtPort, dport := rtPort, ttl := 1, prevHop := src
    body := .hello ⟨0, src, 2, src, 8, 0, 0, 0, 0, 0, 0⟩ }⟩

/-- 2 recommends 3 with one half. -/
def recommendation : Recommen := ⟨[(3, 1 / 2)], 1⟩

def recommended : Packet :=
  { ptr := 4, saddr := 2, daddr := ipBroadcast, sport := rtPort, dport := rtPort, ttl := 1, prevHop := 2
    body := .rcom recommendation }

theorem weighed_assigned_recommended : ∃ a, FreshReach 5 (a, []) ∧ (a.exec 9).weighs recommended recommendation = true ∧
    ∃ nb w, (a.exec 9).nbLookup 2 = some nb ∧ nb.directTrust = some w := by
  obtain ⟨⟨a, fresh⟩, -, hr, hfin⟩ := Runs.Reaches.of_obeys (fun _ _ => true)
    (fun s : Agent × List NsAddr => s.2.isEmpty && (s.1.exec 9).weighs recommended recommendation) (fun _ _ _ => trivial)
    [helloOf 2, helloOf 3, ⟨{ inf := 65535, now := 2 }, 2, .timer .trust⟩] (.init : FreshReach 5 (new 5, [])) (by decide +kernel)
  obtain ⟨hnil, hw⟩ := (Bool.and_eq_true _ _).mp hfin
  obtain rfl : fresh = [] := List.isEmpty_iff.1 hnil
  exact ⟨a, hr, hw, ((weighed_assigned hr 9).1 recommended recommendation).2 (fun h => absurd h.2 List.not_mem_nil) hw⟩

/-- **Between an insertion and the next trust round** a recommendation is weighed with whatever the field holds: seven. -/
theorem weighed_unassigned : ∃ a, Reach 5 a ∧ (a.exec 3).weighs recommended recommendation = true ∧
    (a.exec 3).trustIn 2 = some none ∧
    ∃ y, (a.exec 3).handle { inf := 65535, now := 1, unsetTrust := fun _ => 7 } (.recv recommended) = .ok y ∧
      (y.nbLookup 3).any (fun nb => nb.fenmu = 7) = true := by
  obtain ⟨a, -, hr, hfin⟩ := Runs.Reaches.of_obeys (fun _ _ => true)
    (fun a : Agent => (a.exec 3).weighs recommended recommendation && decide ((a.exec 3).trustIn 2 = some none) &&
      ((a.exec 3).handle { inf := 65535, now := 1, unsetTrust := fun _ => 7 } (.recv recommended)).toOption.any (fun y =>
        (y.nbLookup 3).any (fun nb => nb.fenmu = 7)))
    (fun _ _ _ => trivial) [helloOf 2, helloOf 3] (.init : Reach 5 (new 5)) (by decide +kernel)
  obtain ⟨hfin, hany⟩ := (Bool.and_eq_true _ _).mp hfin
  obtain ⟨hw, hnone⟩ := (Bool.and_eq_true _ _).mp hfin
  exact ⟨a, hr, hw, of_decide_eq_true hnone, Fallible.any_toOption.1 hany⟩

end Agent

end TeAomdv

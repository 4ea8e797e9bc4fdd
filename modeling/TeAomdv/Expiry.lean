import TeAomdv.Clock
import TeAomdv.LinkFailure
import TeAomdv.Once
import TeAomdv.Weights
import TeAomdv.Lib.Leases
/-!
# Expiry — neighbours and cached ids under the timers

`nb_expire` and the expiry of a cached broadcast id are leases (`Lib.Leases`): a handler leaves them, sets them ahead, or is the
purge that takes out what is over.  So under the timers the neighbours of a node are those it met or heard from of late,
and the requests it takes for duplicates are those it cached of late.
-/
namespace TeAomdv

open Fallible (Ends)
open Paced (Timed)

/-- Whose HELLO or PROB it is. -/
def Input.heardFrom : Input → Option NsAddr
  | .recv p =>
    if p.ptype = .teaomdv then
      match p.body with
      | .hello rp => some rp.rpDst
      | .prob => some p.saddr
      | _ => none
    else none
  | _ => none

theorem Input.heardFrom_eq_some {inp : Input} {id : NsAddr} : inp.heardFrom = some id ↔ inp.Hears id := by
  constructor
  · intro h
    unfold heardFrom at h
    split at h
    · rename_i p
      split at h
      · rename_i ht
        refine ⟨p, rfl, ht, ?_⟩
        split at h
        · rename_i rp hb
          exact .inl ⟨rp, hb, Option.some.inj h⟩
        · rename_i hb
          exact .inr ⟨hb, Option.some.inj h⟩
        · cases h
      · cases h
    · cases h
  · rintro ⟨p, rfl, ht, ⟨rp, hb, rfl⟩ | ⟨hb, rfl⟩⟩
    · simp [heardFrom, ht, hb]
    · simp [heardFrom, ht, hb]

namespace Agent

/-- When the neighbour expires. -/
def nbDue (a : Agent) (id : NsAddr) : Option ℚ := (a.nbhead.find? (fun nb => nb.nbAddr = id)).map (·.nbExpire)

/-- When the cached id expires. -/
def idDue (a : Agent) (k : NsAddr × Nat) : Option ℚ := (a.bihead.find? (Exec.sameId k.1 k.2)).map (·.expire)

end Agent

namespace Exec

variable {env : Env} {inp : Input} {x y : Exec} {id : NsAddr}

/-! ## Neighbours -/

/-- The neighbour's expiry is left alone, or set; it is set for one met or heard from. -/
def Lapses (env : Env) (inp : Input) (id : NsAddr) (x y : Exec) : Prop :=
  y.nbDue id = x.nbDue id ∨ (x.nbDue id = none ∨ inp.Hears id) ∧
    ∃ e, y.nbDue id = some e ∧ env.now + helloInterval ≤ e ∧ e ≤ env.now + 15 / 10 * allowedHelloLoss * helloInterval

theorem nbDue_congr (h : y.nbhead = x.nbhead) (id : NsAddr) : y.nbDue id = x.nbDue id := by
  unfold Agent.nbDue
  rw [h]

theorem nbDue_meet (x : Exec) (nb : Neighbor) (id : NsAddr) :
    ({ x with nbhead := nb :: x.nbhead } : Exec).nbDue id = if nb.nbAddr = id then some nb.nbExpire else x.nbDue id := by
  have h := nbLookup_meet x nb id
  show (Exec.nbLookup _ id).map _ = if _ then _ else (x.nbLookup id).map _
  rw [h]
  split <;> rfl

theorem nbDue_nbModify (x : Exec) (id' : NsAddr) {f : Neighbor → Neighbor} (ha : ∀ nb, (f nb).nbAddr = nb.nbAddr)
    (hf : ∀ nb, (f nb).nbExpire = nb.nbExpire) (id : NsAddr) : (x.nbModify id' f).nbDue id = x.nbDue id := by
  show (Exec.nbLookup _ id).map _ = (x.nbLookup id).map _
  rw [nbLookup_nbModify x id' ha]
  split
  · rw [Option.map_map]
    exact Option.map_congr (fun nb _ => hf nb)
  · rfl

theorem nbDue_part (x : Exec) {id' : NsAddr} (hne : id ≠ id') :
    ({ x with nbhead := x.nbhead.eraseP (fun nb => nb.nbAddr = id') } : Exec).nbDue id = x.nbDue id :=
  congrArg (Option.map _) (nbLookup_part x hne)

namespace Lapses

theorem refl (x : Exec) : Lapses env inp id x x := .inl rfl

theorem trans {z : Exec} (h : Lapses env inp id x y) (h' : Lapses env inp id y z) : Lapses env inp id x z := by
  rcases h' with h' | ⟨hwhy, hset⟩
  · unfold Lapses
    rw [h']
    exact h
  · refine .inr ⟨?_, hset⟩
    rcases h with h | ⟨hx, e, he, -⟩
    · rwa [← h]
    · rcases hwhy with hy | hh
      · rw [he] at hy
        cases hy
      · exact .inr hh

end Lapses

theorem nbDue_nbModify_ne (x : Exec) {id' : NsAddr} (hne : id ≠ id') {f : Neighbor → Neighbor}
    (ha : ∀ nb, (f nb).nbAddr = nb.nbAddr) : (x.nbModify id' f).nbDue id = x.nbDue id :=
  congrArg (Option.map _) ((nbLookup_nbModify x id' ha id).trans (if_neg hne))

theorem nbDue_nbModify_self (x : Exec) (id : NsAddr) {f : Neighbor → Neighbor} (ha : ∀ nb, (f nb).nbAddr = nb.nbAddr) :
    (x.nbModify id f).nbDue id = (x.nbLookup id).map (fun nb => (f nb).nbExpire) := by
  show (Exec.nbLookup _ id).map _ = _
  rw [nbLookup_nbModify x id ha, if_pos rfl, Option.map_map]
  rfl

theorem meet_lapses {id' : NsAddr} (hn : x.nbLookup id' = none) (id : NsAddr) : Lapses env inp id x
    { x with nbhead := Neighbor.new id' env.now (env.now + helloInterval * allowedHelloLoss) :: x.nbhead } := by
  have hdue : Agent.nbDue _ id = if id' = id then some (env.now + helloInterval * allowedHelloLoss) else x.nbDue id :=
    nbDue_meet x (Neighbor.new id' env.now (env.now + helloInterval * allowedHelloLoss)) id
  by_cases hid : id' = id
  · subst hid
    rw [if_pos rfl] at hdue
    refine .inr ⟨.inl (congrArg (Option.map _) hn), _, hdue, ?_, ?_⟩
    · exact add_le_add_right (by decide +kernel) _
    · exact add_le_add_right (by decide +kernel) _
  · rw [if_neg hid] at hdue
    exact .inl hdue

theorem hear_lapses {id' : NsAddr} {f : Neighbor → Neighbor} (hh : inp.Hears id')
    (hf : ∀ nb : Neighbor, nb.Refreshed env.now (f nb)) (id : NsAddr) : Lapses env inp id x (x.nbModify id' f) := by
  by_cases hid : id = id'
  · subst hid
    have hdue := nbDue_nbModify_self x id (fun nb => (hf nb).addr)
    cases hnb : x.nbLookup id with
    | none =>
      rw [hnb] at hdue
      have hnone : x.nbDue id = none := congrArg (Option.map _) hnb
      exact .inl (hdue.trans hnone.symm)
    | some nb =>
      rw [hnb] at hdue
      exact .inr ⟨.inr hh, _, hdue, (hf nb).expire⟩
  · exact .inl (nbDue_nbModify_ne x hid (fun nb => (hf nb).addr))

/-- **No handler but the purge takes a neighbour out**, and none sets an expiry but for one met or heard from. -/
theorem strokes_lapses (h : Strokes env inp x y) (hf : ¬ inp.Forgets) (id : NsAddr) : Lapses env inp id x y := by
  refine h.invariant (P := Lapses env inp id x) (fun z w hz hs => hz.trans ?_) (.refl x)
  cases hs with
  | meet hn => exact meet_lapses hn id
  | hear hh hr => exact hear_lapses hh hr id
  | note hr => exact .inl (nbDue_nbModify z _ (fun nb => (hr nb).addr) (fun nb => (hr nb).expire) id)
  | @judge id' =>
    exact .inl (nbDue_nbModify z id' (f := fun nb => (nb.setTV env.now).tvInit env.now) (fun _ => rfl) (fun _ => rfl) id)
  | part hp => exact absurd hp hf
  | request _ hy =>
    obtain ⟨rt, -, hs⟩ := exists_of_sendRequest hy
    exact .inl (nbDue_congr hs.nbs id)
  | hold => exact .inl (nbDue_congr (Quiet.enque env _ _).nbs id)
  | take => exact .inl (nbDue_congr (Quiet.deque env _ _).nbs id)
  | mark | raise | add | own | cache | answered | expire | send | act => exact .refl z

/-- What `nb_delete` salvages does not bear on the other neighbours. -/
theorem nbDelete_lapses (ifq : NsAddr → List Packet) (hx : x.toAgent.Rep) {id' : NsAddr} (hne : id ≠ id') :
    Ends (Lapses env (.timer .hello) id x) (x.nbDelete env ifq id') := by
  intro y hy
  obtain ⟨z, -, -, hnb, -, -, hy⟩ := nbDelete_eq_ok hx hy
  have hdue : (z.linkFailed env id').nbDue id = x.nbDue id :=
    (nbDue_congr ((nbhead_linkFailed env z id').trans hnb) id).trans (nbDue_part x hne)
  refine Lapses.trans (.inl hdue) (strokes_lapses (salvages_strokes _ _ y hy) ?_ id)
  rintro ⟨_, ⟨⟩⟩

/-- **`nb_purge` takes out what is over and nothing else.** -/
theorem nbPurge_due (ifq : NsAddr → List Packet) (hx : x.toAgent.Rep) {renewed : Prop} (hr : ¬ renewed) (id : NsAddr) :
    Ends (fun y => Leases.Step env.now helloInterval (15 / 10 * allowedHelloLoss * helloInterval) renewed True
      (x.nbDue id) (y.nbDue id)) (x.nbPurge env ifq) := by
  have hfind : ∀ nb ∈ x.nbhead, x.nbDue nb.nbAddr = some nb.nbExpire :=
    fun nb hnb => congrArg (Option.map _) (Keyed.find?_of_mem_nodup Neighbor.nbAddr hx.nbs hnb)
  by_cases hover : ∃ e, x.nbDue id = some e ∧ e ≤ env.now
  · obtain ⟨e, he, hle⟩ := hover
    refine Ends.mono (nbPurge_severs hx) (fun y hy => ?_)
    obtain ⟨nb, hnb, rfl⟩ := Option.map_eq_some_iff.1 he
    obtain rfl : nb.nbAddr = id := Keyed.key_of_find? hnb
    have hgone : y.nbDue nb.nbAddr = none := by
      have := (hy nb (List.mem_of_find?_eq_some hnb) hle).neighbors
      exact congrArg (Option.map _) (List.find?_eq_none.2 (fun nb' h => by simpa using this nb' h))
    rw [he, hgone]
    exact .drop trivial hle
  · have hwalk : Ends (fun y => y.toAgent.Rep ∧ Lapses env (.timer .hello) id x y) (x.nbPurge env ifq) := by
      refine Ends.foldlM (fun z nb hnb hz => ?_) ⟨hx, .refl x⟩
      split
      · rename_i hexp
        have hne : id ≠ nb.nbAddr := by
          rintro rfl
          exact hover ⟨nb.nbExpire, hfind nb hnb, hexp⟩
        intro w hw
        exact ⟨nbDelete_rep hz.1 nb.nbAddr w hw, hz.2.trans (nbDelete_lapses ifq hz.1 hne w hw)⟩
      · exact Ends.ok hz
    refine Ends.mono hwalk (fun y hy => ?_)
    rcases hy.2 with hsame | ⟨hwhy, e, he, h1, h2⟩
    · rw [hsame]
      exact .keep (fun h => absurd h hr) (fun _ e he => not_le.1 (fun hle => hover ⟨e, he, hle⟩))
    · rw [he]
      rcases hwhy with hnone | ⟨_, ⟨⟩, -⟩
      exact .grant (.inr hnone) h1 h2

/-- A HELLO or PROB of a neighbour sets its expiry. -/
theorem handle_hears (hh : inp.Hears id) : Ends (fun y => x.nbDue id = none ∨ ∃ e, y.nbDue id = some e ∧
    env.now + helloInterval ≤ e ∧ e ≤ env.now + 15 / 10 * allowedHelloLoss * helloInterval) (x.handle env inp) := by
  obtain ⟨p, rfl, ht, hbody⟩ := hh
  cases hnb : x.nbLookup id with
  | none => exact fun _ _ => .inl (congrArg (Option.map _) hnb)
  | some nb =>
    show Ends _ (x.recv env p)
    unfold recv recvTEAOMDV
    rw [if_pos ht]
    split
    · exact Ends.error _
    rcases hbody with ⟨rp, hb, rfl⟩ | ⟨hb, rfl⟩
    · simp only [hb]
      refine Ends.ok (.inr ⟨env.now + 15 / 10 * allowedHelloLoss * helloInterval, ?_, ?_, le_refl _⟩)
      · have hdue := nbDue_nbModify_self x rp.rpDst
          (f := fun nb => { nb with nbExpire := env.now + 15 / 10 * allowedHelloLoss * helloInterval }) (fun _ => rfl)
        unfold recvHello
        simp only [hnb]
        rw [hnb] at hdue
        exact hdue
      · exact add_le_add_right (by decide +kernel) _
    · simp only [hb]
      refine Ends.ok (.inr ⟨env.now + helloInterval, ?_, le_refl _, ?_⟩)
      · have hdue := nbDue_nbModify_self x p.saddr
          (f := fun nb => { nb with nbExpire := env.now + helloInterval, probRecvs := nb.probRecvs + 1 }) (fun _ => rfl)
        rw [hnb] at hdue
        exact hdue
      · exact add_le_add_right (by decide +kernel) _

/-- **A neighbour's expiry is a lease**: met or heard from, renewed; only the timer of the neighbours takes one out. -/
theorem handle_nbDue (hx : x.toAgent.Rep) (hq : x.DataQueue) (inp : Input) (id : NsAddr) :
    Ends (fun y => Leases.Step env.now helloInterval (15 / 10 * allowedHelloLoss * helloInterval)
      ((inp.heardFrom == some id) = true) (inp.clock = some .neighbor) (x.nbDue id) (y.nbDue id)) (x.handle env inp) := by
  by_cases hf : inp.Forgets
  · obtain ⟨ifq, rfl⟩ := hf
    rw [show (Input.clock (.timer (.neighbor ifq)) = some Clock.neighbor) = True from eq_true rfl]
    exact nbPurge_due ifq hx (by simp [Input.heardFrom]) id
  · have hclock : ¬ inp.clock = some .neighbor := fun h => hf (Input.forgets_of_clock h)
    intro y hy
    have hlapse := strokes_lapses (handle_strokes inp hq y hy) hf id
    by_cases hh : inp.Hears id
    · have hheard : (inp.heardFrom == some id) = true := by simpa using Input.heardFrom_eq_some.2 hh
      rcases handle_hears hh y hy with hnone | ⟨e, he, h1, h2⟩
      · rcases hlapse with hsame | ⟨-, e, he, h1, h2⟩
        · rw [hsame]
          exact .keep (fun _ => hnone) (fun h => absurd h hclock)
        · rw [he]
          exact .grant (.inl hheard) h1 h2
      · rw [he]
        exact .grant (.inl hheard) h1 h2
    · rcases hlapse with hsame | ⟨hnone | h, e, he, h1, h2⟩
      · rw [hsame]
        refine .keep (fun h => absurd (Input.heardFrom_eq_some.1 (by simpa using h)) hh) (fun h => absurd h hclock)
      · rw [he]
        exact .grant (.inr hnone) h1 h2
      · exact absurd h hh

/-! ## Cached ids -/

variable {k : NsAddr × Nat}

/-- The id is left alone, or cached. -/
def idTerms (env : Env) (x : Exec) (k : NsAddr × Nat) : Terms where
  index := x.index
  heap := 0
  ids := fun l => (l.find? (sameId k.1 k.2)).map (·.expire) = x.idDue k ∨
    x.idDue k = none ∧ (l.find? (sameId k.1 k.2)).map (·.expire) = some (env.now + bcastIdSave)

theorem idTerms_lawful (env : Env) (x : Exec) (k : NsAddr × Nat) : (x.idTerms env k).Lawful :=
  ⟨fun _ _ _ _ => trivial, fun _ _ _ _ _ _ => trivial, fun _ _ _ _ _ _ => trivial, fun _ _ _ => trivial,
    fun _ _ _ _ => trivial⟩

theorem idTerms_caches (env : Env) (x : Exec) (k : NsAddr × Nat) (s : NsAddr) (b : Nat) :
    (x.idTerms env k).Caches env.now s b := by
  intro l hl hnone
  by_cases hk : s = k.1 ∧ b = k.2
  · obtain ⟨rfl, rfl⟩ := hk
    have hnew : ({ src := k.1, id := k.2, expire := env.now + bcastIdSave } :: l : List BroadcastId).find? (sameId k.1 k.2) =
        some { src := k.1, id := k.2, expire := env.now + bcastIdSave } := List.find?_cons_of_pos (by simp [sameId])
    refine .inr ⟨?_, congrArg (Option.map _) hnew⟩
    rcases hl with hl | ⟨hx, -⟩
    · rw [← hl, hnone]
      rfl
    · exact hx
  · have hold : ({ src := s, id := b, expire := env.now + bcastIdSave } :: l : List BroadcastId).find? (sameId k.1 k.2) =
        l.find? (sameId k.1 k.2) := List.find?_cons_of_neg (by simpa [sameId] using hk)
    show Option.map _ (List.find? _ _) = _ ∨ _ ∧ Option.map _ (List.find? _ _) = _
    rw [hold]
    exact hl

theorem idTerms_marks (env : Env) (x : Exec) (k : NsAddr × Nat) (s : NsAddr) (b : Nat) : (x.idTerms env k).Marks s b := by
  intro l hl
  have hsame : ((Keyed.modifyFirst (sameId s b) (fun i => { i with count := 1 }) l).find? (sameId k.1 k.2)).map (·.expire) =
      (l.find? (sameId k.1 k.2)).map (·.expire) := by
    by_cases hk : s = k.1 ∧ b = k.2
    · obtain ⟨rfl, rfl⟩ := hk
      rw [Keyed.find?_modifyFirst (p := sameId k.1 k.2) (f := fun i => { i with count := 1 }) (fun _ h => h), Option.map_map]
      rfl
    · have hother : ∀ i : BroadcastId, sameId s b i = true → sameId k.1 k.2 i = false := by
        intro i hi
        obtain ⟨rfl, rfl⟩ := of_decide_eq_true hi
        exact decide_eq_false hk
      rw [Keyed.find?_modifyFirst_ne (f := fun i : BroadcastId => { i with count := 1 }) hother (fun i hi => hother i hi)]
  show Option.map _ (List.find? _ _) = _ ∨ _ ∧ Option.map _ (List.find? _ _) = _
  rw [hsame]
  exact hl

/-- `id_purge` takes out what is over and nothing else. -/
theorem idDue_idPurge (env : Env) (hx : x.toAgent.Rep) (k : NsAddr × Nat) :
    (x.idPurge env).idDue k = (x.idDue k).filter (fun e => env.now < e) := by
  have hkey : sameId k.1 k.2 = fun b : BroadcastId => decide ((b.src, b.id) = k) := by
    funext b
    simp [sameId, Prod.ext_iff]
  show (List.find? _ (List.filter _ _)).map _ = Option.filter _ (Option.map _ (List.find? _ _))
  rw [hkey, Keyed.find?_filter_key (fun b : BroadcastId => (b.src, b.id)) hx.ids, Option.filter_map]
  congr 2
  funext b
  simp

/-- **A cached id's expiry is a lease** that is never renewed. -/
theorem handle_idDue (hx : x.toAgent.Rep) (inp : Input) (k : NsAddr × Nat) :
    Ends (fun y => Leases.Step env.now bcastIdSave bcastIdSave (false = true) (inp.clock = some .broadcast)
      (x.idDue k) (y.idDue k)) (x.handle env inp) := by
  have hother : inp.clock ≠ some .broadcast → x.Takes (x.idTerms env k) env inp → Ends (fun y => Leases.Step env.now bcastIdSave
      bcastIdSave (false = true) (inp.clock = some .broadcast) (x.idDue k) (y.idDue k)) (x.handle env inp) := by
    intro hc hin
    refine Ends.mono (handle_meets (idTerms_lawful env x k) hin ⟨rfl, Nat.zero_le _, .inl rfl, fun _ _ => trivial,
      fun _ _ _ => trivial, fun _ _ => trivial⟩) (fun y hy => ?_)
    rcases hy.ids with hsame | ⟨hnone, hnew⟩
    · rw [show y.idDue k = x.idDue k from hsame]
      exact .keep nofun (fun h => absurd h hc)
    · rw [show y.idDue k = some _ from hnew]
      exact .grant (.inr hnone) (le_refl _) (le_refl _)
  cases inp with
  | recv p =>
    exact hother (by simp [Input.clock]) ⟨fun _ _ => trivial, fun _ _ => trivial, fun _ _ _ _ _ => trivial,
      fun rq _ _ => ⟨idTerms_caches env x k _ _, idTerms_marks env x k _ _⟩, fun _ _ _ => idTerms_marks env x k _ _,
      fun _ _ _ _ _ _ _ _ _ _ _ => trivial, fun _ _ _ _ _ _ _ => trivial, fun _ _ _ _ _ _ _ => trivial,
      fun _ _ _ => ⟨fun _ _ => trivial, fun _ _ _ _ _ _ => trivial⟩, fun _ _ _ _ => trivial⟩
  | tap | rtLlFailed => exact hother (by simp [Input.clock]) trivial
  | timer t =>
    cases t with
    | broadcast =>
      refine Ends.ok ?_
      rw [idDue_idPurge env hx k]
      cases hd : x.idDue k with
      | none => exact .keep nofun (fun _ _ h => nomatch h)
      | some e =>
        by_cases hlt : env.now < e
        · simp only [Option.filter_some, hlt, decide_true, if_true]
          refine .keep nofun (fun _ e' he' => ?_)
          obtain rfl := Option.some.inj he'
          exact hlt
        · simp only [Option.filter_some, hlt, decide_false]
          exact .drop rfl (not_lt.1 hlt)
    | trust => exact hother (by decide) (fun _ _ => trivial)
    | neighbor ifq => exact hother (by simp [Input.clock]) (fun _ _ _ _ _ _ => trivial)
    | hello | probe | routeCache | localRepair => exact hother (by simp [Input.clock]) trivial

end Exec

/-! ## Under the timers -/

namespace Agent

variable {id : NsAddr} {t : ℚ} {s : Timed Agent Clock ℚ}

theorem ends_of_ticking (h : Ticking id t s) {s' : Timed Agent Clock ℚ} {c : Pulse} (htick : paced.Ticks s c s') {Q : Exec → Prop}
    (hQ : (s.state.exec c.heap).toAgent.Rep → (s.state.exec c.heap).DataQueue → Ends Q ((s.state.exec c.heap).handle c.env c.inp)) :
    ∃ x, Q x ∧ x.toAgent = s'.state := by
  obtain ⟨x, hx, heq⟩ := handle_of_ticks htick
  have htidy := tidy_of_reach (reach_of_ticking h)
  exact ⟨x, hQ htidy.rep htidy.data x hx, heq⟩

/-- A node under its timers, and when each neighbour was last met or heard from. -/
def Hearing (id : NsAddr) (t : ℚ) : Timed Agent Clock ℚ × (NsAddr → Option ℚ) → Prop :=
  Runs.Reaches (Runs.watch paced.tick (Leases.stamp nbDue (fun c n => c.inp.heardFrom == some n))) (fun _ _ => True)
    (started id t, fun _ => none)

/-- A node under its timers, and when each broadcast id was last cached. -/
def Caching (id : NsAddr) (t : ℚ) : Timed Agent Clock ℚ × (NsAddr × Nat → Option ℚ) → Prop :=
  Runs.Reaches (Runs.watch paced.tick (Leases.stamp idDue (fun _ _ => false))) (fun _ _ => True) (started id t, fun _ => none)

/-- **The neighbours are those met or heard from of late**, by a HELLO or a PROB of theirs: one met or heard from less than two
seconds ago is a neighbour, and a neighbour was met or heard from in the last eleven. -/
theorem neighbor_of_hearing {last : NsAddr → Option ℚ} (h : Hearing id t (s, last)) (n : NsAddr) :
    (∀ u, last n = some u → s.now < u + helloInterval → ((s.state.exec 0).nbLookup n).isSome) ∧
      (((s.state.exec 0).nbLookup n).isSome →
        ∃ u, last n = some u ∧ s.now ≤ u + 15 / 10 * allowedHelloLoss * helloInterval + helloInterval) := by
  have hdue : (s.state.nbDue n).isSome = ((s.state.exec 0).nbLookup n).isSome := Option.isSome_map
  rw [← hdue]
  refine Leases.lease (k := Clock.neighbor) (timely_started id t) (fun _ => rfl) (by decide +kernel) gap_paced ?_ h n
  intro s c s' hs htick n
  obtain ⟨x, hstep, heq⟩ := ends_of_ticking hs htick (fun hrep hq => Exec.handle_nbDue hrep hq c.inp n)
  rw [← heq, htick.now]
  exact hstep

/-- A node that hears a neighbour. -/
def helloPulses : List Pulse :=
  startPulses ++ [pulse (1 / 8) (.recv
    { ptr := 0, saddr := 7, daddr := ipBroadcast, sport := rtPort, dport := rtPort, ttl := 1, body := .hello ⟨0, 7, 4, 0, 0, 0, 0, 0, 0, 0, 0⟩ })]

theorem neighbor_helloPulses : ∃ w, Runs.replay (Runs.watch paced.tick (Leases.stamp nbDue (fun c n => c.inp.heardFrom == some n)))
    helloPulses (started 5 0, fun _ => none) = some w ∧ ((w.1.state.exec 0).nbLookup 7).isSome ∧
      ∃ u, w.2 7 = some u ∧ w.1.now ≤ u + 15 / 10 * allowedHelloLoss * helloInterval + helloInterval := by
  obtain ⟨w, hw, hr, hn⟩ := Runs.Reaches.of_obeys (fun _ _ => true) (fun w => ((w.1.state.exec 0).nbLookup 7).isSome)
    (fun _ _ _ => trivial) helloPulses (.init : Hearing 5 0 (started 5 0, fun _ => none)) (by decide +kernel)
  exact ⟨w, hw, hn, (neighbor_of_hearing hr 7).2 hn⟩

/-- **The requests taken for duplicates are those cached of late**: a broadcast id stays cached for six seconds, and for no
more than twelve. -/
theorem idGet_of_caching {last : NsAddr × Nat → Option ℚ} (h : Caching id t (s, last)) (k : NsAddr × Nat) :
    (∀ u, last k = some u → s.now < u + bcastIdSave → ((s.state.exec 0).idGet k.1 k.2).isSome) ∧
      (((s.state.exec 0).idGet k.1 k.2).isSome → ∃ u, last k = some u ∧ s.now ≤ u + bcastIdSave + bcastIdSave) := by
  have hdue : (s.state.idDue k).isSome = ((s.state.exec 0).idGet k.1 k.2).isSome := Option.isSome_map
  rw [← hdue]
  refine Leases.lease (k := Clock.broadcast) (timely_started id t) (fun _ => rfl) (by decide +kernel) gap_paced ?_ h k
  intro s c s' hs htick k
  obtain ⟨x, hstep, heq⟩ := ends_of_ticking hs htick (fun hrep _ => Exec.handle_idDue hrep c.inp k)
  rw [← heq, htick.now]
  exact hstep

/-- A node that hears a request. -/
def requestPulses : List Pulse :=
  startPulses ++ [pulse (1 / 8) (.recv
    { ptr := 0, saddr := 2, daddr := ipBroadcast, sport := rtPort, dport := rtPort, ttl := 20, prevHop := 2
      body := .rreq ⟨1, 7, 9, 0, 1, 4, 0, 2, trustThreshold, 1, 1⟩ })]

theorem idGet_requestPulses : ∃ w, Runs.replay (Runs.watch paced.tick (Leases.stamp idDue (fun _ _ => false)))
    requestPulses (started 5 0, fun _ => none) = some w ∧ ((w.1.state.exec 0).idGet 1 7).isSome ∧
      ∃ u, w.2 (1, 7) = some u ∧ w.1.now ≤ u + bcastIdSave + bcastIdSave := by
  obtain ⟨w, hw, hr, hn⟩ := Runs.Reaches.of_obeys (fun _ _ => true) (fun w => ((w.1.state.exec 0).idGet 1 7).isSome)
    (fun _ _ _ => trivial) requestPulses (.init : Caching 5 0 (started 5 0, fun _ => none)) (by decide +kernel)
  exact ⟨w, hw, hn, (idGet_of_caching hr (1, 7)).2 hn⟩

end Agent

end TeAomdv

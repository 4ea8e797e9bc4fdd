import TeAomdv.TraceRecv
/-!
# TraceTimers — link failure, purging and trust rounds are runs of small steps

`handle_trace` gathers everything: one invocation of the agent is a run of `Micro` steps on what it hears.
-/
namespace TeAomdv

open Relation (ReflTransGen)
open Fallible (Traces ok_bind error_bind)

namespace Exec

variable {env : Env} {h : Heard} {x y : Exec} {d : NsAddr} {e : RtEntry} {p : Packet}

/-! ## Link failure -/

/-- What the walk does to the entry it comes to: nothing, if no live path goes by way of `id`; else that path goes, and
with the last path the entry goes down and, if it is to be reported, gets a slot. -/
theorem failEntry_cases {id : NsAddr} {acc acc' : Exec × List (NsAddr × Nat)} (hok : failEntry env id acc d = .ok acc') :
    (acc' = acc ∧ ∀ rt, acc.1.rtLookup d = some rt → rt.rtFlags = .up → ∀ path ∈ rt.rtPathList, path.nexthop ≠ id) ∨
    ∃ rt, acc.1.rtLookup d = some rt ∧ rt.rtFlags = .up ∧ rt.rtSeqno % 2 = 0 ∧
      (((rt.pathDelete id).rtPathList ≠ [] ∧ acc' = (acc.1.put d (rt.pathDelete id), acc.2)) ∨
      ((rt.pathDelete id).rtPathList = [] ∧
        (acc' = (acc.1.put d (failed env.inf (rt.pathDelete id)), acc.2) ∨
          acc' = (acc.1.put d ((failed env.inf (rt.pathDelete id)).setError false),
            acc.2 ++ [(d, (failed env.inf rt).rtSeqno)])))) := by
  unfold failEntry at hok
  cases he : acc.1.rtLookup d with
  | none =>
    simp only [he] at hok
    exact .inl ⟨(Except.ok.inj hok).symm, fun _ hrt => (nomatch hrt)⟩
  | some rt =>
    simp only [he] at hok
    split at hok
    · rename_i hcond
      split at hok
      · cases hok
      rename_i heven
      obtain ⟨b, hb, hok⟩ := Fallible.bind_eq_ok hok
      have hnil := pathEmpty_eq_ok hb
      have hd : (rt.pathDelete id).rtDst = d := (rtDst_pathDelete rt id).trans (rtDst_of_rtLookup he)
      rw [rtModify_eq_put he] at hok
      refine .inr ⟨rt, rfl, hcond.1, not_not.1 heven, ?_⟩
      cases b with
      | false =>
        rw [if_neg Bool.false_ne_true] at hok
        exact .inl ⟨fun h => (nomatch hnil.2 h), (Except.ok.inj hok).symm⟩
      | true =>
        refine .inr ⟨hnil.1 rfl, ?_⟩
        rw [if_pos rfl] at hok
        split at hok
        · split at hok
          · cases hok
          · rw [put_rtModify he hd] at hok
            exact .inr (Except.ok.inj hok).symm
        · rw [put_rtModify he hd] at hok
          exact .inl (Except.ok.inj hok).symm
    · rename_i hcond
      refine .inl ⟨(Except.ok.inj hok).symm, ?_⟩
      rintro _ ⟨⟩ hup path hp hid
      refine hcond ⟨hup, ?_⟩
      unfold RtEntry.pathLookup
      rw [List.find?_isSome]
      exact ⟨path, hp, by simpa using hid⟩

theorem failEntry_ok {id : NsAddr} {slots : List (NsAddr × Nat)} {acc' : Exec × List (NsAddr × Nat)} (ht : x.Told slots)
    (hok : failEntry env id (x, slots) d = .ok acc') :
    acc' = (x, slots) ∨ ∃ rt e', x.rtLookup d = some rt ∧ acc'.1 = x.put d e' ∧ e'.rtPclist = rt.rtPclist ∧
      Rule env.inf x.teaomdvMaxPaths .clock rt.route e'.route ∧ acc'.1.Told acc'.2 := by
  rcases failEntry_cases hok with ⟨rfl, -⟩ | ⟨rt, he, hup, heven, hcase⟩
  · exact .inl rfl
  refine .inr ?_
  have hd : (rt.pathDelete id).rtDst = d := (rtDst_pathDelete rt id).trans (rtDst_of_rtLookup he)
  have hflags : (rt.pathDelete id).rtFlags ≠ .down := by rw [rtFlags_pathDelete, hup]; nofun
  have hroute : (failed env.inf (rt.pathDelete id)).route = rt.route.fall env.inf rt.route.failedSeqno := by
    rw [RtEntry.route_failed hflags, RtEntry.route_pathDelete]
    rfl
  have hrule : Rule env.inf x.teaomdvMaxPaths .clock rt.route (failed env.inf (rt.pathDelete id)).route := by
    rw [hroute]
    exact .failed hup heven
  have hpc : (failed env.inf (rt.pathDelete id)).rtPclist = rt.rtPclist := by simp [failed]
  have hd2 : (failed env.inf (rt.pathDelete id)).rtDst = d := (congrArg Route.dst hroute).trans (rtDst_of_rtLookup he)
  rcases hcase with ⟨hne, rfl⟩ | ⟨-, rfl | rfl⟩
  · exact ⟨rt, _, he, rfl, by simp, rule_pathDelete hup hne, told_put ht he hup hd⟩
  · exact ⟨rt, _, he, rfl, hpc, hrule, told_put ht he hup hd2⟩
  · refine ⟨rt, _, he, rfl, hpc, hrule, told_append (told_put ht he hup hd2) (rtLookup_put he hd2) ?_ ?_⟩
    · exact fun h => nomatch (congrArg Route.flags hroute).symm.trans h
    · have h1 := congrArg Route.seqno hroute
      have h2 := congrArg Route.seqno (RtEntry.route_failed (e := rt) (by rw [hup]; nofun) env.inf)
      exact h1.trans h2.symm

theorem failEntry_error {id : NsAddr} {slots : List (NsAddr × Nat)} {f : Fault}
    (herr : failEntry env id (x, slots) d = .error f) : Blame h x f := by
  unfold failEntry at herr
  cases he : x.rtLookup d with
  | none =>
    simp only [he] at herr
    cases herr
  | some rt =>
    simp only [he] at herr
    split at herr
    · rename_i hcond
      split at herr
      · rename_i hodd
        obtain rfl := Except.error.inj herr
        exact ⟨rt, mem_of_rtLookup he, hcond.1, hodd⟩
      · cases hp : (rt.pathDelete id).pathEmpty with
        | error f' =>
          rw [hp] at herr
          obtain rfl := Except.error.inj herr
          exact blame_pathEmpty hp x
        | ok b =>
          rw [hp] at herr
          simp only [ok_bind] at herr
          split at herr
          · split at herr
            · split at herr
              · obtain rfl := Except.error.inj herr
                trivial
              · cases herr
            · cases herr
          · cases herr
    · cases herr

theorem handleLinkFailure_trace (hh : h = .clock) (x : Exec) (id : NsAddr) : Trace env h x (x.handleLinkFailure env id) := by
  subst hh
  unfold handleLinkFailure
  simp only
  refine Traces.trans (Aside.alloc x).steps ?_
  have hround : ∀ a : Exec × List (NsAddr × Nat), ∀ d ∈ x.rtable.map (·.rtDst), a.1.Told a.2 →
      Traces (Micro env .clock) (Blame .clock) Prod.fst a.1 (failEntry env id a d) := by
    rintro ⟨y, slots⟩ d - ht
    refine Traces.of_cases (fun acc' hok => ?_) (fun f herr => failEntry_error herr)
    rcases failEntry_ok ht hok with rfl | ⟨rt, e', he, hx, hpc, hrule, -⟩
    · exact .refl
    · rw [hx]
      exact steps_put he hrule hpc
  have hinv : ∀ a : Exec × List (NsAddr × Nat), ∀ d ∈ x.rtable.map (·.rtDst), ∀ a', a.1.Told a.2 →
      failEntry env id a d = .ok a' → a'.1.Told a'.2 := by
    rintro ⟨y, slots⟩ d - a' ht hok
    rcases failEntry_ok ht hok with rfl | ⟨_, _, _, _, _, _, ht'⟩
    · exact ht
    · exact ht'
  have hnil : (x.alloc, ([] : List (NsAddr × Nat))).1.Told [] := fun _ hs => nomatch hs
  refine Traces.bind (Traces.foldlM (I := fun a : Exec × List (NsAddr × Nat) => a.1.Told a.2) hround hinv hnil) ?_
  rintro ⟨y, re⟩ hy
  have ht : y.Told re := Fallible.Ends.foldlM (Q := fun a : Exec × List (NsAddr × Nat) => a.1.Told a.2)
    (fun a c hc ha a' hok => hinv a c hc a' ha hok) hnil _ hy
  simp only
  split
  · exact Traces.ok (sendError_steps ht _ _)
  · exact (Aside.free _ _).trace

/-! ## Route cache -/

/-- A loop that only drops what is buffered changes nothing another node can tell. -/
theorem drain_drop (env : Env) (x : Exec) (d : NsAddr) (r : DropReason) :
    ∃ y, x.drain env d (fun x q => .ok (x.drop q r)) = .ok y ∧ Aside x y := by
  have loop : ∀ n x, ∃ y, drainLoop env d (fun x q => .ok (x.drop q r)) n x = .ok y ∧ Aside x y := by
    intro n
    induction n with
    | zero => exact fun x => ⟨x, rfl, .refl x⟩
    | succ n ih =>
      intro x
      have ha := Aside.deque env x d
      unfold drainLoop
      split
      · rename_i y hy
        rw [hy] at ha
        exact ⟨y, rfl, ha⟩
      · rename_i q y hy
        rw [hy] at ha
        obtain ⟨z, hz, hyz⟩ := ih (y.drop q r)
        exact ⟨z, hz, (ha.trans (Aside.drop y q r)).trans hyz⟩
  exact loop _ x

/-- What was done aside between two writes to an entry may be done before both. -/
theorem steps_put_aside {e₁ e₂ : RtEntry} (he : x.rtLookup d = some e) (hd : e₁.rtDst = d) (ha : Aside (x.put d e₁) y)
    (hr : Rule env.inf x.teaomdvMaxPaths h e.route e₂.route) (hp : e₂.rtPclist = e.rtPclist) :
    Steps env h x (y.put d e₂) := by
  let z : Exec := { y with rtable := x.rtable }
  have hxz : Aside x z := { ha with table := rfl }
  have hput : y.put d e₂ = z.put d e₂ := by
    have htable : (y.put d e₂).rtable = (z.put d e₂).rtable := by
      have := congrArg (fun x : Exec => x.rtable) (put_put x e₂ hd)
      unfold put rtModify at this ⊢
      simp only at this ⊢
      rw [ha.table]
      exact this
    unfold put rtModify at htable ⊢
    simp only at htable ⊢
    rw [htable]
  rw [hput]
  exact hxz.steps.trans (steps_put (x := z) he (hxz.maxPaths.symm ▸ hr) hp)

theorem sendBuffered_trace (d : NsAddr) : ∀ (n : Nat) (x : Exec) (delay : ℚ), x.DataQueue →
    TraceFst env h x (sendBuffered env d n (x, delay))
  | 0, _, _, _ => .ok .refl
  | n + 1, x, delay, hx => by
    have ha := Aside.deque env x d
    unfold sendBuffered
    split
    · rename_i y hy
      rw [hy] at ha
      exact Traces.ok ha.steps
    · rename_i q y hy
      rw [hy] at ha
      have hfwd : Trace env h y (y.forward env (some d) q delay) :=
        forward_some_trace (fun hpl => absurd (plain_of_ne (hx q (mem_of_deque hy).1).1) hpl) _
      refine Traces.trans ha.steps (Traces.bind hfwd (fun z hz => ?_))
      rw [hz] at hfwd
      exact sendBuffered_trace d n z _ (steps_dataQueue hfwd (ha.queue hx))

theorem purgeEntry_trace (hh : h = .clock) (hq : x.DataQueue) (delay : ℚ) (d : NsAddr) :
    TraceFst env h x (purgeEntry env (x, delay) d) := by
  subst hh
  unfold purgeEntry
  cases he : x.rtLookup d with
  | none =>
    simp only [he]
    exact Traces.ok .refl
  | some rt =>
    simp only [he]
    split
    · rename_i hcond
      obtain ⟨hup, -⟩ := hcond
      have hd1 : (rt.pathPurge env.now).rtDst = d := (rtDst_of_rtLookup he : rt.rtDst = d)
      rw [rtModify_eq_put he]
      cases hpe : (rt.pathPurge env.now).pathEmpty with
      | error f => exact Traces.error (blame_pathEmpty hpe x)
      | ok b =>
        have hnil := pathEmpty_eq_ok hpe
        simp only [ok_bind]
        cases b with
        | true =>
          rw [if_pos rfl]
          obtain ⟨y, hy, ha⟩ := drain_drop env (x.put d (rt.pathPurge env.now)) d .rtrRtexpire
          rw [hy]
          simp only [ok_bind]
          have hy' : y.rtLookup d = some (rt.pathPurge env.now) := by
            unfold rtLookup
            rw [ha.table]
            exact rtLookup_put he hd1
          rw [rtModify_eq_put hy']
          refine Traces.ok (steps_put_aside he hd1 ha ?_ ?_)
          · have hflags : (rt.pathPurge env.now).rtFlags ≠ .down := by
              show rt.rtFlags ≠ .down
              rw [hup]
              nofun
            rw [RtEntry.route_expired hflags]
            exact .expired hup
          · simp [expired, RtEntry.pathPurge]
        | false =>
          rw [if_neg Bool.false_ne_true]
          refine Traces.ok (steps_put he ?_ rfl)
          rw [RtEntry.route_pathPurge]
          refine .lose _ hup (fun h => ?_) (RtEntry.sublist_pathPurge rt env.now)
          have : (rt.pathPurge env.now).rtPathList = [] := by simpa [RtEntry.route] using h
          cases hnil.2 this
    · split
      · split
        · exact Traces.error trivial
        · exact sendBuffered_trace d _ x delay hq
      · split
        · refine Traces.bind (sendRequest_trace x d hq) (fun y _ => ?_)
          exact Traces.ok .refl
        · exact Traces.ok .refl

theorem rtPurge_trace (hh : h = .clock) (hq : x.DataQueue) : Trace env h x (x.rtPurge env) := by
  unfold rtPurge
  have hwalk : ∀ ds : List NsAddr, TraceFst env h x (ds.foldlM (purgeEntry env) (x, 0)) := by
    refine fun ds => Traces.foldlM (a := (x, (0 : ℚ))) (I := fun a : Exec × ℚ => a.1.DataQueue) ?_ ?_ hq
    · exact fun a d _ ha => purgeEntry_trace hh ha a.2 d
    · exact fun a d _ a' ha hok => steps_dataQueue ((purgeEntry_trace hh ha a.2 d).of_ok hok) ha
  exact Traces.bind (hwalk _) (fun a _ => Traces.ok .refl)

/-! ## Neighbours -/

theorem salvage_trace (x : Exec) (p : Packet) : Trace env h x (x.salvage env p) := by
  unfold salvage
  simp only
  refine Traces.trans (Aside.say x (a := .filter p) trivial).steps ?_
  split
  · exact (Aside.drop _ _ _).trace
  · rename_i hdata
    have hp : p.ptype ≠ .teaomdv := by
      intro heq
      simp [heq, dataPacket] at hdata
    split
    · refine forward_some_trace (fun hpl => ?_) _
      exact absurd (plain_of_ne hp) hpl
    · exact (Aside.drop _ _ _).trace

theorem nbDelete_trace (hh : h = .clock) (ifq : NsAddr → List Packet) (x : Exec) (id : NsAddr) :
    Trace env h x (x.nbDelete env ifq id) := by
  have h1 : Aside x { x with seqno := u32 (x.seqno + 2) } :=
    { seqno := fun h => by show u32 (x.seqno + 2) % 2 = 0; rw [u32_mod_two]; omega }
  have h2 : Aside { x with seqno := u32 (x.seqno + 2) }
      { x with seqno := u32 (x.seqno + 2), nbhead := x.nbhead.eraseP (fun nb => nb.nbAddr = id) } :=
    { nbs := Keyed.nodup_eraseP }
  unfold nbDelete
  simp only
  split
  · exact Traces.error trivial
  · refine Traces.trans (h1.trans h2).steps (Traces.bind (handleLinkFailure_trace hh _ id) (fun y _ => ?_))
    exact Traces.foldlM (I := fun _ => True) (fun z p _ _ => salvage_trace z p) (fun _ _ _ _ _ _ => trivial) trivial

theorem nbPurge_trace (hh : h = .clock) (ifq : NsAddr → List Packet) (x : Exec) : Trace env h x (x.nbPurge env ifq) := by
  unfold nbPurge
  refine Traces.foldlM (I := fun _ => True) (fun y nb _ _ => ?_) (fun _ _ _ _ _ _ => trivial) trivial
  split
  · exact nbDelete_trace hh ifq y nb.nbAddr
  · exact Traces.ok .refl

/-! ## Trust rounds -/

theorem nbAddr_setTV (nb : Neighbor) (now : ℚ) : ((nb.setTV now).tvInit now).nbAddr = nb.nbAddr := rfl

theorem trustEntry_aside (env : Env) (b : Batch) (id : NsAddr) : Aside b.x (trustEntry env b id).x := by
  have h1 : Aside b.x (b.x.nbModify id (fun nb => (nb.setTV env.now).tvInit env.now)) :=
    Aside.nbModify b.x id (fun nb => nbAddr_setTV nb env.now)
  unfold trustEntry
  simp only
  split
  · exact .refl _
  · split
    · exact h1.trans ((sendRcom_aside _ _ _).trans (Aside.alloc _))
    · exact h1

theorem setTrust_aside (env : Env) (x : Exec) : Aside x (x.setTrust env) := by
  have loop : ∀ (l : List NsAddr) (b : Batch), Aside b.x (l.foldl (trustEntry env) b).x := by
    intro l
    induction l with
    | nil => exact fun b => .refl b.x
    | cons id l ih => exact fun b => (trustEntry_aside env b id).trans (ih _)
  have h1 := (Aside.alloc x).trans (loop (x.nbhead.map (·.nbAddr)) ⟨x.alloc, x.blank, [], 0⟩)
  unfold setTrust
  simp only
  split
  · exact h1.trans (sendRcom_aside _ _ _)
  · exact h1

/-! ## One invocation -/

theorem localRepair_trace (hh : h = .repair) (x : Exec) (p : Packet) : Trace env h x (.ok (x.localRepair env p)) := by
  subst hh
  unfold localRepair
  cases he : x.rtLookup p.daddr with
  | none => exact (Aside.free _ _).trace
  | some rt =>
    simp only
    split
    · rename_i hnup
      rw [rtModify_eq_put he]
      refine Traces.ok (ReflTransGen.trans (steps_put he ?_ (by simp)) (Aside.free _ p).steps)
      by_cases hdown : rt.rtFlags = .down
      · have : rt.rtDown env.inf = rt := by
          unfold RtEntry.rtDown
          rw [if_pos hdown]
        rw [this]
        exact .keep
      · rw [RtEntry.route_rtDown hdown]
        exact .repaired hnup
    · exact (Aside.free _ _).trace

/-- **One invocation of the agent is a run of small steps on what it hears.** -/
theorem handle_trace {inp : Input} (hq : x.DataQueue) (hc : x.Calm) :
    Trace env (x.heard inp) x (x.handle env inp) := by
  cases inp with
  | recv p => exact recv_trace hq hc rfl
  | tap p => exact (tap_aside x p).trace
  | rtLlFailed p => exact (Aside.drop x p _).trace
  | timer t =>
    cases t with
    | broadcast => exact (Aside.idPurge env x).trace
    | hello =>
      show Trace _ _ _ (.ok (if x.rtHasActiveRoute then x.sendHello else x))
      split
      · exact (sendHello_aside x).trace
      · exact Traces.ok .refl
    | probe => exact (sendProb_aside x).trace
    | trust => exact (setTrust_aside env x).trace
    | neighbor ifq => exact nbPurge_trace rfl ifq x
    | routeCache => exact rtPurge_trace rfl hq
    | localRepair p => exact localRepair_trace rfl x p

end Exec

end TeAomdv

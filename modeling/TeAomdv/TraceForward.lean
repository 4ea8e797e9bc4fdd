import TeAomdv.Micro
/-!
# TraceForward — the transmission routines are runs of small steps

What a function of the source does is a run of `Micro` steps, and an assert that fails is blamed on the state it fails in
(`Trace`).  From the bottom up: the control packets, `sendRequest`, and `forward` on a packet it may send (`Relays`).
-/
namespace TeAomdv

open Relation (ReflTransGen)
open Fallible (Traces ok_bind error_bind)

namespace Exec

/-- A run of small steps. -/
abbrev Steps (env : Env) (h : Heard) : Exec → Exec → Prop := ReflTransGen (Micro env h)

/-- The outcome of a function run from `x`. -/
abbrev Trace (env : Env) (h : Heard) (x : Exec) (m : Result) : Prop := Traces (Micro env h) (Blame h) id x m

/-- The same, for a function that returns more than its state. -/
abbrev TraceFst {α : Type} (env : Env) (h : Heard) (x : Exec) (m : Except Fault (Exec × α)) : Prop :=
  Traces (Micro env h) (Blame h) Prod.fst x m

variable {env : Env} {h : Heard} {x y : Exec} {d : NsAddr} {e : RtEntry} {p : Packet}

/-! ## What every step leaves alone -/

theorem steps_index (hs : Steps env h x y) : y.index = x.index := by
  induction hs with
  | refl => rfl
  | tail _ hm ih =>
    cases hm with
    | aside ha => exact ha.index.trans ih
    | entry | distrust | add | emit => exact ih

theorem steps_lenDiff (hs : Steps env h x y) : y.teaomdvPrimAltPathLenDiff = x.teaomdvPrimAltPathLenDiff := by
  induction hs with
  | refl => rfl
  | tail _ hm ih =>
    cases hm with
    | aside ha => exact ha.lenDiff.trans ih
    | entry | distrust | add | emit => exact ih

theorem steps_dataQueue (hs : Steps env h x y) (hq : x.DataQueue) : y.DataQueue := by
  induction hs with
  | refl => exact hq
  | tail _ hm ih =>
    cases hm with
    | aside ha => exact ha.queue ih
    | entry | distrust | add | emit => exact ih

theorem routeOf_of_rtLookup (he : x.rtLookup d = some e) : x.routeOf d = some e.route := by
  unfold routeOf
  rw [he]
  rfl

/-- An entry keeps its place; only a packet or a clock changes its number. -/
theorem steps_nothing_seqno {r : Route} (hs : Steps env .nothing x y) (hr : x.routeOf d = some r) :
    ∃ r', y.routeOf d = some r' ∧ r'.seqno = r.seqno := by
  induction hs with
  | refl => exact ⟨r, hr, rfl⟩
  | @tail y z _ hm ih =>
    obtain ⟨r', hr', hseq⟩ := ih
    have hput : ∀ {d' e e'}, y.rtLookup d' = some e → e'.rtDst = d' → e'.rtSeqno = e.rtSeqno →
        ∃ r'', (y.put d' e').routeOf d = some r'' ∧ r''.seqno = r.seqno := by
      intro d' e e' he hd hs
      by_cases hdd : d = d'
      · subst hdd
        have := hr'.symm.trans (routeOf_of_rtLookup he)
        obtain rfl := Option.some.inj this
        exact ⟨_, routeOf_of_rtLookup (rtLookup_put he hd), by rw [← hseq]; exact hs⟩
      · refine ⟨r', ?_, hseq⟩
        unfold routeOf
        rw [rtLookup_put_ne hd hdd]
        exact hr'
    cases hm with
    | entry e' he hrule => exact hput he (hrule.dst.trans (rtDst_of_rtLookup he)) hrule.seqno_of_nothing
    | distrust e' he _ hf =>
      exact hput he ((congrArg Route.dst hf).trans (rtDst_of_rtLookup he)) (congrArg Route.seqno hf)
    | @add d' hops hnone =>
      have hne : d' ≠ d := by
        rintro rfl
        unfold routeOf at hr'
        rw [hnone] at hr'
        cases hr'
      refine ⟨r', ?_, hseq⟩
      unfold routeOf rtLookup
      rw [List.find?_cons_of_neg (by simpa using hne)]
      exact hr'
    | emit => exact ⟨r', hr', hseq⟩
    | aside ha =>
      refine ⟨r', ?_, hseq⟩
      unfold routeOf rtLookup
      rw [ha.table]
      exact hr'

/-! ## Entries that fall -/

/-- Between two states no entry came up, and one brought down for distrust is as it fell. -/
structure Sinks (x y : Exec) : Prop where
  up : ∀ d e', y.rtLookup d = some e' → e'.rtFlags = .up →
    ∃ e, x.rtLookup d = some e ∧ e.rtFlags = .up ∧ e.rtSeqno = e'.rtSeqno
  fell : ∀ d n, Act.distrust d n 0 ∈ y.log → Act.distrust d n 0 ∈ x.log ∨
    ∃ e e', x.rtLookup d = some e ∧ e.rtFlags = .up ∧ e.rtSeqno = n ∧
      y.rtLookup d = some e' ∧ e'.rtFlags ≠ .up ∧ e'.rtSeqno = n

namespace Sinks

variable {z : Exec} {e' : RtEntry}

theorem refl (x : Exec) : Sinks x x := ⟨fun _ e he hup => ⟨e, he, hup, rfl⟩, fun _ _ h => .inl h⟩

/-- An entry is written that neither comes up nor, once down, changes its number. -/
theorem put (hs : Sinks x y) (he : y.rtLookup d = some e) (hd : e'.rtDst = d)
    (hup : e'.rtFlags = .up → e.rtFlags = .up ∧ e'.rtSeqno = e.rtSeqno) (hdown : e.rtFlags ≠ .up → e'.rtSeqno = e.rtSeqno) :
    Sinks x (y.put d e') where
  up d₁ e₁ he₁ hup₁ := by
    by_cases hdd : d₁ = d
    · subst hdd
      rw [rtLookup_put he hd] at he₁
      obtain rfl := Option.some.inj he₁
      obtain ⟨h1, h2⟩ := hup hup₁
      obtain ⟨e₀, he₀, hup₀, hs₀⟩ := hs.up d₁ e he h1
      exact ⟨e₀, he₀, hup₀, hs₀.trans h2.symm⟩
    · rw [rtLookup_put_ne hd hdd] at he₁
      exact hs.up d₁ e₁ he₁ hup₁
  fell d₁ n hm := by
    refine (hs.fell d₁ n hm).imp_right ?_
    rintro ⟨e₀, e₁, he₀, hup₀, hs₀, he₁, hnup, hs₁⟩
    by_cases hdd : d₁ = d
    · subst hdd
      obtain rfl := Option.some.inj (he.symm.trans he₁)
      exact ⟨e₀, e', he₀, hup₀, hs₀, rtLookup_put he hd, fun h => hnup (hup h).1, (hdown hnup).trans hs₁⟩
    · exact ⟨e₀, e₁, he₀, hup₀, hs₀, (rtLookup_put_ne hd hdd).trans he₁, hnup, hs₁⟩

/-- What is neither of an entry nor of distrust. -/
theorem aside (hs : Sinks x y) (ha : Aside y z) : Sinks x z where
  up d e₁ he₁ hup₁ := by
    rw [rtLookup_congr ha.table] at he₁
    exact hs.up d e₁ he₁ hup₁
  fell d n hm := by
    obtain ⟨acts, hl, hquiet⟩ := ha.log
    rw [hl] at hm
    rw [rtLookup_congr ha.table]
    exact (List.mem_append.1 hm).elim (hs.fell d n) (fun h => absurd rfl (hquiet _ h))

theorem micro (hs : Sinks x y) (hh : h = .nothing ∨ h = .clock) (hm : Micro env h y z) : Sinks x z := by
  cases hm with
  | entry e' he hr =>
    obtain ⟨hup, hdown⟩ := hr.sinks hh
    exact hs.put he (hr.dst.trans (rtDst_of_rtLookup he)) hup hdown
  | @distrust d e e' he hup hf =>
    have hd : e'.rtDst = d := (congrArg Route.dst hf).trans (rtDst_of_rtLookup he)
    have hnup : e'.rtFlags ≠ .up := fun h => nomatch (congrArg Route.flags hf).symm.trans h
    have hseq : e'.rtSeqno = e.rtSeqno := congrArg Route.seqno hf
    have hput := hs.put he hd (fun h => absurd h hnup) (fun _ => hseq)
    refine ⟨hput.up, fun d₁ n hm => ?_⟩
    rcases List.mem_append.1 hm with hm | hm
    · exact hput.fell d₁ n hm
    · obtain ⟨rfl, rfl⟩ : d₁ = d ∧ n = e.rtSeqno := by simpa using hm
      obtain ⟨e₀, he₀, hup₀, hs₀⟩ := hs.up d₁ e he hup
      exact .inr ⟨e₀, e', he₀, hup₀, hs₀, rtLookup_put he hd, hnup, hseq⟩
  | @add d hops hnone =>
    have hne : ∀ {d₁ e₁}, y.rtLookup d₁ = some e₁ → d ≠ d₁ := by
      rintro d₁ e₁ he₁ rfl
      rw [hnone] at he₁
      cases he₁
    refine ⟨fun d₁ e₁ he₁ hup₁ => ?_, fun d₁ n hm => (hs.fell d₁ n hm).imp_right ?_⟩
    · unfold rtLookup at he₁
      rw [List.find?_cons] at he₁
      split at he₁
      · obtain rfl := Option.some.inj he₁
        cases hup₁
      · exact hs.up d₁ e₁ he₁ hup₁
    · rintro ⟨e₀, e₁, he₀, hup₀, hs₀, he₁, hfell⟩
      refine ⟨e₀, e₁, he₀, hup₀, hs₀, ?_, hfell⟩
      exact (List.find?_cons_of_neg (by simpa using hne he₁)).trans he₁
  | emit =>
    refine ⟨hs.up, fun d₁ n hm => hs.fell d₁ n ?_⟩
    exact (List.mem_append.1 hm).elim id (fun h => by simp at h)
  | aside ha => exact hs.aside ha

end Sinks

theorem steps_sinks (hh : h = .nothing ∨ h = .clock) (hs : Steps env h x y) : Sinks x y := by
  induction hs with
  | refl => exact .refl x
  | tail _ hm ih => exact ih.micro hh hm

/-! ## Single steps -/

namespace Aside

theorem steps (ha : Aside x y) : Steps env h x y := .single (.aside ha)

theorem trace (ha : Aside x y) : Trace env h x (.ok y) := ha.steps

end Aside

theorem steps_put (he : x.rtLookup d = some e) {e' : RtEntry} (hr : Rule env.inf x.teaomdvMaxPaths h e.route e'.route)
    (hp : e'.rtPclist = e.rtPclist) : Steps env h x (x.put d e') :=
  .single (.entry e' he hr (fun hnd => hp ▸ hnd))

/-- A write that does not change the route. -/
theorem steps_keep (x : Exec) (d : NsAddr) {f : RtEntry → RtEntry} (hf : ∀ e, (f e).route = e.route)
    (hp : ∀ e : RtEntry, e.rtPclist.Nodup → (f e).rtPclist.Nodup) : Steps env h x (x.rtModify d f) := by
  cases he : x.rtLookup d with
  | none =>
    rw [rtModify_of_none he]
  | some e =>
    rw [rtModify_eq_put he]
    exact .single (.entry _ he (by rw [hf]; exact .keep) (hp e))

theorem routeOf_keep (x : Exec) (d : NsAddr) {f : RtEntry → RtEntry} (hf : ∀ e, (f e).route = e.route) :
    (x.rtModify d f).routeOf = x.routeOf := by
  funext d'
  cases he : x.rtLookup d with
  | none =>
    rw [rtModify_of_none he]
  | some e =>
    have hd : (f e).rtDst = d := (congrArg Route.dst (hf e)).trans (rtDst_of_rtLookup he)
    rw [rtModify_eq_put he]
    by_cases hdd : d' = d
    · subst hdd
      rw [routeOf_of_rtLookup (rtLookup_put he hd), routeOf_of_rtLookup he, hf]
    · unfold routeOf
      rw [rtLookup_put_ne hd hdd]

/-- Two states no advertisement tells apart. -/
structure Alike (x y : Exec) : Prop where
  index : y.index = x.index := by rfl
  seqno : y.seqno = x.seqno := by rfl
  routeOf : y.routeOf = x.routeOf := by rfl

theorem Alike.trans {x y z : Exec} (h : Alike x y) (h' : Alike y z) : Alike x z :=
  ⟨h'.index.trans h.index, h'.seqno.trans h.seqno, h'.routeOf.trans h.routeOf⟩

theorem Alike.honest {inf : Nat} (ha : Alike x y) (hp : x.Honest inf h p) : y.Honest inf h p :=
  hp.congr ha.index ha.seqno ha.routeOf

theorem Alike.advertises {inf s k : Nat} {l : NsAddr} (ha : Alike x y) (hp : x.Advertises inf d s k l) :
    y.Advertises inf d s k l := by
  unfold Advertises at *
  rwa [ha.routeOf]

theorem alike_keep (x : Exec) (d : NsAddr) {f : RtEntry → RtEntry} (hf : ∀ e, (f e).route = e.route) :
    Alike x (x.rtModify d f) where
  routeOf := routeOf_keep x d hf

theorem alike_nbEnsure (env : Env) (x : Exec) (id : NsAddr) : Alike x (x.nbEnsure env id) := by
  unfold nbEnsure nbInsert
  split
  · split <;> exact {}
  · exact {}

theorem exists_of_routeOf {r : Route} (hr : x.routeOf d = some r) : ∃ e, x.rtLookup d = some e ∧ e.route = r :=
  Option.map_eq_some_iff.1 hr

theorem steps_schedule (hp : ¬ p.Plain → x.Honest env.inf h p) (dl : Delay) : Steps env h x (x.schedule p dl) := by
  by_cases hpl : p.Plain
  · exact (Aside.schedule x hpl dl).steps
  · exact .single (.emit dl hpl (hp hpl))

theorem plain_of_ne (hp : p.ptype ≠ .teaomdv) : p.Plain := fun h => absurd h hp

/-! ## Control packets and route requests -/

theorem sendPta_aside (x : Exec) (p : Packet) (re : Pta) : Aside x (x.sendPta p re) :=
  .schedule x (fun _ => trivial) _

theorem reportDistrust_aside (dst : NsAddr) (s : Nat) (l : NsAddr → NsAddr) (x : Exec) (pc : NsAddr) :
    Aside x (reportDistrust dst s l x pc) :=
  (Aside.alloc x).trans (sendPta_aside _ _ _)

theorem sendHello_aside (x : Exec) : Aside x x.sendHello :=
  (Aside.alloc x).trans (.schedule _ (fun _ => trivial) _)

theorem sendRcom_aside (x : Exec) (p : Packet) (rc : Recommen) : Aside x (x.sendRcom p rc) :=
  .schedule x (fun _ => trivial) _

theorem sendProb_aside (x : Exec) : Aside x x.sendProb :=
  (Aside.alloc x).trans (.schedule _ (fun _ => trivial) _)

/-- What a loop does to each buffered packet is traced, so the loop is. -/
theorem drainLoop_trace {body : Exec → Packet → Result}
    (hb : ∀ y q, y.DataQueue → q.Data → Trace env h y (body y q)) (d : NsAddr) :
    ∀ (n : Nat) (x : Exec), x.DataQueue → Trace env h x (x.drainLoop env d body n)
  | 0, _, _ => .ok .refl
  | n + 1, x, hx => by
    have ha := Aside.deque env x d
    unfold drainLoop
    split
    · rename_i y hy
      rw [hy] at ha
      exact ha.trace
    · rename_i q y hy
      rw [hy] at ha
      refine Traces.trans ha.steps (Traces.bind (hb y q (ha.queue hx) (hx q (mem_of_deque hy).1)) (fun z hz => ?_))
      have hyz : Steps env h y z := by
        have := hb y q (ha.queue hx) (hx q (mem_of_deque hy).1)
        rwa [hz] at this
      exact drainLoop_trace hb d n z (steps_dataQueue hyz (ha.queue hx))

theorem drain_trace {body : Exec → Packet → Result}
    (hb : ∀ y q, y.DataQueue → q.Data → Trace env h y (body y q)) (d : NsAddr) (hx : x.DataQueue) :
    Trace env h x (x.drain env d body) :=
  drainLoop_trace hb d _ x hx

theorem emitRequest_trace (x : Exec) (p : Packet) (rt : RtEntry) : Trace env h x (x.emitRequest env p rt) := by
  have ha : Aside x { x with bid := u32 (x.bid + 1), seqno := u32 (x.seqno + 2) } :=
    { seqno := fun h => by show u32 (x.seqno + 2) % 2 = 0; rw [u32_mod_two]; omega }
  unfold emitRequest
  simp only
  refine Traces.trans ha.steps ?_
  split
  · exact Traces.error trivial
  · refine Traces.ok (steps_schedule (fun _ => ?_) _)
    exact ⟨rfl, .inl ⟨rfl, rfl, rfl⟩⟩

theorem sendRequest_trace (x : Exec) (d : NsAddr) (hq : x.DataQueue) : Trace env h x (x.sendRequest env d) := by
  unfold sendRequest
  simp only
  refine Traces.trans (Aside.alloc x).steps ?_
  split
  · exact Traces.error trivial
  · rename_i rt hrt
    split
    · split
      · exact Traces.error trivial
      · exact (Aside.free _ _).trace
    · split
      · exact (Aside.free _ _).trace
      · split
        · have hkeep : Steps env h x.alloc _ := steps_keep x.alloc d
            (f := fun rt => { rt with rtReqTimeout := env.now + maxRreqTimeout, rtReqCnt := 0 }) (fun _ => rfl) (fun _ h => h)
          refine Traces.trans hkeep (Traces.bind (drain_trace (fun y q _ _ => (Aside.drop y q _).trace) d hq) ?_)
          exact fun y _ => (Aside.free _ _).trace
        · exact Traces.trans (steps_keep x.alloc d (f := requested env) (fun _ => rfl) (fun _ h => h))
            (emitRequest_trace _ _ _)

/-! ## `forward` -/

theorem countForward_aside (env : Env) (x : Exec) (p : Packet) : Aside x (x.countForward env p) := by
  unfold countForward
  split
  · refine Aside.nbModify x _ (fun nb => ?_)
    unfold Neighbor.addDataForward Neighbor.recordCbr
    split
    · rfl
    · split <;> rfl
  · refine Aside.nbModify x _ (fun nb => ?_)
    unfold Neighbor.addControlForward Neighbor.recordPtteaomdv
    split
    · rfl
    · split <;> rfl
  · exact .refl x

theorem countForward_alike (env : Env) (x : Exec) (p : Packet) : Alike x (x.countForward env p) := by
  unfold countForward
  split <;> exact {}

theorem pathEmpty_eq_ok {b : Bool} (he : e.pathEmpty = .ok b) : b = true ↔ e.rtPathList = [] := by
  unfold RtEntry.pathEmpty at he
  split at he
  · rename_i hnil
    split at he
    · cases he
      simpa using hnil
    · cases he
  · rename_i hnil
    split at he
    · cases he
      simpa using hnil
    · cases he

theorem blame_pathEmpty {f : Fault} (he : e.pathEmpty = .error f) (y : Exec) : Blame h y f := by
  unfold RtEntry.pathEmpty at he
  split at he <;> split at he <;> cases he <;> trivial

theorem rtDst_pathDelete (e : RtEntry) (id : NsAddr) : (e.pathDelete id).rtDst = e.rtDst :=
  congrArg Route.dst (RtEntry.route_pathDelete e id)

theorem rtFlags_pathDelete (e : RtEntry) (id : NsAddr) : (e.pathDelete id).rtFlags = e.rtFlags :=
  congrArg Route.flags (RtEntry.route_pathDelete e id)

theorem rtSeqno_pathDelete (e : RtEntry) (id : NsAddr) : (e.pathDelete id).rtSeqno = e.rtSeqno :=
  congrArg Route.seqno (RtEntry.route_pathDelete e id)

/-- A path is deleted, and it was not the last. -/
theorem rule_pathDelete {inf : Nat} {maxPaths : Int} (hup : e.rtFlags = .up) {id : NsAddr}
    (hne : (e.pathDelete id).rtPathList ≠ []) : Rule inf maxPaths h e.route (e.pathDelete id).route := by
  rw [RtEntry.route_pathDelete]
  refine .lose _ hup (fun hnil => hne ?_) List.eraseP_sublist
  have : (e.pathDelete id).route.hops = [] := by rw [RtEntry.route_pathDelete]; exact hnil
  simpa [RtEntry.route] using this

/-- The path is deleted; a last one takes the entry down under the number it has. -/
theorem forwardDistrust_trace (hup : ∀ e, x.rtLookup d = some e → e.rtFlags = .up) (path : Path) (p : Packet) :
    Trace env h x (x.forwardDistrust env d path p) := by
  unfold forwardDistrust downIfEmpty
  cases he : x.rtLookup d with
  | none => exact Traces.error trivial
  | some rt =>
    have hrt := hup rt he
    have ha := Aside.foldl (reportDistrust_aside rt.rtDst rt.rtSeqno (fun _ => path.lasthop)) rt.rtPclist x
    simp only
    generalize rt.rtPclist.foldl (reportDistrust rt.rtDst rt.rtSeqno (fun _ => path.lasthop)) x = y at ha ⊢
    have hy : y.rtLookup d = some rt := by
      unfold rtLookup
      rw [ha.table]
      exact he
    refine Traces.trans ha.steps ?_
    have hdst : (rt.pathDelete path.nexthop).rtDst = d := (rtDst_pathDelete rt _).trans (rtDst_of_rtLookup he)
    have hflags : (rt.pathDelete path.nexthop).rtFlags = .up := (rtFlags_pathDelete rt _).trans hrt
    cases hpe : (rt.pathDelete path.nexthop).pathEmpty with
    | error f => exact Traces.error (blame_pathEmpty hpe y)
    | ok b =>
      have hnil := pathEmpty_eq_ok hpe
      simp only [ok_bind]
      cases b with
      | true =>
        rw [if_pos rfl, rtModify_rtModify hy (f := fun rt => rt.pathDelete path.nexthop) hdst, hnil.1 rfl]
        refine Traces.ok (.tail (.single (.distrust _ hy hrt ?_ (by simp))) (.aside (.drop _ p _)))
        show ((rt.pathDelete path.nexthop).rtDown env.inf).route = _
        rw [RtEntry.route_rtDown (by rw [hflags]; nofun), RtEntry.route_pathDelete, rtSeqno_pathDelete]
        rfl
      | false =>
        have hne : (rt.pathDelete path.nexthop).rtPathList ≠ [] := fun h => nomatch hnil.2 h
        rw [if_neg Bool.false_ne_true, rtModify_eq_put hy]
        have hq : (Act.distrust d rt.rtSeqno (rt.pathDelete path.nexthop).rtPathList.length).Quiet :=
          fun h => hne (List.length_eq_zero_iff.1 h)
        exact Traces.ok ((steps_put hy (rule_pathDelete hrt hne) (by simp)).trans
          ((Aside.say _ hq).trans (Aside.drop _ p _)).steps)

/-- The packet goes out as it is, after steps no advertisement shows. -/
theorem forwardSend_trace (hp : ¬ p.Plain → x.Honest env.inf h p) (delay : ℚ) :
    Trace env h x (x.forwardSend env d p delay) := by
  unfold forwardSend
  simp only
  have hexp : ∀ rt : RtEntry,
      (rt.modifyFind (fun path => { path with expire := env.now + activeRouteTimeout })).route = rt.route :=
    fun rt => rt.route_modifyFind (fun _ => rfl)
  have h1 : Steps env h x ((x.countForward env p).rtModify d
      (fun rt => rt.modifyFind (fun path => { path with expire := env.now + activeRouteTimeout }))) :=
    (countForward_aside env x p).steps.trans (steps_keep _ d hexp (fun _ h => h))
  have a1 := (countForward_alike env x p).trans (alike_keep (x.countForward env p) d hexp)
  generalize (x.countForward env p).rtModify d
    (fun rt => rt.modifyFind (fun path => { path with expire := env.now + activeRouteTimeout })) = y at h1 a1 ⊢
  have h2 : Steps env h x
      (if p.saddr ≠ y.index ∧ dataPacket p.ptype then y.rtModify d (fun rt => rt.setError true) else y) := by
    split
    · exact h1.trans (steps_keep y d (fun _ => rfl) (fun _ h => h))
    · exact h1
  have a2 : Alike x (if p.saddr ≠ y.index ∧ dataPacket p.ptype then y.rtModify d (fun rt => rt.setError true) else y) := by
    split
    · exact a1.trans (alike_keep y d (fun _ => rfl))
    · exact a1
  generalize (if p.saddr ≠ y.index ∧ dataPacket p.ptype then y.rtModify d (fun rt => rt.setError true) else y) = z at h2 a2 ⊢
  refine Traces.trans h2 ?_
  split
  · exact Traces.error trivial
  · exact Traces.ok (steps_schedule (p := { p with direction := .down }) (fun hpl => a2.honest (hp hpl)) _)

/-- What a relayed reply must say for `forward` to send it. -/
def Relays (inf : Nat) (h : Heard) (x : Exec) (p : Packet) : Prop :=
  ∃ rp, p.body = .rrep rp ∧ rp.rpSrc = x.index ∧ rp.rpDst ≠ x.index ∧
    x.Advertises inf rp.rpDst rp.rpDstSeqno rp.rpHopCount rp.rpFirstHop ∧ Passes h rp.rpDstSeqno

theorem forwardRoute_trace (hp : ¬ p.Plain → x.Relays env.inf h p) (delay : ℚ) :
    Trace env h x (x.forwardRoute env d p delay) := by
  unfold forwardRoute
  cases he : x.rtLookup d with
  | none => exact Traces.error trivial
  | some rt =>
    simp only
    split
    · exact Traces.error trivial
    rename_i hup
    have hup : rt.rtFlags = .up := by simpa using hup
    split
    · rename_i hpath
      exact Traces.error (.inl ⟨rt, mem_of_rtLookup he, hup, List.head?_eq_none_iff.1 hpath⟩)
    rename_i path hpath
    have h1 : Steps env h x ((x.rtModify d (fun rt => rt.pcInsert p.prevHop)).nbEnsure env path.nexthop) :=
      (steps_keep x d (fun e => e.route_pcInsert _) (fun e => e.nodup_pcInsert _)).trans (Aside.nbEnsure env _ _).steps
    have a1 := (alike_keep x d (fun e => e.route_pcInsert p.prevHop)).trans (alike_nbEnsure env _ path.nexthop)
    have hi := a1.index
    generalize (x.rtModify d (fun rt => rt.pcInsert p.prevHop)).nbEnsure env path.nexthop = y at h1 a1 hi ⊢
    refine Traces.trans h1 ?_
    have hsend : ¬ p.Plain → y.Honest env.inf h
        { p with addrType := .inet, nextHop := path.nexthop, pprevHop := p.prevHop, prevHop := y.index } := by
      intro hpl
      obtain ⟨rp, hb, hsrc, hdst, hadv, hs⟩ := hp hpl
      unfold Honest
      simp only [hb]
      exact ⟨trivial, by rw [hsrc, hi], .inr ⟨by rwa [hi], a1.advertises hadv, hs⟩⟩
    split
    · rename_i hcbr
      have hfpt : ∀ rt : RtEntry, (rt.modifyFind (fun q => { q with FPT := min path.FPT (y.trustOf path.nexthop) })).route
          = rt.route := fun rt => rt.route_modifyFind (fun _ => rfl)
      have a2 := a1.trans (alike_keep y d hfpt)
      refine Traces.trans (steps_keep y d hfpt (fun _ h => h)) ?_
      split
      · refine forwardDistrust_trace (fun e' he' => ?_) _ _
        have := (routeOf_of_rtLookup he').symm.trans ((congrFun a2.routeOf d).trans (routeOf_of_rtLookup he))
        exact (congrArg Route.flags (Option.some.inj this)).trans hup
      · exact forwardSend_trace (fun hpl => absurd (plain_of_ne (by rw [hcbr]; nofun)) hpl) delay
    · exact forwardSend_trace hsend delay

theorem forward_some_trace (hp : ¬ p.Plain → x.Relays env.inf h p) (delay : ℚ) :
    Trace env h x (x.forward env (some d) p delay) := by
  unfold forward
  split
  · exact (Aside.drop _ _ _).trace
  · split
    · exact (Aside.say x (a := .dmux p) trivial).trace
    · exact forwardRoute_trace hp delay

theorem forward_none_trace (hp : ¬ p.Plain → ∃ rq, p.body = .rreq rq ∧ x.Honest env.inf h p) (delay : ℚ) :
    Trace env h x (x.forward env none p delay) := by
  unfold forward
  split
  · exact (Aside.drop _ _ _).trace
  · split
    · exact (Aside.say x (a := .dmux p) trivial).trace
    · simp only
      split
      · refine Traces.ok (steps_schedule (fun hpl => ?_) _)
        obtain ⟨rq, hb, hh⟩ := hp hpl
        unfold Honest at hh ⊢
        simp only [hb] at hh ⊢
        exact hh
      · exact Traces.error trivial

end Exec

end TeAomdv

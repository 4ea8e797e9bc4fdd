import Mathlib.Algebra.Order.Field.Basic
import Mathlib.Tactic.Linarith
import Mathlib.Tactic.Positivity
import TeAomdv.TermsTimers
import TeAomdv.Reach
/-!
# Bounds — how far a trust value can go

Of the five quantities mixed into a `TV` four are fractions whatever is received, and the old `TV` is as long as it was
before.  The fifth, the delivery ratio, divides the probes counted by the probes due, and is a fraction exactly when no
more than those were counted (`Neighbor.Timely`): nothing cuts it off (`bounded_of_reach`).
-/
namespace TeAomdv

open Fallible (Ends)

/-- A value, once computed, lies between 0 and 1. -/
def Fraction (v : Option ℚ) : Prop := ∀ q ∈ v, 0 ≤ q ∧ q ≤ 1

theorem Fraction.some {q : ℚ} (h0 : 0 ≤ q) (h1 : q ≤ 1) : Fraction (some q) := by
  intro q' hq
  obtain rfl := Option.some.inj hq
  exact ⟨h0, h1⟩

theorem Fraction.getD {v : Option ℚ} (h : Fraction v) {q : ℚ} (h0 : 0 ≤ q) (h1 : q ≤ 1) :
    0 ≤ v.getD q ∧ v.getD q ≤ 1 := by
  cases v with
  | none => exact ⟨h0, h1⟩
  | some r => exact h r rfl

/-- What an RCOM built by `set_trust` says. -/
structure Recommen.Fair (rc : Recommen) : Prop where
  nbs : ∀ r ∈ rc.nbs, 0 ≤ r.2 ∧ r.2 ≤ 1
  itNum : 0 ≤ rc.itNum

namespace Neighbor

/-- What holds of a neighbour between two invocations. -/
structure Sound (nb : Neighbor) : Prop where
  control : nb.controlForwardCorrects ≤ nb.controlForwardAlls
  data : nb.dataForwardCorrects ≤ nb.dataForwardAlls
  directTrust : Fraction nb.directTrust
  recommenTrust : Fraction nb.recommenTrust
  activityDegree : Fraction nb.activityDegree
  deliveryRatio : ∀ q ∈ nb.deliveryRatio, 0 ≤ q
  tv : 0 ≤ nb.tv
  fenzi : 0 ≤ nb.fenzi
  fenmu : nb.fenzi ≤ nb.fenmu
  probRecvs : 0 ≤ nb.probRecvs
  trustedNbs : 2 ≤ nb.trustedNbs
  interactNbs : 2 ≤ nb.interactNbs

/-- No more probes were counted than one every `PROB_T`, unless it is too early to tell. -/
def Timely (nb : Neighbor) (now : ℚ) : Prop :=
  15 / 10 < now - nb.probStime → nb.probRecvs ≤ (now - nb.probStime) / probT

instance (nb : Neighbor) (now : ℚ) : Decidable (nb.Timely now) := inferInstanceAs (Decidable (_ → _))

/-! ## The five quantities -/

theorem judge_le (now : ℚ) (cells : List Node1) (num : Nat) {corrects alls : Nat} (h : corrects ≤ alls) :
    (judge now cells num corrects alls).corrects ≤ (judge now cells num corrects alls).alls := by
  have hstep : ∀ (l : List Nat) (s : Judged), s.corrects ≤ s.alls →
      (l.foldl (judgeStep now) s).corrects ≤ (l.foldl (judgeStep now) s).alls := by
    intro l
    induction l with
    | nil => exact fun _ hs => hs
    | cons i l ih =>
      intro s hs
      refine ih _ ?_
      unfold judgeStep
      split
      · exact hs
      split
      · exact Nat.succ_le_succ hs
      split
      · exact Nat.le_succ_of_le hs
      · exact hs
  exact hstep _ _ h

/-- A rate of confirmed packets, with its value for too few of them. -/
theorem rate_bounds {corrects alls k : Nat} (h : corrects ≤ alls) (hk : 0 < k) :
    (0 : ℚ) ≤ (if alls ≥ k then (corrects : ℚ) / alls else 9 / 10) ∧
      (if alls ≥ k then (corrects : ℚ) / alls else 9 / 10) ≤ (1 : ℚ) := by
  split
  · rename_i hle
    have hpos : (0 : ℚ) < alls := by exact_mod_cast hk.trans_le hle
    have hc : (corrects : ℚ) ≤ alls := by exact_mod_cast h
    exact ⟨by positivity, (div_le_one hpos).2 hc⟩
  · constructor <;> norm_num

variable {nb : Neighbor}

theorem Sound.setDirectTrust (h : nb.Sound) (now : ℚ) : Fraction (nb.setDirectTrust now).directTrust := by
  have hc := rate_bounds (judge_le now nb.ptteaomdvF nb.ptteaomdvNum h.control) (k := 2) (by decide)
  have hd := rate_bounds (judge_le now nb.cbrF nb.cbrNum h.data) (k := 5) (by decide)
  unfold Neighbor.setDirectTrust
  exact .some (by linarith [hc.1, hd.1]) (by linarith [hc.2, hd.2])

theorem Sound.setRecommenTrust (h : nb.Sound) : Fraction nb.setRecommenTrust.recommenTrust := by
  have h0 := h.fenzi
  have h1 := h.fenmu
  unfold Neighbor.setRecommenTrust
  simp only
  split
  · rename_i hle
    have hpos : 0 < nb.fenmu := by
      rcases le_max_iff.1 hle with hle | hle <;> linarith
    exact .some (div_nonneg h0 hpos.le) ((div_le_one hpos).2 h1)
  · exact .some (by norm_num) (by norm_num)

theorem half_of_two_le {t : ℚ} (h : 2 ≤ t) : 0 ≤ 1 / t ∧ 1 / t ≤ 1 / 2 :=
  ⟨by positivity, one_div_le_one_div_of_le (by norm_num) h⟩

theorem Sound.setActivityDegree (h : nb.Sound) : Fraction nb.setActivityDegree.activityDegree := by
  have ht := half_of_two_le h.trustedNbs
  have hi := half_of_two_le h.interactNbs
  unfold Neighbor.setActivityDegree aConstant
  exact .some (by linarith [ht.2, hi.2]) (by linarith [ht.1, hi.1])

theorem Sound.setDeliveryRatio (h : nb.Sound) (now : ℚ) : ∀ q ∈ (nb.setDeliveryRatio now).deliveryRatio, 0 ≤ q := by
  have h0 := h.probRecvs
  unfold Neighbor.setDeliveryRatio probT
  intro q hq
  obtain rfl := Option.some.inj hq
  split
  · rename_i hlt
    have hpos : 0 < now - nb.probStime := by linarith
    positivity
  · norm_num

/-- **The delivery ratio is a fraction exactly for probes counted in time.** -/
theorem deliveryRatio_le_one_iff (nb : Neighbor) (now : ℚ) :
    (∀ q ∈ (nb.setTV now).deliveryRatio, q ≤ 1) ↔ nb.Timely now := by
  have hset : (nb.setTV now).deliveryRatio = some (if 15 / 10 < now - nb.probStime then
      nb.probRecvs / ((now - nb.probStime) / probT) else 8 / 10) := rfl
  unfold Timely
  rw [hset]
  simp only [Option.mem_def, Option.some.injEq, forall_eq']
  split
  · rename_i hlt
    have hpos : 0 < (now - nb.probStime) / probT := by
      unfold probT
      exact div_pos (by linarith) (by norm_num)
    rw [div_le_one hpos]
    exact ⟨fun h _ => h, fun h => h hlt⟩
  · rename_i hlt
    exact ⟨fun _ h => absurd h hlt, fun _ => by norm_num⟩

/-! ## `set_TV` and `TV_init` -/

theorem setTV_tv (nb : Neighbor) (now : ℚ) : (nb.setTV now).tv =
    35 / 100 * (nb.setTV now).directTrust.getD 0 + 1 / 10 * (nb.setTV now).recommenTrust.getD 0 + 2 / 10 * nb.tv
      + 225 / 1000 * (nb.setTV now).deliveryRatio.getD 0 + 125 / 1000 * (nb.setTV now).activityDegree.getD 0 := rfl

theorem Sound.setTV (h : nb.Sound) (now : ℚ) : (nb.setTV now).Sound := by
  have hd : Fraction (nb.setTV now).directTrust := h.setDirectTrust now
  have hr : Fraction (nb.setTV now).recommenTrust := h.setRecommenTrust
  have ha : Fraction (nb.setTV now).activityDegree := h.setActivityDegree
  have hp : ∀ q ∈ (nb.setTV now).deliveryRatio, 0 ≤ q := h.setDeliveryRatio now
  refine ⟨?_, ?_, hd, hr, ha, hp, ?_, h.fenzi, h.fenmu, h.probRecvs, h.trustedNbs, h.interactNbs⟩
  · exact judge_le now nb.ptteaomdvF nb.ptteaomdvNum h.control
  · exact judge_le now nb.cbrF nb.cbrNum h.data
  · rw [setTV_tv]
    have h1 := (hd.getD (q := 0) (le_refl _) zero_le_one).1
    have h2 := (hr.getD (q := 0) (le_refl _) zero_le_one).1
    have h3 := (ha.getD (q := 0) (le_refl _) zero_le_one).1
    have h4 : 0 ≤ (nb.setTV now).deliveryRatio.getD 0 := hp _ rfl
    have h5 := h.tv
    linarith

/-- **The mixture of fractions is one.** -/
theorem Sound.setTV_le_one (h : nb.Sound) {now : ℚ} (htv : nb.tv ≤ 1) (ht : nb.Timely now) : (nb.setTV now).tv ≤ 1 := by
  have hs := h.setTV now
  rw [setTV_tv]
  have h1 := (hs.directTrust.getD (q := 0) (le_refl _) zero_le_one).2
  have h2 := (hs.recommenTrust.getD (q := 0) (le_refl _) zero_le_one).2
  have h3 := (hs.activityDegree.getD (q := 0) (le_refl _) zero_le_one).2
  have h4 : (nb.setTV now).deliveryRatio.getD 0 ≤ 1 := (deliveryRatio_le_one_iff nb now).2 ht _ rfl
  linarith

theorem Sound.tvInit (h : nb.Sound) (now : ℚ) : (nb.tvInit now).Sound := by
  refine ⟨le_refl _, ?_, h.directTrust, h.recommenTrust, h.activityDegree, h.deliveryRatio, h.tv, le_refl _, le_refl _,
    le_refl _, le_refl _, le_refl _⟩
  show (if nb.dataForwardAlls ≥ 5 then 0 else nb.dataForwardCorrects) ≤
    (if nb.dataForwardAlls ≥ 5 then 0 else nb.dataForwardAlls)
  have := h.data
  split <;> omega

theorem timely_tvInit (nb : Neighbor) (t now : ℚ) : (nb.tvInit t).Timely now := by
  intro hlt
  have hlt : 15 / 10 < now - t := hlt
  show 0 ≤ (now - t) / probT
  unfold probT
  exact div_nonneg (by linarith) (by norm_num)

theorem Sound.new (a : NsAddr) (now expire : ℚ) : (new a now expire).Sound := by
  have hnone : Fraction none := fun _ h => nomatch h
  exact Sound.tvInit ⟨le_refl _, le_refl _, hnone, hnone, hnone, fun q hq => (hnone q hq).1, zero_le_one, le_refl _,
    le_refl _, le_refl _, le_refl _, le_refl _⟩ now

/-! ## What is noted, recommended and probed -/

theorem Sound.notes {nb' : Neighbor} (h : nb.Sound) (hn : nb.Notes nb') : nb'.Sound where
  control := hn.control h.control
  data := hn.data h.data
  directTrust := hn.directTrust ▸ h.directTrust
  recommenTrust := hn.recommenTrust ▸ h.recommenTrust
  activityDegree := hn.activityDegree ▸ h.activityDegree
  deliveryRatio := hn.deliveryRatio ▸ h.deliveryRatio
  tv := hn.tv ▸ h.tv
  fenzi := hn.fenzi ▸ h.fenzi
  fenmu := by
    rw [hn.fenzi, hn.fenmu]
    exact h.fenmu
  probRecvs := hn.probRecvs ▸ h.probRecvs
  trustedNbs := hn.trustedNbs ▸ h.trustedNbs
  interactNbs := hn.interactNbs ▸ h.interactNbs

theorem Timely.notes {nb' : Neighbor} {now : ℚ} (h : nb.Timely now) (hn : nb.Notes nb') : nb'.Timely now := by
  unfold Timely
  rw [hn.probRecvs, hn.probStime]
  exact h

theorem Sound.recommend (h : nb.Sound) {w v : ℚ} (hw : 0 ≤ w) (hv : 0 ≤ v ∧ v ≤ 1) : Sound { nb with
    fenzi := nb.fenzi + w * v
    fenmu := nb.fenmu + w
    trustedNbs := if trustThreshold ≤ v then nb.trustedNbs + 1 else nb.trustedNbs } := by
  have hwv : w * v ≤ w := mul_le_of_le_one_right hw hv.2
  refine ⟨h.control, h.data, h.directTrust, h.recommenTrust, h.activityDegree, h.deliveryRatio, h.tv,
    add_nonneg h.fenzi (mul_nonneg hw hv.1), add_le_add h.fenmu hwv, h.probRecvs, ?_, h.interactNbs⟩
  show 2 ≤ if trustThreshold ≤ v then nb.trustedNbs + 1 else nb.trustedNbs
  have := h.trustedNbs
  split <;> linarith

end Neighbor

/-- The packet recommends nothing, or what `set_trust` would. -/
def Packet.Fair (p : Packet) : Prop := p.ptype = .teaomdv → ∀ rc, p.body = .rcom rc → rc.Fair

namespace Exec

/-! ## One invocation -/

/-- Neighbours are sound; those in `C` are trusted at most fully, and were probed in time if it is time `t`. -/
def soundTerms (x : Exec) (C : NsAddr → Prop) (t : Option ℚ) : Terms where
  index := x.index
  heap := 0
  waits q := q.ptype ≠ .teaomdv
  goes := Packet.Fair
  knows nb := nb.Sound ∧ (C nb.nbAddr → nb.tv ≤ 1 ∧ ∀ now ∈ t, nb.Timely now)

variable {x : Exec} {C : NsAddr → Prop} {t : Option ℚ} {env : Env}

theorem soundTerms_lawful (x : Exec) (C : NsAddr → Prop) (t : Option ℚ) : (x.soundTerms C t).Lawful where
  flush q n hq _ ht := absurd ht hq
  news q _ _ _ _ hrc _ rc hb := by
    obtain ⟨hnbs, hnum⟩ := hrc rc hb
    refine ⟨fun r hr => ?_, hnum⟩
    obtain ⟨nb, ⟨hnb, -⟩, heq⟩ := hnbs r hr
    rw [heq]
    exact hnb.directTrust.getD (le_refl _) zero_le_one
  request q rq hb _ _ _ _ rc hb' := by
    rw [hb] at hb'
    cases hb'
  fresh a now expire := ⟨.new a now expire, fun _ => ⟨le_refl _, fun now' _ => Neighbor.timely_tvInit _ now now'⟩⟩
  notes nb nb' hn h := by
    refine ⟨h.1.notes hn, fun hc => ?_⟩
    rw [hn.addr] at hc
    rw [hn.tv]
    exact ⟨(h.2 hc).1, fun now hm => ((h.2 hc).2 now hm).notes hn⟩

theorem soundTerms_recv {p : Packet} (hp : p.Fair)
    (hunset : p.ptype = .teaomdv → 0 ≤ env.unsetTrust p.saddr ∧ env.unsetTrust p.saddr ≤ 1) :
    x.Takes (x.soundTerms C none) env (.recv p) := by
  refine ⟨fun hres _ => ptype_passed hres, fun hres _ ht => absurd ht (ptype_passed hres), fun hne _ q _ hq ht => ?_,
    fun _ _ _ => ⟨fun _ _ _ => trivial, fun _ _ => trivial⟩, fun _ _ _ _ _ => trivial, ?_, ?_, ?_, ?_, ?_⟩
  · exact absurd (hq.symm.trans ht) hne
  · rintro rq - - q rp hb - - - - - - rc hb'
    rw [hb] at hb'
    cases hb'
  · rintro rq - - - rq' - - - rc ⟨⟩
  · rintro rp - - - rp' n - - rc ⟨⟩
  · intro rc ht hb
    obtain ⟨hnbs, hnum⟩ := hp ht rc hb
    obtain ⟨h0, h1⟩ := hunset ht
    refine ⟨fun nb hnb => ⟨?_, hnb.2⟩, fun nb nb' hnb hnb' r hr => ⟨?_, hnb'.2⟩⟩
    · obtain ⟨hs, -⟩ := hnb
      have hnum : (0 : ℚ) ≤ rc.itNum := by exact_mod_cast hnum
      refine ⟨hs.control, hs.data, hs.directTrust, hs.recommenTrust, hs.activityDegree, hs.deliveryRatio, hs.tv, hs.fenzi,
        hs.fenmu, hs.probRecvs, hs.trustedNbs, ?_⟩
      show (2 : ℚ) ≤ nb.interactNbs + rc.itNum
      have := hs.interactNbs
      linarith
    · exact hnb'.1.recommend (hnb.1.directTrust.getD h0 h1).1 (hnbs r hr)
  · rintro - - nb ⟨hs, hc⟩
    refine ⟨?_, fun h => ⟨(hc h).1, fun _ hm => nomatch hm⟩⟩
    exact ⟨hs.control, hs.data, hs.directTrust, hs.recommenTrust, hs.activityDegree, hs.deliveryRatio, hs.tv, hs.fenzi,
      hs.fenmu, add_nonneg hs.probRecvs zero_le_one, hs.trustedNbs, hs.interactNbs⟩

theorem soundTerms_trust : x.Takes (x.soundTerms C (some env.now)) env (.timer .trust) := by
  rintro nb ⟨hs, hc⟩
  refine ⟨(hs.setTV env.now).tvInit env.now, fun h => ?_⟩
  obtain ⟨htv, ht⟩ := hc h
  exact ⟨hs.setTV_le_one htv (ht _ rfl), fun now _ => Neighbor.timely_tvInit _ _ now⟩

/-- **Every handler keeps the neighbours sound**, and no trust rises above 1 in a round before which the probes were
counted in time. -/
theorem handle_sound {inp : Input} (hq : x.DataQueue) (hlog : x.log = [])
    (hp : ∀ p, inp = .recv p → p.Fair ∧
      (p.ptype = .teaomdv → 0 ≤ env.unsetTrust p.saddr ∧ env.unsetTrust p.saddr ≤ 1))
    (hround : inp = .timer .trust → ∀ nb ∈ x.nbhead, C nb.nbAddr → nb.Timely env.now)
    (hx : ∀ nb ∈ x.nbhead, nb.Sound ∧ (C nb.nbAddr → nb.tv ≤ 1)) :
    Ends (fun y => y.index = x.index ∧ (∀ q t, Act.schedule q t ∈ y.log → q.Fair) ∧
      ∀ nb ∈ y.nbhead, nb.Sound ∧ (C nb.nbAddr → nb.tv ≤ 1)) (x.handle env inp) := by
  have key : ∀ t, x.Takes (x.soundTerms C t) env inp →
      (∀ nb ∈ x.nbhead, C nb.nbAddr → ∀ now ∈ t, nb.Timely now) → Ends (Meets (x.soundTerms C t)) (x.handle env inp) := by
    intro t ht htimely
    refine handle_meets (x.soundTerms_lawful C t) ht ⟨rfl, Nat.zero_le _, trivial, fun q hm => (hq q hm).1, ?_, ?_⟩
    · rw [hlog]
      exact fun _ _ hm => absurd hm List.not_mem_nil
    · exact fun nb hm => ⟨(hx nb hm).1, fun hc => ⟨(hx nb hm).2 hc, htimely nb hm hc⟩⟩
  have hdone : ∃ t, Ends (Meets (x.soundTerms C t)) (x.handle env inp) := by
    cases inp with
    | recv p =>
      obtain ⟨hfair, hunset⟩ := hp p rfl
      exact ⟨none, key none (soundTerms_recv hfair hunset) (fun _ _ _ _ hm => nomatch hm)⟩
    | tap | rtLlFailed => exact ⟨none, key none trivial (fun _ _ _ _ hm => nomatch hm)⟩
    | timer tm =>
      cases tm with
      | trust =>
        refine ⟨some env.now, key _ soundTerms_trust (fun nb hm hc now hnow => ?_)⟩
        obtain rfl := Option.some.inj hnow
        exact hround rfl nb hm hc
      | neighbor ifq =>
        refine ⟨none, key none (fun id p _ hdata _ n ht => ?_) (fun _ _ _ _ hm => nomatch hm)⟩
        have ht : p.ptype = .teaomdv := ht
        rw [ht] at hdata
        cases hdata
      | broadcast => exact ⟨none, key none trivial (fun _ _ _ _ hm => nomatch hm)⟩
      | hello | probe | routeCache | localRepair => exact ⟨none, key none trivial (fun _ _ _ _ hm => nomatch hm)⟩
  obtain ⟨t, ht⟩ := hdone
  exact ht.mono (fun y hy => ⟨hy.index, hy.sent, fun nb hm => ⟨(hy.nbs nb hm).1, fun hc => ((hy.nbs nb hm).2 hc).1⟩⟩)

end Exec

namespace Net

variable {inf : Nat} {guard : Net → Event → Prop} {net : Net}

/-! ## Runs -/

/-- A direct trust read before it was ever computed is a fraction. -/
def unsetFraction (net : Net) (ev : Event) : Bool :=
  (net.packet ev).all (fun p => 0 ≤ ev.unsetTrust p.saddr ∧ ev.unsetTrust p.saddr ≤ 1)

/-- If the event is a trust round of node `i`, neighbour `id` was probed in time. -/
def timely (net : Net) (i id : NsAddr) (ev : Event) : Bool :=
  match ev.what with
  | .trustTimer => ev.node = i → (net.node i).nbhead.all (fun nb => nb.nbAddr = id → nb.Timely ev.now)
  | _ => true

/-- Every neighbour is sound, and trusted at most fully if the guard keeps its probes in time. -/
def Measured (guard : Net → Event → Prop) (a : Agent) : Prop :=
  ∀ nb ∈ a.nbhead, nb.Sound ∧ ((∀ net ev, guard net ev → net.timely a.index nb.nbAddr ev = true) → nb.tv ≤ 1)

theorem measured_of_reach (hguard : ∀ net ev, guard net ev → net.unsetFraction ev = true) (h : Reach inf guard net) :
    (∀ i, Measured guard (net.node i)) ∧ ∀ sp ∈ net.air, sp.2.Fair := by
  refine Runs.Reaches.invariant (P := fun net => (∀ i, Measured guard (net.node i)) ∧ ∀ sp ∈ net.air, sp.2.Fair)
    ⟨fun i nb hm => absurd hm List.not_mem_nil, fun sp hm => absurd hm List.not_mem_nil⟩
    (fun net ev net' hr hI hg hstep => ?_) h
  obtain ⟨inp, x, hinp, hx, rfl⟩ := step_eq_some hstep
  obtain ⟨htidy, hindex⟩ := tidy_of_reach hr ev.node
  have hrecv : ∀ p, inp = .recv p → p.Fair ∧
      (p.ptype = .teaomdv → 0 ≤ (ev.env inf).unsetTrust p.saddr ∧ (ev.env inf).unsetTrust p.saddr ≤ 1) := by
    rintro p rfl
    refine ⟨fun ht => ?_, fun ht => ?_⟩
    · obtain ⟨src, q, hq, rfl, -⟩ := recv_mem_air hinp ht
      exact hI.2 _ hq ht
    · have hunset := hguard _ _ hg
      unfold unsetFraction packet at hunset
      rw [hinp] at hunset
      simpa [ht, Event.env] using hunset
  have hround : inp = .timer .trust → ∀ nb ∈ (net.start ev.node).nbhead,
      (∀ net' ev', guard net' ev' → net'.timely (net.node ev.node).index nb.nbAddr ev' = true) →
        nb.Timely (ev.env inf).now := by
    rintro rfl nb hm hc
    have hin := hc net ev hg
    unfold timely at hin
    rw [show ev.what = .trustTimer from (input_eq_some hinp).2.2, hindex] at hin
    have hall := List.all_eq_true.1 (of_decide_eq_true hin rfl) nb hm
    exact of_decide_eq_true hall rfl
  obtain ⟨hi, hsent, hnbs⟩ := Exec.handle_sound (x := net.start ev.node)
    (C := fun id => ∀ net' ev', guard net' ev' → net'.timely (net.node ev.node).index id ev' = true)
    htidy.data rfl hrecv hround (hI.1 ev.node) x hx
  refine commit_forall ev.now hI.1 hI.2 ?_ (fun p hp => ?_)
  · intro nb hm
    rw [hi]
    exact hnbs nb hm
  · obtain ⟨t, ht⟩ := Exec.mem_log_of_sent hp
    exact hsent p t ht

/-- **What `set_TV` makes of a neighbour.**  Whatever was received and whenever it runs, the direct trust, the
recommended trust and the activity degree are fractions and nothing is negative; the delivery ratio is a fraction exactly
for probes counted in time; and so is the trust value, if they were in every round. -/
theorem bounded_of_reach (hguard : ∀ net ev, guard net ev → net.unsetFraction ev = true) (h : Reach inf guard net)
    (i : NsAddr) : ∀ nb ∈ (net.node i).nbhead, ∀ now,
      Fraction (nb.setTV now).directTrust ∧ Fraction (nb.setTV now).recommenTrust ∧
      Fraction (nb.setTV now).activityDegree ∧ (∀ q ∈ (nb.setTV now).deliveryRatio, 0 ≤ q) ∧ 0 ≤ (nb.setTV now).tv ∧
      ((∀ q ∈ (nb.setTV now).deliveryRatio, q ≤ 1) ↔ nb.Timely now) ∧
      ((∀ net ev, guard net ev → net.timely i nb.nbAddr ev = true) → nb.Timely now → (nb.setTV now).tv ≤ 1) := by
  intro nb hm now
  obtain ⟨hs, htv⟩ := (measured_of_reach hguard h).1 i nb hm
  rw [(tidy_of_reach h i).2] at htv
  have h' := hs.setTV now
  exact ⟨h'.directTrust, h'.recommenTrust, h'.activityDegree, h'.deliveryRatio, h'.tv,
    Neighbor.deliveryRatio_le_one_iff nb now, fun hc ht => hs.setTV_le_one (htv hc) ht⟩

/-- Node 2 gets to know node 1 by a request at time 1, counts `n` probes of it by time 2, and evaluates it at time 3. -/
def probedBy (n : Nat) : List Event :=
  [(What.cbr 1 2 0).on 1 1, (What.deliver 0).on 1 2] ++
    (List.range n).flatMap (fun k : Nat =>
      [What.probeTimer.on (1 + (k : ℚ) / n) 1, (What.deliver (k + 2)).on (1 + (k : ℚ) / n) 2]) ++
    [What.trustTimer.on 3 2]

theorem bounded_probedBy : ∃ net, replay 65535 (probedBy 10) = some net ∧ (net.node 2).nbhead.length = 1 ∧
    ∀ nb ∈ (net.node 2).nbhead, (nb.setTV 5).tv ≤ 1 := by
  let ok (net : Net) (ev : Event) : Bool := net.unsetFraction ev && net.timely 2 1 ev
  obtain ⟨net, hnet, hr, hfin⟩ := reach_of_obeys 65535 ok
    (fun net => (net.node 2).nbhead.length == 1 && (net.node 2).nbhead.all (fun nb => nb.nbAddr = 1 ∧ nb.Timely 5))
    (fun _ _ h => h) (probedBy 10) (by decide +kernel)
  obtain ⟨hlen, hall⟩ := Bool.and_eq_true_iff.1 hfin
  refine ⟨net, hnet, eq_of_beq hlen, fun nb hm => ?_⟩
  obtain ⟨haddr, ht⟩ := of_decide_eq_true (List.all_eq_true.1 hall nb hm)
  obtain ⟨-, -, -, -, -, -, htv⟩ := bounded_of_reach (fun _ _ h => (Bool.and_eq_true_iff.1 h).1) hr 2 nb hm 5
  refine htv (fun net ev h => ?_) ht
  rw [haddr]
  exact (Bool.and_eq_true_iff.1 h).2

/-- **Probes sent faster than one every `PROB_T` push the trust above 1.** -/
theorem not_bounded_probedBy : ∃ net, replay 65535 (probedBy 20) = some net ∧
    Reach 65535 (fun net ev => net.unsetFraction ev = true) net ∧
    ∃ nb ∈ (net.node 2).nbhead, 1 < nb.tv ∧ ∃ q ∈ nb.deliveryRatio, 1 < q := by
  obtain ⟨net, hnet, hr, hfin⟩ := reach_of_obeys 65535 unsetFraction
    (fun net => (net.node 2).nbhead.any (fun nb => 1 < nb.tv ∧ nb.deliveryRatio.any (fun q => 1 < q)))
    (fun _ _ h => h) (probedBy 20) (by decide +kernel)
  obtain ⟨nb, hm, hnb⟩ := List.any_eq_true.1 hfin
  obtain ⟨htv, hq⟩ := of_decide_eq_true hnb
  obtain ⟨q, hq, hlt⟩ := (Option.any_eq_true _ _).1 hq
  exact ⟨net, hnet, hr, nb, hm, htv, q, hq, of_decide_eq_true hlt⟩

end Net

end TeAomdv

import TeAomdv.Clock
import Mathlib.Algebra.Order.BigOperators.Group.List
import Mathlib.Tactic.Positivity
/-!
# Patience — how long a packet waits for a route

A packet is buffered until its route comes up or `sendRequest` gives up.  Each call that asks brings the entry nearer to the
call that gives up, and the timer of the route cache makes that call no later than half a second after the last request has
timed out.  So no packet waits longer than twelve seconds (`patient_of_ticking`), and the thirty seconds of the queue never
run out.
-/
namespace TeAomdv

open Fallible (Ends)
open Paced (Timed)
open Quest.Kept (last)

/-! ## The calls an entry is good for -/

/-- The requests an expanding ring sends before it is network-wide. -/
def rings (last : Int) : Nat :=
  if last = 0 then 2 else if last < 3 then 3 else if last < 5 then 2 else if last < ttlThreshold then 1 else 0

namespace RtEntry

variable {env : Env} {e e' : RtEntry} {due : ℚ}

/-- The calls of `sendRequest` that ask before one gives up. -/
def asks (e : RtEntry) : Nat := rings (last e) + (rreqRetries + 1 - e.rtReqCnt)

/-- When at the latest what waits for the entry is sent or dropped, if the route cache is next purged at `due`. -/
def patience (due : ℚ) (e : RtEntry) : ℚ := max due (e.rtReqTimeout + frequency) + (maxRreqTimeout + frequency) * e.asks

theorem asks_le (e : RtEntry) : e.asks ≤ 7 := by
  have h : rings (last e) ≤ 3 := by
    unfold rings
    split
    · omega
    split
    · omega
    split
    · omega
    split <;> omega
  have : rreqRetries = 3 := rfl
  unfold asks
  omega

theorem last_requested (env : Env) (e : RtEntry) :
    last (Exec.requested env e) = max (Exec.requestTtl (last e)) e.rtLastHopCount := rfl

/-- **A call that asks brings the next one that gives up nearer.** -/
theorem asks_requested (hhop : 0 ≤ e.rtLastHopCount) (hcnt : e.rtReqCnt ≤ rreqRetries) (env : Env) :
    (Exec.requested env e).asks + 1 ≤ e.asks := by
  have hlast : e.rtLastHopCount ≤ last e := le_max_right _ _
  have hreqCnt : (Exec.requested env e).rtReqCnt = if last e ≠ 0 ∧ ¬ last e < ttlThreshold then e.rtReqCnt + 1
    else e.rtReqCnt := rfl
  have h1 : rreqRetries = 3 := rfl
  have h2 : ttlThreshold = 7 := rfl
  have h4 : ttlIncrement = 2 := rfl
  have h5 : networkDiameter = 30 := rfl
  unfold asks
  rw [hreqCnt, last_requested]
  generalize last e = last at *
  by_cases hzero : last = 0
  · subst hzero
    have : e.rtLastHopCount = 0 := by omega
    rw [this, if_neg (by simp), show rings (max (Exec.requestTtl 0) 0) = 1 from by decide, show rings 0 = 2 from rfl]
    omega
  unfold rings Exec.requestTtl
  by_cases hwide : last < ttlThreshold
  · have hmax : max (last + ttlIncrement) e.rtLastHopCount = last + 2 := by omega
    simp only [hzero, hwide, if_true, if_false, hmax]
    simp only [h2] at hwide ⊢
    split_ifs <;> omega
  · have hmax : ¬ max networkDiameter e.rtLastHopCount < 7 := by omega
    simp only [hzero, if_false, h2]
    split_ifs <;> omega

theorem patience_le {now : ℚ} (ht : e.rtReqTimeout ≤ now + maxRreqTimeout) (hdue : due ≤ now + frequency) :
    e.patience due ≤ now + 12 := by
  have hasks : (e.asks : ℚ) ≤ 7 := by exact_mod_cast e.asks_le
  have hmax : max due (e.rtReqTimeout + frequency) ≤ now + (maxRreqTimeout + frequency) :=
    max_le (by unfold maxRreqTimeout; linarith) (by linarith)
  unfold patience
  unfold maxRreqTimeout frequency at *
  linarith

/-- What a call that asks leaves is no more patient. -/
theorem patience_requested (hhop : 0 ≤ e.rtLastHopCount) (hcnt : e.rtReqCnt ≤ rreqRetries) (hnow : env.now ≤ due) (hdue : due ≤ env.now + frequency) :
    (Exec.requested env e).patience due ≤ e.patience due := by
  have hasks : ((Exec.requested env e).asks : ℚ) + 1 ≤ e.asks := by exact_mod_cast asks_requested hhop hcnt env
  have hto := Exec.requested_timeout env e
  have hmax : max due ((Exec.requested env e).rtReqTimeout + frequency) ≤ env.now + (maxRreqTimeout + frequency) :=
    max_le (by unfold maxRreqTimeout; linarith) (by linarith)
  have hdue : due ≤ max due (e.rtReqTimeout + frequency) := le_max_left _ _
  unfold patience
  unfold maxRreqTimeout frequency at *
  linarith

theorem patience_congr (h : e'.rtReqTimeout = e.rtReqTimeout) (hc : e'.rtReqCnt = e.rtReqCnt) (ht : e'.rtReqLastTtl = e.rtReqLastTtl)
    (hh : e'.rtLastHopCount = e.rtLastHopCount) (due : ℚ) : e'.patience due = e.patience due := by
  unfold patience asks last
  rw [h, hc, ht, hh]

end RtEntry

namespace Exec

/-- The timeout of a request is ahead. -/
theorem requested_ahead (env : Env) {e : RtEntry} (h : 0 ≤ e.rtLastHopCount) : env.now < (requested env e).rtReqTimeout := by
  have hhop : 0 < perHopTime e := by
    unfold perHopTime
    simp only
    split
    · decide +kernel
    · rename_i hne
      have hne : e.rtDiscLatency.filter (fun l => 0 < l) ≠ [] := by simpa using hne
      have hsum : 0 < (e.rtDiscLatency.filter (fun l => 0 < l)).sum :=
        List.sum_pos _ (fun l hl => of_decide_eq_true (List.mem_filter.1 hl).2) hne
      exact div_pos hsum (by exact_mod_cast List.length_pos_of_ne_nil hne)
  have httl : 0 < requestTtl (last e) := by
    have : (0 : Int) ≤ last e := le_max_of_le_right h
    unfold requestTtl ttlStart ttlIncrement networkDiameter
    split_ifs <;> omega
  have hcnt : 0 < (if (requested env e).rtReqCnt > 0 then (requested env e).rtReqCnt else 1) := by
    split <;> omega
  have hmax : 0 < maxRreqTimeout := by decide +kernel
  obtain ⟨wait, hwait, hto⟩ : ∃ wait : ℚ, 0 < wait ∧ (requested env e).rtReqTimeout =
      if wait + env.now > env.now + maxRreqTimeout then env.now + maxRreqTimeout else wait + env.now :=
    ⟨2 * (requestTtl (last e) : ℚ) * perHopTime e *
      ((if (requested env e).rtReqCnt > 0 then (requested env e).rtReqCnt else 1 : Nat) : ℚ), by positivity, rfl⟩
  rw [hto]
  split <;> linarith

variable {env : Env} {inp : Input} {x y : Exec} {d : NsAddr}

/-! ## One handler -/

/-- No search is awaited for longer than one timeout. -/
def Awaits (env : Env) (x : Exec) : Prop :=
  ∀ d e, x.rtLookup d = some e → e.rtReqTimeout ≤ env.now + maxRreqTimeout ∧ 0 ≤ e.rtLastHopCount

theorem rtReqTimeout_sought (env : Env) (e : RtEntry) : (e.sought env).rtReqTimeout ≤ max e.rtReqTimeout (env.now + maxRreqTimeout) := by
  unfold RtEntry.sought
  split
  · exact le_max_left _ _
  · exact le_max_right _ _
  · exact le_max_of_le_right (requested_timeout env e)

theorem rtLastHopCount_sought (env : Env) (e : RtEntry) : (e.sought env).rtLastHopCount = e.rtLastHopCount := by
  unfold RtEntry.sought
  split <;> rfl

theorem strokes_awaits (h : Strokes env inp x y) (h0 : 0 ≤ env.now) (hx : x.Awaits env) : y.Awaits env := by
  have hmax : 0 ≤ env.now + maxRreqTimeout := add_nonneg h0 (by decide +kernel)
  refine h.invariant (P := Awaits env) (fun z w hz hs d e he => ?_) hx
  have ht := stroke_touch hs d
  have hd := hz d
  rw [he] at ht
  generalize z.rtLookup d = o at hd ht
  cases ht with
  | keep => exact hd e rfl
  | @mark e₀ _ hm =>
    obtain ⟨h1, h2⟩ := hd e₀ rfl
    exact ⟨hm.timeout ▸ h1, hm.hops ▸ h2⟩
  | @raise e₀ _ _ hr =>
    obtain ⟨h1, h2⟩ := hd e₀ rfl
    refine ⟨?_, hr.hops h2⟩
    rcases hr.timeout with h | h
    · exact h ▸ h1
    · exact h ▸ hmax
  | add => exact ⟨hmax, show (0 : Int) ≤ infinity2 by decide⟩
  | @request e₀ =>
    obtain ⟨h1, h2⟩ := hd e₀ rfl
    exact ⟨(rtReqTimeout_sought env e₀).trans (max_le h1 (le_refl _)), (rtLastHopCount_sought env e₀).symm ▸ h2⟩

/-- When at the latest what is buffered for `d` is sent or dropped. -/
def patience (env : Env) (due : ℚ) (x : Exec) (d : NsAddr) : ℚ := ((x.rtLookup d).map (RtEntry.patience due)).getD (env.now + 12)

/-- What is buffered for `d` has been waiting for no longer than there is patience. -/
def Patient (env : Env) (due : ℚ) (d : NsAddr) (x : Exec) : Prop :=
  ∀ q ∈ x.rqueue, q.daddr = d → x.patience env due d + (teaomdvRtqTimeout - 12) ≤ q.ts

theorem patience_some {e : RtEntry} (he : x.rtLookup d = some e) (due : ℚ) : x.patience env due d = e.patience due := by
  unfold patience
  rw [he]
  rfl

variable {due : ℚ}

theorem patience_le (hx : x.Awaits env) (hdue : due ≤ env.now + frequency) (d : NsAddr) : x.patience env due d ≤ env.now + 12 := by
  cases he : x.rtLookup d with
  | none =>
    unfold patience
    rw [he]
    exact le_refl _
  | some e =>
    rw [patience_some he]
    exact RtEntry.patience_le (hx d e he).1 hdue

/-- **A stroke leaves no more patience than there was**, unless it empties the buffer, or the entry is raised. -/
theorem stroke_patience (hs : Stroke env inp x y) (hd : ¬ inp.Advertises d) (hx : x.Awaits env) (hy : y.Awaits env)
    (hnow : env.now ≤ due) (hdue : due ≤ env.now + frequency) :
    y.patience env due d ≤ x.patience env due d ∨ ∀ q ∈ y.rqueue, q.daddr ≠ d := by
  have ht := stroke_touch hs d
  have hxd := hx d
  have hle := patience_le hy hdue d
  unfold patience at hle ⊢
  generalize x.rtLookup d = o at ht hxd
  generalize y.rtLookup d = o' at ht hle
  cases ht with
  | keep => exact .inl (le_refl _)
  | mark hm => exact .inl (RtEntry.patience_congr hm.timeout hm.cnt hm.ttl hm.hops due).le
  | raise h => exact absurd h hd
  | add => exact .inl hle
  | @request e _ hs =>
    show (e.sought env).patience due ≤ e.patience due ∨ _
    cases ha : e.attempt env with
    | rest =>
      refine .inl (le_of_eq (congrArg _ ?_))
      unfold RtEntry.sought
      rw [ha]
    | giveUp =>
      have hq := hs.queue
      rw [if_pos ha] at hq
      exact .inr (fun q hm => (hq q hm).2)
    | ask =>
      have hcnt : e.rtReqCnt ≤ rreqRetries := by
        unfold RtEntry.attempt at ha
        split at ha
        · cases ha
        split at ha
        · cases ha
        · omega
      have hsought : e.sought env = requested env e := by
        unfold RtEntry.sought
        rw [ha]
      rw [hsought]
      exact .inl (RtEntry.patience_requested (hxd e rfl).2 hcnt hnow hdue)

theorem strokes_patient (h : Strokes env inp x y) (hd : ¬ inp.Advertises d) (h0 : 0 ≤ env.now) (hnow : env.now ≤ due)
    (hdue : due ≤ env.now + frequency) (hx : x.Awaits env) (hp : x.Patient env due d) : y.Patient env due d := by
  have hinv : y.Awaits env ∧ y.Patient env due d := by
    refine h.invariant (P := fun z => z.Awaits env ∧ z.Patient env due d) (fun z w hz hs => ?_) ⟨hx, hp⟩
    have hw := strokes_awaits (.one hs) h0 hz.1
    refine ⟨hw, fun q hq hqd => ?_⟩
    rcases stroke_queue hs hq with hold | ⟨-, hts⟩
    · rcases stroke_patience hs hd hz.1 hw hnow hdue with hle | hnone
      · exact le_trans (add_le_add_left hle _) (hz.2 q hold hqd)
      · exact absurd hqd (hnone q hq)
    · have hle := patience_le hw hdue d
      rw [hts]
      linarith
  exact hinv.2

/-! ## The purge of the route cache -/

/-- What is buffered for `d` waits for a request that has not timed out. -/
def Asked (env : Env) (d : NsAddr) (x : Exec) : Prop :=
  ∀ q ∈ x.rqueue, q.daddr = d → ∀ e, x.rtLookup d = some e → env.now < e.rtReqTimeout

/-- The walk of `rt_purge` is under way: nothing is buffered for `d` without an entry, or with one that is up. -/
structure Sweeping (env : Env) (d : NsAddr) (x : Exec) : Prop where
  data : x.DataQueue
  awaits : x.Awaits env
  there : (x.rtLookup d).isSome
  waits : ∀ q ∈ x.rqueue, q.daddr = d → ∀ e, x.rtLookup d = some e → e.rtFlags ≠ .up

theorem not_advertises_timer (t : Timer) (d : NsAddr) : ¬ (Input.timer t).Advertises d := by
  rintro ⟨_, ⟨⟩, -⟩

theorem not_brings_timer (t : Timer) : ¬ (Input.timer t).Brings := by
  rintro ⟨_, ⟨⟩, -⟩

theorem Sweeping.strokes (hx : x.Sweeping env d) (h0 : 0 ≤ env.now) (h : Strokes env (.timer .routeCache) x y) :
    y.Sweeping env d := by
  refine h.invariant (P := Sweeping env d) (fun z w hz hs => ?_) hx
  have ht := stroke_touch hs d
  have hsome := hz.there
  have hflags : ∀ e', w.rtLookup d = some e' → ∃ e, z.rtLookup d = some e ∧ (e'.rtFlags = .up → e.rtFlags = .up) := by
    intro e' he'
    rw [he'] at ht
    generalize z.rtLookup d = o at ht hsome
    cases ht with
    | keep => exact ⟨e', rfl, id⟩
    | mark hm => exact ⟨_, rfl, hm.up⟩
    | raise had => exact absurd had (not_advertises_timer _ _)
    | add => cases hsome
    | @request e => exact ⟨e, rfl, fun h => (rtFlags_sought env e) ▸ h⟩
  refine ⟨strokes_dataQueue (.one hs) hz.data, strokes_awaits (.one hs) h0 hz.awaits, ?_, fun q hq hqd e' he' hup => ?_⟩
  · generalize w.rtLookup d = o' at ht
    generalize z.rtLookup d = o at ht hsome
    cases ht with
    | keep => exact hsome
    | mark | raise | add | request => rfl
  · obtain ⟨e, he, hkeep⟩ := hflags e' he'
    rcases stroke_queue hs hq with hold | ⟨hb, -⟩
    · exact hz.waits q hold hqd e he (hkeep hup)
    · exact absurd hb (not_brings_timer _)

/-- A call of `sendRequest` leaves a request that has not timed out, or nothing buffered. -/
theorem Sought.asked_of_down {e : RtEntry} (h : Sought env d e x y) (he : x.rtLookup d = some e) (hdown : e.rtFlags ≠ .up)
    (hhop : 0 ≤ e.rtLastHopCount) : y.Asked env d := by
  intro q hq hqd e' he'
  obtain rfl := Option.some.inj ((h.entry he).symm.trans he')
  have hqueue := h.queue
  unfold RtEntry.sought
  cases ha : e.attempt env with
  | rest =>
    unfold RtEntry.attempt at ha
    split at ha
    · rename_i hrest
      exact hrest.resolve_left hdown
    · split at ha <;> cases ha
  | giveUp =>
    rw [if_pos ha] at hqueue
    exact absurd hqd (hqueue q hq).2
  | ask => exact requested_ahead env hhop

theorem Asked.strokes (hx : x.Asked env d) (hs : x.Sweeping env d) (h0 : 0 ≤ env.now)
    (h : Strokes env (.timer .routeCache) x y) : y.Asked env d := by
  have hinv : y.Sweeping env d ∧ y.Asked env d := by
    refine h.invariant (P := fun z => z.Sweeping env d ∧ z.Asked env d) (fun z w hz hs => ?_) ⟨hs, hx⟩
    refine ⟨hz.1.strokes h0 (.one hs), fun q hq hqd e' he' => ?_⟩
    have ht := stroke_touch hs d
    have hsome := hz.1.there
    have hold : q ∈ z.rqueue := (stroke_queue hs hq).resolve_right (fun h => not_brings_timer _ h.1)
    have hz1 := hz.1.waits q hold hqd
    have hz2 := hz.2 q hold hqd
    cases he : z.rtLookup d with
    | none =>
      rw [he] at hsome
      cases hsome
    | some e =>
      rw [he, he'] at ht
      cases ht with
      | keep => exact hz2 _ he
      | mark hm => exact hm.timeout ▸ hz2 _ he
      | raise had => exact absurd had (not_advertises_timer _ _)
      | request _ hsought => exact hsought.asked_of_down he (hz1 e he) (hz.1.awaits d e he).2 q hq hqd _ (hsought.entry he)
  exact hinv.2

theorem purgeEntry_asked {acc : Exec × ℚ} (hx : acc.1.Sweeping env d) (h0 : 0 ≤ env.now) :
    Ends (fun r => r.1.Asked env d) (purgeEntry env acc d) := by
  intro r hr
  obtain ⟨e, he⟩ := Option.isSome_iff_exists.1 hx.there
  have hnone : (∀ q ∈ acc.1.rqueue, q.daddr ≠ d) → r.1.Asked env d := by
    intro hnone
    exact Asked.strokes (x := acc.1) (fun q hq hqd => absurd hqd (hnone q hq)) hx h0 (purgeEntry_strokes (.inl rfl) acc d hx.data r hr)
  by_cases hup : e.rtFlags = .up
  · exact hnone (fun q hq hqd => hx.waits q hq hqd e he hup)
  by_cases hfind : acc.1.rqFind d = true
  · unfold purgeEntry at hr
    simp only [he] at hr
    rw [if_neg (fun h => hup h.1), if_neg hup, if_pos hfind] at hr
    obtain ⟨y, hy, hr⟩ := Fallible.bind_eq_ok hr
    obtain rfl := Except.ok.inj hr
    exact (sendRequest_sought he y hy).asked_of_down he hup (hx.awaits d e he).2
  · refine hnone (fun q hq hqd => hfind ?_)
    unfold rqFind
    rw [List.find?_isSome]
    exact ⟨q, hq, by simpa using hqd⟩

/-- **After `rt_purge` nothing waits for a request that has timed out.** -/
theorem rtPurge_asked (hx : x.Sweeping env d) (h0 : 0 ≤ env.now) : Ends (Asked env d) (x.rtPurge env) := by
  have walk : ∀ (ds : List NsAddr) (acc : Exec × ℚ), acc.1.Sweeping env d → d ∈ ds ∨ acc.1.Asked env d →
      Ends (fun r => r.1.Asked env d) (ds.foldlM (purgeEntry env) acc) := by
    intro ds
    induction ds with
    | nil => exact fun acc _ h => Ends.ok (h.resolve_left List.not_mem_nil)
    | cons d' ds ih =>
      intro acc hacc h
      rw [List.foldlM_cons]
      intro r hr
      obtain ⟨r₁, hr₁, hr⟩ := Fallible.bind_eq_ok hr
      have hs : Strokes env (.timer .routeCache) acc.1 r₁.1 := purgeEntry_strokes (.inl rfl) acc d' hacc.data r₁ hr₁
      refine ih r₁ (hacc.strokes h0 hs) ?_ r hr
      rcases h with h | h
      · rcases List.mem_cons.1 h with rfl | h
        · exact .inr (purgeEntry_asked hacc h0 r₁ hr₁)
        · exact .inl h
      · exact .inr (h.strokes hacc h0 hs)
  obtain ⟨e, he⟩ := Option.isSome_iff_exists.1 hx.there
  have hmem : d ∈ x.rtable.map (·.rtDst) := List.mem_map.2 ⟨e, mem_of_rtLookup he, rtDst_of_rtLookup he⟩
  exact Ends.bind (walk _ (x, 0) hx (.inl hmem)) (fun r hr => Ends.ok hr)

/-! ## Every handler -/

/-- **Patience is kept by every handler**, and by `rt_purge` until it is next called. -/
theorem handle_patient (hq : x.DataQueue) (hw : x.Waits) (ha : x.Awaits env) (h0 : 0 ≤ env.now) (hnow : env.now ≤ due)
    (hdue : due ≤ env.now + frequency) (hp : ∀ d, x.Patient env due d) :
    Ends (fun y => ∀ d, y.Patient env due d ∧
      (inp = .timer .routeCache → due = env.now → y.Waits → y.Patient env (env.now + frequency) d)) (x.handle env inp) := by
  intro y hy d
  have hs := handle_strokes inp hq y hy
  have hpat : y.Patient env due d := by
    by_cases hd : inp.Advertises d
    · intro q hqy hqd
      obtain ⟨p, hinp, ht, hb⟩ := id hd
      rcases recv_clears ht hb y (hinp ▸ hy) with hnone | hkeep
      · exact absurd hqd (hnone q hqy)
      · have hbrings : ¬ inp.Brings := by
          rintro ⟨p, rfl, hne⟩
          obtain ⟨p', heq, ht, -⟩ := hd
          obtain rfl := Input.recv.inj heq
          exact hne ht
        have hqx : q ∈ x.rqueue := by
          refine hs.invariant (P := fun z => q ∈ z.rqueue → q ∈ x.rqueue) (fun z w hz h hm => ?_) id hqy
          exact hz ((stroke_queue h hm).resolve_right (fun hb => hbrings hb.1))
        obtain ⟨e, he, hup⟩ := hw q hqx
        rw [hqd] at he
        rw [patience_some (hkeep e he hup), ← patience_some he]
        exact hp d q hqx hqd
    · exact strokes_patient hs hd h0 hnow hdue ha (hp d)
  refine ⟨hpat, ?_⟩
  rintro rfl rfl hwy q hqy hqd
  obtain ⟨e', he', -⟩ := hwy q hqy
  rw [hqd] at he'
  have hqx : ∃ q' ∈ x.rqueue, q'.daddr = d := by
    refine ⟨q, ?_, hqd⟩
    refine hs.invariant (P := fun z => q ∈ z.rqueue → q ∈ x.rqueue) (fun z w hz h hm => ?_) id hqy
    exact hz ((stroke_queue h hm).resolve_right (fun hb => not_brings_timer _ hb.1))
  obtain ⟨q', hq', hqd'⟩ := hqx
  obtain ⟨e, he, hdown⟩ := hw q' hq'
  rw [hqd'] at he
  have hsweep : x.Sweeping env d := by
    refine ⟨hq, ha, by rw [he]; rfl, fun q₁ hq₁ hqd₁ e₁ he₁ => ?_⟩
    obtain rfl := Option.some.inj (he.symm.trans he₁)
    exact hdown
  have hahead := rtPurge_asked hsweep h0 y hy q hqy hqd e' he'
  have hle := hpat q hqy hqd
  rw [patience_some he'] at hle ⊢
  have hsame : e'.patience (env.now + frequency) = e'.patience env.now := by
    unfold RtEntry.patience
    rw [max_eq_right (by linarith), max_eq_right (by linarith [show (0 : ℚ) ≤ frequency by decide +kernel])]
  rwa [hsame]

end Exec

namespace Agent

variable {id : NsAddr} {t : ℚ} {s : Timed Agent Clock ℚ}

/-- The node's patience, its route cache being purged when that timer is due. -/
structure Patience (s : Timed Agent Clock ℚ) : Prop where
  nonneg : 0 ≤ s.now
  awaits : ∀ d e, (s.state.exec 0).rtLookup d = some e → e.rtReqTimeout ≤ s.now + maxRreqTimeout ∧ 0 ≤ e.rtLastHopCount
  waits : ∀ q ∈ s.state.rqueue, ∀ e, (s.state.exec 0).rtLookup q.daddr = some e →
    e.patience (s.due .routeCache) + (teaomdvRtqTimeout - 12) ≤ q.ts

theorem Patience.tick (hp : Patience s) (hs : Ticking id t s) {s' : Timed Agent Clock ℚ} {c : Pulse} (htick : paced.Ticks s c s') :
    Patience s' := by
  have hreach := reach_of_ticking hs
  have hnow' : s'.now = c.env.now := htick.now
  have hpast : s.now ≤ c.env.now := hnow' ▸ htick.past
  have h0 : 0 ≤ c.env.now := hp.nonneg.trans hpast
  have hnow : c.env.now ≤ s.due .routeCache := hnow' ▸ htick.before .routeCache
  have hdue : s.due .routeCache ≤ c.env.now + frequency := (timely_of_ticking hs .routeCache).2.trans (add_le_add_left hpast _)
  obtain ⟨x, hx, heq⟩ := handle_of_ticks htick
  have hwaits : (s.state.exec c.heap).Waits := waits_of_reach hreach c.heap
  have hawaits : (s.state.exec c.heap).Awaits c.env := by
    intro d e he
    obtain ⟨h1, h2⟩ := hp.awaits d e he
    exact ⟨h1.trans (add_le_add_left hpast _), h2⟩
  have hpat : ∀ d, (s.state.exec c.heap).Patient c.env (s.due .routeCache) d := by
    intro d q hq hqd
    obtain ⟨e, he, -⟩ := hwaits q hq
    subst hqd
    rw [Exec.patience_some he]
    exact hp.waits q hq e he
  have hdata : (s.state.exec c.heap).DataQueue := (tidy_of_reach hreach).data
  have hwx : x.Waits := Exec.handle_waits hdata (exec_calm _ _) hwaits x hx
  have hax := Exec.strokes_awaits (Exec.handle_strokes c.inp hdata x hx) h0 hawaits
  have hend := Exec.handle_patient hdata hwaits hawaits h0 hnow hdue hpat x hx
  refine ⟨hnow' ▸ h0, ?_, ?_⟩
  · rw [← heq, hnow']
    exact hax
  · rw [← heq]
    intro q hq e he
    have he : x.rtLookup q.daddr = some e := he
    have hown : x.patience c.env (s'.due .routeCache) q.daddr = e.patience (s'.due .routeCache) := Exec.patience_some he _
    rw [← hown]
    by_cases hk : paced.fires c = some .routeCache
    · obtain ⟨hfire, hdue'⟩ := htick.fired .routeCache hk
      have hinp : c.inp = .timer .routeCache := Input.routeCache_of_clock hk
      have hgap : paced.gap c = frequency := by
        show (c.inp.clock.map _).getD 0 = _
        rw [hinp]
        rfl
      rw [hdue', hnow', hgap]
      exact (hend q.daddr).2 hinp (hfire.symm.trans hnow') hwx q hq rfl
    · rw [htick.other .routeCache hk]
      exact (hend q.daddr).1 q hq rfl

/-- **No packet waits longer than twelve seconds for a route**, so none is out of time when the queue is next purged. -/
theorem patient_of_ticking (ht : 0 ≤ t) (h : Ticking id t s) : ∀ q ∈ s.state.rqueue,
    s.now ≤ q.ts - teaomdvRtqTimeout + 12 ∧ ∀ c s', paced.Ticks s c s' → ¬ q.ts < c.env.now := by
  have hp : Patience s := by
    refine h.invariant (P := Patience) ⟨ht, ?_, ?_⟩ (fun s c s' hs hp _ hs' => hp.tick hs (Paced.ticks hs'))
    · rintro d e ⟨⟩
    · intro q hq
      exact absurd hq List.not_mem_nil
  intro q hq
  obtain ⟨e, he, -⟩ := waits_of_reach (reach_of_ticking h) 0 q hq
  have hle := hp.waits q hq e he
  have hdue : s.due .routeCache ≤ e.patience (s.due .routeCache) := by
    have hasks : 0 ≤ (maxRreqTimeout + frequency) * (e.asks : ℚ) :=
      mul_nonneg (by decide +kernel) (Nat.cast_nonneg _)
    exact le_add_of_le_of_nonneg (le_max_left _ _) hasks
  have hlate : s.due .routeCache ≤ q.ts - teaomdvRtqTimeout + 12 := by linarith
  refine ⟨(timely_of_ticking h .routeCache).1.trans hlate, fun c s' htick => ?_⟩
  have hnow : s'.now = c.env.now := htick.now
  have hbefore : c.env.now ≤ s.due .routeCache := hnow ▸ htick.before .routeCache
  have h30 : (12 : ℚ) ≤ teaomdvRtqTimeout := by decide +kernel
  apply not_lt.2
  linarith

/-- A node that is given a packet for a destination it knows nothing of. -/
def packetPulses : List Pulse :=
  startPulses ++ [pulse (1 / 8) (.recv { ptr := 0, ptype := .cbr, saddr := 5, daddr := 9 })]

theorem patient_packetPulses : ∃ s, Runs.replay paced.tick packetPulses (started 5 0) = some s ∧ s.state.rqueue.length = 1 ∧
    ∀ q ∈ s.state.rqueue, s.now ≤ q.ts - teaomdvRtqTimeout + 12 := by
  obtain ⟨s, hs, hr, hlen⟩ := Runs.Reaches.of_obeys (fun _ _ => true) (fun s => s.state.rqueue.length == 1)
    (fun _ _ _ => trivial) packetPulses (.init : Ticking 5 0 (started 5 0)) (by decide +kernel)
  exact ⟨s, hs, eq_of_beq hlen, fun q hq => (patient_of_ticking (le_refl 0) hr q hq).1⟩

end Agent

end TeAomdv

import TeAomdv.StrokesRecv
import TeAomdv.Lib.Paced
import Mathlib.Data.Finset.Insert
import Mathlib.Tactic.Linarith
/-!
# Clock — a node under its timers (`command`, `TEAOMDV*Timer::handle`, `TrustTimer::expire`)

`start` fires five timers at once and sets the sixth; each timer, when it fires, does its work and is scheduled again.  The
simulator fires a timer when it is due and passes no due time by.  Nothing schedules the local repair timer, since link-layer
detection is compiled out.
-/
namespace TeAomdv

open Fallible (Ends)
open Paced (Timed)

/-- The timers `start` sets going. -/
inductive Clock
  | broadcast
  | hello
  | neighbor
  | trust
  | probe
  | routeCache
  deriving DecidableEq

instance : Fintype Clock where
  elems := {.broadcast, .hello, .neighbor, .trust, .probe, .routeCache}
  complete := by
    intro k
    cases k <;> decide

/-- `FREQUENCY`. -/
def frequency : ℚ := 5 / 10

/-- The time until a timer that fired fires again; `u` is what `Random::uniform()` returns. -/
def Clock.gap (u : ℚ) : Clock → ℚ
  | .broadcast => bcastIdSave
  | .hello => helloInterval + 1 / 10 * u
  | .neighbor => helloInterval
  | .trust =>
    let t := 1 / 100 * u
    if (100000 * t).floor % 2 ≠ 0 then trustTime + t else trustTime - t
  | .probe => probT
  | .routeCache => frequency

/-- The longest gap of each. -/
def Clock.bound : Clock → ℚ
  | .broadcast => bcastIdSave
  | .hello => helloInterval + 1 / 10
  | .neighbor => helloInterval
  | .trust => trustTime + 1 / 100
  | .probe => probT
  | .routeCache => frequency

def Input.clock : Input → Option Clock
  | .timer .broadcast => some .broadcast
  | .timer .hello => some .hello
  | .timer (.neighbor _) => some .neighbor
  | .timer .trust => some .trust
  | .timer .probe => some .probe
  | .timer .routeCache => some .routeCache
  | _ => none

theorem Input.forgets_of_clock {inp : Input} (h : inp.clock = some .neighbor) : inp.Forgets := by
  unfold clock at h
  split at h
  all_goals first
    | exact ⟨_, rfl⟩
    | cases h

theorem Input.routeCache_of_clock {inp : Input} (h : inp.clock = some .routeCache) : inp = .timer .routeCache := by
  unfold clock at h
  split at h
  all_goals first
    | rfl
    | cases h

theorem Clock.gap_bounds {u : ℚ} (h0 : 0 ≤ u) (h1 : u < 1) (k : Clock) : 0 ≤ k.gap u ∧ k.gap u ≤ k.bound := by
  cases k with
  | hello =>
    show 0 ≤ helloInterval + 1 / 10 * u ∧ helloInterval + 1 / 10 * u ≤ helloInterval + 1 / 10
    have : 0 ≤ helloInterval := by decide +kernel
    constructor <;> linarith
  | trust =>
    have hgap : Clock.trust.gap u = if (100000 * (1 / 100 * u)).floor % 2 ≠ 0 then trustTime + 1 / 100 * u
      else trustTime - 1 / 100 * u := rfl
    have hbound : Clock.trust.bound = trustTime + 1 / 100 := rfl
    have : (1 : ℚ) ≤ trustTime := by decide +kernel
    rw [hgap, hbound]
    split <;> constructor <;> linarith
  | broadcast =>
    have : 0 ≤ bcastIdSave := by decide +kernel
    exact ⟨this, le_refl _⟩
  | neighbor =>
    have : 0 ≤ helloInterval := by decide +kernel
    exact ⟨this, le_refl _⟩
  | probe =>
    have : 0 ≤ probT := by decide +kernel
    exact ⟨this, le_refl _⟩
  | routeCache =>
    have : 0 ≤ frequency := by decide +kernel
    exact ⟨this, le_refl _⟩

namespace Agent

/-- A call, and the random number its timer is scheduled with. -/
structure Pulse extends Call where
  uniform : ℚ
  nonneg : 0 ≤ uniform
  lt_one : uniform < 1

/-- A call that something makes: the local repair timer is never scheduled. -/
def scheduled (a : Agent) (c : Pulse) : Option Agent :=
  match c.inp with
  | .timer (.localRepair _) => none
  | _ => a.call c.toCall

/-- A node under the scheduler. -/
def paced : Paced.System Agent Pulse Clock ℚ where
  step := scheduled
  time := fun c => c.env.now
  fires := fun c => c.inp.clock
  gap := fun c => (c.inp.clock.map (Clock.gap c.uniform)).getD 0

/-- The node as `start` leaves it at time `t`: it fires five timers, and the sixth is due `TRUST_TIME` later. -/
def started (id : NsAddr) (t : ℚ) : Timed Agent Clock ℚ :=
  ⟨new id, t, fun k => if k = .trust then t + trustTime else t⟩

/-- The states of a node that was started at time `t`. -/
def Ticking (id : NsAddr) (t : ℚ) : Timed Agent Clock ℚ → Prop := Runs.Reaches paced.tick (fun _ _ => True) (started id t)

variable {id : NsAddr} {t : ℚ} {s s' : Timed Agent Clock ℚ} {c : Pulse}

theorem scheduled_eq_some {a a' : Agent} (h : a.scheduled c = some a') : a.call c.toCall = some a' := by
  unfold scheduled at h
  split at h
  · cases h
  · exact h

/-- A node under the scheduler does what a node can do. -/
theorem reach_of_ticking (h : Ticking id t s) : Reach id s.state := by
  have h := Paced.untimed h
  exact h.invariant (P := Reach id) .init (fun _ _ _ _ ha _ hs => ha.step trivial (scheduled_eq_some hs))

theorem gap_paced (c : Pulse) (k : Clock) (hk : paced.fires c = some k) : 0 ≤ paced.gap c ∧ paced.gap c ≤ k.bound := by
  have hk : c.inp.clock = some k := hk
  show 0 ≤ (c.inp.clock.map (Clock.gap c.uniform)).getD 0 ∧ (c.inp.clock.map (Clock.gap c.uniform)).getD 0 ≤ k.bound
  rw [hk]
  exact k.gap_bounds c.nonneg c.lt_one

theorem timely_started (id : NsAddr) (t : ℚ) : Paced.Timely Clock.bound (started id t) := by
  intro k
  have hpos : ∀ k : Clock, 0 ≤ k.bound := fun k => (k.gap_bounds (le_refl 0) one_pos).1.trans (k.gap_bounds (le_refl 0) one_pos).2
  show t ≤ (if k = .trust then t + trustTime else t) ∧ (if k = .trust then t + trustTime else t) ≤ t + k.bound
  split
  · rename_i hk
    subst hk
    have h1 : 0 ≤ trustTime := by decide +kernel
    have h2 : trustTime ≤ Clock.trust.bound := by decide +kernel
    constructor <;> linarith
  · exact ⟨le_refl t, le_add_of_nonneg_right (hpos k)⟩

/-- **Every timer fires within its bound**: no later than it is due, and due no later than its longest gap. -/
theorem timely_of_ticking (h : Ticking id t s) : Paced.Timely Clock.bound s :=
  Paced.rhythm (timely_started id t) gap_paced h

/-- The handler a tick runs. -/
theorem handle_of_ticks (h : paced.Ticks s c s') : ∃ x, (s.state.exec c.heap).handle c.env c.inp = .ok x ∧ x.toAgent = s'.state := by
  obtain ⟨x, hx, heq⟩ := call_eq_some (scheduled_eq_some h.step)
  exact ⟨x, hx, heq⟩

/-- The tick of a call at time `t`. -/
def pulse (t : ℚ) (inp : Input) : Pulse := ⟨⟨{ inf := 65535, now := t }, 1, inp⟩, 0, le_refl 0, one_pos⟩

/-- The timers `start` fires. -/
def startPulses : List Pulse := [.timer .broadcast, .timer .hello, .timer (.neighbor (fun _ => [])), .timer .probe,
  .timer .routeCache].map (pulse 0)

end Agent

end TeAomdv

import Mathlib.Algebra.Order.Group.Defs
import Mathlib.Data.Fintype.Defs
import TeAomdv.Lib.Runs
/-!
# Paced — systems with timers

A discrete-event scheduler hands a system its inputs in the order of their times.  Some inputs are timers that fire: a timer
fires when it is due, nothing happens past a due time, and a timer that has fired is due again after a gap.  What the
system does is what it does untimed (`untimed`); a timer whose gaps are bounded fires at least that often (`rhythm`), and what
it sweeps is never overdue by more (`swept`).
-/
namespace Paced

/-- A system, the time of each input, the timer it is, and how long that timer then waits. -/
structure System (σ ι κ T : Type*) where
  step : σ → ι → Option σ
  time : ι → T
  fires : ι → Option κ
  gap : ι → T

/-- A state, the time of the last input, and when each timer is due. -/
@[ext] structure Timed (σ κ T : Type*) where
  state : σ
  now : T
  due : κ → T

variable {σ ι κ T : Type*} [AddCommGroup T] [LinearOrder T] [Fintype κ] [DecidableEq κ]

/-- The input is not in the past, no timer is due before it, and a timer that it is is due. -/
def System.enabled (S : System σ ι κ T) (s : Timed σ κ T) (i : ι) : Prop :=
  s.now ≤ S.time i ∧ ∀ k, S.time i ≤ s.due k ∧ (S.fires i = some k → S.time i = s.due k)

instance (S : System σ ι κ T) (s : Timed σ κ T) (i : ι) : Decidable (S.enabled s i) :=
  inferInstanceAs (Decidable (_ ∧ ∀ _, _ ∧ _))

/-- One input under the scheduler. -/
def System.tick (S : System σ ι κ T) (s : Timed σ κ T) (i : ι) : Option (Timed σ κ T) :=
  if S.enabled s i then (S.step s.state i).map (fun t =>
    ⟨t, S.time i, fun k => if S.fires i = some k then S.time i + S.gap i else s.due k⟩)
  else none

variable {S : System σ ι κ T} {guard : Timed σ κ T → ι → Prop} {s₀ s s' : Timed σ κ T} {i : ι} {k : κ}

/-- What a tick is. -/
structure System.Ticks (S : System σ ι κ T) (s : Timed σ κ T) (i : ι) (s' : Timed σ κ T) : Prop where
  step : S.step s.state i = some s'.state
  now : s'.now = S.time i
  past : s.now ≤ s'.now
  before : ∀ k, s'.now ≤ s.due k
  fired : ∀ k, S.fires i = some k → s'.now = s.due k ∧ s'.due k = s'.now + S.gap i
  other : ∀ k, S.fires i ≠ some k → s'.due k = s.due k

theorem ticks (h : S.tick s i = some s') : S.Ticks s i s' := by
  unfold System.tick at h
  split at h
  · rename_i hen
    obtain ⟨t, ht, rfl⟩ := Option.map_eq_some_iff.1 h
    refine ⟨ht, rfl, hen.1, fun k => (hen.2 k).1, fun k hk => ⟨(hen.2 k).2 hk, if_pos hk⟩, fun k hk => if_neg hk⟩
  · cases h

/-- **A run under the scheduler is a run.** -/
theorem untimed (h : Runs.Reaches S.tick guard s₀ s) : Runs.Reaches S.step (fun _ _ => True) s₀.state s.state := by
  induction h with
  | init => exact .init
  | step _ _ hs ih => exact ih.step trivial (ticks hs).step

variable [IsOrderedAddMonoid T] {bound : κ → T}

/-- No timer is overdue, and each is due within its bound. -/
def Timely (bound : κ → T) (s : Timed σ κ T) : Prop := ∀ k, s.now ≤ s.due k ∧ s.due k ≤ s.now + bound k

omit [Fintype κ] in
theorem Timely.tick (hs : Timely bound s) (hgap : ∀ k, S.fires i = some k → 0 ≤ S.gap i ∧ S.gap i ≤ bound k)
    (h : S.Ticks s i s') : Timely bound s' := by
  intro k
  by_cases hk : S.fires i = some k
  · obtain ⟨-, hdue⟩ := h.fired k hk
    rw [hdue]
    obtain ⟨h0, h1⟩ := hgap k hk
    exact ⟨le_add_of_nonneg_right h0, add_le_add_right h1 _⟩
  · rw [h.other k hk]
    exact ⟨h.before k, (hs k).2.trans (add_le_add_left h.past _)⟩

/-- **Timers keep their rhythm.** -/
theorem rhythm (h₀ : Timely bound s₀) (hgap : ∀ i k, S.fires i = some k → 0 ≤ S.gap i ∧ S.gap i ≤ bound k)
    (h : Runs.Reaches S.tick guard s₀ s) : Timely bound s :=
  h.invariant h₀ (fun _ i _ _ hs _ hstep => hs.tick (hgap i) (ticks hstep))

section Swept

variable {α : Type*} {has : σ → α → Prop} {deadline : α → T}

/-- What timer `k` sweeps is overdue by less than a gap when it is next due. -/
def Swept (has : σ → α → Prop) (deadline : α → T) (bound : κ → T) (k : κ) (s : Timed σ κ T) : Prop :=
  ∀ a, has s.state a → s.due k ≤ deadline a + bound k

omit [Fintype κ] in
theorem Swept.tick (hs : Swept has deadline bound k s) (hs' : Timely bound s')
    (hnew : ∀ a, has s'.state a → has s.state a ∨ s'.now ≤ deadline a)
    (hfire : S.fires i = some k → ∀ a, has s'.state a → s'.now ≤ deadline a) (h : S.Ticks s i s') :
    Swept has deadline bound k s' := by
  intro a ha
  have hlate : s'.now ≤ deadline a → s'.due k ≤ deadline a + bound k :=
    fun hle => (hs' k).2.trans (add_le_add_left hle _)
  by_cases hk : S.fires i = some k
  · exact hlate (hfire hk a ha)
  · rcases hnew a ha with hold | hle
    · rw [h.other k hk]
      exact hs a hold
    · exact hlate hle

/-- **What a timer sweeps is never overdue by more than its bound**, if it sweeps all that is overdue and nothing overdue
is added. -/
theorem swept (has : σ → α → Prop) (deadline : α → T) (h₀ : Timely bound s₀) (hnone : ∀ a, ¬ has s₀.state a)
    (hgap : ∀ i k, S.fires i = some k → 0 ≤ S.gap i ∧ S.gap i ≤ bound k)
    (hstep : ∀ s i s', Runs.Reaches S.tick guard s₀ s → guard s i → S.Ticks s i s' →
      (∀ a, has s'.state a → has s.state a ∨ s'.now ≤ deadline a) ∧
        (S.fires i = some k → ∀ a, has s'.state a → s'.now ≤ deadline a))
    (h : Runs.Reaches S.tick guard s₀ s) : ∀ a, has s.state a → s.now ≤ deadline a + bound k := by
  have hkey : Timely bound s ∧ Swept has deadline bound k s := by
    refine h.invariant (P := fun s => Timely bound s ∧ Swept has deadline bound k s) ⟨h₀, fun a ha => absurd ha (hnone a)⟩
      (fun s i s' hr hs hg hs' => ?_)
    have htick := ticks hs'
    obtain ⟨hnew, hfire⟩ := hstep s i s' hr hg htick
    have htimely := hs.1.tick (hgap i) htick
    exact ⟨htimely, hs.2.tick htimely hnew hfire htick⟩
  exact fun a ha => (hkey.1 k).1.trans (hkey.2 a ha)

end Swept

end Paced

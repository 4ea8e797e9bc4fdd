import Mathlib.Algebra.Order.Monoid.Unbundled.Basic
import TeAomdv.Lib.Paced
/-!
# Leases — what is kept until a deadline and then swept

A table keeps a deadline for some keys.  A key gets one when it enters, and another when it is renewed, between `lo` and `hi`
ahead; only a sweep takes keys out, and it takes out every key whose deadline has come.  So a key that entered or was
renewed less than `lo` ago is in the table, and one that is in the table entered or was renewed no more than `hi` and one
period of the sweep ago (`lease`).
-/
namespace Leases

open Paced (System Timed Timely)

variable {σ ι κ α T : Type*} [AddCommGroup T] [LinearOrder T]

/-- What one input does to the deadline of one key. -/
inductive Step (now lo hi : T) (renewed sweep : Prop) : Option T → Option T → Prop
  | keep {d : Option T} : (renewed → d = none) → (sweep → ∀ e, d = some e → now < e) → Step now lo hi renewed sweep d d
  | grant {d : Option T} {e : T} : renewed ∨ d = none → now + lo ≤ e → e ≤ now + hi → Step now lo hi renewed sweep d (some e)
  | drop {e : T} : sweep → e ≤ now → Step now lo hi renewed sweep (some e) none

/-- When each key last entered or was renewed. -/
def stamp (due : σ → α → Option T) (renews : ι → α → Bool) (s : Timed σ κ T) (i : ι) (s' : Timed σ κ T)
    (last : α → Option T) (a : α) : Option T :=
  if (due s'.state a).isSome ∧ (renews i a ∨ due s.state a = none) then some s'.now else last a

variable [Fintype κ] [DecidableEq κ] {S : System σ ι κ T} {s₀ s s' : Timed σ κ T} {i : ι}
  {k : κ} {due : σ → α → Option T} {renews : ι → α → Bool} {last : α → Option T} {lo hi : T} {bound : κ → T}

/-- A deadline lies between `lo` and `hi` after the stamp; a stamp without a deadline is `lo` old. -/
def Held (lo hi now : T) (last : Option T) : Option T → Prop
  | some e => ∃ t, last = some t ∧ t + lo ≤ e ∧ e ≤ t + hi
  | none => ∀ t, last = some t → t + lo ≤ now

omit [Fintype κ] [DecidableEq κ] in
theorem Held.step {sweep : Prop} {a : α} (h : Held lo hi s.now (last a) (due s.state a)) (hpast : s.now ≤ s'.now)
    (hs : Step s'.now lo hi (renews i a = true) sweep (due s.state a) (due s'.state a)) :
    Held lo hi s'.now (stamp due renews s i s' last a) (due s'.state a) := by
  unfold stamp
  generalize due s.state a = d at h hs ⊢
  generalize due s'.state a = d' at hs ⊢
  cases hs with
  | keep hr _ =>
    cases d with
    | none =>
      rw [if_neg (by simp)]
      exact fun t ht => (h t ht).trans hpast
    | some e =>
      have hr : ¬ renews i a = true := fun h => Option.some_ne_none e (hr h)
      rw [if_neg (by simp [hr])]
      exact h
  | grant hr h1 h2 =>
    rw [if_pos ⟨rfl, hr⟩]
    exact ⟨s'.now, rfl, h1, h2⟩
  | drop _ he =>
    rw [if_neg (by simp)]
    obtain ⟨t, hlast, h1, -⟩ := h
    intro t' ht'
    obtain rfl := Option.some.inj (hlast.symm.trans ht')
    exact h1.trans he

variable [IsOrderedAddMonoid T]

omit [Fintype κ] [DecidableEq κ] in
/-- A deadline after an input was there before, and is not over if the input is a sweep, or is new. -/
theorem Step.fresh {now e : T} {renewed sweep : Prop} {d d' : Option T} (hs : Step now lo hi renewed sweep d d') (hlo : 0 ≤ lo)
    (he : d' = some e) : (d = some e ∧ (sweep → now < e)) ∨ now ≤ e := by
  cases hs with
  | keep _ hlive => exact .inl ⟨he, fun hk => hlive hk e he⟩
  | grant _ h1 _ =>
    obtain rfl := Option.some.inj he
    exact .inr ((le_add_of_nonneg_right hlo).trans h1)
  | drop => cases he

/-- **A key is in the table if it was stamped less than `lo` ago, and only if it was stamped no more than `hi` and one
period of the sweep ago.** -/
theorem lease (h₀ : Timely bound s₀) (hnone : ∀ a, due s₀.state a = none) (hlo : 0 ≤ lo)
    (hgap : ∀ i k, S.fires i = some k → 0 ≤ S.gap i ∧ S.gap i ≤ bound k)
    (hstep : ∀ s i s', Runs.Reaches S.tick (fun _ _ => True) s₀ s → S.Ticks s i s' →
      ∀ a, Step s'.now lo hi (renews i a = true) (S.fires i = some k) (due s.state a) (due s'.state a))
    (h : Runs.Reaches (Runs.watch S.tick (stamp due renews)) (fun _ _ => True) (s₀, fun _ => none) (s, last)) (a : α) :
    (∀ t, last a = some t → s.now < t + lo → (due s.state a).isSome) ∧
      ((due s.state a).isSome → ∃ t, last a = some t ∧ s.now ≤ t + hi + bound k) := by
  have hheld : Held lo hi s.now (last a) (due s.state a) := by
    refine h.invariant (P := fun w => Held lo hi w.1.now (w.2 a) (due w.1.state a)) ?_ (fun w i w' hr hw _ hw' => ?_)
    · show Held lo hi s₀.now none (due s₀.state a)
      rw [hnone a]
      rintro t ⟨⟩
    · obtain ⟨htick, hlast⟩ := Runs.watch_eq_some hw'
      have htick := Paced.ticks htick
      have hr : Runs.Reaches S.tick (fun _ _ => True) s₀ w.1 := hr.of_watch
      rw [hlast]
      exact hw.step htick.past (hstep _ _ _ hr htick a)
  have hrun : Runs.Reaches S.tick (fun _ _ => True) s₀ (s, last).1 := h.of_watch
  have hswept : ∀ p : α × T, due s.state p.1 = some p.2 → s.now ≤ p.2 + bound k := by
    refine Paced.swept (fun s (p : α × T) => due s p.1 = some p.2) Prod.snd h₀ (fun p hp => ?_) hgap
      (fun s i s' hr _ htick => ?_) hrun
    · rw [hnone p.1] at hp
      cases hp
    · constructor
      · intro p hp
        exact ((hstep s i s' hr htick p.1).fresh hlo hp).imp_left And.left
      · intro hk p hp
        rcases (hstep s i s' hr htick p.1).fresh hlo hp with ⟨-, hlive⟩ | hle
        · exact (hlive hk).le
        · exact hle
  cases hd : due s.state a with
  | none =>
    rw [hd] at hheld
    refine ⟨fun t ht hlt => absurd (hheld t ht) (not_le.2 hlt), ?_⟩
    rintro ⟨⟩
  | some e =>
    rw [hd] at hheld
    obtain ⟨t, ht, -, h2⟩ := hheld
    exact ⟨fun _ _ _ => rfl, fun _ => ⟨t, ht, (hswept (a, e) hd).trans (add_le_add_left h2 _)⟩⟩

end Leases

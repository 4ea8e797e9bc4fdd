import Mathlib.Algebra.BigOperators.Group.List.Basic
import Mathlib.Algebra.Order.Group.Multiset
/-!
# Ledger — what a log of acts takes into hand and gives away

A program writes a log; each act takes some tokens into hand and gives some away.  `Settles hand hand'` says that the
acts added to a log turn what was in hand into `hand'`, every token counted as often as it is there.
-/
namespace Ledger

variable {α ι : Type*}

/-- All that the acts move one way. -/
def total (f : α → Multiset ι) (acts : List α) : Multiset ι := (acts.map f).sum

theorem total_append (f : α → Multiset ι) (as bs : List α) : total f (as ++ bs) = total f as + total f bs := by
  simp [total]

/-- What was in hand and what was taken is what was given away and what is in hand. -/
def Settles (takes gives : α → Multiset ι) (hand hand' : Multiset ι) (l l' : List α) : Prop :=
  ∃ acts, l' = l ++ acts ∧ hand + total takes acts = total gives acts + hand'

variable {takes gives : α → Multiset ι} {hand hand' hand'' : Multiset ι} {l l' l'' : List α}

namespace Settles

theorem refl (hand : Multiset ι) (l : List α) : Settles takes gives hand hand l l :=
  ⟨[], (List.append_nil l).symm, add_comm hand 0⟩

theorem trans (h : Settles takes gives hand hand' l l') (h' : Settles takes gives hand' hand'' l' l'') :
    Settles takes gives hand hand'' l l'' := by
  obtain ⟨as, h1, h2⟩ := h
  obtain ⟨bs, h3, h4⟩ := h'
  refine ⟨as ++ bs, by rw [h3, h1, List.append_assoc], ?_⟩
  calc hand + total takes (as ++ bs) = (hand + total takes as) + total takes bs := by rw [total_append, add_assoc]
    _ = total gives as + (hand' + total takes bs) := by rw [h2, add_assoc]
    _ = total gives (as ++ bs) + hand'' := by rw [h4, total_append, add_assoc]

/-- What else is in hand stays there. -/
theorem frame (h : Settles takes gives hand hand' l l') (r : Multiset ι) :
    Settles takes gives (hand + r) (hand' + r) l l' := by
  obtain ⟨as, h1, h2⟩ := h
  exact ⟨as, h1, by rw [add_right_comm, h2, add_assoc]⟩

theorem act {a : α} (h : hand + takes a = gives a + hand') (l : List α) :
    Settles takes gives hand hand' l (l ++ [a]) :=
  ⟨[a], rfl, by simpa [total] using h⟩

/-- Acts that move nothing. -/
theorem idle {as : List α} (h : ∀ a ∈ as, takes a = 0 ∧ gives a = 0) (hand : Multiset ι) (l : List α) :
    Settles takes gives hand hand l (l ++ as) := by
  have hz : ∀ f : α → Multiset ι, (∀ a ∈ as, f a = 0) → total f as = 0 := by
    intro f hf
    exact List.sum_eq_zero (by simpa using hf)
  refine ⟨as, rfl, ?_⟩
  rw [hz takes (fun a ha => (h a ha).1), hz gives (fun a ha => (h a ha).2), add_comm]

/-- The balance of a whole log. -/
theorem balance (h : Settles takes gives hand hand' [] l) : hand + total takes l = total gives l + hand' := by
  obtain ⟨as, h1, h2⟩ := h
  rw [h1, List.nil_append]
  exact h2

end Settles

end Ledger

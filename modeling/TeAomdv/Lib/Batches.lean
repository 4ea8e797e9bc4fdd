import Mathlib.Data.List.Basic
/-!
# Batches — a list cut into batches of a bounded size

A list is taken item by item into a batch; a batch that is full is closed, and the last one is closed if it has begun.
-/
namespace Batches

variable {α : Type*} {n : ℕ} {l cur : List α} {bs : List (List α)} {a : α}

/-- The batches closed and the one under way make up what was taken, in order. -/
structure Taken (n : ℕ) (l : List α) (bs : List (List α)) (cur : List α) : Prop where
  whole : bs.flatten ++ cur = l
  full : ∀ b ∈ bs, b.length = n
  room : cur.length < n

/-- The batches make up the list, and none is empty or too long. -/
structure Cut (n : ℕ) (l : List α) (bs : List (List α)) : Prop where
  whole : bs.flatten = l
  sizes : ∀ b ∈ bs, 1 ≤ b.length ∧ b.length ≤ n

namespace Taken

theorem start (hn : 0 < n) : Taken n ([] : List α) [] [] where
  whole := rfl
  full := fun _ h => nomatch h
  room := hn

/-- One more item, in the batch under way. -/
theorem more (h : Taken n l bs cur) (hlt : cur.length + 1 < n) (a : α) : Taken n (l ++ [a]) bs (cur ++ [a]) where
  whole := by rw [← List.append_assoc, h.whole]
  full := h.full
  room := by
    rw [List.length_append, List.length_singleton]
    exact hlt

/-- One more item, which fills the batch. -/
theorem close (h : Taken n l bs cur) (heq : cur.length + 1 = n) (a : α) : Taken n (l ++ [a]) (bs ++ [cur ++ [a]]) [] where
  whole := by rw [List.flatten_append, List.flatten_singleton, List.append_nil, ← List.append_assoc, h.whole]
  full := by
    intro b hb
    rcases List.mem_append.1 hb with hb | hb
    · exact h.full b hb
    · rw [List.mem_singleton.1 hb, List.length_append, List.length_singleton]
      exact heq
  room := heq ▸ Nat.succ_pos _

/-- The list ends: the batch under way is closed if it has begun. -/
theorem cut (h : Taken n l bs cur) : Cut n l (if cur.length ≠ 0 then bs ++ [cur] else bs) := by
  have hn : 1 ≤ n := Nat.lt_of_le_of_lt (Nat.zero_le _) h.room
  have hfull : ∀ b ∈ bs, 1 ≤ b.length ∧ b.length ≤ n := fun b hb => by
    rw [h.full b hb]
    exact ⟨hn, Nat.le_refl n⟩
  split
  · rename_i hne
    refine ⟨by rw [List.flatten_append, List.flatten_singleton, h.whole], fun b hb => ?_⟩
    rcases List.mem_append.1 hb with hb | hb
    · exact hfull b hb
    · rw [List.mem_singleton.1 hb]
      exact ⟨Nat.one_le_iff_ne_zero.2 hne, Nat.le_of_lt h.room⟩
  · rename_i hnil
    have hnil : cur = [] := List.length_eq_zero_iff.1 (not_not.1 hnil)
    exact ⟨by rw [← h.whole, hnil, List.append_nil], hfull⟩

end Taken

end Batches

import Mathlib.Data.List.Basic
/-!
# Compact — keeping part of an array in place

A loop that reads the cells of an array in order and writes those it keeps back to the front, while cells ahead of it are
still unread.  The place written is never past the place read, so nothing unread is lost (`Packed`), and what the front
holds in the end is the part kept, in order.
-/
namespace Compact

variable {α : Type*} {keep : α → Bool} {cells : List α} {i : Nat} {s : List α × Nat} {a : α}

/-- The array and the next free place after `i` rounds. -/
structure Packed (keep : α → Bool) (cells : List α) (i : Nat) (s : List α × Nat) : Prop where
  kept : s.1.take s.2 = (cells.take i).filter keep
  count : s.2 = ((cells.take i).filter keep).length
  unread : s.1.drop i = cells.drop i

theorem Packed.start (keep : α → Bool) (cells : List α) : Packed keep cells 0 (cells, 0) := ⟨rfl, rfl, rfl⟩

namespace Packed

theorem place_le (h : Packed keep cells i s) : s.2 ≤ i := by
  rw [h.count]
  exact Nat.le_trans (List.length_filter_le _ _) (List.length_take_le _ _)

/-- The cell about to be read is the one that was there. -/
theorem read (h : Packed keep cells i s) : s.1[i]? = cells[i]? := by
  have h0 : (s.1.drop i)[0]? = (cells.drop i)[0]? := congrArg (·[0]?) h.unread
  simpa using h0

theorem take_succ (ha : cells[i]? = some a) : cells.take (i + 1) = cells.take i ++ [a] := by
  rw [List.take_add_one, ha]
  rfl

theorem drop_succ (h : Packed keep cells i s) : s.1.drop (i + 1) = cells.drop (i + 1) := by
  rw [← List.drop_drop, ← List.drop_drop, h.unread]

/-- A cell passed over. -/
theorem pass (h : Packed keep cells i s) (ha : cells[i]? = some a) (hk : keep a = false) : Packed keep cells (i + 1) s := by
  have htake : (cells.take (i + 1)).filter keep = (cells.take i).filter keep := by
    rw [take_succ ha, List.filter_append, List.filter_cons_of_neg (by simp [hk]), List.filter_nil, List.append_nil]
  exact ⟨htake ▸ h.kept, htake ▸ h.count, h.drop_succ⟩

/-- A cell kept. -/
theorem move (h : Packed keep cells i s) (ha : cells[i]? = some a) (hk : keep a = true) :
    Packed keep cells (i + 1) (s.1.set s.2 a, s.2 + 1) := by
  have hle := h.place_le
  have hlt : s.2 < s.1.length := by
    have : i < s.1.length := (List.getElem?_eq_some_iff.1 (h.read.trans ha)).1
    omega
  have htake : (cells.take (i + 1)).filter keep = (cells.take i).filter keep ++ [a] := by
    rw [take_succ ha, List.filter_append, List.filter_cons_of_pos hk, List.filter_nil]
  refine ⟨?_, ?_, ?_⟩
  · have hset : (s.1.set s.2 a)[s.2]? = some a := List.getElem?_set_self hlt
    show (s.1.set s.2 a).take (s.2 + 1) = _
    rw [htake, take_succ hset, List.take_set_of_le (Nat.le_refl _), h.kept]
  · rw [htake, List.length_append, ← h.count]
    rfl
  · show (s.1.set s.2 a).drop (i + 1) = _
    rw [List.drop_set_of_lt (by omega)]
    exact h.drop_succ

end Packed

end Compact

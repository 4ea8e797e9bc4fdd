import Mathlib.Logic.Function.Basic
import Mathlib.Data.List.Nodup
/-!
# Links — singly linked lists in a store

Cells of a store each hold a link to the next one, or to none.  `Chain` says which cells are linked from a pointer on; a
cell is linked in at the end (`Chain.link`) and taken out of the middle (`Chain.unlink`).  The two loops that follow the
links, `scan` and `tally`, end within any number of steps above the length.
-/
namespace Links

variable {ι : Type*}

/-- The cells linked from `p` on. -/
def Chain (next : ι → Option ι) : Option ι → List ι → Prop
  | p, [] => p = none
  | p, a :: l => p = some a ∧ Chain next (next a) l

/-- Follows the links to the first cell that passes; tells it, and the cell before it. -/
def scan (next : ι → Option ι) (test : ι → Bool) : Nat → Option ι → Option ι → Option (Option ι × Option ι)
  | 0, _, _ => none
  | n + 1, p, prev =>
    match p with
    | none => some (none, prev)
    | some a => if test a then some (some a, prev) else scan next test n (next a) (some a)

/-- Follows the links to the end; tells how many cells there are, and the last. -/
def tally (next : ι → Option ι) : Nat → Option ι → Option ι → Nat → Option (Nat × Option ι)
  | 0, _, _, _ => none
  | n + 1, p, prev, cnt =>
    match p with
    | none => some (cnt, prev)
    | some a => tally next n (next a) (some a) (cnt + 1)

variable {next next' : ι → Option ι} {p prev : Option ι} {l as bs : List ι} {a b : ι}

theorem Chain.head (h : Chain next p l) : p = l.head? := by
  cases l with
  | nil => exact h
  | cons a l => exact h.1

theorem Chain.frame (h : Chain next p l) (hn : ∀ a ∈ l, next' a = next a) : Chain next' p l := by
  induction l generalizing p with
  | nil => exact h
  | cons a l ih =>
    refine ⟨h.1, ?_⟩
    rw [hn a List.mem_cons_self]
    exact ih h.2 (fun b hb => hn b (List.mem_cons_of_mem _ hb))

/-- The last cell is linked to nothing. -/
theorem Chain.last (h : Chain next p (l ++ [a])) : next a = none := by
  induction l generalizing p with
  | nil => exact h.2
  | cons b l ih => exact ih h.2

/-- A cell of a chain is linked to the one after it. -/
theorem Chain.next_eq (h : Chain next p (as ++ b :: a :: bs)) : next b = some a := by
  induction as generalizing p with
  | nil => exact h.2.1
  | cons c as ih => exact ih h.2

section Update

variable [DecidableEq ι]

theorem Chain.update_of_notMem (h : Chain next p l) (ha : a ∉ l) (v : Option ι) : Chain (Function.update next a v) p l :=
  h.frame (fun b hb => Function.update_of_ne (fun he : b = a => ha (he ▸ hb)) v next)

/-- A cell that is linked to nothing becomes the last. -/
theorem Chain.link (h : Chain next p (l ++ [b])) (hnd : (l ++ [b]).Nodup) (ha : a ∉ l ++ [b]) (hnone : next a = none) :
    Chain (Function.update next b (some a)) p (l ++ [b] ++ [a]) := by
  have hab : a ≠ b := fun he => ha (he ▸ List.mem_append_right _ List.mem_cons_self)
  induction l generalizing p with
  | nil =>
    refine ⟨h.1, ?_, ?_⟩
    · exact Function.update_self b (some a) next
    · show Function.update next b (some a) a = none
      rw [Function.update_of_ne hab, hnone]
  | cons c l ih =>
    have hcb : c ≠ b := by
      rintro rfl
      exact (List.nodup_cons.1 hnd).1 (List.mem_append_right _ List.mem_cons_self)
    refine ⟨h.1, ?_⟩
    rw [Function.update_of_ne hcb]
    exact ih h.2 (List.nodup_cons.1 hnd).2 (fun hm => ha (List.mem_cons_of_mem _ hm))

/-- A cell is taken out by linking the one before it to the one after it. -/
theorem Chain.unlink (h : Chain next p (as ++ b :: a :: bs)) (hnd : (as ++ b :: a :: bs).Nodup) :
    Chain (Function.update next b (next a)) p (as ++ b :: bs) := by
  induction as generalizing p with
  | nil =>
    obtain ⟨hb, hbs⟩ : b ∉ a :: bs ∧ (a :: bs).Nodup := List.nodup_cons.1 hnd
    refine ⟨h.1, ?_⟩
    rw [Function.update_self]
    exact h.2.2.update_of_notMem (fun hm => hb (List.mem_cons_of_mem _ hm)) _
  | cons c as ih =>
    have hcb : c ≠ b := by
      rintro rfl
      exact (List.nodup_cons.1 hnd).1 (List.mem_append_right _ List.mem_cons_self)
    refine ⟨h.1, ?_⟩
    rw [Function.update_of_ne hcb]
    exact ih h.2 (List.nodup_cons.1 hnd).2

end Update

/-! ## The loops -/

variable {test : ι → Bool} {n : Nat}

theorem scan_none (h : Chain next p l) (hn : l.length < n) (ht : ∀ a ∈ l, test a = false) :
    scan next test n p prev = some (none, l.getLast?.or prev) := by
  induction l generalizing n p prev with
  | nil =>
    obtain ⟨n, rfl⟩ := Nat.exists_eq_succ_of_ne_zero (Nat.ne_of_gt hn)
    obtain rfl := h
    rfl
  | cons a l ih =>
    obtain ⟨n, rfl⟩ := Nat.exists_eq_succ_of_ne_zero (Nat.ne_of_gt (Nat.zero_lt_of_lt hn))
    obtain ⟨rfl, h⟩ := h
    have ha := ht a List.mem_cons_self
    rw [Nat.succ_eq_add_one, scan]
    simp only [ha, Bool.false_eq_true, if_false]
    rw [ih h (Nat.lt_of_succ_lt_succ hn) (fun b hb => ht b (List.mem_cons_of_mem _ hb))]
    cases l <;> simp [List.getLast?_cons]

/-- **The first cell that passes, and the one before it.** -/
theorem scan_some (h : Chain next p (as ++ a :: bs)) (hn : as.length < n) (has : ∀ b ∈ as, test b = false)
    (ha : test a = true) : scan next test n p prev = some (some a, as.getLast?.or prev) := by
  induction as generalizing n p prev with
  | nil =>
    obtain ⟨n, rfl⟩ := Nat.exists_eq_succ_of_ne_zero (Nat.ne_of_gt hn)
    obtain ⟨rfl, -⟩ := h
    rw [Nat.succ_eq_add_one, scan]
    simp only [ha, if_true]
    rfl
  | cons c as ih =>
    obtain ⟨n, rfl⟩ := Nat.exists_eq_succ_of_ne_zero (Nat.ne_of_gt (Nat.zero_lt_of_lt hn))
    obtain ⟨rfl, h⟩ := h
    have hc := has c List.mem_cons_self
    rw [Nat.succ_eq_add_one, scan]
    simp only [hc, Bool.false_eq_true, if_false]
    rw [ih h (Nat.lt_of_succ_lt_succ hn) (fun b hb => has b (List.mem_cons_of_mem _ hb))]
    cases as <;> simp [List.getLast?_cons]

theorem tally_eq {cnt : Nat} (h : Chain next p l) (hn : l.length < n) :
    tally next n p prev cnt = some (cnt + l.length, l.getLast?.or prev) := by
  induction l generalizing n p prev cnt with
  | nil =>
    obtain ⟨n, rfl⟩ := Nat.exists_eq_succ_of_ne_zero (Nat.ne_of_gt hn)
    obtain rfl := h
    rfl
  | cons a l ih =>
    obtain ⟨n, rfl⟩ := Nat.exists_eq_succ_of_ne_zero (Nat.ne_of_gt (Nat.zero_lt_of_lt hn))
    obtain ⟨rfl, h⟩ := h
    rw [Nat.succ_eq_add_one, tally]
    simp only [List.length_cons]
    rw [ih h (Nat.lt_of_succ_lt_succ hn), Nat.add_assoc, Nat.add_comm 1]
    cases l <;> simp [List.getLast?_cons]

end Links

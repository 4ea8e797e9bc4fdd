import Mathlib.Data.List.Basic
/-!
# Wear — a stack worn down by a stream

Each item of a stream that hits takes the top of a stack off if the top is bad; a top that is not bad stays for good.
The stack is worn out when it is empty, and what then remains of the stream meets nothing.  Where a stream also cuts items
out of the stack by key, `strips` tells whether it is a hit that takes the last one.
-/
namespace Wear

variable {α β : Type*}

/-- What is left of the stack, and of the stream once the stack is empty. -/
def wear (bad : α → Bool) (hits : β → Bool) : List α → List β → List α × List β
  | [], bs => ([], bs)
  | a :: as, [] => (a :: as, [])
  | a :: as, b :: bs => if hits b && bad a then wear bad hits as bs else wear bad hits (a :: as) bs

variable {bad : α → Bool} {hits : β → Bool}

@[simp] theorem wear_nil (bs : List β) : wear bad hits [] bs = ([], bs) := by
  rw [wear]

@[simp] theorem wear_done (as : List α) : wear bad hits as [] = (as, []) := by
  cases as <;> rw [wear]

theorem wear_hit {a : α} {b : β} (h : (hits b && bad a) = true) (as : List α) (bs : List β) :
    wear bad hits (a :: as) (b :: bs) = wear bad hits as bs := by
  rw [wear, if_pos h]

theorem wear_miss {a : α} {b : β} (h : ¬ (hits b && bad a) = true) (as : List α) (bs : List β) :
    wear bad hits (a :: as) (b :: bs) = wear bad hits (a :: as) bs := by
  rw [wear, if_neg h]

/-- **A stack is worn out by enough hits when all of it is bad.** -/
theorem fst_eq_nil_iff (as : List α) (bs : List β) :
    (wear bad hits as bs).1 = [] ↔ (∀ a ∈ as, bad a) ∧ as.length ≤ (bs.filter hits).length := by
  fun_induction wear bad hits as bs with
  | case1 bs => simp
  | case2 a as => simp
  | case3 a as b bs h ih =>
    obtain ⟨hb, ha⟩ := Bool.and_eq_true_iff.1 h
    rw [ih, List.filter_cons_of_pos hb]
    simp [ha]
  | case4 a as b bs h ih =>
    rw [ih]
    refine and_congr_right (fun hall => ?_)
    have hb : hits b ≠ true := fun hb => h (Bool.and_eq_true_iff.2 ⟨hb, hall a List.mem_cons_self⟩)
    rw [List.filter_cons_of_neg hb]

/-- Some of the stream meets nothing just when the rest of it wears the stack out. -/
theorem snd_ne_nil_iff {as : List α} (has : as ≠ []) (bs : List β) :
    (wear bad hits as bs).2 ≠ [] ↔ (wear bad hits as bs.dropLast).1 = [] := by
  fun_induction wear bad hits as bs with
  | case1 => exact absurd rfl has
  | case2 a as => simp
  | case3 a as b bs h ih =>
    cases bs with
    | nil => cases as <;> simp
    | cons c bs =>
      rw [List.dropLast_cons_cons, wear_hit h]
      cases as with
      | nil => simp [wear]
      | cons a' as => exact ih (by simp)
  | case4 a as b bs h ih =>
    cases bs with
    | nil => simp [wear]
    | cons c bs =>
      rw [List.dropLast_cons_cons, wear_miss h]
      exact ih (by simp)

/-! ## A stream that also cuts -/

section Strip

variable {κ : Type*} [DecidableEq κ] {key : α → κ}

/-- What one item of the stream leaves of the stack: a cut takes the first item of its key out, a hit a bad top. -/
def shed (key : α → κ) (bad : α → Bool) (hits : β → Bool) (as : List α) : κ ⊕ β → List α
  | .inl k => as.eraseP (fun a => key a = k)
  | .inr b =>
    match as with
    | [] => []
    | a :: as => if hits b && bad a then as else a :: as

/-- One item of the stream is a hit that takes the last item of the stack. -/
def takesLast (bad : α → Bool) (hits : β → Bool) (as : List α) : κ ⊕ β → Bool
  | .inl _ => false
  | .inr b => hits b && as.length = 1 && as.all bad

/-- The last item of the stack goes to a hit. -/
def strips (key : α → κ) (bad : α → Bool) (hits : β → Bool) : List α → List (κ ⊕ β) → Bool
  | _, [] => false
  | as, i :: is => takesLast bad hits as i || strips key bad hits (shed key bad hits as i) is

@[simp] theorem strips_nil (as : List α) : strips key bad hits as ([] : List (κ ⊕ β)) = false := by
  rw [strips]

/-- A stack that is not stripped is not stripped by what is left of the stream. -/
theorem strips_cons_eq_false {as : List α} {i : κ ⊕ β} {is : List (κ ⊕ β)} :
    strips key bad hits as (i :: is) = false ↔
      takesLast bad hits as i = false ∧ strips key bad hits (shed key bad hits as i) is = false := by
  rw [strips, Bool.or_eq_false_iff]

/-- A hit that does not take the last item leaves one. -/
theorem shed_inr_ne_nil {as : List α} {b : β} (has : as ≠ []) (h : takesLast bad hits as (.inr b : κ ⊕ β) = false) :
    shed key bad hits as (.inr b) ≠ [] := by
  obtain ⟨a, t, rfl⟩ := List.exists_cons_of_ne_nil has
  unfold shed
  simp only
  split
  · rename_i hhit
    rintro rfl
    simp only [Bool.and_eq_true] at hhit
    simp [takesLast, hhit.1, hhit.2] at h
  · exact List.cons_ne_nil a t

end Strip

end Wear

import Mathlib.Algebra.GroupWithZero.Nat
import Mathlib.Data.List.Basic
import Mathlib.Data.List.Forall2
import Mathlib.Data.List.Nodup
/-!
# Keyed — linked lists searched from the head

A list whose cells are found by walking it from the head: the first cell that passes a test is the one a pointer names.
`modifyFirst` writes through that pointer, `List.eraseP` unlinks the cell.  `eraseAll` is the loop that restarts the
scan after every removal, and it is a filter (`eraseAll_eq_filter`).
-/
namespace Keyed

variable {α κ : Type*}

/-- Rewrites the first cell that passes the test. -/
def modifyFirst (p : α → Bool) (f : α → α) : List α → List α
  | [] => []
  | a :: l => if p a then f a :: l else a :: modifyFirst p f l

/-- Unlinks passing cells one at a time, each time scanning again from the head, at most `n` times. -/
def eraseAllLoop (p : α → Bool) : Nat → List α → List α
  | 0, l => l
  | n + 1, l => if l.any p then eraseAllLoop p n (l.eraseP p) else l

/-- The restarting loop; one round per cell is enough. -/
def eraseAll (p : α → Bool) (l : List α) : List α := eraseAllLoop p l.length l

section Modify

variable {p : α → Bool} {f : α → α}

theorem mem_modifyFirst {l : List α} {b : α} (h : b ∈ modifyFirst p f l) :
    b ∈ l ∨ ∃ a, l.find? p = some a ∧ b = f a := by
  induction l with
  | nil => cases h
  | cons a l ih =>
    unfold modifyFirst at h
    by_cases ha : p a
    · rw [if_pos ha] at h
      rcases List.mem_cons.1 h with rfl | h
      · exact .inr ⟨a, by simp [ha], rfl⟩
      · exact .inl (List.mem_cons_of_mem _ h)
    · rw [if_neg ha] at h
      rcases List.mem_cons.1 h with rfl | h
      · exact .inl List.mem_cons_self
      · rcases ih h with h | ⟨c, hc, rfl⟩
        · exact .inl (List.mem_cons_of_mem _ h)
        · exact .inr ⟨c, by simp [ha, hc], rfl⟩

theorem modifyFirst_of_none {l : List α} (h : l.find? p = none) : modifyFirst p f l = l := by
  induction l with
  | nil => rfl
  | cons a l ih =>
    rw [List.find?_cons] at h
    unfold modifyFirst
    by_cases ha : p a
    · simp [ha] at h
    · simp only [ha] at h
      rw [if_neg ha, ih h]

/-- A write is a write of what it makes of the cell the search returns. -/
theorem modifyFirst_eq_const {l : List α} {a : α} (h : l.find? p = some a) :
    modifyFirst p f l = modifyFirst p (fun _ => f a) l := by
  induction l with
  | nil => rfl
  | cons b l ih =>
    rw [List.find?_cons] at h
    unfold modifyFirst
    by_cases hb : p b
    · simp only [hb] at h
      obtain rfl : b = a := Option.some.inj h
      simp [hb]
    · simp only [hb] at h
      rw [if_neg hb, if_neg hb, ih h]

/-- Writing back the cell the search returns changes nothing. -/
theorem modifyFirst_self {l : List α} {a : α} (h : l.find? p = some a) : modifyFirst p (fun _ => a) l = l := by
  induction l with
  | nil => rfl
  | cons b l ih =>
    unfold modifyFirst
    by_cases hb : p b
    · rw [List.find?_cons_of_pos hb] at h
      rw [if_pos hb, Option.some.inj h]
    · rw [List.find?_cons_of_neg hb] at h
      rw [if_neg hb, ih h]

/-- **Writing through the pointer a search returned**: the next search with that test returns the written cell. -/
theorem find?_modifyFirst (hf : ∀ a, p a → p (f a)) (l : List α) :
    (modifyFirst p f l).find? p = (l.find? p).map f := by
  induction l with
  | nil => rfl
  | cons a l ih =>
    unfold modifyFirst
    by_cases ha : p a
    · simp [ha, hf a ha]
    · simp [ha, ih]

/-- **A search with another test does not see the write**, as long as no cell passes both. -/
theorem find?_modifyFirst_ne {q : α → Bool} (hq : ∀ a, p a → q a = false) (hf : ∀ a, p a → q (f a) = false)
    (l : List α) : (modifyFirst p f l).find? q = l.find? q := by
  induction l with
  | nil => rfl
  | cons a l ih =>
    unfold modifyFirst
    by_cases ha : p a
    · simp [ha, hf a ha, hq a ha]
    · simp [ha, List.find?_cons, ih]

/-- Nor does it miss a cell unlinked by one. -/
theorem find?_eraseP_ne {q : α → Bool} (hq : ∀ a, p a → q a = false) (l : List α) : (l.eraseP p).find? q = l.find? q := by
  induction l with
  | nil => rfl
  | cons a l ih =>
    by_cases ha : p a
    · simp [ha, hq a ha]
    · simp [ha, List.find?_cons, ih]

theorem map_modifyFirst {β : Type*} (g : α → β) (hg : ∀ a, p a → g (f a) = g a) (l : List α) :
    (modifyFirst p f l).map g = l.map g := by
  induction l with
  | nil => rfl
  | cons a l ih =>
    unfold modifyFirst
    by_cases ha : p a
    · simp [ha, hg a ha]
    · simp [ha, ih]

theorem modifyFirst_modifyFirst {f' : α → α} (hf : ∀ a, p a → p (f a)) (l : List α) :
    modifyFirst p f' (modifyFirst p f l) = modifyFirst p (f' ∘ f) l := by
  induction l with
  | nil => rfl
  | cons a l ih =>
    by_cases ha : p a
    · simp [modifyFirst, ha, hf a ha]
    · simp [modifyFirst, ha, ih]

theorem head?_modifyFirst (l : List α) : (modifyFirst p f l).head? = l.head?.map (fun a => if p a then f a else a) := by
  cases l with
  | nil => rfl
  | cons a l =>
    unfold modifyFirst
    by_cases ha : p a <;> simp [ha]

@[simp] theorem length_modifyFirst (l : List α) : (modifyFirst p f l).length = l.length := by
  simpa using congrArg List.length (map_modifyFirst (p := p) (f := f) (fun _ => ()) (fun _ _ => rfl) l)

theorem forall₂_trans {β γ : Type*} {r : α → β → Prop} {r' : β → γ → Prop} {t : α → γ → Prop}
    (hr : ∀ a b c, r a b → r' b c → t a c) : ∀ {l₁ : List α} {l₂ : List β} {l₃ : List γ},
    List.Forall₂ r l₁ l₂ → List.Forall₂ r' l₂ l₃ → List.Forall₂ t l₁ l₃
  | _, _, _, .nil, .nil => .nil
  | _, _, _, .cons h t, .cons h' t' => .cons (hr _ _ _ h h') (forall₂_trans hr t t')

/-- A write to the cell between two parts of the list, when none of the first passes the test. -/
theorem modifyFirst_append_cons {b : α} : ∀ {l r : List α}, (∀ a ∈ l, p a = false) → p b = true →
    modifyFirst p f (l ++ b :: r) = l ++ f b :: r
  | [], _, _, hb => by simp [modifyFirst, hb]
  | a :: l, r, hl, hb => by
    have ha := hl a List.mem_cons_self
    rw [List.cons_append, modifyFirst, if_neg (by simp [ha])]
    rw [modifyFirst_append_cons (fun c hc => hl c (List.mem_cons_of_mem _ hc)) hb, List.cons_append]

section Related

variable {r : α → α → Prop} (hp : ∀ a b, r a b → p a = p b) {l l' : List α}

include hp

/-- Searches of related lists find related cells, or both none, when related cells pass the test together. -/
theorem rel_find? (h : List.Forall₂ r l l') : Option.Rel r (l.find? p) (l'.find? p) := by
  induction h with
  | nil => exact .none
  | @cons c c' l l' hc _ ih =>
    rw [List.find?_cons, List.find?_cons, hp c c' hc]
    cases p c' with
    | true => exact .some hc
    | false => exact ih

theorem find?_forall₂ (h : List.Forall₂ r l l') {b : α} (hb : l'.find? p = some b) : ∃ a, l.find? p = some a ∧ r a b := by
  have hrel := rel_find? hp h
  rw [hb] at hrel
  cases hfind : l.find? p with
  | none =>
    rw [hfind] at hrel
    cases hrel
  | some a =>
    rw [hfind] at hrel
    cases hrel with
    | some hr => exact ⟨a, rfl, hr⟩

/-- One write to both keeps lists related, when it keeps cells related. -/
theorem forall₂_modifyFirst_both (hf : ∀ a b, r a b → r (f a) (f b)) (h : List.Forall₂ r l l') :
    List.Forall₂ r (modifyFirst p f l) (modifyFirst p f l') := by
  induction h with
  | nil => exact .nil
  | @cons c c' l l' hc hl ih =>
    unfold modifyFirst
    rw [hp c c' hc]
    split
    · exact .cons (hf c c' hc) hl
    · exact .cons hc ih

end Related

/-- A write relates the list to the one before, cell by cell, as it relates the cell it is made to. -/
theorem forall₂_modifyFirst {r : α → α → Prop} (hr : ∀ a, r a a) : ∀ {l : List α}, (∀ a, l.find? p = some a → r a (f a)) →
    List.Forall₂ r l (modifyFirst p f l)
  | [], _ => .nil
  | a :: l, hf => by
    unfold modifyFirst
    by_cases ha : p a
    · rw [if_pos ha]
      exact .cons (hf a (List.find?_cons_of_pos ha)) (List.forall₂_same.2 (fun b _ => hr b))
    · rw [if_neg ha]
      exact .cons (hr a) (forall₂_modifyFirst hr (fun b hb => hf b ((List.find?_cons_of_neg ha).trans hb)))

/-- A write changes a total by what it changes the cell's share. -/
theorem sum_map_modifyFirst (w : α → Nat) : ∀ {l : List α} {a : α}, l.find? p = some a →
    ((modifyFirst p f l).map w).sum + w a = (l.map w).sum + w (f a)
  | b :: l, a, h => by
    unfold modifyFirst
    by_cases hb : p b
    · rw [List.find?_cons_of_pos hb] at h
      obtain rfl := Option.some.inj h
      simp only [if_pos hb, List.map_cons, List.sum_cons]
      omega
    · rw [List.find?_cons_of_neg hb] at h
      have := sum_map_modifyFirst w h
      simp only [if_neg hb, List.map_cons, List.sum_cons]
      omega

end Modify

section Nodup

variable [DecidableEq κ] {key : α → κ}

/-- In a list with distinct keys the search by key finds every cell. -/
theorem find?_of_mem_nodup (key : α → κ) {l : List α} (hnd : (l.map key).Nodup) {a : α} (ha : a ∈ l) :
    l.find? (fun b => key b = key a) = some a := by
  induction l with
  | nil => cases ha
  | cons b l ih =>
    rw [List.map_cons, List.nodup_cons] at hnd
    rcases List.mem_cons.1 ha with rfl | ha
    · simp
    · have hne : key b ≠ key a := fun h => hnd.1 (h ▸ List.mem_map_of_mem ha)
      simp [hne, ih hnd.2 ha]

theorem nodup_eraseP {β : Type*} {g : α → β} {p : α → Bool} {l : List α} (h : (l.map g).Nodup) :
    ((l.eraseP p).map g).Nodup :=
  h.sublist ((List.eraseP_sublist).map g)

/-- The first element with a key is the only one. -/
theorem key_ne_of_mem_eraseP (key : α → κ) {l : List α} (hnd : (l.map key).Nodup) {k : κ} {a : α}
    (ha : a ∈ l.eraseP (fun b => key b = k)) : key a ≠ k := by
  induction l with
  | nil => cases ha
  | cons b l ih =>
    obtain ⟨hb, hnd⟩ := List.nodup_cons.1 hnd
    by_cases hk : key b = k
    · rw [List.eraseP_cons_of_pos (by simpa using hk)] at ha
      intro hak
      exact hb (by rw [hk, ← hak]; exact List.mem_map_of_mem ha)
    · rw [List.eraseP_cons_of_neg (by simpa using hk)] at ha
      rcases List.mem_cons.1 ha with rfl | ha
      · exact hk
      · exact ih hnd ha

/-- With distinct keys, unlinking the first cell with a key filters the key out. -/
theorem eraseP_eq_filter (key : α → κ) {l : List α} (hnd : (l.map key).Nodup) (k : κ) :
    l.eraseP (fun a => key a = k) = l.filter (fun a => ¬ key a = k) := by
  have h := List.filter_eq_self.2 (fun a ha => decide_eq_true (key_ne_of_mem_eraseP key hnd (k := k) ha))
  rw [← h]
  clear h hnd
  induction l with
  | nil => rfl
  | cons b l ih =>
    by_cases hb : key b = k
    · simp [hb]
    · simpa [hb] using ih

/-- The cell at a place of a list with distinct keys is the one the search by its key finds. -/
theorem find?_append_cons (key : α → κ) {l r : List α} {a : α} (hnd : ((l ++ a :: r).map key).Nodup) :
    (l ++ a :: r).find? (fun b => key b = key a) = some a :=
  find?_of_mem_nodup key hnd (by simp)

/-- A write by key to a list with distinct keys. -/
theorem modifyFirst_key (key : α → κ) {l r : List α} {a : α} (hnd : ((l ++ a :: r).map key).Nodup) (f : α → α) :
    modifyFirst (fun b => key b = key a) f (l ++ a :: r) = l ++ f a :: r := by
  refine modifyFirst_append_cons (fun b hb => decide_eq_false (fun heq => ?_)) (by simp)
  rw [List.map_append, List.map_cons] at hnd
  exact (List.nodup_append.1 hnd).2.2 _ (List.mem_map_of_mem hb) _ List.mem_cons_self heq

/-- A write by key to a list with distinct keys is a map. -/
theorem modifyFirst_eq_map (key : α → κ) {l : List α} (hnd : (l.map key).Nodup) (k : κ) (f : α → α) :
    modifyFirst (fun b => key b = k) f l = l.map (fun b => if key b = k then f b else b) := by
  induction l with
  | nil => rfl
  | cons a l ih =>
    obtain ⟨hne, hnd⟩ := List.nodup_cons.1 hnd
    unfold modifyFirst
    rw [List.map_cons]
    by_cases ha : key a = k
    · rw [if_pos (decide_eq_true ha), if_pos ha]
      refine congrArg (f a :: ·) ((List.map_id l).symm.trans (List.map_congr_left (fun b hb => ?_)))
      have hkb : key b ≠ k := fun hk => hne ((ha.trans hk.symm) ▸ List.mem_map_of_mem hb)
      exact (if_neg hkb).symm
    · rw [if_neg (by simpa using ha), if_neg ha, ih hnd]

theorem key_of_find? {l : List α} {k : κ} {a : α} (h : l.find? (fun b => key b = k) = some a) : key a = k := by
  simpa using List.find?_some h

end Nodup

/-- A search finds in what was kept the cell it found before, if that was kept. -/
theorem find?_filter_of_all {p keep : α → Bool} : ∀ {l : List α}, (l.find? p).all keep = true →
    (l.filter keep).find? p = l.find? p
  | [], _ => rfl
  | a :: l, h => by
    by_cases ha : p a = true
    · simp only [List.find?_cons_of_pos ha, Option.all_some] at h
      rw [List.filter_cons_of_pos h, List.find?_cons_of_pos ha, List.find?_cons_of_pos ha]
    · rw [List.find?_cons_of_neg ha] at h ⊢
      by_cases hk : keep a = true
      · rw [List.filter_cons_of_pos hk, List.find?_cons_of_neg ha, find?_filter_of_all h]
      · rw [List.filter_cons_of_neg hk, find?_filter_of_all h]

/-- With distinct keys, filtering keeps the cell found or leaves none with its key. -/
theorem find?_filter_key {κ : Type*} [DecidableEq κ] (key : α → κ) {l : List α} (hnd : (l.map key).Nodup) (k : κ) (keep : α → Bool) :
    (l.filter keep).find? (fun a => key a = k) = (l.find? (fun a => key a = k)).filter keep := by
  cases ha : l.find? (fun a => key a = k) with
  | none =>
    refine List.find?_eq_none.2 (fun b hb => ?_)
    exact List.find?_eq_none.1 ha b (List.mem_of_mem_filter hb)
  | some a =>
    by_cases hk : keep a = true
    · rw [find?_filter_of_all (by rw [ha]; exact hk), ha]
      exact (Option.filter_some_pos hk).symm
    · have hgone : (l.filter keep).find? (fun a => key a = k) = none := by
        refine List.find?_eq_none.2 (fun b hb hbk => hk ?_)
        obtain ⟨hb, hkeep⟩ := List.mem_filter.1 hb
        obtain rfl : key b = k := of_decide_eq_true hbk
        obtain rfl := Option.some.inj ((find?_of_mem_nodup key hnd hb).symm.trans ha)
        exact hkeep
      rw [hgone]
      exact (Option.filter_some_neg (Bool.not_eq_true _ ▸ hk)).symm

section EraseAll

variable {p : α → Bool}

theorem length_eraseP_add_one {l : List α} (h : l.any p = true) : (l.eraseP p).length + 1 = l.length := by
  obtain ⟨a, ha, hp⟩ := List.any_eq_true.1 h
  have := List.length_eraseP_of_mem ha hp
  have := List.length_pos_of_mem ha
  omega

theorem filter_eraseP (l : List α) : (l.eraseP p).filter (fun a => !p a) = l.filter (fun a => !p a) := by
  induction l with
  | nil => rfl
  | cons a l ih =>
    by_cases ha : p a
    · simp [ha]
    · simp [ha, ih]

/-- The cell the search returns is the first of those that pass; removing it leaves the others. -/
theorem filter_eq_cons_of_find? {l : List α} {a : α} (h : l.find? p = some a) : l.filter p = a :: (l.eraseP p).filter p := by
  induction l with
  | nil => cases h
  | cons b l ih =>
    by_cases hb : p b
    · rw [List.find?_cons_of_pos hb] at h
      obtain rfl := Option.some.inj h
      rw [List.filter_cons_of_pos hb, List.eraseP_cons_of_pos hb]
    · rw [List.find?_cons_of_neg hb] at h
      rw [List.filter_cons_of_neg hb, List.eraseP_cons_of_neg hb, List.filter_cons_of_neg hb, ih h]

/-- **Restarting after every removal removes exactly the passing cells.** -/
theorem eraseAllLoop_eq_filter : ∀ (n : Nat) (l : List α), l.length ≤ n →
    eraseAllLoop p n l = l.filter (fun a => !p a)
  | 0, l, h => by
    obtain rfl : l = [] := List.length_eq_zero_iff.1 (by omega)
    rfl
  | n + 1, l, h => by
    unfold eraseAllLoop
    by_cases hp : l.any p = true
    · rw [if_pos hp, eraseAllLoop_eq_filter n _ (by have := length_eraseP_add_one hp; omega), filter_eraseP]
    · rw [if_neg hp]
      refine (List.filter_eq_self.2 (fun a ha => ?_)).symm
      have := List.any_eq_false.1 (by simpa using hp) a ha
      simpa using this

theorem eraseAll_eq_filter (l : List α) : eraseAll p l = l.filter (fun a => !p a) :=
  eraseAllLoop_eq_filter l.length l (Nat.le_refl _)

end EraseAll

end Keyed

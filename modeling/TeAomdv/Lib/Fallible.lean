import Mathlib.Logic.Relation
/-!
# Fallible — programs that may fail, as runs of a step relation

A program over `Except` is read as a run of small steps: a normal end is a state the run reaches, a failure is blamed on
a state the run reached.  `Traces` is closed under sequencing (`Traces.bind`) and loops (`Traces.foldlM`), so a program is
traced once and every invariant of the steps then holds of its outcome (`Traces.invariant`,
`Traces.invariant_error`).
-/
namespace Fallible

open Relation (ReflTransGen)

universe u

variable {σ ε γ : Type*} {α β : Type u}

/-- The outcome of a program started in `x` is a run of `R`; `st` reads the state off a result, `B` blames a failure on
the state where it arose. -/
def Traces (R : σ → σ → Prop) (B : σ → ε → Prop) (st : α → σ) (x : σ) : Except ε α → Prop
  | .ok a => ReflTransGen R x (st a)
  | .error e => ∃ y, ReflTransGen R x y ∧ B y e

@[simp] theorem ok_bind (a : α) (f : α → Except ε β) : (Except.ok a >>= f) = f a := rfl

@[simp] theorem error_bind (e : ε) (f : α → Except ε β) : (Except.error e >>= f) = .error e := rfl

/-- A program that ended normally went through its first part. -/
theorem bind_eq_ok {m : Except ε α} {f : α → Except ε β} {b : β} (h : (m >>= f) = .ok b) :
    ∃ a, m = .ok a ∧ f a = .ok b := by
  cases m with
  | error e => cases h
  | ok a => exact ⟨a, rfl, h⟩

/-- A program that failed did so in its first part or after it. -/
theorem bind_eq_error {m : Except ε α} {f : α → Except ε β} {e : ε} (h : (m >>= f) = .error e) :
    m = .error e ∨ ∃ a, m = .ok a ∧ f a = .error e := by
  cases m with
  | error e' => exact .inl (congrArg Except.error (Except.error.inj h))
  | ok a => exact .inr ⟨a, rfl, h⟩

/-- The failure a program ended in. -/
def failure : Except ε α → Option ε
  | .ok _ => none
  | .error e => some e

theorem failure_eq_some {m : Except ε α} {e : ε} : failure m = some e ↔ m = .error e := by
  cases m <;> simp [failure]

theorem any_toOption {m : Except ε α} {q : α → Bool} : m.toOption.any q = true ↔ ∃ a, m = .ok a ∧ q a = true := by
  cases m <;> simp [Except.toOption]

variable {R : σ → σ → Prop} {B : σ → ε → Prop} {sa : α → σ} {sb : β → σ} {x y : σ}

namespace Traces

theorem ok {a : α} (h : ReflTransGen R x (sa a)) : Traces R B sa x (.ok a) := h

theorem error {e : ε} (h : B x e) : Traces R B sa x (.error e) := ⟨x, .refl, h⟩

theorem trans {m : Except ε α} (hxy : ReflTransGen R x y) (h : Traces R B sa y m) : Traces R B sa x m := by
  cases m with
  | ok a => exact hxy.trans h
  | error e =>
    obtain ⟨z, hz, hb⟩ := h
    exact ⟨z, hxy.trans hz, hb⟩

/-- What a traced program ended with. -/
theorem of_ok {m : Except ε α} {a : α} (h : Traces R B sa x m) (hm : m = .ok a) : ReflTransGen R x (sa a) := by
  subst hm
  exact h

theorem bind {m : Except ε α} {f : α → Except ε β} (hm : Traces R B sa x m)
    (hf : ∀ a, m = .ok a → Traces R B sb (sa a) (f a)) : Traces R B sb x (m >>= f) := by
  cases m with
  | error e => exact hm
  | ok a => exact trans hm (hf a rfl)

/-- A loop whose every round is traced, from the states its invariant allows, is traced. -/
theorem foldlM {I : α → Prop} {f : α → γ → Except ε α} : ∀ {l : List γ} {a : α},
    (∀ a, ∀ c ∈ l, I a → Traces R B sa (sa a) (f a c)) → (∀ a, ∀ c ∈ l, ∀ a', I a → f a c = .ok a' → I a') → I a →
      Traces R B sa (sa a) (l.foldlM f a)
  | [], a, _, _, _ => ReflTransGen.refl
  | c :: l, a, hf, hI, ha => by
    rw [List.foldlM_cons]
    refine bind (hf a c List.mem_cons_self ha) (fun a' h => foldlM (I := I) (fun a c hc => ?_) (fun a c hc => ?_) ?_)
    · exact hf a c (List.mem_cons_of_mem _ hc)
    · exact hI a c (List.mem_cons_of_mem _ hc)
    · exact hI a c List.mem_cons_self a' ha h

/-- A program is traced by what each of its two ends says. -/
theorem of_cases {m : Except ε α} (hok : ∀ a, m = .ok a → ReflTransGen R x (sa a)) (herr : ∀ e, m = .error e → B x e) :
    Traces R B sa x m := by
  cases m with
  | ok a => exact hok a rfl
  | error e => exact error (herr e rfl)

section Invariant

variable {I : σ → Prop} (hI : ∀ x y, I x → R x y → I y) (hx : I x)

include hI hx

theorem invariant_steps (h : ReflTransGen R x y) : I y := by
  induction h with
  | refl => exact hx
  | tail _ hs ih => exact hI _ _ ih hs

/-- **Every invariant of the steps holds of the result.** -/
theorem invariant {a : α} (h : Traces R B sa x (.ok a)) : I (sa a) := invariant_steps hI hx h

/-- **A failure is blamed on a state with every invariant of the steps.** -/
theorem invariant_error {e : ε} (h : Traces R B sa x (.error e : Except ε α)) : ∃ y, I y ∧ B y e := by
  obtain ⟨y, hy, hb⟩ := h
  exact ⟨y, invariant_steps hI hx hy, hb⟩

end Invariant

end Traces

/-! ## What a program that ends normally ends with -/

/-- If the program ends normally, it is in `Q`. -/
def Ends (Q : α → Prop) (m : Except ε α) : Prop := ∀ a, m = .ok a → Q a

namespace Ends

variable {Q : α → Prop} {m : Except ε α}

theorem ok {a : α} (h : Q a) : Ends Q (.ok a : Except ε α) := fun _ heq => Except.ok.inj heq ▸ h

theorem error (e : ε) : Ends Q (.error e) := fun _ h => nomatch h

theorem mono {P : α → Prop} (h : Ends P m) (hpq : ∀ a, P a → Q a) : Ends Q m := fun a ha => hpq a (h a ha)

theorem bind {P : α → Prop} {Q : β → Prop} {f : α → Except ε β} (h : Ends P m) (hf : ∀ a, P a → Ends Q (f a)) :
    Ends Q (m >>= f) := by
  intro b hb
  obtain ⟨a, ha, hb⟩ := bind_eq_ok hb
  exact hf a (h a ha) b hb

/-- An invariant of a loop body is an invariant of the loop. -/
theorem foldlM {f : α → γ → Except ε α} : ∀ {l : List γ} {a : α},
    (∀ a, ∀ c ∈ l, Q a → Ends Q (f a c)) → Q a → Ends Q (l.foldlM f a)
  | [], _, _, ha => ok ha
  | c :: l, a, hf, ha => by
    rw [List.foldlM_cons]
    refine bind (hf a c List.mem_cons_self ha) (fun b hb => foldlM (fun a c hc => ?_) hb)
    exact hf a c (List.mem_cons_of_mem _ hc)

end Ends

/-! ## Both ends -/

/-- A program that ends normally ends in `Q`, one that fails does so in `B`. -/
def Outcome (Q : α → Prop) (B : ε → Prop) : Except ε α → Prop
  | .ok a => Q a
  | .error e => B e

namespace Outcome

variable {Q : α → Prop} {F : ε → Prop} {m : Except ε α}

theorem ends (h : Outcome Q F m) : Ends Q m := by
  intro a ha
  subst ha
  exact h

theorem traces (h : Outcome Q F m) (hok : ∀ a, Q a → ReflTransGen R x (sa a)) (herr : ∀ e, F e → B x e) :
    Traces R B sa x m :=
  Traces.of_cases (fun a ha => hok a (h.ends a ha)) (fun e he => herr e (by subst he; exact h))

theorem mono {P : α → Prop} {G : ε → Prop} (h : Outcome P G m) (hp : ∀ a, P a → Q a) (hg : ∀ e, G e → F e) :
    Outcome Q F m := by
  cases m with
  | ok a => exact hp a h
  | error e => exact hg e h

theorem and_ends {P : α → Prop} (h : Outcome Q F m) (he : Ends P m) : Outcome (fun a => Q a ∧ P a) F m := by
  cases m with
  | ok a => exact ⟨h, he a rfl⟩
  | error e => exact h

theorem bind {P : α → Prop} {Q : β → Prop} {f : α → Except ε β} (h : Outcome P F m) (hf : ∀ a, P a → Outcome Q F (f a)) :
    Outcome Q F (m >>= f) := by
  cases m with
  | ok a => exact hf a h
  | error e => exact h

/-- **A walk over the keys of a list**, held at every cell to what it has done and what it still has before it. -/
theorem walk {κ : Type*} {I : List γ → List γ → α → Prop} {f : α → κ → Except ε α} (key : γ → κ)
    (hstep : ∀ done c rest a, I done (c :: rest) a → Outcome (I (done ++ [c]) rest) F (f a (key c))) :
    ∀ {done rest : List γ} {a : α}, I done rest a → Outcome (I (done ++ rest) []) F ((rest.map key).foldlM f a)
  | done, [], a, h => by
    rw [List.append_nil]
    exact h
  | done, c :: rest, a, h => by
    rw [List.map_cons, List.foldlM_cons]
    refine bind (hstep done c rest a h) (fun b hb => ?_)
    have := walk key hstep hb
    rwa [List.append_assoc] at this

end Outcome

/-! ## Two programs -/

/-- The programs end alike: both in the same failure, or both normally with results that `R` relates. -/
def Pairs {α' : Type*} (R : α → α' → Prop) : Except ε α → Except ε α' → Prop
  | .ok a, .ok a' => R a a'
  | .error e, .error e' => e = e'
  | _, _ => False

namespace Pairs

variable {α' β' : Type u} {R : α → α' → Prop} {S : β → β' → Prop} {m : Except ε α} {m' : Except ε α'}

theorem ok {a : α} {a' : α'} (h : R a a') : Pairs R (.ok a : Except ε α) (.ok a') := h

theorem bind {f : α → Except ε β} {f' : α' → Except ε β'} (h : Pairs R m m') (hf : ∀ a a', R a a' → Pairs S (f a) (f' a')) :
    Pairs S (m >>= f) (m' >>= f') := by
  cases m with
  | ok a => cases m' with
    | ok a' => exact hf a a' h
    | error e => exact h.elim
  | error e => cases m' with
    | ok a' => exact h.elim
    | error e' => exact h

/-- Loops whose rounds end alike end alike. -/
theorem foldlM {f : α → γ → Except ε α} {f' : α' → γ → Except ε α'} (hf : ∀ a a' c, R a a' → Pairs R (f a c) (f' a' c)) :
    ∀ (l : List γ) {a : α} {a' : α'}, R a a' → Pairs R (l.foldlM f a) (l.foldlM f' a')
  | [], _, _, h => h
  | c :: l, a, a', h => by
    rw [List.foldlM_cons, List.foldlM_cons]
    exact bind (hf a a' c h) (fun _ _ hb => foldlM hf l hb)

end Pairs

end Fallible

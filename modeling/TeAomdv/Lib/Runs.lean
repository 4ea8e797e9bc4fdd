import Mathlib.Logic.Relation
/-!
# Runs — guarded transition systems

A system is a partial step function; a run takes enabled events that meet a guard.  Invariants are proved by the one
induction `Reaches.invariant`; a concrete run is replayed with `replay`.  A state that is a graph has no cycle as soon as
a strict order goes along every edge that can be left again (`acyclic`).  A walk whose hops carry labels is a `Trail`.
What a state does not remember of the run is kept beside it (`watch`), which changes no run.
-/
namespace Runs

variable {σ ε : Type*}

/-- The states reached from `init` by enabled events that meet the guard at the state before them. -/
inductive Reaches (step : σ → ε → Option σ) (guard : σ → ε → Prop) (init : σ) : σ → Prop
  | init : Reaches step guard init init
  | step {s s' : σ} {e : ε} : Reaches step guard init s → guard s e → step s e = some s' →
      Reaches step guard init s'

/-- Takes the events in order; `none` once one is not enabled. -/
def replay (step : σ → ε → Option σ) : List ε → σ → Option σ
  | [], s => some s
  | e :: es, s => (step s e).bind (replay step es)

variable {step : σ → ε → Option σ} {guard : σ → ε → Prop} {init : σ}

/-- **An invariant holds in every reached state** once it holds initially and every guarded step keeps it. -/
theorem Reaches.invariant {P : σ → Prop} (h0 : P init)
    (hstep : ∀ s e s', Reaches step guard init s → P s → guard s e → step s e = some s' → P s') {s : σ}
    (h : Reaches step guard init s) : P s := by
  induction h with
  | init => exact h0
  | step hr hg hs ih => exact hstep _ _ _ hr ih hg hs

theorem Reaches.mono {guard' : σ → ε → Prop} (hg : ∀ s e, guard s e → guard' s e) {s : σ}
    (h : Reaches step guard init s) : Reaches step guard' init s := by
  induction h with
  | init => exact .init
  | step _ h1 h2 ih => exact .step ih (hg _ _ h1) h2

theorem Reaches.trans {s t : σ} (h : Reaches step guard init s) (h' : Reaches step guard s t) :
    Reaches step guard init t := by
  induction h' with
  | init => exact h
  | step _ h1 h2 ih => exact ih.step h1 h2

/-- The events of a run are enabled one after the other, each passes a test before it is taken, and the state they lead
to passes a test of its own. -/
def obeys (step : σ → ε → Option σ) (ok : σ → ε → Bool) (fin : σ → Bool) : List ε → σ → Bool
  | [], s => fin s
  | e :: es, s => ok s e && (step s e).any (obeys step ok fin es)

/-- **A run that can be replayed under a test is a run under the guard the test decides.** -/
theorem Reaches.of_obeys (ok : σ → ε → Bool) (fin : σ → Bool) (hok : ∀ s e, ok s e = true → guard s e) :
    ∀ (es : List ε) {s : σ}, Reaches step guard init s → obeys step ok fin es s = true →
      ∃ s', replay step es s = some s' ∧ Reaches step guard init s' ∧ fin s' = true
  | [], s, h, hr => ⟨s, rfl, h, hr⟩
  | e :: es, s, h, hr => by
    unfold obeys at hr
    rw [Bool.and_eq_true] at hr
    obtain ⟨he, hr⟩ := hr
    cases hs : step s e with
    | none =>
      rw [hs] at hr
      cases hr
    | some t =>
      rw [hs] at hr
      obtain ⟨s', h1, h2⟩ := Reaches.of_obeys ok fin hok es (h.step (hok s e he) hs) hr
      exact ⟨s', by rw [replay, hs]; exact h1, h2⟩

theorem replay_append (es es' : List ε) (s : σ) : replay step (es ++ es') s = (replay step es s).bind (replay step es') := by
  induction es generalizing s with
  | nil => rfl
  | cons e es ih =>
    rw [List.cons_append, replay, replay, Option.bind_assoc]
    exact congrArg (Option.bind (step s e)) (funext ih)

/-- **A schedule is carried out** as soon as every event of it leads from one stage to the next. -/
theorem replay_stages {P : Nat → σ → Prop} {ev : Nat → ε} {s : σ} (h0 : P 0 s) : ∀ n : Nat,
    (∀ i < n, ∀ s, P i s → ∃ s', step s (ev i) = some s' ∧ P (i + 1) s') →
      ∃ s', replay step ((List.range n).map ev) s = some s' ∧ P n s'
  | 0, _ => ⟨s, rfl, h0⟩
  | n + 1, hstep => by
    obtain ⟨t, ht, hP⟩ := replay_stages h0 n (fun i hi => hstep i (Nat.lt_succ_of_lt hi))
    obtain ⟨u, hu, hP'⟩ := hstep n (Nat.lt_succ_self n) t hP
    refine ⟨u, ?_, hP'⟩
    rw [List.range_succ, List.map_append, replay_append, ht]
    exact (congrArg (Option.bind · some) hu).trans rfl

/-! ## A record of the run -/

/-- The system with a record beside its state, which `note` keeps up to date. -/
def watch {τ : Type*} (step : σ → ε → Option σ) (note : σ → ε → σ → τ → τ) (s : σ × τ) (e : ε) : Option (σ × τ) :=
  (step s.1 e).map (fun s' => (s', note s.1 e s' s.2))

section Watch

variable {τ : Type*} {note : σ → ε → σ → τ → τ} {t₀ : τ}

theorem watch_eq_some {s s' : σ × τ} {e : ε} (h : watch step note s e = some s') :
    step s.1 e = some s'.1 ∧ s'.2 = note s.1 e s'.1 s.2 := by
  obtain ⟨u, hu, rfl⟩ := Option.map_eq_some_iff.1 h
  exact ⟨hu, rfl⟩

/-- A watched run is a run. -/
theorem Reaches.of_watch {s : σ × τ} (h : Reaches (watch step note) (fun s e => guard s.1 e) (init, t₀) s) :
    Reaches step guard init s.1 := by
  induction h with
  | init => exact .init
  | step _ hg hs ih => exact ih.step hg (watch_eq_some hs).1

/-- **Every run can be watched.** -/
theorem Reaches.watch {s : σ} (h : Reaches step guard init s) (note : σ → ε → σ → τ → τ) (t₀ : τ) :
    ∃ t, Reaches (watch step note) (fun s e => guard s.1 e) (init, t₀) (s, t) := by
  induction h with
  | init => exact ⟨t₀, .init⟩
  | step _ hg hs ih =>
    obtain ⟨t, ht⟩ := ih
    exact ⟨_, ht.step hg (Option.map_eq_some_iff.2 ⟨_, hs, rfl⟩)⟩

variable (guard) in
/-- **A run records no more than its credit**, as soon as every step records no more than it takes off. -/
theorem Reaches.spend {α : Type*} {p : α → Bool} {emit : σ → ε → List α} (credit : σ → Nat)
    (hstep : ∀ s e s', Reaches step guard init s → guard s e → step s e = some s' →
      (emit s e).countP p + credit s' ≤ credit s) {s : σ} {out : List α}
    (h : Reaches (Runs.watch step (fun s e _ out => out ++ emit s e)) (fun t e => guard t.1 e) (init, []) (s, out)) :
    out.countP p + credit s ≤ credit init := by
  refine Reaches.invariant (P := fun t => t.2.countP p + credit t.1 ≤ credit init) (by simp) ?_ h
  intro t e t' hr ht hg hs
  obtain ⟨hs, hout⟩ := watch_eq_some hs
  have := hstep _ _ _ hr.of_watch hg hs
  rw [hout, List.countP_append]
  omega

end Watch

/-! ## Labelled walks -/

/-- From one thing to another by hops with these labels. -/
inductive Trail {α κ : Type*} (hop : κ → α → α → Prop) : List κ → α → α → Prop
  | nil (a : α) : Trail hop [] a a
  | cons {k : κ} {ks : List κ} {a b c : α} : hop k a b → Trail hop ks b c → Trail hop (k :: ks) a c

namespace Trail

variable {α β κ : Type*} {hop : κ → α → α → Prop} {ks : List κ} {a c : α}

/-- A quantity that every hop computes from its label is computed by the walk. -/
theorem foldl {f : α → β} {g : β → κ → β} (hf : ∀ k a b, hop k a b → f b = g (f a) k) (h : Trail hop ks a c) :
    f c = ks.foldl g (f a) := by
  induction h with
  | nil => rfl
  | cons hh _ ih => rw [ih, List.foldl_cons, hf _ _ _ hh]

/-- What every hop of the walk keeps, the walk keeps. -/
theorem invariant {P : α → Prop} (h : Trail hop ks a c) (hP : ∀ k ∈ ks, ∀ a b, hop k a b → P a → P b) (ha : P a) : P c := by
  induction h with
  | nil => exact ha
  | cons hh _ ih =>
    exact ih (fun k hk => hP k (List.mem_cons_of_mem _ hk)) (hP _ List.mem_cons_self _ _ hh ha)

theorem append {b : α} {ks' : List κ} (h : Trail hop ks a b) (h' : Trail hop ks' b c) : Trail hop (ks ++ ks') a c := by
  induction h with
  | nil => exact h'
  | cons hh _ ih => exact .cons hh (ih h')

theorem snoc {b : α} {k : κ} (h : Trail hop ks a b) (hh : hop k b c) : Trail hop (ks ++ [k]) a c :=
  h.append (.cons hh (.nil c))

/-- **What is remembered of a walk**: a property of the labels so far and of where they lead. -/
theorem history {P : List κ → α → Prop} (h : Trail hop ks a c) (h0 : P [] a)
    (hstep : ∀ ks k b c, Trail hop ks a b → P ks b → hop k b c → P (ks ++ [k]) c) : P ks c := by
  have key : ∀ {ks b c}, Trail hop ks b c → ∀ done, Trail hop done a b → P done b → P (done ++ ks) c := by
    intro ks b c h
    induction h with
    | nil => exact fun done _ hb => (List.append_nil done).symm ▸ hb
    | @cons k ks b b' c hh _ ih =>
      intro done hd hb
      have := ih (done ++ [k]) (hd.snoc hh) (hstep _ _ _ _ hd hb hh)
      rwa [List.append_assoc] at this
  exact key h [] (.nil a) h0

/-- A walk of steps of a system is replayed by its labels. -/
theorem replay {step : α → κ → Option α} (hstep : ∀ k a b, hop k a b → step a k = some b) (h : Trail hop ks a c) :
    Runs.replay step ks a = some c := by
  induction h with
  | nil => rfl
  | cons hh _ ih =>
    rw [Runs.replay, hstep _ _ _ hh]
    exact ih

/-- **A run that can be replayed under a test is a walk** of steps that pass it. -/
theorem of_obeys {step : α → κ → Option α} (ok : α → κ → Bool) (fin : α → Bool) : ∀ (ks : List κ) {a : α},
    obeys step ok fin ks a = true → ∃ c, Trail (fun k a b => ok a k = true ∧ step a k = some b) ks a c ∧ fin c = true
  | [], a, h => ⟨a, .nil a, h⟩
  | k :: ks, a, h => by
    obtain ⟨hok, h⟩ := (Bool.and_eq_true _ _).mp h
    obtain ⟨b, hb, h⟩ := (Option.any_eq_true _ _).1 h
    obtain ⟨c, hc, hfin⟩ := of_obeys ok fin ks h
    exact ⟨c, .cons ⟨hok, hb⟩ hc, hfin⟩

/-- A run of steps is a walk, once each step has a label. -/
theorem of_steps {r : α → α → Prop} {good : κ → Prop} (hr : ∀ a b, r a b → ∃ k, good k ∧ hop k a b)
    (h : Relation.ReflTransGen r a c) : ∃ ks, Trail hop ks a c ∧ ∀ k ∈ ks, good k := by
  induction h with
  | refl => exact ⟨[], .nil a, fun _ hk => absurd hk List.not_mem_nil⟩
  | tail _ hs ih =>
    obtain ⟨ks, hks, hgood⟩ := ih
    obtain ⟨k, hk, hh⟩ := hr _ _ hs
    refine ⟨ks ++ [k], hks.snoc hh, fun k' hk' => ?_⟩
    rcases List.mem_append.1 hk' with hk' | hk'
    · exact hgood k' hk'
    · rw [List.mem_singleton.1 hk']
      exact hk

end Trail

/-- **No cycle**: an edge into a node that has an edge itself goes up in a strict order. -/
theorem acyclic {α : Type*} {r : α → α → Prop} (lt : α → α → Prop) (htrans : ∀ {a b c}, lt a b → lt b c → lt a c)
    (hirr : ∀ a, ¬ lt a a) (hlt : ∀ a b c, r a b → r b c → lt a b) (a : α) : ¬ Relation.TransGen r a a := by
  have up : ∀ {b}, Relation.TransGen r a b → ∀ c, r b c → lt a b := by
    intro b hab
    induction hab with
    | single h => exact fun c hc => hlt _ _ c h hc
    | tail _ h ih => exact fun c hc => htrans (ih _ h) (hlt _ _ c h hc)
  intro h
  obtain ⟨b, hab, -⟩ := Relation.TransGen.head'_iff.1 h
  exact hirr a (up h b hab)

end Runs

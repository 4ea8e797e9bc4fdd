import TeAomdv.World
/-!
# Monotone — the numbers of an entry only grow

A handler that counts an entry up by one does so to a live entry, which it brings down by that: one handler counts up
once.  So no number decreases, whatever the packets say, as long as those stored are too small to wrap
(`monotone_of_reaches`).
-/
namespace TeAomdv

open Exec (Trace)

/-- What has become of `r₀` since a handler that hears `h` began. -/
structure Route.Since (h : Heard) (r₀ r : Route) : Prop where
  seqno : r₀.seqno ≤ r.seqno
  highest : r₀.highest ≤ r.highest
  same : h = .clock → r.flags = .up → r.seqno = r₀.seqno ∧ r.highest = r₀.highest

namespace Route.Since

variable {inf : Nat} {maxPaths : Int} {h : Heard} {r₀ r r' : Route}

theorem refl (h : Heard) (r : Route) : Route.Since h r r := ⟨Nat.le_refl _, Nat.le_refl _, fun _ _ => ⟨rfl, rfl⟩⟩

/-- A step under the same numbers, or in a handler that does not count. -/
theorem step (hs : Route.Since h r₀ r) (h1 : r.seqno ≤ r'.seqno) (h2 : r.highest ≤ r'.highest)
    (h3 : h = .clock → r'.flags = .up → r.flags = .up ∧ r'.seqno = r.seqno ∧ r'.highest = r.highest) :
    Route.Since h r₀ r' where
  seqno := hs.seqno.trans h1
  highest := hs.highest.trans h2
  same := by
    intro hc hup
    obtain ⟨hup, hseqno, hhighest⟩ := h3 hc hup
    rw [hseqno, hhighest]
    exact hs.same hc hup

/-- **Every rule keeps the numbers from decreasing.** -/
theorem rule (hs : Route.Since h r₀ r) (h1 : r₀.seqno < seqnoLimit) (h2 : r₀.highest < seqnoLimit)
    (hr : Rule inf maxPaths h r r') : Route.Since h r₀ r' := by
  cases hr with
  | keep => exact hs
  | lose _ hup | freeze => exact hs.step (Nat.le_refl _) (Nat.le_refl _) (fun _ hup => ⟨hup, rfl, rfl⟩)
  | renew a _ hlt => exact hs.step (Nat.le_of_lt hlt) (Nat.le_refl _) nofun
  | extend => exact hs.step (Nat.le_refl _) (Nat.le_refl _) nofun
  | errorLose n => exact hs.step (Nat.le_refl _) (Nat.le_max_left _ _) nofun
  | errorFall n _ _ hle | ptaLose _ n _ hle | ptaFall n _ hle =>
    exact hs.step (hle.trans (Nat.le_max_right _ _)) (Nat.le_max_left _ _) nofun
  | failed hup =>
    obtain ⟨hseqno, -⟩ := hs.same rfl hup
    exact hs.step (Route.le_failedSeqno (by rwa [hseqno])) (Nat.le_refl _) nofun
  | expired hup =>
    obtain ⟨hseqno, hhighest⟩ := hs.same rfl hup
    have hlt : r.seqno < seqnoLimit := by rwa [hseqno]
    have hle := (Route.le_failedSeqno hlt).trans (Route.failedSeqno_le_expiredSeqno hlt (by rwa [hhighest]))
    exact hs.step hle (Nat.le_refl _) nofun
  | repaired => exact hs.step (Nat.le_refl _) (Nat.le_refl _) nofun

end Route.Since

/-- The number of the entry is too small to wrap, and so is the highest it has heard. -/
def RtEntry.Unwrapped (e : RtEntry) : Prop := e.rtSeqno < seqnoLimit ∧ e.rtHighestSeqnoHeard < seqnoLimit

instance (e : RtEntry) : Decidable e.Unwrapped := inferInstanceAs (Decidable (_ ∧ _))

namespace Exec

variable {env : Env} {h : Heard} {x y : Exec} {d : NsAddr} {e : RtEntry}

theorem since_of_handle {inp : Input} (hq : x.DataQueue) (hc : x.Calm) (hy : x.handle env inp = .ok y)
    (he : x.rtLookup d = some e) (hw : e.Unwrapped) :
    ∃ e', y.rtLookup d = some e' ∧ e.rtSeqno ≤ e'.rtSeqno ∧ e.rtHighestSeqnoHeard ≤ e'.rtHighestSeqnoHeard := by
  have ht : Trace env (x.heard inp) x (x.handle env inp) := handle_trace hq hc
  rw [hy] at ht
  have hI : ∃ e', y.rtLookup d = some e' ∧ Route.Since (x.heard inp) e.route e'.route := by
    refine ht.invariant (I := fun z => ∃ e', z.rtLookup d = some e' ∧ Route.Since (x.heard inp) e.route e'.route)
      ?_ ⟨e, he, .refl _ _⟩
    rintro z w ⟨e₁, he₁, hs⟩ hm
    obtain ⟨e₂, he₂, hr | hf⟩ := hm.rtLookup he₁
    · exact ⟨e₂, he₂, hs.rule hw.1 hw.2 hr⟩
    · refine ⟨e₂, he₂, ?_⟩
      rw [hf]
      exact hs.step (Nat.le_refl _) (Nat.le_refl _) nofun
  obtain ⟨e', he', hs⟩ := hI
  exact ⟨e', he', hs.seqno, hs.highest⟩

end Exec

namespace Agent

/-- No number stored by the node is about to wrap. -/
def Unwrapped (a : Agent) (_ : Call) : Prop := ∀ e ∈ a.rtable, e.Unwrapped

/-- **The numbers of every entry only grow**, over any run in which those stored are too small to wrap. -/
theorem monotone_of_reaches {id : NsAddr} {a a' : Agent} (h : Reach id a) (h' : Runs.Reaches call Unwrapped a a') :
    ∀ e ∈ a.rtable, ∃ e' ∈ a'.rtable, e'.rtDst = e.rtDst ∧ e.rtSeqno ≤ e'.rtSeqno ∧
      e.rtHighestSeqnoHeard ≤ e'.rtHighestSeqnoHeard := by
  intro e he
  have hfind : (a.exec 0).rtLookup e.rtDst = some e := Keyed.find?_of_mem_nodup RtEntry.rtDst (tidy_of_reach h).rep.dsts he
  have hI : a'.Tidy ∧ ∃ e', (a'.exec 0).rtLookup e.rtDst = some e' ∧ e.rtSeqno ≤ e'.rtSeqno ∧
      e.rtHighestSeqnoHeard ≤ e'.rtHighestSeqnoHeard := by
    refine Runs.Reaches.invariant (P := fun a => a.Tidy ∧ ∃ e', (a.exec 0).rtLookup e.rtDst = some e' ∧
      e.rtSeqno ≤ e'.rtSeqno ∧ e.rtHighestSeqnoHeard ≤ e'.rtHighestSeqnoHeard)
      ⟨tidy_of_reach h, e, hfind, Nat.le_refl _, Nat.le_refl _⟩ ?_ h'
    rintro a₁ c a₂ - ⟨ht, e₁, he₁, h1, h2⟩ hw hs
    obtain ⟨x, hx, rfl⟩ := call_eq_some hs
    obtain ⟨e₂, he₂, h3, h4⟩ := Exec.since_of_handle (x := a₁.exec c.heap) ht.data (exec_calm a₁ c.heap) hx he₁
      (hw e₁ (Exec.mem_of_rtLookup he₁))
    exact ⟨ht.call hs, e₂, he₂, h1.trans h3, h2.trans h4⟩
  obtain ⟨-, e', he', h1, h2⟩ := hI
  exact ⟨e', Exec.mem_of_rtLookup he', Exec.rtDst_of_rtLookup he', h1, h2⟩

theorem monotone_twoPathCalls : ∃ a a', Runs.replay call (twoPathCalls.take 2) (new 5) = some a ∧
    Runs.replay call (twoPathCalls.drop 2) a = some a' ∧ a.rtable.length = 1 ∧
    ∀ e ∈ a.rtable, ∃ e' ∈ a'.rtable, e'.rtDst = e.rtDst ∧ e.rtSeqno ≤ e'.rtSeqno ∧
      e.rtHighestSeqnoHeard ≤ e'.rtHighestSeqnoHeard := by
  let small (a : Agent) (_ : Call) : Bool := a.rtable.all (fun e => e.Unwrapped)
  let later (a : Agent) : Bool := Runs.obeys call small (fun _ => true) (twoPathCalls.drop 2) a
  obtain ⟨a, ha, hr, hfin⟩ := Runs.Reaches.of_obeys (fun _ _ => true) (fun a : Agent => a.rtable.length == 1 && later a)
    (fun _ _ _ => trivial) (twoPathCalls.take 2) (.init : Reach 5 (new 5)) (by decide +kernel)
  obtain ⟨hlen, hlater⟩ := Bool.and_eq_true_iff.1 hfin
  obtain ⟨a', ha', hr', -⟩ : ∃ a', Runs.replay call (twoPathCalls.drop 2) a = some a' ∧
      Runs.Reaches call Unwrapped a a' ∧ true = true :=
    Runs.Reaches.of_obeys small (fun _ => true) (fun a c h e he => of_decide_eq_true (List.all_eq_true.1 h e he))
      (twoPathCalls.drop 2) .init hlater
  exact ⟨a, a', ha, ha', eq_of_beq hlen, monotone_of_reaches hr hr'⟩

end Agent

end TeAomdv

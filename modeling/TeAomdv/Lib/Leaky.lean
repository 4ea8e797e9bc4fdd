import Mathlib.Algebra.Order.Field.Basic
import Mathlib.Data.List.Induction
import Mathlib.Tactic.Linarith
import Mathlib.Tactic.Ring
/-!
# Leaky — averages that forget

In each round a share `r` of the old value stays and what came in is added.  The value settles where its intake would hold
it, and what it began with fades (`settle_le`, `le_settle`).  What is known of the intake but for an error bounds the value
(`Between.snoc`), by no more than the error would hold by itself (`settle_gap`).
-/
namespace Leaky

section Ring

variable {K : Type*} [CommRing K]

/-- The value after these intakes, oldest first, if `t` was there at first. -/
def settle (r : K) (es : List K) (t : K) : K := es.foldl (fun t e => e + r * t) t

@[simp] theorem settle_nil (r t : K) : settle r [] t = t := rfl

@[simp] theorem settle_snoc (r : K) (es : List K) (e t : K) : settle r (es ++ [e]) t = e + r * settle r es t := by
  simp [settle]

theorem settle_append (r : K) (es es' : List K) (t : K) : settle r (es ++ es') t = settle r es' (settle r es t) := by
  simp [settle]

end Ring

section Order

variable {K : Type*} [CommRing K] [LinearOrder K] [IsStrictOrderedRing K] {r c d q s t x n lo hi : K} {es : List K}

/-- **Intakes that could hold no more than `c` bring the value down to it.** -/
theorem settle_le (hr : 0 ≤ r) (he : ∀ e ∈ es, e ≤ c - r * c) : settle r es t ≤ c + r ^ es.length * (t - c) := by
  induction es using List.reverseRecOn with
  | nil => simp
  | append_singleton es e ih =>
    have hlast : e ≤ c - r * c := he e (by simp)
    have hrest : settle r es t ≤ c + r ^ es.length * (t - c) := ih (fun e h => he e (by simp [h]))
    have hshare : r * settle r es t ≤ r * (c + r ^ es.length * (t - c)) := mul_le_mul_of_nonneg_left hrest hr
    have hlen : (es ++ [e]).length = es.length + 1 := by simp
    rw [settle_snoc, hlen]
    calc e + r * settle r es t ≤ (c - r * c) + r * (c + r ^ es.length * (t - c)) := add_le_add hlast hshare
      _ = c + r ^ (es.length + 1) * (t - c) := by ring

/-- **Intakes that could hold at least `c` bring the value up to it.** -/
theorem le_settle (hr : 0 ≤ r) (he : ∀ e ∈ es, c - r * c ≤ e) : c + r ^ es.length * (t - c) ≤ settle r es t := by
  induction es using List.reverseRecOn with
  | nil => simp
  | append_singleton es e ih =>
    have hlast : c - r * c ≤ e := he e (by simp)
    have hrest : c + r ^ es.length * (t - c) ≤ settle r es t := ih (fun e h => he e (by simp [h]))
    have hshare : r * (c + r ^ es.length * (t - c)) ≤ r * settle r es t := mul_le_mul_of_nonneg_left hrest hr
    have hlen : (es ++ [e]).length = es.length + 1 := by simp
    rw [settle_snoc, hlen]
    calc c + r ^ (es.length + 1) * (t - c) = (c - r * c) + r * (c + r ^ es.length * (t - c)) := by ring
      _ ≤ e + r * settle r es t := add_le_add hlast hshare

/-- Once enough has faded, the value is as low as the intakes and what is left of the first value. -/
theorem settle_le_of_faded (hr : 0 ≤ r) (he : ∀ e ∈ es, e ≤ c - r * c) (hq : r ^ es.length ≤ q) (hd : 0 ≤ d) (ht : t - c ≤ d) :
    settle r es t ≤ c + q * d := by
  have hleft : r ^ es.length * (t - c) ≤ r ^ es.length * d := mul_le_mul_of_nonneg_left ht (pow_nonneg hr _)
  have hfade : r ^ es.length * d ≤ q * d := mul_le_mul_of_nonneg_right hq hd
  exact (settle_le hr he).trans (add_le_add_right (hleft.trans hfade) c)

/-- Once enough has faded, the value is as high as the intakes but for what the first value lacked. -/
theorem le_settle_of_faded (hr : 0 ≤ r) (he : ∀ e ∈ es, c - r * c ≤ e) (hq : r ^ es.length ≤ q) (hd : 0 ≤ d) (ht : c - t ≤ d) :
    c - q * d ≤ settle r es t := by
  have hleft : r ^ es.length * (c - t) ≤ r ^ es.length * d := mul_le_mul_of_nonneg_left ht (pow_nonneg hr _)
  have hfade : r ^ es.length * d ≤ q * d := mul_le_mul_of_nonneg_right hq hd
  refine le_trans ?_ (le_settle hr he)
  calc c - q * d ≤ c - r ^ es.length * (c - t) := sub_le_sub_left (hleft.trans hfade) c
    _ = c + r ^ es.length * (t - c) := by ring

/-- A value that was at least `c` stays so. -/
theorem le_settle_of_le (hr : 0 ≤ r) (he : ∀ e ∈ es, c - r * c ≤ e) (ht : c ≤ t) : c ≤ settle r es t := by
  have hfade : 0 ≤ r ^ es.length * (t - c) := mul_nonneg (pow_nonneg hr _) (sub_nonneg.2 ht)
  exact (le_add_of_nonneg_right hfade).trans (le_settle hr he)

/-- A value that was no more than `c` stays so. -/
theorem settle_le_of_le (hr : 0 ≤ r) (he : ∀ e ∈ es, e ≤ c - r * c) (ht : t ≤ c) : settle r es t ≤ c := by
  have hfade : r ^ es.length * (t - c) ≤ 0 := mul_nonpos_of_nonneg_of_nonpos (pow_nonneg hr _) (sub_nonpos.2 ht)
  exact (settle_le hr he).trans (add_le_of_nonpos_right hfade)

/-- A value that is what it would be if each intake were what is known of it and between `lo` and `hi` more. -/
structure Between (r lo hi : K) (es : List K) (t x : K) : Prop where
  lower : settle r (es.map (· + lo)) t ≤ x
  upper : x ≤ settle r (es.map (· + hi)) t

omit [IsStrictOrderedRing K] in
theorem Between.init (r lo hi t : K) : Between r lo hi [] t t := ⟨le_refl t, le_refl t⟩

/-- **One more round**, in which `n` comes in beside what is known. -/
theorem Between.snoc (h : Between r lo hi es t x) (hr : 0 ≤ r) (hlo : lo ≤ n) (hhi : n ≤ hi) (e : K) :
    Between r lo hi (es ++ [e]) t (e + n + r * x) := by
  have hlower : r * settle r (es.map (· + lo)) t ≤ r * x := mul_le_mul_of_nonneg_left h.lower hr
  have hupper : r * x ≤ r * settle r (es.map (· + hi)) t := mul_le_mul_of_nonneg_left h.upper hr
  constructor
  · rw [List.map_append, List.map_singleton, settle_snoc]
    linarith
  · rw [List.map_append, List.map_singleton, settle_snoc]
    linarith

/-- **The error adds up to no more** than it would hold by itself. -/
theorem settle_gap (hr : 0 ≤ r) (hs : 0 ≤ s) (hgap : hi - lo ≤ s - r * s) (es : List K) (t : K) :
    settle r (es.map (· + hi)) t ≤ settle r (es.map (· + lo)) t + s := by
  induction es using List.reverseRecOn with
  | nil => simpa using hs
  | append_singleton es e ih =>
    have hshare : r * settle r (es.map (· + hi)) t ≤ r * (settle r (es.map (· + lo)) t + s) := mul_le_mul_of_nonneg_left ih hr
    rw [List.map_append, List.map_append, List.map_singleton, List.map_singleton, settle_snoc, settle_snoc]
    linarith

end Order

end Leaky

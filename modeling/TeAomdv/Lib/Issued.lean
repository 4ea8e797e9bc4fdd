import Mathlib.Data.List.Basic
/-!
# Issued — messages that name what they are about

A message names a matter by a key.  Whoever raises a matter takes a key that no message has (`Named.raise`), and whoever
else speaks of it repeats a message (`Named.copy`).  Then every message goes back to a first one, and a key names one matter
as long as it was new when it was taken (`fresh`).
-/
namespace Issued

variable {M κ : Type*}

/-- Every message goes back to a first one about the same matter, and messages with one fresh key are about one matter. -/
structure Named (key : M → κ) (akin : M → M → Prop) (first : M → Prop) (fresh : κ → Prop) (ms : List M) : Prop where
  origin : ∀ m ∈ ms, ∃ o ∈ ms, first o ∧ key o = key m ∧ akin o m
  unique : ∀ m ∈ ms, ∀ m' ∈ ms, fresh (key m) → key m = key m' → akin m m'

namespace Named

variable {key : M → κ} {akin : M → M → Prop} {first : M → Prop} {fresh fresh' : κ → Prop} {ms : List M} {m : M}

theorem nil : Named key akin first fresh [] := ⟨fun _ h => absurd h List.not_mem_nil, fun _ h => absurd h List.not_mem_nil⟩

/-- Fewer keys count as fresh. -/
theorem anti (h : Named key akin first fresh ms) (hle : ∀ k, fresh' k → fresh k) : Named key akin first fresh' ms :=
  ⟨h.origin, fun m hm m' hm' hf => h.unique m hm m' hm' (hle _ hf)⟩

/-- A first message, with a new key if that is to be fresh. -/
theorem raise (h : Named key akin first fresh ms) (hm : akin m m) (hf : first m)
    (hnew : fresh (key m) → ∀ o ∈ ms, key o ≠ key m) : Named key akin first fresh (ms ++ [m]) where
  origin := by
    intro a ha
    rcases List.mem_append.1 ha with ha | ha
    · obtain ⟨o, ho, hrest⟩ := h.origin a ha
      exact ⟨o, List.mem_append_left _ ho, hrest⟩
    · rw [List.mem_singleton.1 ha]
      exact ⟨m, by simp, hf, rfl, hm⟩
  unique := by
    intro a ha b hb hfresh hkey
    rcases List.mem_append.1 ha with ha | ha <;> rcases List.mem_append.1 hb with hb | hb
    · exact h.unique a ha b hb hfresh hkey
    · rw [List.mem_singleton.1 hb] at hkey
      exact absurd hkey (hnew (hkey ▸ hfresh) a ha)
    · rw [List.mem_singleton.1 ha] at hkey hfresh
      exact absurd hkey.symm (hnew hfresh b hb)
    · rw [List.mem_singleton.1 ha, List.mem_singleton.1 hb]
      exact hm

/-- A message that repeats one. -/
theorem copy (h : Named key akin first fresh ms) (hrefl : ∀ a, akin a a) (hsymm : ∀ {a b}, akin a b → akin b a)
    (htrans : ∀ {a b c}, akin a b → akin b c → akin a c) {o : M} (ho : o ∈ ms) (hkey : key o = key m) (hk : akin o m) :
    Named key akin first fresh (ms ++ [m]) := by
  -- the copy stands for the message it repeats
  have stand : ∀ a ∈ ms ++ [m], ∃ b ∈ ms, key b = key a ∧ akin b a := by
    intro a ha
    rcases List.mem_append.1 ha with ha | ha
    · exact ⟨a, ha, rfl, hrefl a⟩
    · rw [List.mem_singleton.1 ha]
      exact ⟨o, ho, hkey, hk⟩
  refine ⟨fun a ha => ?_, fun a ha b hb hfresh hab => ?_⟩
  · obtain ⟨b, hb, hba, hk⟩ := stand a ha
    obtain ⟨c, hc, hfirst, hcb, hk'⟩ := h.origin b hb
    exact ⟨c, List.mem_append_left _ hc, hfirst, hcb.trans hba, htrans hk' hk⟩
  · obtain ⟨a', ha', hka, hra⟩ := stand a ha
    obtain ⟨b', hb', hkb, hrb⟩ := stand b hb
    have hmid : akin a' b' := h.unique a' ha' b' hb' (hka ▸ hfresh) ((hka.trans hab).trans hkb.symm)
    exact htrans (htrans (hsymm hra) hmid) hrb

end Named

end Issued

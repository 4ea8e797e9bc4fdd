import TeAomdv.TermsRecv
/-!
# TermsTimers — the terms of the timers, and of one invocation
-/
namespace TeAomdv

open Fallible (Ends)

/-- What the terms have to say of a packet found in the interface queue. -/
def Terms.Salvages (T : Terms) (p : Packet) : Prop :=
  dataPacket p.ptype → p.ttl ≠ 0 → ∀ n, T.goes ({ p with salvageCount := p.salvageCount + 1 }.forwarded T.index n)

namespace Exec

variable {T : Terms} {env : Env} {x y : Exec} {d : NsAddr} {p : Packet}

section Laws

variable (hT : T.Lawful)

include hT

/-! ## Timers -/

omit hT in
theorem failEntry_meets {id : NsAddr} (a : Exec × List (NsAddr × Nat)) (d : NsAddr) (hx : a.1.Meets T) :
    Ends (fun a => a.1.Meets T) (failEntry env id a d) := by
  unfold failEntry
  simp only
  split
  · exact Ends.ok hx
  split
  swap
  · exact Ends.ok hx
  split
  · exact Ends.error _
  refine Ends.bind (P := fun _ => True) (fun _ _ => trivial) (fun empty _ => ?_)
  have h₁ := hx.rtModify d (fun rt => rt.pathDelete id)
  split
  · split
    · split
      · exact Ends.error _
      · exact Ends.ok (h₁.rtModify d _)
    · exact Ends.ok (h₁.rtModify d _)
  · exact Ends.ok h₁

theorem handleLinkFailure_meets (id : NsAddr) : x.Abides T (x.handleLinkFailure env id) := by
  intro hx
  unfold handleLinkFailure
  refine Ends.bind (P := fun a => a.1.Meets T) (Ends.foldlM (fun a d _ => failEntry_meets a d) hx.alloc) (fun a ha => ?_)
  refine Ends.ok ?_
  show (if a.2.length > 0 then _ else _ : Exec).Meets T
  split
  · exact ha.sendError hT hx.heap _ _
  · exact ha.free _

theorem sendBuffered_meets (d : NsAddr) : ∀ (n : Nat) (a : Exec × ℚ), a.1.Meets T →
    Ends (fun a => a.1.Meets T) (sendBuffered env d n a)
  | 0, a, hx => Ends.ok hx
  | n + 1, (x, delay), hx => by
    have hy := hx.deque env d
    unfold sendBuffered
    split
    · rename_i y heq
      rw [heq] at hy
      exact Ends.ok hy
    · rename_i q y heq
      rw [heq] at hy
      have hq := hx.queue q (mem_of_deque heq).1
      refine Ends.bind (forward_some_meets hT (fun ht n => hT.flush q n hq ht) d _ hy) (fun z hz => ?_)
      exact sendBuffered_meets d n (z, delay + arpDelay) hz

theorem purgeEntry_meets (a : Exec × ℚ) (d : NsAddr) (hx : a.1.Meets T) :
    Ends (fun a => a.1.Meets T) (purgeEntry env a d) := by
  unfold purgeEntry
  simp only
  split
  · exact Ends.ok hx
  split
  · have h₁ := hx.rtModify d (fun rt => rt.pathPurge env.now)
    refine Ends.bind (P := fun _ => True) (fun _ _ => trivial) (fun empty _ => ?_)
    split
    · refine Ends.bind (drain_meets (fun y q _ hy => Ends.ok (hy.drop q _)) _ h₁) (fun y hy => Ends.ok ?_)
      exact hy.rtModify d _
    · exact Ends.ok h₁
  split
  · split
    · exact Ends.error _
    · exact sendBuffered_meets hT d _ a hx
  split
  · exact Ends.bind (sendRequest_meets hT d hx) (fun y hy => Ends.ok hy)
  · exact Ends.ok hx

theorem rtPurge_meets : x.Abides T (x.rtPurge env) := by
  intro hx
  unfold rtPurge
  exact Ends.bind (P := fun a => a.1.Meets T) (Ends.foldlM (fun a d _ => purgeEntry_meets hT a d) hx) (fun a ha => Ends.ok ha)

theorem salvage_meets (hp : T.Salvages p) : x.Abides T (x.salvage env p) := by
  intro hx
  have h₁ := hx.say (a := .filter p) (fun _ _ h => nomatch h)
  unfold salvage
  simp only
  split
  · exact Ends.ok (h₁.drop p _)
  rename_i hdata
  split
  · exact forward_some_meets hT (hp (not_not.1 hdata)) _ _ h₁
  · exact Ends.ok (h₁.drop p _)

section Neighbors

variable {ifq : NsAddr → List Packet} (hq : ∀ id, ∀ p ∈ ifq id, T.Salvages p)

include hq

theorem nbDelete_meets (id : NsAddr) : x.Abides T (x.nbDelete env ifq id) := by
  intro hx
  unfold nbDelete
  simp only
  split
  · exact Ends.error _
  · refine Ends.bind (handleLinkFailure_meets hT id ⟨hx.index, hx.heap, hx.ids, hx.queue, hx.sent, ?_⟩) (fun y hy => ?_)
    · exact fun nb hm => hx.nbs nb (List.mem_of_mem_eraseP hm)
    · exact Ends.foldlM (fun z p hp hz => salvage_meets hT (hq id p hp) hz) hy

theorem nbPurge_meets : x.Abides T (x.nbPurge env ifq) := by
  intro hx
  unfold nbPurge
  refine Ends.foldlM (fun y nb _ hy => ?_) hx
  split
  · exact nbDelete_meets hT hq _ hy
  · exact Ends.ok hy

end Neighbors

/-- What holds between two neighbours of a trust round. -/
structure Batch.Meets (T : Terms) (b : Batch) : Prop where
  x : b.x.Meets T
  heap : T.heap ≤ b.p.ptr
  fair : T.Recommends ⟨b.nbs, b.itNum⟩

section Trust

variable (hknows : ∀ nb, T.knows nb → T.knows ((nb.setTV env.now).tvInit env.now))

include hknows

theorem trustEntry_meets (b : Batch) (id : NsAddr) (hb : b.Meets T) : (trustEntry env b id).Meets T := by
  have h₁ := hb.x.nbModify id hknows
  unfold trustEntry
  simp only
  split
  · exact hb
  rename_i nb hnb
  have hfair : ∀ k : Int, 0 ≤ k → T.Recommends ⟨b.nbs ++ [(id, nb.directTrust.getD 0)], k⟩ := by
    intro k hk
    refine ⟨fun r hr => ?_, hk⟩
    rcases List.mem_append.1 hr with hr | hr
    · exact hb.fair.nbs r hr
    · obtain rfl := List.mem_singleton.1 hr
      exact ⟨nb, h₁.nbs nb (List.mem_of_find?_eq_some hnb), rfl⟩
  have hnum : 0 ≤ (if 5 / 10 < nb.deliveryRatio.getD 0 then b.itNum + 1 else b.itNum) := by
    have := hb.fair.itNum
    split <;> simp only at this ⊢ <;> omega
  split
  · exact ⟨(h₁.sendRcom hT hb.heap (hfair _ hnum)).alloc, h₁.heap, fun _ hr => absurd hr List.not_mem_nil, le_refl _⟩
  · exact ⟨h₁, hb.heap, hfair _ hnum⟩

theorem setTrust_meets (hx : x.Meets T) : (x.setTrust env).Meets T := by
  have hwalk : ∀ (ids : List NsAddr) (b : Batch), b.Meets T → (ids.foldl (trustEntry env) b).Meets T := by
    intro ids
    induction ids with
    | nil => exact fun b hb => hb
    | cons id ids ih => exact fun b hb => ih _ (trustEntry_meets hT hknows b id hb)
  have hb := hwalk (x.nbhead.map (·.nbAddr)) ⟨x.alloc, x.blank, [], 0⟩
    ⟨hx.alloc, hx.heap, fun _ hr => absurd hr List.not_mem_nil, le_refl _⟩
  unfold setTrust
  simp only
  split
  · exact hb.x.sendRcom hT hb.heap hb.fair
  · exact hb.x

end Trust

omit hT in
theorem localRepair_meets (hx : x.Meets T) (p : Packet) : (x.localRepair env p).Meets T := by
  unfold localRepair
  split
  · exact hx.free p
  · refine Meets.free ?_ p
    split
    · exact hx.rtModify _ _
    · exact hx

theorem tap_meets (hx : x.Meets T) (p : Packet) : (x.tap p).Meets T := by
  unfold tap
  split
  · exact hx
  split
  · exact hx.nbNote hT _ (fun nb => .cbrF nb _)
  · split
    · exact hx.nbNote hT _ (fun nb => .ptteaomdvF nb _)
    · exact hx
  · exact hx

/-- What the terms have to say of an input. -/
def Takes (T : Terms) (env : Env) (x : Exec) : Input → Prop
  | .recv p => x.Admits T env p
  | .timer (.neighbor ifq) => ∀ id, ∀ p ∈ ifq id, T.Salvages p
  | .timer .broadcast => T.ids (x.idPurge env).bihead
  | .timer .trust => ∀ nb, T.knows nb → T.knows ((nb.setTV env.now).tvInit env.now)
  | _ => True

/-- **Every handler meets the terms.** -/
theorem handle_meets {inp : Input} (hin : x.Takes T env inp) : x.Abides T (x.handle env inp) := by
  intro hx
  cases inp with
  | recv p => exact recv_meets hT hin hx
  | tap p => exact Ends.ok (tap_meets hT hx p)
  | rtLlFailed p => exact Ends.ok (hx.drop p _)
  | timer t =>
    cases t with
    | broadcast => exact Ends.ok ⟨hx.index, hx.heap, hin, hx.queue, hx.sent, hx.nbs⟩
    | hello =>
      refine Ends.ok ?_
      split
      · exact hx.sendHello hT
      · exact hx
    | probe => exact Ends.ok (hx.sendProb hT)
    | trust => exact Ends.ok (setTrust_meets hT hin hx)
    | neighbor ifq => exact nbPurge_meets hT hin hx
    | routeCache => exact rtPurge_meets hT hx
    | localRepair p => exact Ends.ok (localRepair_meets hx p)

end Laws

end Exec

end TeAomdv

import TeAomdv.LinkFailure
/-!
# Distrust — a PTA passed on

A node that takes a PTA deletes the path, and only then writes what it tells the precursors: every precursor but the node
itself gets one PTA for the same destination with the entry's new number, but the last hop in it is read from the path
that was deleted, and is whatever that memory holds by then.
-/
namespace TeAomdv

open Fallible (Ends Outcome)

namespace Exec

variable {env : Env} {x y : Exec} {e : RtEntry} {p : Packet} {re : Pta}

/-- The PTA `re` about entry `e` is passed on: one PTA to every precursor of `e` but the node itself, for the destination of
`re`, with the number the entry has now and this last hop. -/
structure PassesOn (re : Pta) (e : RtEntry) (lasthop : NsAddr → NsAddr) (x y : Exec) : Prop where
  told : ∃ e', y.rtLookup re.unreachableDst = some e' ∧ e'.rtSeqno = max e.rtHighestSeqnoHeard re.unreachableDstSeqno ∧
    y.sent.map (fun q => (q.daddr, q.ptype, q.body)) = x.sent.map (fun q => (q.daddr, q.ptype, q.body)) ++
      (e.rtPclist.filter (fun pc => x.index ≠ pc)).map
        (fun pc => (pc, .teaomdv, .pta ⟨re.unreachableDst, lasthop pc, e'.rtSeqno⟩))
  once : (e.rtPclist.filter (fun pc => x.index ≠ pc)).Nodup

theorem sent_reports (dst : NsAddr) (seqno : Nat) (lasthop : NsAddr → NsAddr) : ∀ (pcs : List NsAddr) (x : Exec),
    (pcs.foldl (reportDistrust dst seqno lasthop) x).rtable = x.rtable ∧
    (pcs.foldl (reportDistrust dst seqno lasthop) x).sent.map (fun q => (q.daddr, q.ptype, q.body)) =
      x.sent.map (fun q => (q.daddr, q.ptype, q.body)) ++ pcs.map (fun pc => (pc, .teaomdv, .pta ⟨dst, lasthop pc, seqno⟩))
  | [], x => ⟨rfl, (List.append_nil _).symm⟩
  | pc :: pcs, x => by
    obtain ⟨htable, hsent⟩ := sent_reports dst seqno lasthop pcs (reportDistrust dst seqno lasthop x pc)
    have hone : (reportDistrust dst seqno lasthop x pc).sent = _ := sent_schedule x.alloc _ _
    refine ⟨htable, hsent.trans ?_⟩
    rw [hone, sent_alloc, List.map_append, List.append_assoc]
    rfl

/-- **What `recvPta` sends for a PTA it takes.** -/
theorem recvPta_passesOn (env : Env) (he : x.rtLookup re.unreachableDst = some e) (hrep : e.Rep x.teaomdvMaxPaths)
    (hacc : acceptsPta e p.saddr re = true) (heven : e.rtSeqno % 2 = 0) :
    ∃ y, x.recvPta env p re = .ok y ∧ x.PassesOn re e env.freedLasthop y := by
  have hd := rtDst_of_rtLookup he
  unfold recvPta downIfEmpty
  simp only [he]
  rw [if_pos hacc, if_neg (by omega), rtModify_eq_put he, pathEmpty_of_num (RtEntry.num_pathDelete hrep.num)]
  simp only [Fallible.ok_bind]
  generalize hn : max e.rtHighestSeqnoHeard re.unreachableDstSeqno = n
  have hd₁ : ((e.pathDelete p.saddr).setHighestSeqnoHeard n).rtDst = re.unreachableDst := (rtDst_pathDelete e p.saddr).trans hd
  obtain ⟨e₂, hd₂, hdown⟩ : ∃ e₂ : RtEntry, e₂.rtDst = re.unreachableDst ∧
      (if (e.pathDelete p.saddr).rtPathList.isEmpty then
        (x.put re.unreachableDst ((e.pathDelete p.saddr).setHighestSeqnoHeard n)).rtModify re.unreachableDst
          (fun rt => (id rt).rtDown env.inf)
      else x.put re.unreachableDst ((e.pathDelete p.saddr).setHighestSeqnoHeard n)) = x.put re.unreachableDst e₂ := by
    split
    · exact ⟨_, (RtEntry.rtDst_rtDown _ env.inf).trans hd₁, put_rtModify he hd₁ _⟩
    · exact ⟨_, hd₁, rfl⟩
  rw [hdown, put_rtModify he hd₂]
  obtain ⟨htable, hsent⟩ := sent_reports e.rtDst n env.freedLasthop (e.rtPclist.filter (fun pc => x.index ≠ pc))
    (x.put re.unreachableDst (e₂.setSeqno n))
  refine ⟨_, rfl, ⟨e₂.setSeqno n, ?_, hn.symm, ?_⟩, hrep.precursors.filter _⟩
  · exact (rtLookup_congr htable _).trans (rtLookup_put he hd₂)
  · rw [hd] at hsent
    rw [sent_free, hd]
    exact hsent

/-- The last hop passed on is the one of the PTA just when it is at every precursor. -/
theorem PassesOn.faithful_iff {lasthop lasthop' : NsAddr → NsAddr} (h : x.PassesOn re e lasthop y) :
    x.PassesOn re e lasthop' y ↔ ∀ pc ∈ e.rtPclist, pc ≠ x.index → lasthop pc = lasthop' pc := by
  obtain ⟨e', he', hn, hsent⟩ := h.told
  constructor
  · intro h' pc hpc hne
    obtain ⟨e'', he'', -, hsent'⟩ := h'.told
    obtain rfl := Option.some.inj (he'.symm.trans he'')
    have hmap := List.append_cancel_left (hsent.symm.trans hsent')
    have hbody := List.map_inj_left.1 hmap pc (List.mem_filter.2 ⟨hpc, decide_eq_true hne.symm⟩)
    exact congrArg Pta.unreachableLasthop (Body.pta.inj (Prod.mk.inj (Prod.mk.inj hbody).2).2)
  · intro hsame
    refine ⟨⟨e', he', hn, hsent.trans (congrArg (_ ++ ·) (List.map_congr_left (fun pc hpc => ?_)))⟩, h.once⟩
    obtain ⟨hpc, hne⟩ := List.mem_filter.1 hpc
    rw [hsame pc hpc (of_decide_eq_true hne).symm]

/-- **A PTA that is taken is passed on with its own last hop** just when the assert on the entry's number holds and the
memory of the deleted path still holds that last hop whenever it is read. -/
theorem recvPta_faithful_iff (env : Env) (he : x.rtLookup re.unreachableDst = some e) (hrep : e.Rep x.teaomdvMaxPaths)
    (hacc : acceptsPta e p.saddr re = true) :
    Outcome (x.PassesOn re e fun _ => re.unreachableLasthop) (fun _ => False) (x.recvPta env p re) ↔
      e.rtSeqno % 2 = 0 ∧ ∀ pc ∈ e.rtPclist, pc ≠ x.index → env.freedLasthop pc = re.unreachableLasthop := by
  by_cases heven : e.rtSeqno % 2 = 0
  · obtain ⟨y, hy, hpass⟩ := recvPta_passesOn env he hrep hacc heven
    rw [hy]
    exact hpass.faithful_iff.trans (and_iff_right heven).symm
  · have hfault : x.recvPta env p re = .error (.assertion .recvPtaEven) := by
      unfold recvPta
      simp only [he]
      rw [if_pos hacc, if_pos heven]
    rw [hfault]
    exact ⟨False.elim, fun h => heven h.1⟩

end Exec

namespace Agent

/-- **Distrust is passed on faithfully, whatever memory holds,** just when the assert holds and there is no precursor but the
node itself; what the memory of the deleted path holds decides the rest. -/
theorem distrust_relayed {id : NsAddr} {a : Agent} (h : Reach id a) (heap : Nat) {p : Packet} {re : Pta} {e : RtEntry}
    (he : (a.exec heap).rtLookup re.unreachableDst = some e) (hacc : Exec.acceptsPta e p.saddr re = true) :
    (∀ env : Env, Outcome ((a.exec heap).PassesOn re e fun _ => re.unreachableLasthop) (fun _ => False)
        ((a.exec heap).recvPta env p re) ↔
      e.rtSeqno % 2 = 0 ∧ ∀ pc ∈ e.rtPclist, pc ≠ a.index → env.freedLasthop pc = re.unreachableLasthop) ∧
    (∀ env : Env, (∀ freed, Outcome ((a.exec heap).PassesOn re e fun _ => re.unreachableLasthop) (fun _ => False)
        ((a.exec heap).recvPta { env with freedLasthop := freed } p re)) ↔
      e.rtSeqno % 2 = 0 ∧ ∀ pc ∈ e.rtPclist, pc = a.index) ∧
    ∀ env : Env, e.rtSeqno % 2 = 0 →
      ∃ y, (a.exec heap).recvPta env p re = .ok y ∧ (a.exec heap).PassesOn re e env.freedLasthop y := by
  have hrep := (tidy_of_reach h).rep.entries e (Exec.mem_of_rtLookup he)
  have hiff : ∀ env : Env, _ := fun env => Exec.recvPta_faithful_iff (x := a.exec heap) (p := p) env he hrep hacc
  refine ⟨hiff, fun env => ⟨fun hall => ?_, fun ⟨heven, hself⟩ freed => ?_⟩, fun env => Exec.recvPta_passesOn env he hrep hacc⟩
  · obtain ⟨heven, hfreed⟩ := (hiff _).1 (hall fun _ => re.unreachableLasthop + 1)
    refine ⟨heven, fun pc hpc => by_contra fun hne => ?_⟩
    have heq : re.unreachableLasthop + 1 = re.unreachableLasthop := hfreed pc hpc hne
    exact (lt_add_one (re.unreachableLasthop : Int)).ne' heq
  · exact (hiff _).2 ⟨heven, fun pc hpc hne => absurd (hself pc hpc) hne⟩

/-- A path to 9 by way of 2, and a packet of 3 sent along it. -/
def pathTold : List Call :=
  [requestHeard 2 9 1,
    ⟨{ inf := 65535, now := 1 }, 3, .recv { ptr := 2, ptype := .cbr, saddr := 3, daddr := 9, ttl := 10, prevHop := 3 }⟩]

/-- The PTA of 2 about that path. -/
def told : Pta := ⟨9, 2, 4⟩

def toldBy : Packet :=
  { ptr := 4, saddr := 2, daddr := 5, sport := rtPort, dport := rtPort, ttl := 1, prevHop := 2, body := .pta told }

theorem distrust_relayed_told : ∃ a e, Runs.replay call pathTold (new 5) = some a ∧ (a.exec 5).rtLookup 9 = some e ∧
    e.rtPclist = [3] ∧ (Outcome ((a.exec 5).PassesOn told e fun _ => 2) (fun _ => False)
      ((a.exec 5).recvPta { inf := 65535, now := 2, freedLasthop := fun _ => 2 } toldBy told)) := by
  obtain ⟨a, ha, hr, hfin⟩ := Runs.Reaches.of_obeys (fun _ _ => true)
    (fun a : Agent => ((a.exec 5).rtLookup 9).any (fun e => e.rtPclist = [3] ∧ e.rtSeqno % 2 = 0 ∧ Exec.acceptsPta e 2 told))
    (fun _ _ _ => trivial) pathTold (.init : Reach 5 (new 5)) (by decide +kernel)
  obtain ⟨e, he, hfin⟩ := (Option.any_eq_true _ _).1 hfin
  obtain ⟨hpc, heven, hacc⟩ := of_decide_eq_true hfin
  exact ⟨a, e, ha, he, hpc, ((@distrust_relayed 5 a hr 5 toldBy told e he hacc).1 _).2 ⟨heven, fun _ _ _ => rfl⟩⟩

/-- **The last hop told is not the one passed on**: node 5 deletes the path, then reads a zero where it was. -/
theorem distrust_misread : ∃ a e, Reach 5 a ∧ (a.exec 5).rtLookup 9 = some e ∧ Exec.acceptsPta e 2 told = true ∧
    ∃ y, (a.exec 5).recvPta { inf := 65535, now := 2, freedLasthop := fun _ => 0 } toldBy told = .ok y ∧
      (a.exec 5).PassesOn told e (fun _ => 0) y ∧ ¬ (a.exec 5).PassesOn told e (fun _ => 2) y := by
  obtain ⟨a, -, hr, hfin⟩ := Runs.Reaches.of_obeys (fun _ _ => true)
    (fun a : Agent => ((a.exec 5).rtLookup 9).any (fun e => e.rtPclist = [3] ∧ e.rtSeqno % 2 = 0 ∧ Exec.acceptsPta e 2 told ∧
      3 ≠ a.index))
    (fun _ _ _ => trivial) pathTold (.init : Reach 5 (new 5)) (by decide +kernel)
  obtain ⟨e, he, hfin⟩ := (Option.any_eq_true _ _).1 hfin
  obtain ⟨hpc, heven, hacc, hindex⟩ := of_decide_eq_true hfin
  have hrep := (tidy_of_reach hr).rep.entries e (Exec.mem_of_rtLookup he)
  obtain ⟨y, hy, hpass⟩ : ∃ y, (a.exec 5).recvPta { inf := 65535, now := 2, freedLasthop := fun _ => 0 } toldBy told = .ok y ∧
      (a.exec 5).PassesOn told e (fun _ => 0) y := Exec.recvPta_passesOn _ he hrep hacc heven
  refine ⟨a, e, hr, he, hacc, y, hy, hpass, fun hfaithful => ?_⟩
  have hread := hpass.faithful_iff.1 hfaithful 3 (hpc ▸ List.mem_singleton_self 3) hindex
  exact absurd hread (by decide)

end Agent

end TeAomdv

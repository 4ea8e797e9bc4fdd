import Mathlib.Algebra.BigOperators.Group.Finset.Basic
import TeAomdv.World
/-!
# Cascade — reports of broken routes come to an end

A RERR goes out for an entry that went down with its last path, PTAs go out to the precursors of an entry that lost one,
and neither handler gives an entry a path or raises it.  Each path can be paid for once, by one packet for every precursor
of its entry and one more: the stock of the nodes bounds what any sequence of receptions sends (`cascade_of_reaches`).
-/
namespace TeAomdv

open Fallible (Ends bind_eq_ok)

namespace RtEntry

/-- What is left of an entry: some of its paths, and it may have gone down. -/
structure Wanes (e e' : RtEntry) : Prop where
  dst : e'.rtDst = e.rtDst
  pclist : e'.rtPclist = e.rtPclist
  paths : e'.rtPathList.Sublist e.rtPathList
  flags : e'.rtFlags = e.rtFlags ∨ e.rtFlags = .up ∧ e'.rtFlags = .down

/-- What an entry can still be reported with: every path to every precursor, and once more. -/
def stock (e : RtEntry) : Nat := e.rtPathList.length * (1 + e.rtPclist.length)

variable {e e' e'' : RtEntry}

namespace Wanes

theorem refl (e : RtEntry) : e.Wanes e := ⟨rfl, rfl, List.Sublist.refl _, .inl rfl⟩

theorem trans (h : e.Wanes e') (h' : e'.Wanes e'') : e.Wanes e'' where
  dst := h'.dst.trans h.dst
  pclist := h'.pclist.trans h.pclist
  paths := h'.paths.trans h.paths
  flags := by
    rcases h'.flags with h1 | ⟨h1, h2⟩
    · rw [h1]
      exact h.flags
    · rcases h.flags with h3 | ⟨-, h3⟩
      · exact .inr ⟨h3.symm.trans h1, h2⟩
      · rw [h3] at h1
        cases h1

theorem pathDelete (e : RtEntry) (id : NsAddr) : e.Wanes (e.pathDelete id) := by
  unfold RtEntry.pathDelete
  split
  · exact ⟨rfl, rfl, List.eraseP_sublist, .inl rfl⟩
  · exact refl e

theorem setSeqno (h : e.Wanes e') (n : Nat) : e.Wanes (e'.setSeqno n) := ⟨h.dst, h.pclist, h.paths, h.flags⟩

theorem setHighestSeqnoHeard (h : e.Wanes e') (n : Nat) : e.Wanes (e'.setHighestSeqnoHeard n) :=
  ⟨h.dst, h.pclist, h.paths, h.flags⟩

theorem setError (h : e.Wanes e') (b : Bool) : e.Wanes (e'.setError b) := ⟨h.dst, h.pclist, h.paths, h.flags⟩

theorem rtDown (h : e.Wanes e') (hup : e'.rtFlags = .up) (inf : Nat) :
    e.Wanes (e'.rtDown inf) ∧ (e'.rtDown inf).rtFlags = .down := by
  have hdown : e'.Wanes (e'.rtDown inf) ∧ (e'.rtDown inf).rtFlags = .down := by
    unfold RtEntry.rtDown
    rw [if_neg (by simp [hup])]
    exact ⟨⟨rfl, rfl, List.nil_sublist _, .inr ⟨hup, rfl⟩⟩, rfl⟩
  exact ⟨h.trans hdown.1, hdown.2⟩

/-- A path lost pays for a packet to every precursor and one more. -/
theorem stock (h : e.Wanes e') (hlt : e'.rtPathList.length < e.rtPathList.length) :
    e'.stock + (1 + e.rtPclist.length) ≤ e.stock := by
  unfold RtEntry.stock
  rw [h.pclist, ← Nat.succ_mul]
  exact Nat.mul_le_mul_right _ hlt

end Wanes

theorem length_pathDelete {id : NsAddr} (h : (e.pathLookup id).isSome) :
    (e.pathDelete id).rtPathList.length < e.rtPathList.length := by
  have hany : e.rtPathList.any (fun p => p.nexthop = id) = true := by
    unfold pathLookup at h
    rw [List.find?_isSome] at h
    exact List.any_eq_true.2 h
  have := Keyed.length_eraseP_add_one hany
  unfold pathDelete
  rw [if_pos h]
  simp only
  omega

theorem sublist_rtDown (e : RtEntry) (inf : Nat) : (e.rtDown inf).rtPathList.Sublist e.rtPathList := by
  unfold rtDown
  split
  · exact List.Sublist.refl _
  · exact List.nil_sublist _

end RtEntry

/-- The stock of a node. -/
def Agent.stock (a : Agent) : Nat := (a.rtable.map RtEntry.stock).sum

namespace Exec

variable {env : Env} {x y : Exec} {d : NsAddr} {e e' : RtEntry} {p : Packet}

/-- An entry went down. -/
def Fell (x y : Exec) : Prop :=
  ∃ d e e', x.rtLookup d = some e ∧ e.rtFlags = .up ∧ y.rtLookup d = some e' ∧ e'.rtFlags = .down

/-- An entry lost a path. -/
def Lost (x y : Exec) : Prop :=
  ∃ d e e', x.rtLookup d = some e ∧ y.rtLookup d = some e' ∧ e'.rtPathList.length < e.rtPathList.length

/-- What has become of the table since `x`, with `n` packets to pay for. -/
structure Ebbs (x y : Exec) (n : Nat) : Prop where
  index : y.index = x.index
  sent : y.sent = x.sent
  wanes : List.Forall₂ RtEntry.Wanes x.rtable y.rtable
  stock : y.stock + n ≤ x.stock

theorem Ebbs.refl (x : Exec) : x.Ebbs x 0 := ⟨rfl, rfl, List.forall₂_same.2 (fun e _ => .refl e), Nat.le_refl _⟩

/-- The entry found was found before, with at least its paths. -/
theorem Ebbs.rtLookup {n : Nat} (h : x.Ebbs y n) (he : y.rtLookup d = some e') : ∃ e, x.rtLookup d = some e ∧ e.Wanes e' :=
  Keyed.find?_forall₂ (fun a b hab => by rw [hab.dst]) h.wanes he

/-- A path taken off an entry pays for a packet to every precursor and one more. -/
theorem Ebbs.put {n : Nat} (h : x.Ebbs y n) (he : y.rtLookup d = some e) (hw : e.Wanes e')
    (hlt : e'.rtPathList.length < e.rtPathList.length) : x.Ebbs (y.put d e') (n + (1 + e.rtPclist.length)) where
  index := h.index
  sent := h.sent
  wanes := by
    refine Keyed.forall₂_trans (fun _ _ _ => .trans) h.wanes (Keyed.forall₂_modifyFirst .refl (fun a ha => ?_))
    obtain rfl := Option.some.inj (he.symm.trans ha)
    exact hw
  stock := by
    have h1 := h.stock
    have h2 := hw.stock hlt
    have h3 : (y.put d e').stock + e.stock = y.stock + e'.stock :=
      Keyed.sum_map_modifyFirst (f := fun _ => e') RtEntry.stock he
    omega

/-- One slot of a RERR: nothing, or a path taken off a live entry, which is reported only if it goes down. -/
theorem errorSlot_wanes {saddr : NsAddr} (a : Exec × List (NsAddr × Nat)) (slot : NsAddr × Nat) :
    Ends (fun a' => a' = a ∨ ∃ e e', a.1.rtLookup slot.1 = some e ∧ e.rtFlags = .up ∧ a'.1 = a.1.put slot.1 e' ∧
      e.Wanes e' ∧ e'.rtPathList.length < e.rtPathList.length ∧
      (a'.2 = a.2 ∨ a'.2.length = a.2.length + 1 ∧ e'.rtFlags = .down)) (errorSlot env saddr a slot) := by
  intro a' hok
  unfold errorSlot at hok
  simp only at hok
  cases he : a.1.rtLookup slot.1 with
  | none =>
    rw [he] at hok
    exact .inl (Except.ok.inj hok).symm
  | some e =>
    simp only [he] at hok
    split at hok
    swap
    · exact .inl (Except.ok.inj hok).symm
    rename_i hcond
    obtain ⟨hup, hpath, -⟩ := hcond
    split at hok
    · cases hok
    obtain ⟨⟨y, b⟩, hy, hok⟩ := bind_eq_ok hok
    obtain ⟨-, rfl⟩ := downIfEmpty_ok hy
    generalize max e.rtHighestSeqnoHeard slot.2 = n at hok
    have hd := rtDst_of_rtLookup he
    have hw := (RtEntry.Wanes.pathDelete e saddr).setHighestSeqnoHeard n
    have hlt := RtEntry.length_pathDelete hpath
    rw [rtModify_eq_put he] at hok
    refine .inr ⟨e, ?_⟩
    cases b with
    | false =>
      simp only [Bool.false_eq_true, false_and, if_false] at hok
      obtain rfl := Except.ok.inj hok
      exact ⟨_, rfl, hup, rfl, hw, hlt, .inl rfl⟩
    | true =>
      obtain ⟨hw₁, hdown⟩ := (hw.setSeqno n).rtDown ((rtFlags_pathDelete e saddr).trans hup) env.inf
      have hlt₁ : ((((e.pathDelete saddr).setHighestSeqnoHeard n).setSeqno n).rtDown env.inf).rtPathList.length <
          e.rtPathList.length := (RtEntry.sublist_rtDown _ env.inf).length_le.trans_lt hlt
      simp only [if_true, put_rtModify he (hw.dst.trans hd), true_and] at hok
      split at hok
      · obtain rfl := Except.ok.inj hok
        refine ⟨_, rfl, hup, put_rtModify he (hw₁.dst.trans hd) _, hw₁.setError false, hlt₁, .inr ⟨?_, hdown⟩⟩
        exact List.length_append
      · obtain rfl := Except.ok.inj hok
        exact ⟨_, rfl, hup, rfl, hw₁, hlt₁, .inl rfl⟩

/-- **The loop of `recvError`**: every slot written was paid for, by an entry that went down. -/
theorem errorSlots_ebbs {saddr : NsAddr} (slots : List (NsAddr × Nat)) :
    Ends (fun a => x.Ebbs a.1 a.2.length ∧ (a.2 ≠ [] → x.Fell a.1))
      (slots.foldlM (errorSlot env saddr) (x.alloc, [])) := by
  refine Ends.foldlM (fun a slot _ ha a' ha' => ?_) ⟨⟨rfl, sent_alloc x, (Ebbs.refl x).wanes, Nat.le_refl _⟩, nofun⟩
  obtain ⟨hebb, hfell⟩ := ha
  rcases errorSlot_wanes a slot a' ha' with rfl | ⟨e, e', he, hup, hx, hw, hlt, hslots⟩
  · exact ⟨hebb, hfell⟩
  have hput := hebb.put he hw hlt
  rw [← hx] at hput
  have hd' : e'.rtDst = slot.1 := hw.dst.trans (rtDst_of_rtLookup he)
  have hfell' : a.2 ≠ [] → x.Fell a'.1 := by
    intro hne
    obtain ⟨d, e₁, e₂, he₁, hup₁, he₂, hdown⟩ := hfell hne
    refine ⟨d, e₁, e₂, he₁, hup₁, ?_, hdown⟩
    have hne : d ≠ slot.1 := by
      rintro rfl
      obtain rfl := Option.some.inj (he.symm.trans he₂)
      rw [hup] at hdown
      cases hdown
    rw [hx, rtLookup_put_ne hd' hne]
    exact he₂
  rcases hslots with hslots | ⟨hslots, hdown⟩
  · rw [hslots]
    exact ⟨⟨hput.index, hput.sent, hput.wanes, by have := hput.stock; omega⟩, hfell'⟩
  · rw [hslots]
    refine ⟨⟨hput.index, hput.sent, hput.wanes, by have := hput.stock; omega⟩, fun _ => ?_⟩
    obtain ⟨e₀, he₀, hw₀⟩ := hebb.rtLookup he
    have hup₀ : e₀.rtFlags = .up := by
      rcases hw₀.flags with h | ⟨h, -⟩
      · exact h.symm.trans hup
      · exact h
    exact ⟨slot.1, e₀, e', he₀, hup₀, by rw [hx]; exact rtLookup_put he hd', hdown⟩

/-- What one of the two handlers does: what it sends is paid for, by an entry that went down or by a path lost. -/
structure Reports (x y : Exec) : Prop where
  index : y.index = x.index
  wanes : List.Forall₂ RtEntry.Wanes x.rtable y.rtable
  sent : ∃ l, y.sent = x.sent ++ l ∧ y.stock + l.length ≤ x.stock ∧
    ∀ q ∈ l, ((∃ re, q.body = .rerr re) ∧ x.Fell y) ∨ ((∃ re, q.body = .pta re) ∧ x.Lost y)

theorem Ebbs.reports {n : Nat} (h : x.Ebbs y n) : x.Reports y :=
  ⟨h.index, h.wanes, [], by rw [h.sent, List.append_nil], by have := h.stock; simp; omega,
    fun _ hq => absurd hq List.not_mem_nil⟩

theorem Reports.free (h : x.Reports y) (p : Packet) : x.Reports (y.free p) := by
  obtain ⟨l, hl, hrest⟩ := h.sent
  exact ⟨h.index, h.wanes, l, (sent_free y p).trans hl, hrest⟩

/-- **`recvError`.** -/
theorem recvError_reports (p : Packet) (re : Rerr) : Ends (Reports x) (x.recvError env p re) := by
  unfold recvError
  simp only
  split
  · exact Ends.error _
  refine Ends.bind (errorSlots_ebbs re.unreachable) (fun a ha => Ends.ok (Reports.free ?_ p))
  obtain ⟨hebb, hfell⟩ := ha
  obtain ⟨y, nre⟩ := a
  simp only at hebb hfell ⊢
  split
  · rename_i hpos
    have hsent : (y.sendError x.blank ⟨nre⟩ true).sent = _ := sent_schedule y _ _
    rw [hebb.sent] at hsent
    refine ⟨hebb.index, hebb.wanes, _, hsent, ?_, fun q hq => ?_⟩
    · have := hebb.stock
      show y.stock + 1 ≤ x.stock
      omega
    · obtain rfl := List.mem_singleton.1 hq
      exact .inl ⟨⟨_, rfl⟩, hfell (List.ne_nil_of_length_pos hpos)⟩
  · exact hebb.reports.free _

/-- The PTAs of a handler, one for each precursor. -/
theorem reports_sent (dst : NsAddr) (seqno : Nat) (lasthop : NsAddr → NsAddr) : ∀ (pcs : List NsAddr) (x : Exec),
    ∃ l, (pcs.foldl (reportDistrust dst seqno lasthop) x).sent = x.sent ++ l ∧ l.length = pcs.length ∧
      (∀ q ∈ l, ∃ re, q.body = .pta re) ∧ (pcs.foldl (reportDistrust dst seqno lasthop) x).rtable = x.rtable ∧
      (pcs.foldl (reportDistrust dst seqno lasthop) x).index = x.index
  | [], x => ⟨[], (List.append_nil _).symm, rfl, fun _ hq => absurd hq List.not_mem_nil, rfl, rfl⟩
  | pc :: pcs, x => by
    obtain ⟨l, hl, hlen, hpta, htable, hindex⟩ := reports_sent dst seqno lasthop pcs (reportDistrust dst seqno lasthop x pc)
    have hone : (reportDistrust dst seqno lasthop x pc).sent = _ := sent_schedule x.alloc _ _
    rw [hone, sent_alloc, List.append_assoc] at hl
    refine ⟨_, hl, by simp [hlen], fun q hq => ?_, htable, hindex⟩
    rcases List.mem_append.1 hq with hq | hq
    · obtain rfl := List.mem_singleton.1 hq
      exact ⟨_, rfl⟩
    · exact hpta q hq

/-- **`recvPta`.** -/
theorem recvPta_reports (p : Packet) (re : Pta) : Ends (Reports x) (x.recvPta env p re) := by
  have hx := (Ebbs.refl x).reports
  unfold recvPta
  cases he : x.rtLookup re.unreachableDst with
  | none => exact Ends.ok (hx.free p)
  | some e =>
    simp only
    split
    swap
    · exact Ends.ok (hx.free p)
    rename_i hacc
    obtain ⟨hup, -, hpath⟩ : e.rtFlags = .up ∧ e.rtSeqno ≤ re.unreachableDstSeqno ∧
        (e.pathLookup p.saddr).any (fun path => path.lasthop = re.unreachableLasthop) = true := of_decide_eq_true hacc
    have hsome : (e.pathLookup p.saddr).isSome := by
      cases hl : e.pathLookup p.saddr with
      | none => simp [hl] at hpath
      | some f => rfl
    split
    · exact Ends.error _
    generalize max e.rtHighestSeqnoHeard re.unreachableDstSeqno = n
    have hd := rtDst_of_rtLookup he
    have hw := (RtEntry.Wanes.pathDelete e p.saddr).setHighestSeqnoHeard n
    have hlt := RtEntry.length_pathDelete hsome
    rw [rtModify_eq_put he]
    refine Ends.bind (P := fun a => ∃ e', a.1 = x.put re.unreachableDst e' ∧ e.Wanes e' ∧
      e'.rtPathList.length < e.rtPathList.length) ?_ (fun a ha => Ends.ok (Reports.free ?_ p))
    · intro a ha
      obtain ⟨-, hy⟩ := downIfEmpty_ok ha
      rw [hy]
      cases a.2 with
      | false => exact ⟨_, rfl, hw, hlt⟩
      | true =>
        have hw₁ := (hw.rtDown ((rtFlags_pathDelete e p.saddr).trans hup) env.inf).1
        refine ⟨_, put_rtModify he (hw.dst.trans hd) _, hw₁, ?_⟩
        exact (RtEntry.sublist_rtDown _ env.inf).length_le.trans_lt hlt
    · obtain ⟨e', hz, hw', hlt'⟩ := ha
      rw [hz, put_rtModify he (hw'.dst.trans hd)]
      have hebb := (Ebbs.refl x).put he (hw'.setSeqno n) hlt'
      have hfind := rtLookup_put he ((hw'.setSeqno n).dst.trans hd)
      generalize x.put re.unreachableDst (e'.setSeqno n) = z at hebb hfind
      obtain ⟨l, hl, hlen, hpta, htable, hindex⟩ :=
        reports_sent e.rtDst n env.freedLasthop (e.rtPclist.filter (fun pc => z.index ≠ pc)) z
      have hle := List.length_filter_le (fun pc => z.index ≠ pc) e.rtPclist
      refine ⟨hindex.trans hebb.index, by rw [htable]; exact hebb.wanes, l, by rw [hl, hebb.sent], ?_, fun q hq => ?_⟩
      · have := hebb.stock
        unfold Agent.stock at this ⊢
        rw [htable]
        omega
      · exact .inr ⟨hpta q hq, re.unreachableDst, e, e'.setSeqno n, he, (rtLookup_congr htable _).trans hfind, hlt'⟩

/-- A RERR or a PTA received. -/
theorem recv_reports {p : Packet} (ht : p.ptype = .teaomdv) (hb : (∃ re, p.body = .rerr re) ∨ ∃ re, p.body = .pta re) :
    Ends (Reports x) (x.recv env p) := by
  unfold recv recvTEAOMDV
  rw [if_pos ht]
  split
  · exact Ends.error _
  rcases hb with ⟨re, hb⟩ | ⟨re, hb⟩
  · simp only [hb]
    exact recvError_reports _ re
  · simp only [hb]
    exact recvPta_reports _ re

end Exec

namespace Net

variable {inf : Nat} {net net' : Net} {ev : Event}

/-- The event hands a RERR or a PTA to its handler. -/
def cascades (net : Net) (ev : Event) : Bool :=
  (net.packet ev).any (fun p => match p.body with | .rerr _ | .pta _ => true | _ => false)

/-- What the handler of an event hands to `target_`. -/
def outbox (inf : Nat) (net : Net) (ev : Event) : List Packet :=
  match net.exec inf ev with
  | some (.ok x) => x.sent
  | _ => []

/-- The run with all that was sent in it. -/
def stepSent (inf : Nat) : Net × List Packet → Event → Option (Net × List Packet) :=
  Runs.watch (step inf) (fun net ev _ out => out ++ outbox inf net ev)

theorem reports_of_cascades (hc : net.cascades ev = true) (hs : step inf net ev = some net') :
    ∃ x, (net.start ev.node).Reports x ∧ net.outbox inf ev = x.sent ∧ net' = net.commit ev.now ev.node x := by
  obtain ⟨p, hp, hbody⟩ := (Option.any_eq_true _ _).1 hc
  obtain ⟨inp, x, hinp, hx, rfl⟩ := step_eq_some hs
  obtain ⟨hrecv, ht⟩ := packet_eq_some hp
  obtain rfl := Option.some.inj (hinp.symm.trans hrecv)
  have hb : (∃ re, p.body = .rerr re) ∨ ∃ re, p.body = .pta re := by
    split at hbody
    · exact .inl ⟨_, ‹_›⟩
    · exact .inr ⟨_, ‹_›⟩
    · cases hbody
  refine ⟨x, Exec.recv_reports ht hb x hx, ?_, rfl⟩
  unfold outbox exec
  rw [hinp, Option.map_some, hx]

/-- The stocks of the nodes, of which one changed. -/
theorem sum_stock_commit (net : Net) {nodes : Finset NsAddr} {i : NsAddr} (hi : i ∈ nodes) (t : ℚ) (x : Exec) :
    (∑ j ∈ nodes, ((net.commit t i x).node j).stock) + (net.node i).stock = (∑ j ∈ nodes, (net.node j).stock) + x.stock := by
  have hrest : ∑ j ∈ nodes.erase i, ((net.commit t i x).node j).stock = ∑ j ∈ nodes.erase i, (net.node j).stock := by
    refine Finset.sum_congr rfl (fun j hj => ?_)
    show (if j = i then x.toAgent else net.node j).stock = _
    rw [if_neg (Finset.ne_of_mem_erase hj)]
  have hself : ((net.commit t i x).node i).stock = x.stock := by
    show (if i = i then x.toAgent else net.node i).stock = _
    rw [if_pos rfl]
  rw [← Finset.add_sum_erase nodes _ hi, ← Finset.add_sum_erase nodes (fun j => (net.node j).stock) hi, hrest, hself]
  omega

/-- What one event sends is paid for out of the stocks. -/
theorem spends_of_cascades {nodes : Finset NsAddr} (hc : net.cascades ev = true) (hn : ev.node ∈ nodes)
    (hs : step inf net ev = some net') :
    (net.outbox inf ev).length + ∑ i ∈ nodes, (net'.node i).stock ≤ ∑ i ∈ nodes, (net.node i).stock := by
  obtain ⟨x, hx, hout, rfl⟩ := reports_of_cascades hc hs
  obtain ⟨l, hl, hstock, -⟩ := hx.sent
  rw [hout, hl]
  have hsum := sum_stock_commit net hn ev.now x
  have hstart : (net.start ev.node).sent = [] := rfl
  have hstock : x.stock + l.length ≤ (net.node ev.node).stock := hstock
  rw [hstart, List.nil_append]
  omega

theorem wanes_of_cascades (hc : net.cascades ev = true) (hs : step inf net ev = some net') (i : NsAddr) :
    List.Forall₂ RtEntry.Wanes (net.node i).rtable (net'.node i).rtable := by
  obtain ⟨x, hx, -, rfl⟩ := reports_of_cascades hc hs
  show List.Forall₂ _ _ (if i = ev.node then x.toAgent else net.node i).rtable
  split
  · rename_i hi
    subst hi
    exact hx.wanes
  · exact List.forall₂_same.2 (fun e _ => .refl e)

/-- **Error cascades end.**  Whatever RERRs and PTAs are in the air of a network of these nodes, and whoever receives them,
in whatever order and however often, what the nodes send in return is bounded by the paths and precursors they store.  A
RERR is sent for an entry that went down, a PTA for one that lost a path, and no entry gets a path or comes up. -/
theorem cascade_of_reaches (inf : Nat) (net : Net) (nodes : Finset NsAddr) :
    (∀ net' out, Runs.Reaches (stepSent inf) (fun t ev => t.1.cascades ev = true ∧ ev.node ∈ nodes) (net, []) (net', out) →
      out.length ≤ ∑ i ∈ nodes, (net.node i).stock) ∧
    ∀ ev net', net.cascades ev = true → step inf net ev = some net' →
      (∀ i, List.Forall₂ RtEntry.Wanes (net.node i).rtable (net'.node i).rtable) ∧
      ∀ q ∈ net.outbox inf ev,
        ((∃ re, q.body = .rerr re) ∧ ∃ d e e', net.entry ev.node d = some e ∧ e.rtFlags = .up ∧
          net'.entry ev.node d = some e' ∧ e'.rtFlags = .down) ∨
        ((∃ re, q.body = .pta re) ∧ ∃ d e e', net.entry ev.node d = some e ∧ net'.entry ev.node d = some e' ∧
          e'.rtPathList.length < e.rtPathList.length) := by
  refine ⟨fun net' out hrun => ?_, fun ev net' hc hs => ⟨wanes_of_cascades hc hs, fun q hq => ?_⟩⟩
  · have hle := Runs.Reaches.spend (p := fun _ => true)
      (fun (net : Net) (ev : Event) => net.cascades ev = true ∧ ev.node ∈ nodes)
      (fun net => ∑ i ∈ nodes, (net.node i).stock) (fun net₁ ev net₂ _ hg hs => ?_) hrun
    · rw [List.countP_true] at hle
      omega
    · rw [List.countP_true]
      exact spends_of_cascades hg.1 hg.2 hs
  · obtain ⟨x, hx, hout, rfl⟩ := reports_of_cascades hc hs
    obtain ⟨l, hl, -, hpaid⟩ := hx.sent
    rw [hout, hl] at hq
    simp only [entry_commit_self]
    exact hpaid q hq

/-- Nodes 2 and 1 reach 9 by way of 3, and node 4 does too and by way of 5; node 3 reports that it does not. -/
def cascadeNet : Net :=
  let path (n l : NsAddr) : Path := ⟨n, 2, 100, l, 1, 1, ⟨4, true⟩⟩
  let entry (paths : List Path) (pcs : List NsAddr) : RtEntry :=
    { rtDst := 9, rtFlags := .up, rtSeqno := 4, rtPathList := paths, rtNumPaths := paths.length, rtPclist := pcs
      rtError := true, rtHops := 0 }
  let report (daddr : NsAddr) (body : Body) : NsAddr × Packet :=
    (3, { ptr := 0, saddr := 3, daddr := daddr, sport := rtPort, dport := rtPort, ttl := 1, body := body })
  { now := 0
    heap := 0
    node := fun i => { Agent.new i with
      rtable := if i = 1 then [entry [path 2 2] []] else if i = 2 then [entry [path 3 3] [1]]
        else if i = 4 then [entry [path 3 3, path 5 5] [1, 2]] else [] }
    air := [report ipBroadcast (.rerr ⟨[(9, 5)]⟩), report 4 (.pta ⟨9, 3, 6⟩)] }

/-- Node 2 passes the report on, which node 1 hears twice. -/
def cascadeEvents : List Event :=
  [⟨1, 2, .deliver 0, 0, fun _ => 0, fun _ => 0⟩, ⟨2, 1, .deliver 2, 0, fun _ => 0, fun _ => 0⟩,
    ⟨3, 4, .deliver 1, 0, fun _ => 0, fun _ => 0⟩, ⟨4, 1, .deliver 2, 0, fun _ => 0, fun _ => 0⟩]

theorem cascade_cascadeEvents : ∃ net' out, Runs.replay (stepSent 65535) cascadeEvents (cascadeNet, []) = some (net', out) ∧
    out.length = 4 ∧ out.length ≤ ∑ i ∈ {1, 2, 4}, (cascadeNet.node i).stock := by
  obtain ⟨⟨net', out⟩, hrun, hr, hlen⟩ := Runs.Reaches.of_obeys
    (fun t ev => t.1.cascades ev && decide (ev.node ∈ ({1, 2, 4} : Finset NsAddr)))
    (fun t : Net × List Packet => t.2.length == 4)
    (fun t ev h => ⟨(Bool.and_eq_true_iff.1 h).1, of_decide_eq_true (Bool.and_eq_true_iff.1 h).2⟩) cascadeEvents
    (.init : Runs.Reaches (stepSent 65535) (fun t ev => t.1.cascades ev = true ∧ ev.node ∈ ({1, 2, 4} : Finset NsAddr))
      (cascadeNet, []) _) (by decide +kernel)
  exact ⟨net', out, hrun, eq_of_beq hlen, (cascade_of_reaches 65535 cascadeNet {1, 2, 4}).1 net' out hr⟩

end Net

end TeAomdv

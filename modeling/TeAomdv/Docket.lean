import TeAomdv.Timers
import TeAomdv.Lib.Compact
/-!
# Docket — every packet handed to a neighbour is judged once

The two record arrays of a neighbour, with the counters they are judged into, refine one abstract machine for each class
of packets: a docket of pending tickets in the order they came in, and the verdicts given on the others.  The compaction
of `set_direct_trust` keeps exactly the tickets it does not judge (`judge_eq`); a ticket is pending or has one verdict,
never both and never two (`Docket.Sound`).
-/
namespace TeAomdv

/-- The two classes of packets a neighbour is judged by. -/
inductive PacketClass
  | data
  | control
  deriving DecidableEq

/-- What is done to a neighbour entry: a packet is handed to it (`last`: it is the packet's destination), a packet it
passes on is overheard, a trust round is held, or a field that no record or counter depends on is written. -/
inductive Observation
  | handed (c : PacketClass) (uid : Nat) (last : Bool)
  | overheard (c : PacketClass) (uid : Nat)
  | round
  | other (nbExpire fenzi fenmu probRecvs trustedNbs interactNbs : ℚ)

namespace Neighbor

/-- The entry after an observation at time `now`. -/
def observe (nb : Neighbor) (now : ℚ) : Observation → Neighbor
  | .handed .data uid last => if last then nb.addDataForward else nb.recordCbr uid now
  | .handed .control uid last => if last then nb.addControlForward else nb.recordPtteaomdv uid now
  | .overheard .data uid => { nb with cbrF := confirm nb.cbrF nb.cbrNum uid }
  | .overheard .control uid => { nb with ptteaomdvF := confirm nb.ptteaomdvF nb.ptteaomdvNum uid }
  | .round => (nb.setTV now).tvInit now
  | .other e z u r t i =>
    { nb with nbExpire := e, fenzi := z, fenmu := u, probRecvs := r, trustedNbs := t, interactNbs := i }

/-- The records of a class that are pending, and the counters they are judged into. -/
structure Tally where
  pending : List Node1
  corrects : Nat
  alls : Nat

def tally (nb : Neighbor) : PacketClass → Tally
  | .data => ⟨nb.cbrF.take nb.cbrNum, nb.dataForwardCorrects, nb.dataForwardAlls⟩
  | .control => ⟨nb.ptteaomdvF.take nb.ptteaomdvNum, nb.controlForwardCorrects, nb.controlForwardAlls⟩

/-- The fill counters stay within what was written. -/
structure Filled (nb : Neighbor) : Prop where
  cbr : nb.cbrNum ≤ nb.cbrF.length
  ptteaomdv : nb.ptteaomdvNum ≤ nb.ptteaomdvF.length

end Neighbor

/-- The size of the array of a class. -/
def PacketClass.room : PacketClass → Nat
  | .data => cbrMax
  | .control => ptteaomdvMax

/-- Neither confirmed nor more than 1.5 s old. -/
def Node1.stays (now : ℚ) (r : Node1) : Bool := ¬ r.ok ∧ ¬ r.time + 15 / 10 < now

/-! ## One round over an array -/

section Judge

variable {now : ℚ} {cells : List Node1} {corrects alls i : Nat} {s : Judged}

/-- The loop of `set_direct_trust` after `i` rounds. -/
structure JudgedTo (now : ℚ) (cells : List Node1) (corrects alls i : Nat) (s : Judged) : Prop where
  packed : Compact.Packed (Node1.stays now) cells i (s.cells, s.tot)
  corrects : s.corrects = corrects + (cells.take i).countP (·.ok)
  alls : s.alls = alls + (cells.take i).countP (fun r => !r.stays now)

theorem JudgedTo.step (h : JudgedTo now cells corrects alls i s) (hi : i < cells.length) :
    JudgedTo now cells corrects alls (i + 1) (judgeStep now s i) := by
  obtain ⟨r, hr⟩ : ∃ r, cells[i]? = some r := ⟨_, List.getElem?_eq_getElem hi⟩
  have hread : s.cells[i]? = some r := h.packed.read.trans hr
  have hcorrects : corrects + (cells.take (i + 1)).countP (·.ok) = s.corrects + if r.ok then 1 else 0 := by
    rw [Compact.Packed.take_succ hr, List.countP_append, List.countP_singleton, ← Nat.add_assoc, ← h.corrects]
  have halls : alls + (cells.take (i + 1)).countP (fun r => !r.stays now) = s.alls + if !r.stays now then 1 else 0 := by
    rw [Compact.Packed.take_succ hr, List.countP_append, List.countP_singleton, ← Nat.add_assoc, ← h.alls]
  unfold judgeStep
  rw [hread]
  simp only
  by_cases hok : r.ok = true
  · have hs : r.stays now = false := decide_eq_false (fun hc => hc.1 hok)
    rw [if_pos hok]
    rw [if_pos hok] at hcorrects
    rw [hs] at halls
    exact ⟨h.packed.pass hr hs, hcorrects.symm, halls.symm⟩
  · rw [if_neg hok]
    rw [if_neg hok] at hcorrects
    by_cases hold : r.time + 15 / 10 < now
    · have hs : r.stays now = false := decide_eq_false (fun hc => hc.2 hold)
      rw [if_pos hold]
      rw [hs] at halls
      exact ⟨h.packed.pass hr hs, hcorrects.symm, halls.symm⟩
    · have hs : r.stays now = true := decide_eq_true ⟨hok, hold⟩
      have hsame : ({ uid := r.uid, time := r.time, ok := false } : Node1) = r := by
        rw [← Bool.eq_false_iff.2 hok]
      rw [if_neg hold, hsame]
      rw [hs] at halls
      exact ⟨h.packed.move hr hs, hcorrects.symm, halls.symm⟩

/-- **One pass of `set_direct_trust` over an array**: the records that stay are the first ones left, in order, and each of
the others is counted once. -/
theorem judge_eq (now : ℚ) {num : Nat} (h : num ≤ cells.length) (corrects alls : Nat) :
    JudgedTo now cells corrects alls num (judge now cells num corrects alls) := by
  have loop : ∀ i, i ≤ cells.length →
      JudgedTo now cells corrects alls i ((List.range i).foldl (judgeStep now) ⟨cells, 0, corrects, alls⟩) := by
    intro i
    induction i with
    | zero => exact fun _ => ⟨.start _ _, rfl, rfl⟩
    | succ i ih =>
      intro hi
      rw [List.range_succ, List.foldl_append]
      exact (ih (Nat.le_of_lt hi)).step hi
  exact loop num h

theorem JudgedTo.tot_le (h : JudgedTo now cells corrects alls i s) : s.tot ≤ s.cells.length := by
  have hlen := congrArg List.length h.packed.kept
  rw [← h.packed.count, List.length_take] at hlen
  dsimp only at hlen
  omega

end Judge

/-! ## The docket -/

/-- A record, with its place among those made and the rounds it went through without a verdict. -/
structure Ticket where
  serial : Nat
  record : Node1
  passed : List ℚ

def Ticket.mark (t : Ticket) : Ticket := { t with record := { t.record with ok := true } }

/-- The records of a class: uid and time of all that were made, those pending, those judged and when. -/
structure Docket where
  made : List (Nat × ℚ) := []
  pending : List Ticket := []
  verdicts : List (Ticket × ℚ) := []
  corrects : Nat := 0
  alls : Nat := 0

namespace Docket

/-- A round at time `now`: a ticket confirmed or more than 1.5 s old gets its verdict and adds one to `alls`, and to
`corrects` if it was confirmed; the others stay as they are. -/
def judge (d : Docket) (now : ℚ) : Docket :=
  let due := d.pending.filter (fun t => !t.record.stays now)
  { d with
    pending := (d.pending.filter (fun t => t.record.stays now)).map (fun t => { t with passed := t.passed ++ [now] })
    verdicts := d.verdicts ++ due.map (fun t => (t, now))
    corrects := d.corrects + due.countP (fun t => t.record.ok)
    alls := d.alls + due.length }

/-- The counters begin again, those of data packets once there are five. -/
def reset (c : PacketClass) (d : Docket) : Docket :=
  match c with
  | .data => if d.alls ≥ 5 then { d with corrects := 0, alls := 0 } else d
  | .control => { d with corrects := 0, alls := 0 }

def observe (c : PacketClass) (d : Docket) (now : ℚ) : Observation → Docket
  | .handed c' uid last =>
    if c' ≠ c then d
    else if last then { d with corrects := d.corrects + 1, alls := d.alls + 1 }
    else if d.pending.length < c.room then
      { d with made := d.made ++ [(uid, now)], pending := d.pending ++ [⟨d.made.length, ⟨uid, now, false⟩, []⟩] }
    else d
  | .overheard c' uid =>
    if c' ≠ c then d
    else { d with pending := Keyed.modifyFirst (fun t => t.record.uid = uid) Ticket.mark d.pending }
  | .round => (d.judge now).reset c
  | .other .. => d

/-- Every record made is pending or has its one verdict, as it was made; the pending ones are in the order they were
made; no verdict was due before it was given; and the counters count. -/
structure Sound (d : Docket) : Prop where
  once : (d.pending.map Ticket.serial ++ d.verdicts.map (·.1.serial)).Perm (List.range d.made.length)
  order : (d.pending.map Ticket.serial).Pairwise (· < ·)
  same : ∀ t ∈ d.pending ++ d.verdicts.map Prod.fst, d.made[t.serial]? = some (t.record.uid, t.record.time)
  first : ∀ t ∈ d.pending ++ d.verdicts.map Prod.fst, ∀ r ∈ t.passed, ¬ t.record.time + 15 / 10 < r
  due : ∀ v ∈ d.verdicts, v.1.record.ok = true ∨ v.1.record.time + 15 / 10 < v.2
  counts : d.corrects ≤ d.alls

theorem Sound.start : Sound {} where
  once := .refl _
  order := .nil
  same := fun _ h => nomatch h
  first := fun _ h => nomatch h
  due := fun _ h => nomatch h
  counts := Nat.le_refl 0

variable {c : PacketClass} {d : Docket}

theorem stays_iff {now : ℚ} {r : Node1} : r.stays now = true ↔ r.ok = false ∧ ¬ r.time + 15 / 10 < now := by
  unfold Node1.stays
  rw [decide_eq_true_eq, Bool.not_eq_true]

theorem Sound.reset (h : d.Sound) (c : PacketClass) : (d.reset c).Sound := by
  unfold Docket.reset
  split
  · split
    · exact ⟨h.once, h.order, h.same, h.first, h.due, Nat.le_refl 0⟩
    · exact h
  · exact ⟨h.once, h.order, h.same, h.first, h.due, Nat.le_refl 0⟩

theorem Sound.judge (h : d.Sound) (now : ℚ) : (d.judge now).Sound := by
  have hserial : (d.judge now).pending.map Ticket.serial =
      (d.pending.filter (fun t => t.record.stays now)).map Ticket.serial := by
    show ((d.pending.filter _).map _).map Ticket.serial = _
    rw [List.map_map]
    rfl
  have hall : ∀ t ∈ (d.judge now).pending ++ (d.judge now).verdicts.map Prod.fst,
      ∃ t' ∈ d.pending ++ d.verdicts.map Prod.fst, t'.serial = t.serial ∧ t'.record = t.record ∧
        (t.passed = t'.passed ∨ t.passed = t'.passed ++ [now] ∧ t.record.stays now = true) := by
    intro t ht
    rcases List.mem_append.1 ht with ht | ht
    · obtain ⟨t', ht', rfl⟩ := List.mem_map.1 ht
      obtain ⟨hm, hs⟩ := List.mem_filter.1 ht'
      exact ⟨t', List.mem_append_left _ hm, rfl, rfl, .inr ⟨rfl, hs⟩⟩
    · refine ⟨t, ?_, rfl, rfl, .inl rfl⟩
      have ht : t ∈ (d.verdicts ++ (d.pending.filter (fun t => !t.record.stays now)).map (fun t => (t, now))).map Prod.fst := ht
      rw [List.map_append, List.map_map] at ht
      rcases List.mem_append.1 ht with ht | ht
      · exact List.mem_append_right _ ht
      · obtain ⟨t', ht', rfl⟩ := List.mem_map.1 ht
        exact List.mem_append_left _ (List.mem_of_mem_filter ht')
  refine ⟨?_, ?_, ?_, ?_, ?_, ?_⟩
  · have hsplit := (List.filter_append_perm (fun t => t.record.stays now) d.pending).map Ticket.serial
    rw [List.map_append] at hsplit
    have hverdicts : (d.judge now).verdicts.map (·.1.serial) = d.verdicts.map (·.1.serial) ++
        (d.pending.filter (fun t => !t.record.stays now)).map Ticket.serial := by
      show (d.verdicts ++ (d.pending.filter _).map _).map _ = _
      rw [List.map_append, List.map_map]
      rfl
    rw [hserial, hverdicts]
    refine (List.perm_append_comm.append_left _).trans ?_
    rw [← List.append_assoc]
    exact (hsplit.append_right _).trans h.once
  · rw [hserial]
    exact h.order.sublist (List.filter_sublist.map _)
  · intro t ht
    obtain ⟨t', ht', hser, hrec, -⟩ := hall t ht
    rw [← hser, ← hrec]
    exact h.same t' ht'
  · intro t ht r hr
    obtain ⟨t', ht', -, hrec, hp⟩ := hall t ht
    rw [← hrec]
    rcases hp with hp | ⟨hp, hs⟩
    · exact h.first t' ht' r (hp ▸ hr)
    · rw [hp] at hr
      rcases List.mem_append.1 hr with hr | hr
      · exact h.first t' ht' r hr
      · rw [List.mem_singleton.1 hr, hrec]
        exact (stays_iff.1 hs).2
  · intro v hv
    rcases List.mem_append.1 hv with hv | hv
    · exact h.due v hv
    · obtain ⟨t, ht, rfl⟩ := List.mem_map.1 hv
      have hs : t.record.stays now = false := by simpa using (List.mem_filter.1 ht).2
      by_contra hno
      rw [not_or, Bool.not_eq_true] at hno
      rw [stays_iff.2 hno] at hs
      cases hs
  · exact Nat.add_le_add h.counts (List.countP_le_length)

/-- A packet recorded. -/
theorem Sound.record (h : d.Sound) (uid : Nat) (now : ℚ) :
    Sound { d with made := d.made ++ [(uid, now)], pending := d.pending ++ [⟨d.made.length, ⟨uid, now, false⟩, []⟩] } := by
  have hlt : ∀ t ∈ d.pending ++ d.verdicts.map Prod.fst, t.serial < d.made.length := fun t ht =>
    (List.getElem?_eq_some_iff.1 (h.same t ht)).1
  have hall : ∀ t ∈ (d.pending ++ [⟨d.made.length, ⟨uid, now, false⟩, []⟩]) ++ d.verdicts.map Prod.fst,
      t ∈ d.pending ++ d.verdicts.map Prod.fst ∨ t = ⟨d.made.length, ⟨uid, now, false⟩, []⟩ := by
    intro t ht
    simp only [List.mem_append, List.mem_singleton] at ht ⊢
    tauto
  refine ⟨?_, ?_, ?_, ?_, h.due, h.counts⟩
  · simp only [List.map_append, List.length_append, List.length_singleton, List.range_succ, List.map_cons, List.map_nil,
      List.append_assoc]
    refine (List.perm_append_comm.append_left _).trans ?_
    rw [← List.append_assoc]
    exact h.once.append_right _
  · simp only [List.map_append, List.map_cons, List.map_nil]
    refine List.pairwise_append.2 ⟨h.order, List.pairwise_singleton _ _, fun a ha b hb => ?_⟩
    obtain ⟨t, ht, rfl⟩ := List.mem_map.1 ha
    rw [List.mem_singleton.1 hb]
    exact hlt t (List.mem_append_left _ ht)
  · intro t ht
    rcases hall t ht with ht | rfl
    · exact (List.getElem?_append_left (hlt t ht)).trans (h.same t ht)
    · exact List.getElem?_concat_length
  · intro t ht
    rcases hall t ht with ht | rfl
    · exact h.first t ht
    · exact fun _ hr => nomatch hr

/-- A packet overheard. -/
theorem Sound.overhear (h : d.Sound) (uid : Nat) :
    Sound { d with pending := Keyed.modifyFirst (fun t => t.record.uid = uid) Ticket.mark d.pending } := by
  have hserial : (Keyed.modifyFirst (fun t => decide (t.record.uid = uid)) Ticket.mark d.pending).map Ticket.serial =
      d.pending.map Ticket.serial := Keyed.map_modifyFirst _ (fun t _ => (rfl : t.mark.serial = t.serial)) _
  have hall : ∀ t ∈ Keyed.modifyFirst (fun t => decide (t.record.uid = uid)) Ticket.mark d.pending ++ d.verdicts.map Prod.fst,
      ∃ t' ∈ d.pending ++ d.verdicts.map Prod.fst, t'.serial = t.serial ∧ t'.record.uid = t.record.uid ∧
        t'.record.time = t.record.time ∧ t'.passed = t.passed := by
    intro t ht
    rcases List.mem_append.1 ht with ht | ht
    · rcases Keyed.mem_modifyFirst ht with ht | ⟨t', ht', rfl⟩
      · exact ⟨t, List.mem_append_left _ ht, rfl, rfl, rfl, rfl⟩
      · exact ⟨t', List.mem_append_left _ (List.mem_of_find?_eq_some ht'), rfl, rfl, rfl, rfl⟩
    · exact ⟨t, List.mem_append_right _ ht, rfl, rfl, rfl, rfl⟩
  refine ⟨?_, ?_, ?_, ?_, h.due, h.counts⟩
  · rw [hserial]
    exact h.once
  · rw [hserial]
    exact h.order
  · intro t ht
    obtain ⟨t', ht', hser, huid, htime, -⟩ := hall t ht
    rw [← hser, ← huid, ← htime]
    exact h.same t' ht'
  · intro t ht r hr
    obtain ⟨t', ht', -, -, htime, hp⟩ := hall t ht
    rw [← htime]
    exact h.first t' ht' r (hp ▸ hr)

theorem Sound.observe (h : d.Sound) (c : PacketClass) (now : ℚ) (o : Observation) : (d.observe c now o).Sound := by
  cases o with
  | handed c' uid last =>
    simp only [Docket.observe]
    split
    · exact h
    split
    · exact ⟨h.once, h.order, h.same, h.first, h.due, Nat.succ_le_succ h.counts⟩
    split
    · exact h.record uid now
    · exact h
  | overheard c' uid =>
    simp only [Docket.observe]
    split
    · exact h
    · exact h.overhear uid
  | round => exact (h.judge now).reset c
  | other => exact h

end Docket

/-! ## The arrays refine the docket -/

namespace Neighbor

variable {nb : Neighbor} {c : PacketClass} {d : Docket}

/-- The pending records of the class and its counters are those of the docket. -/
def Refines (c : PacketClass) (nb : Neighbor) (d : Docket) : Prop :=
  nb.tally c = ⟨d.pending.map Ticket.record, d.corrects, d.alls⟩

theorem filled_new (a : NsAddr) (now expire : ℚ) : (new a now expire).Filled := ⟨Nat.le_refl 0, Nat.le_refl 0⟩

theorem length_writeCell {l : List Node1} {n : Nat} (h : n ≤ l.length) (r : Node1) : n + 1 ≤ (writeCell l n r).length := by
  unfold writeCell
  split
  · rw [List.length_set]
    omega
  · rw [List.length_append]
    exact Nat.succ_le_succ h

/-- A record written at the fill counter comes last. -/
theorem take_writeCell {l : List Node1} {n : Nat} (h : n ≤ l.length) (r : Node1) :
    (writeCell l n r).take (n + 1) = l.take n ++ [r] := by
  unfold writeCell
  split
  · rename_i hlt
    rw [Compact.Packed.take_succ (List.getElem?_set_self hlt), List.take_set_of_le (Nat.le_refl _)]
  · obtain rfl : n = l.length := by omega
    rw [List.take_length, List.take_of_length_le (by simp)]

theorem length_confirm (l : List Node1) (n uid : Nat) : (confirm l n uid).length = l.length := by
  unfold confirm
  rw [List.length_append, Keyed.length_modifyFirst, ← List.length_append, List.take_append_drop]

/-- The mark `tap` leaves is on the first pending record with the uid. -/
theorem take_confirm {l : List Node1} {n : Nat} (h : n ≤ l.length) (uid : Nat) :
    (confirm l n uid).take n = Keyed.modifyFirst (fun r => r.uid = uid) (fun r => { r with ok := true }) (l.take n) := by
  unfold confirm
  rw [List.take_left']
  rw [Keyed.length_modifyFirst, List.length_take]
  omega

theorem Filled.setTV (h : nb.Filled) (now : ℚ) : (nb.setTV now).Filled :=
  ⟨(judge_eq now h.cbr _ _).tot_le, (judge_eq now h.ptteaomdv _ _).tot_le⟩

theorem Filled.observe (h : nb.Filled) (now : ℚ) (o : Observation) : (nb.observe now o).Filled := by
  cases o with
  | handed c uid last =>
    cases c with
    | data =>
      simp only [Neighbor.observe]
      split
      · exact ⟨h.cbr, h.ptteaomdv⟩
      · unfold recordCbr
        split
        · exact ⟨length_writeCell h.cbr _, h.ptteaomdv⟩
        · exact h
    | control =>
      simp only [Neighbor.observe]
      split
      · exact ⟨h.cbr, h.ptteaomdv⟩
      · unfold recordPtteaomdv
        split
        · exact ⟨h.cbr, length_writeCell h.ptteaomdv _⟩
        · exact h
  | overheard c uid =>
    cases c with
    | data => exact ⟨(length_confirm _ _ _).symm ▸ h.cbr, h.ptteaomdv⟩
    | control => exact ⟨h.cbr, (length_confirm _ _ _).symm ▸ h.ptteaomdv⟩
  | round => exact ⟨(h.setTV now).cbr, (h.setTV now).ptteaomdv⟩
  | other => exact ⟨h.cbr, h.ptteaomdv⟩

/-- A pass over an array does what a round does to the docket. -/
theorem judged_refines {now : ℚ} {cells : List Node1} {num : Nat} {s : Judged}
    (h : JudgedTo now cells d.corrects d.alls num s) (hp : cells.take num = d.pending.map Ticket.record) :
    (⟨s.cells.take s.tot, s.corrects, s.alls⟩ : Tally) =
      ⟨(d.judge now).pending.map Ticket.record, (d.judge now).corrects, (d.judge now).alls⟩ := by
  have hpending : s.cells.take s.tot = (d.judge now).pending.map Ticket.record := by
    refine h.packed.kept.trans ?_
    rw [hp, List.filter_map]
    show _ = ((d.pending.filter _).map _).map Ticket.record
    rw [List.map_map]
    rfl
  have hcorrects : s.corrects = (d.judge now).corrects := by
    rw [h.corrects, hp, List.countP_map]
    show _ = d.corrects + ((d.pending.filter (fun t => !t.record.stays now)).countP (fun t => t.record.ok))
    rw [List.countP_filter]
    refine congrArg _ (List.countP_congr (fun t _ => ?_))
    have hdue : t.record.ok = true → t.record.stays now = false := fun hok => decide_eq_false (fun hc => hc.1 hok)
    simp only [Function.comp_apply, Bool.and_eq_true, Bool.not_eq_true', iff_self_and]
    exact hdue
  have halls : s.alls = (d.judge now).alls := by
    rw [h.alls, hp, List.countP_map, List.countP_eq_length_filter]
    rfl
  rw [hpending, hcorrects, halls]

/-- **`set_direct_trust` gives the verdicts of a round.** -/
theorem Refines.setDirectTrust (hr : nb.Refines c d) (h : nb.Filled) (now : ℚ) :
    (nb.setDirectTrust now).Refines c (d.judge now) := by
  unfold Refines at hr ⊢
  cases c with
  | data =>
    obtain ⟨hp, hc, ha⟩ := Tally.mk.inj hr
    have hj := judge_eq now h.cbr nb.dataForwardCorrects nb.dataForwardAlls
    rw [hc, ha] at hj
    rw [← judged_refines hj hp]
    simp only [tally, Neighbor.setDirectTrust, hc, ha]
  | control =>
    obtain ⟨hp, hc, ha⟩ := Tally.mk.inj hr
    have hj := judge_eq now h.ptteaomdv nb.controlForwardCorrects nb.controlForwardAlls
    rw [hc, ha] at hj
    rw [← judged_refines hj hp]
    simp only [tally, Neighbor.setDirectTrust, hc, ha]

theorem Refines.tvInit (hr : nb.Refines c d) (now : ℚ) : (nb.tvInit now).Refines c (d.reset c) := by
  unfold Refines at hr ⊢
  cases c with
  | data =>
    obtain ⟨hp, hc, ha⟩ := Tally.mk.inj hr
    simp only [tally, Neighbor.tvInit, Docket.reset, hp, hc, ha]
    split <;> rfl
  | control =>
    obtain ⟨hp, hc, ha⟩ := Tally.mk.inj hr
    simp only [tally, Neighbor.tvInit, Docket.reset, hp]

theorem length_pending {cells : List Node1} {n : Nat} (hp : cells.take n = d.pending.map Ticket.record)
    (h : n ≤ cells.length) : d.pending.length = n := by
  have hlen := congrArg List.length hp
  rw [List.length_take, List.length_map] at hlen
  omega

/-- What is observed of one class leaves the other alone. -/
theorem tally_observe_ne {c' : PacketClass} (hcc : c' ≠ c) (now : ℚ) (uid : Nat) (last : Bool) :
    (nb.observe now (.handed c' uid last)).tally c = nb.tally c ∧
      (nb.observe now (.overheard c' uid)).tally c = nb.tally c := by
  cases c' with
  | data =>
    cases c with
    | data => exact absurd rfl hcc
    | control =>
      refine ⟨?_, rfl⟩
      simp only [Neighbor.observe]
      split
      · rfl
      · unfold recordCbr
        split <;> rfl
  | control =>
    cases c with
    | control => exact absurd rfl hcc
    | data =>
      refine ⟨?_, rfl⟩
      simp only [Neighbor.observe]
      split
      · rfl
      · unfold recordPtteaomdv
        split <;> rfl

theorem Refines.handed (hr : nb.Refines c d) (h : nb.Filled) (now : ℚ) (uid : Nat) (last : Bool) :
    (nb.observe now (.handed c uid last)).Refines c (d.observe c now (.handed c uid last)) := by
  unfold Refines at hr ⊢
  simp only [Docket.observe, ne_eq, not_true_eq_false, if_false]
  cases c with
  | data =>
    obtain ⟨hp, hc, ha⟩ := Tally.mk.inj hr
    simp only [Neighbor.observe]
    split
    · simp only [tally, addDataForward, hp, hc, ha]
    · rw [length_pending hp h.cbr]
      unfold recordCbr
      by_cases hroom : nb.cbrNum < cbrMax
      · rw [if_pos hroom, if_pos (show nb.cbrNum < PacketClass.data.room from hroom)]
        simp only [tally, take_writeCell h.cbr, hp, hc, ha, List.map_append, List.map_cons, List.map_nil]
      · rw [if_neg hroom, if_neg (show ¬ nb.cbrNum < PacketClass.data.room from hroom)]
        exact hr
  | control =>
    obtain ⟨hp, hc, ha⟩ := Tally.mk.inj hr
    simp only [Neighbor.observe]
    split
    · simp only [tally, addControlForward, hp, hc, ha]
    · rw [length_pending hp h.ptteaomdv]
      unfold recordPtteaomdv
      by_cases hroom : nb.ptteaomdvNum < ptteaomdvMax
      · rw [if_pos hroom, if_pos (show nb.ptteaomdvNum < PacketClass.control.room from hroom)]
        simp only [tally, take_writeCell h.ptteaomdv, hp, hc, ha, List.map_append, List.map_cons, List.map_nil]
      · rw [if_neg hroom, if_neg (show ¬ nb.ptteaomdvNum < PacketClass.control.room from hroom)]
        exact hr

theorem map_mark (uid : Nat) : ∀ l : List Ticket,
    Keyed.modifyFirst (fun r => decide (r.uid = uid)) (fun r => { r with ok := true }) (l.map Ticket.record) =
      (Keyed.modifyFirst (fun t => decide (t.record.uid = uid)) Ticket.mark l).map Ticket.record
  | [] => rfl
  | t :: l => by
    simp only [List.map_cons, Keyed.modifyFirst]
    by_cases hu : t.record.uid = uid
    · rw [if_pos (decide_eq_true hu), if_pos (decide_eq_true hu)]
      rfl
    · rw [if_neg (by simpa using hu), if_neg (by simpa using hu), List.map_cons, map_mark uid l]

theorem Refines.overheard (hr : nb.Refines c d) (h : nb.Filled) (now : ℚ) (uid : Nat) :
    (nb.observe now (.overheard c uid)).Refines c (d.observe c now (.overheard c uid)) := by
  unfold Refines at hr ⊢
  simp only [Docket.observe, ne_eq, not_true_eq_false, if_false]
  cases c with
  | data =>
    obtain ⟨hp, hc, ha⟩ := Tally.mk.inj hr
    simp only [Neighbor.observe, tally, take_confirm h.cbr, hp, hc, ha, map_mark]
  | control =>
    obtain ⟨hp, hc, ha⟩ := Tally.mk.inj hr
    simp only [Neighbor.observe, tally, take_confirm h.ptteaomdv, hp, hc, ha, map_mark]

/-- **Every observation does to the arrays what it does to the docket.** -/
theorem Refines.observe (hr : nb.Refines c d) (h : nb.Filled) (now : ℚ) (o : Observation) :
    (nb.observe now o).Refines c (d.observe c now o) := by
  cases o with
  | handed c' uid last =>
    by_cases hcc : c' = c
    · subst hcc
      exact hr.handed h now uid last
    · unfold Refines
      rw [(tally_observe_ne hcc now uid last).1, Docket.observe, if_pos hcc]
      exact hr
  | overheard c' uid =>
    by_cases hcc : c' = c
    · subst hcc
      exact hr.overheard h now uid
    · unfold Refines
      rw [(tally_observe_ne hcc now uid true).2, Docket.observe, if_pos hcc]
      exact hr
  | round => exact (hr.setDirectTrust h now).tvInit now
  | other => exact hr

/-! ## Histories -/

/-- A neighbour entry through a history of observations. -/
def history (evs : List (ℚ × Observation)) (nb : Neighbor) : Neighbor := evs.foldl (fun nb ev => nb.observe ev.1 ev.2) nb

/-- The docket of a class kept over the same history. -/
def docket (c : PacketClass) (evs : List (ℚ × Observation)) : Docket := evs.foldl (fun d ev => d.observe c ev.1 ev.2) {}

/-- **Every packet recorded is judged exactly once**: the arrays hold the docket's pending tickets, `set_direct_trust`
gives the verdicts of a round, and the docket is sound. -/
theorem judged_once (a : NsAddr) (t₀ expire : ℚ) (evs : List (ℚ × Observation)) (c : PacketClass) :
    let nb := (new a t₀ expire).history evs
    let d := docket c evs
    d.Sound ∧ nb.Refines c d ∧ (nb.tally c).corrects ≤ (nb.tally c).alls ∧
      ∀ now, (d.judge now).Sound ∧ (nb.setDirectTrust now).Refines c (d.judge now) ∧
        ((nb.setDirectTrust now).tally c).corrects ≤ ((nb.setDirectTrust now).tally c).alls := by
  have loop : ∀ (evs : List (ℚ × Observation)) (nb : Neighbor) (d : Docket), nb.Filled → d.Sound → nb.Refines c d →
      (nb.history evs).Filled ∧ (evs.foldl (fun d ev => d.observe c ev.1 ev.2) d).Sound ∧
        (nb.history evs).Refines c (evs.foldl (fun d ev => d.observe c ev.1 ev.2) d) := by
    intro evs
    induction evs with
    | nil => exact fun nb d hf hs hr => ⟨hf, hs, hr⟩
    | cons ev evs ih =>
      intro nb d hf hs hr
      exact ih _ _ (hf.observe ev.1 ev.2) (hs.observe c ev.1 ev.2) (hr.observe hf ev.1 ev.2)
  have hstart : (new a t₀ expire).Refines c {} := by cases c <;> rfl
  obtain ⟨hf, hs, hr⟩ := loop evs _ _ (filled_new a t₀ expire) .start hstart
  have hle : ∀ {nb : Neighbor} {d : Docket}, nb.Refines c d → d.Sound → (nb.tally c).corrects ≤ (nb.tally c).alls := by
    intro nb d hr hs
    rw [show nb.tally c = _ from hr]
    exact hs.counts
  refine ⟨hs, hr, hle hr hs, fun now => ?_⟩
  have hr' := hr.setDirectTrust hf now
  exact ⟨hs.judge now, hr', hle hr' (hs.judge now)⟩

end Neighbor

end TeAomdv

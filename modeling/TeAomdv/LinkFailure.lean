import Mathlib.Data.List.TakeWhile
import TeAomdv.Attribution
import TeAomdv.Ownership
/-!
# LinkFailure — what `handle_link_failure` does to the table, and what it reports

On a table in order the walk is a map: an entry without a path by way of the neighbour stays as it is, one with such a
path loses it, and one that loses its last path goes down (`RtEntry.cut`).  The slots of the RERR are those of the
entries that go down with their error flag set (`RtEntry.reports`).  The walk ends early at an entry with an odd number,
or when it has a slot to write and the array is full; `handleLinkFailure_outcome` says which, and all else follows.
-/
namespace TeAomdv

open Fallible (Ends Outcome)

namespace RtEntry

/-- Up, with a path by way of `id`. -/
def uses (id : NsAddr) (e : RtEntry) : Bool := e.rtFlags = .up ∧ (e.pathLookup id).isSome

/-- The parity assert fails on this entry. -/
def stops (id : NsAddr) (e : RtEntry) : Bool := e.uses id ∧ e.rtSeqno % 2 ≠ 0

/-- Up, with no path but the one by way of `id`. -/
def falls (id : NsAddr) (e : RtEntry) : Bool := e.uses id ∧ (e.pathDelete id).rtPathList = []

/-- Gets a slot in the RERR. -/
def reports (id : NsAddr) (e : RtEntry) : Bool := e.falls id ∧ e.rtError

/-- The entry after the failure of the link to `id`. -/
def cut (inf : Nat) (id : NsAddr) (e : RtEntry) : RtEntry :=
  if e.falls id then (Exec.failed inf (e.pathDelete id)).setError false
  else if e.uses id then e.pathDelete id
  else e

variable {id : NsAddr} {e : RtEntry} {inf : Nat}

theorem setError_self (h : e.rtError = false) : e.setError false = e := by
  unfold setError
  rw [← h]

@[simp] theorem rtError_pathDelete (e : RtEntry) (id : NsAddr) : (e.pathDelete id).rtError = e.rtError := by
  unfold pathDelete
  split <;> rfl

@[simp] theorem rtError_rtDown (e : RtEntry) (inf : Nat) : (e.rtDown inf).rtError = e.rtError := by
  unfold rtDown
  split <;> rfl

@[simp] theorem rtError_failed (e : RtEntry) (inf : Nat) : (Exec.failed inf e).rtError = e.rtError := by
  simp [Exec.failed, setSeqno]

theorem num_pathDelete (h : e.rtNumPaths = e.rtPathList.length) :
    (e.pathDelete id).rtNumPaths = (e.pathDelete id).rtPathList.length := by
  unfold pathDelete
  split
  · rename_i hp
    unfold pathLookup at hp
    rw [List.find?_isSome] at hp
    have := Keyed.length_eraseP_add_one (List.any_eq_true.2 hp)
    show e.rtNumPaths - 1 = ((e.rtPathList.eraseP (fun p => decide (p.nexthop = id))).length : Int)
    omega
  · exact h

theorem rtHighestSeqnoHeard_pathDelete (e : RtEntry) (id : NsAddr) :
    (e.pathDelete id).rtHighestSeqnoHeard = e.rtHighestSeqnoHeard := congrArg Route.highest (route_pathDelete e id)

theorem rtSeqno_failed (e : RtEntry) (inf : Nat) :
    (Exec.failed inf e).rtSeqno = max (u32 (e.rtSeqno + 1)) e.rtHighestSeqnoHeard := by
  unfold Exec.failed rtDown
  split <;> rfl

theorem rtDst_failed (e : RtEntry) (inf : Nat) : (Exec.failed inf e).rtDst = e.rtDst := by
  unfold Exec.failed rtDown
  split <;> rfl

@[simp] theorem rtDst_cut (inf : Nat) (id : NsAddr) (e : RtEntry) : (e.cut inf id).rtDst = e.rtDst := by
  unfold cut
  split
  · exact (rtDst_failed _ inf).trans (Exec.rtDst_pathDelete e id)
  · split
    · exact Exec.rtDst_pathDelete e id
    · rfl

end RtEntry

namespace Exec

variable {env : Env} {x : Exec} {d id : NsAddr} {e : RtEntry}

/-- The slot written for an entry. -/
def slot (inf : Nat) (id : NsAddr) (e : RtEntry) : NsAddr × Nat := (e.rtDst, (e.cut inf id).rtSeqno)

theorem cut_of_falls (h : e.falls id = true) (inf : Nat) :
    e.cut inf id = (failed inf (e.pathDelete id)).setError false := if_pos h

theorem cut_of_uses (hu : e.uses id = true) (h : ¬ e.falls id = true) (inf : Nat) : e.cut inf id = e.pathDelete id := by
  unfold RtEntry.cut
  rw [if_neg h, if_pos hu]

theorem cut_of_not_uses (h : ¬ e.uses id = true) (inf : Nat) : e.cut inf id = e := by
  have hf : ¬ e.falls id = true := fun hf => h (of_decide_eq_true hf).1
  unfold RtEntry.cut
  rw [if_neg hf, if_neg h]

/-- **One entry of the walk.** -/
theorem failEntry_eq (he : x.rtLookup d = some e) (hn : e.rtNumPaths = e.rtPathList.length) (re : List (NsAddr × Nat)) :
    failEntry env id (x, re) d =
      if e.stops id then .error (.assertion .handleLinkFailureEven)
      else if e.reports id ∧ re.length ≥ teaomdvMaxErrors then .error .overrun
      else .ok (x.put d (e.cut env.inf id), re ++ if e.reports id then [slot env.inf id e] else []) := by
  have hd : (e.pathDelete id).rtDst = d := (rtDst_pathDelete e id).trans (rtDst_of_rtLookup he)
  have hquiet : ∀ {c : Prop}, ¬ e.reports id = true → ¬ (e.reports id = true ∧ c) := fun h hc => h hc.1
  unfold failEntry
  simp only [he]
  by_cases hu : e.uses id = true
  · have hcond : e.rtFlags = .up ∧ (e.pathLookup id).isSome := of_decide_eq_true hu
    rw [if_pos hcond]
    by_cases hodd : e.rtSeqno % 2 ≠ 0
    · have hs : e.stops id = true := decide_eq_true ⟨hu, hodd⟩
      rw [if_pos hodd, if_pos hs]
    · have hs : ¬ e.stops id = true := fun h => hodd (of_decide_eq_true h).2
      rw [if_neg hodd, if_neg hs, pathEmpty_of_num (RtEntry.num_pathDelete hn), rtModify_eq_put he]
      simp only [Fallible.ok_bind]
      by_cases hnil : (e.pathDelete id).rtPathList = []
      · have hf : e.falls id = true := decide_eq_true ⟨hu, hnil⟩
        rw [if_pos (List.isEmpty_iff.2 hnil), cut_of_falls hf]
        by_cases herr : e.rtError = true
        · have hr : e.reports id = true := decide_eq_true ⟨hf, herr⟩
          have hseq : slot env.inf id e = (d, (failed env.inf e).rtSeqno) := by
            unfold slot
            rw [cut_of_falls hf, rtDst_of_rtLookup he, RtEntry.rtSeqno_failed]
            show (d, (failed env.inf (e.pathDelete id)).rtSeqno) = _
            rw [RtEntry.rtSeqno_failed, rtSeqno_pathDelete, RtEntry.rtHighestSeqnoHeard_pathDelete]
          simp only [herr, hr, if_true, true_and, put_rtModify he hd, hseq]
        · have hr : ¬ e.reports id = true := fun h => herr (of_decide_eq_true h).2
          rw [if_neg herr, if_neg (hquiet hr), if_neg hr, List.append_nil, put_rtModify he hd, RtEntry.setError_self]
          simpa using herr
      · have hf : ¬ e.falls id = true := fun h => hnil (of_decide_eq_true h).2
        have hr : ¬ e.reports id = true := fun h => hf (of_decide_eq_true h).1
        rw [if_neg (fun h => hnil (List.isEmpty_iff.1 h)), if_neg (hquiet hr), if_neg hr, List.append_nil, cut_of_uses hu hf]
  · have hs : ¬ e.stops id = true := fun h => hu (of_decide_eq_true h).1
    have hr : ¬ e.reports id = true := fun h => hu (of_decide_eq_true (of_decide_eq_true h).1).1
    have hcond : ¬ (e.rtFlags = .up ∧ (e.pathLookup id).isSome) := fun h => hu (decide_eq_true h)
    rw [if_neg hcond, if_neg hs, if_neg (hquiet hr), if_neg hr, List.append_nil, cut_of_not_uses hu, put_self he]

/-- The slots of the RERR for a failure of the link to `id`. -/
def slots (inf : Nat) (id : NsAddr) (l : List RtEntry) : List (NsAddr × Nat) := (l.filter (·.reports id)).map (slot inf id)

/-- The entries the walk comes to ahead of one whose parity assert fails. -/
def ahead (id : NsAddr) (l : List RtEntry) : List RtEntry := l.takeWhile (fun e => !e.stops id)

/-- How `handle_link_failure` leaves the node when it comes to its end. -/
def linkFailed (env : Env) (x : Exec) (id : NsAddr) : Exec :=
  let y := { x.alloc with rtable := x.rtable.map (RtEntry.cut env.inf id) }
  if (slots env.inf id x.rtable).length > 0 then y.sendError x.blank ⟨slots env.inf id x.rtable⟩ false else y.free x.blank

theorem slots_append (inf : Nat) (id : NsAddr) (l : List RtEntry) (e : RtEntry) :
    slots inf id (l ++ [e]) = slots inf id l ++ if e.reports id then [slot inf id e] else [] := by
  unfold slots
  rw [List.filter_append, List.map_append]
  by_cases h : e.reports id = true
  · simp [h]
  · simp [h]

/-- The walk with these entries behind it and those before it. -/
structure Walked (inf : Nat) (id : NsAddr) (x : Exec) (done rest : List RtEntry) (acc : Exec × List (NsAddr × Nat)) :
    Prop where
  table : x.rtable = done ++ rest
  exec : acc.1 = { x with rtable := done.map (RtEntry.cut inf id) ++ rest }
  written : acc.2 = slots inf id done
  even : ∀ e ∈ done, e.stops id = false
  room : (slots inf id done).length ≤ teaomdvMaxErrors

/-- How the walk ends early. -/
def WalkFault (inf : Nat) (id : NsAddr) (x : Exec) (f : Fault) : Prop :=
  (f = .assertion .handleLinkFailureEven ∧ (∃ e ∈ x.rtable, e.stops id = true) ∧
    (slots inf id (ahead id x.rtable)).length ≤ teaomdvMaxErrors) ∨
  (f = .overrun ∧ teaomdvMaxErrors < (slots inf id (ahead id x.rtable)).length)

theorem ahead_append {done rest : List RtEntry} {e : RtEntry} (hd : ∀ a ∈ done, a.stops id = false) :
    ahead id (done ++ e :: rest) = done ++ if e.stops id then [] else e :: ahead id rest := by
  unfold ahead
  rw [List.takeWhile_append_of_pos (fun a ha => by rw [hd a ha]; rfl), List.takeWhile_cons]
  cases e.stops id <;> rfl

/-- The walk goes on past an entry, or ends early at it. -/
theorem Walked.failEntry (hx : x.toAgent.Rep) {done rest : List RtEntry} {acc : Exec × List (NsAddr × Nat)}
    (h : Walked env.inf id x done (e :: rest) acc) :
    Outcome (Walked env.inf id x (done ++ [e]) rest) (WalkFault env.inf id x) (failEntry env id acc e.rtDst) := by
  obtain ⟨y, re⟩ := acc
  obtain ⟨htable, hy, hre, heven, hroom⟩ := h
  dsimp only at hy hre
  have hytable : y.rtable = done.map (RtEntry.cut env.inf id) ++ e :: rest := congrArg (fun x : Exec => x.rtable) hy
  have hkeys : ((done.map (RtEntry.cut env.inf id) ++ e :: rest).map (·.rtDst)).Nodup := by
    have hdsts := hx.dsts
    rw [htable, List.map_append] at hdsts
    rw [List.map_append, List.map_map]
    simpa [Function.comp_def] using hdsts
  have he : y.rtLookup e.rtDst = some e := rtLookup_cell hytable hkeys
  have hput : y.put e.rtDst (e.cut env.inf id) =
      { x with rtable := (done ++ [e]).map (RtEntry.cut env.inf id) ++ rest } := by
    rw [put_cell hytable hkeys, hy]
    simp
  have hmem : e ∈ x.rtable := by rw [htable]; simp
  have hahead : ahead id x.rtable = done ++ if e.stops id then [] else e :: ahead id rest := by
    rw [htable]
    exact ahead_append heven
  rw [failEntry_eq he (hx.entries e hmem).num]
  split
  · rename_i hstop
    rw [if_pos hstop, List.append_nil] at hahead
    exact .inl ⟨rfl, ⟨e, hmem, hstop⟩, by rw [hahead]; exact hroom⟩
  rename_i hgo
  rw [if_neg hgo] at hahead
  have hslots := slots_append env.inf id done e
  split
  · rename_i hfull
    refine .inr ⟨rfl, ?_⟩
    rw [if_pos hfull.1] at hslots
    have hsub : (slots env.inf id (done ++ [e])).Sublist (slots env.inf id (ahead id x.rtable)) := by
      rw [hahead, List.append_cons done e (ahead id rest)]
      exact ((List.sublist_append_left _ _).filter _).map _
    have hlen := hsub.length_le
    rw [hslots, ← hre, List.length_append, List.length_singleton] at hlen
    omega
  · rename_i hfull
    refine ⟨by rw [htable, List.append_assoc]; rfl, hput, ?_, ?_, ?_⟩
    · show re ++ _ = _
      rw [hslots, hre]
    · intro a ha
      rcases List.mem_append.1 ha with ha | ha
      · exact heven a ha
      · rw [List.mem_singleton.1 ha]
        simpa using hgo
    · rw [hslots, ← hre]
      split
      · rename_i hr
        have : ¬ re.length ≥ teaomdvMaxErrors := fun h => hfull ⟨hr, h⟩
        rw [List.length_append, List.length_singleton]
        omega
      · rw [List.append_nil, hre]
        exact hroom

/-- **`handle_link_failure` on a table in order** comes to its end with every entry cut, or to an entry with an odd
number, or runs out of slots. -/
theorem handleLinkFailure_outcome (hx : x.toAgent.Rep) :
    Outcome (fun y => y = linkFailed env x id ∧ (∀ e ∈ x.rtable, e.stops id = false) ∧
        (slots env.inf id x.rtable).length ≤ teaomdvMaxErrors) (WalkFault env.inf id x)
      (x.handleLinkFailure env id) := by
  unfold handleLinkFailure
  have hstart : Walked env.inf id x.alloc [] x.rtable (x.alloc, []) :=
    ⟨rfl, rfl, rfl, fun _ h => (nomatch h), Nat.zero_le _⟩
  have hwalk := Outcome.walk (I := Walked env.inf id x.alloc) (F := WalkFault env.inf id x.alloc) RtEntry.rtDst
    (f := failEntry env id) (fun done e rest acc h => Walked.failEntry (x := x.alloc) hx h) hstart
  refine Outcome.bind (F := WalkFault env.inf id x) hwalk (fun acc h => ?_)
  obtain ⟨y, re⟩ := acc
  obtain ⟨-, hy, hre, heven, hroom⟩ := h
  refine ⟨?_, heven, hroom⟩
  dsimp only at hy hre
  rw [hy, hre]
  simp [linkFailed]

end Exec

/-! ## What the walk does to an entry -/

namespace RtEntry

/-- What the failure of the link to `id` makes of an entry. -/
structure CutOff (id : NsAddr) (e e' : RtEntry) : Prop where
  dst : e'.rtDst = e.rtDst
  clear : e'.rtFlags = .up → ∀ path ∈ e'.rtPathList, path.nexthop ≠ id
  unchanged : (∀ path ∈ e.rtPathList, path.nexthop ≠ id) → e' = e
  kept : e'.rtPathList = e.rtPathList.filter (fun path => path.nexthop ≠ id)
  fallen : e.rtPathList ≠ [] → e'.rtPathList = [] →
    e'.rtFlags = .down ∧ e.rtHighestSeqnoHeard ≤ e'.rtSeqno ∧ (e.rtSeqno + 1 < 4294967296 → e.rtSeqno < e'.rtSeqno) ∧
      e'.rtError = false

variable {id : NsAddr} {e : RtEntry} {m : Int}

theorem rtPathList_pathDelete (hnd : (e.rtPathList.map (·.nexthop)).Nodup) :
    (e.pathDelete id).rtPathList = e.rtPathList.filter (fun path => path.nexthop ≠ id) := by
  unfold pathDelete
  split
  · exact (Keyed.eraseP_eq_filter Path.nexthop hnd id).trans (List.filter_congr (fun _ _ => by simp))
  · rename_i hnone
    refine (List.filter_eq_self.2 (fun path hp => ?_)).symm
    rw [decide_eq_true_eq]
    intro hid
    refine hnone ?_
    unfold pathLookup
    rw [List.find?_isSome]
    exact ⟨path, hp, decide_eq_true hid⟩

theorem rtPathList_cut_of_falls (h : e.falls id = true) (inf : Nat) :
    (e.cut inf id).rtPathList = [] ∧ (e.cut inf id).rtFlags = .down := by
  have hup : (e.pathDelete id).rtFlags ≠ .down := by
    rw [Exec.rtFlags_pathDelete, (of_decide_eq_true (of_decide_eq_true h).1).1]
    exact fun h => nomatch h
  have hroute := route_failed hup inf
  rw [Exec.cut_of_falls h]
  exact ⟨List.map_eq_nil_iff.1 (congrArg Route.hops hroute), congrArg Route.flags hroute⟩

theorem cut_cutOff (hr : e.Rep m) (inf : Nat) (id : NsAddr) : e.CutOff id (e.cut inf id) := by
  have hdel : (e.pathDelete id).rtPathList = _ := rtPathList_pathDelete hr.nexthops
  by_cases hu : e.uses id = true
  · obtain ⟨hup, hsome⟩ := of_decide_eq_true hu
    obtain ⟨path, hpath⟩ := Option.isSome_iff_exists.1 hsome
    have hvia : path ∈ e.rtPathList ∧ path.nexthop = id := ⟨List.mem_of_find?_eq_some hpath, Keyed.key_of_find? hpath⟩
    have hthrough : ¬ ∀ path ∈ e.rtPathList, path.nexthop ≠ id := fun h => h path hvia.1 hvia.2
    by_cases hf : e.falls id = true
    · obtain ⟨hnil, hdown⟩ := rtPathList_cut_of_falls hf inf
      have hlist : (e.pathDelete id).rtPathList = [] := (of_decide_eq_true hf).2
      have hseq : (e.cut inf id).rtSeqno = max (u32 (e.rtSeqno + 1)) e.rtHighestSeqnoHeard := by
        rw [Exec.cut_of_falls hf]
        show (Exec.failed inf (e.pathDelete id)).rtSeqno = _
        rw [rtSeqno_failed, Exec.rtSeqno_pathDelete, rtHighestSeqnoHeard_pathDelete]
      refine ⟨rtDst_cut inf id e, fun h => ?_, fun h => absurd h hthrough, ?_, fun _ _ => ⟨hdown, ?_, fun hlt => ?_, ?_⟩⟩
      · rw [hdown] at h
        cases h
      · rw [hnil, ← hdel, hlist]
      · rw [hseq]
        exact Nat.le_max_right _ _
      · rw [hseq, u32_of_lt hlt]
        exact Nat.lt_of_lt_of_le (Nat.lt_succ_self _) (Nat.le_max_left _ _)
      · rw [Exec.cut_of_falls hf]
        rfl
    · have hne : (e.pathDelete id).rtPathList ≠ [] := fun h => hf (decide_eq_true ⟨hu, h⟩)
      rw [Exec.cut_of_uses hu hf]
      refine ⟨Exec.rtDst_pathDelete e id, fun _ path hp => ?_, fun h => absurd h hthrough, hdel, fun _ h => absurd h hne⟩
      exact nexthop_ne_of_mem_pathDelete hr.nexthops hp
  · rw [Exec.cut_of_not_uses hu]
    have hno : ∀ path ∈ e.rtPathList, path.nexthop ≠ id := by
      intro path hp hid
      refine hu (decide_eq_true ⟨hr.up.2 (List.ne_nil_of_mem hp), ?_⟩)
      unfold pathLookup
      rw [List.find?_isSome]
      exact ⟨path, hp, decide_eq_true hid⟩
    exact ⟨rfl, fun _ => hno, fun _ => rfl, (List.filter_eq_self.2 (fun path hp => decide_eq_true (hno path hp))).symm,
      fun h h' => absurd h' h⟩

end RtEntry

/-! ## The report -/

namespace Exec

/-- The entry for `d` lost its last path between two states, with its error flag set, and has number `n` now. -/
def LostRoute (x y : Exec) (d : NsAddr) (n : Nat) : Prop :=
  ∃ e e', x.rtLookup d = some e ∧ y.rtLookup d = some e' ∧ e.rtPathList ≠ [] ∧ e'.rtPathList = [] ∧
    e.rtError = true ∧ e'.rtSeqno = n

/-- One RERR with a slot for each of the routes lost, if there are any, within the array. -/
def Reported (x y : Exec) : Prop :=
  ∃ re : List (NsAddr × Nat), re.length ≤ teaomdvMaxErrors ∧ (re.map Prod.fst).Nodup ∧
    (∀ d n, (d, n) ∈ re ↔ LostRoute x y d n) ∧ (re = [] → y.sent = x.sent) ∧
    (re ≠ [] → ∃ p, y.sent = x.sent ++ [p] ∧ p.body = .rerr ⟨re⟩ ∧ p.daddr = ipBroadcast)

variable {env : Env} {x y : Exec} {d id id' : NsAddr} {e : RtEntry}

theorem rtable_linkFailed (env : Env) (x : Exec) (id : NsAddr) :
    (x.linkFailed env id).rtable = x.rtable.map (RtEntry.cut env.inf id) := by
  unfold linkFailed
  simp only
  split <;> rfl

theorem nbhead_linkFailed (env : Env) (x : Exec) (id : NsAddr) : (x.linkFailed env id).nbhead = x.nbhead := by
  unfold linkFailed
  simp only
  split <;> rfl

theorem rtLookup_linkFailed (env : Env) (x : Exec) (id d : NsAddr) :
    (x.linkFailed env id).rtLookup d = (x.rtLookup d).map (RtEntry.cut env.inf id) := by
  have hkey : (fun e : RtEntry => decide (e.rtDst = d)) ∘ RtEntry.cut env.inf id = fun e => decide (e.rtDst = d) := by
    funext e
    rw [Function.comp_apply, RtEntry.rtDst_cut]
  unfold rtLookup
  rw [rtable_linkFailed, List.find?_map, hkey]

theorem reports_iff {m : Int} (hr : e.Rep m) (inf : Nat) :
    e.reports id = true ↔ e.rtPathList ≠ [] ∧ (e.cut inf id).rtPathList = [] ∧ e.rtError = true := by
  constructor
  · intro h
    obtain ⟨hf, herr⟩ := of_decide_eq_true h
    exact ⟨hr.up.1 (of_decide_eq_true (of_decide_eq_true hf).1).1, (RtEntry.rtPathList_cut_of_falls hf inf).1, herr⟩
  · rintro ⟨hne, hnil, herr⟩
    refine decide_eq_true ⟨?_, herr⟩
    by_contra hf
    by_cases hu : e.uses id = true
    · rw [cut_of_uses hu hf] at hnil
      exact hf (decide_eq_true ⟨hu, hnil⟩)
    · rw [cut_of_not_uses hu] at hnil
      exact hne hnil

theorem linkFailed_reported (hx : x.toAgent.Rep) (hroom : (slots env.inf id x.rtable).length ≤ teaomdvMaxErrors) :
    x.Reported (x.linkFailed env id) := by
  refine ⟨slots env.inf id x.rtable, hroom, ?_, fun d n => ?_, fun hnil => ?_, fun hne => ?_⟩
  · have hsub : ((slots env.inf id x.rtable).map Prod.fst).Sublist (x.rtable.map (·.rtDst)) := by
      unfold slots
      rw [List.map_map]
      exact List.filter_sublist.map _
    exact hx.dsts.sublist hsub
  · have hslot : (d, n) ∈ slots env.inf id x.rtable ↔
        ∃ e, x.rtLookup d = some e ∧ e.reports id = true ∧ (e.cut env.inf id).rtSeqno = n := by
      unfold slots
      constructor
      · intro h
        obtain ⟨e, he, heq⟩ := List.mem_map.1 h
        obtain ⟨hmem, hrep⟩ := List.mem_filter.1 he
        obtain ⟨rfl, rfl⟩ := Prod.mk.inj heq
        exact ⟨e, Keyed.find?_of_mem_nodup RtEntry.rtDst hx.dsts hmem, hrep, rfl⟩
      · rintro ⟨e, he, hrep, rfl⟩
        refine List.mem_map.2 ⟨e, List.mem_filter.2 ⟨mem_of_rtLookup he, hrep⟩, ?_⟩
        rw [← rtDst_of_rtLookup he]
        rfl
    rw [hslot]
    constructor
    · rintro ⟨e, he, hrep, rfl⟩
      obtain ⟨hne, hnil, herr⟩ := (reports_iff (hx.entries e (mem_of_rtLookup he)) env.inf).1 hrep
      exact ⟨e, _, he, by rw [rtLookup_linkFailed, he]; rfl, hne, hnil, herr, rfl⟩
    · rintro ⟨e, e', he, he', hne, hnil, herr, rfl⟩
      rw [rtLookup_linkFailed, he] at he'
      obtain rfl := Option.some.inj he'
      exact ⟨e, he, (reports_iff (hx.entries e (mem_of_rtLookup he)) env.inf).2 ⟨hne, hnil, herr⟩, rfl⟩
  · unfold linkFailed
    simp only [hnil]
    rw [if_neg (by simp), sent_free]
    exact sent_alloc x
  · unfold linkFailed
    simp only
    rw [if_pos (List.length_pos_iff.2 hne)]
    unfold sendError
    rw [sent_schedule]
    exact ⟨_, congrArg (· ++ _) (sent_alloc x), rfl, rfl⟩

/-! ## A neighbour gone for good -/

/-- Nothing goes by way of `id`: no live entry has a path by it, and it is not in the neighbour list. -/
structure Severed (id : NsAddr) (x : Exec) : Prop where
  paths : ∀ e ∈ x.rtable, e.rtFlags = .up → ∀ path ∈ e.rtPathList, path.nexthop ≠ id
  neighbors : ∀ nb ∈ x.nbhead, nb.nbAddr ≠ id

namespace Severed

theorem rtModify (h : x.Severed id) (d : NsAddr) {f : RtEntry → RtEntry}
    (hf : ∀ e, (f e).rtFlags = .up → e.rtFlags = .up ∧ ∀ path ∈ (f e).rtPathList, ∃ path' ∈ e.rtPathList,
      path'.nexthop = path.nexthop) : (x.rtModify d f).Severed id where
  paths e he hup path hp := by
    rcases Keyed.mem_modifyFirst he with he | ⟨e₀, he₀, rfl⟩
    · exact h.paths e he hup path hp
    · obtain ⟨hup₀, hsub⟩ := hf e₀ hup
      obtain ⟨path', hp', heq⟩ := hsub path hp
      rw [← heq]
      exact h.paths e₀ (List.mem_of_find?_eq_some he₀) hup₀ path' hp'
  neighbors := h.neighbors

theorem modifyFind (h : x.Severed id) (d : NsAddr) {f : Path → Path} (hf : ∀ path, (f path).nexthop = path.nexthop) :
    (x.rtModify d (fun rt => rt.modifyFind f)).Severed id := by
  refine h.rtModify d (fun e hup => ⟨hup, fun path hp => ?_⟩)
  have hp : path ∈ e.rtPathList.modifyHead f := hp
  cases hl : e.rtPathList with
  | nil =>
    rw [hl] at hp
    cases hp
  | cons a l =>
    rw [hl] at hp
    rcases List.mem_cons.1 hp with rfl | hp
    · exact ⟨a, List.mem_cons_self, (hf a).symm⟩
    · exact ⟨path, List.mem_cons_of_mem _ hp, rfl⟩

theorem nbModify (h : x.Severed id) (a : NsAddr) {f : Neighbor → Neighbor} (hf : ∀ nb, (f nb).nbAddr = nb.nbAddr) :
    (x.nbModify a f).Severed id where
  paths := h.paths
  neighbors nb hnb := by
    rcases Keyed.mem_modifyFirst hnb with hnb | ⟨nb₀, hnb₀, rfl⟩
    · exact h.neighbors nb hnb
    · rw [hf]
      exact h.neighbors nb₀ (List.mem_of_find?_eq_some hnb₀)

/-- Another neighbour may come in. -/
theorem nbEnsure (h : x.Severed id) (env : Env) {a : NsAddr} (ha : a ≠ id) : (x.nbEnsure env a).Severed id := by
  unfold Exec.nbEnsure
  split
  · unfold Exec.nbInsert
    simp only
    split
    · refine ⟨h.paths, fun nb hnb => ?_⟩
      rcases List.mem_cons.1 hnb with rfl | hnb
      · exact ha
      · exact h.neighbors nb hnb
    · exact h.nbModify a (fun _ => rfl)
  · exact h

theorem countForward (h : x.Severed id) (env : Env) (p : Packet) : (x.countForward env p).Severed id := by
  unfold Exec.countForward
  split
  · refine h.nbModify _ (fun nb => ?_)
    unfold Neighbor.addDataForward Neighbor.recordCbr
    split
    · rfl
    · split <;> rfl
  · refine h.nbModify _ (fun nb => ?_)
    unfold Neighbor.addControlForward Neighbor.recordPtteaomdv
    split
    · rfl
    · split <;> rfl
  · exact h

theorem reports (h : x.Severed id) (dst : NsAddr) (seqno : Nat) (lasthop : NsAddr → NsAddr) (pcs : List NsAddr) :
    (pcs.foldl (reportDistrust dst seqno lasthop) x).Severed id := by
  induction pcs generalizing x with
  | nil => exact h
  | cons pc pcs ih => exact ih ⟨h.paths, h.neighbors⟩

theorem pathDelete (h : x.Severed id) (d a : NsAddr) : (x.rtModify d (fun rt => rt.pathDelete a)).Severed id := by
  refine h.rtModify d (fun e hup => ⟨?_, fun path hp => ⟨path, (e.pathDelete_sublist a).subset hp, rfl⟩⟩)
  rwa [rtFlags_pathDelete] at hup

theorem downIfEmpty (h : x.Severed id) (env : Env) (d : NsAddr) (rt : RtEntry) :
    Ends (fun y => y.1.Severed id) (x.downIfEmpty env d rt (fun rt => rt)) := by
  intro y hy
  obtain ⟨empty, -, hy⟩ := Fallible.bind_eq_ok hy
  obtain rfl := Except.ok.inj hy
  show (if empty = true then x.rtModify d (fun rt => rt.rtDown env.inf) else x).Severed id
  split
  · refine h.rtModify d (fun e hup => ?_)
    unfold RtEntry.rtDown at hup ⊢
    split
    · rename_i hdown
      rw [if_pos hdown] at hup
      exact ⟨hup, fun path hp => ⟨path, hp, rfl⟩⟩
    · rename_i hdown
      rw [if_neg hdown] at hup
      cases hup
  · exact h

theorem forwardSend (h : x.Severed id) (env : Env) (d : NsAddr) (p : Packet) (delay : ℚ) :
    Ends (Severed id) (x.forwardSend env d p delay) := by
  have h₁ := (h.countForward env p).modifyFind d (f := fun path => { path with expire := env.now + activeRouteTimeout })
    (fun _ => rfl)
  unfold Exec.forwardSend
  simp only
  split
  · exact Ends.error _
  · refine Ends.ok ?_
    show Severed id _
    split
    · have := h₁.rtModify d (f := fun rt => rt.setError true) (fun e hup => ⟨hup, fun path hp => ⟨path, hp, rfl⟩⟩)
      exact ⟨this.paths, this.neighbors⟩
    · exact ⟨h₁.paths, h₁.neighbors⟩

theorem forwardDistrust (h : x.Severed id) (env : Env) (d : NsAddr) (path : Path) (p : Packet) :
    Ends (Severed id) (x.forwardDistrust env d path p) := by
  unfold Exec.forwardDistrust
  split
  · exact Ends.error _
  · rename_i rt hrt
    refine Ends.bind (((h.reports _ _ _ _).pathDelete d path.nexthop).downIfEmpty env d _) (fun y hy => ?_)
    exact Ends.ok ⟨hy.paths, hy.neighbors⟩

/-- A packet forwarded on a live entry brings nothing back. -/
theorem forward (h : x.Severed id) (env : Env) (d : NsAddr) (p : Packet) (delay : ℚ) :
    Ends (Severed id) (x.forward env (some d) p delay) := by
  unfold Exec.forward
  split
  · exact Ends.ok ⟨h.paths, h.neighbors⟩
  split
  · exact Ends.ok ⟨h.paths, h.neighbors⟩
  simp only
  unfold Exec.forwardRoute
  split
  · exact Ends.error _
  rename_i rt hrt
  split
  · exact Ends.error _
  rename_i hup
  split
  · exact Ends.error _
  rename_i path hpath
  have hne : path.nexthop ≠ id :=
    h.paths rt (mem_of_rtLookup hrt) (not_not.1 hup) path (List.mem_of_head? hpath)
  have h₁ : ((x.rtModify d (fun rt => rt.pcInsert p.prevHop)).nbEnsure env path.nexthop).Severed id := by
    refine Severed.nbEnsure (h.rtModify d (fun e hup => ?_)) env hne
    unfold RtEntry.pcInsert at hup ⊢
    split
    · rename_i hin
      rw [if_pos hin] at hup
      exact ⟨hup, fun path hp => ⟨path, hp, rfl⟩⟩
    · rename_i hin
      rw [if_neg hin] at hup
      exact ⟨hup, fun path hp => ⟨path, hp, rfl⟩⟩
  simp only
  split
  · split
    · exact (h₁.modifyFind d (fun _ => by rfl)).forwardDistrust env d path _
    · exact (h₁.modifyFind d (fun _ => by rfl)).forwardSend env d _ delay
  · exact h₁.forwardSend env d _ delay

theorem salvage (h : x.Severed id) (env : Env) (p : Packet) : Ends (Severed id) (x.salvage env p) := by
  unfold Exec.salvage
  simp only
  split
  · exact Ends.ok ⟨h.paths, h.neighbors⟩
  split
  · exact forward (x := x.say (.filter p)) ⟨h.paths, h.neighbors⟩ env p.daddr _ _
  · exact Ends.ok ⟨h.paths, h.neighbors⟩

theorem of_linkFailed (hcut : ∀ e ∈ x.rtable, (e.cut env.inf id').rtFlags = .up →
      ∀ path ∈ (e.cut env.inf id').rtPathList, path.nexthop ≠ id) (hnb : ∀ nb ∈ x.nbhead, nb.nbAddr ≠ id) :
    (x.linkFailed env id').Severed id := by
  constructor
  · intro e he hup path hp
    rw [rtable_linkFailed] at he
    obtain ⟨e₀, he₀, rfl⟩ := List.mem_map.1 he
    exact hcut e₀ he₀ hup path hp
  · rw [nbhead_linkFailed]
    exact hnb

/-- A link failure brings nothing back. -/
theorem linkFailed (h : x.Severed id) (hx : x.toAgent.Rep) (env : Env) (id' : NsAddr) :
    (x.linkFailed env id').Severed id := by
  refine of_linkFailed (fun e he hup path hp => ?_) h.neighbors
  have hc := RtEntry.cut_cutOff (hx.entries e he) env.inf id'
  rw [hc.kept] at hp
  have hp := List.mem_of_mem_filter hp
  exact h.paths e he ((hx.entries e he).up.2 (List.ne_nil_of_mem hp)) path hp

end Severed

section Delete

variable {ifq : NsAddr → List Packet}

/-- `nb_delete` up to the salvaging: the neighbour gone, the link failed. -/
theorem nbDelete_eq_ok (hx : x.toAgent.Rep) (h : x.nbDelete env ifq id' = .ok y) :
    ∃ z : Exec, z.toAgent.Rep ∧ z.rtable = x.rtable ∧ z.nbhead = x.nbhead.eraseP (fun nb => nb.nbAddr = id') ∧
      z.hereAddr = x.hereAddr ∧ (z.linkFailed env id').toAgent.Rep ∧
      (ifq id').foldlM (Exec.salvage env) (z.linkFailed env id') = .ok y := by
  unfold nbDelete at h
  simp only at h
  split at h
  · cases h
  obtain ⟨w, hw, h⟩ := Fallible.bind_eq_ok h
  have hz : ({ x with seqno := u32 (x.seqno + 2), nbhead := x.nbhead.eraseP (fun nb => nb.nbAddr = id') } : Exec).toAgent.Rep :=
    ⟨hx.dsts, hx.entries, Keyed.nodup_eraseP hx.nbs, hx.ids, hx.room⟩
  have hrep : w.toAgent.Rep := rep_of_trace (handleLinkFailure_trace rfl _ id') hz w hw
  obtain ⟨rfl, -⟩ := (handleLinkFailure_outcome hz).ends w hw
  exact ⟨_, hz, rfl, rfl, rfl, hrep, h⟩

theorem nbDelete_rep (hx : x.toAgent.Rep) (id' : NsAddr) : Ends (fun y => y.toAgent.Rep) (x.nbDelete env ifq id') :=
  rep_of_trace (nbDelete_trace rfl ifq x id') hx

/-- **`nb_delete` severs the neighbour**, whatever it salvages on the way. -/
theorem nbDelete_severs (hx : x.toAgent.Rep) (id : NsAddr) : Ends (Severed id) (x.nbDelete env ifq id) := by
  intro y hy
  obtain ⟨z, hz, -, hnb, -, -, hy⟩ := nbDelete_eq_ok hx hy
  refine Ends.foldlM (Q := Severed id) (fun w p _ hw => hw.salvage env p) ?_ y hy
  refine Severed.of_linkFailed (fun e he => (RtEntry.cut_cutOff (hz.entries e he) env.inf id).clear) (fun nb hm => ?_)
  rw [hnb] at hm
  exact Keyed.key_ne_of_mem_eraseP Neighbor.nbAddr hx.nbs hm

theorem Severed.nbDelete (h : x.Severed id) (hx : x.toAgent.Rep) (id' : NsAddr) :
    Ends (Severed id) (x.nbDelete env ifq id') := by
  intro y hy
  obtain ⟨z, hz, hrt, hnb, -, -, hy⟩ := nbDelete_eq_ok hx hy
  have hs : z.Severed id :=
    ⟨by rw [hrt]; exact h.paths, by rw [hnb]; exact fun nb hm => h.neighbors nb (List.mem_of_mem_eraseP hm)⟩
  exact Ends.foldlM (Q := Severed id) (fun w p _ hw => hw.salvage env p) (hs.linkFailed hz env id') y hy

/-- **`nb_purge` severs every neighbour it removes.** -/
theorem nbPurge_severs (hx : x.toAgent.Rep) :
    Ends (fun y => ∀ nb ∈ x.nbhead, nb.nbExpire ≤ env.now → y.Severed nb.nbAddr) (x.nbPurge env ifq) := by
  have walk : ∀ (nbs : List Neighbor) (gone : List NsAddr) (y : Exec), y.toAgent.Rep → (∀ a ∈ gone, y.Severed a) →
      Ends (fun z => (∀ a ∈ gone, z.Severed a) ∧ ∀ nb ∈ nbs, nb.nbExpire ≤ env.now → z.Severed nb.nbAddr)
        (nbs.foldlM (fun x nb => if nb.nbExpire ≤ env.now then x.nbDelete env ifq nb.nbAddr else .ok x) y) := by
    intro nbs
    induction nbs with
    | nil => exact fun gone y _ hg => Ends.ok ⟨hg, fun _ h => (nomatch h)⟩
    | cons nb nbs ih =>
      intro gone y hy hg
      rw [List.foldlM_cons]
      by_cases hexp : nb.nbExpire ≤ env.now
      · rw [if_pos hexp]
        refine Ends.bind (P := fun z => z.toAgent.Rep ∧ ∀ a ∈ nb.nbAddr :: gone, z.Severed a) (fun z hz => ?_) ?_
        · refine ⟨nbDelete_rep hy nb.nbAddr z hz, fun a ha => ?_⟩
          rcases List.mem_cons.1 ha with rfl | ha
          · exact nbDelete_severs hy nb.nbAddr z hz
          · exact (hg a ha).nbDelete hy nb.nbAddr z hz
        · rintro z ⟨hz, hgz⟩
          refine (ih _ z hz hgz).mono (fun w hw => ⟨fun a ha => hw.1 a (List.mem_cons_of_mem _ ha), fun b hb hbe => ?_⟩)
          rcases List.mem_cons.1 hb with rfl | hb
          · exact hw.1 _ List.mem_cons_self
          · exact hw.2 b hb hbe
      · rw [if_neg hexp]
        refine Ends.bind (Ends.ok (Q := fun z => z = y) rfl) (fun z hz => ?_)
        subst hz
        refine (ih gone z hy hg).mono (fun w hw => ⟨hw.1, fun b hb hbe => ?_⟩)
        rcases List.mem_cons.1 hb with rfl | hb
        · exact absurd hbe hexp
        · exact hw.2 b hb hbe
  exact (walk x.nbhead [] x hx (fun _ h => (nomatch h))).mono (fun _ h => h.2)

end Delete

end Exec

/-! ## The report of `recvError` -/

namespace Exec

/-- The loop of `recvError` under way: entries only lose, a live one has the error flag it had, and the slots written
are those of the routes lost. -/
structure Losing (x : Exec) (acc : Exec × List (NsAddr × Nat)) : Prop where
  entries : ∀ d e', acc.1.rtLookup d = some e' → e'.Kept ∧ ∃ e, x.rtLookup d = some e ∧
    (e'.rtPathList ≠ [] → e.rtPathList ≠ [] ∧ e'.rtError = e.rtError)
  nodup : (acc.2.map Prod.fst).Nodup
  slots : ∀ d n, (d, n) ∈ acc.2 ↔ LostRoute x acc.1 d n

variable {env : Env} {x y : Exec} {d : NsAddr} {e e' : RtEntry} {re : List (NsAddr × Nat)}

/-- The routes lost once a live entry is written. -/
theorem lostRoute_put {e₀ : RtEntry} (he₀ : x.rtLookup d = some e₀) (hne₀ : e₀.rtPathList ≠ [])
    (herr₀ : e.rtError = e₀.rtError) (he : y.rtLookup d = some e) (hd : e'.rtDst = d) (d' : NsAddr) (n : Nat) :
    LostRoute x (y.put d e') d' n ↔
      (d' ≠ d ∧ LostRoute x y d' n) ∨ (d' = d ∧ e'.rtPathList = [] ∧ e.rtError = true ∧ e'.rtSeqno = n) := by
  unfold LostRoute
  by_cases hdd : d' = d
  · subst hdd
    rw [rtLookup_put he hd, he₀]
    simp [hne₀, herr₀]
  · rw [rtLookup_put_ne hd hdd]
    simp [hdd]

/-- A live entry loses a path; its slot is written if it was the last, and the entry to be reported. -/
theorem Losing.put (h : Losing x (y, re)) (he : y.rtLookup d = some e) (hne : e.rtPathList ≠ []) (hd : e'.rtDst = d)
    (hk : e'.Kept) (herr : e'.rtPathList ≠ [] → e'.rtError = e.rtError) :
    Losing x (y.put d e', re ++ if e'.rtPathList = [] ∧ e.rtError = true then [(d, e'.rtSeqno)] else []) := by
  obtain ⟨-, e₀, he₀, hlive⟩ := h.entries d e he
  obtain ⟨hne₀, herr₀⟩ := hlive hne
  have hnew : ∀ n, (d, n) ∉ re := by
    intro n hm
    obtain ⟨_, e₁, _, he₁, _, hnil, _⟩ := (h.slots d n).1 hm
    obtain rfl := Option.some.inj (he.symm.trans he₁)
    exact hne hnil
  refine ⟨fun d' e₁ he₁ => ?_, ?_, fun d' n => ?_⟩
  · by_cases hdd : d' = d
    · subst hdd
      dsimp only at he₁
      rw [rtLookup_put he hd] at he₁
      obtain rfl := Option.some.inj he₁
      exact ⟨hk, e₀, he₀, fun hne' => ⟨hne₀, (herr hne').trans herr₀⟩⟩
    · dsimp only at he₁
      rw [rtLookup_put_ne hd hdd] at he₁
      exact h.entries d' e₁ he₁
  · split
    · rw [List.map_append]
      refine List.nodup_append.2 ⟨h.nodup, by simp, fun a ha b hb hab => ?_⟩
      obtain ⟨s, hs, rfl⟩ := List.mem_map.1 ha
      rw [List.map_singleton, List.mem_singleton] at hb
      refine hnew s.2 ?_
      rw [← (hab.trans hb : s.1 = d)]
      exact hs
    · rw [List.append_nil]
      exact h.nodup
  · rw [lostRoute_put he₀ hne₀ herr₀ he hd, List.mem_append, h.slots]
    by_cases hdd : d' = d
    · subst hdd
      have hno : ¬ LostRoute x y d' n := fun hl => hnew n ((h.slots d' n).2 hl)
      split
      · rename_i hc
        simp [hno, hc.1, hc.2, eq_comm]
      · rename_i hc
        have : ¬ (e'.rtPathList = [] ∧ e.rtError = true ∧ e'.rtSeqno = n) := fun h => hc ⟨h.1, h.2.1⟩
        simp [hno, this]
    · have hns : (d', n) ∉ (if e'.rtPathList = [] ∧ e.rtError = true then [(d, e'.rtSeqno)] else []) := by
        split
        · simp [hdd]
        · exact List.not_mem_nil
      simp [hdd, hns]

/-- An entry that lost a path to a report of number `n`. -/
theorem kept_lost (hk : e.Kept) (hup : e.rtFlags = .up) (id : NsAddr) (n inf : Nat) :
    ((e.pathDelete id).rtPathList ≠ [] → ((e.pathDelete id).setHighestSeqnoHeard n).Kept) ∧
      (((((e.pathDelete id).setHighestSeqnoHeard n).setSeqno n).rtDown inf).setError false).Kept ∧
      ((((e.pathDelete id).setHighestSeqnoHeard n).setSeqno n).rtDown inf).rtPathList = [] := by
  have hroute := RtEntry.route_reported hup id inf n
  generalize hfall : (((e.pathDelete id).setHighestSeqnoHeard n).setSeqno n).rtDown inf = e₁ at hroute
  have hnil : e₁.rtPathList = [] := List.map_eq_nil_iff.1 (congrArg Route.hops hroute)
  have hnum : e₁.rtNumPaths = 0 := congrArg Route.num hroute
  have hdown : e₁.rtFlags ≠ .up := fun h => nomatch (congrArg Route.flags hroute).symm.trans h
  refine ⟨fun hne => ⟨RtEntry.num_pathDelete hk.1, ?_⟩, ⟨?_, ?_⟩, hnil⟩
  · show (e.pathDelete id).rtFlags = .up ↔ _
    rw [rtFlags_pathDelete]
    exact ⟨fun _ => hne, fun _ => hup⟩
  · show e₁.rtNumPaths = e₁.rtPathList.length
    rw [hnum, hnil]
    rfl
  · show e₁.rtFlags = .up ↔ e₁.rtPathList ≠ []
    exact ⟨fun h => absurd h hdown, fun h => absurd hnil h⟩

theorem errorSlot_losing {saddr : NsAddr} {slot : NsAddr × Nat} (h : Losing x (y, re)) :
    Outcome (fun acc => Losing x acc ∧ acc.2.length ≤ re.length + 1) (fun f => f = .assertion .recvErrorEven)
      (errorSlot env saddr (y, re) slot) := by
  have hsame : Losing x (y, re) ∧ re.length ≤ re.length + 1 := ⟨h, Nat.le_succ _⟩
  unfold errorSlot
  simp only
  cases he : y.rtLookup slot.1 with
  | none => exact hsame
  | some e =>
    simp only
    split
    swap
    · exact hsame
    rename_i hcond
    obtain ⟨hup, hpath, -⟩ := hcond
    split
    · exact rfl
    obtain ⟨hk, -⟩ := h.entries _ e he
    have hd := rtDst_of_rtLookup he
    have hne : e.rtPathList ≠ [] := hk.2.1 hup
    generalize max e.rtHighestSeqnoHeard slot.2 = n
    obtain ⟨hk₁, hk₂, hnil₂⟩ := kept_lost hk hup saddr n env.inf
    have hd₁ : ((e.pathDelete saddr).setHighestSeqnoHeard n).rtDst = slot.1 := (rtDst_pathDelete e saddr).trans hd
    have hroute := RtEntry.route_reported hup saddr env.inf n
    unfold downIfEmpty
    rw [rtModify_eq_put he, pathEmpty_of_num (RtEntry.num_pathDelete hk.1), put_rtModify he hd₁]
    simp only [Fallible.ok_bind, List.isEmpty_iff]
    generalize (((e.pathDelete saddr).setHighestSeqnoHeard n).setSeqno n).rtDown env.inf = e₁ at hk₂ hnil₂ hroute ⊢
    have hd₂ : e₁.rtDst = slot.1 := (congrArg Route.dst hroute).trans hd
    by_cases hnil : (e.pathDelete saddr).rtPathList = []
    · rw [if_pos hnil]
      by_cases herr : e.rtError = true
      · have hd₃ : (e₁.setError false).rtDst = slot.1 := hd₂
        have hseq : (e₁.setError false).rtSeqno = n := congrArg Route.seqno hroute
        have hput := h.put he hne hd₃ hk₂ (fun hne' => absurd hnil₂ hne')
        rw [if_pos ⟨hnil₂, herr⟩, hseq] at hput
        rw [if_pos ⟨hnil, herr⟩, put_rtModify he hd₂]
        exact ⟨hput, by simp⟩
      · have hput := h.put he hne hd₂ hk₂ (fun hne' => absurd hnil₂ hne')
        rw [if_neg (fun hc => herr hc.2), List.append_nil] at hput
        rw [if_neg (fun hc => herr hc.2)]
        exact ⟨hput, Nat.le_succ _⟩
    · have hput := h.put he hne hd₁ (hk₁ hnil) (fun _ => RtEntry.rtError_pathDelete e saddr)
      rw [if_neg (fun hc => hnil hc.1), List.append_nil] at hput
      rw [if_neg (fun hc => hnil hc.1), if_neg hnil]
      exact ⟨hput, Nat.le_succ _⟩

/-- **A RERR of at most `TEAOMDV_MAX_ERRORS` slots** is answered within the array, with every route lost. -/
theorem recvError_outcome (hx : x.toAgent.Rep) (p : Packet) {re : Rerr} (hre : re.unreachable.length ≤ teaomdvMaxErrors) :
    Outcome (Reported x) (fun f => f = .assertion .recvErrorEven) (x.recvError env p re) := by
  unfold recvError
  simp only
  rw [if_neg (Nat.not_lt.2 hre)]
  have hstart : Losing x (x.alloc, []) := by
    refine ⟨fun d e he => ?_, List.nodup_nil, fun d n => ⟨fun h => (nomatch h), ?_⟩⟩
    · have hr := hx.entries e (mem_of_rtLookup (x := x) he)
      exact ⟨⟨hr.num, hr.up⟩, e, he, fun h => ⟨h, rfl⟩⟩
    · rintro ⟨e, e', he, he', hne, hnil, -⟩
      obtain rfl := Option.some.inj (he.symm.trans he')
      exact absurd hnil hne
  have hwalk : Outcome (fun acc => Losing x acc ∧ acc.2.length ≤ ([] ++ re.unreachable).length)
      (fun f => f = .assertion .recvErrorEven) ((re.unreachable.map id).foldlM (errorSlot env p.saddr) (x.alloc, [])) := by
    refine Outcome.walk (I := fun done _ acc => Losing x acc ∧ acc.2.length ≤ done.length) id ?_ ⟨hstart, Nat.le_refl 0⟩
    intro done slot rest acc h
    refine (errorSlot_losing h.1).mono (fun acc' h' => ⟨h'.1, ?_⟩) (fun _ h => h)
    rw [List.length_append, List.length_singleton]
    exact h'.2.trans (Nat.succ_le_succ h.2)
  have hlog : Ends (fun acc => acc.1.log = x.alloc.log) (re.unreachable.foldlM (errorSlot env p.saddr) (x.alloc, [])) :=
    Ends.foldlM (fun acc slot _ h => (errorSlot_log p.saddr acc slot).mono (fun _ h' => h'.trans h)) rfl
  rw [List.map_id] at hwalk
  refine Outcome.bind (hwalk.and_ends hlog) (fun acc h => ?_)
  obtain ⟨y, nre⟩ := acc
  obtain ⟨⟨hlose, hlen⟩, hlog⟩ := h
  have hsent : y.sent = x.sent := (congrArg (List.filterMap _) hlog).trans (sent_alloc x)
  have htable : ∀ d, ((if nre.length > 0 then y.sendError x.blank ⟨nre⟩ true else y.free x.blank).free p).rtLookup d =
      y.rtLookup d := by
    intro d
    split <;> rfl
  refine ⟨nre, hlen.trans hre, hlose.nodup, fun d n => ?_, fun hnil => ?_, fun hne => ?_⟩
  · rw [hlose.slots]
    unfold LostRoute
    rw [htable]
  · simp only [hnil]
    rw [if_neg (by simp), sent_free, sent_free]
    exact hsent
  · simp only
    rw [if_pos (List.length_pos_iff.2 hne), sent_free]
    unfold sendError
    rw [sent_schedule]
    exact ⟨_, congrArg (· ++ _) hsent, rfl, rfl⟩

end Exec

namespace Agent

variable {self : NsAddr} {a : Agent}

/-- **Link-failure handling is exact.** -/
theorem linkFailure_exact (ha : Reach self a) (env : Env) (heap : Nat) (id : NsAddr) :
    ((a.rtable.filter (·.reports id)).length ≤ teaomdvMaxErrors →
      Outcome (fun y => List.Forall₂ (RtEntry.CutOff id) a.rtable y.rtable ∧ (a.exec heap).Reported y)
        (fun f => f = .assertion .handleLinkFailureEven ∧ ∃ e ∈ a.rtable, e.stops id = true)
        ((a.exec heap).handleLinkFailure env id)) ∧
    (∀ ifq, Ends (Exec.Severed id) ((a.exec heap).nbDelete env ifq id)) ∧
    ∀ ifq, Ends (fun y => ∀ nb ∈ a.nbhead, nb.nbExpire ≤ env.now → y.Severed nb.nbAddr)
      ((a.exec heap).nbPurge env ifq) := by
  have hrep : (a.exec heap).toAgent.Rep := (tidy_of_reach ha).rep
  refine ⟨fun hroom => ?_, fun ifq => Exec.nbDelete_severs hrep id, fun ifq => Exec.nbPurge_severs hrep⟩
  refine (Exec.handleLinkFailure_outcome hrep).mono ?_ ?_
  · rintro y ⟨rfl, -, hslots⟩
    refine ⟨?_, Exec.linkFailed_reported hrep hslots⟩
    rw [Exec.rtable_linkFailed]
    exact List.forall₂_map_right_iff.2
      (List.forall₂_same.2 (fun e he => RtEntry.cut_cutOff (hrep.entries e he) env.inf id))
  · rintro f (⟨rfl, hstop, -⟩ | ⟨-, hover⟩)
    · exact ⟨rfl, hstop⟩
    · have hsub : (Exec.slots env.inf id (Exec.ahead id a.rtable)).length ≤ (a.rtable.filter (·.reports id)).length := by
        unfold Exec.slots
        rw [List.length_map]
        exact (((List.takeWhile_prefix _).sublist).filter _).length_le
      exact absurd hover (Nat.not_lt.2 (hsub.trans hroom))

/-- **Route errors stay within the packet exactly when no more than `TEAOMDV_MAX_ERRORS` slots are due** ahead of an
entry that stops the walk; those of `recvError` always do. -/
theorem routeError_room (ha : Reach self a) (env : Env) (heap : Nat) :
    (∀ id, Outcome (a.exec heap).Reported (fun f => f ≠ .overrun) ((a.exec heap).handleLinkFailure env id) ↔
      ((Exec.ahead id a.rtable).filter (·.reports id)).length ≤ teaomdvMaxErrors) ∧
    ∀ (p : Packet) (re : Rerr), re.unreachable.length ≤ teaomdvMaxErrors →
      Outcome (a.exec heap).Reported (fun f => f ≠ .overrun) ((a.exec heap).recvError env p re) := by
  have hrep : (a.exec heap).toAgent.Rep := (tidy_of_reach ha).rep
  refine ⟨fun id => ?_, fun p re hre => ?_⟩
  · have hlen : ∀ l : List RtEntry, (Exec.slots env.inf id l).length = (l.filter (·.reports id)).length :=
      fun l => List.length_map _
    have hout : Outcome _ _ ((a.exec heap).handleLinkFailure env id) := Exec.handleLinkFailure_outcome hrep
    cases hm : (a.exec heap).handleLinkFailure env id with
    | ok y =>
      rw [hm] at hout
      obtain ⟨rfl, heven, hslots⟩ := hout
      have hall : Exec.ahead id a.rtable = a.rtable :=
        List.takeWhile_eq_self_iff.2 (fun e he => by rw [heven e he]; rfl)
      refine iff_of_true (Exec.linkFailed_reported hrep hslots) ?_
      rw [hall, ← hlen]
      exact hslots
    | error f =>
      rw [hm] at hout
      rcases hout with ⟨rfl, -, hslots⟩ | ⟨rfl, hslots⟩
      · exact iff_of_true (fun h => nomatch h) (by rw [← hlen]; exact hslots)
      · exact iff_of_false (fun h => h rfl) (by rw [← hlen]; exact Nat.not_le.2 hslots)
  · refine (Exec.recvError_outcome hrep p hre).mono (fun _ h => h) ?_
    rintro f rfl
    exact fun h => nomatch h

/-- A request from `src` for `dst`, heard from the neighbour `saddr`. -/
def requestHeard (saddr src dst : NsAddr) : Call :=
  ⟨{ inf := 65535, now := 1 }, 1, .recv {
    ptr := 0, saddr := saddr, daddr := ipBroadcast, sport := rtPort, dport := rtPort, ttl := 20, prevHop := saddr
    body := .rreq ⟨1, 7, dst, 0, src, 4, 0, saddr, trustThreshold, 1, 1⟩ }⟩

/-- Two paths to 1, one of them through 2; one path to 7, through 2, and to 8, through 3; 1 and 7 were answered for. -/
def requestsHeard : List Call := [requestHeard 2 1 9, requestHeard 3 1 9, requestHeard 2 7 1, requestHeard 3 8 7]

theorem linkFailure_exact_requestsHeard : ∃ a, Runs.replay call requestsHeard (new 5) = some a ∧
    ∃ y, (a.exec 20).handleLinkFailure { inf := 65535, now := 2 } 2 = .ok y ∧
      List.Forall₂ (RtEntry.CutOff 2) a.rtable y.rtable ∧ (a.exec 20).Reported y := by
  obtain ⟨a, ha, hr, hfin⟩ := Runs.Reaches.of_obeys (fun _ _ => true)
    (fun a : Agent => decide ((a.rtable.filter (·.reports 2)).length = 1 ∧ a.rtable.length = 3 ∧
      a.rtable.all (fun e => !e.stops 2) = true))
    (fun _ _ _ => trivial) requestsHeard (.init : Reach 5 (new 5)) (by decide +kernel)
  obtain ⟨hone, -, heven⟩ := of_decide_eq_true hfin
  have h := (linkFailure_exact hr { inf := 65535, now := 2 } 20 2).1 (by rw [hone]; decide)
  refine ⟨a, ha, ?_⟩
  cases hm : (a.exec 20).handleLinkFailure { inf := 65535, now := 2 } 2 with
  | ok y =>
    rw [hm] at h
    exact ⟨y, rfl, h⟩
  | error f =>
    rw [hm] at h
    obtain ⟨-, e, he, hstop⟩ := h
    have := List.all_eq_true.1 heven e he
    rw [hstop] at this
    cases this

theorem routeError_room_requestsHeard : ∃ a, Runs.replay call requestsHeard (new 5) = some a ∧
    Outcome (a.exec 20).Reported (fun f => f ≠ .overrun) ((a.exec 20).handleLinkFailure { inf := 65535, now := 2 } 2) := by
  obtain ⟨a, ha, hr, hfin⟩ := Runs.Reaches.of_obeys (fun _ _ => true)
    (fun a : Agent => decide (((Exec.ahead 2 a.rtable).filter (·.reports 2)).length = 1))
    (fun _ _ _ => trivial) requestsHeard (.init : Reach 5 (new 5)) (by decide +kernel)
  exact ⟨a, ha, ((routeError_room hr { inf := 65535, now := 2 } 20).1 2).2 (by rw [of_decide_eq_true hfin]; decide)⟩

/-- A hello from 2, and a hundred and two requests through it, each for the source of the one before. -/
def manyHeard : List Call :=
  ⟨{ inf := 65535, now := 1 }, 1, .recv {
    ptr := 0, saddr := 2, daddr := ipBroadcast, sport := rtPort, dport := rtPort, ttl := 1, prevHop := 2
    body := .hello ⟨0, 2, 2, 0, 8, 0, 0, 0, 0, 0, 0⟩ }⟩ ::
  (List.range 102).map (fun k => requestHeard 2 (1000 + k) (999 + k))

/-- **The neighbour they came through falls silent, and its RERR is written past its array.** -/
theorem overrun_manyHeard : ∃ a, Runs.replay call manyHeard (new 5) = some a ∧ Reach 5 a ∧
    (a.exec 300).handle { inf := 65535, now := 8 } (.timer (.neighbor fun _ => [])) = .error .overrun ∧
    (a.exec 300).handleLinkFailure { inf := 65535, now := 8 } 2 = .error .overrun := by
  obtain ⟨a, ha, hr, hfin⟩ := Runs.Reaches.of_obeys (fun _ _ => true)
    (fun a : Agent => decide (Fallible.failure ((a.exec 300).handle { inf := 65535, now := 8 }
        (.timer (.neighbor fun _ => []))) = some .overrun ∧
      Fallible.failure ((a.exec 300).handleLinkFailure { inf := 65535, now := 8 } 2) = some .overrun))
    (fun _ _ _ => trivial) manyHeard (.init : Reach 5 (new 5)) (by decide +kernel)
  obtain ⟨h1, h2⟩ := of_decide_eq_true hfin
  exact ⟨a, ha, hr, Fallible.failure_eq_some.1 h1, Fallible.failure_eq_some.1 h2⟩

end Agent

end TeAomdv

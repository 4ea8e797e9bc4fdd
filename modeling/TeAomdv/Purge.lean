import TeAomdv.Fresher
/-!
# Purge — what `rt_purge` leaves of a table

No entry is ever given an expiry (`Quest.Kept.expire`), so `rt_purge` takes its first branch on every entry that is up:
paths whose time has passed are deleted, and an entry left with none is brought down.  The walk purges the table cell by
cell (`Exec.Purging`); what it buffers and asks for on the way does not disturb it.
-/
namespace TeAomdv

open Fallible (Ends Outcome)

/-! ## One entry -/

/-- The number of an entry left with no path is odd and at least the highest heard, and larger unless it wraps. -/
theorem Route.expiredSeqno_spec {r : Route} (hhigh : r.highest < 2 ^ 32) :
    r.expiredSeqno % 2 = 1 ∧ r.highest ≤ r.expiredSeqno ∧ (r.seqno + 1 < 2 ^ 32 → r.seqno < r.expiredSeqno) := by
  unfold Route.expiredSeqno Route.failedSeqno u32
  split <;> omega

namespace RtEntry

/-- What `rt_purge` at time `now` makes of an entry, with these packets still buffered. -/
structure Purged (now : ℚ) (queue : List Packet) (e e' : RtEntry) : Prop where
  dst : e'.rtDst = e.rtDst
  live : e.rtFlags = .up → e'.rtPathList = e.rtPathList.filter (fun f => now ≤ f.expire)
  up : e.rtFlags = .up → (e'.rtFlags = .up ↔ e'.rtPathList ≠ [])
  dead : e.rtFlags = .up → e'.rtPathList = [] → e'.rtFlags = .down ∧ (∀ q ∈ queue, q.daddr ≠ e.rtDst) ∧
    (e.rtHighestSeqnoHeard < 2 ^ 32 → e'.rtSeqno % 2 = 1 ∧ e.rtHighestSeqnoHeard ≤ e'.rtSeqno ∧
      (e.rtSeqno + 1 < 2 ^ 32 → e.rtSeqno < e'.rtSeqno))
  down : e.rtFlags ≠ .up → e'.rtFlags = e.rtFlags ∧ e'.rtPathList = e.rtPathList

variable {now : ℚ} {queue queue' : List Packet} {e e' : RtEntry}

theorem Purged.of_queue (h : e.Purged now queue e') (hq : ∀ q ∈ queue', q ∈ queue) : e.Purged now queue' e' where
  dst := h.dst
  live := h.live
  up := h.up
  dead := fun hup hnil => ⟨(h.dead hup hnil).1, fun q hm => (h.dead hup hnil).2.1 q (hq q hm), (h.dead hup hnil).2.2⟩
  down := h.down

theorem rtPathList_pathPurge (e : RtEntry) (now : ℚ) :
    (e.pathPurge now).rtPathList = e.rtPathList.filter (fun f => now ≤ f.expire) := by
  show Keyed.eraseAll (fun f : Path => f.expire < now) e.rtPathList = _
  rw [Keyed.eraseAll_eq_filter]
  refine List.filter_congr (fun f _ => ?_)
  simp [← not_lt]

theorem num_pathPurge (h : e.rtNumPaths = e.rtPathList.length) (now : ℚ) :
    (e.pathPurge now).rtNumPaths = (e.pathPurge now).rtPathList.length := by
  have hle : (e.pathPurge now).rtPathList.length ≤ e.rtPathList.length := by
    rw [rtPathList_pathPurge]
    exact List.length_filter_le _ _
  show e.rtNumPaths - (e.rtPathList.length - (e.pathPurge now).rtPathList.length : Nat) = _
  omega

/-- A path is left. -/
theorem purged_pathPurge (hup : e.rtFlags = .up) (hne : (e.pathPurge now).rtPathList ≠ []) :
    e.Purged now queue (e.pathPurge now) where
  dst := rfl
  live := fun _ => rtPathList_pathPurge e now
  up := fun _ => ⟨fun _ => hne, fun _ => hup⟩
  dead := fun _ hnil => absurd hnil hne
  down := fun h => absurd hup h

/-- No path is left. -/
theorem purged_expired (inf : Nat) (hup : e.rtFlags = .up) (hnil : (e.pathPurge now).rtPathList = [])
    (hq : ∀ q ∈ queue, q.daddr ≠ e.rtDst) : e.Purged now queue (Exec.expired inf (e.pathPurge now)) := by
  have hroute := route_expired (e := e.pathPurge now) (by rw [show (e.pathPurge now).rtFlags = .up from hup]; nofun) inf
  have hgone : (Exec.expired inf (e.pathPurge now)).rtPathList = [] := List.map_eq_nil_iff.1 (congrArg Route.hops hroute)
  have hdown : (Exec.expired inf (e.pathPurge now)).rtFlags = .down := congrArg Route.flags hroute
  have hseqno : (Exec.expired inf (e.pathPurge now)).rtSeqno = (e.pathPurge now).route.expiredSeqno := congrArg Route.seqno hroute
  refine ⟨congrArg Route.dst hroute, fun _ => ?_, fun _ => ?_, fun _ _ => ⟨hdown, hq, fun hhigh => ?_⟩, fun h => absurd hup h⟩
  · rw [hgone, ← rtPathList_pathPurge, hnil]
  · rw [hdown, hgone]
    exact ⟨nofun, fun h => absurd rfl h⟩
  · rw [hseqno]
    exact Route.expiredSeqno_spec (r := (e.pathPurge now).route) hhigh

/-- An entry that is not up keeps its flag and its paths, whatever is asked for it. -/
theorem purged_sought (env : Env) (hup : e.rtFlags ≠ .up) : e.Purged now queue (e.sought env) where
  dst := Exec.rtDst_sought env e
  live := fun h => absurd h hup
  up := fun h => absurd h hup
  dead := fun h => absurd h hup
  down := by
    unfold RtEntry.sought
    split <;> exact fun _ => ⟨rfl, rfl⟩

theorem purged_self (hup : e.rtFlags ≠ .up) : e.Purged now queue e where
  dst := rfl
  live := fun h => absurd h hup
  up := fun h => absurd h hup
  dead := fun h => absurd h hup
  down := fun _ => ⟨rfl, rfl⟩

theorem map_rtDst_purged {l l' : List RtEntry} (h : List.Forall₂ (Purged now queue) l l') :
    l'.map (·.rtDst) = l.map (·.rtDst) := by
  induction h with
  | nil => rfl
  | cons h _ ih => rw [List.map_cons, List.map_cons, h.dst, ih]

end RtEntry

namespace Exec

variable {env : Env} {x y : Exec} {d : NsAddr} {rt : RtEntry}

/-! ## The walk -/

/-- `sendRequest` comes to its end for an entry that is not up, as long as the node's own number is even. -/
theorem sendRequest_returns (env : Env) (he : x.rtLookup d = some rt) (hup : rt.rtFlags ≠ .up) (heven : x.seqno % 2 = 0) :
    ∃ y, x.sendRequest env d = .ok y := by
  have he' : x.alloc.rtLookup d = some rt := he
  unfold sendRequest
  simp only [he', if_neg hup]
  split
  · exact ⟨_, rfl⟩
  split
  · obtain ⟨z, hz, -⟩ := drain_drops env (x.alloc.rtModify d (fun rt =>
      { rt with rtReqTimeout := env.now + maxRreqTimeout, rtReqCnt := 0 })) d .rtrNoRoute
    exact ⟨z.free x.blank, by rw [hz]; rfl⟩
  · have hbump : u32 (x.seqno + 2) % 2 = 0 := by
      unfold u32
      omega
    unfold emitRequest
    exact ⟨_, if_neg (show ¬ u32 (x.seqno + 2) % 2 ≠ 0 from not_not.2 hbump)⟩

theorem Sought.rqueue (h : Sought env d rt x y) : ∀ q ∈ y.rqueue, q ∈ x.rqueue := by
  have hq := h.queue
  split at hq
  · exact fun q hm => (hq q hm).1
  · exact fun q hm => hq ▸ hm

theorem Sought.even (h : Sought env d rt x y) (heven : x.seqno % 2 = 0) : y.seqno % 2 = 0 := by
  rw [h.seqno]
  unfold u32
  split <;> omega

/-- The walk with these entries of the table behind it and those before it. -/
structure Purging (env : Env) (x : Exec) (done rest : List RtEntry) (acc : Exec × ℚ) : Prop where
  table : x.rtable = done ++ rest
  purged : ∃ done', acc.1.rtable = done' ++ rest ∧ List.Forall₂ (RtEntry.Purged env.now acc.1.rqueue) done done'
  even : acc.1.seqno % 2 = 0

/-- The walk goes on from a state that differs in the entry it is at. -/
theorem Purging.next {done done' rest : List RtEntry} {e e' : RtEntry} {delay : ℚ} (htable : x.rtable = done ++ e :: rest)
    (hfor : List.Forall₂ (RtEntry.Purged env.now y.rqueue) done done') (he : e.Purged env.now y.rqueue e')
    (hy : y.rtable = done' ++ e' :: rest) (heven : y.seqno % 2 = 0) : Purging env x (done ++ [e]) rest (y, delay) where
  table := by rw [htable, List.append_assoc]; rfl
  purged := ⟨done' ++ [e'], by rw [hy, List.append_assoc]; rfl, List.rel_append hfor (.cons he .nil)⟩
  even := heven

theorem Purging.purgeEntry (hx : x.toAgent.Rep) (hexpire : ∀ e ∈ x.rtable, e.rtExpire < env.now)
    {done rest : List RtEntry} {e : RtEntry} {acc : Exec × ℚ} (h : Purging env x done (e :: rest) acc) :
    Outcome (Purging env x (done ++ [e]) rest) (fun _ => False) (purgeEntry env acc e.rtDst) := by
  obtain ⟨y, delay⟩ := acc
  obtain ⟨htable, ⟨done', hytable, hfor⟩, heven⟩ := h
  simp only at hytable hfor heven
  have hmem : e ∈ x.rtable := by rw [htable]; simp
  have hkeys : ((done' ++ e :: rest).map (·.rtDst)).Nodup := by
    have hdsts := hx.dsts
    rw [htable, List.map_append] at hdsts
    rw [List.map_append]
    rwa [RtEntry.map_rtDst_purged hfor]
  have he : y.rtLookup e.rtDst = some e := rtLookup_cell hytable hkeys
  have hput : ∀ e' : RtEntry, (y.put e.rtDst e').rtable = done' ++ e' :: rest := fun e' => by rw [put_cell hytable hkeys]
  have shrink : ∀ {z : Exec}, (∀ q ∈ z.rqueue, q ∈ y.rqueue) → List.Forall₂ (RtEntry.Purged env.now z.rqueue) done done' :=
    fun hq => hfor.imp (fun _ _ h => h.of_queue hq)
  unfold Exec.purgeEntry
  simp only [he]
  by_cases hup : e.rtFlags = .up
  · rw [if_pos ⟨hup, hexpire e hmem⟩, rtModify_eq_put he, pathEmpty_of_num (RtEntry.num_pathPurge (hx.entries e hmem).num _)]
    simp only [Fallible.ok_bind, List.isEmpty_iff]
    by_cases hnil : (e.pathPurge env.now).rtPathList = []
    · rw [if_pos hnil]
      obtain ⟨z, hz, hd⟩ := drain_drops env (y.put e.rtDst (e.pathPurge env.now)) e.rtDst .rtrRtexpire
      rw [hz]
      have hze : z.rtLookup e.rtDst = some (e.pathPurge env.now) :=
        (rtLookup_congr hd.quiet.table _).trans (rtLookup_put he rfl)
      have hztable : (z.put e.rtDst (expired env.inf (e.pathPurge env.now))).rtable =
          done' ++ expired env.inf (e.pathPurge env.now) :: rest := by
        have hzkeys : ((done' ++ e.pathPurge env.now :: rest).map (·.rtDst)).Nodup := by
          rw [List.map_append, List.map_cons] at hkeys ⊢
          exact hkeys
        show (z.put (e.pathPurge env.now).rtDst _).rtable = _
        rw [put_cell (hd.quiet.table.trans (hput _)) hzkeys]
      rw [Fallible.ok_bind, rtModify_eq_put hze]
      exact Purging.next htable (shrink (fun q hq => (hd.queue q hq).1))
        (RtEntry.purged_expired env.inf hup hnil (fun q hq => (hd.queue q hq).2)) hztable (hd.quiet.seqno ▸ heven)
    · rw [if_neg hnil]
      exact Purging.next htable hfor (RtEntry.purged_pathPurge hup hnil) (hput _) heven
  · rw [if_neg (fun h => hup h.1), if_neg hup]
    split
    · obtain ⟨z, hz⟩ := sendRequest_returns env he hup heven
      have hs := sendRequest_sought he z hz
      rw [hz, Fallible.ok_bind]
      exact Purging.next htable (shrink hs.rqueue) (RtEntry.purged_sought env hup) (hs.table.trans (hput _)) (hs.even heven)
    · exact Purging.next htable hfor (RtEntry.purged_self hup) hytable heven

/-- **`rt_purge` purges every entry of the table**, and comes to its end. -/
theorem rtPurge_outcome (hx : x.toAgent.Rep) (hexpire : ∀ e ∈ x.rtable, e.rtExpire < env.now) (heven : x.seqno % 2 = 0) :
    Outcome (fun y => List.Forall₂ (RtEntry.Purged env.now y.rqueue) x.rtable y.rtable) (fun _ => False)
      (x.rtPurge env) := by
  unfold rtPurge
  have hstart : Purging env x [] x.rtable (x, 0) := ⟨rfl, ⟨[], rfl, .nil⟩, heven⟩
  have hwalk := Outcome.walk (I := Purging env x) (F := fun _ => False) RtEntry.rtDst
    (f := purgeEntry env) (fun done e rest acc h => Purging.purgeEntry hx hexpire h) hstart
  refine Outcome.bind hwalk (fun acc h => ?_)
  obtain ⟨-, ⟨done', hy, hfor⟩, -⟩ := h
  rw [List.append_nil] at hy
  show List.Forall₂ (RtEntry.Purged env.now acc.1.rqueue) x.rtable acc.1.rtable
  rw [hy]
  exact hfor

end Exec

namespace Agent

/-- **Purging keeps exactly the live paths**: at any time after the start, `rt_purge` comes to its end on the table of any
reachable node, and every entry that was up holds its live paths and is up with one of them. -/
theorem purge_exact {id : NsAddr} {a : Agent} (h : Reach id a) {env : Env} (hnow : 0 < env.now) (heap : Nat) :
    ∃ y, (a.exec heap).rtPurge env = .ok y ∧ List.Forall₂ (RtEntry.Purged env.now y.rqueue) a.rtable y.rtable := by
  obtain ⟨ws, hws⟩ := walked_of_reach h heap
  have hexpire : ∀ e ∈ a.rtable, e.rtExpire < env.now := by
    intro e he
    have hlook : (a.exec heap).rtLookup e.rtDst = some e := Keyed.find?_of_mem_nodup RtEntry.rtDst (tidy_of_reach h).rep.dsts he
    rw [(kept_of_walked hws hlook).expire]
    exact hnow
  have hend := Exec.rtPurge_outcome (x := a.exec heap) (tidy_of_reach h).rep hexpire (numbered_of_walked hws).1.even
  cases hy : (a.exec heap).rtPurge env with
  | ok y =>
    rw [hy] at hend
    exact ⟨y, rfl, hend⟩
  | error f =>
    rw [hy] at hend
    exact hend.elim

/-- A RREQ of `src` for node 9 comes in from `saddr`. -/
def heardAt (src saddr : NsAddr) (now : ℚ) : Call :=
  ⟨clock now, 1, .recv
    { ptr := 0, saddr := saddr, daddr := ipBroadcast, sport := rtPort, dport := rtPort, ttl := 20, prevHop := saddr
      body := .rreq ⟨1, 7, 9, 0, src, 4, 0, saddr, trustThreshold, 1, 1⟩ }⟩

/-- At time 8 the only path to 4 and one of two to 1 have run out. -/
theorem purge_exact_heardAt : ∃ a, Runs.replay call [heardAt 4 2 1, heardAt 1 2 1, heardAt 1 3 3] (new 5) = some a ∧
    a.rtable.map (fun e => (e.rtDst, e.rtPathList.map (·.expire))) = [(1, [7, 9]), (4, [7])] ∧
    ∃ y, (a.exec 9).rtPurge (clock 8) = .ok y ∧ List.Forall₂ (RtEntry.Purged 8 y.rqueue) a.rtable y.rtable := by
  obtain ⟨a, ha, hr, hfin⟩ := Runs.Reaches.of_obeys (fun _ _ => true)
    (fun a : Agent => decide (a.rtable.map (fun e => (e.rtDst, e.rtPathList.map (·.expire))) = [(1, [7, 9]), (4, [7])]))
    (fun _ _ _ => trivial) [heardAt 4 2 1, heardAt 1 2 1, heardAt 1 3 3] (.init : Reach 5 (new 5)) (by decide +kernel)
  exact ⟨a, ha, of_decide_eq_true hfin, @purge_exact 5 a hr (clock 8) (by decide +kernel) 9⟩

end Agent

end TeAomdv

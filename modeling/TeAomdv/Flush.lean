import TeAomdv.Settle
import TeAomdv.TraceForward
import TeAomdv.Lib.Wear
/-!
# Flush — what sending off the buffered packets does to an entry

Every packet that `forward` tests takes the entry's first path away if it is distrusted, so a run of `flush` wears the
list of paths down; a packet taken out after the last path is gone has no one left to dispose of it (`flush_ok`).
-/
namespace TeAomdv

open Fallible (Ends Outcome ok_bind)

/-- The counter, the list and the flag of an entry agree. -/
def RtEntry.Kept (e : RtEntry) : Prop := e.rtNumPaths = e.rtPathList.length ∧ (e.rtFlags = .up ↔ e.rtPathList ≠ [])

namespace Exec

/-- The packets `deque(d)` will return, in order. -/
def buffered (env : Env) (x : Exec) (d : NsAddr) : List Packet :=
  x.rqueue.filter (fun q => ¬ q.ts < env.now ∧ q.daddr = d)

/-- The path would not pass the trust test of `forward`. -/
def distrusts (x : Exec) (f : Path) : Bool := min f.FPT (x.trustOf f.nexthop) < trustThreshold

/-- A path as the trust test sees it: its next hop, and whether it is distrusted. -/
def mark (x : Exec) (f : Path) : NsAddr × Bool := (f.nexthop, x.distrusts f)

/-- `forward` puts its first path to the trust test for this packet. -/
def tests (x : Exec) (q : Packet) : Bool := q.ttl ≠ 0 ∧ ¬ x.forMe q ∧ q.ptype = .cbr

/-- These packets are enough to take all these paths away. -/
def WearsOut (x : Exec) (paths : List Path) (qs : List Packet) : Prop :=
  (∀ f ∈ paths, x.distrusts f) ∧ paths.length ≤ (qs.filter x.tests).length

instance (x : Exec) (paths : List Path) (qs : List Packet) : Decidable (x.WearsOut paths qs) :=
  inferInstanceAs (Decidable (_ ∧ _))

variable {env : Env} {x y z : Exec} {d d' : NsAddr} {e : RtEntry} {p q : Packet}

/-! ## What stays the same -/

theorem trustOf_eq (x : Exec) (id : NsAddr) : x.trustOf id = ((x.nbLookup id).map (·.tv)).getD 1 := by
  unfold trustOf
  cases x.nbLookup id <;> rfl

theorem nbLookup_nbModify (x : Exec) (id : NsAddr) {f : Neighbor → Neighbor} (ha : ∀ nb, (f nb).nbAddr = nb.nbAddr)
    (id' : NsAddr) : (x.nbModify id f).nbLookup id' = if id' = id then (x.nbLookup id').map f else x.nbLookup id' := by
  by_cases h : id' = id
  · subst h
    rw [if_pos rfl]
    exact Keyed.find?_modifyFirst (fun nb hnb => by simpa [ha] using hnb) x.nbhead
  · rw [if_neg h]
    refine Keyed.find?_modifyFirst_ne (fun a ha' => ?_) (fun a ha' => ?_) x.nbhead
    · simp only [decide_eq_true_eq] at ha'
      simpa [ha'] using fun h' => h h'.symm
    · simp only [decide_eq_true_eq] at ha'
      simpa [ha, ha'] using fun h' => h h'.symm

/-- Nothing changes but the entry for `d`; no trust value does, and no neighbour is forgotten. -/
structure Spares (d : NsAddr) (x y : Exec) : Prop where
  index : y.index = x.index := by rfl
  here : y.hereAddr = x.hereAddr := by rfl
  ids : y.bihead = x.bihead := by rfl
  maxPaths : y.teaomdvMaxPaths = x.teaomdvMaxPaths := by rfl
  lenDiff : y.teaomdvPrimAltPathLenDiff = x.teaomdvPrimAltPathLenDiff := by rfl
  others : ∀ d', d' ≠ d → y.rtLookup d' = x.rtLookup d' := by exact fun _ _ => rfl
  trust : ∀ id, y.trustOf id = x.trustOf id := by exact fun _ => rfl
  known : ∀ id, (x.nbLookup id).isSome → (y.nbLookup id).isSome := by exact fun _ h => h

namespace Spares

theorem refl (x : Exec) : Spares d x x := {}

theorem trans (h : Spares d x y) (h' : Spares d y z) : Spares d x z where
  index := h'.index.trans h.index
  here := h'.here.trans h.here
  ids := h'.ids.trans h.ids
  maxPaths := h'.maxPaths.trans h.maxPaths
  lenDiff := h'.lenDiff.trans h.lenDiff
  others := fun d' hne => (h'.others d' hne).trans (h.others d' hne)
  trust := fun id => (h'.trust id).trans (h.trust id)
  known := fun id hk => h'.known id (h.known id hk)

theorem rtModify (x : Exec) {f : RtEntry → RtEntry} (hf : ∀ e, (f e).rtDst = e.rtDst) : Spares d x (x.rtModify d f) where
  others := fun _ hne => rtLookup_rtModify_ne hne hf

theorem nbModify (x : Exec) (id : NsAddr) {f : Neighbor → Neighbor} (ha : ∀ nb, (f nb).nbAddr = nb.nbAddr)
    (ht : ∀ nb, (f nb).tv = nb.tv) : Spares d x (x.nbModify id f) where
  trust := by
    intro id'
    rw [trustOf_eq, trustOf_eq, nbLookup_nbModify x id ha]
    split
    · rw [Option.map_map]
      exact congrArg (fun g => ((x.nbLookup id').map g).getD 1) (funext ht)
    · rfl
  known := by
    intro id' h
    rw [nbLookup_nbModify x id ha]
    split
    · rwa [Option.isSome_map]
    · exact h

theorem nbEnsure (env : Env) (x : Exec) (id : NsAddr) : Spares d x (x.nbEnsure env id) := by
  unfold Exec.nbEnsure
  cases hnone : x.nbLookup id with
  | some nb => exact refl x
  | none =>
    simp only [nbInsert, hnone]
    refine { trust := fun id' => ?_, known := fun id' h => ?_ }
    · unfold trustOf nbLookup
      by_cases h : id' = id
      · subst h
        have hnone' : x.nbhead.find? (fun nb => decide (nb.nbAddr = id')) = none := hnone
        rw [hnone', List.find?_cons_of_pos (by simp [Neighbor.new, Neighbor.tvInit])]
        rfl
      · rw [List.find?_cons_of_neg (by simpa [Neighbor.new, Neighbor.tvInit] using fun h' => h h'.symm)]
    · unfold nbLookup
      rw [List.find?_cons]
      split
      · rfl
      · exact h

theorem countForward (env : Env) (x : Exec) (p : Packet) : Spares d x (x.countForward env p) := by
  unfold Exec.countForward
  split
  · refine nbModify x _ (fun nb => ?_) (fun nb => ?_) <;>
    · split
      · rfl
      · unfold Neighbor.recordCbr
        split <;> rfl
  · refine nbModify x _ (fun nb => ?_) (fun nb => ?_) <;>
    · split
      · rfl
      · unfold Neighbor.recordPtteaomdv
        split <;> rfl
  · exact refl x

theorem reports (dst : NsAddr) (seqno : Nat) (lasthop : NsAddr → NsAddr) : ∀ (pcs : List NsAddr) (x : Exec),
    Spares d x (pcs.foldl (reportDistrust dst seqno lasthop) x)
  | [], x => refl x
  | _ :: pcs, x => trans (y := reportDistrust dst seqno lasthop x _) {} (reports dst seqno lasthop pcs _)

theorem distrusts_eq (h : Spares d x y) (f : Path) : y.distrusts f = x.distrusts f := by
  unfold distrusts
  rw [h.trust]

theorem mark_eq (h : Spares d x y) (f : Path) : y.mark f = x.mark f := by
  unfold mark
  rw [h.distrusts_eq]

theorem tests_eq (h : Spares d x y) (q : Packet) : y.tests q = x.tests q := by
  unfold tests forMe
  rw [h.here]

end Spares

/-! ## One packet -/

theorem pathEmpty_of_num (h : e.rtNumPaths = e.rtPathList.length) : e.pathEmpty = .ok e.rtPathList.isEmpty := by
  unfold RtEntry.pathEmpty
  cases hp : e.rtPathList with
  | nil => simp [h, hp]
  | cons f fs =>
    rw [if_neg (by simp), if_pos (by rw [h, hp, List.length_cons]; omega)]
    rfl

/-- Deleting by the next hop of the first path deletes the first path. -/
theorem pathDelete_head {f : Path} {fs : List Path} (hp : e.rtPathList = f :: fs) :
    e.pathDelete f.nexthop = { e with rtPathList := fs, rtNumPaths := e.rtNumPaths - 1 } := by
  unfold RtEntry.pathDelete RtEntry.pathLookup
  simp [hp]

theorem reports_same (dst : NsAddr) (seqno : Nat) (lasthop : NsAddr → NsAddr) : ∀ (pcs : List NsAddr) (x : Exec),
    (pcs.foldl (reportDistrust dst seqno lasthop) x).rtable = x.rtable ∧
      (pcs.foldl (reportDistrust dst seqno lasthop) x).rqueue = x.rqueue
  | [], _ => ⟨rfl, rfl⟩
  | _ :: pcs, _ => reports_same dst seqno lasthop pcs _

/-- The entry for `d` after a function that touched nothing else. -/
structure Left (d : NsAddr) (x y : Exec) (e' : RtEntry) : Prop where
  entry : y.rtLookup d = some e'
  kept : e'.Kept
  spares : Spares d x y
  queue : y.rqueue = x.rqueue

namespace Left

variable {e' e'' : RtEntry}

theorem trans (h : Left d x y e') (h' : Left d y z e'') : Left d x z e'' :=
  ⟨h'.entry, h'.kept, h.spares.trans h'.spares, h'.queue.trans h.queue⟩

theorem say (h : Left d x y e') (a : Act) : Left d x (y.say a) e' := ⟨h.entry, h.kept, h.spares.trans {}, h.queue⟩

theorem rtModify (he : x.rtLookup d = some e) {f : RtEntry → RtEntry} (hf : ∀ e, (f e).rtDst = e.rtDst)
    (hk : (f e).Kept) : Left d x (x.rtModify d f) (f e) :=
  ⟨rtLookup_rtModify he ((hf e).trans (rtDst_of_rtLookup he)), hk, .rtModify x hf, rfl⟩

end Left

theorem countForward_same (env : Env) (x : Exec) (p : Packet) :
    (x.countForward env p).rtable = x.rtable ∧ (x.countForward env p).rqueue = x.rqueue := by
  unfold countForward
  split <;> exact ⟨rfl, rfl⟩

theorem nbEnsure_same (env : Env) (x : Exec) (id : NsAddr) :
    (x.nbEnsure env id).rtable = x.rtable ∧ (x.nbEnsure env id).rqueue = x.rqueue := by
  unfold nbEnsure
  split
  · unfold nbInsert
    simp only
    split <;> exact ⟨rfl, rfl⟩
  · exact ⟨rfl, rfl⟩

theorem pcInsert_same (e : RtEntry) (id : NsAddr) : (e.pcInsert id).rtPathList = e.rtPathList ∧
    (e.pcInsert id).rtDst = e.rtDst ∧ ((e.pcInsert id).Kept ↔ e.Kept) := by
  unfold RtEntry.pcInsert
  split <;> exact ⟨rfl, rfl, .rfl⟩

theorem kept_modifyFind (hk : e.Kept) (f : Path → Path) : (e.modifyFind f).Kept := by
  unfold RtEntry.Kept RtEntry.modifyFind
  refine ⟨?_, ?_⟩
  · rw [List.length_modifyHead]
    exact hk.1
  · refine hk.2.trans (not_congr ?_)
    cases e.rtPathList <;> simp

/-- A write to the first path that leaves its next hop and its trust. -/
theorem map_mark_modifyFind {f : Path → Path} (hf : ∀ g, x.mark (f g) = x.mark g) (e : RtEntry) :
    (e.modifyFind f).rtPathList.map x.mark = e.rtPathList.map x.mark := by
  unfold RtEntry.modifyFind
  cases e.rtPathList with
  | nil => rfl
  | cons g gs => simp [hf]

/-- An entry without paths goes down. -/
theorem downIfEmpty_left (env : Env) (he : x.rtLookup d = some e) (hup : e.rtFlags = .up) (hn : e.rtNumPaths = e.rtPathList.length) :
    ∃ y b e', x.downIfEmpty env d e id = .ok (y, b) ∧ Left d x y e' ∧ e'.rtPathList = e.rtPathList := by
  unfold downIfEmpty
  rw [pathEmpty_of_num hn, ok_bind]
  cases hp : e.rtPathList with
  | nil =>
    have hdown : e.rtDown env.inf = { e.pathDeleteAll with rtFlags := .down, rtAdvertisedHops := env.inf, rtExpire := 0 } := by
      unfold RtEntry.rtDown
      rw [if_neg (by simp [hup])]
    have hdst : ∀ e : RtEntry, (e.rtDown env.inf).rtDst = e.rtDst := by
      intro e
      unfold RtEntry.rtDown
      split <;> rfl
    refine ⟨_, _, e.rtDown env.inf, rfl, ⟨?_, ?_, ?_, rfl⟩, ?_⟩
    · exact rtLookup_rtModify he ((hdst e).trans (rtDst_of_rtLookup he))
    · rw [hdown]
      exact ⟨rfl, by simp [RtEntry.pathDeleteAll]⟩
    · exact .rtModify x hdst
    · rw [hdown]
      rfl
  | cons f fs => exact ⟨x, false, e, rfl, ⟨he, ⟨hn, by simp [hup, hp]⟩, .refl x, rfl⟩, hp⟩

/-- The distrust branch takes the first path. -/
theorem forwardDistrust_ok (env : Env) (p : Packet) {f : Path} {fs : List Path} (he : x.rtLookup d = some e) (hk : e.Kept)
    (hp : e.rtPathList = f :: fs) {path : Path} (hn : path.nexthop = f.nexthop) :
    ∃ y e', x.forwardDistrust env d path p = .ok y ∧ Left d x y e' ∧ e'.rtPathList = fs := by
  unfold forwardDistrust
  rw [he, hn]
  simp only
  obtain ⟨htable, hqueue⟩ := reports_same e.rtDst e.rtSeqno (fun _ => path.lasthop) e.rtPclist x
  have hspare : Spares d x (e.rtPclist.foldl (reportDistrust e.rtDst e.rtSeqno (fun _ => path.lasthop)) x) := .reports _ _ _ _ x
  generalize e.rtPclist.foldl (reportDistrust e.rtDst e.rtSeqno (fun _ => path.lasthop)) x = x₁ at htable hqueue hspare ⊢
  have he₁ : x₁.rtLookup d = some e := (rtLookup_congr htable d).trans he
  have he₂ : (x₁.rtModify d (fun rt => rt.pathDelete f.nexthop)).rtLookup d = some (e.pathDelete f.nexthop) :=
    rtLookup_rtModify he₁ ((rtDst_pathDelete e _).trans (rtDst_of_rtLookup he))
  have hup : (e.pathDelete f.nexthop).rtFlags = .up := (rtFlags_pathDelete e _).trans (hk.2.2 (by simp [hp]))
  have hnum : (e.pathDelete f.nexthop).rtNumPaths = (e.pathDelete f.nexthop).rtPathList.length := by
    have := hk.1
    rw [pathDelete_head hp]
    simp only [hp, List.length_cons] at this ⊢
    omega
  obtain ⟨y, b, e', hy, hl, hp'⟩ := downIfEmpty_left env he₂ hup hnum
  rw [hy, ok_bind]
  have hdel : Spares d x₁ (x₁.rtModify d (fun rt => rt.pathDelete f.nexthop)) := .rtModify x₁ (fun e => rtDst_pathDelete e _)
  refine ⟨_, e', rfl, Left.say (Left.say ⟨hl.entry, hl.kept, ?_, hl.queue.trans hqueue⟩ _) _, ?_⟩
  · exact (hspare.trans hdel).trans hl.spares
  · rw [hp', pathDelete_head hp]

/-- A packet that is sent leaves the paths as they are to the trust test. -/
theorem forwardSend_outcome (env : Env) (he : x.rtLookup d = some e) (hk : e.Kept) (p : Packet) (delay : ℚ) :
    Outcome (fun y => ∃ e', Left d x y e' ∧ e'.rtPathList.map x.mark = e.rtPathList.map x.mark)
      (fun _ => p.daddr = ipBroadcast) (x.forwardSend env d p delay) := by
  unfold forwardSend
  simp only
  obtain ⟨htable, hqueue⟩ := countForward_same env x p
  have hspare : Spares d x (x.countForward env p) := .countForward env x p
  generalize x.countForward env p = x₁ at htable hqueue hspare ⊢
  have hl₁ : Left d x x₁ e := ⟨(rtLookup_congr htable d).trans he, hk, hspare, hqueue⟩
  have hl₂ := hl₁.trans (Left.rtModify hl₁.entry (f := fun rt => rt.modifyFind (fun path =>
    { path with expire := env.now + activeRouteTimeout })) (fun _ => rfl) (kept_modifyFind hk _))
  have hsame := map_mark_modifyFind (x := x) (f := fun path =>
    { path with expire := env.now + activeRouteTimeout }) (fun _ => rfl) e
  by_cases hb : p.daddr = ipBroadcast
  · rw [if_pos hb]
    exact hb
  rw [if_neg hb]
  split
  · have hl₃ := Left.rtModify hl₂.entry (f := fun rt => rt.setError true) (fun _ => rfl) hl₂.kept
    exact ⟨_, (hl₂.trans hl₃).say _, hsame⟩
  · exact ⟨_, hl₂.say _, hsame⟩

theorem pathFind_cons {f : Path} {fs : List Path} (hp : e.rtPathList = f :: fs) : e.pathFind = some f := by
  unfold RtEntry.pathFind
  rw [hp]
  rfl

/-- What is left of the marks of an entry's paths after one packet. -/
theorem forwardRoute_outcome {f : Path} {fs : List Path} (he : x.rtLookup d = some e) (hk : e.Kept)
    (hp : e.rtPathList = f :: fs) (p : Packet) (delay : ℚ) :
    Outcome (fun y => ∃ e', Left d x y e' ∧ e'.rtPathList.map x.mark =
        if p.ptype = .cbr ∧ x.distrusts f then fs.map x.mark else (f :: fs).map x.mark)
      (fun _ => p.daddr = ipBroadcast) (x.forwardRoute env d p delay) := by
  have hup : e.rtFlags = .up := hk.2.2 (by simp [hp])
  have hfind : e.pathFind = some f := pathFind_cons hp
  unfold forwardRoute
  rw [he]
  simp only [hup, hfind, ne_eq, not_true_eq_false, if_false]
  have hl₀ := Left.rtModify he (f := fun rt => rt.pcInsert p.prevHop) (fun e => (pcInsert_same e _).2.1)
    ((pcInsert_same e _).2.2.2 hk)
  obtain ⟨htable, hqueue⟩ := nbEnsure_same env (x.rtModify d (fun rt => rt.pcInsert p.prevHop)) f.nexthop
  have hspare : Spares d (x.rtModify d (fun rt => rt.pcInsert p.prevHop)) _ := .nbEnsure env _ f.nexthop
  generalize (x.rtModify d (fun rt => rt.pcInsert p.prevHop)).nbEnsure env f.nexthop = x₁ at htable hqueue hspare ⊢
  have hl₁ : Left d x x₁ (e.pcInsert p.prevHop) :=
    hl₀.trans ⟨(rtLookup_congr htable d).trans hl₀.entry, hl₀.kept, hspare, hqueue⟩
  have hp₁ : (e.pcInsert p.prevHop).rtPathList = f :: fs := (pcInsert_same e _).1.trans hp
  generalize e.pcInsert p.prevHop = e₁ at hl₁ hp₁
  have hd : x.distrusts f = decide (min f.FPT (x₁.trustOf f.nexthop) < trustThreshold) := by
    unfold distrusts
    rw [hl₁.spares.trust]
  have hq : ∀ q : Packet, { p with
      addrType := .inet, nextHop := f.nexthop, pprevHop := p.prevHop, prevHop := x₁.index } = q →
      q.ptype = p.ptype ∧ q.daddr = p.daddr := by
    rintro _ rfl
    exact ⟨rfl, rfl⟩
  generalize hq' : ({ p with
    addrType := .inet, nextHop := f.nexthop, pprevHop := p.prevHop, prevHop := x₁.index } : Packet) = q
  obtain ⟨htype, hdst⟩ := hq q hq'
  rw [← htype, ← hdst]
  by_cases hc : q.ptype = .cbr
  · rw [if_pos hc]
    have hl₂ := hl₁.trans (Left.rtModify hl₁.entry (f := fun rt => rt.modifyFind (fun path =>
      { path with FPT := min f.FPT (x₁.trustOf f.nexthop) })) (fun _ => rfl) (kept_modifyFind hl₁.kept _))
    have hp₂ : (e₁.modifyFind (fun path => { path with FPT := min f.FPT (x₁.trustOf f.nexthop) })).rtPathList =
        { f with FPT := min f.FPT (x₁.trustOf f.nexthop) } :: fs := by
      unfold RtEntry.modifyFind
      rw [hp₁]
      rfl
    by_cases ht : min f.FPT (x₁.trustOf f.nexthop) < trustThreshold
    · rw [if_pos ht, if_pos ⟨hc, by rw [hd]; exact decide_eq_true ht⟩]
      obtain ⟨y, e', hy, hl, hp'⟩ := forwardDistrust_ok env q hl₂.entry hl₂.kept hp₂ (show f.nexthop = f.nexthop from rfl)
      rw [hy]
      exact ⟨e', hl₂.trans hl, by rw [hp']⟩
    · rw [if_neg ht, if_neg (fun h => ht (by rw [hd] at h; exact of_decide_eq_true h.2))]
      refine (forwardSend_outcome env hl₂.entry hl₂.kept q delay).mono (fun y ⟨e', hl, hm⟩ => ⟨e', hl₂.trans hl, ?_⟩) (fun _ h => h)
      rw [funext hl₂.spares.mark_eq] at hm
      rw [hm, hp₂, List.map_cons, List.map_cons]
      congr 1
      unfold mark distrusts
      simp only [hl₁.spares.trust, min_assoc, min_self]
  · rw [if_neg hc, if_neg (fun h => hc h.1)]
    refine (forwardSend_outcome env hl₁.entry hl₁.kept q delay).mono (fun y ⟨e', hl, hm⟩ => ⟨e', hl₁.trans hl, ?_⟩) (fun _ h => h)
    rw [funext hl₁.spares.mark_eq] at hm
    rw [hm, hp₁]

/-- **One packet takes the first path away if it tests a distrusted one.** -/
theorem forward_outcome (env : Env) {f : Path} {fs : List Path} (he : x.rtLookup d = some e) (hk : e.Kept)
    (hp : e.rtPathList = f :: fs) (p : Packet) (delay : ℚ) :
    Outcome (fun y => ∃ e', Left d x y e' ∧ e'.rtPathList.map x.mark =
        if x.tests p && x.distrusts f then fs.map x.mark else (f :: fs).map x.mark)
      (fun _ => p.daddr = ipBroadcast) (x.forward env (some d) p delay) := by
  have hsame : Left d x x e := ⟨he, hk, .refl x, rfl⟩
  unfold forward
  by_cases httl : p.ttl = 0
  · rw [if_pos httl]
    exact ⟨e, hsame.say _, by simp [tests, httl, hp]⟩
  by_cases hme : x.forMe p = true
  · rw [if_neg httl, if_pos hme]
    exact ⟨e, hsame.say _, by simp [tests, hme, hp]⟩
  · rw [if_neg httl, if_neg hme]
    refine (forwardRoute_outcome he hk hp p delay).mono (fun y ⟨e', hl, hm⟩ => ⟨e', hl, ?_⟩) (fun _ h => h)
    simpa [tests, httl, hme] using hm

/-- A packet for one node is forwarded. -/
theorem forward_ok (env : Env) {f : Path} {fs : List Path} (he : x.rtLookup d = some e) (hk : e.Kept)
    (hp : e.rtPathList = f :: fs) (hb : p.daddr ≠ ipBroadcast) (delay : ℚ) :
    ∃ y e', x.forward env (some d) p delay = .ok y ∧ Left d x y e' ∧
      e'.rtPathList.map x.distrusts = if x.tests p && x.distrusts f then fs.map x.distrusts
        else (f :: fs).map x.distrusts := by
  have hout := forward_outcome env he hk hp p delay
  cases hm : x.forward env (some d) p delay with
  | error g =>
    rw [hm] at hout
    exact absurd hout hb
  | ok y =>
    rw [hm] at hout
    obtain ⟨e', hl, hmark⟩ := hout
    have hmark := congrArg (List.map Prod.snd) hmark
    have hsnd : Prod.snd ∘ x.mark = x.distrusts := rfl
    refine ⟨y, e', rfl, hl, ?_⟩
    rw [apply_ite (List.map Prod.snd), List.map_map, List.map_map, List.map_map, hsnd] at hmark
    exact hmark

/-! ## The queue -/

theorem buffered_eq (env : Env) (x : Exec) (d : NsAddr) :
    x.buffered env d = (x.rqueue.filter (fun q => !decide (q.ts < env.now))).filter (fun q => q.daddr = d) := by
  rw [List.filter_filter]
  unfold buffered
  congr 1
  funext q
  simp only [← Bool.decide_and, decide_not.symm, and_comm]

/-- Taking a packet out, if any is left for `d`. -/
theorem deque_spec (env : Env) (x : Exec) (d : NsAddr) :
    (x.buffered env d = [] ∧ x.deque env d = (none, x.rqPurge env)) ∨
      ∃ q y, x.deque env d = (some q, y) ∧ x.buffered env d = q :: y.buffered env d ∧
        y.rqueue.length < x.rqueue.length ∧ Spares d x y ∧ y.rtable = x.rtable := by
  have hpurge : (x.rqPurge env).rqueue = x.rqueue.filter (fun q => !decide (q.ts < env.now)) := Keyed.eraseAll_eq_filter _
  rw [buffered_eq]
  unfold deque
  simp only
  rw [← hpurge]
  cases hf : (x.rqPurge env).rqueue.find? (fun q => q.daddr = d) with
  | none => exact .inl ⟨List.filter_eq_nil_iff.2 (List.find?_eq_none.1 hf), rfl⟩
  | some q =>
    have hmem := List.mem_of_find?_eq_some hf
    have hq : decide (q.daddr = d) = true := by simpa using List.find?_some hf
    refine .inr ⟨q, _, rfl, ?_, ?_, {}, rfl⟩
    · rw [Keyed.filter_eq_cons_of_find? hf, buffered_eq]
      congr 2
      refine (List.filter_eq_self.2 (fun a ha => ?_)).symm
      have ha := List.mem_of_mem_eraseP ha
      rw [hpurge] at ha
      exact (List.mem_filter.1 ha).2
    · show ((x.rqPurge env).rqueue.eraseP _).length < _
      have h1 : ((x.rqPurge env).rqueue.eraseP (fun q => decide (q.daddr = d))).length = _ := List.length_eraseP_of_mem hmem hq
      have h2 := List.length_pos_of_mem hmem
      have h3 : (x.rqPurge env).rqueue.length ≤ x.rqueue.length := by
        rw [hpurge]
        exact List.length_filter_le _ _
      omega

/-- **A loop over what is buffered for `d`**, from a property of the state and of the packets still to come. -/
theorem drain_ok {P : List Packet → Exec → Prop} {body : Exec → Packet → Result}
    (hbody : ∀ {x y q}, P (x.buffered env d) x → x.deque env d = (some q, y) → x.buffered env d = q :: y.buffered env d →
      ∃ z, body y q = .ok z ∧ z.rqueue = y.rqueue ∧ P (z.buffered env d) z)
    (hend : ∀ {x}, P [] x → P [] (x.rqPurge env)) (hx : P (x.buffered env d) x) :
    ∃ z, x.drain env d body = .ok z ∧ P [] z := by
  have key : ∀ n (x : Exec), x.rqueue.length < n → P (x.buffered env d) x →
      ∃ z, drainLoop env d body n x = .ok z ∧ P [] z := by
    intro n
    induction n with
    | zero => exact fun _ h => absurd h (Nat.not_lt_zero _)
    | succ n ih =>
      intro x hn hx
      unfold drainLoop
      rcases deque_spec env x d with ⟨hnil, hdeque⟩ | ⟨q, y, hdeque, hcons, hlt, -, -⟩
      · rw [hdeque]
        rw [hnil] at hx
        exact ⟨_, rfl, hend hx⟩
      · obtain ⟨z, hz, hqueue, hP⟩ := hbody hx hdeque hcons
        rw [hdeque]
        simp only [hz, ok_bind]
        exact ih z (by rw [hqueue]; omega) hP
  exact key _ x (Nat.lt_succ_self _) hx

/-- A loop that puts nothing back leaves nothing buffered for `d`. -/
theorem drain_empties {body : Exec → Packet → Result} (hb : ∀ y q, Ends (fun z => z.rqueue = y.rqueue) (body y q)) (x : Exec)
    (d : NsAddr) : Ends (fun y => ∀ q ∈ y.rqueue, q.daddr ≠ d) (x.drain env d body) := by
  have key : ∀ n (x : Exec), x.rqueue.length < n → Ends (fun y => ∀ q ∈ y.rqueue, q.daddr ≠ d) (drainLoop env d body n x) := by
    intro n
    induction n with
    | zero => exact fun _ hn => absurd hn (Nat.not_lt_zero _)
    | succ n ih =>
      intro x hn
      unfold drainLoop
      rcases deque_spec env x d with ⟨hnil, hdeque⟩ | ⟨q, y, hdeque, -, hlt, -, -⟩
      · rw [hdeque]
        refine Ends.ok (fun q hq hd => ?_)
        have hq : q ∈ Keyed.eraseAll _ x.rqueue := hq
        rw [Keyed.eraseAll_eq_filter] at hq
        rw [buffered_eq] at hnil
        simpa [hd] using List.filter_eq_nil_iff.1 hnil q hq
      · rw [hdeque]
        exact Ends.bind (hb y q) (fun z hz => ih z (by rw [hz]; omega))
  exact key _ x (Nat.lt_succ_self _)

/-! ## The loop -/

/-- What is left of an entry's paths, marked by distrust, and of the packets that find it without one. -/
def worn (env : Env) (x : Exec) (d : NsAddr) (paths : List Path) : List Bool × List Packet :=
  Wear.wear id x.tests (paths.map x.distrusts) (x.buffered env d)

/-- The packets in hand. -/
def ptrs (qs : List Packet) : Multiset Nat := ↑(qs.map (·.ptr))

theorem ptrs_append (qs : List Packet) (q : Packet) : ptrs (qs ++ [q]) = ptrs qs + {q.ptr} := by
  unfold ptrs
  rw [List.map_append, ← Multiset.coe_add]
  rfl

/-- Paths are worn out, as marks, just when the packets wear them out. -/
theorem worn_fst_eq_nil (env : Env) (x : Exec) (d : NsAddr) (paths : List Path) :
    (x.worn env d paths).1 = [] ↔ x.WearsOut paths (x.buffered env d) := by
  unfold worn WearsOut
  rw [Wear.fst_eq_nil_iff, List.length_map]
  simp

/-- Packets are left to no one just when the others wear the paths out. -/
theorem worn_snd_ne_nil (env : Env) (x : Exec) (d : NsAddr) {paths : List Path} (hp : paths ≠ []) :
    (x.worn env d paths).2 ≠ [] ↔ x.WearsOut paths (x.buffered env d).dropLast := by
  unfold worn WearsOut
  rw [Wear.snd_ne_nil_iff (by simpa using hp), Wear.fst_eq_nil_iff, List.length_map]
  simp

/-- Between two rounds of the loop: the whole loop leaves `W`, and no one disposed of the packets of `lost`. -/
def Flushing (d : NsAddr) (x₀ : Exec) (W : List Bool × List Packet) (qs : List Packet) (x : Exec) : Prop :=
  Spares d x₀ x ∧ (∀ q ∈ qs, q.daddr ≠ ipBroadcast) ∧ ∃ e lost, x.rtLookup d = some e ∧ e.Kept ∧
    x₀.Settles 0 (ptrs lost) x ∧ (Wear.wear id x₀.tests (e.rtPathList.map x₀.distrusts) qs).1 = W.1 ∧
    lost ++ (Wear.wear id x₀.tests (e.rtPathList.map x₀.distrusts) qs).2 = W.2

theorem Flushing.flushOne {x₀ : Exec} {W : List Bool × List Packet} (h : Flushing d x₀ W (x.buffered env d) x)
    (hdeque : x.deque env d = (some q, y)) (hcons : x.buffered env d = q :: y.buffered env d) :
    ∃ z, flushOne env d y q = .ok z ∧ z.rqueue = y.rqueue ∧ Flushing d x₀ W (z.buffered env d) z := by
  rcases deque_spec env x d with ⟨hnil, -⟩ | ⟨q', y', hdeque', -, -, hspare, htable⟩
  · rw [hnil] at hcons
    cases hcons
  obtain ⟨hq, rfl⟩ := Prod.mk.inj (hdeque'.symm.trans hdeque)
  obtain rfl := Option.some.inj hq
  obtain ⟨hsp, hdata, e, lost, he, hk, hs, hW1, hW2⟩ := h
  rw [hcons] at hW1 hW2 hdata
  have hsy : x₀.Settles 0 (ptrs lost + {q'.ptr}) y' := by
    have := Ledger.Settles.frame (settles_of_deque hdeque) (ptrs lost)
    rw [zero_add, add_comm] at this
    exact hs.trans this
  have hey : y'.rtLookup d = some e := (rtLookup_congr htable d).trans he
  have hrest : ∀ q ∈ y'.buffered env d, q.daddr ≠ ipBroadcast := fun q hq => hdata q (List.mem_cons_of_mem _ hq)
  have hspy := hsp.trans hspare
  unfold Exec.flushOne
  rw [hey]
  simp only
  cases hp : e.rtPathList with
  | nil =>
    rw [if_neg (fun h => hk.2.1 h hp)]
    rw [hp] at hW1 hW2
    refine ⟨y', rfl, rfl, hspy, hrest, e, lost ++ [q'], hey, hk, ?_, ?_, ?_⟩
    · rwa [ptrs_append]
    · rw [hp]
      simpa using hW1
    · rw [hp]
      simpa using hW2
  | cons f fs =>
    rw [if_pos (hk.2.2 (by simp [hp]))]
    obtain ⟨z, e', hz, hl, hm⟩ := forward_ok env hey hk hp (hdata q' List.mem_cons_self) noTeaomdvDelay
    have hbuf : z.buffered env d = y'.buffered env d := by
      unfold buffered
      rw [hl.queue]
    have hsz : x₀.Settles 0 (ptrs lost) z := by
      have := Ledger.Settles.frame (forward_settles y' (some d) q' noTeaomdvDelay z hz) (ptrs lost)
      rw [zero_add, add_comm] at this
      exact hsy.trans this
    rw [funext hspy.distrusts_eq, hspy.tests_eq] at hm
    have hwear : Wear.wear id x₀.tests (e.rtPathList.map x₀.distrusts) (q' :: y'.buffered env d) =
        Wear.wear id x₀.tests (e'.rtPathList.map x₀.distrusts) (y'.buffered env d) := by
      rw [hp, hm, List.map_cons]
      split
      · rename_i ht
        exact Wear.wear_hit (by exact ht) _ _
      · rename_i ht
        exact Wear.wear_miss (by exact ht) _ _
    rw [hwear] at hW1 hW2
    refine ⟨z, hz, hl.queue, ?_⟩
    rw [hbuf]
    exact ⟨hspy.trans hl.spares, hrest, e', lost, hl.entry, hl.kept, hsz, hW1, hW2⟩

/-- **What `flush` does to an entry that is up**: it wears the list of paths down, and the packets that find it without
one are left to no one. -/
theorem flush_ok (env : Env) (he : x.rtLookup d = some e) (hk : e.Kept) (hup : e.rtFlags = .up) (hq : x.DataQueue) :
    ∃ y e', x.flush env d = .ok y ∧ y.rtLookup d = some e' ∧ e'.Kept ∧ Spares d x y ∧
      (e'.rtPathList = [] ↔ x.WearsOut e.rtPathList (x.buffered env d)) ∧
      x.Settles 0 (ptrs (x.worn env d e.rtPathList).2) y := by
  unfold flush
  rw [he]
  simp only [hup, if_true]
  have hl : Left d x (x.rtModify d RtEntry.resetSoftState) e.resetSoftState := .rtModify he (fun _ => rfl) hk
  have hstart : Flushing d x (x.worn env d e.rtPathList) ((x.rtModify d RtEntry.resetSoftState).buffered env d)
      (x.rtModify d RtEntry.resetSoftState) := by
    refine ⟨hl.spares, fun q hq' => (hq q (List.mem_of_mem_filter hq')).2, _, [], hl.entry, hl.kept, .of_log 0 rfl, rfl, rfl⟩
  obtain ⟨y, hy, hsp, -, e', lost, he', hk', hs, hW1, hW2⟩ := drain_ok (P := Flushing d x (x.worn env d e.rtPathList))
    (fun h hdeque hcons => h.flushOne hdeque hcons)
    (fun ⟨hsp, hd, e, lost, he, hk, hs, hW⟩ =>
      ⟨hsp.trans {}, hd, e, lost, he, hk, hs.trans (rqPurge_settles _ |>.keep _), hW⟩) hstart
  simp only [Wear.wear_done, List.append_nil] at hW1 hW2
  refine ⟨y, e', hy, he', hk', hsp, ?_, hW2 ▸ hs⟩
  rw [← worn_fst_eq_nil, ← hW1, List.map_eq_nil_iff]

end Exec

end TeAomdv

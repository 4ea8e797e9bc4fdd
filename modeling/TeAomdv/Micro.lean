import TeAomdv.Timers
import TeAomdv.Route
import TeAomdv.Lib.Fallible
/-!
# Micro — the small steps a handler is made of

A step rewrites one route entry by a `Rule`, brings one down for distrust, adds one, hands an honest routing packet to
`target_`, or does something no other node can tell (`Aside`).  `Blame` says what an assert of the source that fails
implies of the state it fails in.
-/
namespace TeAomdv

open Relation (ReflTransGen)

/-! ## The operations on an entry, on its route -/

namespace RtEntry

theorem route_pathDelete (e : RtEntry) (id : NsAddr) :
    (e.pathDelete id).route = e.route.left (e.route.hops.eraseP (fun f => f.nexthop = id)) := by
  have hmap : e.route.hops.eraseP (fun f => f.nexthop = id) = (e.rtPathList.eraseP (fun p => p.nexthop = id)).map Path.hop := by
    show (e.rtPathList.map Path.hop).eraseP _ = _
    rw [List.eraseP_map]
    rfl
  unfold pathDelete
  by_cases hp : (e.pathLookup id).isSome
  · obtain ⟨p, hp'⟩ := Option.isSome_iff_exists.1 hp
    have hlen := Keyed.length_eraseP_add_one (l := e.rtPathList) (p := fun p => decide (p.nexthop = id))
      (List.any_eq_true.2 ⟨p, List.mem_of_find?_eq_some hp', by simpa using List.find?_some hp'⟩)
    rw [if_pos hp, hmap]
    simp only [route, Route.left, List.length_map, Route.mk.injEq, true_and]
    refine ⟨?_, trivial⟩
    omega
  · rw [if_neg hp, hmap]
    have hnone : e.rtPathList.eraseP (fun p => p.nexthop = id) = e.rtPathList :=
      List.eraseP_of_forall_not (fun p hm => List.find?_eq_none.1 (Option.not_isSome_iff_eq_none.1 hp) p hm)
    rw [hnone]
    simp [route, Route.left]

theorem route_pathPurge (e : RtEntry) (now : ℚ) :
    (e.pathPurge now).route = e.route.left (e.pathPurge now).route.hops := by
  simp [route, Route.left, pathPurge]

theorem sublist_pathPurge (e : RtEntry) (now : ℚ) : (e.pathPurge now).route.hops.Sublist e.route.hops := by
  show ((Keyed.eraseAll _ e.rtPathList).map Path.hop).Sublist _
  rw [Keyed.eraseAll_eq_filter]
  exact List.filter_sublist.map _

theorem route_rtDown {e : RtEntry} (h : e.rtFlags ≠ .down) (inf : Nat) :
    (e.rtDown inf).route = e.route.fall inf e.rtSeqno := by
  unfold rtDown
  rw [if_neg h]
  rfl

theorem rtDown_setSeqno (e : RtEntry) (n inf : Nat) : (e.setSeqno n).rtDown inf = (e.rtDown inf).setSeqno n := by
  by_cases h : e.rtFlags = .down
  · simp [rtDown, setSeqno, h]
  · simp [rtDown, setSeqno, pathDeleteAll, h]

/-- A live entry that loses its last path to a report of number `n`. -/
theorem route_reported {e : RtEntry} (h : e.rtFlags = .up) (id : NsAddr) (inf n : Nat) :
    ((((e.pathDelete id).setHighestSeqnoHeard n).setSeqno n).rtDown inf).route =
      { e.route.fall inf n with highest := n } := by
  have hroute := route_pathDelete e id
  have hup : (((e.pathDelete id).setHighestSeqnoHeard n).setSeqno n).rtFlags ≠ .down := by
    have : (e.pathDelete id).rtFlags = .up := (congrArg Route.flags hroute).trans h
    show (e.pathDelete id).rtFlags ≠ .down
    rw [this]
    nofun
  have hd : (e.pathDelete id).rtDst = e.rtDst := congrArg Route.dst hroute
  rw [route_rtDown hup]
  simp only [route, Route.fall, setSeqno, setHighestSeqnoHeard, hd]

theorem route_failed {e : RtEntry} (h : e.rtFlags ≠ .down) (inf : Nat) :
    (Exec.failed inf e).route = e.route.fall inf e.route.failedSeqno := by
  exact route_rtDown (e := e.setSeqno e.route.failedSeqno) h inf

theorem route_expired {e : RtEntry} (h : e.rtFlags ≠ .down) (inf : Nat) :
    (Exec.expired inf e).route = e.route.fall inf e.route.expiredSeqno := by
  exact route_rtDown (e := e.setSeqno e.route.expiredSeqno) h inf

theorem route_modifyFind (e : RtEntry) {f : Path → Path} (hf : ∀ p, (f p).hop = p.hop) :
    (e.modifyFind f).route = e.route := by
  unfold modifyFind route
  cases e.rtPathList with
  | nil => rfl
  | cons p l => simp [hf]

theorem route_modifyDisjoint (e : RtEntry) (n l : NsAddr) {f : Path → Path} (hf : ∀ p, (f p).hop = p.hop) :
    (e.modifyDisjoint n l f).route = e.route := by
  unfold modifyDisjoint route
  simp [Keyed.map_modifyFirst Path.hop (fun a _ => hf a)]

theorem route_pcInsert (e : RtEntry) (id : NsAddr) : (e.pcInsert id).route = e.route := by
  unfold pcInsert
  split <;> rfl

theorem nodup_pcInsert {e : RtEntry} (id : NsAddr) (h : e.rtPclist.Nodup) : (e.pcInsert id).rtPclist.Nodup := by
  unfold pcInsert
  split
  · exact h
  · rename_i hid
    exact List.nodup_cons.2 ⟨hid, h⟩

theorem pathGetMaxHopcount_eq (e : RtEntry) : e.pathGetMaxHopcount = maxHops e.route.hops := by
  unfold pathGetMaxHopcount maxHops route
  rw [List.foldl_map]
  rfl

theorem route_advertise (e : RtEntry) (inf : Nat) :
    (e.advertise inf).route = if e.route.adv = inf then { e.route with adv := maxHops e.route.hops } else e.route := by
  unfold advertise
  rw [pathGetMaxHopcount_eq]
  by_cases h : e.rtAdvertisedHops = inf
  · rw [if_pos h, if_pos (show e.route.adv = inf from h)]
    rfl
  · rw [if_neg h, if_neg (show e.route.adv ≠ inf from h)]

@[simp] theorem route_setSeqno (e : RtEntry) (n : Nat) : (e.setSeqno n).route = { e.route with seqno := n } := rfl

@[simp] theorem route_setHighestSeqnoHeard (e : RtEntry) (n : Nat) :
    (e.setHighestSeqnoHeard n).route = { e.route with highest := n } := rfl

@[simp] theorem route_setError (e : RtEntry) (b : Bool) : (e.setError b).route = e.route := rfl

@[simp] theorem rtPclist_setSeqno (e : RtEntry) (n : Nat) : (e.setSeqno n).rtPclist = e.rtPclist := rfl

@[simp] theorem rtPclist_setHighestSeqnoHeard (e : RtEntry) (n : Nat) : (e.setHighestSeqnoHeard n).rtPclist = e.rtPclist := rfl

@[simp] theorem rtPclist_setError (e : RtEntry) (b : Bool) : (e.setError b).rtPclist = e.rtPclist := rfl

@[simp] theorem rtPclist_pathDelete (e : RtEntry) (id : NsAddr) : (e.pathDelete id).rtPclist = e.rtPclist := by
  unfold pathDelete
  split <;> rfl

@[simp] theorem rtPclist_rtDown (e : RtEntry) (inf : Nat) : (e.rtDown inf).rtPclist = e.rtPclist := by
  unfold rtDown
  split <;> rfl

@[simp] theorem rtPclist_advertise (e : RtEntry) (inf : Nat) : (e.advertise inf).rtPclist = e.rtPclist := by
  unfold advertise
  split <;> rfl

end RtEntry

namespace Exec

/-! ## Reading and writing the route table -/

def routeOf (x : Exec) (d : NsAddr) : Option Route := (x.rtLookup d).map RtEntry.route

/-- The entry for `d` replaced. -/
def put (x : Exec) (d : NsAddr) (e : RtEntry) : Exec := x.rtModify d (fun _ => e)

variable {x y : Exec} {d d' : NsAddr} {e e' : RtEntry}

theorem rtLookup_congr (h : y.rtable = x.rtable) (d : NsAddr) : y.rtLookup d = x.rtLookup d := by
  unfold rtLookup
  rw [h]

theorem rtDst_of_rtLookup (h : x.rtLookup d = some e) : e.rtDst = d := Keyed.key_of_find? h

theorem mem_of_rtLookup (h : x.rtLookup d = some e) : e ∈ x.rtable := List.mem_of_find?_eq_some h

theorem rtModify_of_none (h : x.rtLookup d = none) (f : RtEntry → RtEntry) : x.rtModify d f = x := by
  unfold rtModify
  rw [Keyed.modifyFirst_of_none h]

theorem rtModify_eq_put (h : x.rtLookup d = some e) (f : RtEntry → RtEntry) : x.rtModify d f = x.put d (f e) := by
  unfold put rtModify
  rw [Keyed.modifyFirst_eq_const h]

theorem rtLookup_put (h : x.rtLookup d = some e) (hd : e'.rtDst = d) : (x.put d e').rtLookup d = some e' := by
  have := Keyed.find?_modifyFirst (p := fun e : RtEntry => decide (e.rtDst = d)) (f := fun _ => e')
    (fun _ _ => by simpa using hd) x.rtable
  show List.find? _ (Keyed.modifyFirst _ _ _) = _
  rw [this]
  show Option.map _ (x.rtLookup d) = _
  rw [h]
  rfl

theorem rtLookup_put_ne (hd : e'.rtDst = d) (hne : d' ≠ d) : (x.put d e').rtLookup d' = x.rtLookup d' := by
  refine Keyed.find?_modifyFirst_ne (fun a ha => ?_) (fun _ _ => ?_) x.rtable
  · simp only [decide_eq_true_eq] at ha
    simpa [ha] using hne.symm
  · simpa [hd] using hne.symm

theorem put_put (x : Exec) (e₂ : RtEntry) {e₁ : RtEntry} (hd : e₁.rtDst = d) : (x.put d e₁).put d e₂ = x.put d e₂ := by
  unfold put rtModify
  simp only
  rw [Keyed.modifyFirst_modifyFirst (fun _ _ => by simpa using hd)]
  rfl

theorem put_self (h : x.rtLookup d = some e) : x.put d e = x := by
  unfold put rtModify
  rw [Keyed.modifyFirst_self h]

theorem put_rtModify (h : x.rtLookup d = some e) {e₁ : RtEntry} (hd : e₁.rtDst = d) (g : RtEntry → RtEntry) :
    (x.put d e₁).rtModify d g = x.put d (g e₁) := by
  rw [rtModify_eq_put (rtLookup_put h hd), put_put _ _ hd]

theorem rtLookup_rtModify (h : x.rtLookup d = some e) {f : RtEntry → RtEntry} (hd : (f e).rtDst = d) :
    (x.rtModify d f).rtLookup d = some (f e) := by
  rw [rtModify_eq_put h]
  exact rtLookup_put h hd

theorem rtLookup_rtModify_ne (hne : d' ≠ d) {f : RtEntry → RtEntry} (hf : ∀ e, (f e).rtDst = e.rtDst) :
    (x.rtModify d f).rtLookup d' = x.rtLookup d' := by
  refine Keyed.find?_modifyFirst_ne (fun a ha => ?_) (fun a ha => ?_) x.rtable
  · simp only [decide_eq_true_eq] at ha
    simpa [ha] using hne.symm
  · simp only [decide_eq_true_eq] at ha
    simpa [hf, ha] using hne.symm

section Cell

variable {l r : List RtEntry} (hx : x.rtable = l ++ e :: r) (hkeys : ((l ++ e :: r).map (·.rtDst)).Nodup)

include hx hkeys

/-- A walk over a table in order finds the entry it is at. -/
theorem rtLookup_cell : x.rtLookup e.rtDst = some e := by
  unfold rtLookup
  rw [hx]
  exact Keyed.find?_append_cons RtEntry.rtDst hkeys

/-- A write to the entry a walk is at. -/
theorem put_cell (e' : RtEntry) : x.put e.rtDst e' = { x with rtable := l ++ e' :: r } := by
  unfold put rtModify
  rw [hx, Keyed.modifyFirst_key RtEntry.rtDst hkeys]

end Cell

/-- Two writes through one pointer are one. -/
theorem rtModify_rtModify (h : x.rtLookup d = some e) {f : RtEntry → RtEntry} (hd : (f e).rtDst = d)
    (g : RtEntry → RtEntry) : (x.rtModify d f).rtModify d g = x.put d (g (f e)) := by
  rw [rtModify_eq_put h, put_rtModify h hd]

theorem mem_put {a : RtEntry} (ha : a ∈ (x.put d e').rtable) : a ∈ x.rtable ∨ a = e' := by
  rcases Keyed.mem_modifyFirst ha with ha | ⟨b, -, rfl⟩
  · exact .inl ha
  · exact .inr rfl

theorem map_rtDst_put (hd : e'.rtDst = d) : (x.put d e').rtable.map (·.rtDst) = x.rtable.map (·.rtDst) :=
  Keyed.map_modifyFirst _ (fun a ha => by
    simp only [decide_eq_true_eq] at ha
    rw [hd, ha]) _

end Exec

/-! ## What no other node can tell -/

/-- Not a RREQ, a RREP or a RERR. -/
def Packet.Plain (p : Packet) : Prop :=
  p.ptype = .teaomdv → match p.body with
    | .rreq _ | .rrep _ | .rerr _ => False
    | _ => True

/-- A packet the agent may buffer: not its own, and not a broadcast. -/
def Packet.Data (p : Packet) : Prop := p.ptype ≠ .teaomdv ∧ p.daddr ≠ ipBroadcast

def Act.Quiet : Act → Prop
  | .schedule p _ => p.Plain
  | .distrust _ _ left => left ≠ 0
  | _ => True

namespace Exec

/-- The buffered packets are data for one node. -/
def DataQueue (x : Exec) : Prop := ∀ q ∈ x.rqueue, q.Data

/-- No entry with an even number was brought down for distrust. -/
def Calm (x : Exec) : Prop := ∀ d n, Act.distrust d n 0 ∈ x.log → n % 2 = 1

theorem quiet_nil (l : List Act) : ∃ acts, l = l ++ acts ∧ ∀ a ∈ acts, a.Quiet :=
  ⟨[], (List.append_nil l).symm, fun _ h => absurd h List.not_mem_nil⟩

/-- The table is untouched, and no advertisement or error goes out. -/
structure Aside (x y : Exec) : Prop where
  table : y.rtable = x.rtable := by rfl
  index : y.index = x.index := by rfl
  maxPaths : y.teaomdvMaxPaths = x.teaomdvMaxPaths := by rfl
  lenDiff : y.teaomdvPrimAltPathLenDiff = x.teaomdvPrimAltPathLenDiff := by rfl
  seqno : x.seqno % 2 = 0 → y.seqno % 2 = 0 := by exact fun h => h
  nbs : (x.nbhead.map (·.nbAddr)).Nodup → (y.nbhead.map (·.nbAddr)).Nodup := by exact fun h => h
  ids : (x.bihead.map (fun b => (b.src, b.id))).Nodup → (y.bihead.map (fun b => (b.src, b.id))).Nodup := by exact fun h => h
  queue : x.DataQueue → y.DataQueue := by exact fun h => h
  log : ∃ acts, y.log = x.log ++ acts ∧ ∀ a ∈ acts, a.Quiet := by exact Exec.quiet_nil _

namespace Aside

variable {x y z : Exec}

theorem refl (x : Exec) : Aside x x := {}

theorem trans (h : Aside x y) (h' : Aside y z) : Aside x z where
  table := h'.table.trans h.table
  index := h'.index.trans h.index
  maxPaths := h'.maxPaths.trans h.maxPaths
  lenDiff := h'.lenDiff.trans h.lenDiff
  seqno := h'.seqno ∘ h.seqno
  nbs := h'.nbs ∘ h.nbs
  ids := h'.ids ∘ h.ids
  queue := h'.queue ∘ h.queue
  log := by
    obtain ⟨as, h1, h2⟩ := h.log
    obtain ⟨bs, h3, h4⟩ := h'.log
    refine ⟨as ++ bs, by rw [h3, h1, List.append_assoc], fun a ha => ?_⟩
    exact (List.mem_append.1 ha).elim (h2 a) (h4 a)

theorem say (x : Exec) {a : Act} (ha : a.Quiet) : Aside x (x.say a) where
  log := ⟨[a], rfl, fun b hb => by rwa [List.mem_singleton.1 hb]⟩

theorem free (x : Exec) (p : Packet) : Aside x (x.free p) := say x trivial

theorem then_free (h : Aside x y) (p : Packet) : Aside x (y.free p) := h.trans (free y p)

theorem drop (x : Exec) (p : Packet) (r : DropReason) : Aside x (x.drop p r) := say x trivial

theorem schedule (x : Exec) {p : Packet} (hp : p.Plain) (d : Delay) : Aside x (x.schedule p d) := say x hp

theorem alloc (x : Exec) : Aside x x.alloc where
  log := ⟨[.alloc x.heap], rfl, fun b hb => by rw [List.mem_singleton.1 hb]; trivial⟩

theorem foldl {α : Type*} {f : Exec → α → Exec} (hf : ∀ x a, Aside x (f x a)) : ∀ (l : List α) (x : Exec), Aside x (l.foldl f x)
  | [], x => refl x
  | a :: l, x => (hf x a).trans (foldl hf l (f x a))

/-! ### One list rewritten -/

theorem withNbs (x : Exec) {l : List Neighbor} (h : (x.nbhead.map (·.nbAddr)).Nodup → (l.map (·.nbAddr)).Nodup) :
    Aside x { x with nbhead := l } where
  nbs := h

theorem withIds (x : Exec) {l : List BroadcastId}
    (h : (x.bihead.map (fun b => (b.src, b.id))).Nodup → (l.map (fun b => (b.src, b.id))).Nodup) :
    Aside x { x with bihead := l } where
  ids := h

theorem withQueue (x : Exec) {l : List Packet} (h : x.DataQueue → ∀ q ∈ l, q.Data) : Aside x { x with rqueue := l } where
  queue := h

/-! ### Neighbours and broadcast ids -/

theorem nbModify (x : Exec) (id : NsAddr) {f : Neighbor → Neighbor} (hf : ∀ nb, (f nb).nbAddr = nb.nbAddr) :
    Aside x (x.nbModify id f) :=
  withNbs x (fun h => by rwa [Keyed.map_modifyFirst _ (fun nb _ => hf nb)])

theorem nbInsert (env : Env) (x : Exec) (id : NsAddr) : Aside x (x.nbInsert env id) := by
  unfold Exec.nbInsert
  simp only
  split
  · rename_i hnone
    exact withNbs x (fun h => List.nodup_cons.2 ⟨fun hm => by
      obtain ⟨nb, hnb, rfl⟩ := List.mem_map.1 hm
      exact List.find?_eq_none.1 hnone nb hnb (by simp), h⟩)
  · exact nbModify x id (fun _ => rfl)

theorem nbEnsure (env : Env) (x : Exec) (id : NsAddr) : Aside x (x.nbEnsure env id) := by
  unfold Exec.nbEnsure
  split
  · exact nbInsert env x id
  · exact refl x

theorem idInsert (env : Env) {id : NsAddr} {bid : Nat} (h : x.idGet id bid = none) : Aside x (x.idInsert env id bid) :=
  withIds x (fun hnd => List.nodup_cons.2 ⟨fun hm => by
    obtain ⟨b, hb, heq⟩ := List.mem_map.1 hm
    have := List.find?_eq_none.1 h b hb
    simp only [Prod.mk.injEq] at heq
    simp [sameId, heq] at this, hnd⟩)

theorem idMark (x : Exec) (id : NsAddr) (bid : Nat) : Aside x (x.idMark id bid) :=
  withIds x (fun h => by
    rw [Keyed.map_modifyFirst]
    · exact h
    · exact fun _ _ => rfl)

theorem idPurge (env : Env) (x : Exec) : Aside x (x.idPurge env) :=
  withIds x (fun h => h.sublist (List.filter_sublist.map _))

/-! ### Buffered packets -/

theorem rqPurge (env : Env) (x : Exec) : Aside x (x.rqPurge env) where
  queue := fun h q hq => by
    have hq : q ∈ Keyed.eraseAll _ x.rqueue := hq
    rw [Keyed.eraseAll_eq_filter] at hq
    exact h q (List.mem_of_mem_filter hq)
  log := by
    refine ⟨_, rfl, fun a ha => ?_⟩
    obtain ⟨p, -, rfl⟩ := List.mem_map.1 ha
    trivial

theorem rqEvict (env : Env) (x : Exec) : Aside x (x.rqEvict env) := by
  unfold Exec.rqEvict
  split
  · exact refl x
  · rename_i p0 rest hq
    split
    · have h1 : Aside x { x with rqueue := rest } :=
        withQueue x (fun h q hm => h q (by rw [hq]; exact List.mem_cons_of_mem _ hm))
      exact (h1.trans (say _ (a := .deque p0) trivial)).trans (drop _ _ _)
    · exact refl x

theorem enque (env : Env) (x : Exec) {p : Packet} (hp : p.Data) : Aside x (x.enque env p) := by
  have h1 := (rqPurge env x).trans (rqEvict env (x.rqPurge env))
  have h2 : Aside ((x.rqPurge env).rqEvict env) { (x.rqPurge env).rqEvict env with
      rqueue := ((x.rqPurge env).rqEvict env).rqueue ++ [{ p with ts := env.now + teaomdvRtqTimeout }] } := by
    refine withQueue _ (fun h q hm => ?_)
    rcases List.mem_append.1 hm with hm | hm
    · exact h q hm
    · rw [List.mem_singleton.1 hm]
      exact hp
  exact (h1.trans h2).trans (say _ trivial)

theorem deque (env : Env) (x : Exec) (dst : NsAddr) : Aside x (x.deque env dst).2 := by
  unfold Exec.deque
  simp only
  split
  · exact rqPurge env x
  · have h1 : Aside (x.rqPurge env)
        { x.rqPurge env with rqueue := (x.rqPurge env).rqueue.eraseP (fun p => p.daddr = dst) } :=
      withQueue _ (fun h q hm => h q (List.mem_of_mem_eraseP hm))
    exact ((rqPurge env x).trans h1).trans (say _ trivial)

end Aside

/-- A packet taken out of the buffer was in it. -/
theorem mem_of_deque {env : Env} {x y : Exec} {dst : NsAddr} {p : Packet} (h : x.deque env dst = (some p, y)) :
    p ∈ x.rqueue ∧ p.daddr = dst := by
  unfold deque at h
  simp only at h
  split at h
  · cases h
  · rename_i q hq
    obtain ⟨h, -⟩ := Prod.mk.inj h
    obtain rfl : q = p := Option.some.inj h
    have hm : q ∈ Keyed.eraseAll _ x.rqueue := List.mem_of_find?_eq_some hq
    rw [Keyed.eraseAll_eq_filter] at hm
    exact ⟨List.mem_of_mem_filter hm, by simpa using List.find?_some hq⟩

end Exec

/-! ## What other nodes can tell -/

/-- The route, its hop count frozen, as a RREQ or RREP carries it: number `s`, `h` hops, last hop `l`. -/
def Route.Advertises (inf : Nat) (r : Route) (s h : Nat) (l : NsAddr) : Prop :=
  r.seqno = s ∧ h = u8 r.adv ∧ (r.adv = inf → maxHops r.hops = inf) ∧ ∃ f ∈ r.hops.head?, f.lasthop = l

namespace Exec

def Advertises (x : Exec) (inf : Nat) (d : NsAddr) (s h : Nat) (l : NsAddr) : Prop :=
  ∃ r, x.routeOf d = some r ∧ r.Advertises inf s h l

/-- A number passed on is even, or the one just heard. -/
def Passes (h : Heard) (s : Nat) : Prop := s % 2 = 0 ∨ ∃ a, h = .advert a ∧ a.seqno = s

/-- A routing packet that says what its sender knows: of itself, to whom it heard, or of a route it has. -/
def Honest (inf : Nat) (h : Heard) (x : Exec) (p : Packet) : Prop :=
  match p.body with
  | .rreq rq => p.saddr = x.index ∧
      ((rq.rqSrc = x.index ∧ rq.rqHopCount = 0 ∧ rq.rqSrcSeqno = x.seqno) ∨
        (rq.rqSrc ≠ x.index ∧ x.Advertises inf rq.rqSrc rq.rqSrcSeqno rq.rqHopCount rq.rqFirstHop ∧
          Passes h rq.rqSrcSeqno))
  | .rrep rp => p.prevHop = x.index ∧ rp.rpSrc = x.index ∧
      ((rp.rpDst = x.index ∧ rp.rpHopCount = 0 ∧ rp.rpDstSeqno = x.seqno ∧
          ∃ a, h = .advert a ∧ p.linkDst = a.sender ∧ rp.rpFirstHop = a.sender) ∨
        (rp.rpDst ≠ x.index ∧ x.Advertises inf rp.rpDst rp.rpDstSeqno rp.rpHopCount rp.rpFirstHop ∧
          Passes h rp.rpDstSeqno))
  | .rerr re => ∀ s ∈ re.unreachable, ∃ r, x.routeOf s.1 = some r ∧ r.flags ≠ .up ∧ r.seqno = s.2
  | _ => True

theorem Honest.congr {inf : Nat} {h : Heard} {x y : Exec} {p : Packet} (hi : y.index = x.index) (hs : y.seqno = x.seqno)
    (hr : y.routeOf = x.routeOf) (hp : x.Honest inf h p) : y.Honest inf h p := by
  unfold Honest Advertises at *
  rw [hi, hs, hr]
  exact hp

end Exec

/-- A small step of a handler that acts on `h`. -/
inductive Micro (env : Env) (h : Heard) : Exec → Exec → Prop
  | entry {x : Exec} {d : NsAddr} {e : RtEntry} (e' : RtEntry) : x.rtLookup d = some e →
      Rule env.inf x.teaomdvMaxPaths h e.route e'.route → (e.rtPclist.Nodup → e'.rtPclist.Nodup) →
      Micro env h x (x.put d e')
  | distrust {x : Exec} {d : NsAddr} {e : RtEntry} (e' : RtEntry) : x.rtLookup d = some e → e.rtFlags = .up →
      e'.route = e.route.fall env.inf e.rtSeqno → (e.rtPclist.Nodup → e'.rtPclist.Nodup) →
      Micro env h x ((x.put d e').say (.distrust d e.rtSeqno 0))
  | add {x : Exec} {d : NsAddr} (hops : Nat) : x.rtLookup d = none →
      Micro env h x { x with rtable := { rtDst := d, rtHops := hops } :: x.rtable }
  | emit {x : Exec} {p : Packet} (d : Delay) : ¬ p.Plain → x.Honest env.inf h p → Micro env h x (x.schedule p d)
  | aside {x y : Exec} : Exec.Aside x y → Micro env h x y

/-- What an invocation hears, in the state it finds. -/
def Exec.heard (x : Exec) : Input → Heard
  | .recv p =>
    if p.ptype = .teaomdv then
      match p.body with
      | .rreq rq => .advert ⟨rq.rqSrc, rq.rqSrcSeqno, rq.rqHopCount, p.saddr,
          if rq.rqHopCount = 0 then x.index else rq.rqFirstHop⟩
      | .rrep rp => .advert ⟨rp.rpDst, rp.rpDstSeqno, rp.rpHopCount, rp.rpSrc, rp.rpFirstHop⟩
      | .rerr re => .error re.unreachable
      | .pta re =>
        match x.rtLookup re.unreachableDst with
        | some rt =>
          if Exec.acceptsPta rt p.saddr re then .pta rt.route (rt.pathDelete p.saddr).route.hops re.unreachableDstSeqno
          else .nothing
        | none => .nothing
      | _ => .nothing
    else .nothing
  | .timer (.neighbor _) | .timer .routeCache => .clock
  | .timer (.localRepair _) => .repair
  | _ => .nothing

/-- What a fault implies of the state: a live entry with an odd number, or a number heard that a dead entry still has; a
null path is used of a live entry without paths, or on the way of a RREQ or RREP. -/
def Blame (h : Heard) (y : Exec) : Fault → Prop
  | .assertion .handleLinkFailureEven | .assertion .recvRequestEven | .assertion .recvErrorEven
  | .assertion .recvPtaEven => ∃ e ∈ y.rtable, e.rtFlags = .up ∧ e.rtSeqno % 2 ≠ 0
  | .assertion .recvRequestUp | .assertion .recvReplyUp =>
    y.Calm ∧ ∃ a, h = .advert a ∧ ∃ e ∈ y.rtable, e.rtSeqno = a.seqno ∧ e.rtFlags ≠ .up
  | .nullPath => (∃ e ∈ y.rtable, e.rtFlags = .up ∧ e.rtPathList = []) ∨ ∃ a, h = .advert a
  | _ => True

end TeAomdv

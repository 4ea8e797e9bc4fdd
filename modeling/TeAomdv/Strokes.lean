import TeAomdv.Purge
import TeAomdv.Waiting
/-!
# Strokes — the single writes of a handler

A stroke is one write of the source, with what the source has checked before it: whom an expiry is set for, what a packet
handed to `target_` repeats of the packet received, the trust of the neighbour a data packet is handed to.  Every handler
is a run of strokes (`handle_strokes`), so what no stroke breaks no handler breaks.
-/
namespace TeAomdv

open Relation (ReflTransGen)
open Fallible (Ends)

/-! ## What a write may do -/

/-- A write that adds no path, leaves the search for a route alone and names no next hop anew. -/
structure RtEntry.Marks (e e' : RtEntry) : Prop extends e.Minor e' where
  nexthops : e'.rtPathList.map (·.nexthop) ⊆ e.rtPathList.map (·.nexthop)

/-- A write that adds a path, or forgets the search for one. -/
structure RtEntry.Raises (e e' : RtEntry) : Prop where
  dst : e'.rtDst = e.rtDst
  timeout : e'.rtReqTimeout = e.rtReqTimeout ∨ e'.rtReqTimeout = 0
  hops : 0 ≤ e.rtLastHopCount → 0 ≤ e'.rtLastHopCount

/-- `nb'` is `nb` but for what was observed of it. -/
structure Neighbor.Same (nb nb' : Neighbor) : Prop where
  addr : nb'.nbAddr = nb.nbAddr
  tv : nb'.tv = nb.tv
  expire : nb'.nbExpire = nb.nbExpire

/-- `nb'` is `nb`, heard from at time `now`. -/
structure Neighbor.Refreshed (now : ℚ) (nb nb' : Neighbor) : Prop where
  addr : nb'.nbAddr = nb.nbAddr
  tv : nb'.tv = nb.tv
  expire : now + helloInterval ≤ nb'.nbExpire ∧ nb'.nbExpire ≤ now + 15 / 10 * allowedHelloLoss * helloInterval

namespace Input

/-- The input is a RREQ or RREP about a route to `d`. -/
def Advertises (inp : Input) (d : NsAddr) : Prop :=
  ∃ p, inp = .recv p ∧ p.ptype = .teaomdv ∧ ((∃ rq, p.body = .rreq rq ∧ rq.rqSrc = d) ∨ ∃ rp, p.body = .rrep rp ∧ rp.rpDst = d)

/-- The input is a RREQ of this source and broadcast id. -/
def Requests (inp : Input) (src : NsAddr) (bid : Nat) : Prop :=
  ∃ p rq, inp = .recv p ∧ p.ptype = .teaomdv ∧ p.body = .rreq rq ∧ rq.rqSrc = src ∧ rq.rqBcastId = bid

/-- The input is a HELLO or a PROB of neighbour `id`. -/
def Hears (inp : Input) (id : NsAddr) : Prop :=
  ∃ p, inp = .recv p ∧ p.ptype = .teaomdv ∧ ((∃ rp, p.body = .hello rp ∧ rp.rpDst = id) ∨ p.body = .prob ∧ p.saddr = id)

/-- The input is a data packet. -/
def Brings (inp : Input) : Prop := ∃ p, inp = .recv p ∧ p.ptype ≠ .teaomdv

/-- The input may make the node look for a route: a data packet, or the timer of the route cache. -/
def Seeks (inp : Input) : Prop := inp = .timer .routeCache ∨ inp.Brings

/-- The input is the timer of the neighbours. -/
def Forgets (inp : Input) : Prop := ∃ ifq, inp = .timer (.neighbor ifq)

end Input

/-- Two requests of one discovery. -/
structure Rreq.Akin (rq rq' : Rreq) : Prop where
  src : rq'.rqSrc = rq.rqSrc
  bcastId : rq'.rqBcastId = rq.rqBcastId
  dst : rq'.rqDst = rq.rqDst
  srcSeqno : rq'.rqSrcSeqno = rq.rqSrcSeqno
  timestamp : rq'.rqTimestamp = rq.rqTimestamp

/-- The reply is to the request. -/
structure Rrep.To (rp : Rrep) (rq : Rreq) : Prop where
  bcastId : rp.rpBcastId = rq.rqBcastId
  dst : rp.rpDst = rq.rqDst
  timestamp : rp.rpTimestamp = rq.rqTimestamp

/-- Two copies of one reply. -/
structure Rrep.Akin (rp rp' : Rrep) : Prop where
  bcastId : rp'.rpBcastId = rp.rpBcastId
  dst : rp'.rpDst = rp.rpDst
  timestamp : rp'.rpTimestamp = rp.rpTimestamp

namespace Exec

/-- The packet goes out on the first path of an entry that is up, and path and next hop are trusted. -/
structure Vouches (x : Exec) (p : Packet) : Prop where
  inet : p.addrType = .inet
  entry : ∃ d e f, x.rtLookup d = some e ∧ e.rtFlags = .up ∧ e.pathFind = some f ∧ f.nexthop = p.nextHop ∧
    trustThreshold ≤ f.FPT
  trust : trustThreshold ≤ x.trustOf p.nextHop

/-- What a handler run on `inp` hands to `target_`. -/
inductive Sends (inp : Input) (x : Exec) (p : Packet) : Prop
  /-- A PTA, RERR, HELLO, RCOM or PROB. -/
  | news : p.Mute → p.ptype = .teaomdv → Sends inp x p
  /-- A reply to the request received. -/
  | answer {q : Packet} {rq : Rreq} {rp : Rrep} : inp = .recv q → q.ptype = .teaomdv → q.body = .rreq rq →
      p.ptype = .teaomdv → p.body = .rrep rp → p.daddr = rq.rqSrc → rp.To rq → Sends inp x p
  /-- The request received. -/
  | request {q : Packet} {rq rq' : Rreq} : inp = .recv q → q.ptype = .teaomdv → q.body = .rreq rq →
      p.ptype = .teaomdv → p.body = .rreq rq' → rq.Akin rq' → Sends inp x p
  /-- The reply received. -/
  | reply {q : Packet} {rp rp' : Rrep} : inp = .recv q → q.ptype = .teaomdv → q.body = .rrep rp →
      p.ptype = .teaomdv → p.body = .rrep rp' → p.daddr = q.daddr → rp.Akin rp' → Sends inp x p
  /-- Data. -/
  | data : p.ptype ≠ .teaomdv → (p.ptype = .cbr → p.daddr = ipBroadcast ∨ x.Vouches p) → Sends inp x p

/-- One write of a handler run on `inp`. -/
inductive Stroke (env : Env) (inp : Input) : Exec → Exec → Prop
  /-- A write to the entry for `d` that adds no path. -/
  | mark {x : Exec} {d : NsAddr} {f : RtEntry → RtEntry} : (∀ e : RtEntry, e.Marks (f e)) → Stroke env inp x (x.rtModify d f)
  /-- A path is added to the entry for `d`, or its search is forgotten. -/
  | raise {x : Exec} {d : NsAddr} {f : RtEntry → RtEntry} : inp.Advertises d → (∀ e : RtEntry, e.Raises (f e)) →
      Stroke env inp x (x.rtModify d f)
  /-- `rt_add(d)`. -/
  | add {x : Exec} {d : NsAddr} : x.rtLookup d = none →
      Stroke env inp x { x with rtable := { rtDst := d, rtHops := env.unsetHops } :: x.rtable }
  /-- `sendRequest(d)`. -/
  | request {x y : Exec} {d : NsAddr} : inp.Seeks → x.sendRequest env d = .ok y → Stroke env inp x y
  /-- `id` becomes a neighbour. -/
  | meet {x : Exec} {id : NsAddr} : x.nbLookup id = none → Stroke env inp x
      { x with nbhead := Neighbor.new id env.now (env.now + helloInterval * allowedHelloLoss) :: x.nbhead }
  /-- Neighbour `id` is heard from. -/
  | hear {x : Exec} {id : NsAddr} {f : Neighbor → Neighbor} : inp.Hears id → (∀ nb : Neighbor, nb.Refreshed env.now (f nb)) →
      Stroke env inp x (x.nbModify id f)
  /-- Something is noted of neighbour `id`. -/
  | note {x : Exec} {id : NsAddr} {f : Neighbor → Neighbor} : (∀ nb : Neighbor, nb.Same (f nb)) →
      Stroke env inp x (x.nbModify id f)
  /-- Neighbour `id` is evaluated. -/
  | judge {x : Exec} {id : NsAddr} : inp = .timer .trust →
      Stroke env inp x (x.nbModify id (fun nb => (nb.setTV env.now).tvInit env.now))
  /-- `id` is no longer a neighbour. -/
  | part {x : Exec} {id : NsAddr} : inp.Forgets →
      Stroke env inp x { x with nbhead := x.nbhead.eraseP (fun nb => nb.nbAddr = id) }
  /-- The node's own number and the allocation counter. -/
  | own {x : Exec} (seqno heap : Nat) : Stroke env inp x { x with seqno := seqno, heap := heap }
  | cache {x : Exec} {src : NsAddr} {bid : Nat} : inp.Requests src bid → Stroke env inp x (x.idInsert env src bid)
  | answered {x : Exec} (src : NsAddr) (bid : Nat) : Stroke env inp x (x.idMark src bid)
  | expire {x : Exec} : inp = .timer .broadcast → Stroke env inp x (x.idPurge env)
  /-- A data packet is buffered. -/
  | hold {x : Exec} {p : Packet} : inp.Brings → p.Data → Stroke env inp x (x.enque env p)
  /-- What is buffered for `d` is asked for. -/
  | take {x : Exec} {d : NsAddr} : Stroke env inp x (x.deque env d).2
  | send {x : Exec} {p : Packet} {t : Delay} : Sends inp x p → Stroke env inp x (x.schedule p t)
  /-- Anything else that is done to a packet. -/
  | act {x : Exec} {a : Act} : (∀ p t, a ≠ .schedule p t) → Stroke env inp x (x.say a)

/-- Strokes lead from `x` to `y`. -/
def Strokes (env : Env) (inp : Input) : Exec → Exec → Prop := ReflTransGen (Stroke env inp)

end Exec

/-! ## The writes of the source are such writes -/

namespace RtEntry.Marks

variable {e e' e'' : RtEntry}

theorem refl (e : RtEntry) : e.Marks e := ⟨.refl e, List.Subset.refl _⟩

theorem trans (h : e.Marks e') (h' : e'.Marks e'') : e.Marks e'' := ⟨h.toMinor.trans h'.toMinor, List.Subset.trans h'.nexthops h.nexthops⟩

theorem of_subset (h : e.Minor e') (hs : e'.rtPathList ⊆ e.rtPathList) : e.Marks e' := ⟨h, List.map_subset _ hs⟩

theorem pcInsert (e : RtEntry) (n : NsAddr) : e.Marks (e.pcInsert n) := by
  refine of_subset (.pcInsert e n) ?_
  unfold RtEntry.pcInsert
  split <;> exact List.Subset.refl _

theorem pathDelete (e : RtEntry) (n : NsAddr) : e.Marks (e.pathDelete n) := of_subset (.pathDelete e n) (pathDelete_subset e n)

theorem rtDown (e : RtEntry) (inf : Nat) : e.Marks (e.rtDown inf) := of_subset (.rtDown e inf) (rtDown_subset e inf)

theorem advertise (e : RtEntry) (inf : Nat) : e.Marks (e.advertise inf) :=
  of_subset (.advertise e inf) (rtPathList_advertise e inf ▸ List.Subset.refl _)

theorem pathPurge (e : RtEntry) (now : ℚ) : e.Marks (e.pathPurge now) := of_subset (.pathPurge e now) (pathPurge_subset e now)

theorem modifyFind (e : RtEntry) {g : Path → Path} (hg : ∀ f, (g f).nexthop = f.nexthop) : e.Marks (e.modifyFind g) := by
  refine ⟨.modifyFind e g, ?_⟩
  have : (e.modifyFind g).rtPathList.map (·.nexthop) = e.rtPathList.map (·.nexthop) := by
    unfold RtEntry.modifyFind
    cases e.rtPathList with
    | nil => rfl
    | cons f l => simp [hg]
  rw [this]
  exact List.Subset.refl _

theorem modifyDisjoint (e : RtEntry) (n l : NsAddr) {g : Path → Path} (hg : ∀ f, (g f).nexthop = f.nexthop) :
    e.Marks (e.modifyDisjoint n l g) := by
  refine ⟨.modifyDisjoint e n l g, ?_⟩
  rw [show (e.modifyDisjoint n l g).rtPathList.map (·.nexthop) = e.rtPathList.map (·.nexthop) from
    Keyed.map_modifyFirst _ (fun f _ => hg f) _]
  exact List.Subset.refl _

theorem setSeqno (e : RtEntry) (n : Nat) : e.Marks (e.setSeqno n) := of_subset (.setSeqno e n) (List.Subset.refl _)

theorem setHighestSeqnoHeard (e : RtEntry) (n : Nat) : e.Marks (e.setHighestSeqnoHeard n) :=
  of_subset (.setHighestSeqnoHeard e n) (List.Subset.refl _)

theorem setError (e : RtEntry) (b : Bool) : e.Marks (e.setError b) := of_subset (.setError e b) (List.Subset.refl _)

theorem failed (e : RtEntry) (inf : Nat) : e.Marks (Exec.failed inf e) := (setSeqno e _).trans (rtDown _ inf)

theorem expired (e : RtEntry) (inf : Nat) : e.Marks (Exec.expired inf e) := (setSeqno e _).trans (rtDown _ inf)

end RtEntry.Marks

namespace Neighbor.Same

theorem addDataForward (nb : Neighbor) : nb.Same nb.addDataForward := ⟨rfl, rfl, rfl⟩

theorem addControlForward (nb : Neighbor) : nb.Same nb.addControlForward := ⟨rfl, rfl, rfl⟩

theorem recordCbr (nb : Neighbor) (uid : Nat) (now : ℚ) : nb.Same (nb.recordCbr uid now) := by
  unfold Neighbor.recordCbr
  split <;> exact ⟨rfl, rfl, rfl⟩

theorem recordPtteaomdv (nb : Neighbor) (uid : Nat) (now : ℚ) : nb.Same (nb.recordPtteaomdv uid now) := by
  unfold Neighbor.recordPtteaomdv
  split <;> exact ⟨rfl, rfl, rfl⟩

end Neighbor.Same

namespace Exec

variable {env : Env} {inp : Input} {x y z : Exec} {d : NsAddr} {e : RtEntry} {p : Packet}

namespace Strokes

theorem refl (x : Exec) : Strokes env inp x x := ReflTransGen.refl

theorem trans (h : Strokes env inp x y) (h' : Strokes env inp y z) : Strokes env inp x z := ReflTransGen.trans h h'

theorem one (h : Stroke env inp x y) : Strokes env inp x y := ReflTransGen.single h

/-- What every stroke keeps, a run of strokes keeps. -/
theorem invariant {P : Exec → Prop} (h : Strokes env inp x y) (hP : ∀ z w, P z → Stroke env inp z w → P w) (hx : P x) : P y :=
  Fallible.Traces.invariant_steps hP hx h

theorem mark (x : Exec) (d : NsAddr) {f : RtEntry → RtEntry} (hf : ∀ e : RtEntry, e.Marks (f e)) :
    Strokes env inp x (x.rtModify d f) := one (.mark hf)

theorem act (x : Exec) {a : Act} (ha : ∀ p t, a ≠ .schedule p t) : Strokes env inp x (x.say a) := one (.act ha)

theorem free (x : Exec) (p : Packet) : Strokes env inp x (x.free p) := by
  apply act
  rintro _ _ ⟨⟩

theorem drop (x : Exec) (p : Packet) (r : DropReason) : Strokes env inp x (x.drop p r) := by
  apply act
  rintro _ _ ⟨⟩

theorem alloc (x : Exec) : Strokes env inp x x.alloc := by
  have h1 : Strokes env inp x { x with heap := x.heap + 1 } := one (.own x.seqno _)
  refine h1.trans (act _ ?_)
  rintro _ _ ⟨⟩

theorem then_free (h : Strokes env inp x y) (p : Packet) : Strokes env inp x (y.free p) := h.trans (free y p)

theorem then_mark (h : Strokes env inp x y) (d : NsAddr) {f : RtEntry → RtEntry} (hf : ∀ e : RtEntry, e.Marks (f e)) :
    Strokes env inp x (y.rtModify d f) := h.trans (mark y d hf)

/-- A packet of one hop, made by the node. -/
theorem news (x : Exec) {p : Packet} (hp : p.Mute) (ht : p.ptype = .teaomdv) (t : Delay) : Strokes env inp x (x.schedule p t) :=
  one (.send (.news hp ht))

end Strokes

/-- The buffer holds data as long as it is only strokes that write to it. -/
theorem strokes_dataQueue (h : Strokes env inp x y) (hx : x.DataQueue) : y.DataQueue := by
  refine h.invariant (fun z w hz hs => ?_) hx
  cases hs with
  | request _ hy =>
    obtain ⟨rt, -, hs⟩ := exists_of_sendRequest hy
    exact fun q hq => hz q (hs.rqueue q hq)
  | hold _ hp => exact (Aside.enque env _ hp).queue hz
  | take => exact (Aside.deque env _ _).queue hz
  | mark | raise | add | meet | hear | note | judge | part | own | cache | answered | expire | send | act => exact hz

/-! ## What a stroke does to one entry, and to the buffer -/

/-- What a stroke from `x` to `y` does to the entry for `d`. -/
inductive Touch (env : Env) (inp : Input) (d : NsAddr) (x y : Exec) : Option RtEntry → Option RtEntry → Prop
  | keep (o : Option RtEntry) : Touch env inp d x y o o
  | mark {e e' : RtEntry} : e.Marks e' → Touch env inp d x y (some e) (some e')
  | raise {e e' : RtEntry} : inp.Advertises d → e.Raises e' → Touch env inp d x y (some e) (some e')
  | add (hops : Nat) : Touch env inp d x y none (some { rtDst := d, rtHops := hops })
  | request {e : RtEntry} : inp.Seeks → Sought env d e x y → Touch env inp d x y (some e) (some (e.sought env))

theorem rtFlags_sought (env : Env) (e : RtEntry) : (e.sought env).rtFlags = e.rtFlags := by
  unfold RtEntry.sought
  split <;> rfl

theorem rtPathList_sought (env : Env) (e : RtEntry) : (e.sought env).rtPathList = e.rtPathList := by
  unfold RtEntry.sought
  split <;> rfl

theorem touch_of_rtLookup {y' : Exec} (h : y'.rtLookup d = x.rtLookup d) : Touch env inp d x y (x.rtLookup d) (y'.rtLookup d) := by
  rw [h]
  exact .keep _

theorem touch_rtModify {d' : NsAddr} {f : RtEntry → RtEntry} (hdst : ∀ e, (f e).rtDst = e.rtDst)
    (hf : ∀ e, x.rtLookup d = some e → d = d' → Touch env inp d x y (some e) (some (f e))) :
    Touch env inp d x y (x.rtLookup d) ((x.rtModify d' f).rtLookup d) := by
  by_cases hd : d = d'
  · subst hd
    cases he : x.rtLookup d with
    | none =>
      have hsame : x.rtModify d f = x := by
        unfold rtModify
        rw [Keyed.modifyFirst_of_none he]
      rw [hsame, he]
      exact .keep _
    | some e =>
      rw [rtLookup_rtModify he ((hdst e).trans (rtDst_of_rtLookup he))]
      exact hf e he rfl
  · rw [rtLookup_rtModify_ne hd hdst]
    exact .keep _

theorem stroke_touch (hs : Stroke env inp x y) (d : NsAddr) : Touch env inp d x y (x.rtLookup d) (y.rtLookup d) := by
  cases hs with
  | mark hf => exact touch_rtModify (fun e => (hf e).dst) (fun e _ _ => .mark (hf e))
  | @raise d' f had hf => exact touch_rtModify (fun e => (hf e).dst) (fun e _ hd => .raise (hd ▸ had) (hf e))
  | @add d' hn =>
    by_cases hd : d = d'
    · subst hd
      have hnew : ({ x with rtable := { rtDst := d, rtHops := env.unsetHops } :: x.rtable } : Exec).rtLookup d =
          some { rtDst := d, rtHops := env.unsetHops } := List.find?_cons_of_pos (by simp)
      rw [hnew, hn]
      exact .add _
    · refine touch_of_rtLookup (List.find?_cons_of_neg ?_)
      simpa using fun h => hd h.symm
  | @request _ d' hs hy =>
    obtain ⟨rt, hrt, hsought⟩ := exists_of_sendRequest hy
    by_cases hd : d = d'
    · subst hd
      rw [hrt, hsought.entry hrt]
      exact .request hs hsought
    · exact touch_of_rtLookup (hsought.others hrt hd)
  | hold => exact touch_of_rtLookup (rtLookup_congr (Quiet.enque env _ _).table d)
  | take => exact touch_of_rtLookup (rtLookup_congr (Quiet.deque env _ _).table d)
  | meet | hear | note | judge | part | own | cache | answered | expire | send | act => exact .keep _

theorem mem_deque {q : Packet} (h : q ∈ (x.deque env d).2.rqueue) : q ∈ x.rqueue := by
  unfold deque at h
  simp only at h
  split at h
  · exact mem_rqPurge h
  · exact mem_rqPurge (List.mem_of_mem_eraseP h)

theorem mem_enque {q p : Packet} (h : q ∈ (x.enque env p).rqueue) : q ∈ x.rqueue ∨ q.ts = env.now + teaomdvRtqTimeout := by
  unfold enque at h
  simp only [say] at h
  rcases List.mem_append.1 h with h | h
  · have hpurged : q ∈ (x.rqPurge env).rqueue := by
      unfold rqEvict at h
      split at h
      · exact h
      · rename_i p0 rest heq
        rw [heq]
        split at h
        · exact List.mem_cons_of_mem _ h
        · rwa [heq] at h
    exact .inl (mem_rqPurge hpurged)
  · rw [List.mem_singleton.1 h]
    exact .inr rfl

/-- What is in the buffer was there, or was put there by a data packet's arrival. -/
theorem stroke_queue (hs : Stroke env inp x y) {q : Packet} (hq : q ∈ y.rqueue) :
    q ∈ x.rqueue ∨ inp.Brings ∧ q.ts = env.now + teaomdvRtqTimeout := by
  cases hs with
  | request _ hy =>
    obtain ⟨rt, -, hsought⟩ := exists_of_sendRequest hy
    have := hsought.queue
    split at this
    · exact .inl (this q hq).1
    · exact .inl (this ▸ hq)
  | hold hb => exact (mem_enque hq).imp_right (fun h => ⟨hb, h⟩)
  | take => exact .inl (mem_deque hq)
  | mark | raise | add | meet | hear | note | judge | part | own | cache | answered | expire | send | act => exact .inl hq

/-! ## Every function is a run of strokes -/

theorem drain_strokes {body : Exec → Packet → Result}
    (hb : ∀ y q, y.DataQueue → q.Data → Ends (Strokes env inp y) (body y q)) (hx : x.DataQueue) (d : NsAddr) :
    Ends (Strokes env inp x) (x.drain env d body) := by
  have loop : ∀ (n : Nat) (y : Exec), Strokes env inp x y → Ends (Strokes env inp x) (drainLoop env d body n y) := by
    intro n
    induction n with
    | zero => exact fun _ h => Ends.ok h
    | succ n ih =>
      intro y h
      have hy := strokes_dataQueue h hx
      have htake : Strokes env inp y (y.deque env d).2 := .one .take
      unfold drainLoop
      split
      · rename_i z hz
        rw [hz] at htake
        exact Ends.ok (h.trans htake)
      · rename_i q z hz
        rw [hz] at htake
        have hq := hy q (mem_of_deque hz).1
        exact Ends.bind (hb z q (strokes_dataQueue htake hy) hq) (fun w hw => ih w ((h.trans htake).trans hw))
  exact loop _ x (.refl x)

theorem nbInsert_strokes {id : NsAddr} (hn : x.nbLookup id = none) : Strokes env inp x (x.nbInsert env id) := by
  simp only [nbInsert, hn]
  exact .one (.meet hn)

theorem nbEnsure_strokes (x : Exec) (id : NsAddr) : Strokes env inp x (x.nbEnsure env id) := by
  unfold nbEnsure
  split
  · rename_i hn
    exact nbInsert_strokes hn
  · exact .refl _

theorem countForward_strokes (x : Exec) (p : Packet) : Strokes env inp x (x.countForward env p) := by
  unfold countForward
  split
  · refine .one (.note (fun nb => ?_))
    split
    · exact .addDataForward nb
    · exact .recordCbr nb _ _
  · refine .one (.note (fun nb => ?_))
    split
    · exact .addControlForward nb
    · exact .recordPtteaomdv nb _ _
  · exact .refl _

theorem downIfEmpty_strokes (x : Exec) (d : NsAddr) (rt : RtEntry) {renumber : RtEntry → RtEntry}
    (hr : ∀ e : RtEntry, e.Marks (renumber e)) :
    Ends (fun r => Strokes env inp x r.1) (x.downIfEmpty env d rt renumber) := by
  unfold downIfEmpty
  refine Ends.bind (P := fun _ => True) (fun _ _ => trivial) (fun empty _ => Ends.ok ?_)
  cases empty with
  | true => exact .mark x d (fun e => (hr e).trans (.rtDown _ _))
  | false => exact .refl _

theorem reports_strokes (dst : NsAddr) (seqno : Nat) (lasthop : NsAddr → NsAddr) : ∀ (pcs : List NsAddr) (x : Exec),
    Strokes env inp x (pcs.foldl (reportDistrust dst seqno lasthop) x)
  | [], x => .refl x
  | pc :: pcs, x => by
    have h1 : Strokes env inp x (reportDistrust dst seqno lasthop x pc) := by
      apply (Strokes.alloc x).trans
      exact Strokes.news x.alloc (by trivial) rfl _
    exact h1.trans (reports_strokes dst seqno lasthop pcs _)

theorem forwardDistrust_strokes (x : Exec) (d : NsAddr) (path : Path) (p : Packet) :
    Ends (Strokes env inp x) (x.forwardDistrust env d path p) := by
  unfold forwardDistrust
  split
  · exact Ends.error _
  rename_i rt _
  have h1 : Strokes env inp x _ := reports_strokes rt.rtDst rt.rtSeqno (fun _ => path.lasthop) rt.rtPclist x
  refine Ends.bind (P := fun r => Strokes env inp _ r.1) (downIfEmpty_strokes _ d _ .refl) (fun r hr => Ends.ok ?_)
  refine (((h1.then_mark d (fun e => .pathDelete e _)).trans hr).trans (.act _ ?_)).trans (.drop _ p _)
  rintro _ _ ⟨⟩

theorem trustOf_nbModify (x : Exec) (id n : NsAddr) {f : Neighbor → Neighbor} (hf : ∀ nb : Neighbor, nb.Same (f nb)) :
    (x.nbModify id f).trustOf n = x.trustOf n := by
  unfold trustOf
  rw [nbLookup_nbModify x id (fun nb => (hf nb).addr)]
  by_cases hn : n = id
  · rw [if_pos hn]
    cases x.nbLookup n with
    | none => rfl
    | some nb => exact (hf nb).tv
  · rw [if_neg hn]

namespace Vouches

/-- A write that keeps an entry up and its first path trusted. -/
theorem rtModify (h : x.Vouches p) (d : NsAddr) {f : RtEntry → RtEntry} (hdst : ∀ e, (f e).rtDst = e.rtDst)
    (hup : ∀ e : RtEntry, (f e).rtFlags = e.rtFlags) (hfind : ∀ (e : RtEntry) g, e.pathFind = some g →
      ∃ g', (f e).pathFind = some g' ∧ g'.nexthop = g.nexthop ∧ g'.FPT = g.FPT) : (x.rtModify d f).Vouches p := by
  obtain ⟨d', e, g, he, hflag, hg, hn, ht⟩ := h.entry
  refine ⟨h.inet, ?_, h.trust⟩
  by_cases hd : d' = d
  · subst hd
    obtain ⟨g', hg', hn', ht'⟩ := hfind e g hg
    refine ⟨d', f e, g', rtLookup_rtModify he ((hdst e).trans (rtDst_of_rtLookup he)), (hup e).trans hflag, hg', ?_, ?_⟩
    · exact hn'.trans hn
    · exact ht'.symm ▸ ht
  · exact ⟨d', e, g, (rtLookup_rtModify_ne hd hdst).trans he, hflag, hg, hn, ht⟩

theorem countForward (h : x.Vouches p) (q : Packet) : (x.countForward env q).Vouches p := by
  have note : ∀ (id : NsAddr) {f : Neighbor → Neighbor}, (∀ nb : Neighbor, nb.Same (f nb)) → (x.nbModify id f).Vouches p :=
    fun id f hf => ⟨h.inet, h.entry, (trustOf_nbModify x id p.nextHop hf).symm ▸ h.trust⟩
  unfold Exec.countForward
  split
  · refine note _ (fun nb => ?_)
    split
    · exact .addDataForward nb
    · exact .recordCbr nb _ _
  · refine note _ (fun nb => ?_)
    split
    · exact .addControlForward nb
    · exact .recordPtteaomdv nb _ _
  · exact h

end Vouches

theorem pathFind_modifyFind {g : Path} (hg : e.pathFind = some g) (f : Path → Path) : (e.modifyFind f).pathFind = some (f g) := by
  unfold RtEntry.pathFind RtEntry.modifyFind at *
  rw [List.head?_modifyHead, hg]
  rfl

theorem rtLookup_nbEnsure (env : Env) (x : Exec) (id d : NsAddr) : (x.nbEnsure env id).rtLookup d = x.rtLookup d :=
  rtLookup_congr (Aside.nbEnsure env x id).table d

/-- A packet of the agent's own that goes on with the body it has. -/
def Repeats (inp : Input) (p : Packet) : Prop :=
  p.ptype = .teaomdv → ∀ (y : Exec) (q : Packet), q.ptype = p.ptype → q.body = p.body → q.daddr = p.daddr → Sends inp y q

theorem forwardSend_strokes (hp : Repeats inp p) (hv : p.ptype = .cbr → x.Vouches p) (d : NsAddr) (delay : ℚ) :
    Ends (Strokes env inp x) (x.forwardSend env d p delay) := by
  have h0 : Strokes env inp x (x.countForward env p) := countForward_strokes x p
  have h1 := h0.then_mark d
    (f := fun rt => rt.modifyFind (fun path => { path with expire := env.now + activeRouteTimeout }))
    (fun e => .modifyFind e (fun _ => rfl))
  have hv1 : p.ptype = .cbr → ((x.countForward env p).rtModify d (fun rt => rt.modifyFind (fun path =>
      { path with expire := env.now + activeRouteTimeout }))).Vouches p := by
    intro ht
    have hfind : ∀ (e : RtEntry) g, e.pathFind = some g → ∃ g', (e.modifyFind (fun path =>
        { path with expire := env.now + activeRouteTimeout })).pathFind = some g' ∧ g'.nexthop = g.nexthop ∧ g'.FPT = g.FPT :=
      fun e g hg => ⟨_, pathFind_modifyFind hg _, rfl, rfl⟩
    exact ((hv ht).countForward p).rtModify d (fun _ => rfl) (fun _ => rfl) hfind
  unfold forwardSend
  simp only
  generalize (x.countForward env p).rtModify d _ = y at h1 hv1
  split
  · exact Ends.error _
  have hsend : ∀ z : Exec, (p.ptype = .cbr → z.Vouches p) → Sends inp z { p with direction := .down } := by
    intro z hz
    by_cases ht : p.ptype = .teaomdv
    · exact hp ht z _ rfl rfl rfl
    · refine .data ht (fun hc => .inr ?_)
      exact ⟨(hz hc).inet, (hz hc).entry, (hz hc).trust⟩
  refine Ends.ok ?_
  split
  · apply (h1.then_mark d (fun e => .setError e true)).trans
    exact .one (.send (hsend _ (fun ht => (hv1 ht).rtModify d (fun _ => rfl) (fun _ => rfl) (fun _ g hg => ⟨g, hg, rfl, rfl⟩))))
  · exact h1.trans (.one (.send (hsend y hv1)))

theorem forward_strokes (hp : Repeats inp p) (x : Exec) (rt : Option NsAddr) (delay : ℚ) :
    Ends (Strokes env inp x) (x.forward env rt p delay) := by
  unfold forward
  split
  · exact Ends.ok (.drop x p _)
  split
  · refine Ends.ok (.act x ?_)
    rintro _ _ ⟨⟩
  cases rt with
  | none =>
    simp only
    split
    · rename_i hb
      refine Ends.ok (.one (.send ?_))
      by_cases ht : p.ptype = .teaomdv
      · exact hp ht x _ rfl rfl rfl
      · exact .data ht (fun _ => .inl hb)
    · exact Ends.error _
  | some d =>
    simp only
    unfold forwardRoute
    split
    · exact Ends.error _
    rename_i rt hrt
    split
    · exact Ends.error _
    rename_i hup
    split
    · exact Ends.error _
    rename_i path hpath
    have h1 : Strokes env inp x _ := (Strokes.mark x d (fun e => .pcInsert e p.prevHop)).trans (nbEnsure_strokes _ path.nexthop)
    have hlook := rtLookup_nbEnsure env (x.rtModify d (fun rt => rt.pcInsert p.prevHop)) path.nexthop d
    rw [rtLookup_rtModify hrt ((RtEntry.Minor.pcInsert rt p.prevHop).dst.trans (rtDst_of_rtLookup hrt))] at hlook
    simp only
    generalize (x.rtModify d (fun rt => rt.pcInsert p.prevHop)).nbEnsure env path.nexthop = y at h1 hlook
    have h2 := h1.then_mark d (f := fun rt => rt.modifyFind (fun f => { f with FPT := min path.FPT (y.trustOf path.nexthop) }))
      (fun e => .modifyFind e (fun _ => rfl))
    have hp' : Repeats inp { p with addrType := .inet, nextHop := path.nexthop, pprevHop := p.prevHop, prevHop := y.index } := hp
    split
    · split
      · exact Ends.mono (forwardDistrust_strokes _ d path _) (fun z hz => h2.trans hz)
      · rename_i hfpt
        refine Ends.mono (forwardSend_strokes hp' (fun _ => ?_) d delay) (fun z hz => h2.trans hz)
        have ht : trustThreshold ≤ y.trustOf path.nexthop := (le_min_iff.1 (not_lt.1 hfpt)).2
        have hfind : (rt.pcInsert p.prevHop).pathFind = some path := by
          rw [← hpath]
          unfold RtEntry.pcInsert
          split <;> rfl
        have hflag : (rt.pcInsert p.prevHop).rtFlags = .up := by
          unfold RtEntry.pcInsert
          split <;> exact not_not.1 hup
        have hdst : (rt.pcInsert p.prevHop).rtDst = d := rtDst_of_rtLookup hlook
        exact ⟨rfl, ⟨d, _, _, rtLookup_rtModify hlook hdst, hflag, pathFind_modifyFind hfind _, rfl, not_lt.1 hfpt⟩, ht⟩
    · rename_i hcbr
      exact Ends.mono (forwardSend_strokes hp' (fun h => absurd h hcbr) d delay) (fun z hz => h1.trans hz)

end Exec

end TeAomdv

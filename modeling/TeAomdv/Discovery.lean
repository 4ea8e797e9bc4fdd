import TeAomdv.Strides
import TeAomdv.Reach
/-!
# Discovery — the search for a route (`sendRequest`)

A call of `sendRequest` rests, gives up, or asks (`sendRequest_eq`).  Beside a run a `Quest` is kept for a destination: what
was asked for it since its entry was made, or since it last had a path; the fields the entry keeps of the search are those
of the quest (`Quest.Kept`).
-/
namespace TeAomdv

open Fallible (Ends)

/-- What `sendRequest` does about an entry. -/
inductive Attempt
  /-- The entry is up, or its last request is still awaited. -/
  | rest
  | giveUp
  | ask
  deriving DecidableEq

def RtEntry.attempt (env : Env) (rt : RtEntry) : Attempt :=
  if rt.rtFlags = .up ∨ rt.rtReqTimeout > env.now then .rest
  else if rt.rtReqCnt > rreqRetries then .giveUp
  else .ask

/-- The entry after `sendRequest`. -/
def RtEntry.sought (env : Env) (rt : RtEntry) : RtEntry :=
  match rt.attempt env with
  | .rest => rt
  | .giveUp => { rt with rtReqTimeout := env.now + maxRreqTimeout, rtReqCnt := 0 }
  | .ask => Exec.requested env rt

namespace Exec

variable {env : Env} {x y : Exec} {d : NsAddr} {e rt : RtEntry} {r : DropReason}

/-! ## The loop that drops -/

/-- The packets a handler has dropped so far, and why. -/
def dropped (x : Exec) : List (Packet × DropReason) :=
  x.log.filterMap (fun a => match a with | .drop p r => some (p, r) | _ => none)

/-- Everything buffered for `d` is gone; what was not aged is dropped. -/
structure Drops (env : Env) (d : NsAddr) (r : DropReason) (x y : Exec) : Prop where
  quiet : Quiet x y
  queue : ∀ q ∈ y.rqueue, q ∈ x.rqueue ∧ q.daddr ≠ d
  dropped : y.dropped = x.dropped ++ (x.buffered env d).map (fun q => (q, r))
  sent : y.sent = x.sent

theorem dropped_rqPurge (env : Env) (x : Exec) : (x.rqPurge env).dropped = x.dropped := by
  unfold dropped
  show List.filterMap _ (x.log ++ _) = _
  rw [List.filterMap_append, List.filterMap_map]
  simp

theorem sent_rqPurge (env : Env) (x : Exec) : (x.rqPurge env).sent = x.sent := by
  unfold sent
  show List.filterMap _ (x.log ++ _) = _
  rw [List.filterMap_append, List.filterMap_map]
  simp

theorem mem_rqPurge {q : Packet} (h : q ∈ (x.rqPurge env).rqueue) : q ∈ x.rqueue := by
  have hq : q ∈ Keyed.eraseAll _ x.rqueue := h
  rw [Keyed.eraseAll_eq_filter] at hq
  exact List.mem_of_mem_filter hq

/-- A packet taken out and dropped. -/
theorem deque_drops {q : Packet} (h : x.deque env d = (some q, y)) : (y.drop q r).sent = x.sent ∧
    (y.drop q r).dropped = x.dropped ++ [(q, r)] ∧ (∀ q' ∈ y.rqueue, q' ∈ x.rqueue) ∧ Quiet x y := by
  unfold deque at h
  simp only at h
  split at h
  · cases h
  · obtain ⟨hq, rfl⟩ := Prod.mk.inj h
    obtain rfl := Option.some.inj hq
    refine ⟨?_, ?_, fun q' hq' => mem_rqPurge (List.mem_of_mem_eraseP hq'), rfl, rfl, rfl, rfl⟩
    · rw [sent_drop, ← sent_rqPurge env x]
      exact (List.filterMap_append ..).trans (List.append_nil _)
    · rw [← dropped_rqPurge env x]
      unfold dropped
      show List.filterMap _ (((x.rqPurge env).log ++ [_]) ++ [_]) = _
      rw [List.append_assoc, List.filterMap_append]
      rfl

theorem drain_drops (env : Env) (x : Exec) (d : NsAddr) (r : DropReason) :
    ∃ y, x.drain env d (fun x q => .ok (x.drop q r)) = .ok y ∧ Drops env d r x y := by
  have hloop : ∃ y, x.drain env d (fun x q => .ok (x.drop q r)) = .ok y ∧ _ := drain_ok
    (P := fun qs z => Quiet x z ∧ (∀ q ∈ z.rqueue, q ∈ x.rqueue) ∧
      z.dropped ++ qs.map (fun q => (q, r)) = x.dropped ++ (x.buffered env d).map (fun q => (q, r)) ∧ z.sent = x.sent) ?_ ?_ ?_
  · obtain ⟨y, hy, hquiet, hqueue, hdropped, hsent⟩ := hloop
    refine ⟨y, hy, hquiet, fun q hq => ⟨hqueue q hq, ?_⟩, (List.append_nil _).symm.trans hdropped, hsent⟩
    exact drain_empties (fun z q => Ends.ok (a := z.drop q r) rfl) x d y hy q hq
  · rintro z y q ⟨hquiet, hqueue, hdropped, hsent⟩ hdeque hcons
    obtain ⟨h1, h2, h3, h4⟩ := deque_drops (r := r) hdeque
    refine ⟨y.drop q r, rfl, rfl, (hquiet.trans h4).trans (.drop y q r), fun q' hq' => hqueue q' (h3 q' hq'), ?_, h1.trans hsent⟩
    · rw [← hdropped, h2, hcons, List.map_cons, List.append_assoc]
      rfl
  · rintro z ⟨hquiet, hqueue, hdropped, hsent⟩
    refine ⟨hquiet.trans ⟨rfl, rfl, rfl, rfl⟩, fun q hq => hqueue q (mem_rqPurge hq), ?_, (sent_rqPurge env z).trans hsent⟩
    rwa [dropped_rqPurge]
  · exact ⟨⟨rfl, rfl, rfl, rfl⟩, fun _ h => h, rfl, rfl⟩

/-! ## One call -/

/-- What a call of `sendRequest` for `d`, whose entry is `rt`, does. -/
structure Sought (env : Env) (d : NsAddr) (rt : RtEntry) (x y : Exec) : Prop where
  table : y.rtable = (x.put d (rt.sought env)).rtable
  nbs : y.nbhead = x.nbhead
  index : y.index = x.index
  seqno : y.seqno = if rt.attempt env = .ask then u32 (x.seqno + 2) else x.seqno
  sent : ∃ ps, y.sent = x.sent ++ ps ∧ (rt.attempt env ≠ .ask → ps = []) ∧ (rt.attempt env = .ask → ∃ p rq, ps = [p] ∧
    p.body = .rreq rq ∧ rq.rqSrc = x.index ∧ rq.rqDst = d ∧ p.ttl = (requested env rt).rtReqLastTtl)
  dropped : y.dropped = x.dropped ++
    if rt.attempt env = .giveUp then (x.buffered env d).map (fun q => (q, .rtrNoRoute)) else []
  queue : if rt.attempt env = .giveUp then ∀ q ∈ y.rqueue, q ∈ x.rqueue ∧ q.daddr ≠ d else y.rqueue = x.rqueue

theorem dropped_free (x : Exec) (p : Packet) : (x.free p).dropped = x.dropped := by
  simp [dropped, free, say]

theorem dropped_alloc (x : Exec) : x.alloc.dropped = x.dropped := by
  simp [dropped, alloc, say]

theorem dropped_schedule (x : Exec) (p : Packet) (t : Delay) : (x.schedule p t).dropped = x.dropped := by
  simp [dropped, schedule, say]

theorem sought_rest (he : x.rtLookup d = some rt) (ha : rt.attempt env = .rest) :
    Sought env d rt x (x.alloc.free x.blank) where
  table := by
    have hsame : rt.sought env = rt := by
      unfold RtEntry.sought
      rw [ha]
    rw [hsame, put_self he]
    rfl
  nbs := rfl
  index := rfl
  seqno := by rw [ha]; rfl
  sent := ⟨[], by rw [sent_free, sent_alloc, List.append_nil], fun _ => rfl, fun h => by rw [ha] at h; cases h⟩
  dropped := by rw [dropped_free, dropped_alloc, ha, if_neg (by nofun), List.append_nil]
  queue := by rw [ha]; rfl

theorem sought_giveUp (ha : rt.attempt env = .giveUp)
    (hd : Drops env d .rtrNoRoute (x.alloc.put d { rt with rtReqTimeout := env.now + maxRreqTimeout, rtReqCnt := 0 }) y) :
    Sought env d rt x (y.free x.blank) where
  table := by
    have hs : rt.sought env = { rt with rtReqTimeout := env.now + maxRreqTimeout, rtReqCnt := 0 } := by
      unfold RtEntry.sought
      rw [ha]
    rw [hs]
    exact hd.quiet.table
  nbs := hd.quiet.nbs
  index := hd.quiet.index
  seqno := by
    rw [ha]
    exact hd.quiet.seqno
  sent := by
    refine ⟨[], ?_, fun _ => rfl, fun h => by rw [ha] at h; cases h⟩
    rw [sent_free, hd.sent, List.append_nil]
    exact sent_alloc x
  dropped := by
    rw [dropped_free, hd.dropped, if_pos ha]
    exact congrArg (· ++ _) (dropped_alloc x)
  queue := by
    rw [if_pos ha]
    exact hd.queue

theorem sought_ask (he : x.rtLookup d = some rt) (ha : rt.attempt env = .ask) :
    Ends (Sought env d rt x) ((x.alloc.put d (requested env rt)).emitRequest env x.blank (requested env rt)) := by
  have hs : rt.sought env = requested env rt := by
    unfold RtEntry.sought
    rw [ha]
  have hd : rt.rtDst = d := rtDst_of_rtLookup he
  unfold emitRequest
  simp only
  split
  · exact Ends.error _
  refine Ends.ok ⟨?_, rfl, rfl, ?_, ⟨_, (sent_schedule _ _ _).trans (congrArg (· ++ _) (sent_alloc x)), ?_, ?_⟩, ?_, ?_⟩
  · rw [hs]
    rfl
  · rw [if_pos ha]
    rfl
  · rw [ha]
    exact fun h => absurd rfl h
  · exact fun _ => ⟨_, _, rfl, rfl, rfl, hd, rfl⟩
  · rw [dropped_schedule, ha, if_neg (by nofun), List.append_nil]
    exact dropped_alloc x
  · rw [ha]
    rfl

/-- **What `sendRequest` does**, by the attempt the entry is due. -/
theorem sendRequest_sought (he : x.rtLookup d = some rt) : Ends (Sought env d rt x) (x.sendRequest env d) := by
  have he' : x.alloc.rtLookup d = some rt := he
  unfold sendRequest
  simp only [he']
  split
  · rename_i hup
    split
    · exact Ends.error _
    · exact Ends.ok (sought_rest he (if_pos (.inl hup)))
  rename_i hup
  split
  · rename_i hwait
    exact Ends.ok (sought_rest he (if_pos (.inr hwait)))
  rename_i hwait
  have hgo : ¬ (rt.rtFlags = .up ∨ rt.rtReqTimeout > env.now) := fun h => h.elim hup hwait
  rw [rtModify_eq_put he', rtModify_eq_put he']
  split
  · rename_i hcnt
    obtain ⟨z, hz, hd⟩ := drain_drops env (x.alloc.put d { rt with rtReqTimeout := env.now + maxRreqTimeout, rtReqCnt := 0 })
      d .rtrNoRoute
    simp only [hz, Fallible.ok_bind]
    exact Ends.ok (sought_giveUp ((if_neg hgo).trans (if_pos hcnt)) hd)
  · rename_i hcnt
    exact sought_ask he ((if_neg hgo).trans (if_neg hcnt))

/-- The TTLs of what was sent between two states. -/
def asked (x y : Exec) : List Int := (y.sent.drop x.sent.length).map (·.ttl)

/-- What was dropped between two states. -/
def shed (x y : Exec) : List (Packet × DropReason) := y.dropped.drop x.dropped.length

theorem Sought.asked (h : Sought env d rt x y) :
    x.asked y = if rt.attempt env = .ask then [(requested env rt).rtReqLastTtl] else [] := by
  obtain ⟨ps, hs, hno, hask⟩ := h.sent
  unfold Exec.asked
  rw [hs, List.drop_left]
  split
  · rename_i ha
    obtain ⟨p, rq, rfl, -, -, -, ht⟩ := hask ha
    rw [List.map_cons, ht]
    rfl
  · rename_i ha
    rw [hno ha]
    rfl

theorem Sought.shed (h : Sought env d rt x y) :
    x.shed y = if rt.attempt env = .giveUp then (x.buffered env d).map (fun q => (q, .rtrNoRoute)) else [] := by
  unfold Exec.shed
  rw [h.dropped, List.drop_left]

theorem rtDst_sought (env : Env) (rt : RtEntry) : (rt.sought env).rtDst = rt.rtDst := by
  unfold RtEntry.sought
  split <;> rfl

theorem Sought.entry (h : Sought env d rt x y) (he : x.rtLookup d = some rt) : y.rtLookup d = some (rt.sought env) :=
  (rtLookup_congr h.table d).trans (rtLookup_put he ((rtDst_sought env rt).trans (rtDst_of_rtLookup he)))

theorem Sought.others (h : Sought env d rt x y) (he : x.rtLookup d = some rt) {d' : NsAddr} (hne : d' ≠ d) :
    y.rtLookup d' = x.rtLookup d' :=
  (rtLookup_congr h.table d').trans (rtLookup_put_ne ((rtDst_sought env rt).trans (rtDst_of_rtLookup he)) hne)

theorem requested_timeout (env : Env) (rt : RtEntry) : (requested env rt).rtReqTimeout ≤ env.now + maxRreqTimeout := by
  have hcap : ∀ a b : ℚ, (if a > b then b else a) ≤ b := by
    intro a b
    split
    · exact le_refl b
    · rename_i hle
      exact not_lt.1 hle
  exact hcap _ _

theorem exists_of_sendRequest (h : x.sendRequest env d = .ok y) : ∃ rt, x.rtLookup d = some rt ∧ Sought env d rt x y := by
  cases he : x.rtLookup d with
  | some rt => exact ⟨rt, rfl, sendRequest_sought he y h⟩
  | none =>
    unfold sendRequest at h
    have he' : x.alloc.rtLookup d = none := he
    simp only [he'] at h
    cases h

/-- The state after a call of `sendRequest`, if it returns. -/
def called (env : Env) (x : Exec) (d : NsAddr) : Exec := (x.sendRequest env d).toOption.getD x

/-- Calls of `sendRequest(d)` one after the other. -/
def calls (d : NsAddr) : List Env → Exec → List Strode
  | [], _ => []
  | env :: envs, x => ⟨env, .request d, x, x.called env d⟩ :: calls d envs (x.called env d)

/-- The calls all return. -/
def returns (d : NsAddr) : List Env → Exec → Bool
  | [], _ => true
  | env :: envs, x => (x.sendRequest env d).toOption.isSome && returns d envs (x.called env d)

theorem sendRequest_called (h : (x.sendRequest env d).toOption.isSome) : x.sendRequest env d = .ok (x.called env d) := by
  unfold called
  cases hx : x.sendRequest env d with
  | ok y => rfl
  | error f =>
    rw [hx] at h
    cases h

theorem walk_calls : ∀ (envs : List Env) (x : Exec), returns d envs x = true →
    Walk (calls d envs x) x (envs.foldl (fun x env => x.called env d) x)
  | [], x, _ => .nil x
  | env :: envs, x, h => by
    obtain ⟨h1, h2⟩ := (Bool.and_eq_true _ _).mp h
    exact .cons ⟨rfl, rfl, .request (sendRequest_called h1)⟩ (walk_calls envs _ h2)

end Exec

/-! ## The quest -/

/-- The length of the longest path. -/
def longest (l : List Path) : Nat := (l.map (·.hopcount)).foldr max 0

theorem pathGetMaxHopcount_eq_longest (e : RtEntry) :
    e.pathGetMaxHopcount = if longest e.rtPathList = 0 then infinity2 else longest e.rtPathList := by
  have hfold : ∀ (l : List Path) (m : Nat),
      l.foldl (fun m p => if p.hopcount > m then p.hopcount else m) m = max m (longest l) := by
    intro l
    induction l with
    | nil => exact fun m => (Nat.max_zero m).symm
    | cons f l ih =>
      intro m
      rw [List.foldl_cons, ih]
      show _ = max m (max f.hopcount (longest l))
      split <;> omega
  unfold RtEntry.pathGetMaxHopcount
  simp only [hfold, Nat.zero_max]

theorem le_longest {l : List Path} {f : Path} (hf : f ∈ l) : f.hopcount ≤ longest l := by
  induction l with
  | nil => cases hf
  | cons g l ih =>
    show f.hopcount ≤ max g.hopcount (longest l)
    rcases List.mem_cons.1 hf with rfl | hf
    · exact Nat.le_max_left _ _
    · exact (ih hf).trans (Nat.le_max_right _ _)

/-- An insertion notes the length of the longest path. -/
theorem RtEntry.Gains.longest {e e' : RtEntry} (h : e.Gains e') :
    0 < TeAomdv.longest e'.rtPathList ∧ e'.rtLastHopCount = TeAomdv.longest e'.rtPathList := by
  obtain ⟨f, hf, hl⟩ := h.path
  have hmem : f ∈ e'.rtPathList := by
    rcases hl with hl | hl
    · rw [hl]
      exact List.mem_singleton.2 rfl
    · rw [hl]
      exact List.mem_append_right _ (List.mem_singleton.2 rfl)
  have hpos := Nat.lt_of_lt_of_le hf (le_longest hmem)
  refine ⟨hpos, ?_⟩
  rw [h.hops, pathGetMaxHopcount_eq_longest, if_neg (by omega)]

/-- What was asked for a destination since its entry was made, or since a path was last inserted. -/
structure Quest where
  /-- The longest path at the last insertion. -/
  had : Option Nat := none
  /-- The TTL of the last request. -/
  prev : Option Int := none
  /-- When the last request or give-up runs out. -/
  till : ℚ := 0
  /-- The network-wide requests since the last give-up. -/
  wide : Nat := 0

namespace Quest

open Exec (Strode)

/-- After a call of `sendRequest`: what was sent, and what the entry then says of the timeout. -/
def call (q : Quest) (d : NsAddr) (s : Strode) : Quest :=
  let till := ((s.post.rtLookup d).map (·.rtReqTimeout)).getD 0
  match (s.pre.rtLookup d).map (RtEntry.attempt s.env) with
  | some .ask =>
    { q with
      prev := (s.pre.asked s.post).head?
      till := till
      wide := if networkDiameter ∈ s.pre.asked s.post then q.wide + 1 else q.wide }
  | some .giveUp => { q with till := till, wide := 0 }
  | _ => q

def note (d : NsAddr) (q : Quest) (s : Strode) : Quest :=
  match s.deed with
  | .add d' => if d' = d then {} else q
  | .rise d' => if d' = d then { had := (s.post.rtLookup d).map (fun e => longest e.rtPathList) } else q
  | .request d' => if d' = d then q.call d s else q
  | _ => q

end Quest

/-- The quest for `d` at the end of a walk. -/
def quest (d : NsAddr) (ws : List Exec.Strode) : Quest := ws.foldl (Quest.note d) {}

namespace Quest

/-- What the entry keeps of the search is the quest. -/
structure Kept (q : Quest) (e : RtEntry) : Prop where
  hops : e.rtLastHopCount = ((q.had.getD infinity2 : Nat) : Int)
  far : ∀ h ∈ q.had, 0 < h
  ttl : e.rtReqLastTtl = q.prev.getD 0
  pos : ∀ t ∈ q.prev, 0 < t
  first : q.had = none → ∀ t ∈ q.prev, t = networkDiameter
  cnt : e.rtReqCnt = q.wide
  wide : 0 < q.wide → q.prev = some networkDiameter
  till : e.rtReqTimeout = q.till
  up : e.rtFlags = .up → q.prev = none ∧ q.wide = 0 ∧ q.till = 0
  expire : e.rtExpire = 0

namespace Kept

variable {q : Quest} {e e' : RtEntry} {env : Env}

theorem fresh (d : NsAddr) (hops : Nat) : Kept {} { rtDst := d, rtHops := hops } where
  hops := rfl
  far := nofun
  ttl := rfl
  pos := nofun
  first := nofun
  cnt := rfl
  wide := nofun
  till := rfl
  up := nofun
  expire := rfl

theorem minor (h : q.Kept e) (hm : e.Minor e') : q.Kept e' where
  hops := hm.hops.trans h.hops
  far := h.far
  ttl := hm.ttl.trans h.ttl
  pos := h.pos
  first := h.first
  cnt := hm.cnt.trans h.cnt
  wide := h.wide
  till := hm.timeout.trans h.till
  up := fun hu => h.up (hm.up hu)
  expire := hm.expire h.expire

theorem settle (h : q.Kept e) (hup : e.rtFlags = .up) : q.Kept e.resetSoftState := by
  obtain ⟨hprev, hwide, htill⟩ := h.up hup
  exact ⟨h.hops, h.far, by rw [hprev]; rfl, h.pos, h.first, hwide.symm, h.wide, htill.symm, h.up, h.expire⟩

theorem gains (h : q.Kept e) (hg : e.Gains e') : Kept { had := some (longest e'.rtPathList) } e' := by
  obtain ⟨hpos, hlong⟩ := hg.longest
  have hsoft : e'.rtReqTimeout = 0 ∧ e'.rtReqCnt = 0 ∧ e'.rtReqLastTtl = 0 := by
    rcases hg.soft with hsoft | ⟨hup, h1, h2, h3⟩
    · exact hsoft
    · obtain ⟨hprev, hwide, htill⟩ := h.up hup
      refine ⟨h1.trans (h.till.trans htill), h2.trans (h.cnt.trans hwide), h3.trans (h.ttl.trans ?_)⟩
      rw [hprev]
      rfl
  refine ⟨hlong, fun _ heq => Option.some.inj heq ▸ hpos, hsoft.2.2, nofun, nofun, hsoft.2.1, nofun, hsoft.1,
    fun _ => ⟨rfl, rfl, rfl⟩, hg.expire.trans h.expire⟩

/-- The larger of the last TTL and the last hop count. -/
def last (e : RtEntry) : Int := max e.rtReqLastTtl e.rtLastHopCount

/-- It is never 0, so no request starts at `TTL_START`. -/
theorem last_pos (h : q.Kept e) : 0 < last e := by
  refine lt_of_lt_of_le ?_ (le_max_right _ _)
  rw [h.hops]
  cases hhad : q.had with
  | none => decide
  | some n => exact Int.natCast_pos.2 (h.far n hhad)

theorem requested_eq (h : q.Kept e) (env : Env) :
    (Exec.requested env e).rtReqLastTtl = (if last e < ttlThreshold then last e + ttlIncrement else networkDiameter) ∧
      (Exec.requested env e).rtReqCnt = (if last e < ttlThreshold then e.rtReqCnt else e.rtReqCnt + 1) := by
  have hpos := h.last_pos
  have hne : last e ≠ 0 := by omega
  constructor
  · show Exec.requestTtl (last e) = _
    unfold Exec.requestTtl
    rw [if_neg hne]
  · show (if last e ≠ 0 ∧ ¬ last e < ttlThreshold then _ else _) = _
    by_cases hlt : last e < ttlThreshold
    · rw [if_pos hlt, if_neg (fun hc => hc.2 hlt)]
    · rw [if_neg hlt, if_pos ⟨hne, hlt⟩]

/-- A request is network-wide from the threshold on. -/
theorem wide_iff (h : q.Kept e) (env : Env) :
    (Exec.requested env e).rtReqLastTtl = networkDiameter ↔ ¬ last e < ttlThreshold := by
  rw [(h.requested_eq env).1]
  unfold ttlThreshold ttlIncrement networkDiameter
  split <;> omega

/-- After a network-wide request every request is one. -/
theorem last_of_wide (h : q.Kept e) (hw : 0 < q.wide) : ¬ last e < ttlThreshold := by
  have hle : e.rtReqLastTtl ≤ last e := le_max_left _ _
  rw [h.ttl, h.wide hw] at hle
  have hle : networkDiameter ≤ last e := hle
  unfold networkDiameter at hle
  unfold ttlThreshold
  omega

theorem last_of_had_none (h : q.Kept e) (hhad : q.had = none) : ¬ last e < ttlThreshold := by
  have hle : e.rtLastHopCount ≤ last e := le_max_right _ _
  rw [h.hops, hhad] at hle
  have hle : (infinity2 : Int) ≤ last e := hle
  unfold infinity2 at hle
  unfold ttlThreshold
  omega

theorem asked (h : q.Kept e) (hup : e.rtFlags ≠ .up) (env : Env) :
    Kept { q with
      prev := some (Exec.requested env e).rtReqLastTtl
      till := (Exec.requested env e).rtReqTimeout
      wide := if networkDiameter ∈ [(Exec.requested env e).rtReqLastTtl] then q.wide + 1 else q.wide }
      (Exec.requested env e) := by
  have hpos := h.last_pos
  have hmem : networkDiameter ∈ [(Exec.requested env e).rtReqLastTtl] ↔ ¬ last e < ttlThreshold := by
    rw [List.mem_singleton, eq_comm]
    exact h.wide_iff env
  obtain ⟨httl, hcnt⟩ := h.requested_eq env
  refine ⟨h.hops, h.far, rfl, ?_, ?_, ?_, ?_, rfl, fun hu => absurd hu hup, rfl⟩
  · rintro t ⟨⟩
    rw [httl]
    unfold ttlIncrement networkDiameter
    split <;> omega
  · rintro hhad t ⟨⟩
    exact (h.wide_iff env).2 (h.last_of_had_none hhad)
  · rw [hcnt, h.cnt]
    by_cases hlt : last e < ttlThreshold
    · rw [if_pos hlt, if_neg (fun hc => hmem.1 hc hlt)]
    · rw [if_neg hlt, if_pos (hmem.2 hlt)]
  · intro hw
    by_cases hlt : last e < ttlThreshold
    · rw [if_neg (fun hc => hmem.1 hc hlt)] at hw
      exact absurd hlt (h.last_of_wide hw)
    · exact congrArg some ((h.wide_iff env).2 hlt)

theorem gaveUp (h : q.Kept e) (hup : e.rtFlags ≠ .up) (t : ℚ) :
    Kept { q with till := t, wide := 0 } { e with rtReqTimeout := t, rtReqCnt := 0 } :=
  ⟨h.hops, h.far, h.ttl, h.pos, h.first, rfl, nofun, rfl, fun hu => absurd hu hup, h.expire⟩

end Kept

end Quest

theorem RtEntry.attempt_ask {env : Env} {rt : RtEntry} (h : rt.attempt env = .ask) :
    rt.rtReqTimeout ≤ env.now ∧ rt.rtReqCnt ≤ rreqRetries := by
  unfold RtEntry.attempt at h
  split at h
  · cases h
  rename_i hgo
  split at h
  · cases h
  rename_i hcnt
  exact ⟨not_lt.1 (fun hlt => hgo (.inr hlt)), not_lt.1 hcnt⟩

theorem RtEntry.not_up_of_attempt {env : Env} {rt : RtEntry} (h : rt.attempt env ≠ .rest) : rt.rtFlags ≠ .up :=
  fun hup => h (if_pos (.inl hup))

namespace Quest

open Exec (Strode)

variable {q : Quest} {d : NsAddr} {s : Strode} {e : RtEntry}

/-- A call of `sendRequest` keeps it. -/
theorem Kept.call {env : Env} {rt : RtEntry} {x y : Exec} (h : q.Kept rt) (he : x.rtLookup d = some rt)
    (hs : Exec.Sought env d rt x y) : (q.call d ⟨env, .request d, x, y⟩).Kept (rt.sought env) := by
  unfold Quest.call
  simp only [he, Option.map_some, hs.entry he, Option.getD_some, hs.asked]
  cases ha : rt.attempt env with
  | rest =>
    unfold RtEntry.sought
    rw [ha]
    exact h
  | giveUp =>
    have hup := RtEntry.not_up_of_attempt (show rt.attempt env ≠ .rest by rw [ha]; nofun)
    unfold RtEntry.sought
    simp only [ha]
    exact h.gaveUp hup _
  | ask =>
    have hup := RtEntry.not_up_of_attempt (show rt.attempt env ≠ .rest by rw [ha]; nofun)
    unfold RtEntry.sought
    simp only [ha]
    exact h.asked hup env

/-- **Every stride keeps the quest.** -/
theorem kept_note (hk : ∀ e, s.pre.rtLookup d = some e → q.Kept e) (hs : Exec.Stride s.env s.deed s.pre s.post)
    (he : s.post.rtLookup d = some e) : (q.note d s).Kept e := by
  obtain ⟨env, deed, x, y⟩ := s
  simp only at hk hs he
  have hput : ∀ {d' : NsAddr} {e₁ e₂ : RtEntry} {q' : Quest}, x.rtLookup d' = some e₁ → e₂.rtDst = e₁.rtDst →
      (x.put d' e₂).rtLookup d = some e → (d' = d → q.Kept e₁ → q'.Kept e₂) →
      Kept (if d' = d then q' else q) e := by
    intro d' e₁ e₂ q' he₁ hdst he hq
    have hd := hdst.trans (Exec.rtDst_of_rtLookup he₁)
    by_cases hdd : d' = d
    · subst hdd
      rw [if_pos rfl]
      obtain rfl := Option.some.inj ((Exec.rtLookup_put he₁ hd).symm.trans he)
      exact hq rfl (hk e₁ he₁)
    · rw [if_neg hdd]
      exact hk e ((Exec.rtLookup_put_ne hd (Ne.symm hdd)).symm.trans he)
  cases hs with
  | @mark _ d' e₁ e₂ he₁ hm =>
    have : Kept (if d' = d then q else q) e := hput he₁ hm.dst he (fun _ h => h.minor hm)
    rwa [ite_self] at this
  | @rise _ d' e₁ e₂ he₁ hg =>
    refine hput he₁ hg.dst he (fun hdd h => ?_)
    subst hdd
    rw [Exec.rtLookup_put he₁ (hg.dst.trans (Exec.rtDst_of_rtLookup he₁))]
    exact h.gains hg
  | @settle _ d' e₁ he₁ hup =>
    have : Kept (if d' = d then q else q) e := @hput d' e₁ e₁.resetSoftState q he₁ rfl he (fun _ h => h.settle hup)
    rwa [ite_self] at this
  | @add _ d' hnone =>
    show Kept (if d' = d then {} else q) e
    by_cases hdd : d' = d
    · subst hdd
      rw [if_pos rfl]
      obtain rfl : ({ rtDst := d', rtHops := env.unsetHops } : RtEntry) = e :=
        Option.some.inj ((List.find?_cons_of_pos (by simp)).symm.trans he)
      exact .fresh d' _
    · rw [if_neg hdd]
      exact hk e ((List.find?_cons_of_neg (by simpa using hdd)).symm.trans he)
  | @request _ _ d' hy =>
    obtain ⟨rt, hrt, hsought⟩ := Exec.exists_of_sendRequest hy
    show Kept (if d' = d then q.call d ⟨env, .request d', x, y⟩ else q) e
    by_cases hdd : d' = d
    · subst hdd
      rw [if_pos rfl]
      obtain rfl := Option.some.inj ((hsought.entry hrt).symm.trans he)
      exact (hk rt hrt).call hrt hsought
    · rw [if_neg hdd]
      exact hk e ((hsought.others hrt (Ne.symm hdd)).symm.trans he)
  | bump | answer | observe | meet | part => exact hk e he
  | quiet hq => exact hk e ((Exec.rtLookup_congr hq.table d).symm.trans he)

end Quest

/-- **The search an entry remembers is what was asked for it**, after every stride of every run. -/
theorem Agent.kept_of_walked {id : NsAddr} {ws : List Exec.Strode} {x : Exec} (h : Walked id ws x) {d : NsAddr}
    {e : RtEntry} (he : x.rtLookup d = some e) : (quest d ws).Kept e := by
  refine Runs.Trail.history (P := fun ws x => ∀ e, x.rtLookup d = some e → (quest d ws).Kept e) h
    (fun _ h => nomatch h) (fun ws s a b _ hk hs e he => ?_) e he
  obtain ⟨rfl, rfl, hs⟩ := hs
  unfold quest
  rw [List.foldl_append]
  exact Quest.kept_note hk hs he

/-! ## The expanding ring -/

namespace Agent

/-- Time `t`. -/
def clock (t : ℚ) : Env := { inf := 65535, now := t }

/-- A request of 2 for node 5, with this number. -/
def requestOf (rqDstSeqno : Nat) : Rreq := ⟨0, rqDstSeqno, 5, rqDstSeqno, 2, 4, 0, 2, trustThreshold, 1, 1⟩

def requestOfHeard (rqDstSeqno : Nat) : Packet :=
  { ptr := 0, saddr := 2, daddr := ipBroadcast, sport := rtPort, dport := rtPort, ttl := 20, prevHop := 2
    body := .rreq (requestOf rqDstSeqno) }

/-- A new node that has just made an entry for 9. -/
def seeker : Exec := { (new 5).exec 0 with rtable := [{ rtDst := 9, rtHops := 0 }] }

/-- The seeker after calls of `sendRequest(9)` at these times, and the strides so far. -/
def sought (ts : List ℚ) : Exec := (ts.map clock).foldl (fun x env => x.called env 9) seeker

def sights (ts : List ℚ) : List Exec.Strode :=
  ⟨clock 0, .add 9, (new 5).exec 0, seeker⟩ :: Exec.calls 9 (ts.map clock) seeker

theorem walked_sights {ts : List ℚ} (h : Exec.returns 9 (ts.map clock) seeker = true) : Walked 5 (sights ts) (sought ts) :=
  .cons ⟨rfl, rfl, .add rfl⟩ (Exec.walk_calls _ _ h)

end Agent

namespace Quest

/-- The TTL a request is to have: an entry that never had a path starts at `TTL_START` and goes up to a network-wide
search; one that had a path starts a little past the longest. -/
def Ring (q : Quest) (ttl : Int) : Prop :=
  match q.had, q.prev with
  | none, none => ttl = ttlStart
  | none, some t => ttl = if t < ttlThreshold then t + ttlIncrement else networkDiameter
  | some h, none => (h : Int) < ttlThreshold → ttl = h + ttlIncrement
  | some _, some _ => True

theorem ring_iff {q : Quest} {e : RtEntry} (h : q.Kept e) (env : Env) :
    q.Ring (Exec.requested env e).rtReqLastTtl ↔ ¬ (q.had = none ∧ q.prev = none) := by
  have httl := (h.requested_eq env).1
  unfold Ring
  cases hhad : q.had with
  | none =>
    rw [(h.wide_iff env).2 (h.last_of_had_none hhad)]
    cases hprev : q.prev with
    | none => decide
    | some t =>
      obtain rfl := h.first hhad t hprev
      decide
  | some n =>
    cases hprev : q.prev with
    | none =>
      have hn := h.far n hhad
      have hlast : Kept.last e = n := by
        unfold Kept.last
        rw [h.ttl, h.hops, hprev, hhad]
        simp
      rw [httl, hlast]
      simp only [reduceCtorEq, false_and, not_false_eq_true, iff_true]
      exact fun hlt => if_pos hlt
    | some t => simp

end Quest

/-- **The TTL of a request is that of an expanding ring**, but for the first request for an entry that never had a path. -/
theorem Agent.ring_search {id : NsAddr} {ws : List Exec.Strode} {x y : Exec} (h : Walked id ws x) {env : Env} {d : NsAddr}
    (hy : x.sendRequest env d = .ok y) {ttl : Int} (ht : ttl ∈ x.asked y) :
    (quest d ws).Ring ttl ↔ ¬ ((quest d ws).had = none ∧ (quest d ws).prev = none) := by
  obtain ⟨rt, hrt, hs⟩ := Exec.exists_of_sendRequest hy
  rw [hs.asked] at ht
  split at ht
  · obtain rfl := List.mem_singleton.1 ht
    exact Quest.ring_iff (kept_of_walked h hrt) env
  · cases ht

/-- Node 2 was one hop away before the route ran out: it is first searched for three hops around. -/
theorem Agent.ring_search_requestOf : ∃ a ws y,
    Runs.replay call [⟨clock 1, 1, .recv (requestOfHeard 3)⟩, ⟨clock 60, 9, .timer .routeCache⟩] (new 5) = some a ∧
    Walked 5 ws (a.exec 9) ∧ (a.exec 9).sendRequest (clock 61) 2 = .ok y ∧ (a.exec 9).asked y = [3] ∧
    (quest 2 ws).had = some 1 ∧ (quest 2 ws).prev = none ∧ (quest 2 ws).Ring 3 := by
  obtain ⟨a, ha, hr, hfin⟩ := Runs.Reaches.of_obeys (fun _ _ => true)
    (fun a : Agent => ((a.exec 9).rtLookup 2).any (fun e => e.rtLastHopCount = 1 ∧ e.rtReqLastTtl = 0) &&
      ((a.exec 9).sendRequest (clock 61) 2).toOption.any (fun y => (a.exec 9).asked y = [3]))
    (fun _ _ _ => trivial) [⟨clock 1, 1, .recv (requestOfHeard 3)⟩, ⟨clock 60, 9, .timer .routeCache⟩] (.init : Reach 5 (new 5))
    (by decide +kernel)
  obtain ⟨hentry, hask⟩ := (Bool.and_eq_true _ _).mp hfin
  obtain ⟨rt, hrt, hhops⟩ := (Option.any_eq_true _ _).1 hentry
  obtain ⟨hhops, httl⟩ := of_decide_eq_true hhops
  obtain ⟨y, hy, hasked⟩ := Fallible.any_toOption.1 hask
  have hasked : (a.exec 9).asked y = [3] := of_decide_eq_true hasked
  obtain ⟨ws, hws⟩ := walked_of_reach hr 9
  have hk := kept_of_walked hws hrt
  have hhad : (quest 2 ws).had = some 1 := by
    have h := hk.hops
    rw [hhops] at h
    cases hq : (quest 2 ws).had with
    | none =>
      rw [hq] at h
      cases h
    | some n =>
      rw [hq] at h
      rw [show n = 1 by exact (Int.ofNat.inj h).symm]
  have hprev : (quest 2 ws).prev = none := by
    have h := hk.ttl
    rw [httl] at h
    cases hq : (quest 2 ws).prev with
    | none => rfl
    | some t =>
      rw [hq] at h
      have := hk.pos t hq
      simp only [Option.getD_some] at h
      omega
  have hmem : (3 : Int) ∈ (a.exec 9).asked y := by
    rw [hasked]
    exact List.mem_singleton.2 rfl
  have hring := ring_search hws hy hmem
  refine ⟨a, ws, y, ha, hws, hy, hasked, hhad, hprev, hring.2 (fun h => ?_)⟩
  rw [hhad] at h
  cases h.1

/-- The first request for an entry that never had a path is network-wide. -/
theorem Agent.ring_broken : Walked 5 (sights []) (sought []) ∧ (sought []).sendRequest (clock 1) 9 = .ok (sought [1]) ∧
    (sought []).asked (sought [1]) = [networkDiameter] ∧
    (quest 9 (sights [])).had = none ∧ (quest 9 (sights [])).prev = none ∧ ¬ (quest 9 (sights [])).Ring networkDiameter :=
  ⟨walked_sights rfl, Exec.sendRequest_called (by decide +kernel), by decide +kernel, rfl, rfl, by
    show networkDiameter ≠ ttlStart
    decide⟩

/-! ## The rate limit -/

/-- `sendRequest` gives up. -/
def Exec.givesUp (env : Env) (x : Exec) (d : NsAddr) : Bool := (x.rtLookup d).any (fun rt => rt.attempt env = .giveUp)

/-- A request goes out though `RREQ_RETRIES` network-wide ones have. -/
def Exec.overasks (env : Env) (x : Exec) (d : NsAddr) : Bool :=
  (x.rtLookup d).any (fun rt => rt.attempt env = .ask ∧ rt.rtReqCnt = rreqRetries)

/-- Something aged is buffered for `d`. -/
def Exec.stale (env : Env) (x : Exec) (d : NsAddr) : Bool := x.rqueue.any (fun q => q.daddr = d ∧ q.ts < env.now)

/-- A call of `sendRequest(d)` heeds what was asked before: nothing is sent before the last timeout has passed, network-wide
requests are counted, a give-up drops what is buffered, sends nothing and blocks, and no timeout is far off. -/
structure Quest.Heeds (q : Quest) (env : Env) (d : NsAddr) (x y : Exec) : Prop where
  paced : x.asked y ≠ [] → q.till ≤ env.now
  few : networkDiameter ∈ x.asked y → q.wide < rreqRetries
  drops : x.givesUp env d → ∀ p ∈ x.rqueue, p.daddr = d → (p, .rtrNoRoute) ∈ x.shed y
  clears : x.givesUp env d → ∀ p ∈ y.rqueue, p.daddr ≠ d
  silent : x.givesUp env d → x.asked y = []
  blocks : x.givesUp env d → ∃ e, y.rtLookup d = some e ∧ e.rtReqTimeout = env.now + maxRreqTimeout
  bound : x.asked y ≠ [] → ∃ e, y.rtLookup d = some e ∧ e.rtReqTimeout ≤ env.now + maxRreqTimeout

namespace Quest

variable {q : Quest} {env : Env} {d : NsAddr} {x y : Exec} {rt : RtEntry}

/-- A request heeds what was asked before unless it is one network-wide request too many. -/
theorem heeds_ask (h : q.Kept rt) (he : x.rtLookup d = some rt) (hs : Exec.Sought env d rt x y) (ha : rt.attempt env = .ask) :
    q.Heeds env d x y ↔ rt.rtReqCnt ≠ rreqRetries := by
  have hasked := hs.asked
  rw [if_pos ha] at hasked
  have hno : ¬ x.givesUp env d = true := by
    unfold Exec.givesUp
    simp [he, ha]
  obtain ⟨htime, hcnt⟩ := RtEntry.attempt_ask ha
  have hentry := hs.entry he
  have hsought : rt.sought env = Exec.requested env rt := by
    unfold RtEntry.sought
    rw [ha]
  constructor
  · intro hh heq
    have hw : q.wide = rreqRetries := h.cnt.symm.trans heq
    have httl := (h.wide_iff env).2 (h.last_of_wide (by rw [hw]; decide))
    have := hh.few (by rw [hasked, httl]; exact List.mem_singleton.2 rfl)
    omega
  · intro hne
    refine ⟨fun _ => h.till ▸ htime, fun _ => ?_, fun hc => absurd hc hno, fun hc => absurd hc hno, fun hc => absurd hc hno,
      fun hc => absurd hc hno, fun _ => ⟨_, hentry, ?_⟩⟩
    · rw [← h.cnt]
      exact lt_of_le_of_ne hcnt hne
    · rw [hsought]
      exact Exec.requested_timeout env rt

/-- A give-up heeds what was asked before unless something aged is buffered. -/
theorem heeds_giveUp (he : x.rtLookup d = some rt) (hs : Exec.Sought env d rt x y) (ha : rt.attempt env = .giveUp) :
    q.Heeds env d x y ↔ ¬ x.stale env d = true := by
  have hasked := hs.asked
  rw [if_neg (by rw [ha]; nofun)] at hasked
  have hshed := hs.shed
  rw [if_pos ha] at hshed
  have hqueue := hs.queue
  rw [if_pos ha] at hqueue
  have hyes : x.givesUp env d = true := by
    unfold Exec.givesUp
    simp [he, ha]
  have hentry := hs.entry he
  have hsought : rt.sought env = { rt with rtReqTimeout := env.now + maxRreqTimeout, rtReqCnt := 0 } := by
    unfold RtEntry.sought
    rw [ha]
  have hmem : ∀ p, (p, DropReason.rtrNoRoute) ∈ x.shed y ↔ p ∈ x.rqueue ∧ ¬ p.ts < env.now ∧ p.daddr = d := by
    intro p
    rw [hshed]
    unfold Exec.buffered
    simp
  have hstale : ¬ x.stale env d = true ↔ ∀ p ∈ x.rqueue, p.daddr = d → ¬ p.ts < env.now := by
    unfold Exec.stale
    simp
  rw [hstale]
  constructor
  · exact fun hh p hp hd => ((hmem p).1 (hh.drops hyes p hp hd)).2.1
  · intro hfresh
    refine ⟨fun hc => absurd hasked hc, fun hc => ?_, fun _ p hp hd => (hmem p).2 ⟨hp, hfresh p hp hd, hd⟩,
      fun _ p hp => (hqueue p hp).2, fun _ => hasked, fun _ => ⟨_, hentry, by rw [hsought]⟩, fun hc => absurd hasked hc⟩
    rw [hasked] at hc
    cases hc

/-- A call that does nothing heeds everything. -/
theorem heeds_rest (he : x.rtLookup d = some rt) (hs : Exec.Sought env d rt x y) (ha : rt.attempt env = .rest) :
    q.Heeds env d x y := by
  have hasked := hs.asked
  rw [if_neg (by rw [ha]; nofun)] at hasked
  have hno : ¬ x.givesUp env d = true := by
    unfold Exec.givesUp
    simp [he, ha]
  refine ⟨fun hc => absurd hasked hc, fun hc => ?_, fun hc => absurd hc hno, fun hc => absurd hc hno, fun hc => absurd hc hno,
    fun hc => absurd hc hno, fun hc => absurd hasked hc⟩
  rw [hasked] at hc
  cases hc

end Quest

/-- **When the search for a route is limited as it is meant to be**: no fourth network-wide request is sent, and nothing
aged is buffered at a give-up. -/
theorem Agent.search_limited {id : NsAddr} {ws : List Exec.Strode} {x y : Exec} (h : Walked id ws x) {env : Env} {d : NsAddr}
    (hy : x.sendRequest env d = .ok y) :
    (quest d ws).Heeds env d x y ↔ ¬ x.overasks env d ∧ ¬ (x.givesUp env d ∧ x.stale env d) := by
  obtain ⟨rt, he, hs⟩ := Exec.exists_of_sendRequest hy
  have hk := kept_of_walked h he
  have hover : x.overasks env d = true ↔ rt.attempt env = .ask ∧ rt.rtReqCnt = rreqRetries := by
    unfold Exec.overasks
    simp [he]
  have hgives : x.givesUp env d = true ↔ rt.attempt env = .giveUp := by
    unfold Exec.givesUp
    simp [he]
  rw [hover, hgives]
  cases ha : rt.attempt env with
  | rest => simp [Quest.heeds_rest he hs ha]
  | giveUp => simp [Quest.heeds_giveUp he hs ha]
  | ask => simp [Quest.heeds_ask hk he hs ha]

theorem Agent.search_limited_sights : (quest 9 (sights [1])).Heeds (clock 2) 9 (sought [1]) (sought [1, 2]) ↔
    ¬ (sought [1]).overasks (clock 2) 9 ∧ ¬ ((sought [1]).givesUp (clock 2) 9 ∧ (sought [1]).stale (clock 2) 9) :=
  search_limited (walked_sights (by decide +kernel)) (Exec.sendRequest_called (by decide +kernel))

/-- After three network-wide requests a fourth goes out. -/
theorem Agent.search_overasks : Walked 5 (sights [1, 2, 3]) (sought [1, 2, 3]) ∧
    (sought [1, 2, 3]).sendRequest (clock 4) 9 = .ok (sought [1, 2, 3, 4]) ∧
    (quest 9 (sights [1, 2, 3])).wide = rreqRetries ∧
    (sought [1, 2, 3]).asked (sought [1, 2, 3, 4]) = [networkDiameter] ∧
    ¬ (quest 9 (sights [1, 2, 3])).Heeds (clock 4) 9 (sought [1, 2, 3]) (sought [1, 2, 3, 4]) := by
  have hwide : (quest 9 (sights [1, 2, 3])).wide = rreqRetries := by decide +kernel
  have hasked : (sought [1, 2, 3]).asked (sought [1, 2, 3, 4]) = [networkDiameter] := by decide +kernel
  refine ⟨walked_sights (by decide +kernel), Exec.sendRequest_called (by decide +kernel), hwide, hasked, fun h => ?_⟩
  have := h.few (by rw [hasked]; exact List.mem_singleton.2 rfl)
  omega

end TeAomdv

import TeAomdv.Flush
import TeAomdv.Noted
import TeAomdv.Docket
import TeAomdv.Rep
/-!
# Strides — a handler cut into writes, each by its kind

A small step (`Micro`) keeps what other nodes can tell of a handler; a stride keeps what the node itself remembers: which
entry a write is to and whether it adds a path, a call of `sendRequest`, a write to the node's own number, what is done to
a neighbour.  Every handler is cut into strides once (`handle_goes`), and so is every run (`Agent.strode_of_reach`).
-/
namespace TeAomdv

open Relation (ReflTransGen)
open Fallible (Ends)

/-! ## Writes to an entry -/

namespace RtEntry

variable {e e' e'' : RtEntry}

/-- `e'` is not up unless `e` is, and keeps what the search for a route has noted in `e`. -/
structure Minor (e e' : RtEntry) : Prop where
  dst : e'.rtDst = e.rtDst
  timeout : e'.rtReqTimeout = e.rtReqTimeout
  cnt : e'.rtReqCnt = e.rtReqCnt
  ttl : e'.rtReqLastTtl = e.rtReqLastTtl
  hops : e'.rtLastHopCount = e.rtLastHopCount
  expire : e.rtExpire = 0 → e'.rtExpire = 0
  up : e'.rtFlags = .up → e.rtFlags = .up

/-- `e'` is up with one path more or with that path alone; the search for a route is forgotten, if there was one. -/
structure Gains (e e' : RtEntry) : Prop where
  dst : e'.rtDst = e.rtDst
  up : e'.rtFlags = .up
  path : ∃ f : Path, 0 < f.hopcount ∧ (e'.rtPathList = [f] ∨ e'.rtPathList = e.rtPathList ++ [f])
  hops : e'.rtLastHopCount = e'.pathGetMaxHopcount
  expire : e'.rtExpire = e.rtExpire
  soft : (e'.rtReqTimeout = 0 ∧ e'.rtReqCnt = 0 ∧ e'.rtReqLastTtl = 0) ∨
    (e.rtFlags = .up ∧ e'.rtReqTimeout = e.rtReqTimeout ∧ e'.rtReqCnt = e.rtReqCnt ∧ e'.rtReqLastTtl = e.rtReqLastTtl)

namespace Minor

theorem refl (e : RtEntry) : e.Minor e := ⟨rfl, rfl, rfl, rfl, rfl, id, id⟩

theorem trans (h : e.Minor e') (h' : e'.Minor e'') : e.Minor e'' where
  dst := h'.dst.trans h.dst
  timeout := h'.timeout.trans h.timeout
  cnt := h'.cnt.trans h.cnt
  ttl := h'.ttl.trans h.ttl
  hops := h'.hops.trans h.hops
  expire := h'.expire ∘ h.expire
  up := h.up ∘ h'.up

theorem pcInsert (e : RtEntry) (n : NsAddr) : e.Minor (e.pcInsert n) := by
  unfold RtEntry.pcInsert
  split <;> exact ⟨rfl, rfl, rfl, rfl, rfl, id, id⟩

theorem pathDelete (e : RtEntry) (n : NsAddr) : e.Minor (e.pathDelete n) := by
  unfold RtEntry.pathDelete
  split <;> exact ⟨rfl, rfl, rfl, rfl, rfl, id, id⟩

theorem rtDown (e : RtEntry) (inf : Nat) : e.Minor (e.rtDown inf) := by
  unfold RtEntry.rtDown
  split
  · exact ⟨rfl, rfl, rfl, rfl, rfl, id, id⟩
  · exact ⟨rfl, rfl, rfl, rfl, rfl, fun _ => rfl, nofun⟩

theorem advertise (e : RtEntry) (inf : Nat) : e.Minor (e.advertise inf) := by
  unfold RtEntry.advertise
  split <;> exact ⟨rfl, rfl, rfl, rfl, rfl, id, id⟩

theorem pathPurge (e : RtEntry) (now : ℚ) : e.Minor (e.pathPurge now) := ⟨rfl, rfl, rfl, rfl, rfl, id, id⟩

theorem modifyFind (e : RtEntry) (f : Path → Path) : e.Minor (e.modifyFind f) := ⟨rfl, rfl, rfl, rfl, rfl, id, id⟩

theorem modifyDisjoint (e : RtEntry) (n l : NsAddr) (f : Path → Path) : e.Minor (e.modifyDisjoint n l f) := ⟨rfl, rfl, rfl, rfl, rfl, id, id⟩

theorem setSeqno (e : RtEntry) (n : Nat) : e.Minor (e.setSeqno n) := ⟨rfl, rfl, rfl, rfl, rfl, id, id⟩

theorem setHighestSeqnoHeard (e : RtEntry) (n : Nat) : e.Minor (e.setHighestSeqnoHeard n) := ⟨rfl, rfl, rfl, rfl, rfl, id, id⟩

theorem setError (e : RtEntry) (b : Bool) : e.Minor (e.setError b) := ⟨rfl, rfl, rfl, rfl, rfl, id, id⟩

theorem failed (e : RtEntry) (inf : Nat) : e.Minor (Exec.failed inf e) := (setSeqno e _).trans (rtDown _ inf)

theorem expired (e : RtEntry) (inf : Nat) : e.Minor (Exec.expired inf e) := (setSeqno e _).trans (rtDown _ inf)

end Minor

/-- A renewal, once the soft state is reset. -/
theorem gains_renewReverse (env : Env) (p : Packet) (rq : Rreq) (e : RtEntry) :
    e.Gains (Exec.renewReverse env p rq e).resetSoftState :=
  ⟨rfl, rfl, ⟨_, Nat.succ_pos _, .inl rfl⟩, rfl, rfl, .inl ⟨rfl, rfl, rfl⟩⟩

theorem gains_renewForward (env : Env) (rp : Rrep) (e : RtEntry) : e.Gains (Exec.renewForward env rp e).resetSoftState :=
  ⟨rfl, rfl, ⟨_, Nat.succ_pos _, .inl rfl⟩, rfl, rfl, .inl ⟨rfl, rfl, rfl⟩⟩

theorem gains_extendReverse (env : Env) (p : Packet) (rq : Rreq) (h : e.rtFlags = .up) :
    e.Gains (Exec.extendReverse env p rq e) :=
  ⟨rfl, h, ⟨_, Nat.succ_pos _, .inr rfl⟩, rfl, rfl, .inr ⟨h, rfl, rfl, rfl⟩⟩

theorem gains_extendForward (env : Env) (rp : Rrep) (h : e.rtFlags = .up) : e.Gains (Exec.extendForward env rp e) :=
  ⟨rfl, h, ⟨_, Nat.succ_pos _, .inr rfl⟩, rfl, rfl, .inr ⟨h, rfl, rfl, rfl⟩⟩

end RtEntry

/-! ## Strides -/

/-- The kinds of strides. -/
inductive Deed
  /-- A write to the entry for `d` that adds no path. -/
  | mark (d : NsAddr)
  /-- A path is added to the entry for `d`. -/
  | rise (d : NsAddr)
  /-- The search for `d`, whose entry is up, is forgotten. -/
  | settle (d : NsAddr)
  /-- `rt_add(d)`. -/
  | add (d : NsAddr)
  /-- `sendRequest(d)`. -/
  | request (d : NsAddr)
  /-- `seqno += 2` of `nb_delete`. -/
  | bump
  /-- The number taken to answer a request for this node. -/
  | answer (rqDstSeqno : Nat)
  /-- Something is noted of neighbour `id`. -/
  | observe (id : NsAddr) (o : Observation)
  /-- `id` becomes a neighbour. -/
  | meet (id : NsAddr)
  /-- `id` is no longer a neighbour. -/
  | part (id : NsAddr)
  | quiet

/-- No neighbour is forgotten or judged. -/
def Deed.Mild : Deed → Prop
  | .part _ | .observe _ .round => False
  | _ => True

/-- Nor is the node's own number written. -/
def Deed.Tame : Deed → Prop
  | .part _ | .observe _ .round | .request _ | .bump | .answer _ => False
  | _ => True

theorem Deed.Tame.mild {k : Deed} (h : k.Tame) : k.Mild := by
  cases k with
  | observe id o =>
    cases o with
    | round => exact h.elim
    | handed | overheard | other => trivial
  | part | request | bump | answer => exact h.elim
  | mark | rise | settle | add | meet | quiet => trivial

/-- The strides of `nb_delete(id)`. -/
def Deed.Deletes (id : NsAddr) (k : Deed) : Prop := k.Tame ∨ k = .bump ∨ k = .part id

/-- The strides a handler may make: neighbours are forgotten by their timer alone, and judged by the trust timer. -/
def Input.Allows (inp : Input) : Deed → Prop
  | .part _ => ∃ ifq, inp = .timer (.neighbor ifq)
  | .observe _ .round => inp = .timer .trust
  | _ => True

theorem Input.allows_mild (inp : Input) {k : Deed} (h : k.Mild) : inp.Allows k := by
  cases k with
  | part => exact h.elim
  | observe id o =>
    cases o with
    | round => exact h.elim
    | handed | overheard | other => trivial
  | mark | rise | settle | add | request | bump | answer | meet | quiet => trivial

namespace Exec

/-- The tables and the node's own number are left alone. -/
structure Quiet (x y : Exec) : Prop where
  table : y.rtable = x.rtable
  nbs : y.nbhead = x.nbhead
  seqno : y.seqno = x.seqno
  index : y.index = x.index

inductive Stride (env : Env) : Deed → Exec → Exec → Prop
  | mark {x : Exec} {d : NsAddr} {e e' : RtEntry} :
      x.rtLookup d = some e → e.Minor e' → Stride env (.mark d) x (x.put d e')
  | rise {x : Exec} {d : NsAddr} {e e' : RtEntry} :
      x.rtLookup d = some e → e.Gains e' → Stride env (.rise d) x (x.put d e')
  | settle {x : Exec} {d : NsAddr} {e : RtEntry} :
      x.rtLookup d = some e → e.rtFlags = .up → Stride env (.settle d) x (x.put d e.resetSoftState)
  | add {x : Exec} {d : NsAddr} : x.rtLookup d = none →
      Stride env (.add d) x { x with rtable := { rtDst := d, rtHops := env.unsetHops } :: x.rtable }
  | request {x y : Exec} {d : NsAddr} : x.sendRequest env d = .ok y → Stride env (.request d) x y
  | bump (x : Exec) : Stride env .bump x { x with seqno := u32 (x.seqno + 2) }
  | answer (x : Exec) (n : Nat) : Stride env (.answer n) x { x with seqno := replySeqno x.seqno n }
  | observe {x : Exec} {id : NsAddr} {nb : Neighbor} (o : Observation) :
      x.nbLookup id = some nb → Stride env (.observe id o) x (x.nbModify id (fun _ => nb.observe env.now o))
  | meet {x : Exec} {id : NsAddr} (expire : ℚ) : x.nbLookup id = none →
      Stride env (.meet id) x { x with nbhead := Neighbor.new id env.now expire :: x.nbhead }
  | part (x : Exec) (id : NsAddr) :
      Stride env (.part id) x { x with nbhead := x.nbhead.eraseP (fun nb => nb.nbAddr = id) }
  | quiet {x y : Exec} : Quiet x y → Stride env .quiet x y

/-- Strides of the kinds `K` lead from `x` to `y`. -/
def Goes (env : Env) (K : Deed → Prop) : Exec → Exec → Prop := ReflTransGen (fun x y => ∃ k, K k ∧ Stride env k x y)

variable {env : Env} {x y z : Exec} {d : NsAddr} {e : RtEntry} {p : Packet}

namespace Goes

theorem one {K : Deed → Prop} {k : Deed} (hs : Stride env k x y) (hk : K k) : Goes env K x y := .single ⟨k, hk, hs⟩

theorem trans {K : Deed → Prop} (h : Goes env K x y) (h' : Goes env K y z) : Goes env K x z := ReflTransGen.trans h h'

theorem quiet (h : Quiet x y) : Goes env Deed.Tame x y := one (.quiet h) trivial

theorem mono {K K' : Deed → Prop} (h : Goes env K x y) (hk : ∀ k, K k → K' k) : Goes env K' x y :=
  ReflTransGen.mono (fun _ _ ⟨k, h1, h2⟩ => ⟨k, hk k h1, h2⟩) _ _ h

theorem mild (h : Goes env Deed.Tame x y) : Goes env Deed.Mild x y := h.mono (fun _ hk => hk.mild)

theorem ends_mild {r : Result} (h : Ends (Goes env Deed.Tame x) r) : Ends (Goes env Deed.Mild x) r :=
  Ends.mono h (fun _ hy => mild hy)

/-- A minor write through the pointer `rt_lookup` returned, if it returned one. -/
theorem mark (x : Exec) (d : NsAddr) {f : RtEntry → RtEntry} (hf : ∀ e : RtEntry, e.Minor (f e)) : Goes env Deed.Tame x (x.rtModify d f) := by
  cases he : x.rtLookup d with
  | some e =>
    rw [rtModify_eq_put he]
    exact one (.mark he (hf e)) trivial
  | none =>
    exact quiet ⟨Keyed.modifyFirst_of_none he, rfl, rfl, rfl⟩

theorem then_mark (h : Goes env Deed.Tame x y) (d : NsAddr) {f : RtEntry → RtEntry} (hf : ∀ e : RtEntry, e.Minor (f e)) :
    Goes env Deed.Tame x (y.rtModify d f) := h.trans (mark y d hf)

theorem then_quiet (h : Goes env Deed.Tame x y) (hq : Quiet y z) : Goes env Deed.Tame x z := h.trans (quiet hq)

theorem then_schedule (h : Goes env Deed.Tame x y) (p : Packet) (t : Delay) : Goes env Deed.Tame x (y.schedule p t) :=
  h.then_quiet ⟨rfl, rfl, rfl, rfl⟩

theorem then_free (h : Goes env Deed.Tame x y) (p : Packet) : Goes env Deed.Tame x (y.free p) := h.then_quiet ⟨rfl, rfl, rfl, rfl⟩

/-- Something noted of a neighbour, if it is one. -/
theorem observe (x : Exec) (id : NsAddr) {f : Neighbor → Neighbor}
    (hf : ∀ nb : Neighbor, ∃ o, (Deed.observe id o).Tame ∧ f nb = nb.observe env.now o) :
    Goes env Deed.Tame x (x.nbModify id f) := by
  cases hn : x.nbLookup id with
  | some nb =>
    obtain ⟨o, ho, heq⟩ := hf nb
    have : x.nbModify id f = x.nbModify id (fun _ => nb.observe env.now o) := by
      unfold nbModify
      rw [Keyed.modifyFirst_eq_const hn, heq]
    rw [this]
    exact one (.observe o hn) ho
  | none =>
    exact quiet ⟨rfl, Keyed.modifyFirst_of_none hn, rfl, rfl⟩

end Goes

/-! ### What is quiet -/

namespace Quiet

theorem trans (h : Quiet x y) (h' : Quiet y z) : Quiet x z where
  table := h'.table.trans h.table
  nbs := h'.nbs.trans h.nbs
  seqno := h'.seqno.trans h.seqno
  index := h'.index.trans h.index

theorem say (x : Exec) (a : Act) : Quiet x (x.say a) := ⟨rfl, rfl, rfl, rfl⟩

theorem drop (x : Exec) (p : Packet) (r : DropReason) : Quiet x (x.drop p r) := say x _

theorem idInsert (env : Env) (x : Exec) (id : NsAddr) (bid : Nat) : Quiet x (x.idInsert env id bid) := ⟨rfl, rfl, rfl, rfl⟩

theorem idMark (x : Exec) (id : NsAddr) (bid : Nat) : Quiet x (x.idMark id bid) := ⟨rfl, rfl, rfl, rfl⟩

theorem foldl {α : Type*} {f : Exec → α → Exec} (hf : ∀ x a, Quiet x (f x a)) : ∀ (l : List α) (x : Exec), Quiet x (l.foldl f x)
  | [], _ => ⟨rfl, rfl, rfl, rfl⟩
  | a :: l, x => (hf x a).trans (foldl hf l (f x a))

theorem reports (dst : NsAddr) (seqno : Nat) (lasthop : NsAddr → NsAddr) (pcs : List NsAddr) (x : Exec) :
    Quiet x (pcs.foldl (reportDistrust dst seqno lasthop) x) := foldl (f := reportDistrust dst seqno lasthop) (fun _ _ => ⟨rfl, rfl, rfl, rfl⟩) pcs x

theorem rqEvict (env : Env) (x : Exec) : Quiet x (x.rqEvict env) := by
  unfold Exec.rqEvict
  split
  · exact ⟨rfl, rfl, rfl, rfl⟩
  · split <;> exact ⟨rfl, rfl, rfl, rfl⟩

theorem enque (env : Env) (x : Exec) (p : Packet) : Quiet x (x.enque env p) :=
  have h := rqEvict env (x.rqPurge env)
  ⟨h.table, h.nbs, h.seqno, h.index⟩

theorem deque (env : Env) (x : Exec) (d : NsAddr) : Quiet x (x.deque env d).2 := by
  unfold Exec.deque
  simp only
  split <;> exact ⟨rfl, rfl, rfl, rfl⟩

end Quiet

/-! ## Every function is a run of strides -/

theorem drain_goes {body : Exec → Packet → Result} (hb : ∀ y q, Ends (Goes env Deed.Tame y) (body y q)) (x : Exec) (d : NsAddr) :
    Ends (Goes env Deed.Tame x) (x.drain env d body) := by
  have loop : ∀ (n : Nat) (y : Exec), Goes env Deed.Tame x y → Ends (Goes env Deed.Tame x) (drainLoop env d body n y) := by
    intro n
    induction n with
    | zero => exact fun _ h => Ends.ok h
    | succ n ih =>
      intro y h
      have hq := Quiet.deque env y d
      unfold drainLoop
      split
      · rename_i z hz
        rw [hz] at hq
        exact Ends.ok (h.trans (.quiet hq))
      · rename_i q z hz
        rw [hz] at hq
        exact Ends.bind (hb z q) (fun w hw => ih w ((h.trans (.quiet hq)).trans hw))
  exact loop _ x .refl

theorem nbEnsure_goes (env : Env) (x : Exec) (id : NsAddr) : Goes env Deed.Tame x (x.nbEnsure env id) := by
  unfold nbEnsure
  cases hn : x.nbLookup id with
  | none =>
    simp only [nbInsert, hn]
    exact .one (.meet _ hn) trivial
  | some nb => exact .refl

theorem countForward_goes (env : Env) (x : Exec) (p : Packet) : Goes env Deed.Tame x (x.countForward env p) := by
  unfold countForward
  split
  · refine .observe x _ (fun nb => ⟨.handed .data p.uid (p.nextHop = p.daddr), trivial, ?_⟩)
    simp only [Neighbor.observe, decide_eq_true_eq]
  · refine .observe x _ (fun nb => ⟨.handed .control p.uid (p.nextHop = p.daddr), trivial, ?_⟩)
    simp only [Neighbor.observe, decide_eq_true_eq]
  · exact .refl

theorem downIfEmpty_goes (x : Exec) (d : NsAddr) (rt : RtEntry) {renumber : RtEntry → RtEntry}
    (hr : ∀ e : RtEntry, e.Minor (renumber e)) :
    Ends (fun r => Goes env Deed.Tame x r.1) (x.downIfEmpty env d rt renumber) := by
  unfold downIfEmpty
  refine Ends.bind (P := fun _ => True) (fun _ _ => trivial) (fun empty _ => Ends.ok ?_)
  cases empty with
  | true => exact .mark x d (fun e => (hr e).trans (.rtDown _ _))
  | false => exact .refl

theorem forwardDistrust_goes (x : Exec) (d : NsAddr) (path : Path) (p : Packet) :
    Ends (Goes env Deed.Tame x) (x.forwardDistrust env d path p) := by
  unfold forwardDistrust
  split
  · exact Ends.error _
  · rename_i rt _
    have h1 : Goes env Deed.Tame x _ := .quiet (Quiet.reports rt.rtDst rt.rtSeqno (fun _ => path.lasthop) rt.rtPclist x)
    refine Ends.bind (downIfEmpty_goes _ d _ .refl) (fun r hr => Ends.ok ?_)
    exact ((h1.trans (.mark _ d (fun e => .pathDelete e _))).trans hr).trans (.quiet ⟨rfl, rfl, rfl, rfl⟩)

theorem forwardSend_goes (x : Exec) (d : NsAddr) (p : Packet) (delay : ℚ) :
    Ends (Goes env Deed.Tame x) (x.forwardSend env d p delay) := by
  unfold forwardSend
  simp only
  split
  · exact Ends.error _
  refine Ends.ok (Goes.then_schedule ?_ _ _)
  have h1 := countForward_goes env x p
  split
  · exact (h1.then_mark d (fun e => .modifyFind e _)).then_mark d (fun e => .setError e true)
  · exact h1.then_mark d (fun e => .modifyFind e _)

theorem forward_goes (x : Exec) (rt : Option NsAddr) (p : Packet) (delay : ℚ) :
    Ends (Goes env Deed.Tame x) (x.forward env rt p delay) := by
  unfold forward
  split
  · exact Ends.ok (.quiet ⟨rfl, rfl, rfl, rfl⟩)
  split
  · exact Ends.ok (.quiet ⟨rfl, rfl, rfl, rfl⟩)
  cases rt with
  | none =>
    simp only
    split
    · exact Ends.ok (.quiet ⟨rfl, rfl, rfl, rfl⟩)
    · exact Ends.error _
  | some d =>
    simp only
    unfold forwardRoute
    split
    · exact Ends.error _
    split
    · exact Ends.error _
    split
    · exact Ends.error _
    rename_i path _
    have h1 := Goes.trans (.mark x d (fun e => .pcInsert e p.prevHop)) (nbEnsure_goes env _ path.nexthop)
    simp only
    split
    · split
      · exact Ends.mono (forwardDistrust_goes _ d path _) (fun y hy => (h1.then_mark d (fun e => .modifyFind e _)).trans hy)
      · exact Ends.mono (forwardSend_goes _ d _ delay) (fun y hy => (h1.then_mark d (fun e => .modifyFind e _)).trans hy)
    · exact Ends.mono (forwardSend_goes _ d _ delay) (fun y hy => h1.trans hy)

theorem flushOne_goes (d : NsAddr) (y : Exec) (q : Packet) : Ends (Goes env Deed.Tame y) (flushOne env d y q) := by
  unfold flushOne
  split
  · exact Ends.error _
  split
  · exact forward_goes y (some d) q noTeaomdvDelay
  · exact Ends.ok .refl

theorem flush_goes (x : Exec) (d : NsAddr) : Ends (Goes env Deed.Tame x) (x.flush env d) := by
  unfold flush
  cases he : x.rtLookup d with
  | none => exact Ends.error _
  | some e =>
    simp only
    split
    · rename_i hup
      rw [rtModify_eq_put he]
      exact Ends.mono (drain_goes (flushOne_goes d) _ d) (fun y hy => (Goes.one (.settle he hup) trivial).trans hy)
    · exact Ends.ok .refl

theorem rtEnsure_goes (x : Exec) (d : NsAddr) : Ends (Goes env Deed.Tame x) (x.rtEnsure env d) := by
  unfold rtEnsure rtAdd
  split
  · rename_i hnone
    split
    · exact Ends.error _
    · exact Ends.ok (.one (.add (by simpa using hnone)) trivial)
  · exact Ends.ok .refl

/-! ### Requests and replies received -/

section Noted

variable {a : Advert} {u : Update env.inf a} {rt : RtEntry} {b : Bool}

theorem Noted.goes (h : Noted u x rt y b) (he : x.rtLookup a.dst = some rt) (hb : rt.rtSeqno < a.seqno → b = false)
    (hextend : rt.rtFlags = .up → rt.Gains (u.extend rt)) : Goes env Deed.Tame x y := by
  cases h with
  | renew hlt => exact nomatch hb hlt
  | refresh => exact .mark x _ (fun e => .modifyDisjoint e _ _ _)
  | extend goes hseq hadv hup =>
    rw [rtModify_eq_put he]
    exact .one (.rise he (hextend hup)) trivial
  | keep => exact .refl

/-- The entry is renewed and its soft state reset by the loop that follows, or it is up already. -/
theorem Noted.goes_flush (h : Noted u x rt y b) (he : x.rtLookup a.dst = some rt)
    (hrenew : rt.Gains (u.renew rt).resetSoftState) (hextend : rt.rtFlags = .up → rt.Gains (u.extend rt)) :
    Ends (Goes env Deed.Tame x) (y.flush env a.dst) := by
  by_cases hlt : rt.rtSeqno < a.seqno
  · cases h with
    | renew =>
      have hroute := u.renewed rt
      have hd : (u.renew rt).rtDst = a.dst := (congrArg Route.dst hroute).trans (rtDst_of_rtLookup he)
      have hup : (u.renew rt).rtFlags = .up := congrArg Route.flags hroute
      rw [rtModify_eq_put he]
      unfold flush
      simp only [rtLookup_put he hd, hup, if_true]
      rw [put_rtModify he hd]
      exact Ends.mono (drain_goes (flushOne_goes a.dst) _ a.dst) (fun z hz => (Goes.one (.rise he hrenew) trivial).trans hz)
    | refresh hseq | extend _ hseq => exact absurd hlt (by omega)
    | keep => exact flush_goes x a.dst
  · exact Ends.mono (flush_goes y a.dst) (fun z hz => (h.goes he (fun h => absurd h hlt) hextend).trans hz)

end Noted

theorem prepareRequest_goes (x : Exec) (rq : Rreq) : Ends (Goes env Deed.Tame x) (x.prepareRequest env rq) := by
  unfold prepareRequest
  split
  · exact rtEnsure_goes x rq.rqSrc
  · exact Ends.mono (rtEnsure_goes _ rq.rqSrc) (fun y hy => (Goes.quiet (.idInsert env x _ _)).trans hy)

theorem replyAsDestination_goes (env : Env) (x : Exec) (p : Packet) (rq : Rreq) :
    Goes env Deed.Mild x (x.replyAsDestination env p rq) := by
  unfold replyAsDestination
  refine (Goes.one (.answer x rq.rqDstSeqno) trivial).trans (Goes.mild ?_)
  exact (nbEnsure_goes env { x with seqno := replySeqno x.seqno rq.rqDstSeqno } p.saddr).then_quiet ⟨rfl, rfl, rfl, rfl⟩

theorem replyFromTable_goes (x : Exec) (p : Packet) (rq : Rreq) (rt : RtEntry) (reverse : Bool) :
    Ends (Goes env Deed.Tame x) (x.replyFromTable env p rq rt reverse) := by
  unfold replyFromTable
  split
  · exact Ends.error _
  split
  · split
    · exact Ends.error _
    · refine Ends.ok (Goes.then_free ?_ p)
      have h1 : Goes env Deed.Tame x _ := .then_mark (.quiet (.idMark x rq.rqSrc rq.rqBcastId)) rq.rqDst
        (fun e => (RtEntry.Minor.advertise e env.inf).trans (.setError _ true))
      exact h1.then_quiet ⟨rfl, rfl, rfl, rfl⟩
  · exact Ends.ok (.quiet ⟨rfl, rfl, rfl, rfl⟩)

theorem relayRequest_goes (x : Exec) (p : Packet) (rq : Rreq) (rt : Option RtEntry) (kill : Bool) :
    Ends (Goes env Deed.Tame x) (x.relayRequest env p rq rt kill) := by
  unfold relayRequest
  split
  · exact Ends.ok (.quiet ⟨rfl, rfl, rfl, rfl⟩)
  split
  · exact Ends.error _
  simp only
  split
  · exact Ends.error _
  · exact Ends.mono (forward_goes _ none _ _) (fun y hy => (Goes.mark x _ (fun e => .advertise e _)).trans hy)

theorem answerRequest_goes (x : Exec) (p : Packet) (rq : Rreq) (kill reverse : Bool) :
    Ends (Goes env Deed.Mild x) (x.answerRequest env p rq kill reverse) := by
  unfold answerRequest
  split
  · exact Ends.ok (replyAsDestination_goes env x p rq)
  split
  · exact Goes.ends_mild (relayRequest_goes x p rq _ _)
  split
  · exact Goes.ends_mild (replyFromTable_goes x p rq _ _)
  · exact Goes.ends_mild (relayRequest_goes x p rq _ _)

theorem recvRequest_goes (x : Exec) (p : Packet) (rq : Rreq) : Ends (Goes env Deed.Mild x) (x.recvRequest env p rq) := by
  unfold recvRequest
  split
  · exact Goes.ends_mild (Ends.ok (.quiet ⟨rfl, rfl, rfl, rfl⟩))
  split
  · exact Goes.ends_mild (Ends.ok (.quiet ⟨rfl, rfl, rfl, rfl⟩))
  simp only
  generalize x.seenRequest p rq = rq'
  refine Ends.bind (prepareRequest_goes x rq') (fun y hxy => ?_)
  refine Ends.bind (reverseRoute_noted env y p rq').ends (fun z hz => ?_)
  obtain ⟨z, b⟩ := z
  obtain ⟨rt, he, hn⟩ := hz
  have hextend := RtEntry.gains_extendReverse (e := rt) env p rq'
  cases b with
  | none => exact Ends.ok ((hxy.trans (hn.goes he (fun _ => rfl) hextend)).then_free p).mild
  | some reverse =>
    refine Ends.bind (hn.goes_flush he (RtEntry.gains_renewReverse env p rq' rt) hextend) (fun w hw => ?_)
    exact Ends.mono (answerRequest_goes w p rq' _ _) (fun v hv => (hxy.trans hw).mild.trans hv)

theorem relayReply_goes (x : Exec) (p : Packet) (rp : Rrep) : Ends (Goes env Deed.Tame x) (x.relayReply env p rp) := by
  unfold relayReply
  split
  · split
    · exact Ends.ok (.quiet ⟨rfl, rfl, rfl, rfl⟩)
    split
    · exact Ends.error _
    simp only
    split
    · exact Ends.error _
    split
    · exact Ends.error _
    refine Ends.mono (forward_goes _ _ _ _) (fun y hy => Goes.trans ?_ hy)
    exact (((Goes.quiet (.idMark x p.daddr rp.rpBcastId)).then_mark _ (fun e => .advertise e _)).then_mark _ (fun e => .modifyFind e _)).then_mark _
      (fun e => .setError e true)
  · exact Ends.ok (.quiet ⟨rfl, rfl, rfl, rfl⟩)

theorem recvReply_goes (x : Exec) (p : Packet) (rp : Rrep) : Ends (Goes env Deed.Tame x) (x.recvReply env p rp) := by
  unfold recvReply
  split
  · exact Ends.ok (.quiet ⟨rfl, rfl, rfl, rfl⟩)
  split
  · exact Ends.ok (.quiet ⟨rfl, rfl, rfl, rfl⟩)
  simp only
  generalize rp.lowerForward (x.nbLookup p.prevHop) = rp'
  refine Ends.bind (rtEnsure_goes x rp'.rpDst) (fun y hxy => ?_)
  refine Ends.bind (forwardRouteTo_noted env y rp' (x.nbLookup p.prevHop)).ends (fun z hz => ?_)
  obtain ⟨z, b⟩ := z
  obtain ⟨rt, he, hn⟩ := hz
  have hextend := RtEntry.gains_extendForward (e := rt) env rp'
  cases b with
  | false => exact Ends.ok ((hxy.trans (hn.goes he (fun _ => rfl) hextend)).then_free p)
  | true =>
    refine Ends.bind (hn.goes_flush he (RtEntry.gains_renewForward env rp' rt) hextend) (fun w hw => ?_)
    split
    · exact Ends.ok ((hxy.trans hw).then_free p)
    · exact Ends.mono (relayReply_goes w p rp') (fun v hv => (hxy.trans hw).trans hv)

/-! ### Errors, distrust reports and neighbours -/

theorem errorSlot_goes (acc : Exec × List (NsAddr × Nat)) (saddr : NsAddr) (slot : NsAddr × Nat) :
    Ends (fun r => Goes env Deed.Tame acc.1 r.1) (errorSlot env saddr acc slot) := by
  unfold errorSlot
  simp only
  split
  · exact Ends.ok .refl
  rename_i rt _
  split
  · split
    · exact Ends.error _
    refine Ends.bind (downIfEmpty_goes _ slot.1 _ (fun e => .setSeqno e _)) (fun r hr => ?_)
    have h1 : Goes env Deed.Tame acc.1 _ := .trans (.mark acc.1 slot.1
      (fun e => (RtEntry.Minor.pathDelete e saddr).trans (.setHighestSeqnoHeard _ (max rt.rtHighestSeqnoHeard slot.2)))) hr
    split
    · exact Ends.ok (h1.then_mark _ (fun e => .setError e false))
    · exact Ends.ok h1
  · exact Ends.ok .refl

theorem recvError_goes (x : Exec) (p : Packet) (re : Rerr) : Ends (Goes env Deed.Tame x) (x.recvError env p re) := by
  unfold recvError
  simp only
  split
  · exact Ends.error _
  have hround : ∀ acc : Exec × List (NsAddr × Nat), ∀ slot ∈ re.unreachable, Goes env Deed.Tame x acc.1 →
      Ends (fun r => Goes env Deed.Tame x r.1) (errorSlot env p.saddr acc slot) :=
    fun acc slot _ h => Ends.mono (errorSlot_goes acc p.saddr slot) (fun r hr => h.trans hr)
  refine Ends.bind (Ends.foldlM (Q := fun acc => Goes env Deed.Tame x acc.1) hround (.quiet ⟨rfl, rfl, rfl, rfl⟩)) (fun r hr => ?_)
  obtain ⟨y, nre⟩ := r
  refine Ends.ok (Goes.then_free ?_ p)
  split
  · exact hr.then_quiet ⟨rfl, rfl, rfl, rfl⟩
  · exact hr.then_free _

theorem recvPta_goes (x : Exec) (p : Packet) (re : Pta) : Ends (Goes env Deed.Tame x) (x.recvPta env p re) := by
  unfold recvPta
  split
  · exact Ends.ok (.quiet ⟨rfl, rfl, rfl, rfl⟩)
  rename_i rt _
  split
  · split
    · exact Ends.error _
    simp only
    refine Ends.bind (downIfEmpty_goes _ re.unreachableDst _ .refl) (fun r hr => ?_)
    have h1 : Goes env Deed.Tame x _ := .trans (.mark x re.unreachableDst (fun e => (RtEntry.Minor.pathDelete e p.saddr).trans
      (.setHighestSeqnoHeard _ (max rt.rtHighestSeqnoHeard re.unreachableDstSeqno)))) hr
    refine Ends.ok (Goes.then_free ?_ p)
    exact (h1.then_mark _ (fun e => .setSeqno e _)).then_quiet (Quiet.reports ..)
  · exact Ends.ok (.quiet ⟨rfl, rfl, rfl, rfl⟩)

/-- A write to a neighbour that leaves alone what it is judged by. -/
theorem other_goes (x : Exec) (id : NsAddr) {f : Neighbor → Neighbor} (hf : ∀ nb : Neighbor, f nb = { nb with
    nbExpire := (f nb).nbExpire, fenzi := (f nb).fenzi, fenmu := (f nb).fenmu, probRecvs := (f nb).probRecvs
    trustedNbs := (f nb).trustedNbs, interactNbs := (f nb).interactNbs }) : Goes env Deed.Tame x (x.nbModify id f) :=
  .observe x id (fun nb => ⟨.other _ _ _ _ _ _, trivial, hf nb⟩)

theorem recvHello_goes (env : Env) (x : Exec) (p : Packet) (rp : Rrep) : Goes env Deed.Tame x (x.recvHello env p rp) := by
  unfold recvHello
  split
  · rename_i hn
    refine Goes.then_free ?_ p
    simp only [nbInsert, hn]
    exact .one (.meet _ hn) trivial
  · exact (other_goes x rp.rpDst (fun _ => by rfl)).then_free p

theorem recvRcom_goes (x : Exec) (p : Packet) (rc : Recommen) : Ends (Goes env Deed.Tame x) (x.recvRcom env p rc) := by
  unfold recvRcom
  split
  · exact Ends.ok (.quiet ⟨rfl, rfl, rfl, rfl⟩)
  rename_i nb _
  split
  · split
    · exact Ends.error _
    refine Ends.ok (Goes.then_free ?_ p)
    have hall : ∀ (l : List (NsAddr × ℚ)) (y : Exec), Goes env Deed.Tame x y → Goes env Deed.Tame x
        (l.foldl (recommend (nb.directTrust.getD (env.unsetTrust p.saddr))) y) := by
      intro l
      induction l with
      | nil => exact fun _ h => h
      | cons r l ih => exact fun y h => ih _ (h.trans (other_goes y r.1 (fun _ => by rfl)))
    exact hall rc.nbs _ (other_goes x p.saddr (fun _ => by rfl))
  · exact Ends.ok (.quiet ⟨rfl, rfl, rfl, rfl⟩)

theorem recvTEAOMDV_goes (x : Exec) (p : Packet) : Ends (Goes env Deed.Mild x) (x.recvTEAOMDV env p) := by
  unfold recvTEAOMDV
  split
  · exact Ends.error _
  split
  · exact recvRequest_goes x p _
  · exact Goes.ends_mild (recvReply_goes x p _)
  · exact Goes.ends_mild (recvError_goes x p _)
  · exact Ends.ok (recvHello_goes env x p _).mild
  · exact Goes.ends_mild (recvRcom_goes x p _)
  · exact Ends.ok ((other_goes x p.saddr (fun _ => by rfl)).then_free p).mild
  · exact Goes.ends_mild (recvPta_goes x p _)
  · exact Ends.error _

theorem sendRequest_goes (x : Exec) (d : NsAddr) : Ends (Goes env Deed.Mild x) (x.sendRequest env d) :=
  fun _ hy => .one (.request hy) trivial

theorem rtResolve_goes (x : Exec) (p : Packet) : Ends (Goes env Deed.Mild x) (x.rtResolve env p) := by
  unfold rtResolve
  refine Ends.bind (rtEnsure_goes x p.daddr) (fun y hxy => ?_)
  split
  · exact Ends.error _
  rename_i rt _
  split
  · split
    · exact Ends.error _
    · exact Ends.mono (forward_goes y _ p _) (fun z hz => (hxy.trans hz).mild)
  split
  · exact Ends.mono (sendRequest_goes _ rt.rtDst) (fun z hz => (hxy.then_quiet (Quiet.enque env y p)).mild.trans hz)
  split
  · exact Ends.ok (hxy.then_quiet (Quiet.enque env y p)).mild
  · exact Ends.ok (Goes.mild (hxy.then_quiet ⟨rfl, rfl, rfl, rfl⟩))

theorem recv_goes (x : Exec) (p : Packet) : Ends (Goes env Deed.Mild x) (x.recv env p) := by
  unfold recv
  split
  · exact recvTEAOMDV_goes x _
  split
  · simp only
    split
    · exact rtResolve_goes x _
    · exact Goes.ends_mild (forward_goes x none _ _)
  split
  · exact Goes.ends_mild (Ends.ok (.quiet ⟨rfl, rfl, rfl, rfl⟩))
  simp only
  split
  · exact Goes.ends_mild (Ends.ok (.quiet ⟨rfl, rfl, rfl, rfl⟩))
  split
  · exact rtResolve_goes x _
  · exact Goes.ends_mild (forward_goes x none _ _)

theorem tap_goes (env : Env) (x : Exec) (p : Packet) : Goes env Deed.Tame x (x.tap p) := by
  unfold tap
  split
  · exact .refl
  split
  · exact .observe x _ (fun nb => ⟨.overheard .data p.uid, trivial, rfl⟩)
  · split
    · exact .observe x _ (fun nb => ⟨.overheard .control p.uid, trivial, rfl⟩)
    · exact .refl
  · exact .refl

/-! ### Timers -/

theorem failEntry_goes (id : NsAddr) (acc : Exec × List (NsAddr × Nat)) (d : NsAddr) :
    Ends (fun r => Goes env Deed.Tame acc.1 r.1) (failEntry env id acc d) := by
  unfold failEntry
  simp only
  split
  · exact Ends.ok .refl
  split
  · split
    · exact Ends.error _
    refine Ends.bind (P := fun _ => True) (fun _ _ => trivial) (fun empty _ => ?_)
    have h1 : Goes env Deed.Tame acc.1 (acc.1.rtModify d (fun e => e.pathDelete id)) := .mark acc.1 d (fun e => .pathDelete e id)
    split
    · split
      · split
        · exact Ends.error _
        · refine Ends.ok (h1.then_mark d (fun e => ?_))
          exact (RtEntry.Minor.failed e env.inf).trans (.setError _ false)
      · exact Ends.ok (h1.then_mark d (fun e => .failed e env.inf))
    · exact Ends.ok h1
  · exact Ends.ok .refl

theorem handleLinkFailure_goes (x : Exec) (id : NsAddr) : Ends (Goes env Deed.Tame x) (x.handleLinkFailure env id) := by
  unfold handleLinkFailure
  simp only
  refine Ends.bind (Ends.foldlM (Q := fun acc => Goes env Deed.Tame x acc.1) (fun acc d _ h => ?_) (.quiet ⟨rfl, rfl, rfl, rfl⟩)) (fun r hr => ?_)
  · exact Ends.mono (failEntry_goes id acc d) (fun r hr => h.trans hr)
  · obtain ⟨y, re⟩ := r
    refine Ends.ok ?_
    simp only
    split
    · exact Goes.then_quiet hr ⟨rfl, rfl, rfl, rfl⟩
    · exact Goes.then_free hr _

theorem sendBuffered_goes (d : NsAddr) : ∀ (n : Nat) (acc : Exec × ℚ),
    Ends (fun r => Goes env Deed.Tame acc.1 r.1) (sendBuffered env d n acc)
  | 0, _ => Ends.ok .refl
  | n + 1, (x, delay) => by
    have hq := Quiet.deque env x d
    unfold sendBuffered
    split
    · rename_i y hy
      rw [hy] at hq
      exact Ends.ok (.quiet hq)
    · rename_i q y hy
      rw [hy] at hq
      refine Ends.bind (forward_goes y (some d) q delay) (fun z hz => ?_)
      exact Ends.mono (sendBuffered_goes d n _) (fun r hr => ((Goes.quiet hq).trans hz).trans hr)

theorem purgeEntry_goes (acc : Exec × ℚ) (d : NsAddr) :
    Ends (fun r => Goes env Deed.Mild acc.1 r.1) (purgeEntry env acc d) := by
  unfold purgeEntry
  simp only
  split
  · exact Ends.ok .refl
  rename_i rt _
  split
  · refine Ends.bind (P := fun _ => True) (fun _ _ => trivial) (fun empty _ => ?_)
    have h1 : Goes env Deed.Tame acc.1 _ := .mark acc.1 d (fun e => .pathPurge e env.now)
    split
    · refine Ends.bind (drain_goes (fun y q => Ends.ok (.quiet (.drop y q _))) _ d) (fun y hy => Ends.ok ?_)
      exact ((h1.trans hy).then_mark d (fun e => .expired e _)).mild
    · exact Ends.ok h1.mild
  split
  · split
    · exact Ends.error _
    · exact Ends.mono (sendBuffered_goes d _ acc) (fun _ h => h.mild)
  split
  · exact Ends.bind (sendRequest_goes acc.1 d) (fun y hy => Ends.ok hy)
  · exact Ends.ok .refl

theorem rtPurge_goes (x : Exec) : Ends (Goes env Deed.Mild x) (x.rtPurge env) := by
  unfold rtPurge
  have hround : ∀ acc : Exec × ℚ, ∀ d ∈ x.rtable.map (·.rtDst), Goes env Deed.Mild x acc.1 →
      Ends (fun r => Goes env Deed.Mild x r.1) (purgeEntry env acc d) :=
    fun acc d _ h => Ends.mono (purgeEntry_goes acc d) (fun r hr => h.trans hr)
  have hend := Ends.foldlM (Q := fun acc : Exec × ℚ => Goes env Deed.Mild x acc.1) (a := (x, 0)) hround ReflTransGen.refl
  exact Ends.bind hend (fun r hr => Ends.ok hr)

theorem salvage_goes (x : Exec) (p : Packet) : Ends (Goes env Deed.Tame x) (x.salvage env p) := by
  unfold salvage
  simp only
  split
  · exact Ends.ok (.quiet ⟨rfl, rfl, rfl, rfl⟩)
  split
  · exact Ends.mono (forward_goes _ _ _ _) (fun y hy => (Goes.quiet (.say x _)).trans hy)
  · exact Ends.ok (.quiet ⟨rfl, rfl, rfl, rfl⟩)

/-- What `nb_delete(id)` does once `id` is out of the list. -/
theorem nbDelete_rest (ifq : NsAddr → List Packet) (x : Exec) (id : NsAddr) : Ends (Goes env Deed.Tame { x with
    seqno := u32 (x.seqno + 2), nbhead := x.nbhead.eraseP (fun nb => nb.nbAddr = id) }) (x.nbDelete env ifq id) := by
  unfold nbDelete
  simp only
  split
  · exact Ends.error _
  refine Ends.bind (handleLinkFailure_goes _ id) (fun y hy => ?_)
  exact Ends.foldlM (fun z p _ hz => Ends.mono (salvage_goes z p) (fun w hw => hz.trans hw)) hy

theorem nbDelete_goes (ifq : NsAddr → List Packet) (x : Exec) (id : NsAddr) :
    Ends (Goes env (Deed.Deletes id) x) (x.nbDelete env ifq id) := by
  refine Ends.mono (nbDelete_rest ifq x id) (fun y hy => (Goes.one (.bump x) (.inr (.inl rfl))).trans ?_)
  exact (Goes.one (.part _ id) (.inr (.inr rfl))).trans (hy.mono (fun _ => .inl))

theorem nbPurge_goes (ifq : NsAddr → List Packet) (x : Exec) :
    Ends (Goes env (Input.timer (.neighbor ifq)).Allows x) (x.nbPurge env ifq) := by
  unfold nbPurge
  refine Ends.foldlM (fun y nb _ hy => ?_) .refl
  split
  · refine Ends.mono (nbDelete_goes ifq y nb.nbAddr) (fun z hz => hy.trans (hz.mono ?_))
    rintro k (hk | rfl | rfl)
    · exact Input.allows_mild _ hk.mild
    · exact trivial
    · exact ⟨ifq, rfl⟩
  · exact Ends.ok hy

theorem trustEntry_goes (env : Env) (b : Batch) (id : NsAddr) :
    Goes env (Input.timer .trust).Allows b.x (trustEntry env b id).x := by
  unfold trustEntry
  simp only
  cases hn : b.x.nbLookup id with
  | none =>
    rw [nbLookup_nbModify b.x id (fun nb => nbAddr_setTV nb env.now), if_pos rfl, hn]
    exact .refl
  | some nb =>
    have heq : b.x.nbModify id (fun nb => (nb.setTV env.now).tvInit env.now) =
        b.x.nbModify id (fun _ => nb.observe env.now .round) := by
      unfold nbModify
      rw [Keyed.modifyFirst_eq_const hn]
      rfl
    have h1 : Goes env (Input.timer .trust).Allows b.x (b.x.nbModify id (fun nb => (nb.setTV env.now).tvInit env.now)) := by
      rw [heq]
      exact .one (.observe .round hn) rfl
    split
    · exact .refl
    split
    · refine h1.trans (Goes.mono (.quiet ?_) (fun _ hk => Input.allows_mild _ hk.mild))
      exact ⟨rfl, rfl, rfl, rfl⟩
    · exact h1

theorem setTrust_goes (env : Env) (x : Exec) : Goes env (Input.timer .trust).Allows x (x.setTrust env) := by
  have quiet : ∀ {y z : Exec}, Quiet y z → Goes env (Input.timer .trust).Allows y z :=
    fun h => (Goes.quiet h).mono (fun _ hk => Input.allows_mild _ hk.mild)
  have loop : ∀ (l : List NsAddr) (b : Batch), Goes env (Input.timer .trust).Allows x b.x →
      Goes env (Input.timer .trust).Allows x (l.foldl (trustEntry env) b).x := by
    intro l
    induction l with
    | nil => exact fun _ h => h
    | cons id l ih => exact fun b h => ih _ (h.trans (trustEntry_goes env b id))
  have h1 := loop (x.nbhead.map (·.nbAddr)) ⟨x.alloc, x.blank, [], 0⟩ (quiet ⟨rfl, rfl, rfl, rfl⟩)
  unfold setTrust
  simp only
  split
  · exact h1.trans (quiet ⟨rfl, rfl, rfl, rfl⟩)
  · exact h1

theorem localRepair_goes (env : Env) (x : Exec) (p : Packet) : Goes env Deed.Tame x (x.localRepair env p) := by
  unfold localRepair
  split
  · exact .quiet ⟨rfl, rfl, rfl, rfl⟩
  refine Goes.then_free ?_ p
  split
  · exact .mark x _ (fun e => .rtDown e _)
  · exact .refl

/-- **Every handler is a run of strides.** -/
theorem handle_goes (inp : Input) : Ends (Goes env inp.Allows x) (x.handle env inp) := by
  have mild : ∀ {m : Result}, Ends (Goes env Deed.Mild x) m → Ends (Goes env inp.Allows x) m :=
    fun h => Ends.mono h (fun _ hy => hy.mono (fun _ => Input.allows_mild _))
  have tame : ∀ {m : Result}, Ends (Goes env Deed.Tame x) m → Ends (Goes env inp.Allows x) m := fun h => mild (Goes.ends_mild h)
  cases inp with
  | recv p => exact mild (recv_goes x p)
  | tap p => exact tame (Ends.ok (tap_goes env x p))
  | rtLlFailed p => exact tame (Ends.ok (.quiet ⟨rfl, rfl, rfl, rfl⟩))
  | timer t =>
    cases t with
    | broadcast => exact tame (Ends.ok (.quiet ⟨rfl, rfl, rfl, rfl⟩))
    | hello =>
      refine tame (Ends.ok ?_)
      split
      · exact .quiet ⟨rfl, rfl, rfl, rfl⟩
      · exact .refl
    | probe => exact tame (Ends.ok (.quiet ⟨rfl, rfl, rfl, rfl⟩))
    | trust => exact Ends.ok (setTrust_goes env x)
    | neighbor ifq => exact nbPurge_goes ifq x
    | routeCache => exact mild (rtPurge_goes x)
    | localRepair p => exact tame (Ends.ok (localRepair_goes env x p))

/-! ## Runs, stride by stride -/

/-- A stride that was made. -/
structure Strode where
  env : Env
  deed : Deed
  pre : Exec
  post : Exec

/-- These strides lead from `x` to `y`. -/
def Walk : List Strode → Exec → Exec → Prop :=
  Runs.Trail (fun s x y => s.pre = x ∧ s.post = y ∧ Stride s.env s.deed x y)

theorem walk_of_goes {K : Deed → Prop} (h : Goes env K x y) : ∃ ws, Walk ws x y ∧ ∀ s ∈ ws, s.env = env ∧ K s.deed :=
  Runs.Trail.of_steps (fun a b ⟨k, hk, hs⟩ => ⟨⟨env, k, a, b⟩, ⟨rfl, hk⟩, rfl, rfl, hs⟩) h

end Exec

/-- The strides of a run of node `id`, from a new agent. -/
def Agent.Walked (id : NsAddr) (ws : List Exec.Strode) (x : Exec) : Prop := Exec.Walk ws ((Agent.new id).exec 0) x

/-- **Every run of a node is a walk**, and so is the handler it is in. -/
theorem Agent.walked_of_reach {id : NsAddr} {a : Agent} (h : Reach id a) (heap : Nat) : ∃ ws, Walked id ws (a.exec heap) := by
  have restart : ∀ {ws : List Exec.Strode} {x : Exec}, Walked id ws x → ∀ heap, ∃ ws, Walked id ws (x.toAgent.exec heap) := by
    intro ws x h heap
    have hq : Exec.Quiet x (x.toAgent.exec heap) := ⟨rfl, rfl, rfl, rfl⟩
    exact ⟨_, Runs.Trail.snoc h (k := ⟨{ inf := 0, now := 0 }, .quiet, x, _⟩) ⟨rfl, rfl, .quiet hq⟩⟩
  refine Runs.Reaches.invariant (P := fun a => ∀ heap, ∃ ws, Walked id ws (a.exec heap))
    (fun heap => restart (x := (Agent.new id).exec 0) (.nil _) heap) (fun a c a' _ ih _ hs heap => ?_) h heap
  obtain ⟨x, hx, rfl⟩ := call_eq_some hs
  obtain ⟨ws, hws⟩ := ih c.heap
  obtain ⟨ws', hws', -⟩ := Exec.walk_of_goes (Exec.handle_goes c.inp x hx)
  exact restart (Runs.Trail.append hws hws') heap

end TeAomdv

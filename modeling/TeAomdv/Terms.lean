import TeAomdv.Carry
/-!
# Terms — what a handler may cache, buffer and send

`Terms` bounds what the handlers of a node write outside its table of routes: the neighbours it knows, the broadcast ids
it caches, the packets it buffers, and those it hands to `target_`.  Any terms that allow what the node makes itself and
what it sends off from the buffer (`Lawful`) are met by every handler, given what they say of the packet received.
-/
namespace TeAomdv

open Fallible (Ends)

/-- The packet as `forward` hands it over at node `i`, on a path by way of `n`. -/
def Packet.forwarded (p : Packet) (i n : NsAddr) : Packet :=
  { p with direction := .down, addrType := .inet, nextHop := n, pprevHop := p.prevHop, prevHop := i }

/-- `nb'` is `nb` but for its expiry and its records, which still confirm no more than they count. -/
structure Neighbor.Notes (nb nb' : Neighbor) : Prop where
  addr : nb'.nbAddr = nb.nbAddr
  tv : nb'.tv = nb.tv
  directTrust : nb'.directTrust = nb.directTrust
  recommenTrust : nb'.recommenTrust = nb.recommenTrust
  deliveryRatio : nb'.deliveryRatio = nb.deliveryRatio
  activityDegree : nb'.activityDegree = nb.activityDegree
  fenzi : nb'.fenzi = nb.fenzi
  fenmu : nb'.fenmu = nb.fenmu
  probRecvs : nb'.probRecvs = nb.probRecvs
  probStime : nb'.probStime = nb.probStime
  trustedNbs : nb'.trustedNbs = nb.trustedNbs
  interactNbs : nb'.interactNbs = nb.interactNbs
  control : nb.controlForwardCorrects ≤ nb.controlForwardAlls → nb'.controlForwardCorrects ≤ nb'.controlForwardAlls
  data : nb.dataForwardCorrects ≤ nb.dataForwardAlls → nb'.dataForwardCorrects ≤ nb'.dataForwardAlls

namespace Neighbor.Notes

theorem expiry (nb : Neighbor) (t : ℚ) : nb.Notes { nb with nbExpire := t } :=
  ⟨rfl, rfl, rfl, rfl, rfl, rfl, rfl, rfl, rfl, rfl, rfl, rfl, id, id⟩

theorem addDataForward (nb : Neighbor) : nb.Notes nb.addDataForward :=
  ⟨rfl, rfl, rfl, rfl, rfl, rfl, rfl, rfl, rfl, rfl, rfl, rfl, id, Nat.succ_le_succ⟩

theorem addControlForward (nb : Neighbor) : nb.Notes nb.addControlForward :=
  ⟨rfl, rfl, rfl, rfl, rfl, rfl, rfl, rfl, rfl, rfl, rfl, rfl, Nat.succ_le_succ, id⟩

theorem recordCbr (nb : Neighbor) (uid : Nat) (now : ℚ) : nb.Notes (nb.recordCbr uid now) := by
  unfold Neighbor.recordCbr
  split <;> exact ⟨rfl, rfl, rfl, rfl, rfl, rfl, rfl, rfl, rfl, rfl, rfl, rfl, id, id⟩

theorem recordPtteaomdv (nb : Neighbor) (uid : Nat) (now : ℚ) : nb.Notes (nb.recordPtteaomdv uid now) := by
  unfold Neighbor.recordPtteaomdv
  split <;> exact ⟨rfl, rfl, rfl, rfl, rfl, rfl, rfl, rfl, rfl, rfl, rfl, rfl, id, id⟩

theorem cbrF (nb : Neighbor) (l : List Node1) : nb.Notes { nb with cbrF := l } :=
  ⟨rfl, rfl, rfl, rfl, rfl, rfl, rfl, rfl, rfl, rfl, rfl, rfl, id, id⟩

theorem ptteaomdvF (nb : Neighbor) (l : List Node1) : nb.Notes { nb with ptteaomdvF := l } :=
  ⟨rfl, rfl, rfl, rfl, rfl, rfl, rfl, rfl, rfl, rfl, rfl, rfl, id, id⟩

end Neighbor.Notes

structure Terms where
  index : NsAddr
  heap : Nat
  ids : List BroadcastId → Prop := fun _ => True
  waits : Packet → Prop := fun _ => True
  goes : Packet → Prop := fun _ => True
  knows : Neighbor → Prop := fun _ => True

/-- What `set_trust` writes into an RCOM: the direct trust of neighbours known. -/
structure Terms.Recommends (T : Terms) (rc : Recommen) : Prop where
  nbs : ∀ r ∈ rc.nbs, ∃ nb, T.knows nb ∧ r.2 = nb.directTrust.getD 0
  itNum : 0 ≤ rc.itNum

/-- The id may be cached where it is not. -/
def Terms.Caches (T : Terms) (now : ℚ) (src : NsAddr) (id : Nat) : Prop :=
  ∀ l, T.ids l → l.find? (Exec.sameId src id) = none → T.ids ({ src := src, id := id, expire := now + bcastIdSave } :: l)

/-- The id may be marked as answered. -/
def Terms.Marks (T : Terms) (src : NsAddr) (id : Nat) : Prop :=
  ∀ l, T.ids l → T.ids (Keyed.modifyFirst (Exec.sameId src id) (fun b => { b with count := 1 }) l)

/-- A neighbour may be recommended as `rc` does, by one known, whose direct trust is `unset` if it was never computed. -/
structure Terms.Heeds (T : Terms) (unset : ℚ) (rc : Recommen) : Prop where
  interact : ∀ nb, T.knows nb → T.knows { nb with interactNbs := nb.interactNbs + rc.itNum }
  recommend : ∀ nb nb', T.knows nb → T.knows nb' → ∀ r ∈ rc.nbs, T.knows { nb' with
    fenzi := nb'.fenzi + nb.directTrust.getD unset * r.2
    fenmu := nb'.fenmu + nb.directTrust.getD unset
    trustedNbs := if trustThreshold ≤ r.2 then nb'.trustedNbs + 1 else nb'.trustedNbs }

/-- What is buffered may be sent off, and so may what the node makes itself: a packet of one hop, and a request.  A
neighbour may be new, and anything may be noted of one. -/
structure Terms.Lawful (T : Terms) : Prop where
  flush : ∀ q n, T.waits q → q.ttl ≠ 0 → T.goes (q.forwarded T.index n)
  news : ∀ q : Packet, q.Mute → q.ptype = .teaomdv → T.heap ≤ q.ptr → q.ttl = 1 →
    (∀ rc, q.body = .rcom rc → T.Recommends rc) → T.goes q
  request : ∀ (q : Packet) rq, q.body = .rreq rq → rq.rqSrc = T.index → q.ptype = .teaomdv → T.heap ≤ q.ptr → T.goes q
  fresh : ∀ a now expire, T.knows (.new a now expire)
  notes : ∀ nb nb' : Neighbor, nb.Notes nb' → T.knows nb → T.knows nb'

namespace Exec

/-- The terms are met so far. -/
structure Meets (T : Terms) (x : Exec) : Prop where
  index : x.index = T.index
  heap : T.heap ≤ x.heap
  ids : T.ids x.bihead
  queue : ∀ q ∈ x.rqueue, T.waits q
  sent : ∀ q t, Act.schedule q t ∈ x.log → T.goes q
  nbs : ∀ nb ∈ x.nbhead, T.knows nb

/-- A function goes on meeting the terms. -/
def Abides (T : Terms) (x : Exec) (m : Result) : Prop := x.Meets T → Ends (Meets T) m

variable {T : Terms} {env : Env} {x y : Exec} {d : NsAddr} {p : Packet}

namespace Meets

theorem say (h : x.Meets T) {a : Act} (ha : ∀ q t, a = .schedule q t → T.goes q) : (x.say a).Meets T where
  index := h.index
  heap := h.heap
  ids := h.ids
  queue := h.queue
  sent := by
    intro q t hq
    rcases List.mem_append.1 hq with hq | hq
    · exact h.sent q t hq
    · exact ha q t (List.mem_singleton.1 hq).symm
  nbs := h.nbs

theorem schedule (h : x.Meets T) (hp : T.goes p) (t : Delay) : (x.schedule p t).Meets T := by
  refine h.say (fun q t' heq => ?_)
  cases heq
  exact hp

theorem free (h : x.Meets T) (p : Packet) : (x.free p).Meets T := h.say (fun _ _ h => nomatch h)

theorem drop (h : x.Meets T) (p : Packet) (r : DropReason) : (x.drop p r).Meets T := h.say (fun _ _ h => nomatch h)

theorem alloc (h : x.Meets T) : x.alloc.Meets T :=
  say (x := { x with heap := x.heap + 1 }) ⟨h.index, h.heap.trans (Nat.le_succ _), h.ids, h.queue, h.sent, h.nbs⟩
    (fun _ _ h => nomatch h)

/-- The table of routes is not the terms' concern. -/
theorem rtModify (h : x.Meets T) (d : NsAddr) (f : RtEntry → RtEntry) : (x.rtModify d f).Meets T :=
  ⟨h.index, h.heap, h.ids, h.queue, h.sent, h.nbs⟩

theorem nbModify (h : x.Meets T) (id : NsAddr) {f : Neighbor → Neighbor} (hf : ∀ nb, T.knows nb → T.knows (f nb)) :
    (x.nbModify id f).Meets T := by
  refine ⟨h.index, h.heap, h.ids, h.queue, h.sent, fun nb hm => ?_⟩
  rcases Keyed.mem_modifyFirst hm with hm | ⟨nb', hfind, rfl⟩
  · exact h.nbs nb hm
  · exact hf nb' (h.nbs nb' (List.mem_of_find?_eq_some hfind))

theorem rqPurge (h : x.Meets T) (env : Env) : (x.rqPurge env).Meets T where
  index := h.index
  heap := h.heap
  ids := h.ids
  queue := by
    intro q hq
    have hq : q ∈ Keyed.eraseAll _ x.rqueue := hq
    rw [Keyed.eraseAll_eq_filter] at hq
    exact h.queue q (List.mem_of_mem_filter hq)
  sent := by
    intro q t hq
    rcases List.mem_append.1 hq with hq | hq
    · exact h.sent q t hq
    · obtain ⟨_, -, heq⟩ := List.mem_map.1 hq
      cases heq
  nbs := h.nbs

theorem rqEvict (h : x.Meets T) (env : Env) : (x.rqEvict env).Meets T := by
  unfold Exec.rqEvict
  split
  · exact h
  · rename_i p0 rest hq
    split
    · have h₁ : Meets T { x with rqueue := rest } :=
        ⟨h.index, h.heap, h.ids, fun q hm => h.queue q (by rw [hq]; exact List.mem_cons_of_mem _ hm), h.sent, h.nbs⟩
      exact (h₁.say (a := .deque p0) (fun _ _ h => nomatch h)).drop _ _
    · exact h

theorem enque (h : x.Meets T) (env : Env) (hp : ∀ t, T.waits { p with ts := t }) : (x.enque env p).Meets T := by
  have h₁ := (h.rqPurge env).rqEvict env
  refine say (x := { (x.rqPurge env).rqEvict env with
    rqueue := ((x.rqPurge env).rqEvict env).rqueue ++ [{ p with ts := env.now + teaomdvRtqTimeout }] })
    ⟨h₁.index, h₁.heap, h₁.ids, fun q hm => ?_, h₁.sent, h₁.nbs⟩ (fun _ _ h => nomatch h)
  rcases List.mem_append.1 hm with hm | hm
  · exact h₁.queue q hm
  · rw [List.mem_singleton.1 hm]
    exact hp _

theorem deque (h : x.Meets T) (env : Env) (d : NsAddr) : (x.deque env d).2.Meets T := by
  have h₁ := h.rqPurge env
  unfold Exec.deque
  simp only
  split
  · exact h₁
  · refine say (x := { x.rqPurge env with rqueue := (x.rqPurge env).rqueue.eraseP (fun p => p.daddr = d) })
      ⟨h₁.index, h₁.heap, h₁.ids, fun q hm => ?_, h₁.sent, h₁.nbs⟩ (fun _ _ h => nomatch h)
    exact h₁.queue q (List.mem_of_mem_eraseP hm)

theorem foldl {α : Type} {f : Exec → α → Exec} : ∀ {l : List α} {x : Exec},
    (∀ y, ∀ a ∈ l, Meets T y → Meets T (f y a)) → x.Meets T → Meets T (l.foldl f x)
  | [], _, _, h => h
  | a :: l, x, hf, h => foldl (l := l) (fun y b hb => hf y b (List.mem_cons_of_mem _ hb)) (hf x a List.mem_cons_self h)

section Laws

variable (hT : T.Lawful)

include hT

/-! ### Neighbours -/

theorem nbNote (h : x.Meets T) (id : NsAddr) {f : Neighbor → Neighbor} (hf : ∀ nb : Neighbor, nb.Notes (f nb)) :
    (x.nbModify id f).Meets T := h.nbModify id (fun nb => hT.notes _ _ (hf nb))

theorem nbInsert (h : x.Meets T) (env : Env) (id : NsAddr) : (x.nbInsert env id).Meets T := by
  unfold Exec.nbInsert
  simp only
  split
  · refine ⟨h.index, h.heap, h.ids, h.queue, h.sent, fun nb hm => ?_⟩
    rcases List.mem_cons.1 hm with rfl | hm
    · exact hT.fresh _ _ _
    · exact h.nbs nb hm
  · exact h.nbNote hT id (fun nb => .expiry nb _)

theorem nbEnsure (h : x.Meets T) (env : Env) (id : NsAddr) : (x.nbEnsure env id).Meets T := by
  unfold Exec.nbEnsure
  split
  · exact h.nbInsert hT env id
  · exact h

/-! ### Packets of one hop -/

theorem reportDistrust (h : x.Meets T) (dst : NsAddr) (seqno : Nat) (lasthop : NsAddr → NsAddr) (pc : NsAddr) :
    (Exec.reportDistrust dst seqno lasthop x pc).Meets T := by
  refine h.alloc.schedule ?_ _
  exact hT.news _ trivial rfl h.heap rfl (fun _ hb => nomatch hb)

theorem sendError (h : x.Meets T) {rerr : Packet} (hp : T.heap ≤ rerr.ptr) (re : Rerr) (jitter : Bool) :
    (x.sendError rerr re jitter).Meets T := by
  refine h.schedule ?_ _
  exact hT.news _ trivial rfl hp rfl (fun _ hb => nomatch hb)

theorem sendHello (h : x.Meets T) : x.sendHello.Meets T := by
  refine h.alloc.schedule ?_ _
  exact hT.news _ trivial rfl h.heap rfl (fun _ hb => nomatch hb)

theorem sendRcom (h : x.Meets T) {q : Packet} (hp : T.heap ≤ q.ptr) {rc : Recommen} (hrc : T.Recommends rc) :
    (x.sendRcom q rc).Meets T := by
  refine h.schedule ?_ _
  exact hT.news _ trivial rfl hp rfl (fun rc' hb => Body.rcom.inj hb ▸ hrc)

theorem sendProb (h : x.Meets T) : x.sendProb.Meets T := by
  refine h.alloc.schedule ?_ _
  exact hT.news _ trivial rfl h.heap rfl (fun _ hb => nomatch hb)

end Laws

end Meets

/-! ## `forward` and the loops -/

theorem downIfEmpty_meets (h : x.Meets T) (rt : RtEntry) (renumber : RtEntry → RtEntry) :
    Ends (fun a => a.1.Meets T) (x.downIfEmpty env d rt renumber) := by
  intro a ha
  obtain ⟨y, b⟩ := a
  obtain ⟨-, rfl⟩ := downIfEmpty_ok ha
  show (if b then _ else x : Exec).Meets T
  split
  · exact h.rtModify _ _
  · exact h

theorem drain_meets {body : Exec → Packet → Result} (hb : ∀ (y : Exec) q, T.waits q → y.Abides T (body y q)) (x : Exec) :
    x.Abides T (x.drain env d body) := by
  have key : ∀ n (x : Exec), x.Abides T (drainLoop env d body n x) := by
    intro n
    induction n with
    | zero => exact fun x hx => Ends.ok hx
    | succ n ih =>
      intro x hx
      have hy := hx.deque env d
      unfold drainLoop
      split
      · rename_i y heq
        rw [heq] at hy
        exact Ends.ok hy
      · rename_i q y heq
        rw [heq] at hy
        exact Ends.bind (hb y q (hx.queue q (mem_of_deque heq).1) hy) (fun z hz => ih z hz)
  exact key _ x

theorem forward_none_meets (hp : p.ttl ≠ 0 → T.goes { p with addrType := .none, direction := .down }) (delay : ℚ) :
    x.Abides T (x.forward env none p delay) := by
  intro hx
  unfold forward
  split
  · exact Ends.ok (hx.drop p _)
  rename_i httl
  split
  · exact Ends.ok (hx.say (a := .dmux p) (fun _ _ h => nomatch h))
  simp only
  split
  · exact Ends.ok (hx.schedule (hp httl) _)
  · exact Ends.error _

section Laws

variable (hT : T.Lawful)

include hT

theorem countForward_meets (h : x.Meets T) (env : Env) (p : Packet) : (x.countForward env p).Meets T := by
  unfold countForward
  split
  · refine h.nbNote hT _ (fun nb => ?_)
    split
    · exact .addDataForward nb
    · exact .recordCbr nb _ _
  · refine h.nbNote hT _ (fun nb => ?_)
    split
    · exact .addControlForward nb
    · exact .recordPtteaomdv nb _ _
  · exact h

theorem forwardSend_meets (hp : T.goes { p with direction := .down }) (d : NsAddr) (delay : ℚ) :
    x.Abides T (x.forwardSend env d p delay) := by
  intro hx
  have h₁ := (countForward_meets hT hx env p).rtModify d (fun rt => rt.modifyFind (fun path =>
    { path with expire := env.now + activeRouteTimeout }))
  unfold forwardSend
  simp only
  split
  · exact Ends.error _
  · refine Ends.ok (Meets.schedule ?_ hp _)
    split
    · exact h₁.rtModify d _
    · exact h₁

theorem forwardDistrust_meets (d : NsAddr) (path : Path) (p : Packet) :
    x.Abides T (x.forwardDistrust env d path p) := by
  intro hx
  unfold forwardDistrust
  split
  · exact Ends.error _
  · rename_i rt _
    have h₁ := Meets.foldl (f := reportDistrust rt.rtDst rt.rtSeqno (fun _ => path.lasthop)) (l := rt.rtPclist)
      (fun y pc _ hy => hy.reportDistrust hT _ _ _ pc) hx
    refine Ends.bind (downIfEmpty_meets (h₁.rtModify d _) _ _) (fun a ha => Ends.ok ?_)
    exact Meets.drop (ha.say (a := .distrust _ _ _) (fun _ _ h => nomatch h)) p _

/-- **What `forward` sends along an entry**: the packet, with the previous hops moved on, or reports of distrust. -/
theorem forward_some_meets (hp : p.ttl ≠ 0 → ∀ n, T.goes (p.forwarded T.index n)) (d : NsAddr) (delay : ℚ) :
    x.Abides T (x.forward env (some d) p delay) := by
  intro hx
  unfold forward
  split
  · exact Ends.ok (hx.drop p _)
  rename_i httl
  split
  · exact Ends.ok (hx.say (a := .dmux p) (fun _ _ h => nomatch h))
  simp only
  unfold forwardRoute
  split
  · exact Ends.error _
  split
  · exact Ends.error _
  split
  · exact Ends.error _
  rename_i path _
  have h₁ := (hx.rtModify d (fun rt => rt.pcInsert p.prevHop)).nbEnsure hT env path.nexthop
  simp only
  have hgo : T.goes { p with
      direction := .down, addrType := .inet, nextHop := path.nexthop, pprevHop := p.prevHop
      prevHop := ((x.rtModify d (fun rt => rt.pcInsert p.prevHop)).nbEnsure env path.nexthop).index } := by
    rw [h₁.index]
    exact hp httl path.nexthop
  generalize (x.rtModify d (fun rt => rt.pcInsert p.prevHop)).nbEnsure env path.nexthop = x₁ at h₁ hgo
  split
  · split
    · exact forwardDistrust_meets hT d path _ (h₁.rtModify d _)
    · exact forwardSend_meets hT hgo d delay (h₁.rtModify d _)
  · exact forwardSend_meets hT hgo d delay h₁

theorem flush_meets (d : NsAddr) : x.Abides T (x.flush env d) := by
  intro hx
  unfold flush
  split
  · exact Ends.error _
  split
  · refine drain_meets (fun y q hq hy => ?_) _ (hx.rtModify d _)
    unfold flushOne
    split
    · exact Ends.error _
    split
    · exact forward_some_meets hT (fun ht n => hT.flush q n hq ht) d _ hy
    · exact Ends.ok hy
  · exact Ends.ok hx

omit hT in
theorem rtEnsure_meets (d : NsAddr) : x.Abides T (x.rtEnsure env d) := by
  intro hx
  unfold rtEnsure rtAdd
  split
  · split
    · exact Ends.error _
    · exact Ends.ok ⟨hx.index, hx.heap, hx.ids, hx.queue, hx.sent, hx.nbs⟩
  · exact Ends.ok hx

theorem sendRequest_meets (d : NsAddr) : x.Abides T (x.sendRequest env d) := by
  intro hx
  unfold sendRequest
  simp only
  split
  · exact Ends.error _
  split
  · split
    · exact Ends.error _
    · exact Ends.ok (hx.alloc.free _)
  split
  · exact Ends.ok (hx.alloc.free _)
  split
  · refine Ends.bind (drain_meets (fun y q _ hy => Ends.ok (hy.drop q _)) _ (hx.alloc.rtModify d _)) (fun y hy => ?_)
    exact Ends.ok (hy.free _)
  · have h₁ := hx.alloc.rtModify d (requested env)
    unfold emitRequest
    simp only
    split
    · exact Ends.error _
    · refine Ends.ok (Meets.schedule ?_ ?_ _)
      · exact ⟨h₁.index, h₁.heap, h₁.ids, h₁.queue, h₁.sent, h₁.nbs⟩
      · exact hT.request _ _ rfl h₁.index rfl hx.heap

end Laws

end Exec

end TeAomdv

import TeAomdv.Rounds
import TeAomdv.Weights
/-!
# Unread — what no handler reads before the next round of `set_trust`

What RCOMs and PROBs leave at a neighbour (`Evidence`) and when it expires are read by `set_trust` and `nb_purge` alone.
Two agents that differ in no more than these do the same on everything else, and differ in as much afterwards
(`Exec.handle_unread`).
-/
namespace TeAomdv

open Fallible (Pairs)

/-- What is gathered of a neighbour between two rounds. -/
@[ext] structure Evidence where
  fenzi : ℚ
  fenmu : ℚ
  probRecvs : ℚ
  trustedNbs : ℚ
  interactNbs : ℚ

namespace Evidence

instance : Zero Evidence := ⟨⟨0, 0, 0, 0, 0⟩⟩

instance : Add Evidence :=
  ⟨fun e e' => ⟨e.fenzi + e'.fenzi, e.fenmu + e'.fenmu, e.probRecvs + e'.probRecvs, e.trustedNbs + e'.trustedNbs,
    e.interactNbs + e'.interactNbs⟩⟩

instance : AddCommMonoid Evidence where
  nsmul := nsmulRec
  add_assoc _ _ _ := Evidence.ext (add_assoc ..) (add_assoc ..) (add_assoc ..) (add_assoc ..) (add_assoc ..)
  zero_add _ := Evidence.ext (zero_add _) (zero_add _) (zero_add _) (zero_add _) (zero_add _)
  add_zero _ := Evidence.ext (add_zero _) (add_zero _) (add_zero _) (add_zero _) (add_zero _)
  add_comm _ _ := Evidence.ext (add_comm ..) (add_comm ..) (add_comm ..) (add_comm ..) (add_comm ..)

end Evidence

namespace Neighbor

/-- With more evidence, and this expiry. -/
def plus (nb : Neighbor) (e : Evidence) (t : ℚ) : Neighbor :=
  { nb with
    nbExpire := t
    fenzi := nb.fenzi + e.fenzi
    fenmu := nb.fenmu + e.fenmu
    probRecvs := nb.probRecvs + e.probRecvs
    trustedNbs := nb.trustedNbs + e.trustedNbs
    interactNbs := nb.interactNbs + e.interactNbs }

theorem plus_zero (nb : Neighbor) : nb.plus 0 nb.nbExpire = nb := by
  have h : ∀ a : ℚ, a + 0 = a := add_zero
  unfold plus
  rw [show (0 : Evidence).fenzi = 0 from rfl, show (0 : Evidence).fenmu = 0 from rfl,
    show (0 : Evidence).probRecvs = 0 from rfl, show (0 : Evidence).trustedNbs = 0 from rfl,
    show (0 : Evidence).interactNbs = 0 from rfl, h, h, h, h, h]

theorem plus_plus (nb : Neighbor) (e e' : Evidence) (t t' : ℚ) : (nb.plus e t).plus e' t' = nb.plus (e + e') t' := by
  have h : ∀ a b c : ℚ, a + b + c = a + (b + c) := add_assoc
  unfold plus
  simp only [h]
  rfl

/-- `nb'` is `nb` with `δ` more evidence of it, and some expiry. -/
def Heavier (δ : NsAddr → Evidence) (nb nb' : Neighbor) : Prop := ∃ t, nb' = nb.plus (δ nb.nbAddr) t

variable {δ : NsAddr → Evidence} {nb nb' : Neighbor}

theorem Heavier.addr (h : nb.Heavier δ nb') : nb'.nbAddr = nb.nbAddr := by
  obtain ⟨t, rfl⟩ := h
  rfl

/-- A write that neither reads nor writes the evidence. -/
def Blind (f : Neighbor → Neighbor) : Prop :=
  ∀ nb, (f nb).nbAddr = nb.nbAddr ∧ ∀ e t, ∃ t', f (nb.plus e t) = (f nb).plus e t'

theorem Blind.heavier {f : Neighbor → Neighbor} (hf : Blind f) (h : nb.Heavier δ nb') : (f nb).Heavier δ (f nb') := by
  obtain ⟨t, rfl⟩ := h
  obtain ⟨t', ht⟩ := (hf nb).2 (δ nb.nbAddr) t
  exact ⟨t', by rw [ht, (hf nb).1]⟩

namespace Blind

theorem expire (t : ℚ) : Blind (fun nb => { nb with nbExpire := t }) := fun _ => ⟨rfl, fun _ _ => ⟨t, rfl⟩⟩

theorem addDataForward : Blind Neighbor.addDataForward := fun _ => ⟨rfl, fun _ t => ⟨t, rfl⟩⟩

theorem addControlForward : Blind Neighbor.addControlForward := fun _ => ⟨rfl, fun _ t => ⟨t, rfl⟩⟩

theorem recordCbr (uid : Nat) (now : ℚ) : Blind (fun nb => nb.recordCbr uid now) := by
  refine fun nb => ⟨(Notes.recordCbr nb uid now).addr, fun e t => ⟨t, ?_⟩⟩
  unfold Neighbor.recordCbr
  simp only [show (nb.plus e t).cbrNum = nb.cbrNum from rfl]
  split <;> rfl

theorem recordPtteaomdv (uid : Nat) (now : ℚ) : Blind (fun nb => nb.recordPtteaomdv uid now) := by
  refine fun nb => ⟨(Notes.recordPtteaomdv nb uid now).addr, fun e t => ⟨t, ?_⟩⟩
  unfold Neighbor.recordPtteaomdv
  simp only [show (nb.plus e t).ptteaomdvNum = nb.ptteaomdvNum from rfl]
  split <;> rfl

theorem cbrF (uid : Nat) : Blind (fun nb => { nb with cbrF := confirm nb.cbrF nb.cbrNum uid }) :=
  fun _ => ⟨rfl, fun _ t => ⟨t, rfl⟩⟩

theorem ptteaomdvF (uid : Nat) : Blind (fun nb => { nb with ptteaomdvF := confirm nb.ptteaomdvF nb.ptteaomdvNum uid }) :=
  fun _ => ⟨rfl, fun _ t => ⟨t, rfl⟩⟩

end Blind

end Neighbor

namespace Exec

/-- `y` is `x` but for `δ` more evidence of its neighbours, and when they expire. -/
structure Kin (δ : NsAddr → Evidence) (x y : Exec) : Prop where
  rest : y = x.withNbs y.nbhead
  nbs : List.Forall₂ (Neighbor.Heavier δ) x.nbhead y.nbhead
  absent : ∀ id, x.nbLookup id = none → δ id = 0

/-- The same of two states with something else beside them. -/
def KinWith {β : Type*} (δ : NsAddr → Evidence) (r r' : Exec × β) : Prop := Kin δ r.1 r'.1 ∧ r'.2 = r.2

variable {δ : NsAddr → Evidence} {env : Env} {x y : Exec} {d id : NsAddr} {p : Packet}

namespace Kin

/-- A step that leaves the neighbours alone. -/
theorem same {f : Exec → Exec} (h : Kin δ x y) (hf : ∀ x l, f (x.withNbs l) = (f x).withNbs l) : Kin δ (f x) (f y) := by
  have hnbs : ∀ z, (f z).nbhead = z.nbhead := by
    intro z
    have hz : f z = (f z).withNbs z.nbhead := hf z z.nbhead
    rw [hz]
    rfl
  refine ⟨?_, ?_, ?_⟩
  · rw [hnbs y, ← hf x, ← h.rest]
  · rw [hnbs x, hnbs y]
    exact h.nbs
  · unfold nbLookup
    rw [hnbs x]
    exact h.absent

theorem read {β : Type*} (h : Kin δ x y) (g : Exec → β) (hg : ∀ x l, g (x.withNbs l) = g x) : g y = g x := by
  rw [h.rest]
  exact hg x _

theorem rtLookup (h : Kin δ x y) (d : NsAddr) : y.rtLookup d = x.rtLookup d := h.read (·.rtLookup d) (fun _ _ => rfl)

theorem index (h : Kin δ x y) : y.index = x.index := h.read (·.index) (fun _ _ => rfl)

theorem idGet (h : Kin δ x y) (s : NsAddr) (b : Nat) : y.idGet s b = x.idGet s b := h.read (·.idGet s b) (fun _ _ => rfl)

theorem rqueue (h : Kin δ x y) : y.rqueue = x.rqueue := h.read (·.rqueue) (fun _ _ => rfl)

theorem blank (h : Kin δ x y) : y.blank = x.blank := h.read (·.blank) (fun _ _ => rfl)

theorem nbLookup (h : Kin δ x y) (id : NsAddr) : Option.Rel (Neighbor.Heavier δ) (x.nbLookup id) (y.nbLookup id) :=
  Keyed.rel_find? (fun a b (hab : Neighbor.Heavier δ a b) => by rw [hab.addr]) h.nbs

/-- What is read of a neighbour, other than its evidence. -/
theorem ask {β : Type*} (h : Kin δ x y) (id : NsAddr) (g : Option Neighbor → β)
    (hg : ∀ nb e t, g (some (Neighbor.plus nb e t)) = g (some nb)) : g (y.nbLookup id) = g (x.nbLookup id) := by
  have hrel := h.nbLookup id
  generalize x.nbLookup id = o, y.nbLookup id = o' at hrel
  cases hrel with
  | none => rfl
  | some hnb =>
    obtain ⟨t, rfl⟩ := hnb
    exact hg _ _ _

theorem trustOf (h : Kin δ x y) (id : NsAddr) : y.trustOf id = x.trustOf id := by
  rw [trustOf_eq, trustOf_eq]
  exact h.ask id (fun o => (o.map (·.tv)).getD 1) (fun _ _ _ => rfl)

theorem nbModify {f : Neighbor → Neighbor} (hf : Neighbor.Blind f) (h : Kin δ x y) (id : NsAddr) :
    Kin δ (x.nbModify id f) (y.nbModify id f) := by
  refine ⟨?_, ?_, fun id' hnone => h.absent id' ?_⟩
  · rw [h.rest]
    rfl
  · exact Keyed.forall₂_modifyFirst_both (fun a b (hab : Neighbor.Heavier δ a b) => by rw [hab.addr]) (fun a b hab => hf.heavier hab) h.nbs
  · rw [nbLookup_nbModify x id (fun nb => (hf nb).1)] at hnone
    split at hnone
    · exact Option.map_eq_none_iff.1 hnone
    · exact hnone

theorem none_iff (h : Kin δ x y) (id : NsAddr) : y.nbLookup id = none ↔ x.nbLookup id = none := by
  rw [← Option.isNone_iff_eq_none, ← Option.isNone_iff_eq_none, h.ask id Option.isNone (fun _ _ _ => rfl)]

theorem nbInsert (h : Kin δ x y) (env : Env) (id : NsAddr) : Kin δ (x.nbInsert env id) (y.nbInsert env id) := by
  unfold Exec.nbInsert
  simp only
  by_cases hx : x.nbLookup id = none
  · rw [hx, (h.none_iff id).2 hx]
    refine ⟨?_, ?_, fun id' hnone => h.absent id' ?_⟩
    · simp only
      rw [h.rest]
      rfl
    · refine .cons ⟨env.now + helloInterval * allowedHelloLoss, ?_⟩ h.nbs
      have hzero : δ (Neighbor.new id env.now (env.now + helloInterval * allowedHelloLoss)).nbAddr = 0 := h.absent id hx
      rw [hzero]
      exact (Neighbor.plus_zero _).symm
    · rw [nbLookup_meet] at hnone
      split at hnone
      · cases hnone
      · exact hnone
  · obtain ⟨nb, hnb⟩ := Option.ne_none_iff_exists'.1 hx
    obtain ⟨nb', hnb'⟩ := Option.ne_none_iff_exists'.1 (fun hy => hx ((h.none_iff id).1 hy))
    rw [hnb, hnb']
    exact h.nbModify (Neighbor.Blind.expire _) id

theorem nbEnsure (h : Kin δ x y) (env : Env) (id : NsAddr) : Kin δ (x.nbEnsure env id) (y.nbEnsure env id) := by
  have hrel := h.nbLookup id
  unfold Exec.nbEnsure
  generalize x.nbLookup id = o, y.nbLookup id = o' at hrel
  cases hrel with
  | none => exact h.nbInsert env id
  | some _ => exact h

theorem rtModify (h : Kin δ x y) (d : NsAddr) (f : RtEntry → RtEntry) : Kin δ (x.rtModify d f) (y.rtModify d f) :=
  h.same (f := fun x => x.rtModify d f) (fun _ _ => rfl)

theorem say (h : Kin δ x y) (a : Act) : Kin δ (x.say a) (y.say a) :=
  h.same (f := fun x => x.say a) (fun _ _ => rfl)

theorem schedule (h : Kin δ x y) (p : Packet) (t : Delay) : Kin δ (x.schedule p t) (y.schedule p t) := h.say _

theorem free (h : Kin δ x y) (p : Packet) : Kin δ (x.free p) (y.free p) := h.say _

theorem drop (h : Kin δ x y) (p : Packet) (r : DropReason) : Kin δ (x.drop p r) (y.drop p r) := h.say _

theorem alloc (h : Kin δ x y) : Kin δ x.alloc y.alloc := h.same (fun _ _ => rfl)

theorem sendReply (h : Kin δ x y) (ipdst : NsAddr) (hopCount : Nat) (rpdst : NsAddr) (rpseq : Nat) (lifetime timestamp : ℚ)
    (nexthop : NsAddr) (bcastId : Nat) (rpFirstHop : NsAddr) (fpt rpt : ℚ) :
    Kin δ (x.sendReply ipdst hopCount rpdst rpseq lifetime timestamp nexthop bcastId rpFirstHop fpt rpt)
      (y.sendReply ipdst hopCount rpdst rpseq lifetime timestamp nexthop bcastId rpFirstHop fpt rpt) := by
  unfold Exec.sendReply
  rw [h.blank, h.index]
  exact h.alloc.schedule _ _

end Kin

/-! ## What sends packets -/

theorem deque_unread (env : Env) (h : Kin δ x y) (d : NsAddr) :
    ∃ o z z', x.deque env d = (o, z) ∧ y.deque env d = (o, z') ∧ Kin δ z z' := by
  have hpurge : Kin δ (x.rqPurge env) (y.rqPurge env) := h.same (fun _ _ => rfl)
  unfold deque
  simp only
  rw [hpurge.rqueue]
  split
  · exact ⟨_, _, _, rfl, rfl, hpurge⟩
  · refine ⟨_, _, _, rfl, rfl, Kin.say (hpurge.same (f := fun z => { z with rqueue := (x.rqPurge env).rqueue.eraseP _ }) ?_) _⟩
    exact fun _ _ => rfl

theorem drain_unread {body : Exec → Packet → Result} (hbody : ∀ x y q, Kin δ x y → Pairs (Kin δ) (body x q) (body y q))
    (h : Kin δ x y) (d : NsAddr) : Pairs (Kin δ) (x.drain env d body) (y.drain env d body) := by
  have loop : ∀ (n : Nat) (x y : Exec), Kin δ x y → Pairs (Kin δ) (drainLoop env d body n x) (drainLoop env d body n y) := by
    intro n
    induction n with
    | zero => exact fun _ _ h => h
    | succ n ih =>
      intro x y h
      obtain ⟨o, z, z', hx, hy, hkin⟩ := deque_unread env h d
      unfold drainLoop
      rw [hx, hy]
      cases o with
      | none => exact hkin
      | some q => exact (hbody z z' q hkin).bind (fun w w' hw => ih w w' hw)
  unfold drain
  rw [h.rqueue]
  exact loop _ x y h

theorem emitRequest_unread (h : Kin δ x y) (p : Packet) (rt : RtEntry) :
    Pairs (Kin δ) (x.emitRequest env p rt) (y.emitRequest env p rt) := by
  unfold emitRequest
  simp only
  rw [h.read (·.seqno) (fun _ _ => rfl), h.read (·.bid) (fun _ _ => rfl), h.index]
  split
  · exact rfl
  · refine .ok (Kin.schedule (h.same (f := fun z => { z with index := x.index, bid := u32 (x.bid + 1), seqno := u32 (x.seqno + 2) }) ?_) _ _)
    exact fun _ _ => rfl

theorem sendRequest_unread (h : Kin δ x y) (d : NsAddr) : Pairs (Kin δ) (x.sendRequest env d) (y.sendRequest env d) := by
  unfold sendRequest
  simp only
  rw [h.alloc.rtLookup, h.blank]
  cases x.alloc.rtLookup d with
  | none => exact rfl
  | some rt =>
    simp only
    split
    · split
      · exact rfl
      · exact .ok (h.alloc.free _)
    split
    · exact .ok (h.alloc.free _)
    split
    · exact (drain_unread (fun _ _ q h => .ok (h.drop q .rtrNoRoute)) (h.alloc.rtModify d _) d).bind (fun _ _ hz => .ok (hz.free _))
    · exact emitRequest_unread (h.alloc.rtModify d _) _ _

/-! ## What forwards them -/

theorem countForward_unread (h : Kin δ x y) (p : Packet) : Kin δ (x.countForward env p) (y.countForward env p) := by
  unfold countForward
  split
  · split
    · exact h.nbModify .addDataForward _
    · exact h.nbModify (.recordCbr _ _) _
  · split
    · exact h.nbModify .addControlForward _
    · exact h.nbModify (.recordPtteaomdv _ _) _
  · exact h

theorem downIfEmpty_unread (h : Kin δ x y) (d : NsAddr) (rt : RtEntry) (renumber : RtEntry → RtEntry) :
    Pairs (KinWith δ) (x.downIfEmpty env d rt renumber) (y.downIfEmpty env d rt renumber) := by
  unfold downIfEmpty
  cases rt.pathEmpty with
  | error => exact rfl
  | ok empty =>
    refine .ok ⟨?_, rfl⟩
    simp only
    split
    · exact h.rtModify d _
    · exact h

theorem reports_unread (dst : NsAddr) (seqno : Nat) (lasthop : NsAddr → NsAddr) : ∀ (pcs : List NsAddr) {x y : Exec},
    Kin δ x y → Kin δ (pcs.foldl (reportDistrust dst seqno lasthop) x) (pcs.foldl (reportDistrust dst seqno lasthop) y)
  | [], _, _, h => h
  | pc :: pcs, x, y, h => by
    refine reports_unread dst seqno lasthop pcs ?_
    unfold reportDistrust sendPta
    rw [h.blank, h.alloc.index]
    exact h.alloc.schedule _ _

theorem forwardDistrust_unread (h : Kin δ x y) (d : NsAddr) (path : Path) (p : Packet) :
    Pairs (Kin δ) (x.forwardDistrust env d path p) (y.forwardDistrust env d path p) := by
  unfold forwardDistrust
  rw [h.rtLookup]
  cases x.rtLookup d with
  | none => exact rfl
  | some rt =>
    refine (downIfEmpty_unread ((reports_unread _ _ _ rt.rtPclist h).rtModify d _) d _ _).bind (fun r r' hr => ?_)
    exact .ok ((hr.1.say _).drop _ _)

theorem forwardSend_unread (h : Kin δ x y) (d : NsAddr) (p : Packet) (delay : ℚ) :
    Pairs (Kin δ) (x.forwardSend env d p delay) (y.forwardSend env d p delay) := by
  have hcount : Kin δ (x.countForward env p) (y.countForward env p) := countForward_unread h p
  have hk := hcount.rtModify d
    (fun rt => rt.modifyFind (fun path => { path with expire := env.now + activeRouteTimeout }))
  unfold forwardSend
  simp only
  rw [hk.index]
  split
  · exact rfl
  · refine .ok (Kin.schedule ?_ _ _)
    split
    · exact hk.rtModify d _
    · exact hk

theorem forwardRoute_unread (h : Kin δ x y) (d : NsAddr) (p : Packet) (delay : ℚ) :
    Pairs (Kin δ) (x.forwardRoute env d p delay) (y.forwardRoute env d p delay) := by
  unfold forwardRoute
  rw [h.rtLookup]
  cases x.rtLookup d with
  | none => exact rfl
  | some rt =>
    simp only
    split
    · exact rfl
    cases rt.pathFind with
    | none => exact rfl
    | some path =>
      have hk : Kin δ ((x.rtModify d (fun rt => rt.pcInsert p.prevHop)).nbEnsure env path.nexthop)
          ((y.rtModify d (fun rt => rt.pcInsert p.prevHop)).nbEnsure env path.nexthop) := (h.rtModify d _).nbEnsure env _
      simp only
      rw [hk.index, hk.trustOf]
      split
      · split
        · exact forwardDistrust_unread (hk.rtModify d _) ..
        · exact forwardSend_unread (hk.rtModify d _) ..
      · exact forwardSend_unread hk ..

theorem forward_unread (h : Kin δ x y) (rt : Option NsAddr) (p : Packet) (delay : ℚ) :
    Pairs (Kin δ) (x.forward env rt p delay) (y.forward env rt p delay) := by
  unfold forward
  rw [h.read (·.forMe p) (fun _ _ => rfl)]
  split
  · exact .ok (h.drop _ _)
  split
  · exact .ok (h.say _)
  cases rt with
  | some d => exact forwardRoute_unread h d p delay
  | none =>
    simp only
    split
    · exact .ok (h.schedule _ _)
    · exact rfl

theorem flushOne_unread (h : Kin δ x y) (d : NsAddr) (q : Packet) : Pairs (Kin δ) (flushOne env d x q) (flushOne env d y q) := by
  unfold flushOne
  rw [h.rtLookup]
  cases x.rtLookup d with
  | none => exact rfl
  | some rt =>
    simp only
    split
    · exact forward_unread h ..
    · exact .ok h

theorem flush_unread (h : Kin δ x y) (d : NsAddr) : Pairs (Kin δ) (x.flush env d) (y.flush env d) := by
  unfold flush
  rw [h.rtLookup]
  cases x.rtLookup d with
  | none => exact rfl
  | some rt =>
    simp only
    split
    · exact drain_unread (fun _ _ q hz => flushOne_unread hz d q) (h.rtModify d _) d
    · exact .ok h

theorem rtEnsure_unread (h : Kin δ x y) (d : NsAddr) : Pairs (Kin δ) (x.rtEnsure env d) (y.rtEnsure env d) := by
  unfold rtEnsure rtAdd
  rw [h.rtLookup]
  split
  · split
    · exact rfl
    · rw [h.read (·.rtable) (fun _ _ => rfl)]
      exact .ok (h.same (f := fun z => { z with rtable := _ :: x.rtable }) (fun _ _ => rfl))
  · exact .ok h

/-! ## `recvRequest` -/

theorem prepareRequest_unread (h : Kin δ x y) (rq : Rreq) : Pairs (Kin δ) (x.prepareRequest env rq) (y.prepareRequest env rq) := by
  unfold prepareRequest
  rw [h.idGet]
  refine rtEnsure_unread ?_ _
  split
  · exact h
  · exact h.same (f := fun z => z.idInsert env rq.rqSrc rq.rqBcastId) (fun _ _ => rfl)

theorem reverseRoute_unread (h : Kin δ x y) (p : Packet) (rq : Rreq) :
    Pairs (KinWith δ) (x.reverseRoute env p rq) (y.reverseRoute env p rq) := by
  unfold reverseRoute
  rw [h.rtLookup, h.index, h.read (·.teaomdvMaxPaths) (fun _ _ => rfl),
    show y.tooLong rq.rqHopCount = x.tooLong rq.rqHopCount from h.read (·.tooLong rq.rqHopCount) (fun _ _ => rfl)]
  cases x.rtLookup rq.rqSrc with
  | none => exact rfl
  | some rt0 =>
    simp only
    split
    · exact .ok ⟨h.rtModify _ _, rfl⟩
    split
    · split
      · exact rfl
      cases rt0.disjointPathLookup p.saddr rq.rqFirstHop with
      | some path =>
        simp only
        split
        · exact rfl
        · exact .ok ⟨h.rtModify _ _, rfl⟩
      | none =>
        simp only
        split
        · split
          · exact .ok ⟨h.rtModify _ _, rfl⟩
          · exact .ok ⟨h, rfl⟩
        split
        · exact .ok ⟨h, rfl⟩
        · exact .ok ⟨h, rfl⟩
    · exact .ok ⟨h, rfl⟩

theorem replyAsDestination_unread (h : Kin δ x y) (p : Packet) (rq : Rreq) :
    Kin δ (x.replyAsDestination env p rq) (y.replyAsDestination env p rq) := by
  have hk : Kin δ { x with seqno := replySeqno x.seqno rq.rqDstSeqno } { y with seqno := replySeqno y.seqno rq.rqDstSeqno } :=
    h.same (f := fun z => { z with seqno := replySeqno z.seqno rq.rqDstSeqno }) (fun _ _ => rfl)
  have hn := hk.nbEnsure env p.saddr
  unfold replyAsDestination
  simp only
  rw [hn.trustOf, hn.index, hn.read (·.seqno) (fun _ _ => rfl)]
  exact (hn.sendReply ..).free _

theorem replyFromTable_unread (h : Kin δ x y) (p : Packet) (rq : Rreq) (rt : RtEntry) (reverse : Bool) :
    Pairs (Kin δ) (x.replyFromTable env p rq rt reverse) (y.replyFromTable env p rq rt reverse) := by
  unfold replyFromTable
  rw [h.idGet]
  split
  · exact rfl
  split
  · cases rt.pathFind with
    | none => exact rfl
    | some path =>
      have hk := (h.same (f := fun z => z.idMark rq.rqSrc rq.rqBcastId) (fun _ _ => rfl)).rtModify rq.rqDst
        (fun rt => (rt.advertise env.inf).setError true)
      exact .ok ((hk.sendReply ..).free _)
  · exact .ok (h.free _)

theorem relayRequest_unread (h : Kin δ x y) (p : Packet) (rq : Rreq) (rt : Option RtEntry) (kill : Bool) :
    Pairs (Kin δ) (x.relayRequest env p rq rt kill) (y.relayRequest env p rq rt kill) := by
  unfold relayRequest
  rw [h.rtLookup]
  split
  · exact .ok (h.free _)
  cases x.rtLookup rq.rqSrc with
  | none => exact rfl
  | some rt0 =>
    simp only
    rw [(h.rtModify rq.rqSrc _).index]
    cases (rt0.advertise env.inf).pathFind with
    | none => exact rfl
    | some path => exact forward_unread (h.rtModify _ _) ..

theorem answerRequest_unread (h : Kin δ x y) (p : Packet) (rq : Rreq) (kill reverse : Bool) :
    Pairs (Kin δ) (x.answerRequest env p rq kill reverse) (y.answerRequest env p rq kill reverse) := by
  unfold answerRequest
  rw [h.index, h.rtLookup]
  split
  · exact .ok (replyAsDestination_unread h p rq)
  cases x.rtLookup rq.rqDst with
  | none => exact relayRequest_unread h ..
  | some rt =>
    simp only
    split
    · exact replyFromTable_unread h ..
    · exact relayRequest_unread h ..

theorem recvRequest_unread (h : Kin δ x y) (p : Packet) (rq : Rreq) : Pairs (Kin δ) (x.recvRequest env p rq) (y.recvRequest env p rq) := by
  have hseen : y.seenRequest p rq = x.seenRequest p rq := by
    unfold seenRequest
    rw [h.ask p.saddr rq.lowerReverse (fun _ _ _ => rfl), h.index]
  unfold recvRequest distrustsRequest
  rw [hseen, h.index, h.idGet]
  split
  · exact .ok (h.free _)
  split
  · exact .ok (h.free _)
  refine (prepareRequest_unread h _).bind (fun x y h => (reverseRoute_unread h p _).bind ?_)
  rintro ⟨x, o⟩ ⟨y, o'⟩ ⟨h, ho⟩
  obtain rfl : o' = o := ho
  cases o' with
  | none => exact .ok (h.free _)
  | some reverse => exact (flush_unread h _).bind (fun _ _ h => answerRequest_unread h ..)

/-! ## `recvReply` -/

theorem forwardRouteTo_unread (h : Kin δ x y) (rp : Rrep) {nbt nbt' : Option Neighbor}
    (hnbt : refreshForward env rp nbt' = refreshForward env rp nbt) :
    Pairs (KinWith δ) (x.forwardRouteTo env rp nbt) (y.forwardRouteTo env rp nbt') := by
  unfold forwardRouteTo
  rw [h.rtLookup, hnbt, h.read (·.teaomdvMaxPaths) (fun _ _ => rfl),
    show y.tooLong rp.rpHopCount = x.tooLong rp.rpHopCount from h.read (·.tooLong rp.rpHopCount) (fun _ _ => rfl)]
  cases x.rtLookup rp.rpDst with
  | none => exact rfl
  | some rt =>
    simp only
    split
    · exact .ok ⟨h.rtModify _ _, rfl⟩
    split
    · split
      · exact rfl
      cases rt.disjointPathLookup rp.rpSrc rp.rpFirstHop with
      | some path =>
        simp only
        split
        · exact rfl
        · exact .ok ⟨h.rtModify _ _, rfl⟩
      | none =>
        simp only
        split
        · exact .ok ⟨h.rtModify _ _, rfl⟩
        · exact .ok ⟨h, rfl⟩
    · exact .ok ⟨h, rfl⟩

theorem relayReply_unread (h : Kin δ x y) (p : Packet) (rp : Rrep) :
    Pairs (Kin δ) (x.relayReply env p rp) (y.relayReply env p rp) := by
  unfold relayReply
  rw [h.rtLookup, h.idGet]
  cases x.rtLookup p.daddr with
  | none => exact .ok (h.free _)
  | some rt0 => cases x.idGet p.daddr rp.rpBcastId with
    | none => exact .ok (h.free _)
    | some b =>
      simp only
      split
      · exact .ok (h.free _)
      cases rt0.pathFind with
      | none => exact rfl
      | some path =>
        have hk := h.same (f := fun z => z.idMark p.daddr rp.rpBcastId) (fun _ _ => rfl)
        simp only
        rw [hk.ask path.nexthop rp.lowerReverse (fun _ _ _ => rfl), hk.rtLookup]
        generalize rp.lowerReverse ((x.idMark p.daddr rp.rpBcastId).nbLookup path.nexthop) = rp
        cases (x.idMark p.daddr _).rtLookup rp.rpDst with
        | none => exact rfl
        | some rt =>
          simp only
          cases (rt.advertise env.inf).pathFind with
          | none => exact rfl
          | some path =>
            have hm := ((hk.rtModify rp.rpDst (fun rt => rt.advertise env.inf)).rtModify p.daddr (fun rt0 =>
              rt0.modifyFind (fun path => { path with expire := env.now + activeRouteTimeout }))).rtModify rp.rpDst
              (fun rt => rt.setError true)
            simp only
            rw [hm.index]
            exact forward_unread hm ..

theorem recvReply_unread (h : Kin δ x y) (p : Packet) (rp : Rrep) : Pairs (Kin δ) (x.recvReply env p rp) (y.recvReply env p rp) := by
  have hlower := h.ask p.prevHop rp.lowerForward (fun _ _ _ => rfl)
  unfold recvReply distrustsReply
  simp only
  rw [hlower, h.index]
  split
  · exact .ok (h.free _)
  split
  · exact .ok (h.free _)
  have hfresh := h.ask p.prevHop (refreshForward env (rp.lowerForward (x.nbLookup p.prevHop))) (fun _ _ _ => rfl)
  refine (rtEnsure_unread h _).bind (fun x y h => (forwardRouteTo_unread h _ hfresh).bind ?_)
  rintro ⟨x, b⟩ ⟨y, b'⟩ ⟨h, hb⟩
  obtain rfl : b' = b := hb
  cases b' with
  | false => exact .ok (h.free _)
  | true =>
    refine (flush_unread h _).bind (fun x y h => ?_)
    rw [h.index]
    split
    · exact .ok (h.free _)
    · exact relayReply_unread h ..

/-! ## `recvError`, `recvPta`, `recvHello` -/

theorem errorSlot_unread (saddr : NsAddr) (slot : NsAddr × Nat) {acc acc' : Exec × List (NsAddr × Nat)} (h : KinWith δ acc acc') :
    Pairs (KinWith δ) (errorSlot env saddr acc slot) (errorSlot env saddr acc' slot) := by
  obtain ⟨x, l⟩ := acc
  obtain ⟨y, l'⟩ := acc'
  obtain ⟨h, rfl⟩ : Kin δ x y ∧ l' = l := h
  unfold errorSlot
  simp only
  rw [h.rtLookup]
  cases x.rtLookup slot.1 with
  | none => exact .ok ⟨h, rfl⟩
  | some rt =>
    simp only
    split
    · split
      · exact rfl
      refine (downIfEmpty_unread (h.rtModify slot.1 _) slot.1 _ _).bind ?_
      rintro ⟨x, b⟩ ⟨y, b'⟩ ⟨h, hb⟩
      obtain rfl : b' = b := hb
      simp only
      split
      · exact .ok ⟨h.rtModify _ _, rfl⟩
      · exact .ok ⟨h, rfl⟩
    · exact .ok ⟨h, rfl⟩

theorem sendError_unread (h : Kin δ x y) (p : Packet) (re : Rerr) (jitter : Bool) :
    Kin δ (x.sendError p re jitter) (y.sendError p re jitter) := by
  unfold sendError
  rw [h.index]
  exact h.schedule _ _

theorem recvError_unread (h : Kin δ x y) (p : Packet) (re : Rerr) : Pairs (Kin δ) (x.recvError env p re) (y.recvError env p re) := by
  unfold recvError
  simp only
  rw [h.blank]
  split
  · exact rfl
  have hacc : KinWith δ (x.alloc, ([] : List (NsAddr × Nat))) (y.alloc, []) := ⟨h.alloc, rfl⟩
  refine (Pairs.foldlM (fun _ _ slot hr => errorSlot_unread p.saddr slot hr) re.unreachable hacc).bind ?_
  rintro ⟨x, nre⟩ ⟨y, nre'⟩ ⟨h, hnre⟩
  obtain rfl : nre' = nre := hnre
  simp only
  refine .ok (Kin.free ?_ _)
  split
  · exact sendError_unread h ..
  · exact h.free _

theorem recvPta_unread (h : Kin δ x y) (p : Packet) (re : Pta) : Pairs (Kin δ) (x.recvPta env p re) (y.recvPta env p re) := by
  unfold recvPta
  rw [h.rtLookup]
  cases x.rtLookup re.unreachableDst with
  | none => exact .ok (h.free _)
  | some rt =>
    simp only
    split
    · split
      · exact rfl
      refine (downIfEmpty_unread (h.rtModify re.unreachableDst _) re.unreachableDst _ _).bind (fun r r' hr => ?_)
      have hk := hr.1.rtModify re.unreachableDst (fun rt' => rt'.setSeqno (max rt.rtHighestSeqnoHeard re.unreachableDstSeqno))
      rw [hk.index]
      exact .ok ((reports_unread _ _ _ _ hk).free _)
    · exact .ok (h.free _)

theorem recvHello_unread (h : Kin δ x y) (p : Packet) (rp : Rrep) : Kin δ (x.recvHello env p rp) (y.recvHello env p rp) := by
  have hrel := h.nbLookup rp.rpDst
  unfold recvHello
  generalize x.nbLookup rp.rpDst = o, y.nbLookup rp.rpDst = o' at hrel
  cases hrel with
  | none => exact (h.nbInsert env _).free _
  | some _ => exact (h.nbModify (.expire _) _).free _

/-! ## `recv`, `tap`, and the timers -/

theorem rtResolve_unread (h : Kin δ x y) (p : Packet) : Pairs (Kin δ) (x.rtResolve env p) (y.rtResolve env p) := by
  unfold rtResolve
  refine (rtEnsure_unread h _).bind (fun x y h => ?_)
  rw [h.rtLookup, h.index]
  cases x.rtLookup p.daddr with
  | none => exact rfl
  | some rt =>
    have henque : Kin δ (x.enque env p) (y.enque env p) := by
      have hpurge : Kin δ (x.rqPurge env) (y.rqPurge env) := h.same (fun _ _ => rfl)
      refine Kin.say (Kin.same (f := fun z => { z with rqueue := z.rqueue ++ [_] }) ?_ (fun _ _ => rfl)) _
      unfold rqEvict
      rw [hpurge.rqueue]
      cases (x.rqPurge env).rqueue with
      | nil => exact hpurge
      | cons p0 rest =>
        simp only
        split
        · refine Kin.drop (Kin.say (hpurge.same (f := fun z => { z with rqueue := rest }) ?_) _) _ _
          exact fun _ _ => rfl
        · exact hpurge
    simp only
    split
    · split
      · exact rfl
      · exact forward_unread h ..
    split
    · exact sendRequest_unread henque _
    split
    · exact .ok henque
    · unfold reportNoRoute
      rw [h.blank]
      exact .ok ((sendError_unread h.alloc ..).drop _ _)

end Exec

/-- The packet is a RCOM or a PROB. -/
def Packet.testifies (p : Packet) : Bool :=
  decide (p.ptype = .teaomdv) && (match p.body with | .rcom _ | .prob => true | _ => false)

namespace Exec

theorem recvTEAOMDV_unread (h : Kin δ x y) {p : Packet} (hp : p.testifies = false) (htype : p.ptype = .teaomdv) :
    Pairs (Kin δ) (x.recvTEAOMDV env p) (y.recvTEAOMDV env p) := by
  have hbody : (match p.body with | .rcom _ | .prob => true | _ => false) = false := by
    unfold Packet.testifies at hp
    rwa [decide_eq_true htype, Bool.true_and] at hp
  unfold recvTEAOMDV
  split
  · exact rfl
  cases hb : p.body with
  | rreq rq => exact recvRequest_unread h ..
  | rrep rp => exact recvReply_unread h ..
  | rerr re => exact recvError_unread h ..
  | hello rp => exact .ok (recvHello_unread h ..)
  | rcom | prob =>
    rw [hb] at hbody
    cases hbody
  | pta re => exact recvPta_unread h ..
  | payload => exact rfl

theorem recv_unread (h : Kin δ x y) {p : Packet} (hp : p.testifies = false) : Pairs (Kin δ) (x.recv env p) (y.recv env p) := by
  unfold recv
  simp only
  rw [h.index]
  split
  · exact recvTEAOMDV_unread h hp (by assumption)
  split
  · split
    · exact rtResolve_unread h _
    · exact forward_unread h ..
  split
  · exact .ok (h.drop _ _)
  split
  · exact .ok (h.drop _ _)
  split
  · exact rtResolve_unread h _
  · exact forward_unread h ..

theorem tap_unread (h : Kin δ x y) (p : Packet) : Kin δ (x.tap p) (y.tap p) := by
  unfold tap
  rw [h.index]
  split
  · exact h
  split
  · exact h.nbModify (.cbrF _) _
  · split
    · exact h.nbModify (.ptteaomdvF _) _
    · exact h
  · exact h

theorem sendBuffered_unread (d : NsAddr) : ∀ (n : Nat) {acc acc' : Exec × ℚ}, KinWith δ acc acc' →
    Pairs (KinWith δ) (sendBuffered env d n acc) (sendBuffered env d n acc')
  | 0, _, _, h => h
  | n + 1, (x, delay), (y, delay'), h => by
    obtain ⟨h, rfl⟩ : Kin δ x y ∧ delay' = delay := h
    obtain ⟨o, z, z', hx, hy, hkin⟩ := deque_unread env h d
    unfold sendBuffered
    rw [hx, hy]
    cases o with
    | none => exact .ok ⟨hkin, rfl⟩
    | some q => exact (forward_unread hkin ..).bind (fun w w' hw => sendBuffered_unread d n ⟨hw, rfl⟩)

theorem purgeEntry_unread (d : NsAddr) {acc acc' : Exec × ℚ} (h : KinWith δ acc acc') :
    Pairs (KinWith δ) (purgeEntry env acc d) (purgeEntry env acc' d) := by
  obtain ⟨x, delay⟩ := acc
  obtain ⟨y, delay'⟩ := acc'
  obtain ⟨h, rfl⟩ : Kin δ x y ∧ delay' = delay := h
  unfold purgeEntry
  simp only
  rw [h.rtLookup, h.rqueue, h.read (·.rqFind d) (fun _ _ => rfl)]
  cases x.rtLookup d with
  | none => exact .ok ⟨h, rfl⟩
  | some rt =>
    simp only
    split
    · cases (rt.pathPurge env.now).pathEmpty with
      | error => exact rfl
      | ok empty =>
        cases empty with
        | false => exact .ok ⟨h.rtModify _ _, rfl⟩
        | true =>
          refine (drain_unread (fun _ _ q h => .ok (h.drop q .rtrRtexpire)) (h.rtModify d _) d).bind (fun x y h => ?_)
          exact .ok ⟨h.rtModify _ _, rfl⟩
    split
    · split
      · exact rfl
      · exact sendBuffered_unread d _ ⟨h, rfl⟩
    split
    · exact (sendRequest_unread h d).bind (fun x y h => .ok ⟨h, rfl⟩)
    · exact .ok ⟨h, rfl⟩

theorem rtPurge_unread (h : Kin δ x y) : Pairs (Kin δ) (x.rtPurge env) (y.rtPurge env) := by
  unfold rtPurge
  rw [h.read (·.rtable) (fun _ _ => rfl)]
  have hacc : KinWith δ (x, (0 : ℚ)) (y, 0) := ⟨h, rfl⟩
  exact (Pairs.foldlM (fun _ _ d hr => purgeEntry_unread d hr) _ hacc).bind (fun _ _ hr => .ok hr.1)

theorem localRepair_unread (h : Kin δ x y) (p : Packet) : Kin δ (x.localRepair env p) (y.localRepair env p) := by
  unfold localRepair
  rw [h.rtLookup]
  cases x.rtLookup p.daddr with
  | none => exact h.free _
  | some rt =>
    refine Kin.free ?_ _
    split
    · exact h.rtModify _ _
    · exact h

end Exec

/-- The input is no RCOM and no PROB, and not one of the timers on which `set_trust` and `nb_purge` run. -/
def Input.blind : Input → Bool
  | .recv p => !p.testifies
  | .timer .trust => false
  | .timer (.neighbor _) => false
  | _ => true

namespace Exec

/-- **Evidence is not read**: on any other input the two agents end alike, and stay as far apart as they were. -/
theorem handle_unread (h : Kin δ x y) {inp : Input} (hinp : inp.blind = true) :
    Pairs (Kin δ) (x.handle env inp) (y.handle env inp) := by
  cases inp with
  | recv p => exact recv_unread h (by simpa [Input.blind] using hinp)
  | tap p => exact .ok (tap_unread h p)
  | rtLlFailed p => exact .ok (h.drop _ _)
  | timer t =>
    cases t with
    | broadcast => exact .ok (h.same (f := fun z => z.idPurge env) (fun _ _ => rfl))
    | hello =>
      unfold handle timer sendHello
      rw [h.read (·.rtHasActiveRoute) (fun _ _ => rfl), h.blank, h.index, h.read (·.seqno) (fun _ _ => rfl)]
      refine .ok ?_
      split
      · exact h.alloc.schedule _ _
      · exact h
    | probe =>
      unfold handle timer sendProb
      rw [h.blank, h.index]
      exact .ok (h.alloc.schedule _ _)
    | trust => cases hinp
    | neighbor => cases hinp
    | routeCache => exact rtPurge_unread h
    | localRepair p => exact .ok (localRepair_unread h p)

end Exec

end TeAomdv

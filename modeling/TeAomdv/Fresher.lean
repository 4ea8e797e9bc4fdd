import TeAomdv.Discovery
import TeAomdv.Answer
import TeAomdv.TermsRecv
/-!
# Fresher — the numbers a destination answers with

A node writes its own number in three places: `sendRequest` and `nb_delete` add two, and a request for the node makes it
larger than the number asked for.  It stays even in any run, and grows with every write that does not wrap
(`Exec.Strode.Fits`); the number of a reply is the one just written, so it is fresher than asked on that condition.
-/
namespace TeAomdv

open Fallible (Ends)

/-- The RREP the packet carries. -/
def Packet.reply (p : Packet) : Option Rrep :=
  match p.body with
  | .rrep rp => if p.ptype = .teaomdv then some rp else none
  | _ => none

theorem Packet.reply_eq_some {p : Packet} {rp : Rrep} : p.reply = some rp ↔ p.ptype = .teaomdv ∧ p.body = .rrep rp := by
  unfold Packet.reply
  split
  · rename_i rp' hb
    rw [hb]
    by_cases ht : p.ptype = .teaomdv <;> simp [ht]
  · rename_i hb
    exact iff_of_false nofun (fun h => hb rp h.2)

theorem Packet.reply_of_ptype {p : Packet} (h : p.ptype ≠ .teaomdv) : p.reply = none := by
  unfold Packet.reply
  split
  · exact if_neg h
  · rfl

theorem Packet.reply_of_mute {p : Packet} (h : p.Mute) : p.reply = none := by
  unfold Packet.Mute at h
  unfold Packet.reply
  split
  · rename_i hb
    rw [hb] at h
    exact h.elim
  · rfl

namespace Exec

/-! ## The number taken -/

section Number

variable {s n : Nat}

theorem replySeqno_even (hs : s % 2 = 0) (n : Nat) : replySeqno s n % 2 = 0 := by
  unfold replySeqno u32
  simp only
  split <;> split <;> split <;> omega

theorem replySeqno_lt (hs : s < 2 ^ 32) (n : Nat) : replySeqno s n < 2 ^ 32 := by
  unfold replySeqno u32
  simp only
  split <;> split <;> split <;> omega

/-- **The number taken is larger than the number asked for** just when the odd number above that is not the last. -/
theorem replySeqno_fresher (hs : s % 2 = 0) (hlt : s < 2 ^ 32) :
    s ≤ replySeqno s n ∧ n < replySeqno s n ↔ n + 2 < 2 ^ 32 := by
  unfold replySeqno u32
  simp only
  split <;> split <;> split <;> omega

theorem bump_fresher (hlt : s < 2 ^ 32) : s ≤ u32 (s + 2) ↔ s + 2 < 2 ^ 32 := by
  unfold u32
  omega

end Number

variable {env : Env} {x y : Exec} {p : Packet} {rq : Rreq}

/-! ## What a stride does to the node's number -/

/-- Even, of 32 bits. -/
structure Numbered (x : Exec) : Prop where
  even : x.seqno % 2 = 0
  word : x.seqno < 2 ^ 32

/-- The stride makes the node's number no smaller, and larger than the number of a request it answers. -/
structure Strode.Fresher (s : Strode) : Prop where
  mono : s.pre.seqno ≤ s.post.seqno
  asked : ∀ n, s.deed = .answer n → n < s.post.seqno

/-- The stride does not wrap the node's number: there is room for the two that `nb_delete` adds, and `sendRequest` where it
asks, and for the number above one that a request asks for. -/
def Strode.Fits (s : Strode) : Prop :=
  match s.deed with
  | .bump => s.pre.seqno + 2 < 2 ^ 32
  | .request d => ∀ rt, s.pre.rtLookup d = some rt → rt.attempt s.env = .ask → s.pre.seqno + 2 < 2 ^ 32
  | .answer n => n + 2 < 2 ^ 32
  | _ => True

theorem Numbered.of_seqno (h : x.Numbered) (heq : y.seqno = x.seqno) : y.Numbered :=
  ⟨heq.symm ▸ h.even, heq.symm ▸ h.word⟩

/-- **A stride keeps the number even, and makes it fresher just when it fits.** -/
theorem Numbered.stride {s : Strode} (h : s.pre.Numbered) (hs : Stride s.env s.deed s.pre s.post) :
    s.post.Numbered ∧ (s.Fresher ↔ s.Fits) := by
  obtain ⟨env, k, x, y⟩ := s
  simp only at h hs ⊢
  have still : y.seqno = x.seqno → (∀ n, k ≠ .answer n) →
      y.Numbered ∧ (Strode.Fresher ⟨env, k, x, y⟩ ↔ True) := fun heq hk =>
    ⟨h.of_seqno heq, iff_true_intro ⟨heq.ge, fun n hn => absurd hn (hk n)⟩⟩
  have bumped : y.seqno = u32 (x.seqno + 2) → (∀ n, k ≠ .answer n) →
      y.Numbered ∧ (Strode.Fresher ⟨env, k, x, y⟩ ↔ x.seqno + 2 < 2 ^ 32) := by
    intro heq hk
    refine ⟨⟨?_, ?_⟩, fun hf => ?_, fun hf => ⟨?_, fun n hn => absurd hn (hk n)⟩⟩
    · have := h.even
      rw [heq]
      unfold u32
      omega
    · rw [heq]
      exact Nat.mod_lt _ (by decide)
    · exact (bump_fresher h.word).1 (heq ▸ hf.mono)
    · exact heq ▸ (bump_fresher h.word).2 hf
  cases hs with
  | mark | rise | settle => exact still rfl nofun
  | add | observe | meet | part => exact still rfl nofun
  | quiet hq => exact still hq.seqno nofun
  | bump => exact bumped rfl nofun
  | answer _ n =>
    refine ⟨⟨replySeqno_even h.even n, replySeqno_lt h.word n⟩, fun hf => ?_, fun hf => ?_⟩
    · exact (replySeqno_fresher h.even h.word).1 ⟨hf.mono, hf.asked n rfl⟩
    · obtain ⟨h1, h2⟩ := (replySeqno_fresher (n := n) h.even h.word).2 hf
      refine ⟨h1, fun m hm => ?_⟩
      cases hm
      exact h2
  | request hy =>
    obtain ⟨rt, hrt, hs⟩ := exists_of_sendRequest hy
    have hseqno := hs.seqno
    split at hseqno
    · rename_i ha
      obtain ⟨h1, h2⟩ := bumped hseqno nofun
      refine ⟨h1, h2.trans ⟨fun hf _ _ _ => hf, fun hf => hf rt hrt ha⟩⟩
    · rename_i ha
      obtain ⟨h1, h2⟩ := still hseqno nofun
      refine ⟨h1, h2.trans ⟨fun _ rt' hrt' ha' => ?_, fun _ => trivial⟩⟩
      obtain rfl := Option.some.inj (hrt.symm.trans hrt')
      exact absurd ha' ha

/-- The node's number and its address are what they were. -/
def SameNode (x y : Exec) : Prop := y.seqno = x.seqno ∧ y.index = x.index

/-- Tame strides leave the node's number alone. -/
theorem Goes.sameNode (h : Goes env Deed.Tame x y) : x.SameNode y := by
  induction h with
  | refl => exact ⟨rfl, rfl⟩
  | tail _ hs ih =>
    obtain ⟨k, hk, hs⟩ := hs
    cases hs with
    | request | bump | answer | part => exact hk.elim
    | quiet hq => exact ⟨hq.seqno.trans ih.1, hq.index.trans ih.2⟩
    | mark | rise | settle | add | observe | meet => exact ih

/-! ## What is sent in answer -/

/-- The RREPs handed to `target_`. -/
def replied (x : Exec) : List Rrep := x.sent.filterMap Packet.reply

/-- The terms of a handler that has sent no RREP yet. -/
def muteTerms (x : Exec) : Terms where
  index := x.index
  heap := 0
  waits := fun q => q.ptype ≠ .teaomdv
  goes := fun q => q.reply = none

theorem muteTerms_lawful (x : Exec) : x.muteTerms.Lawful where
  flush := fun q n hq _ => Packet.reply_of_ptype (p := q.forwarded _ n) hq
  news := fun q hq _ _ _ _ => Packet.reply_of_mute (p := q) hq
  request := by
    intro q rq hb _ _ _
    show q.reply = none
    unfold Packet.reply
    rw [hb]
  fresh := fun _ _ _ => trivial
  notes := fun _ _ _ _ => trivial

theorem replied_eq_nil (h : ∀ q t, Act.schedule q t ∈ x.log → q.ptype = .teaomdv → q.reply = none) : x.replied = [] := by
  refine List.filterMap_eq_nil_iff.2 (fun q hq => ?_)
  obtain ⟨t, hm⟩ := mem_log_of_sent hq
  by_cases ht : q.ptype = .teaomdv
  · exact h q t hm ht
  · exact Packet.reply_of_ptype ht

theorem Meets.mute (h : y.Meets x.muteTerms) : y.replied = [] := replied_eq_nil (fun q t hm _ => h.sent q t hm)

theorem Noted.sameNode {inf : Nat} {a : Advert} {u : Update inf a} {rt : RtEntry} {goes : Bool}
    (h : Noted u x rt y goes) : x.SameNode y := by
  cases h with
  | renew | refresh | extend => exact ⟨rfl, rfl⟩
  | keep => exact ⟨rfl, rfl⟩

theorem replied_sendReply (x : Exec) (ipdst : NsAddr) (k : Nat) (rpdst : NsAddr) (seq : Nat) (life time : ℚ) (n : NsAddr)
    (bid : Nat) (l : NsAddr) (fpt rpt : ℚ) : ∃ rp, (x.sendReply ipdst k rpdst seq life time n bid l fpt rpt).replied =
      x.replied ++ [rp] ∧ rp.rpDst = rpdst ∧ rp.rpDstSeqno = seq ∧ rp.rpLifetime = life := by
  unfold replied
  rw [sendReply, sent_schedule, sent_alloc, List.filterMap_append]
  exact ⟨_, congrArg (_ ++ ·) rfl, rfl, rfl, rfl⟩

@[simp] theorem replied_free (x : Exec) (p : Packet) : (x.free p).replied = x.replied := by
  unfold replied
  rw [sent_free]

theorem replied_replyAsDestination (env : Env) (x : Exec) (p : Packet) (rq : Rreq) : ∃ rp,
    (x.replyAsDestination env p rq).replied = x.replied ++ [rp] ∧ rp.rpDst = x.index ∧
    rp.rpDstSeqno = replySeqno x.seqno rq.rqDstSeqno ∧ rp.rpLifetime = myRouteTimeout := by
  unfold replyAsDestination
  simp only
  obtain ⟨-, hsent⟩ := nbEnsure_keeps env { x with seqno := replySeqno x.seqno rq.rqDstSeqno } p.saddr
  have ha := alike_nbEnsure env { x with seqno := replySeqno x.seqno rq.rqDstSeqno } p.saddr
  generalize nbEnsure env { x with seqno := replySeqno x.seqno rq.rqDstSeqno } p.saddr = z at hsent ha
  obtain ⟨rp, hreplied, hdst, hseqno, hlife⟩ := replied_sendReply z rq.rqSrc 0 z.index z.seqno myRouteTimeout
    rq.rqTimestamp p.saddr rq.rqBcastId p.saddr 1 (z.trustOf p.saddr)
  have hz : z.replied = x.replied := congrArg (List.filterMap Packet.reply) hsent
  rw [hz] at hreplied
  exact ⟨rp, (replied_free _ p).trans hreplied, hdst.trans ha.index, hseqno.trans ha.seqno, hlife⟩

/-- **A request for this node is answered with the number taken for it**, if it is answered. -/
theorem recvRequest_replies (hlog : x.log = []) (hdata : x.DataQueue) (hdst : rq.rqDst = x.index) :
    Ends (fun y => ∀ rp ∈ y.replied, rp.rpDst = x.index ∧ rp.rpDstSeqno = replySeqno x.seqno rq.rqDstSeqno)
      (x.recvRequest env p rq) := by
  have hT := muteTerms_lawful x
  have hx : x.Meets x.muteTerms := ⟨rfl, Nat.zero_le _, trivial, fun q hq => (hdata q hq).1,
    fun q t hq => absurd (hlog ▸ hq) List.not_mem_nil, fun _ _ => trivial⟩
  have freed : ∀ {y : Exec}, y.Meets x.muteTerms → Ends (fun y => ∀ rp ∈ y.replied, rp.rpDst = x.index ∧
      rp.rpDstSeqno = replySeqno x.seqno rq.rqDstSeqno) (.ok (y.free p) : Result) := by
    intro y hy
    refine Ends.ok (fun rp hrp => ?_)
    rw [(hy.free p).mute] at hrp
    exact absurd hrp List.not_mem_nil
  unfold recvRequest
  split
  · exact freed hx
  split
  · exact freed hx
  obtain ⟨l, q, hseen⟩ : ∃ l q, x.seenRequest p rq = { rq with rqFirstHop := l, RPT := q } :=
    ⟨_, _, seenRequest_eq x p rq⟩
  simp only [hseen]
  refine Ends.bind (P := fun y => y.Meets x.muteTerms ∧ x.SameNode y)
    (fun y hy => ⟨prepareRequest_meets (fun _ _ _ => trivial) hx y hy, (prepareRequest_goes x _ y hy).sameNode⟩) (fun y hy => ?_)
  refine Ends.bind (reverseRoute_noted env y p _).ends (fun r hr => ?_)
  obtain ⟨z, b⟩ := r
  obtain ⟨rt, -, hn⟩ := hr
  have hz := hn.meets hy.1
  cases b with
  | none => exact freed hz
  | some b =>
    refine Ends.bind (P := fun w => w.Meets x.muteTerms ∧ z.SameNode w)
      (fun w hw => ⟨flush_meets hT _ hz w hw, (flush_goes z _ w hw).sameNode⟩) (fun w hw => ?_)
    have hseqno := hw.2.1.trans (hn.sameNode.1.trans hy.2.1)
    have hindex := hw.2.2.trans (hn.sameNode.2.trans hy.2.2)
    have hself : w.answerRequest env p { rq with rqFirstHop := l, RPT := q } (x.idGet rq.rqSrc rq.rqBcastId).isSome b =
        .ok (w.replyAsDestination env p { rq with rqFirstHop := l, RPT := q }) := if_pos (hdst.trans hindex.symm)
    rw [hself]
    obtain ⟨rp, hreplied, h1, h2, -⟩ := replied_replyAsDestination env w p { rq with rqFirstHop := l, RPT := q }
    refine Ends.ok (fun rp' hrp' => ?_)
    rw [hreplied, hw.1.mute, List.nil_append, List.mem_singleton] at hrp'
    rw [hrp', h1, h2, hseqno]
    exact ⟨hindex, rfl⟩

/-- A walk of strides that fit makes the number no smaller. -/
theorem Walk.mono {ws : List Strode} (h : Walk ws x y) (hfresh : ∀ s ∈ ws, s.Fresher) : x.seqno ≤ y.seqno :=
  Runs.Trail.invariant (P := fun z => x.seqno ≤ z.seqno) h
    (fun s hs _ _ ⟨h1, h2, _⟩ hx => hx.trans (h1 ▸ h2 ▸ (hfresh s hs).mono)) (le_refl _)

theorem Numbered.walk {ws : List Strode} (hx : x.Numbered) (h : Walk ws x y) :
    y.Numbered ∧ ∀ s ∈ ws, s.post.Numbered ∧ (s.Fresher ↔ s.Fits) := by
  refine Runs.Trail.history (P := fun ws z => z.Numbered ∧ ∀ s ∈ ws, s.post.Numbered ∧ (s.Fresher ↔ s.Fits)) h
    ⟨hx, fun _ hs => absurd hs List.not_mem_nil⟩ ?_
  rintro ws s _ _ - ⟨hy, hws⟩ ⟨rfl, rfl, hs⟩
  have hs' := hy.stride hs
  refine ⟨hs'.1, fun t ht => ?_⟩
  rcases List.mem_append.1 ht with ht | ht
  · exact hws t ht
  · rw [List.mem_singleton.1 ht]
    exact hs'

end Exec

namespace Agent

theorem numbered_of_walked {id : NsAddr} {ws : List Exec.Strode} {x : Exec} (h : Walked id ws x) :
    x.Numbered ∧ ∀ s ∈ ws, s.post.Numbered ∧ (s.Fresher ↔ s.Fits) :=
  Exec.Numbered.walk ⟨show 2 % 2 = 0 from rfl, show 2 < 2 ^ 32 by decide⟩ h

/-- **A node's number is even after every write of every run, and a write makes it fresher just when it does not wrap**;
so does a handler whose writes do not, and a reply of the destination is fresher than asked just when the number asked for
leaves room for it. -/
theorem fresher {id : NsAddr} {a : Agent} (h : Reach id a) {heap : Nat} {ws : List Exec.Strode}
    (hw : Walked id ws (a.exec heap)) :
    (∀ s ∈ ws, s.post.seqno % 2 = 0 ∧ (s.Fresher ↔ s.Fits)) ∧
    (∀ {env inp y}, (a.exec heap).handle env inp = .ok y → y.seqno % 2 = 0 ∧
      ∃ ws', Exec.Walk ws' (a.exec heap) y ∧ (∀ s ∈ ws', s.env = env ∧ inp.Allows s.deed) ∧
        ((∀ s ∈ ws', s.Fits) → a.seqno ≤ y.seqno)) ∧
    ∀ {env p rq y}, rq.rqDst = a.index → (a.exec heap).recvRequest env p rq = .ok y → ∀ rp ∈ y.replied,
      rp.rpDst = a.index ∧ rp.rpDstSeqno % 2 = 0 ∧
      (a.seqno ≤ rp.rpDstSeqno ∧ rq.rqDstSeqno < rp.rpDstSeqno ↔ rq.rqDstSeqno + 2 < 2 ^ 32) := by
  obtain ⟨ha, hws⟩ := numbered_of_walked hw
  refine ⟨fun s hs => ⟨(hws s hs).1.even, (hws s hs).2⟩, fun {env inp y} hy => ?_, fun {env p rq y} hdst hy rp hrp => ?_⟩
  · obtain ⟨ws', hws', hk⟩ := Exec.walk_of_goes (Exec.handle_goes inp y hy)
    obtain ⟨hy', hfresh⟩ := ha.walk hws'
    exact ⟨hy'.even, ws', hws', hk, fun hfit => hws'.mono (fun s hs => (hfresh s hs).2.2 (hfit s hs))⟩
  · obtain ⟨h1, h2⟩ := Exec.recvRequest_replies (x := a.exec heap) rfl (tidy_of_reach h).data hdst y hy rp hrp
    rw [h2]
    exact ⟨h1, Exec.replySeqno_even ha.even _, Exec.replySeqno_fresher ha.even ha.word⟩

/-- 5 meets 2, has data for 9, gives 2 up, and is asked for by 2. -/
def busyCalls : List Call :=
  [⟨clock 1, 1, .recv { ptr := 0, saddr := 2, daddr := ipBroadcast, sport := rtPort, dport := rtPort, ttl := 1,
                        body := .hello ⟨0, 2, 2, 2, 8, 0, 0, 0, 0, 0, 0⟩ }⟩,
    ⟨clock 2, 1, .recv { ptr := 0, ptype := .cbr, saddr := 5, daddr := 9 }⟩,
    ⟨clock 30, 2, .timer (.neighbor (fun _ => []))⟩, ⟨clock 31, 3, .recv (requestOfHeard 9)⟩]

/-- A request is sent, a neighbour is deleted and a request answered: the number goes from 2 to 4, 6 and 10. -/
theorem fresher_busyCalls : ∃ a ws y, Runs.replay call busyCalls (new 5) = some a ∧ Walked 5 ws (a.exec 5) ∧
    ws.map (·.deed) = [.meet 2, .add 9, .request 9, .bump, .part 2, .add 2, .rise 2, .answer 9, .meet 2, .quiet] ∧
    ws.map (·.post.seqno) = [2, 2, 4, 6, 6, 6, 6, 10, 10, 10] ∧ (∀ s ∈ ws, s.post.seqno % 2 = 0 ∧ s.Fresher) ∧
    (a.exec 5).recvRequest (clock 32) (requestOfHeard 11) (requestOf 11) = .ok y ∧
    ∃ rp ∈ y.replied, rp.rpDstSeqno % 2 = 0 ∧ a.seqno ≤ rp.rpDstSeqno ∧ 11 < rp.rpDstSeqno := by
  let x₀ := (new 5).exec 0
  let x₁ : Exec := { x₀ with nbhead := Neighbor.new 2 1 (1 + helloInterval * allowedHelloLoss) :: x₀.nbhead }
  let x₂ : Exec := { x₁ with rtable := { rtDst := 9, rtHops := 0 } :: x₁.rtable }
  let x₃ := x₂.called (clock 2) 9
  let x₄ : Exec := { x₃ with seqno := u32 (x₃.seqno + 2) }
  let x₅ : Exec := { x₄ with nbhead := x₄.nbhead.eraseP (fun nb => nb.nbAddr = 2) }
  let x₆ : Exec := { x₅ with rtable := { rtDst := 2, rtHops := 0 } :: x₅.rtable }
  let seen := x₅.seenRequest (requestOfHeard 9) (requestOf 9)
  let x₇ := x₆.put 2 (Exec.renewReverse (clock 31) (requestOfHeard 9) seen { rtDst := 2, rtHops := 0 }).resetSoftState
  let x₈ : Exec := { x₇ with seqno := Exec.replySeqno x₇.seqno 9 }
  let x₉ : Exec := { x₈ with nbhead := Neighbor.new 2 31 (31 + helloInterval * allowedHelloLoss) :: x₈.nbhead }
  obtain ⟨a, ha, hr, hfin⟩ := Runs.Reaches.of_obeys (fun _ _ => true)
    (fun a : Agent => decide (a.rtable = x₉.rtable ∧ a.nbhead = x₉.nbhead ∧ a.seqno = x₉.seqno ∧ a.index = x₉.index) &&
      ((a.exec 5).recvRequest (clock 32) (requestOfHeard 11) (requestOf 11)).toOption.any (fun y => y.replied.any (fun _ => true)))
    (fun _ _ _ => trivial) busyCalls (.init : Reach 5 (new 5)) (by decide +kernel)
  obtain ⟨hsame, hreply⟩ := (Bool.and_eq_true _ _).mp hfin
  obtain ⟨htable, hnbs, hseqno, hindex⟩ := of_decide_eq_true hsame
  obtain ⟨y, hy, hany⟩ := Fallible.any_toOption.1 hreply
  obtain ⟨rp, hrp, -⟩ := List.any_eq_true.1 hany
  have hrequest : x₂.sendRequest (clock 2) 9 = .ok x₃ := Exec.sendRequest_called (by decide +kernel)
  have hwalk : Walked 5 [⟨clock 1, .meet 2, x₀, x₁⟩, ⟨clock 2, .add 9, x₁, x₂⟩, ⟨clock 2, .request 9, x₂, x₃⟩,
      ⟨clock 30, .bump, x₃, x₄⟩, ⟨clock 30, .part 2, x₄, x₅⟩, ⟨clock 31, .add 2, x₅, x₆⟩, ⟨clock 31, .rise 2, x₆, x₇⟩,
      ⟨clock 31, .answer 9, x₇, x₈⟩, ⟨clock 31, .meet 2, x₈, x₉⟩, ⟨clock 31, .quiet, x₉, a.exec 5⟩] (a.exec 5) :=
    .cons ⟨rfl, rfl, .meet _ rfl⟩ <| .cons ⟨rfl, rfl, .add rfl⟩ <| .cons ⟨rfl, rfl, .request hrequest⟩ <|
    .cons ⟨rfl, rfl, .bump x₃⟩ <| .cons ⟨rfl, rfl, .part x₄ 2⟩ <| .cons ⟨rfl, rfl, .add (by decide +kernel)⟩ <|
    .cons ⟨rfl, rfl, .rise rfl (RtEntry.gains_renewReverse ..)⟩ <| .cons ⟨rfl, rfl, .answer x₇ 9⟩ <|
    .cons ⟨rfl, rfl, .meet _ (by decide +kernel)⟩ <| .cons ⟨rfl, rfl, .quiet ⟨htable, hnbs, hseqno, hindex⟩⟩ <| .nil _
  have hself : a.index = 5 := hindex.trans (by decide +kernel)
  obtain ⟨hws, -, hanswer⟩ := fresher hr hwalk
  obtain ⟨-, heven, hfresh⟩ := @hanswer _ _ (requestOf 11) _ hself.symm hy rp hrp
  refine ⟨a, _, y, ha, hwalk, rfl, ?_, fun s hs => ⟨(hws s hs).1, (hws s hs).2.2 ?_⟩, hy, rp, hrp, heven, hfresh.2 (by decide)⟩
  · have hlast : (a.exec 5).seqno = 10 := hseqno.trans (by decide +kernel)
    simp only [List.map_cons, List.map_nil, hlast]
    decide +kernel
  · revert s
    simp only [List.forall_mem_cons]
    exact ⟨trivial, trivial, fun _ _ _ => (by decide +kernel : x₂.seqno + 2 < 2 ^ 32),
      (by decide +kernel : x₃.seqno + 2 < 2 ^ 32), trivial, trivial, trivial, (by decide : 9 + 2 < 2 ^ 32), trivial, trivial, List.forall_mem_nil _⟩

/-- **The last number makes the next one zero**: it is asked for, and node 5 answers with 0. -/
theorem fresher_wraps : ∃ a, Reach 5 a ∧ a.seqno = 4 ∧
    ∃ y, (a.exec 1).handle { inf := 65535, now := 1 } (.recv (requestOfHeard 4294967295)) = .ok y ∧ y.seqno = 0 ∧
      y.replied.map (·.rpDstSeqno) = [0] := by
  obtain ⟨a, -, hr, hfin⟩ := Runs.Reaches.of_obeys (fun _ _ => true)
    (fun a : Agent => a.seqno = 4 &&
      ((a.exec 1).handle { inf := 65535, now := 1 } (.recv (requestOfHeard 4294967295))).toOption.any (fun y =>
        y.seqno = 0 ∧ y.replied.map (·.rpDstSeqno) = [0]))
    (fun _ _ _ => trivial) [⟨{ inf := 65535, now := 1 }, 1, .recv (requestOfHeard 3)⟩] (.init : Reach 5 (new 5))
    (by decide +kernel)
  obtain ⟨hseqno, hany⟩ := (Bool.and_eq_true _ _).mp hfin
  obtain ⟨y, hy, hfin⟩ := Fallible.any_toOption.1 hany
  exact ⟨a, hr, of_decide_eq_true hseqno, y, hy, of_decide_eq_true hfin⟩

end Agent

end TeAomdv

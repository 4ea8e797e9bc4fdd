import TeAomdv.Recorded
import TeAomdv.TermsTimers
import TeAomdv.World
/-!
# Waiting — what the buffered packets wait for

A packet is buffered for a destination whose entry is not up, and an entry that comes up has the buffer emptied for it by
the handler that raised it: between invocations every buffered packet has an entry that is not up, and the walk of
`rt_purge` asks again for its route (`waiting_of_reach`).
-/
namespace TeAomdv

open Fallible (Ends ok_bind bind_eq_ok)
open Exec (Trace)

/-- Only an advertisement of its destination raises an entry. -/
theorem Rule.grounded {inf : Nat} {maxPaths : Int} {h : Heard} {r r' : Route} (hr : Rule inf maxPaths h r r')
    (hd : r.flags ≠ .up) (hh : ∀ a, h = .advert a → r.dst ≠ a.dst) : r'.flags ≠ .up := by
  cases hr with
  | keep | freeze => exact hd
  | renew a heq => exact absurd heq (hh a rfl)
  | lose _ hup | extend _ _ hup | errorLose _ _ _ hup | ptaLose _ _ hup => exact absurd hup hd
  | errorFall | ptaFall | failed | expired | repaired => nofun

namespace Exec

/-- The entry for `d` is there and not up. -/
def Unraised (x : Exec) (d : NsAddr) : Prop := ∃ e, x.rtLookup d = some e ∧ e.rtFlags ≠ .up

/-- Every buffered packet has an entry, and it is not up. -/
def Waits (x : Exec) : Prop := ∀ q ∈ x.rqueue, x.Unraised q.daddr

variable {env : Env} {h : Heard} {x y : Exec} {d : NsAddr} {e : RtEntry} {p : Packet}

/-- Nothing is buffered for a destination whose entry is up. -/
theorem unbuffered (hw : x.Waits) (hup : (x.entryFor env d).rtFlags = .up) : x.buffered env d = [] := by
  refine List.filter_eq_nil_iff.2 (fun q hq hd => ?_)
  have hd := (of_decide_eq_true hd).2
  obtain ⟨e, he, hdown⟩ := hw q hq
  rw [hd] at he
  unfold entryFor at hup
  rw [he] at hup
  exact hdown hup

theorem Unraised.micro (hx : x.Unraised d) (hh : ∀ a, h = .advert a → d ≠ a.dst) (hm : Micro env h x y) : y.Unraised d := by
  obtain ⟨e, he, hd⟩ := hx
  obtain ⟨e', he', hr | hf⟩ := hm.rtLookup he
  · refine ⟨e', he', hr.grounded hd (fun a ha => ?_)⟩
    have hdst : e.route.dst = d := rtDst_of_rtLookup he
    rw [hdst]
    exact hh a ha
  · refine ⟨e', he', fun hup => ?_⟩
    have : e'.route.flags = .down := by rw [hf]; rfl
    exact absurd (this.symm.trans hup) (by decide)

/-- An entry is not raised by a handler that hears of another destination, or of none. -/
theorem Unraised.trace {m : Result} (hx : x.Unraised d) (hh : ∀ a, h = .advert a → d ≠ a.dst) (ht : Trace env h x m) :
    Ends (Unraised · d) m := by
  intro y hy
  rw [hy] at ht
  exact ht.invariant (I := fun x => x.Unraised d) (fun _ _ h hm => h.micro hh hm) hx

/-! ## Terms of the buffer alone -/

/-- Buffered packets are in `W`. -/
def waitTerms (x : Exec) (W : Packet → Prop) : Terms := { index := x.index, heap := 0, waits := W }

theorem waitTerms_lawful (x : Exec) (W : Packet → Prop) : (x.waitTerms W).Lawful :=
  ⟨fun _ _ _ _ => trivial, fun _ _ _ _ _ _ => trivial, fun _ _ _ _ _ _ => trivial, fun _ _ _ => trivial,
    fun _ _ _ _ => trivial⟩

theorem waitTerms_meets {W : Packet → Prop} (hx : ∀ q ∈ x.rqueue, W q) : x.Meets (x.waitTerms W) :=
  ⟨rfl, Nat.zero_le _, trivial, hx, fun _ _ _ => trivial, fun _ _ => trivial⟩

/-! ## A flush empties the buffer -/

theorem forward_queue (rt : Option NsAddr) (delay : ℚ) : Ends (fun y => y.rqueue = x.rqueue) (x.forward env rt p delay) := by
  have hsend : ∀ (d : NsAddr) (z : Exec) (q : Packet), z.rqueue = x.rqueue →
      Ends (fun y => y.rqueue = x.rqueue) (z.forwardSend env d q delay) := by
    intro d z q hz
    unfold forwardSend
    simp only
    split
    · exact Ends.error _
    · refine Ends.ok ?_
      have hcount := (countForward_same env z q).2.trans hz
      split <;> exact hcount
  have hdistrust : ∀ (d : NsAddr) (z : Exec) (path : Path) (q : Packet), z.rqueue = x.rqueue →
      Ends (fun y => y.rqueue = x.rqueue) (z.forwardDistrust env d path q) := by
    intro d z path q hz
    unfold forwardDistrust
    split
    · exact Ends.error _
    · rename_i rt _
      refine Ends.bind (P := fun a => a.1.rqueue = x.rqueue) (fun a ha => ?_) (fun a ha => Ends.ok ha)
      obtain ⟨y, b⟩ := a
      obtain ⟨-, rfl⟩ := downIfEmpty_ok ha
      have hreport := (reports_same rt.rtDst rt.rtSeqno (fun _ => path.lasthop) rt.rtPclist z).2.trans hz
      show (if b then _ else _ : Exec).rqueue = _
      split <;> exact hreport
  unfold forward
  split
  · exact Ends.ok rfl
  split
  · exact Ends.ok rfl
  cases rt with
  | some d =>
    simp only
    unfold forwardRoute
    split
    · exact Ends.error _
    split
    · exact Ends.error _
    split
    · exact Ends.error _
    rename_i path _
    have hensure := (nbEnsure_same env (x.rtModify d (fun rt => rt.pcInsert p.prevHop)) path.nexthop).2
    simp only
    split
    · split
      · exact hdistrust _ _ _ _ hensure
      · exact hsend _ _ _ hensure
    · exact hsend _ _ _ hensure
  | none =>
    simp only
    split
    · exact Ends.ok rfl
    · exact Ends.error _

/-- **After a flush for an entry that is up nothing is buffered for it.** -/
theorem flush_empties (he : x.rtLookup d = some e) (hup : e.rtFlags = .up) :
    Ends (fun y => ∀ q ∈ y.rqueue, q.daddr ≠ d) (x.flush env d) := by
  unfold flush
  rw [he]
  simp only [hup, if_true]
  refine drain_empties (fun y q => ?_) _ d
  unfold flushOne
  split
  · exact Ends.error _
  split
  · exact forward_queue _ _
  · exact Ends.ok rfl

/-! ## The handlers that raise an entry -/

/-- Nothing is buffered for `d`, or its entry, if it is not up, is as it was. -/
def Clears (d : NsAddr) (x y : Exec) : Prop :=
  (∀ q ∈ y.rqueue, q.daddr ≠ d) ∨ ∀ e, x.rtLookup d = some e → e.rtFlags ≠ .up → y.rtLookup d = some e

theorem rtLookup_rtEnsure {e : RtEntry} (he : x.rtLookup d = some e) : Ends (fun y => y.rtLookup d = some e) (x.rtEnsure env d) := by
  unfold rtEnsure
  rw [he]
  exact Ends.ok he

/-- A packet that does not go on leaves an entry that is not up. -/
theorem Noted.rtLookup {inf : Nat} {a : Advert} {u : Update inf a} {rt : RtEntry} (h : Noted u x rt y false)
    (he : x.rtLookup a.dst = some rt) (hd : rt.rtFlags ≠ .up) : y.rtLookup a.dst = some rt := by
  cases h with
  | extend _ _ _ hup => exact absurd hup hd
  | keep => exact he

/-- A request leaves the entry of its source as it was, if that is not up, or leaves nothing buffered for it. -/
theorem recvRequest_clears {rq : Rreq} : Ends (Clears rq.rqSrc x) (x.recvRequest env p rq) := by
  unfold recvRequest
  split
  · exact Ends.ok (.inr (fun _ he _ => he))
  split
  · exact Ends.ok (.inr (fun _ he _ => he))
  have hsrc : (x.seenRequest p rq).rqSrc = rq.rqSrc := by rw [seenRequest_eq]
  generalize x.seenRequest p rq = rq' at hsrc
  rw [← hsrc]
  simp only
  refine Ends.bind (P := fun y : Exec => ∀ e, x.rtLookup rq'.rqSrc = some e → y.rtLookup rq'.rqSrc = some e) ?_ (fun y hy => ?_)
  · intro y hy e he
    refine rtLookup_rtEnsure (x := if (x.idGet rq'.rqSrc rq'.rqBcastId).isSome then x
      else x.idInsert env rq'.rqSrc rq'.rqBcastId) ?_ y hy
    split <;> exact he
  refine Ends.bind (reverseRoute_noted env y p rq').ends (fun a ha => ?_)
  obtain ⟨z, b⟩ := a
  obtain ⟨rt, hrt, hn⟩ := ha
  cases b with
  | none =>
    refine Ends.ok (.inr (fun e he hd => ?_))
    obtain rfl := Option.some.inj ((hy e he).symm.trans hrt)
    exact hn.rtLookup hrt hd
  | some b =>
    obtain ⟨e, he, -, hup⟩ := hn.entry hrt
    refine Ends.bind (flush_empties he hup) (fun w hw => ?_)
    refine Ends.mono (answerRequest_meets (waitTerms_lawful w (fun q => q.daddr ≠ rq'.rqSrc)) (fun _ _ => trivial)
      (fun _ _ _ _ _ _ _ _ => trivial) (fun _ _ _ _ => trivial) _ b (waitTerms_meets hw)) (fun v hv => .inl hv.queue)

/-- A reply does so with the entry of its destination. -/
theorem recvReply_clears {rp : Rrep} : Ends (Clears rp.rpDst x) (x.recvReply env p rp) := by
  unfold recvReply
  split
  · exact Ends.ok (.inr (fun _ he _ => he))
  split
  · exact Ends.ok (.inr (fun _ he _ => he))
  obtain ⟨t, hlow⟩ := lowerForward_eq rp (x.nbLookup p.prevHop)
  simp only [hlow]
  refine Ends.bind (P := fun y : Exec => ∀ e, x.rtLookup rp.rpDst = some e → y.rtLookup rp.rpDst = some e)
    (fun y hy e he => rtLookup_rtEnsure he y hy) (fun y hy => ?_)
  refine Ends.bind (forwardRouteTo_noted env y _ _).ends (fun a ha => ?_)
  obtain ⟨z, b⟩ := a
  obtain ⟨rt, hrt, hn⟩ := ha
  cases b with
  | false =>
    refine Ends.ok (.inr (fun e he hd => ?_))
    obtain rfl := Option.some.inj ((hy e he).symm.trans hrt)
    exact hn.rtLookup hrt hd
  | true =>
    obtain ⟨e, he, -, hup⟩ := hn.entry hrt
    refine Ends.bind (flush_empties he hup) (fun w hw => ?_)
    split
    · exact Ends.ok (.inl hw)
    · exact Ends.mono (relayReply_meets (waitTerms_lawful w (fun q => q.daddr ≠ rp.rpDst)) (fun _ _ => trivial)
        (fun _ _ _ _ => trivial) (waitTerms_meets hw)) (fun v hv => .inl hv.queue)

/-- A RREQ or RREP clears the entry that it is about. -/
theorem recv_clears (ht : p.ptype = .teaomdv)
    (hbody : (∃ rq, p.body = .rreq rq ∧ rq.rqSrc = d) ∨ ∃ rp, p.body = .rrep rp ∧ rp.rpDst = d) :
    Ends (Clears d x) (x.recv env p) := by
  unfold recv recvTEAOMDV
  rw [if_pos ht]
  split
  · exact Ends.error _
  rcases hbody with ⟨rq, hb, rfl⟩ | ⟨rp, hb, rfl⟩
  · simp only [hb]
    exact recvRequest_clears
  · simp only [hb]
    exact recvReply_clears

/-- A data packet is buffered for an entry that is not up. -/
theorem rtResolve_waits (hq : x.DataQueue) (hp : p.Data) (hx : x.Waits) : Ends Waits (x.rtResolve env p) := by
  intro y hy
  obtain ⟨z, hz, hrest⟩ := bind_eq_ok (m := x.rtEnsure env p.daddr) hy
  have hqz := steps_dataQueue ((rtEnsure_trace (h := .nothing) x p.daddr).of_ok hz) hq
  obtain ⟨hqueue, hsome⟩ : z.rqueue = x.rqueue ∧ (z.rtLookup p.daddr).isSome := by
    unfold rtEnsure rtAdd at hz
    split at hz
    · split at hz
      · cases hz
      · obtain rfl := Except.ok.inj hz
        exact ⟨rfl, by simp [rtLookup]⟩
    · rename_i hsome
      obtain rfl := Except.ok.inj hz
      exact ⟨rfl, by simpa [Option.isSome_iff_ne_none] using hsome⟩
  have hxz : ∀ d, x.Unraised d → z.Unraised d := by
    intro d hd
    exact hd.trace (h := .nothing) (fun _ h => nomatch h) (rtEnsure_trace x p.daddr) z hz
  -- the entry is there: the same call on `z` does the same
  have hsame : z.rtResolve env p = .ok y := by
    have hensure : z.rtEnsure env p.daddr = .ok z := by
      unfold rtEnsure
      rw [if_neg (by simpa [Option.isSome_iff_ne_none] using hsome)]
    unfold rtResolve
    rw [hensure]
    exact hrest
  have hzy : ∀ d, z.Unraised d → y.Unraised d := by
    intro d hd
    exact hd.trace (h := .nothing) (fun _ h => nomatch h) (rtResolve_trace hqz hp) y hsame
  have hwaits : ∀ q ∈ y.rqueue, z.Unraised q.daddr := by
    have hT := z.waitTerms_lawful (fun q => z.Unraised q.daddr)
    have hmeets : z.Meets (z.waitTerms (fun q => z.Unraised q.daddr)) :=
      waitTerms_meets (fun q hm => hxz _ (hx q (hqueue ▸ hm)))
    obtain ⟨rt, hrt⟩ := Option.isSome_iff_exists.1 hsome
    simp only [hrt] at hrest
    split at hrest
    · split at hrest
      · cases hrest
      · exact (forward_some_meets hT (fun _ _ => trivial) _ _ hmeets y hrest).queue
    rename_i hup
    have henque := hmeets.enque env (p := p) (fun _ => ⟨rt, hrt, hup⟩)
    split at hrest
    · exact (sendRequest_meets hT _ henque y hrest).queue
    split at hrest
    · obtain rfl := Except.ok.inj hrest
      exact henque.queue
    · obtain rfl := Except.ok.inj hrest
      exact hmeets.queue
  exact fun q hm => hzy _ (hwaits q hm)

/-- **No handler leaves a packet buffered for an entry that is up.** -/
theorem handle_waits {inp : Input} (hq : x.DataQueue) (hc : x.Calm) (hx : x.Waits) : Ends Waits (x.handle env inp) := by
  by_cases hres : ∃ p, inp = .recv p ∧ x.resolves p = true
  · obtain ⟨p, rfl, hres⟩ := hres
    obtain ⟨ht, hd, -⟩ := of_decide_eq_true hres
    have hrecv := recv_data x env ht hd
    rw [if_pos hres] at hrecv
    show Ends _ (x.recv env p)
    rw [hrecv]
    refine rtResolve_waits hq ?_ hx
    unfold passed
    split <;> exact ⟨ht, hd⟩
  · intro y hy
    have hsub : ∀ q ∈ y.rqueue, q ∈ x.rqueue := by
      have hT := x.waitTerms_lawful (fun q => q ∈ x.rqueue)
      refine (handle_meets hT ?_ (waitTerms_meets (fun _ hm => hm)) y hy).queue
      cases inp with
      | recv p =>
        have hno : ¬ x.resolves p = true := fun h => hres ⟨p, rfl, h⟩
        exact ⟨fun h => absurd h hno, fun h => absurd h hno, fun _ _ _ _ _ => trivial,
          fun _ _ _ => ⟨fun _ _ _ => trivial, fun _ _ => trivial⟩, fun _ _ _ _ _ => trivial,
          fun _ _ _ _ _ _ _ _ _ _ _ => trivial, fun _ _ _ _ _ _ _ => trivial, fun _ _ _ _ _ _ _ => trivial,
          fun _ _ _ => ⟨fun _ _ => trivial, fun _ _ _ _ _ _ => trivial⟩, fun _ _ _ _ => trivial⟩
      | tap | rtLlFailed => trivial
      | timer t =>
        cases t with
        | neighbor => exact fun _ _ _ _ _ _ => trivial
        | broadcast => exact trivial
        | trust => exact fun _ _ => trivial
        | hello | probe | routeCache | localRepair => trivial
    intro q hm
    have hxq := hx q (hsub q hm)
    by_cases hh : ∃ a, x.heard inp = .advert a ∧ q.daddr = a.dst
    · obtain ⟨a, ha, hd⟩ := hh
      obtain ⟨p, rfl, ht, hb⟩ := heard_advert ha
      have hclears : Clears q.daddr x y := by
        refine recv_clears ht (hb.imp ?_ ?_) y hy
        · exact fun ⟨rq, hrq, hadv⟩ => ⟨rq, hrq, hd ▸ hadv ▸ rfl⟩
        · exact fun ⟨rp, hrp, hadv⟩ => ⟨rp, hrp, hd ▸ hadv ▸ rfl⟩
      obtain ⟨e, he, hdown⟩ := hxq
      exact ⟨e, (hclears.resolve_left (fun hnone => hnone q hm rfl)) e he hdown, hdown⟩
    · exact hxq.trace (fun a ha hd => hh ⟨a, ha, hd⟩) (handle_trace hq hc) y hy

/-- The walk of `rt_purge` asks for a route when it comes to an entry that is waited for. -/
theorem purgeEntry_waiting {x : Exec} {q : Packet} {e : RtEntry} (he : x.rtLookup q.daddr = some e) (hd : e.rtFlags ≠ .up)
    (hq : q ∈ x.rqueue) (delay : ℚ) :
    purgeEntry env (x, delay) q.daddr = x.sendRequest env q.daddr >>= fun y => .ok (y, delay) := by
  have hfind : x.rqFind q.daddr = true := by
    unfold rqFind
    rw [List.find?_isSome]
    exact ⟨q, hq, by simp⟩
  unfold purgeEntry
  simp only [he]
  rw [if_neg (fun h => hd h.1), if_neg hd, if_pos hfind]

end Exec

namespace Agent

theorem waits_of_reach {id : NsAddr} {a : Agent} (h : Reach id a) (heap : Nat) : (a.exec heap).Waits := by
  refine Runs.Reaches.invariant (P := fun a => Exec.Waits (a.exec 0)) (fun _ hm => absurd hm List.not_mem_nil) ?_ h
  intro a c a' hr ha _ hs
  obtain ⟨x, hx, rfl⟩ := call_eq_some hs
  exact Exec.handle_waits (x := a.exec c.heap) (tidy_of_reach hr).data (exec_calm a c.heap) ha x hx

/-- **No packet is stranded**: every buffered packet has an entry, it is not up, and the walk of `rt_purge` asks for a
route when it comes to it. -/
theorem waiting_of_reach {id : NsAddr} {a : Agent} (h : Reach id a) :
    (∀ q ∈ a.rqueue, ∃ e ∈ a.rtable, e.rtDst = q.daddr ∧ e.rtFlags ≠ .up) ∧
      (∀ e ∈ a.rtable, e.rtFlags = .up → ∀ q ∈ a.rqueue, q.daddr ≠ e.rtDst) ∧
      ∀ q ∈ a.rqueue, ∀ env heap delay, Exec.purgeEntry env (a.exec heap, delay) q.daddr =
        (a.exec heap).sendRequest env q.daddr >>= fun x => .ok (x, delay) := by
  have hwaits := waits_of_reach h 0
  have hnd := (tidy_of_reach h).rep.dsts
  refine ⟨fun q hq => ?_, fun e he hup q hq hd => ?_, fun q hq env heap delay => ?_⟩
  · obtain ⟨e, he, hd⟩ := hwaits q hq
    exact ⟨e, Exec.mem_of_rtLookup he, Exec.rtDst_of_rtLookup he, hd⟩
  · obtain ⟨e', he', hdown⟩ := hwaits q hq
    have : (a.exec 0).rtLookup q.daddr = some e := by
      rw [hd]
      exact Keyed.find?_of_mem_nodup (·.rtDst) hnd he
    obtain rfl := Option.some.inj (this.symm.trans he')
    exact hdown hup
  · obtain ⟨e, he, hd⟩ := hwaits q hq
    exact Exec.purgeEntry_waiting (x := a.exec heap) he hd hq delay

/-- A node is given two packets for a destination it knows nothing of, and purges. -/
def waitingCalls : List Call :=
  let packet (daddr : NsAddr) : Packet := { ptr := 0, ptype := .cbr, saddr := 5, daddr := daddr }
  [⟨{ inf := 65535, now := 1 }, 1, .recv (packet 9)⟩, ⟨{ inf := 65535, now := 2 }, 3, .recv (packet 9)⟩,
    ⟨{ inf := 65535, now := 3 }, 5, .timer .routeCache⟩]

theorem waiting_waitingCalls : ∃ a, Runs.replay call waitingCalls (new 5) = some a ∧ a.rqueue.length = 2 ∧
    ∀ q ∈ a.rqueue, ∃ e ∈ a.rtable, e.rtDst = q.daddr ∧ e.rtFlags ≠ .up := by
  obtain ⟨a, ha, hr, hlen⟩ := Runs.Reaches.of_obeys (fun _ _ => true) (fun a : Agent => a.rqueue.length == 2)
    (fun _ _ _ => trivial) waitingCalls (.init : Reach 5 (new 5)) (by decide +kernel)
  exact ⟨a, ha, eq_of_beq hlen, (waiting_of_reach hr).1⟩

end Agent

end TeAomdv

import TeAomdv.Recorded
/-!
# Absent — when the first path of an entry without paths is used

`forward`, and the answers from the table, use the first path of entries that are up only.  The two relays use that of
the entry just recorded, after the packets buffered for it were sent off, and do not look whether it is still up.
-/
namespace TeAomdv

open Fallible (bind_eq_error ok_bind)

namespace Exec

variable {env : Env} {x y : Exec} {d : NsAddr} {e : RtEntry} {p : Packet}

/-- The request is neither for this node nor a duplicate, and no live entry answers it. -/
def relaysRequest (x : Exec) (rq : Rreq) : Bool :=
  rq.rqDst ≠ x.index ∧ (x.idGet rq.rqSrc rq.rqBcastId).isNone ∧
    (rq.rqDst = rq.rqSrc ∨ ¬ (x.rtLookup rq.rqDst).any (fun rt => rt.rtFlags = .up ∧ rt.rtSeqno ≥ rq.rqDstSeqno))

/-- The reply is for another node, to which there is a live entry, and the first to be passed on for its request. -/
def relaysReply (x : Exec) (p : Packet) (rp : Rrep) : Bool :=
  p.daddr ≠ x.index ∧ p.daddr ≠ rp.rpDst ∧ (x.rtLookup p.daddr).any (fun rt => rt.rtFlags = .up) ∧
    (x.idGet p.daddr rp.rpBcastId).any (fun b => b.count = 0)

/-- The request is recorded in an entry whose paths the buffered packets all take away, and is to be relayed. -/
def losesRequest (env : Env) (x : Exec) (p : Packet) (rq : Rreq) : Bool :=
  (x.requestPaths env p rq).any (fun ps => x.WearsOut ps (x.buffered env rq.rqSrc)) && x.relaysRequest rq

/-- The reply is recorded in an entry whose paths the buffered packets all take away, and is to be relayed. -/
def losesReply (env : Env) (x : Exec) (p : Packet) (rp : Rrep) : Bool :=
  (x.replyPaths env p rp).any (fun ps => x.WearsOut ps (x.buffered env rp.rpDst)) && x.relaysReply p rp

/-- What is received is such a request or reply. -/
def losesPath (env : Env) (x : Exec) : Input → Bool
  | .recv p =>
    decide (p.ptype = .teaomdv ∧ p.sport = rtPort ∧ p.dport = rtPort) && match p.body with
      | .rreq rq => x.losesRequest env p rq
      | .rrep rp => x.losesReply env p rp
      | _ => false
  | _ => false

/-! ## Functions that use no absent path -/

theorem forwardDistrust_ne (x : Exec) (d : NsAddr) (path : Path) (p : Packet) :
    x.forwardDistrust env d path p ≠ .error .nullPath := by
  unfold forwardDistrust downIfEmpty
  intro h
  split at h
  · cases h
  · rcases bind_eq_error h with h | ⟨_, _, h⟩
    · rcases bind_eq_error h with h | ⟨_, _, h⟩
      · unfold RtEntry.pathEmpty at h
        split at h <;> split at h <;> cases h
      · cases h
    · cases h

theorem forwardSend_ne (x : Exec) (d : NsAddr) (p : Packet) (delay : ℚ) :
    x.forwardSend env d p delay ≠ .error .nullPath := by
  unfold forwardSend
  simp only
  intro h
  split at h <;> cases h

/-- `forward` on an entry that has paths while it is up. -/
theorem forward_some_ne (hd : ∀ e, x.rtLookup d = some e → e.Kept) (delay : ℚ) :
    x.forward env (some d) p delay ≠ .error .nullPath := by
  unfold forward forwardRoute
  simp only
  intro h
  split at h
  · cases h
  split at h
  · cases h
  split at h
  · cases h
  rename_i e he
  split at h
  · cases h
  rename_i hup
  split at h
  · rename_i hfind
    exact (hd e he).2.1 (not_not.1 hup) (List.head?_eq_none_iff.1 hfind)
  split at h
  · split at h
    · exact forwardDistrust_ne _ _ _ _ h
    · exact forwardSend_ne _ _ _ _ h
  · exact forwardSend_ne _ _ _ _ h

theorem forward_none_ne (delay : ℚ) : x.forward env none p delay ≠ .error .nullPath := by
  unfold forward
  simp only
  intro h
  repeat' split at h
  all_goals cases h

/-! ## A request -/

theorem replyFromTable_ne {rq : Rreq} {rt : RtEntry} (hk : rt.Kept) (hup : rt.rtFlags = .up) (b : Bool) :
    x.replyFromTable env p rq rt b ≠ .error .nullPath := by
  unfold replyFromTable
  intro h
  split at h
  · cases h
  split at h
  · split at h
    · rename_i hfind
      exact hk.2.1 hup (List.head?_eq_none_iff.1 hfind)
    · cases h
  · cases h

theorem relayRequest_nullPath {rq : Rreq} (he : x.rtLookup rq.rqSrc = some e) (rt : Option RtEntry) (kill : Bool) :
    x.relayRequest env p rq rt kill = .error .nullPath ↔ kill = false ∧ e.rtPathList = [] := by
  unfold relayRequest
  cases kill with
  | true => simp
  | false =>
    rw [he]
    simp only [Bool.false_eq_true, if_false, true_and]
    rw [pathFind_advertise]
    cases hp : e.rtPathList with
    | nil =>
      have hfind : e.pathFind = none := List.head?_eq_none_iff.2 hp
      rw [hfind]
      exact ⟨fun _ => rfl, fun _ => rfl⟩
    | cons f fs =>
      rw [pathFind_cons hp]
      exact ⟨fun h => absurd h (forward_none_ne _), nofun⟩

theorem answerRequest_nullPath {rq : Rreq} (hk : ∀ d e, x.rtLookup d = some e → e.Kept)
    (he : x.rtLookup rq.rqSrc = some e) (kill b : Bool) :
    x.answerRequest env p rq kill b = .error .nullPath ↔ rq.rqDst ≠ x.index ∧ kill = false ∧
      ¬ (x.rtLookup rq.rqDst).any (fun rt => rt.rtFlags = .up ∧ rt.rtSeqno ≥ rq.rqDstSeqno) ∧ e.rtPathList = [] := by
  unfold answerRequest
  by_cases hdst : rq.rqDst = x.index
  · simp [hdst]
  rw [if_neg hdst]
  cases hrt : x.rtLookup rq.rqDst with
  | none =>
    simp only
    rw [relayRequest_nullPath he]
    simp [hdst]
  | some rt =>
    simp only
    by_cases hlive : rt.rtFlags = .up ∧ rt.rtSeqno ≥ rq.rqDstSeqno
    · rw [if_pos hlive]
      have hne : x.replyFromTable env p rq rt b ≠ .error .nullPath := replyFromTable_ne (hk _ rt hrt) hlive.1 b
      simp [hne, hlive]
    · rw [if_neg hlive, relayRequest_nullPath he]
      simp [hdst, hlive]

namespace Flushed

variable {r : RtEntry}

/-- Every entry is kept, the one worked on and the others. -/
theorem keptAll (hf : Flushed env d r x y e) (hx : ∀ e ∈ x.rtable, e.Kept) (d' : NsAddr) (e' : RtEntry)
    (he : y.rtLookup d' = some e') : e'.Kept := by
  by_cases hd : d' = d
  · subst hd
    obtain rfl := Option.some.inj (hf.entry.symm.trans he)
    exact hf.kept
  · rw [hf.spares.others d' hd] at he
    exact hx e' (mem_of_rtLookup he)

/-- An entry worn out passes no test that only live entries pass. -/
theorem any_iff (hf : Flushed env d r x y e) (hnil : e.rtPathList = []) {q : RtEntry → Bool}
    (hq : ∀ rt, q rt = true → rt.rtFlags = .up) (d' : NsAddr) :
    (y.rtLookup d').any q = true ↔ d' ≠ d ∧ (x.rtLookup d').any q = true := by
  by_cases hd : d' = d
  · subst hd
    have hdown : ¬ q e = true := fun h => hf.kept.2.1 (hq e h) hnil
    simp [hf.entry, hdown]
  · rw [hf.spares.others d' hd]
    simp [hd]

end Flushed

/-- **When `recvRequest` uses an absent path.** -/
theorem recvRequest_nullPath (env : Env) (p : Packet) (rq : Rreq) (hx : x.toAgent.Tidy) :
    x.recvRequest env p rq = .error .nullPath ↔ x.losesRequest env p rq = true := by
  have hspec := recvRequest_spec env p rq hx
  unfold losesRequest
  cases hps : x.requestPaths env p rq with
  | none =>
    rw [hps] at hspec
    rcases hspec with ⟨y, hy, -⟩ | ⟨s, hs⟩
    · simp [hy]
    · simp [hs]
  | some ps =>
    rw [hps] at hspec
    obtain ⟨ids, y, e, hy, -, -, hf⟩ := hspec
    obtain ⟨l, t, hseen⟩ : ∃ l t, x.seenRequest p rq = { rq with rqFirstHop := l, RPT := t } :=
      ⟨_, _, seenRequest_eq x p rq⟩
    have hempty : e.rtPathList = [] ↔ x.WearsOut ps (x.buffered env rq.rqSrc) := hf.empty
    have hkept : ∀ d e, y.rtLookup d = some e → e.Kept := hf.keptAll (fun e he => (hx.rep.entries e he).toKept)
    rw [hy, hseen, answerRequest_nullPath (e := e) hkept (by exact hf.entry), hf.spares.index, Option.any_some,
      Bool.and_eq_true, decide_eq_true_eq, ← hempty]
    simp only [relaysRequest, decide_eq_true_eq, ← Option.not_isSome]
    have hlive : ∀ rt : RtEntry, decide (rt.rtFlags = .up ∧ rt.rtSeqno ≥ rq.rqDstSeqno) = true → rt.rtFlags = .up :=
      fun _ h => (of_decide_eq_true h).1
    constructor
    · rintro ⟨hdst, hkill, hnot, hnil⟩
      rw [hf.any_iff hnil hlive] at hnot
      exact ⟨hnil, hdst, by simpa using hkill, or_iff_not_imp_left.2 fun hne h => hnot ⟨hne, h⟩⟩
    · rintro ⟨hnil, hdst, hkill, hnot⟩
      refine ⟨hdst, by simpa using hkill, ?_, hnil⟩
      rw [hf.any_iff hnil hlive]
      exact fun h => hnot.elim h.1 (fun h' => h' h.2)

/-! ## A reply -/

theorem kept_rtModify (hk : ∀ d e, x.rtLookup d = some e → e.Kept) (d : NsAddr) {f : RtEntry → RtEntry}
    (hd : ∀ e, (f e).rtDst = e.rtDst) (hf : ∀ e, e.Kept → (f e).Kept) (d' : NsAddr) (e' : RtEntry)
    (he' : (x.rtModify d f).rtLookup d' = some e') : e'.Kept := by
  by_cases hne : d' = d
  · subst hne
    cases he : x.rtLookup d' with
    | none =>
      rw [rtModify_of_none he] at he'
      exact hk d' e' he'
    | some e =>
      rw [rtLookup_rtModify he ((hd e).trans (rtDst_of_rtLookup he))] at he'
      exact Option.some.inj he' ▸ hf e (hk d' e he)
  · rw [rtLookup_rtModify_ne hne hd] at he'
    exact hk d' e' he'

theorem kept_advertise (hk : e.Kept) (inf : Nat) : (e.advertise inf).Kept := by
  unfold RtEntry.advertise
  split <;> exact hk

theorem relayReply_nullPath {rp : Rrep} (hk : ∀ d e, x.rtLookup d = some e → e.Kept) (he : x.rtLookup rp.rpDst = some e) :
    x.relayReply env p rp = .error .nullPath ↔ (x.rtLookup p.daddr).any (fun rt => rt.rtFlags = .up) ∧
      (x.idGet p.daddr rp.rpBcastId).any (fun b => b.count = 0) ∧ e.rtPathList = [] := by
  unfold relayReply
  cases hrt : x.rtLookup p.daddr with
  | none => simp
  | some rt0 =>
  cases hb : x.idGet p.daddr rp.rpBcastId with
  | none => simp
  | some b =>
  simp only [Option.any_some, decide_eq_true_eq]
  by_cases hup : rt0.rtFlags = .up
  swap
  · simp [hup]
  by_cases hcount : b.count = 0
  swap
  · simp [hcount]
  have hgo : ¬ (rt0.rtFlags ≠ .up ∨ b.count ≠ 0) := by simp [hup, hcount]
  rw [if_neg hgo]
  cases hfind : rt0.pathFind with
  | none => exact absurd (List.head?_eq_none_iff.1 hfind) ((hk _ _ hrt).2.1 hup)
  | some reversePath =>
  obtain ⟨t, hlow⟩ := lowerReverse_eq rp ((x.idMark p.daddr rp.rpBcastId).nbLookup reversePath.nexthop)
  have hmark : (x.idMark p.daddr rp.rpBcastId).rtLookup rp.rpDst = some e := he
  simp only [hlow, hmark]
  rw [pathFind_advertise]
  cases hp : e.rtPathList with
  | nil =>
    have hnone : e.pathFind = none := List.head?_eq_none_iff.2 hp
    rw [hnone]
    simp [hup, hcount]
  | cons f fs =>
    rw [pathFind_cons hp]
    have hk₁ := kept_rtModify hk rp.rpDst (f := fun rt => rt.advertise env.inf) (fun e => rtDst_advertise e _)
      (fun _ h => kept_advertise h _)
    have hk₂ := kept_rtModify hk₁ p.daddr (f := fun rt0 => rt0.modifyFind (fun path =>
      { path with expire := env.now + activeRouteTimeout })) (fun _ => rfl) (fun _ h => kept_modifyFind h _)
    have hk₃ := kept_rtModify hk₂ rp.rpDst (f := fun rt => rt.setError true) (fun _ => rfl) (fun _ h => h)
    refine ⟨fun h => ?_, fun h => nomatch h.2.2⟩
    refine absurd h (forward_some_ne ?_ _)
    exact hk₃ p.daddr

/-- **When `recvReply` uses an absent path.** -/
theorem recvReply_nullPath (env : Env) (p : Packet) (rp : Rrep) (hx : x.toAgent.Tidy) :
    x.recvReply env p rp = .error .nullPath ↔ x.losesReply env p rp = true := by
  have hspec := recvReply_spec env p rp hx
  unfold losesReply
  cases hps : x.replyPaths env p rp with
  | none =>
    rw [hps] at hspec
    rcases hspec with ⟨y, hy, -⟩ | ⟨s, hs⟩
    · simp [hy]
    · simp [hs]
  | some ps =>
    rw [hps] at hspec
    obtain ⟨y, e, hy, -, hf⟩ := hspec
    obtain ⟨t, hlow⟩ := lowerForward_eq rp (x.nbLookup p.prevHop)
    have hkept : ∀ d e, y.rtLookup d = some e → e.Kept := hf.keptAll (fun e he => (hx.rep.entries e he).toKept)
    have hids : y.idGet = x.idGet := by
      unfold idGet
      rw [hf.spares.ids]
    have hempty : e.rtPathList = [] ↔ x.WearsOut ps (x.buffered env rp.rpDst) := hf.empty
    rw [hy, hf.spares.index, Option.any_some, Bool.and_eq_true, decide_eq_true_eq, ← hempty]
    simp only [relaysReply, decide_eq_true_eq]
    by_cases hdst : p.daddr = x.index
    · simp [hdst]
    rw [if_neg hdst, hlow, relayReply_nullPath (e := e) hkept (by exact hf.entry), hids]
    have hlive : ∀ rt : RtEntry, decide (rt.rtFlags = .up) = true → rt.rtFlags = .up := fun _ h => of_decide_eq_true h
    constructor
    · rintro ⟨hup, hcount, hnil⟩
      rw [hf.any_iff hnil hlive] at hup
      exact ⟨hnil, hdst, hup.1, hup.2, hcount⟩
    · rintro ⟨hnil, -, hne, hup, hcount⟩
      exact ⟨(hf.any_iff hnil hlive _).2 ⟨hne, hup⟩, hcount, hnil⟩

/-! ## Any invocation -/

/-- No other handler uses an absent path. -/
theorem handle_ne (env : Env) (inp : Input) (hx : x.toAgent.Tidy) (hc : x.Calm) (hh : ∀ a, x.heard inp ≠ .advert a) :
    x.handle env inp ≠ .error .nullPath := by
  intro h
  have ht : Trace env (x.heard inp) x (x.handle env inp) := handle_trace hx.data hc
  rw [h] at ht
  obtain ⟨y, hy, hblame⟩ := ht.invariant_error (I := fun x => x.toAgent.Rep) (fun _ _ h hm => hm.rep h) hx.rep
  rcases hblame with ⟨e, he, hup, hnil⟩ | ⟨a, ha⟩
  · exact (hy.entries e he).up.1 hup hnil
  · exact hh a ha

/-- **When a handler uses an absent path.** -/
theorem handle_nullPath (env : Env) (inp : Input) (hx : x.toAgent.Tidy) (hc : x.Calm) :
    x.handle env inp = .error .nullPath ↔ x.losesPath env inp = true := by
  cases inp with
  | recv p =>
    by_cases htype : p.ptype = .teaomdv
    swap
    · have hne := handle_ne env (.recv p) hx hc (by simp [heard, htype])
      simp [hne, losesPath, htype]
    by_cases hport : p.sport = rtPort ∧ p.dport = rtPort
    swap
    · have hport' : p.sport ≠ rtPort ∨ p.dport ≠ rtPort := not_and_or.1 hport
      simp [handle, recv, recvTEAOMDV, losesPath, htype, hport, hport']
    have hok : decide (p.ptype = .teaomdv ∧ p.sport = rtPort ∧ p.dport = rtPort) = true := decide_eq_true ⟨htype, hport⟩
    unfold handle losesPath
    simp only [hok, Bool.true_and]
    cases hb : p.body with
    | rreq rq =>
      simp only [recv_rreq htype hport hb]
      exact recvRequest_nullPath env { p with ttl := p.ttl - 1 } rq hx
    | rrep rp =>
      simp only [recv_rrep htype hport hb]
      exact recvReply_nullPath env { p with ttl := p.ttl - 1 } rp hx
    | payload | rerr | hello | rcom | prob | pta =>
      refine ⟨fun h => absurd h (handle_ne env (.recv p) hx hc ?_), nofun⟩
      unfold heard
      simp only [htype, hb, if_true]
      repeat' split
      all_goals nofun
  | tap p => exact ⟨nofun, nofun⟩
  | rtLlFailed p => exact ⟨nofun, nofun⟩
  | timer t => 
    have hne := handle_ne env (.timer t) hx hc (by cases t <;> nofun)
    simp [hne, losesPath]

end Exec

namespace Agent

/-- **No absent path is used just when no request or reply loses its path before it is relayed**: in every reachable
state, which is tidy (`tidy_of_reach`), with any trust values and any data in the buffer. -/
theorem handle_ne_nullPath_iff {a : Agent} (ha : a.Tidy) (heap : Nat) (env : Env) (inp : Input) :
    (a.exec heap).handle env inp ≠ .error .nullPath ↔ ¬ (a.exec heap).losesPath env inp = true :=
  not_congr (Exec.handle_nullPath env inp (x := a.exec heap) ha (fun _ _ hm => nomatch hm))

/-- Node 5 greets 1, buffers a packet for it, and does not trust it three seconds later. -/
def doubtfulCalls : List Call :=
  let hello : Packet :=
    { ptr := 0, saddr := 1, daddr := ipBroadcast, sport := rtPort, dport := rtPort, ttl := 1, prevHop := 1
      body := .hello ⟨0, 1, 2, 0, 8, 0, 0, 0, 0, 0, 0⟩ }
  let data : Packet := { ptr := 1, ptype := .cbr, saddr := 5, daddr := 1 }
  [⟨{ inf := 65535, now := 1 }, 1, .recv hello⟩, ⟨{ inf := 65535, now := 1 }, 2, .recv data⟩,
    ⟨{ inf := 65535, now := 4 }, 4, .timer .trust⟩]

/-- A request of node 1 for node 9, received from 1 itself. -/
def firsthandRequest : Input :=
  .recv { ptr := 9, saddr := 1, daddr := ipBroadcast, sport := rtPort, dport := rtPort, ttl := 30, prevHop := 1
          body := .rreq ⟨0, 1, 9, 0, 1, 4, 4, 0, trustThreshold, 1, 1⟩ }

theorem nullPath_doubtfulCalls : ∃ a, Reach 5 a ∧
    (a.exec 10).handle { inf := 65535, now := 4 } firsthandRequest = .error .nullPath := by
  obtain ⟨a, -, hr, hf⟩ := Runs.Reaches.of_obeys (fun _ _ => true)
    (fun a => Fallible.failure ((a.exec 10).handle { inf := 65535, now := 4 } firsthandRequest) = some .nullPath)
    (fun _ _ _ => trivial) doubtfulCalls (.init : Reach 5 (new 5)) (by decide +kernel)
  exact ⟨a, hr, Fallible.failure_eq_some.1 (of_decide_eq_true hf)⟩

/-- Before the trust round the same request is relayed. -/
theorem handle_ne_nullPath_doubtfulCalls : ∃ a, Runs.replay call (doubtfulCalls.take 2) (new 5) = some a ∧
    (a.exec 10).handle { inf := 65535, now := 4 } firsthandRequest ≠ .error .nullPath := by
  obtain ⟨a, ha, hr, hf⟩ := Runs.Reaches.of_obeys (fun _ _ => true)
    (fun a => !(a.exec 10).losesPath { inf := 65535, now := 4 } firsthandRequest)
    (fun _ _ _ => trivial) (doubtfulCalls.take 2) (.init : Reach 5 (new 5)) (by decide +kernel)
  exact ⟨a, ha, (handle_ne_nullPath_iff (tidy_of_reach hr) 10 _ _).2 (by simpa using hf)⟩

end Agent

end TeAomdv

import TeAomdv.Flush
import TeAomdv.TraceRecv
/-!
# Carry — the trust that stored paths and routing packets carry

A set of paths and a set of RREQs and RREPs that the code's own writes respect (`Lawful`): a lifetime set anew, an FPT
lowered to a value that passes the trust test.  `forward`, and the loops that send off what is buffered, keep to them.
-/
namespace TeAomdv

open Fallible (Ends)
open Exec (Aside)

/-- Neither a RREQ nor a RREP. -/
def Packet.Mute (p : Packet) : Prop :=
  match p.body with
  | .rreq _ | .rrep _ => False
  | _ => True

/-- Every path of the entry is in `S`. -/
def RtEntry.Holds (S : NsAddr → Path → Prop) (e : RtEntry) : Prop := ∀ f ∈ e.rtPathList, S e.rtDst f

/-- A set of paths, by destination, and a set of packets that `forward` and the control packets respect. -/
structure Lawful (S : NsAddr → Path → Prop) (V : Packet → Prop) : Prop where
  expire : ∀ {d : NsAddr} {f : Path} (t : ℚ), S d f → S d { f with expire := t }
  lower : ∀ {d : NsAddr} {f : Path} (q : ℚ), S d f → ¬ q < trustThreshold → S d { f with FPT := q }
  mute : ∀ {p : Packet}, p.Mute → V p

/-- The same of sets that respect a lifetime set anew when it has not run out. -/
structure LawfulAt (now : ℚ) (S : NsAddr → Path → Prop) (V : Packet → Prop) : Prop where
  expire : ∀ {d : NsAddr} {f : Path} {t : ℚ}, now < t → S d f → S d { f with expire := t }
  lower : ∀ {d : NsAddr} {f : Path} (q : ℚ), S d f → ¬ q < trustThreshold → S d { f with FPT := q }
  mute : ∀ {p : Packet}, p.Mute → V p

/-- Every path stored is in `S`, every routing packet sent in `V`, and the buffer holds data. -/
structure Exec.Carries (S : NsAddr → Path → Prop) (V : Packet → Prop) (x : Exec) : Prop where
  paths : ∀ e ∈ x.rtable, e.Holds S
  sent : ∀ p d, Act.schedule p d ∈ x.log → p.ptype = .teaomdv → V p
  queue : x.DataQueue

variable {S : NsAddr → Path → Prop} {V : Packet → Prop}

theorem Lawful.at (h : Lawful S V) (now : ℚ) : LawfulAt now S V := ⟨fun _ => h.expire _, h.lower, h.mute⟩

theorem lt_active (now : ℚ) : now < now + activeRouteTimeout := lt_add_of_pos_right now (by decide)

theorem lt_reverse (now : ℚ) : now < now + revRouteLife := lt_add_of_pos_right now (by decide)

namespace RtEntry

variable {e e' : RtEntry}

theorem Holds.of_subset (h : e.Holds S) (hd : e'.rtDst = e.rtDst) (hs : e'.rtPathList ⊆ e.rtPathList) : e'.Holds S := by
  intro f hf
  rw [hd]
  exact h f (hs hf)

theorem pathDelete_subset (e : RtEntry) (id : NsAddr) : (e.pathDelete id).rtPathList ⊆ e.rtPathList := by
  unfold pathDelete
  split
  · exact List.eraseP_subset
  · exact List.Subset.refl _

theorem rtDown_subset (e : RtEntry) (inf : Nat) : (e.rtDown inf).rtPathList ⊆ e.rtPathList := by
  unfold rtDown
  split
  · exact List.Subset.refl _
  · exact List.nil_subset _

theorem rtDst_rtDown (e : RtEntry) (inf : Nat) : (e.rtDown inf).rtDst = e.rtDst := by
  unfold rtDown
  split <;> rfl

theorem pathPurge_subset (e : RtEntry) (now : ℚ) : (e.pathPurge now).rtPathList ⊆ e.rtPathList := by
  show Keyed.eraseAll _ e.rtPathList ⊆ _
  rw [Keyed.eraseAll_eq_filter]
  exact List.filter_subset_self _

theorem rtPathList_advertise (e : RtEntry) (inf : Nat) : (e.advertise inf).rtPathList = e.rtPathList := by
  unfold advertise
  split <;> rfl

theorem Holds.modifyFind (h : e.Holds S) {g : Path → Path} (hg : ∀ f ∈ e.rtPathList.head?, S e.rtDst (g f)) :
    (e.modifyFind g).Holds S := by
  intro f hf
  unfold RtEntry.modifyFind at hf
  cases hl : e.rtPathList with
  | nil =>
    rw [hl] at hf
    cases hf
  | cons a as =>
    rw [hl] at hf
    rcases List.mem_cons.1 hf with rfl | hf
    · exact hg a (by rw [hl]; rfl)
    · exact h f (by rw [hl]; exact List.mem_cons_of_mem _ hf)

theorem Holds.modifyDisjoint (h : e.Holds S) (n l : NsAddr) {g : Path → Path}
    (hg : ∀ f, S e.rtDst f → f.nexthop = n → S e.rtDst (g f)) : (e.modifyDisjoint n l g).Holds S := by
  intro f hf
  rcases Keyed.mem_modifyFirst hf with hf | ⟨a, ha, rfl⟩
  · exact h f hf
  · have hn : a.nexthop = n ∧ a.lasthop = l := by simpa [samePath] using List.find?_some ha
    exact hg a (h a (List.mem_of_find?_eq_some ha)) hn.1

end RtEntry

namespace Exec

variable {env : Env} {x y : Exec} {d : NsAddr} {e : RtEntry} {p : Packet}

/-- A function keeps to `S` and `V`. -/
def Keeps (S : NsAddr → Path → Prop) (V : Packet → Prop) (x : Exec) (m : Result) : Prop :=
  x.Carries S V → Ends (Carries S V) m

namespace Keeps

theorem ok (h : x.Carries S V → y.Carries S V) : x.Keeps S V (.ok y) := fun hx => Ends.ok (h hx)

theorem bind {m : Result} {f : Exec → Result} (hm : x.Keeps S V m) (hf : ∀ y : Exec, y.Keeps S V (f y)) :
    x.Keeps S V (m >>= f) :=
  fun hx => Ends.bind (hm hx) (fun y hy => hf y hy)

end Keeps

namespace Carries

/-- A write to the table alone. -/
theorem rtModify (h : x.Carries S V) (d : NsAddr) {f : RtEntry → RtEntry}
    (hf : ∀ e, x.rtLookup d = some e → e.Holds S → (f e).Holds S) : (x.rtModify d f).Carries S V where
  paths := by
    intro a ha
    rcases Keyed.mem_modifyFirst ha with ha | ⟨e, he, rfl⟩
    · exact h.paths a ha
    · exact hf e he (h.paths e (List.mem_of_find?_eq_some he))
  sent := h.sent
  queue := h.queue

/-- A write that adds no path. -/
theorem keep (h : x.Carries S V) (d : NsAddr) {f : RtEntry → RtEntry} (hd : ∀ e, (f e).rtDst = e.rtDst)
    (hs : ∀ e, (f e).rtPathList ⊆ e.rtPathList) : (x.rtModify d f).Carries S V :=
  h.rtModify d (fun e _ he => he.of_subset (hd e) (hs e))

theorem put (h : x.Carries S V) {e' : RtEntry} (he : e'.Holds S) : (x.put d e').Carries S V :=
  h.rtModify d (fun _ _ _ => he)

theorem say (h : x.Carries S V) {a : Act} (ha : ∀ p d, a = .schedule p d → p.ptype = .teaomdv → V p) :
    (x.say a).Carries S V where
  paths := h.paths
  sent := by
    intro p d hp
    rcases List.mem_append.1 hp with hp | hp
    · exact h.sent p d hp
    · exact ha p d (List.mem_singleton.1 hp).symm
  queue := h.queue

theorem schedule (h : x.Carries S V) (hp : p.ptype = .teaomdv → V p) (d : Delay) : (x.schedule p d).Carries S V := by
  refine h.say (fun q d' heq => ?_)
  cases heq
  exact hp

theorem free (h : x.Carries S V) (p : Packet) : (x.free p).Carries S V := h.say (fun _ _ h => nomatch h)

theorem drop (h : x.Carries S V) (p : Packet) (r : DropReason) : (x.drop p r).Carries S V :=
  h.say (fun _ _ h => nomatch h)

theorem dmux (h : x.Carries S V) (p : Packet) : (x.say (.dmux p)).Carries S V := h.say (fun _ _ h => nomatch h)

theorem distrust (h : x.Carries S V) (d : NsAddr) (s n : Nat) : (x.say (.distrust d s n)).Carries S V :=
  h.say (fun _ _ h => nomatch h)

theorem alloc (h : x.Carries S V) : x.alloc.Carries S V :=
  say (x := { x with heap := x.heap + 1 }) ⟨h.paths, h.sent, h.queue⟩ (fun _ _ h => nomatch h)

end Carries

section Laws

variable (hl : LawfulAt env.now S V)

include hl

omit hl in
/-- What no other node can tell carries nothing. -/
theorem Carries.aside (hm : ∀ {p : Packet}, p.Mute → V p) (h : x.Carries S V) (ha : Aside x y) : y.Carries S V where
  paths := by
    rw [ha.table]
    exact h.paths
  sent := by
    obtain ⟨acts, hlog, hquiet⟩ := ha.log
    intro p d hp ht
    rw [hlog] at hp
    rcases List.mem_append.1 hp with hp | hp
    · exact h.sent p d hp ht
    · have hplain := hquiet _ hp ht
      refine hm ?_
      unfold Packet.Mute
      split <;> simp_all
  queue := ha.queue h.queue

theorem drain_keeps {body : Exec → Packet → Result} (hb : ∀ (y : Exec) q, q.Data → y.Keeps S V (body y q)) (x : Exec) :
    x.Keeps S V (x.drain env d body) := by
  have key : ∀ n (x : Exec), x.Keeps S V (drainLoop env d body n x) := by
    intro n
    induction n with
    | zero => exact fun x => .ok id
    | succ n ih =>
      intro x hx
      have ha := Aside.deque env x d
      unfold drainLoop
      split
      · rename_i y hy
        rw [hy] at ha
        exact Ends.ok (hx.aside hl.mute ha)
      · rename_i q y hy
        rw [hy] at ha
        exact (hb y q (hx.queue q (mem_of_deque hy).1)).bind (ih ·) (hx.aside hl.mute ha)
  exact key _ x

/-! ## `forward` -/

omit hl in
/-- What was put in an entry before an aside can be put there after it. -/
theorem aside_put {e₁ : RtEntry} (ha : Aside (x.put d e₁) y) : ∃ x₁, Aside x x₁ ∧ y = x₁.put d e₁ := by
  refine ⟨{ y with rtable := x.rtable }, { ha with table := rfl }, ?_⟩
  have htable : y.rtable = (x.put d e₁).rtable := ha.table
  show y = { y with rtable := (x.put d e₁).rtable }
  rw [← htable]

/-- The distrust branch, on an entry whose first path may be any. -/
theorem forwardDistrust_keeps {path : Path} (he : x.rtLookup d = some e) (hx : x.Carries S V) (e₁ : RtEntry)
    (hd : e₁.rtDst = d) (hp : (e₁.pathDelete path.nexthop).Holds S) (p : Packet) :
    Ends (Carries S V) ((x.put d e₁).forwardDistrust env d path p) := by
  unfold forwardDistrust downIfEmpty
  rw [rtLookup_put he hd]
  simp only
  obtain ⟨x₁, ha, hput⟩ := aside_put
    (Aside.foldl (reportDistrust_aside e₁.rtDst e₁.rtSeqno (fun _ => path.lasthop)) e₁.rtPclist (x.put d e₁))
  have he₁ : x₁.rtLookup d = some e := (rtLookup_congr ha.table d).trans he
  have hd' : (e₁.pathDelete path.nexthop).rtDst = d := (rtDst_pathDelete e₁ _).trans hd
  have hx₁ := hx.aside hl.mute ha
  rw [hput, put_rtModify he₁ hd]
  refine Ends.bind (P := fun a => a.1.Carries S V) (Ends.bind (P := fun _ => True) (fun _ _ => trivial) ?_) ?_
  · rintro b -
    refine Ends.ok ?_
    show (if b then _ else x₁.put d _ : Exec).Carries S V
    split
    · rw [put_rtModify he₁ hd']
      exact hx₁.put (hp.of_subset (RtEntry.rtDst_rtDown _ _) (RtEntry.rtDown_subset _ _))
    · exact hx₁.put hp
  · exact fun a h => Ends.ok ((h.distrust _ _ _).drop p _)

theorem forwardSend_keeps (d : NsAddr) (hp : p.ptype = .teaomdv → V { p with direction := .down }) (delay : ℚ) :
    x.Keeps S V (x.forwardSend env d p delay) := by
  intro hx
  unfold forwardSend
  simp only
  have h₁ := hx.aside hl.mute (countForward_aside env x p)
  have h₂ := h₁.rtModify d (f := fun rt => rt.modifyFind (fun path => { path with expire := env.now + activeRouteTimeout }))
    (fun e _ he => he.modifyFind (fun f hf => hl.expire (lt_active _) (he f (List.mem_of_mem_head? hf))))
  split
  · exact Ends.error _
  · refine Ends.ok (Carries.schedule ?_ hp _)
    split
    · exact h₂.rtModify d (f := fun rt => rt.setError true) (fun _ _ he => he)
    · exact h₂

/-- `forward` along an entry: a RREP or RREQ goes out as it is, but for the previous and the next hop. -/
theorem forward_some_keeps (hp : p.ptype = .teaomdv → ∀ e f q, x.rtLookup d = some e → e.pathFind = some f →
    q.body = p.body → q.prevHop = x.index → q.nextHop = f.nexthop → V q) (delay : ℚ) :
    x.Keeps S V (x.forward env (some d) p delay) := by
  intro hx
  unfold forward
  split
  · exact Ends.ok (hx.drop p _)
  split
  · exact Ends.ok (hx.dmux p)
  simp only
  unfold forwardRoute
  cases he : x.rtLookup d with
  | none => exact Ends.error _
  | some e =>
  simp only
  split
  · exact Ends.error _
  cases hfind : e.pathFind with
  | none => exact Ends.error _
  | some path =>
  simp only
  have h₁ := hx.rtModify d (f := fun rt => rt.pcInsert p.prevHop)
    (fun e _ he => he.of_subset (pcInsert_same e _).2.1 ((pcInsert_same e _).1 ▸ List.Subset.refl _))
  have h₂ := h₁.aside hl.mute (.nbEnsure env _ path.nexthop)
  have he₂ : ((x.rtModify d (fun rt => rt.pcInsert p.prevHop)).nbEnsure env path.nexthop).rtLookup d =
      some (e.pcInsert p.prevHop) :=
    (rtLookup_congr (nbEnsure_same ..).1 d).trans
      (rtLookup_rtModify he ((pcInsert_same e _).2.1.trans (rtDst_of_rtLookup he)))
  have hp₂ : (e.pcInsert p.prevHop).rtPathList.head? = some path := by rw [(pcInsert_same e _).1]; exact hfind
  have hi : ((x.rtModify d (fun rt => rt.pcInsert p.prevHop)).nbEnsure env path.nexthop).index = x.index :=
    (Aside.nbEnsure env _ path.nexthop).index
  generalize (x.rtModify d (fun rt => rt.pcInsert p.prevHop)).nbEnsure env path.nexthop = x₂ at h₂ he₂ hi ⊢
  generalize e.pcInsert p.prevHop = e₂ at he₂ hp₂
  split
  · rename_i hcbr
    split
    · rw [rtModify_eq_put he₂]
      have hdst : e₂.rtDst = d := rtDst_of_rtLookup he₂
      refine forwardDistrust_keeps hl he₂ h₂ (e₂.modifyFind _) hdst ?_ _
      obtain ⟨fs, hfs⟩ := List.head?_eq_some_iff.1 hp₂
      have hp₃ : (e₂.modifyFind (fun g => { g with FPT := min path.FPT (x₂.trustOf path.nexthop) })).rtPathList =
          { path with FPT := min path.FPT (x₂.trustOf path.nexthop) } :: fs := by
        unfold RtEntry.modifyFind
        rw [hfs]
        rfl
      rw [pathDelete_head hp₃]
      exact (h₂.paths e₂ (mem_of_rtLookup he₂)).of_subset rfl (hfs ▸ List.subset_cons_self ..)
    · rename_i ht
      refine forwardSend_keeps hl d (fun h => by simp [hcbr] at h) delay (h₂.rtModify d (fun e _ he => he.modifyFind ?_))
      exact fun f hf => hl.lower _ (he f (List.mem_of_mem_head? hf)) ht
  · refine forwardSend_keeps hl d ?_ delay h₂
    exact fun h => hp h e path _ he hfind rfl hi rfl

omit hl in
theorem forward_none_keeps (hp : p.ptype = .teaomdv → ∀ q, q.body = p.body → V q) (delay : ℚ) :
    x.Keeps S V (x.forward env none p delay) := by
  intro hx
  unfold forward
  simp only
  split
  · exact Ends.ok (hx.drop p _)
  split
  · exact Ends.ok (hx.dmux p)
  split
  · refine Ends.ok (hx.schedule ?_ _)
    exact fun h => hp h _ rfl
  · exact Ends.error _

/-- Sending off what is buffered. -/
theorem flush_keeps (d : NsAddr) : x.Keeps S V (x.flush env d) := by
  intro hx
  unfold flush
  split
  · exact Ends.error _
  split
  · refine drain_keeps hl (fun y q hq hy => ?_) _ (hx.rtModify d (fun _ _ he => he))
    unfold flushOne
    split
    · exact Ends.error _
    split
    · exact forward_some_keeps hl (fun h => absurd h hq.1) _ hy
    · exact Ends.ok hy
  · exact Ends.ok hx

/-! ## Requests -/

omit hl in
theorem rtEnsure_keeps (d : NsAddr) : x.Keeps S V (x.rtEnsure env d) := by
  intro hx
  unfold rtEnsure rtAdd
  split
  · split
    · exact Ends.error _
    · refine Ends.ok ⟨fun e he => ?_, hx.sent, hx.queue⟩
      rcases List.mem_cons.1 he with rfl | he
      · exact fun f hf => nomatch hf
      · exact hx.paths e he
  · exact Ends.ok hx

omit hl in
/-- An update brings one path, or changes the path named again. -/
theorem Noted.carries {inf : Nat} {a : Advert} {u : Update inf a} {rt : RtEntry} {goes : Bool} (h : Noted u x rt y goes)
    (hnew : ∀ b, S a.dst (u.path b)) (hold : ∀ f, S a.dst f → f.nexthop = a.sender → S a.dst (u.refresh f))
    (hx : x.Carries S V) : y.Carries S V := by
  cases h with
  | renew =>
    refine hx.rtModify a.dst (fun e he _ f hf => ?_)
    have hd : (u.renew e).rtDst = a.dst := (congrArg Route.dst (u.renewed e)).trans (rtDst_of_rtLookup he)
    rw [u.renewedPaths] at hf
    rw [hd, List.mem_singleton.1 hf]
    exact hnew true
  | refresh =>
    refine hx.rtModify a.dst (fun e he hh => hh.modifyDisjoint _ _ ?_)
    rw [rtDst_of_rtLookup he]
    exact hold
  | extend =>
    refine hx.rtModify a.dst (fun e he hh f hf => ?_)
    have hd : (u.extend e).rtDst = a.dst := (congrArg Route.dst (u.extended e)).trans (rtDst_of_rtLookup he)
    rw [u.extendedPaths] at hf
    rw [hd]
    rcases List.mem_append.1 hf with hf | hf
    · exact rtDst_of_rtLookup he ▸ hh f hf
    · rw [List.mem_singleton.1 hf]
      exact hnew false
  | keep => exact hx

section Request

variable {rq : Rreq} (hpath : ∀ f : Path, f.nexthop = p.saddr → f.FPT = rq.FPT → S rq.rqSrc f)
  (hreply : ∀ (q : Packet) rp, q.body = .rrep rp → rp.RT = trustThreshold → q.prevHop = rp.rpSrc → V q)
  (hrelay : ∀ (q : Packet) rq', q.body = .rreq rq' → rq'.FPT = rq.FPT → rq'.RPT = rq.RPT → rq'.RT = rq.RT → V q)

include hpath in
theorem reverseRoute_keeps (hx : x.Carries S V) : Ends (fun a => a.1.Carries S V) (x.reverseRoute env p rq) := by
  refine Ends.mono (reverseRoute_noted env x p rq).ends (fun a ha => ?_)
  obtain ⟨rt, -, hn⟩ := ha
  exact hn.carries (fun _ => hpath _ rfl rfl) (fun f hf _ => hl.expire (lt_max_of_lt_right (lt_reverse _)) hf) hx

include hreply

theorem replyAsDestination_carries (hx : x.Carries S V) : (x.replyAsDestination env p rq).Carries S V := by
  unfold replyAsDestination sendReply
  have h₁ : ({ x with seqno := replySeqno x.seqno rq.rqDstSeqno } : Exec).Carries S V := ⟨hx.paths, hx.sent, hx.queue⟩
  have h₂ := h₁.aside hl.mute (Aside.nbEnsure env _ p.saddr)
  refine (h₂.alloc.schedule ?_ _).free p
  exact fun _ => hreply _ _ rfl rfl rfl

omit hl in
theorem replyFromTable_keeps (hl : LawfulAt env.now S V) {rt : RtEntry} {b : Bool} :
    x.Keeps S V (x.replyFromTable env p rq rt b) := by
  intro hx
  unfold replyFromTable
  split
  · exact Ends.error _
  split
  · split
    · exact Ends.error _
    · have h₁ := hx.aside hl.mute (Aside.idMark x rq.rqSrc rq.rqBcastId)
      have h₂ := h₁.keep rq.rqDst (f := fun rt => (rt.advertise env.inf).setError true) (fun e => rtDst_advertise e _)
        (fun e => RtEntry.rtPathList_advertise e _ ▸ List.Subset.refl _)
      refine Ends.ok ((h₂.alloc.schedule ?_ _).free p)
      exact fun _ => hreply _ _ rfl rfl rfl
  · exact Ends.ok (hx.free p)

omit hreply hl in
include hrelay in
theorem relayRequest_keeps (rt : Option RtEntry) (kill : Bool) : x.Keeps S V (x.relayRequest env p rq rt kill) := by
  intro hx
  unfold relayRequest
  split
  · exact Ends.ok (hx.free p)
  split
  · exact Ends.error _
  simp only
  split
  · exact Ends.error _
  · refine forward_none_keeps (fun _ q hb => ?_) _ (hx.keep rq.rqSrc (f := fun rt => rt.advertise env.inf)
      (fun e => rtDst_advertise e _) (fun e => RtEntry.rtPathList_advertise e _ ▸ List.Subset.refl _))
    exact hrelay q _ hb rfl rfl rfl

include hrelay

theorem answerRequest_keeps (kill b : Bool) : x.Keeps S V (x.answerRequest env p rq kill b) := by
  intro hx
  unfold answerRequest
  split
  · exact Ends.ok (replyAsDestination_carries hl hreply hx)
  split
  · exact relayRequest_keeps hrelay _ _ hx
  split
  · exact replyFromTable_keeps hreply hl hx
  · exact relayRequest_keeps hrelay _ _ hx

end Request

/-- **What `recvRequest` stores and sends**: a path of the request's FPT, replies, and the request as lowered. -/
theorem recvRequest_keeps {rq : Rreq} (hpath : ∀ f : Path, f.nexthop = p.saddr → f.FPT = rq.FPT → S rq.rqSrc f)
    (hreply : ∀ (q : Packet) rp, q.body = .rrep rp → rp.RT = trustThreshold → q.prevHop = rp.rpSrc → V q)
    (hrelay : ∀ (q : Packet) rq', q.body = .rreq rq' → rq'.FPT = rq.FPT →
      rq'.RPT = (rq.lowerReverse (x.nbLookup p.saddr)).RPT → rq'.RT = rq.RT → V q) :
    x.Keeps S V (x.recvRequest env p rq) := by
  intro hx
  unfold recvRequest
  split
  · exact Ends.ok (hx.free p)
  split
  · exact Ends.ok (hx.free p)
  obtain ⟨h1, h2, h3, h4⟩ : (x.seenRequest p rq).rqSrc = rq.rqSrc ∧ (x.seenRequest p rq).FPT = rq.FPT ∧
      (x.seenRequest p rq).RPT = (rq.lowerReverse (x.nbLookup p.saddr)).RPT ∧ (x.seenRequest p rq).RT = rq.RT := by
    rw [seenRequest_eq]
    exact ⟨rfl, rfl, rfl, rfl⟩
  generalize x.seenRequest p rq = rq' at h1 h2 h3 h4
  rw [← h1, ← h2] at hpath
  rw [← h2, ← h3, ← h4] at hrelay
  simp only
  have hprep : x.Keeps S V (x.prepareRequest env rq') :=
    fun hx => rtEnsure_keeps _ (hx.aside hl.mute (prepareRequest_aside env x rq'))
  refine Ends.bind (hprep hx) (fun y hy => Ends.bind (reverseRoute_keeps hl hpath hy) (fun a ha => ?_))
  obtain ⟨z, b⟩ := a
  cases b with
  | none => exact Ends.ok (ha.free p)
  | some b => exact Keeps.bind (flush_keeps hl _) (fun w => answerRequest_keeps hl hreply hrelay _ b) ha

/-! ## The relay of a reply -/

/-- The next hop of the first path to `d`. -/
def firstHop (x : Exec) (d : NsAddr) : Option NsAddr := ((x.rtLookup d).bind RtEntry.pathFind).map (·.nexthop)

omit hl in
theorem firstHop_rtModify (x : Exec) (d d' : NsAddr) {f : RtEntry → RtEntry} (hd : ∀ e, (f e).rtDst = e.rtDst)
    (hf : ∀ e, (f e).pathFind.map (·.nexthop) = e.pathFind.map (·.nexthop)) :
    (x.rtModify d f).firstHop d' = x.firstHop d' := by
  unfold firstHop
  by_cases hne : d' = d
  · subst hne
    cases he : x.rtLookup d' with
    | none => rw [rtModify_of_none he, he]
    | some e =>
      rw [rtLookup_rtModify he ((hd e).trans (rtDst_of_rtLookup he))]
      exact hf e
  · rw [rtLookup_rtModify_ne hne hd]

omit hl in
theorem pathFind_advertise (e : RtEntry) (inf : Nat) : (e.advertise inf).pathFind = e.pathFind := by
  unfold RtEntry.advertise
  split <;> rfl

/-- **What `relayReply` sends**: the reply, its RPT lowered by the neighbour it goes to. -/
theorem relayReply_keeps {rp : Rrep} (hrelay : ∀ (q : Packet) rp', q.body = .rrep rp' → rp'.FPT = rp.FPT →
      rp'.RT = rp.RT → rp'.RPT = (rp.lowerReverse (x.nbLookup q.nextHop)).RPT → q.prevHop = rp'.rpSrc →
      rp'.rpLifetime = rp.rpLifetime → V q) :
    x.Keeps S V (x.relayReply env p rp) := by
  intro hx
  unfold relayReply
  split
  swap
  · exact Ends.ok (hx.free p)
  rename_i rt0 b hrt0 _
  split
  · exact Ends.ok (hx.free p)
  cases hfind : rt0.pathFind with
  | none => exact Ends.error _
  | some reversePath =>
  obtain ⟨t, hlow⟩ := lowerReverse_eq rp ((x.idMark p.daddr rp.rpBcastId).nbLookup reversePath.nexthop)
  have hRPT : (rp.lowerReverse (x.nbLookup reversePath.nexthop)).RPT = t := congrArg Rrep.RPT hlow
  simp only [hlow]
  split
  · exact Ends.error _
  split
  · exact Ends.error _
  have h₁ := hx.aside hl.mute (Aside.idMark x p.daddr rp.rpBcastId)
  have h₂ := h₁.keep rp.rpDst (f := fun rt => rt.advertise env.inf) (fun e => rtDst_advertise e _)
    (fun e => RtEntry.rtPathList_advertise e _ ▸ List.Subset.refl _)
  have h₃ := h₂.rtModify p.daddr (f := fun rt0 => rt0.modifyFind (fun path =>
      { path with expire := env.now + activeRouteTimeout }))
    (fun e _ he => he.modifyFind (fun f hf => hl.expire (lt_active _) (he f (List.mem_of_mem_head? hf))))
  have h₄ := h₃.keep rp.rpDst (f := fun rt => rt.setError true) (fun _ => rfl) (fun _ => List.Subset.refl _)
  refine forward_some_keeps hl (fun _ e f q he hf hb hprev hnext => ?_) _ h₄
  refine hrelay q _ hb rfl rfl ?_ hprev rfl
  -- none of the writes changes the next hop of the first path
  have hfirst : firstHop _ p.daddr = x.firstHop p.daddr := firstHop_rtModify (x.idMark p.daddr rp.rpBcastId) rp.rpDst
    p.daddr (f := fun rt => rt.advertise env.inf) (fun e => rtDst_advertise e _) (fun e => by rw [pathFind_advertise])
  rw [← firstHop_rtModify _ p.daddr p.daddr (f := fun rt0 => rt0.modifyFind (fun path =>
      { path with expire := env.now + activeRouteTimeout })) (fun _ => rfl) (fun e => ?_),
    ← firstHop_rtModify _ rp.rpDst p.daddr (f := fun rt => rt.setError true) (fun _ => rfl) (fun _ => rfl)] at hfirst
  · unfold firstHop at hfirst
    rw [he, hrt0] at hfirst
    simp only [Option.bind_some, hf, hfind, Option.map_some, Option.some.injEq] at hfirst
    rw [hnext, hfirst]
    exact hRPT.symm
  · unfold RtEntry.pathFind RtEntry.modifyFind
    cases e.rtPathList <;> rfl

end Laws

end Exec

end TeAomdv

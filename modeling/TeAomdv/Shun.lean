import TeAomdv.Identity
import TeAomdv.LinkFailure
import TeAomdv.Weights
import TeAomdv.Distrust
/-!
# Shun — nothing is handed to a neighbour that is distrusted

`forward` tests the trust of the next hop before a CBR packet goes out.  A handler changes that trust only in a trust
round, which sends no data, and forgets a neighbour only after it has cut every path by way of it.  So what a handler sends,
it sends by way of neighbours that the node did not distrust when the handler was called (`shuns_of_reach`).
-/
namespace TeAomdv

open Fallible (Ends)

namespace Exec

variable {env : Env} {inp : Input} {x y z : Exec} {n id : NsAddr} {P : ℚ → Prop}

/-- No CBR packet but a broadcast was handed over for `n`. -/
def Shuns (n : NsAddr) (x : Exec) : Prop := ∀ p ∈ x.sent, p.ptype = .cbr → p.daddr = ipBroadcast ∨ p.nextHop ≠ n

/-- `n` is a neighbour, with such a trust. -/
def Rates (n : NsAddr) (P : ℚ → Prop) (x : Exec) : Prop := ∃ nb, x.nbLookup n = some nb ∧ P nb.tv

/-- `n` is a neighbour that is not trusted. -/
def Distrusts (n : NsAddr) (x : Exec) : Prop := x.Rates n (· < trustThreshold)

/-- No entry that is up has a path by way of `n`. -/
def Avoids (n : NsAddr) (x : Exec) : Prop :=
  ∀ d e, x.rtLookup d = some e → e.rtFlags = .up → ∀ f ∈ e.rtPathList, f.nexthop ≠ n

/-! ## What is sent -/

theorem Shuns.congr (hx : x.Shuns n) (h : y.sent = x.sent) : y.Shuns n := by
  unfold Shuns
  rw [h]
  exact hx

theorem Shuns.schedule {p : Packet} (hx : x.Shuns n) (hp : p.ptype = .cbr → p.daddr = ipBroadcast ∨ p.nextHop ≠ n) (t : Delay) :
    (x.schedule p t).Shuns n := by
  unfold Shuns
  rw [sent_schedule]
  intro q hq
  rcases List.mem_append.1 hq with hq | hq
  · exact hx q hq
  · exact List.mem_singleton.1 hq ▸ hp

/-- A packet of the protocol itself. -/
theorem Shuns.own {p : Packet} (hx : x.Shuns n) (hp : p.ptype = .teaomdv) (t : Delay) : (x.schedule p t).Shuns n := by
  refine hx.schedule (fun hc => ?_) t
  rw [hp] at hc
  cases hc

/-- What is sent for `n` is data, and is vouched for. -/
theorem Shuns.send {p : Packet} (hx : x.Shuns n) (hp : Sends inp x p) (hv : x.Vouches p → p.nextHop ≠ n) (t : Delay) :
    (x.schedule p t).Shuns n := by
  cases hp with
  | news _ ht | answer _ _ _ ht | request _ _ _ ht | reply _ _ _ ht => exact hx.own ht t
  | data _ hd => exact hx.schedule (fun hc => (hd hc).imp_right hv) t

theorem Shuns.stroke (hx : x.Shuns n) (hs : Stroke env inp x y) (hv : ∀ p, x.Vouches p → p.nextHop ≠ n) : y.Shuns n := by
  cases hs with
  | request _ hy =>
    rcases sendRequest_numbers hy with ⟨-, hsent⟩ | ⟨p, rq, -, hsent, hreq, -⟩
    · exact hx.congr hsent
    · unfold Shuns
      rw [hsent]
      intro q hq hc
      rcases List.mem_append.1 hq with hq | hq
      · exact hx q hq hc
      · rw [List.mem_singleton.1 hq, (Packet.request_eq_some.1 hreq).1] at hc
        cases hc
  | send hp => exact hx.send hp (hv _) _
  | hold => exact hx.congr (sent_enque env x _)
  | take => exact hx.congr (sent_deque env x _)
  | act ha => exact hx.congr (sent_act ha)
  | mark | raise | add | meet | hear | note | judge | part | own | cache | answered | expire => exact hx

/-! ## A neighbour that stays -/

theorem Rates.congr (hx : x.Rates n P) (h : y.nbhead = x.nbhead) : y.Rates n P := by
  unfold Rates nbLookup
  rw [h]
  exact hx

theorem Rates.nbModify (hx : x.Rates n P) (id : NsAddr) {f : Neighbor → Neighbor} (ha : ∀ nb, (f nb).nbAddr = nb.nbAddr)
    (hf : ∀ nb, (f nb).tv = nb.tv) : (x.nbModify id f).Rates n P := by
  obtain ⟨nb, hnb, ht⟩ := hx
  have hlook := nbLookup_nbModify x id ha n
  rw [hnb] at hlook
  split at hlook
  · exact ⟨f nb, hlook, (hf nb).symm ▸ ht⟩
  · exact ⟨nb, hlook, ht⟩

theorem Rates.stroke (hx : x.Rates n P) (hs : Stroke env inp x y) (hf : ¬ inp.Forgets) (ht : inp ≠ .timer .trust) :
    y.Rates n P := by
  cases hs with
  | @meet id hn =>
    obtain ⟨nb, hnb, htv⟩ := hx
    have hne : id ≠ n := by
      rintro rfl
      rw [hn] at hnb
      cases hnb
    have hlook : nbLookup _ n = if id = n then _ else x.nbLookup n :=
      nbLookup_meet x (Neighbor.new id env.now (env.now + helloInterval * allowedHelloLoss)) n
    rw [if_neg hne] at hlook
    exact ⟨nb, hlook.trans hnb, htv⟩
  | hear _ hr => exact hx.nbModify _ (fun nb => (hr nb).addr) (fun nb => (hr nb).tv)
  | note hr => exact hx.nbModify _ (fun nb => (hr nb).addr) (fun nb => (hr nb).tv)
  | judge h => exact absurd h ht
  | part h => exact absurd h hf
  | request _ hy =>
    obtain ⟨rt, -, hsought⟩ := exists_of_sendRequest hy
    exact hx.congr hsought.nbs
  | hold => exact hx.congr (Quiet.enque env _ _).nbs
  | take => exact hx.congr (Quiet.deque env _ _).nbs
  | mark | raise | add | own | cache | answered | expire | send | act => exact hx

theorem strokes_rates (h : Strokes env inp x y) (hf : ¬ inp.Forgets) (ht : inp ≠ .timer .trust) (hx : x.Rates n P) :
    y.Rates n P :=
  h.invariant (P := Rates n P) (fun _ _ hz hs => hz.stroke hs hf ht) hx

theorem Distrusts.not_vouches (hx : x.Distrusts n) {p : Packet} (hv : x.Vouches p) : p.nextHop ≠ n := by
  rintro rfl
  obtain ⟨nb, hnb, hlow⟩ := hx
  have htrust := hv.trust
  rw [trustOf_eq, hnb] at htrust
  exact absurd htrust (not_le.2 hlow)

/-- **As long as no neighbour is judged or forgotten, nothing is sent by way of one that is not trusted.** -/
theorem strokes_shuns (h : Strokes env inp x y) (hf : ¬ inp.Forgets) (ht : inp ≠ .timer .trust) (hd : x.Distrusts n)
    (hx : x.Shuns n) : y.Distrusts n ∧ y.Shuns n :=
  h.invariant (P := fun z => z.Distrusts n ∧ z.Shuns n)
    (fun _ _ hz hs => ⟨Rates.stroke hz.1 hs hf ht, hz.2.stroke hs (fun _ hv => hz.1.not_vouches hv)⟩) ⟨hd, hx⟩

/-! ## A neighbour that is forgotten -/

theorem Avoids.not_vouches (hx : x.Avoids n) {p : Packet} (hv : x.Vouches p) : p.nextHop ≠ n := by
  obtain ⟨d, e, f, he, hup, hf, hn, -⟩ := hv.entry
  rw [← hn]
  exact hx d e he hup f (List.mem_of_head? hf)

theorem Avoids.stroke (hx : x.Avoids n) (hs : Stroke env inp x y) (hd : ∀ d, ¬ inp.Advertises d) : y.Avoids n := by
  intro d e' he' hup f hf
  have ht := stroke_touch hs d
  have hxd := hx d
  rw [he'] at ht
  generalize x.rtLookup d = o at ht hxd
  cases ht with
  | keep => exact hxd e' rfl hup f hf
  | @mark e _ hm =>
    obtain ⟨g, hg, heq⟩ := List.mem_map.1 (hm.nexthops (List.mem_map_of_mem hf))
    exact heq ▸ hxd e rfl (hm.up hup) g hg
  | raise had => exact absurd had (hd d)
  | add => cases hf
  | @request e =>
    rw [rtFlags_sought] at hup
    rw [rtPathList_sought] at hf
    exact hxd e rfl hup f hf

theorem strokes_avoid (h : Strokes env inp x y) (hd : ∀ d, ¬ inp.Advertises d) (hx : x.Avoids n) (hs : x.Shuns n) :
    y.Avoids n ∧ y.Shuns n :=
  h.invariant (P := fun z => z.Avoids n ∧ z.Shuns n)
    (fun _ _ hz hs => ⟨hz.1.stroke hs hd, hz.2.stroke hs (fun _ hv => hz.1.not_vouches hv)⟩) ⟨hx, hs⟩

theorem linkFailed_shuns (hx : x.Shuns n) (env : Env) (id : NsAddr) : (x.linkFailed env id).Shuns n := by
  have halloc : x.alloc.Shuns n := hx.congr (sent_alloc x)
  unfold linkFailed
  simp only
  split
  · exact Shuns.own (x := { x.alloc with rtable := x.rtable.map (RtEntry.cut env.inf id) }) halloc rfl _
  · exact Shuns.congr (x := { x.alloc with rtable := x.rtable.map (RtEntry.cut env.inf id) }) halloc (sent_free _ _)

theorem Avoids.of_severed (hx : x.Severed n) : x.Avoids n := fun _ e he hup f hf => hx.paths e (mem_of_rtLookup he) hup f hf

/-- `nb_delete` up to the link failure. -/
def unlinked (x : Exec) (id : NsAddr) : Exec :=
  { x with seqno := u32 (x.seqno + 2), nbhead := x.nbhead.eraseP (fun nb => nb.nbAddr = id) }

theorem rep_unlinked (hx : x.toAgent.Rep) (id : NsAddr) : (x.unlinked id).toAgent.Rep :=
  ⟨hx.dsts, hx.entries, Keyed.nodup_eraseP hx.nbs, hx.ids, hx.room⟩

theorem nbDelete_salvages (ifq : NsAddr → List Packet) (hx : x.toAgent.Rep) (h : x.nbDelete env ifq id = .ok y) :
    (ifq id).foldlM (salvage env) ((x.unlinked id).linkFailed env id) = .ok y := by
  unfold nbDelete at h
  simp only at h
  split at h
  · cases h
  obtain ⟨w, hw, h⟩ := Fallible.bind_eq_ok h
  obtain ⟨rfl, -⟩ := (handleLinkFailure_outcome (rep_unlinked hx id)).ends w hw
  exact h

/-- The neighbour that is deleted, or was severed before, is severed when the salvaging begins. -/
theorem linkFailed_severed (hx : x.toAgent.Rep) (env : Env) (h : n = id ∨ x.Severed n) :
    ((x.unlinked id).linkFailed env id).Severed n := by
  have hz := rep_unlinked hx id
  rcases h with rfl | h
  · refine Severed.of_linkFailed (fun e he => (RtEntry.cut_cutOff (hz.entries e he) env.inf n).clear) (fun nb hm => ?_)
    exact Keyed.key_ne_of_mem_eraseP Neighbor.nbAddr hx.nbs hm
  · have hs : (x.unlinked id).Severed n := ⟨h.paths, fun nb hm => h.neighbors nb (List.mem_of_mem_eraseP hm)⟩
    exact hs.linkFailed hz env id

/-- What the salvaging of `nb_delete` begins with: the neighbour and its trust, or no path by way of it. -/
theorem nbDelete_fate (ifq : NsAddr → List Packet) (hrep : x.toAgent.Rep) (hx : x.Rates n P ∨ x.Severed n) (id : NsAddr) :
    Ends (fun y => ∃ z, Strokes env (.timer .hello) z y ∧ (x.Shuns n → z.Shuns n) ∧
      (z.Severed n ∧ y.Severed n ∨ z.Rates n P)) (x.nbDelete env ifq id) := by
  intro y hy
  have hs : Strokes env (.timer .hello) _ y := salvages_strokes (ifq id) _ y (nbDelete_salvages ifq hrep hy)
  refine ⟨_, hs, fun h => linkFailed_shuns (x := x.unlinked id) h env id, ?_⟩
  by_cases hsev : n = id ∨ x.Severed n
  · refine .inl ⟨linkFailed_severed hrep env hsev, ?_⟩
    rcases hsev with rfl | hsev
    · exact nbDelete_severs hrep n y hy
    · exact hsev.nbDelete hrep id y hy
  · obtain ⟨hne, hnot⟩ := not_or.1 hsev
    obtain ⟨nb, hnb, htv⟩ := hx.resolve_right hnot
    have hz : (x.unlinked id).Rates n P := ⟨nb, (nbLookup_part x hne).trans hnb, htv⟩
    exact .inr (hz.congr (nbhead_linkFailed env _ id))

/-- A HELLO timer forgets nobody and advertises nothing. -/
theorem not_forgets_hello : ¬ (Input.timer .hello).Forgets := by
  rintro ⟨_, ⟨⟩⟩

theorem not_advertises_hello (d : NsAddr) : ¬ (Input.timer .hello).Advertises d := by
  rintro ⟨_, ⟨⟩, -⟩

theorem nbDelete_rates (ifq : NsAddr → List Packet) (hrep : x.toAgent.Rep) (hx : x.Rates n P ∨ x.Severed n) (id : NsAddr) :
    Ends (fun y => y.Rates n P ∨ y.Severed n) (x.nbDelete env ifq id) := by
  intro y hy
  obtain ⟨z, hs, -, hz⟩ := nbDelete_fate ifq hrep hx id y hy
  rcases hz with ⟨-, hy⟩ | hz
  · exact .inr hy
  · exact .inl (strokes_rates hs not_forgets_hello (by nofun) hz)

theorem nbDelete_shuns (ifq : NsAddr → List Packet) (hrep : x.toAgent.Rep) (hx : x.Distrusts n ∨ x.Severed n)
    (hsh : x.Shuns n) (id : NsAddr) : Ends (Shuns n) (x.nbDelete env ifq id) := by
  intro y hy
  obtain ⟨z, hs, hsent, hz⟩ := nbDelete_fate ifq hrep hx id y hy
  rcases hz with ⟨hz, -⟩ | hz
  · exact (strokes_avoid hs not_advertises_hello (.of_severed hz) (hsent hsh)).2
  · exact (strokes_shuns hs not_forgets_hello (by nofun) hz (hsent hsh)).2

theorem nbPurge_rates (ifq : NsAddr → List Packet) (hrep : x.toAgent.Rep) (hx : x.Rates n P ∨ x.Severed n) :
    Ends (fun y => y.toAgent.Rep ∧ (y.Rates n P ∨ y.Severed n)) (x.nbPurge env ifq) := by
  refine Ends.foldlM (fun z nb _ hz => ?_) ⟨hrep, hx⟩
  split
  · exact fun y hy => ⟨nbDelete_rep hz.1 nb.nbAddr y hy, nbDelete_rates ifq hz.1 hz.2 nb.nbAddr y hy⟩
  · exact Ends.ok hz

theorem nbPurge_shuns (ifq : NsAddr → List Packet) (hrep : x.toAgent.Rep) (hx : x.Distrusts n ∨ x.Severed n) (hsh : x.Shuns n) :
    Ends (Shuns n) (x.nbPurge env ifq) := by
  have hend : Ends (fun y => y.toAgent.Rep ∧ (y.Distrusts n ∨ y.Severed n) ∧ y.Shuns n) (x.nbPurge env ifq) := by
    refine Ends.foldlM (fun z nb _ hz => ?_) ⟨hrep, hx, hsh⟩
    obtain ⟨hzrep, hzx, hzsh⟩ := hz
    split
    · exact fun y hy => ⟨nbDelete_rep hzrep nb.nbAddr y hy, nbDelete_rates ifq hzrep hzx nb.nbAddr y hy,
        nbDelete_shuns ifq hzrep hzx hzsh nb.nbAddr y hy⟩
    · exact Ends.ok ⟨hzrep, hzx, hzsh⟩
  exact Ends.mono hend (fun y hy => hy.2.2)

/-! ## A trust round -/

/-- A trust round sends no data. -/
theorem setTrust_shuns (hx : x.Shuns n) (env : Env) : (x.setTrust env).Shuns n := by
  have hentry : ∀ (b : Batch) (id : NsAddr), b.x.Shuns n → (trustEntry env b id).x.Shuns n := by
    intro b id hb
    have hmod : (b.x.nbModify id (fun nb => (nb.setTV env.now).tvInit env.now)).Shuns n := hb
    unfold trustEntry
    simp only
    split
    · exact hb
    split
    · exact (hmod.own rfl _).congr (sent_alloc _)
    · exact hmod
  have loop : ∀ (l : List NsAddr) (b : Batch), b.x.Shuns n → (l.foldl (trustEntry env) b).x.Shuns n := by
    intro l
    induction l with
    | nil => exact fun _ h => h
    | cons id l ih => exact fun b h => ih _ (hentry b id h)
  have h1 := loop (x.nbhead.map (·.nbAddr)) ⟨x.alloc, x.blank, [], 0⟩ (hx.congr (sent_alloc x))
  unfold setTrust
  simp only
  split
  · exact h1.own rfl _
  · exact h1

/-- **Nothing is handed to a neighbour that is not trusted when the handler is called.** -/
theorem handle_shuns (hrep : x.toAgent.Rep) (hq : x.DataQueue) (hd : x.Distrusts n) (hx : x.Shuns n) (inp : Input) :
    Ends (Shuns n) (x.handle env inp) := by
  by_cases hf : inp.Forgets
  · obtain ⟨ifq, rfl⟩ := hf
    exact nbPurge_shuns ifq hrep (.inl hd) hx
  by_cases ht : inp = .timer .trust
  · subst ht
    exact Ends.ok (setTrust_shuns hx env)
  · exact fun y hy => (strokes_shuns (handle_strokes inp hq y hy) hf ht hd hx).2

end Exec

namespace Agent

variable {id : NsAddr} {a : Agent}

/-- **CBR packets go to trusted neighbours**: one that a call hands over to a neighbour the node has goes to a trusted one. -/
theorem shuns_of_reach (h : Reach id a) {c : Call} {x : Exec} (hx : (a.exec c.heap).handle c.env c.inp = .ok x) {p : Packet}
    (hp : p ∈ x.sent) (hc : p.ptype = .cbr) (hd : p.daddr ≠ ipBroadcast) {nb : Neighbor}
    (hnb : (a.exec c.heap).nbLookup p.nextHop = some nb) : trustThreshold ≤ nb.tv := by
  by_contra hlow
  have htidy := tidy_of_reach h
  have hshuns : (a.exec c.heap).Shuns p.nextHop := fun _ hm => absurd hm List.not_mem_nil
  rcases Exec.handle_shuns (x := a.exec c.heap) htidy.rep htidy.data ⟨nb, hnb, not_le.1 hlow⟩ hshuns c.inp x hx p hp hc with hb | hne
  · exact hd hb
  · exact hne rfl

/-- The packet that node 3 has node 5 pass on to 9. -/
def passedOn : Call := ⟨{ inf := 65535, now := 1 }, 3, .recv { ptr := 2, ptype := .cbr, saddr := 3, daddr := 9, ttl := 10, prevHop := 3 }⟩

theorem shuns_passedOn : ∃ a x p nb, Runs.replay call [helloOf 2, requestHeard 2 9 1] (new 5) = some a ∧
    (a.exec 3).handle passedOn.env passedOn.inp = .ok x ∧ p ∈ x.sent ∧ p.ptype = .cbr ∧ p.daddr = 9 ∧
      (a.exec 3).nbLookup p.nextHop = some nb ∧ trustThreshold ≤ nb.tv := by
  obtain ⟨a, ha, hr, hfin⟩ := Runs.Reaches.of_obeys (fun _ _ => true)
    (fun a : Agent => ((a.exec 3).handle passedOn.env passedOn.inp).toOption.any (fun x => x.sent.any (fun p =>
      decide (p.ptype = .cbr ∧ p.daddr = 9 ∧ ((a.exec 3).nbLookup p.nextHop).isSome))))
    (fun _ _ _ => trivial) [helloOf 2, requestHeard 2 9 1] (.init : Reach 5 (new 5)) (by decide +kernel)
  obtain ⟨x, hx, hany⟩ := Fallible.any_toOption.1 hfin
  obtain ⟨p, hp, hpass⟩ := List.any_eq_true.1 hany
  obtain ⟨hc, hd, hnb⟩ := of_decide_eq_true hpass
  obtain ⟨nb, hnb⟩ := Option.isSome_iff_exists.1 hnb
  have hne : p.daddr ≠ ipBroadcast := by
    rw [hd]
    decide
  exact ⟨a, x, p, nb, ha, hx, hp, hc, hd, hnb, shuns_of_reach hr (c := passedOn) hx hp hc hne hnb⟩

end Agent

end TeAomdv

import TeAomdv.Told
/-!
# Advertised — no hop count given away understates

A live entry's hop count, once frozen, changes only with its number, and bounds its paths before and after
(`Route.Capped`, `Route.Frozen`).  A RREQ or RREP carries it in 8 bits: it understates just if an entry is told of that has
256 hops (`candid_iff`, `not_candid_requestFrom`).
-/
namespace TeAomdv

open Exec (Trace)
open Fallible (Ends)

/-! ## The hop count of an entry -/

/-- A live entry advertises nothing yet, or no less than the length of any of its paths; no length is above 256. -/
structure Route.Capped (inf : Nat) (r : Route) : Prop where
  below : r.flags = .up → ∀ f ∈ r.hops, f.hopcount ≤ r.adv
  short : ∀ f ∈ r.hops, 0 < f.hopcount ∧ f.hopcount < 257
  frozen : r.flags = .up → r.adv = inf ∨ r.adv < 257

namespace Route.Capped

variable {inf : Nat} {maxPaths : Int} {h : Heard} {r r' : Route}

theorem fall (r : Route) (inf s : Nat) : (r.fall inf s).Capped inf where
  below := nofun
  short := fun _ hf => nomatch hf
  frozen := nofun

theorem left (hr : r.Capped inf) {hs : List Hop} (hsub : hs.Sublist r.hops) : (r.left hs).Capped inf :=
  ⟨fun hup f hf => hr.below hup f (hsub.subset hf), fun f hf => hr.short f (hsub.subset hf), hr.frozen⟩

/-- The number of the entry does not matter. -/
theorem congr (hr : r.Capped inf) (hf : r'.flags = r.flags) (ha : r'.adv = r.adv) (hh : r'.hops = r.hops) :
    r'.Capped inf := by
  constructor
  · rw [hf, ha, hh]
    exact hr.below
  · rw [hh]
    exact hr.short
  · rw [hf, ha]
    exact hr.frozen

theorem extend (hr : r.Capped inf) {a : Advert} (ha : a.hops < 256) (hlt : a.hops < r.adv) :
    Route.Capped inf { r with num := r.num + 1, hops := r.hops ++ [a.hop false] } := by
  refine ⟨fun hup f hf => ?_, fun f hf => ?_, hr.frozen⟩
  · rcases List.mem_append.1 hf with hf | hf
    · exact hr.below hup f hf
    · obtain rfl : f = a.hop false := by simpa using hf
      exact hlt
  · rcases List.mem_append.1 hf with hf | hf
    · exact hr.short f hf
    · obtain rfl : f = a.hop false := by simpa using hf
      exact ⟨Nat.succ_pos _, Nat.succ_lt_succ ha⟩

/-- **Every rule keeps the cap**, on a hop count of 8 bits. -/
theorem rule (hinf : 256 < inf) (hh : ∀ a, h = .advert a → a.hops < 256) (hr : r.Capped inf)
    (hrule : Rule inf maxPaths h r r') : r'.Capped inf := by
  cases hrule with
  | keep => exact hr
  | lose hs _ _ hsub | errorLose _ hs _ _ _ _ hsub | ptaLose hs _ _ _ _ hsub => exact (hr.left hsub).congr rfl rfl rfl
  | freeze hne => exact ⟨fun _ f hf => le_maxHops hf, hr.short, fun _ => .inr (maxHops_lt hne hr.short)⟩
  | renew a =>
    have ha := hh a rfl
    refine ⟨fun _ f hf => ?_, fun f hf => ?_, fun _ => .inl rfl⟩
    · obtain rfl : f = a.hop true := by simpa using hf
      show a.hops + 1 ≤ inf
      omega
    · obtain rfl : f = a.hop true := by simpa using hf
      exact ⟨Nat.succ_pos _, Nat.succ_lt_succ ha⟩
  | extend a _ _ _ hlt => exact hr.extend (hh a rfl) hlt
  | errorFall n | ptaFall n => exact (fall r inf (max r.highest n)).congr rfl rfl rfl
  | failed | expired | repaired => exact fall _ _ _

/-- What a live entry gives away, before it is cut to 8 bits, is no less than the length of any of its paths. -/
theorem gives (hr : r.Capped inf) (hup : r.flags = .up) (hne : r.hops ≠ []) :
    r.gives inf < 257 ∧ ∀ f ∈ r.hops, f.hopcount ≤ r.gives inf := by
  unfold Route.gives
  split
  · exact ⟨maxHops_lt hne hr.short, fun _ hf => le_maxHops hf⟩
  · rename_i hadv
    exact ⟨(hr.frozen hup).resolve_left hadv, hr.below hup⟩

end Route.Capped

/-- What has become of `r₀` since a handler that hears `h` began: the hop count is the same, unless the entry is down or
was renewed. -/
structure Route.Frozen (h : Heard) (r₀ r : Route) : Prop where
  seqno : ∀ a, h = .advert a → r₀.seqno ≤ r.seqno
  adv : r.adv = r₀.adv ∨ r.flags ≠ .up ∨ ∃ a, h = .advert a ∧ a.dst = r.dst ∧ r₀.seqno < a.seqno ∧ r.seqno = a.seqno

namespace Route.Frozen

variable {inf : Nat} {maxPaths : Int} {h : Heard} {r₀ r r' : Route}

/-- A step that keeps flag and hop count, and under a RREQ or RREP the number. -/
theorem congr (hf : Route.Frozen h r₀ r) (hs : (∃ a, h = .advert a) → r'.seqno = r.seqno) (ha : r'.adv = r.adv)
    (hup : r'.flags = r.flags) (hd : r'.dst = r.dst) : Route.Frozen h r₀ r' := by
  constructor
  · intro a hh
    rw [hs ⟨a, hh⟩]
    exact hf.seqno a hh
  · rw [ha, hup, hd]
    refine hf.adv.imp_right (Or.imp_right ?_)
    rintro ⟨a, hh, hda, hlt, hseq⟩
    exact ⟨a, hh, hda, hlt, (hs ⟨a, hh⟩).trans hseq⟩

theorem down (hs : ∀ a, h = .advert a → r₀.seqno ≤ r.seqno) (hd : r.flags ≠ .up) : Route.Frozen h r₀ r :=
  ⟨hs, .inr (.inl hd)⟩

theorem rule (hinf : r₀.adv ≠ inf) (hf : Route.Frozen h r₀ r) (hrule : Rule inf maxPaths h r r') :
    Route.Frozen h r₀ r' := by
  cases hrule with
  | keep => exact hf
  | lose | extend => exact hf.congr (fun _ => rfl) rfl rfl rfl
  | errorLose | ptaLose => exact hf.congr (fun ⟨_, h⟩ => nomatch h) rfl rfl rfl
  | freeze _ hadv =>
    refine ⟨hf.seqno, .inr (hf.adv.resolve_left ?_)⟩
    rw [hadv]
    exact hinf.symm
  | renew a hd hlt =>
    have hle := hf.seqno a rfl
    refine ⟨fun a' ha => ?_, .inr (.inr ⟨a, rfl, hd.symm, by omega, rfl⟩)⟩
    show r₀.seqno ≤ a.seqno
    omega
  | errorFall | ptaFall | failed | expired | repaired => exact down nofun nofun

end Route.Frozen

/-- Every path of the entry came with a RREQ or RREP about its destination. -/
def Route.Arrived (hs : List Advert) (r : Route) : Prop := ∀ f ∈ r.hops, ∃ a ∈ hs, ∃ b, a.dst = r.dst ∧ f = a.hop b

theorem Route.Arrived.rule {inf : Nat} {maxPaths : Int} {h : Heard} {hs : List Advert} {r r' : Route}
    (hh : ∀ a, h = .advert a → a ∈ hs) (hr : r.Arrived hs) (hrule : Rule inf maxPaths h r r') : r'.Arrived hs := by
  intro f hf
  rw [hrule.dst]
  rcases hrule.hops hf with hf | ⟨a, b, ha, hd, rfl⟩
  · exact hr f hf
  · exact ⟨a, hh a ha, b, hd.symm, rfl⟩

/-! ## One invocation -/

namespace Exec

variable {env : Env} {x : Exec} {d : NsAddr}

theorem handle_capped {inp : Input} (hinf : 256 < env.inf) (hq : x.DataQueue) (hc : x.Calm)
    (h8 : ∀ a, x.heard inp = .advert a → a.hops < 256) (hx : (x.routeFor d).Capped env.inf) :
    Ends (fun y => (y.routeFor d).Capped env.inf) (x.handle env inp) :=
  routeFor_of_trace (fun _ _ _ hr _ hrule => hr.rule hinf h8 hrule) (fun r _ _ => .fall r _ _) (handle_trace hq hc) hx

theorem handle_frozen {inp : Input} (hq : x.DataQueue) (hc : x.Calm) (hinf : (x.routeFor d).adv ≠ env.inf) :
    Ends (fun y => Route.Frozen (x.heard inp) (x.routeFor d) (y.routeFor d)) (x.handle env inp) :=
  routeFor_of_trace (fun _ _ _ hr _ hrule => hr.rule hinf hrule) (fun _ hr _ => .down hr.seqno nofun)
    (handle_trace hq hc) ⟨fun _ _ => Nat.le_refl _, .inl rfl⟩

theorem handle_arrived {inp : Input} {hs : List Advert} (hq : x.DataQueue) (hc : x.Calm)
    (hh : ∀ a, x.heard inp = .advert a → a ∈ hs) (hx : (x.routeFor d).Arrived hs) :
    Ends (fun y => (y.routeFor d).Arrived hs) (x.handle env inp) :=
  routeFor_of_trace (fun _ _ _ hr _ hrule => hr.rule hh hrule) (fun _ _ _ _ hf => nomatch hf) (handle_trace hq hc) hx

end Exec

namespace Agent

variable {inf : Nat} {id : NsAddr} {a a' : Agent} {c : Call}

/-- What the RREQ or RREP received says. -/
def hears (a : Agent) (c : Call) : Option Advert :=
  match (a.exec c.heap).heard c.inp with
  | .advert adv => some adv
  | _ => none

/-- The run with all RREQs and RREPs heard in it. -/
def callHeard : Agent × List Advert → Call → Option (Agent × List Advert) :=
  Runs.watch call (fun a c _ hs => hs ++ (a.hears c).toList)

/-- `INFINITY` is `inf`, and a hop count received has 8 bits. -/
def octets (inf : Nat) (a : Agent) (c : Call) : Bool := c.env.inf = inf ∧ (a.hears c).all (fun adv => adv.hops < 256)

/-- The hop count the invocation gives away, if it does, fits the 8 bits of a RREQ or RREP. -/
def fits (a : Agent) (c : Call) : Bool := ((a.exec c.heap).tells c.env c.inp).all (fun t => t.2 < 256)

/-- What one invocation does to the hop counts the node has frozen, and what it tells of them; `hs` are the RREQs and RREPs
heard so far. -/
structure Candid (inf : Nat) (id : NsAddr) (a : Agent) (c : Call) (a' : Agent) (hs : List Advert) : Prop where
  frozen : ∀ e ∈ a.rtable, e.rtFlags = .up → e.rtAdvertisedHops ≠ inf → ∃ e' ∈ a'.rtable, e'.rtDst = e.rtDst ∧
    (e'.rtAdvertisedHops = e.rtAdvertisedHops ∨ e'.rtFlags ≠ .up ∨
      ∃ adv, a.hears c = some adv ∧ adv.dst = e.rtDst ∧ e.rtSeqno < adv.seqno ∧ e'.rtSeqno = adv.seqno)
  below : ∀ e ∈ a'.rtable, e.rtFlags = .up → e.rtAdvertisedHops ≠ inf → ∀ f ∈ e.rtPathList, f.hopcount ≤ e.rtAdvertisedHops
  told : ∀ q ∈ a.outbox c, ∀ t, q.tells id = some t → ∃ e ∈ a'.rtable, e.rtDst = t.1 ∧ e.rtFlags = .up ∧
    ∀ f ∈ e.rtPathList, f.hopcount ≤ t.2 ∧ ∃ adv ∈ hs, ∃ b, adv.dst = t.1 ∧ f.hop = adv.hop b ∧ adv.hops < t.2

/-- What holds of a node between two invocations. -/
structure Records (inf : Nat) (id : NsAddr) (a : Agent) (hs : List Advert) : Prop where
  tidy : a.Tidy
  index : a.index = id
  waits : (a.exec 0).Waits
  capped : ∀ d, ((a.exec 0).routeFor d).Capped inf
  arrived : ∀ d, ((a.exec 0).routeFor d).Arrived hs

theorem Records.new (inf : Nat) (id : NsAddr) : Records inf id (new id) [] where
  tidy := ⟨.new id, fun _ hq => nomatch hq⟩
  index := rfl
  waits := fun _ hm => nomatch hm
  capped := fun _ => ⟨nofun, fun _ hf => (nomatch hf), nofun⟩
  arrived := fun _ _ hf => nomatch hf

theorem hears_eq_some {adv : Advert} : a.hears c = some adv ↔ (a.exec c.heap).heard c.inp = .advert adv := by
  unfold hears
  split <;> simp_all

theorem Records.call {t t' : Agent × List Advert} (ht : Records inf id t.1 t.2) (hinf : 256 < inf)
    (h8 : octets inf t.1 c = true) (hs : callHeard t c = some t') : Records inf id t'.1 t'.2 := by
  obtain ⟨hc, hhs⟩ := Runs.watch_eq_some hs
  obtain ⟨x, hx, hx'⟩ := call_eq_some hc
  obtain ⟨rfl, hbytes⟩ := of_decide_eq_true h8
  have hroute : ∀ d, (t'.1.exec 0).routeFor d = x.routeFor d := by
    rw [← hx']
    exact fun _ => rfl
  have hcalm := exec_calm t.1 c.heap
  refine ⟨ht.tidy.call hc, ?_, ?_, fun d => ?_, fun d => ?_⟩
  · rw [← hx', ← ht.index]
    exact Exec.steps_index ((Exec.handle_trace (x := t.1.exec c.heap) ht.tidy.data hcalm).of_ok hx)
  · rw [← hx']
    exact Exec.handle_waits (x := t.1.exec c.heap) ht.tidy.data hcalm ht.waits x hx
  · rw [hroute]
    refine Exec.handle_capped (x := t.1.exec c.heap) hinf ht.tidy.data hcalm (fun adv ha => ?_) (ht.capped d) x hx
    rw [hears_eq_some.2 ha] at hbytes
    simpa using hbytes
  · rw [hroute]
    refine Exec.handle_arrived (x := t.1.exec c.heap) ht.tidy.data hcalm (fun adv ha => ?_) (fun f hf => ?_) x hx
    · rw [hhs, hears_eq_some.2 ha]
      exact List.mem_append_right _ List.mem_cons_self
    · obtain ⟨adv, hadv, hb⟩ := ht.arrived d f hf
      exact ⟨adv, hhs ▸ List.mem_append_left _ hadv, hb⟩

/-! ### The three parts -/

section Parts

variable {hs hs' : List Advert} {x : Exec} {e : RtEntry}

theorem Records.frozen (ha : Records inf id a hs) (henv : c.env.inf = inf)
    (hx : (a.exec c.heap).handle c.env c.inp = .ok x) (he : e ∈ a.rtable) (hadv : e.rtAdvertisedHops ≠ inf) :
    ∃ e' ∈ x.rtable, e'.rtDst = e.rtDst ∧ (e'.rtAdvertisedHops = e.rtAdvertisedHops ∨ e'.rtFlags ≠ .up ∨
      ∃ adv, a.hears c = some adv ∧ adv.dst = e.rtDst ∧ e.rtSeqno < adv.seqno ∧ e'.rtSeqno = adv.seqno) := by
  subst henv
  have hcalm := exec_calm a c.heap
  have hfind : (a.exec c.heap).rtLookup e.rtDst = some e := Keyed.find?_of_mem_nodup RtEntry.rtDst ha.tidy.rep.dsts he
  have htrace : Trace c.env ((a.exec c.heap).heard c.inp) (a.exec c.heap) ((a.exec c.heap).handle c.env c.inp) :=
    Exec.handle_trace ha.tidy.data hcalm
  obtain ⟨e', he'⟩ := Exec.present_of_trace htrace hfind x hx
  have hroute := Exec.routeFor_of_rtLookup hfind
  have hf := Exec.handle_frozen (x := a.exec c.heap) (d := e.rtDst) ha.tidy.data hcalm (hroute ▸ hadv) x hx
  rw [hroute, Exec.routeFor_of_rtLookup he'] at hf
  have hdst := Exec.rtDst_of_rtLookup he'
  refine ⟨e', Exec.mem_of_rtLookup he', hdst, hf.adv.imp_right (Or.imp_right ?_)⟩
  rintro ⟨adv, hadv, hd, hlt, hseq⟩
  exact ⟨adv, hears_eq_some.2 hadv, hd.trans hdst, hlt, hseq⟩

theorem Records.below (ha : Records inf id a hs) (he : e ∈ a.rtable) (hup : e.rtFlags = .up) :
    ∀ f ∈ e.rtPathList, f.hopcount ≤ e.rtAdvertisedHops := by
  intro f hf
  have hc := ha.capped e.rtDst
  rw [Exec.routeFor_of_mem (x := a.exec 0) ha.tidy.rep he] at hc
  exact hc.below hup f.hop (List.mem_map_of_mem hf)

/-- The entry an invocation has told of, once it is over. -/
theorem Records.told (ha : Records inf id a hs) (ha' : Records inf id x.toAgent hs') (henv : c.env.inf = inf)
    (hx : (a.exec c.heap).handle c.env c.inp = .ok x) {t : NsAddr × Nat} (ht : (a.exec c.heap).tells c.env c.inp = some t) :
    t.2 < 257 ∧ ∃ e ∈ x.rtable, e.rtDst = t.1 ∧ e.rtFlags = .up ∧ e.rtPathList ≠ [] ∧
      ∀ f ∈ e.rtPathList, 0 < f.hopcount ∧ f.hopcount ≤ t.2 ∧
        ∃ adv ∈ hs', ∃ b, adv.dst = t.1 ∧ f.hop = adv.hop b ∧ f.hopcount = adv.hops + 1 := by
  subst henv
  obtain ⟨s, hoffers⟩ := (Exec.handle_tells (x := a.exec c.heap) ha.tidy ha.waits rfl x hx).backed t ht
  obtain ⟨e, he, hup, heq⟩ := Exec.offers_eq_some hoffers
  have hgives : t.2 = e.route.gives c.env.inf := congrArg Prod.snd heq
  have hmem := Exec.mem_of_rtLookup he
  have hne : e.rtPathList ≠ [] := (ha'.tidy.rep.entries e hmem).toKept.2.1 hup
  have hroute : (x.toAgent.exec 0).routeFor t.1 = e.route := Exec.routeFor_of_rtLookup he
  have hcap := ha'.capped t.1
  have harr := ha'.arrived t.1
  rw [hroute] at hcap harr
  have hdst := Exec.rtDst_of_rtLookup he
  obtain ⟨hlt, hle⟩ := hcap.gives hup (by simpa [RtEntry.route] using hne)
  rw [← hgives] at hlt hle
  refine ⟨hlt, e, hmem, hdst, hup, hne, fun f hf => ?_⟩
  have hhop : f.hop ∈ e.route.hops := List.mem_map_of_mem hf
  obtain ⟨adv, hin, b, hd, heq⟩ := harr f.hop hhop
  exact ⟨(hcap.short f.hop hhop).1, hle f.hop hhop, adv, hin, b, hd.trans hdst, heq, congrArg Hop.hopcount heq⟩

end Parts

/-- **Advertised hop counts understate just if one is told that does not fit 8 bits**, after every run. -/
theorem candid_iff (hinf : 256 < inf) {t t' : Agent × List Advert}
    (h : Runs.Reaches callHeard (fun t c => octets inf t.1 c = true) (new id, []) t) (h8 : octets inf t.1 c = true)
    (hs : callHeard t c = some t') : Candid inf id t.1 c t'.1 t'.2 ↔ fits t.1 c = true := by
  have ht : Records inf id t.1 t.2 :=
    Runs.Reaches.invariant (P := fun t => Records inf id t.1 t.2) (.new inf id)
      (fun t c t' _ ht hg hs => ht.call hinf hg hs) h
  have ht' := ht.call hinf h8 hs
  obtain ⟨x, hx, hx'⟩ := call_eq_some (Runs.watch_eq_some hs).1
  have henv : c.env.inf = inf := (of_decide_eq_true h8).1
  rw [← hx'] at ht' ⊢
  have htells := (Exec.handle_tells (x := t.1.exec c.heap) ht.tidy ht.waits rfl x hx).told
  have hindex : (t.1.exec c.heap).index = id := ht.index
  rw [hindex] at htells
  unfold fits
  cases hgiven : (t.1.exec c.heap).tells c.env c.inp with
  | none =>
    rw [hgiven] at htells
    constructor
    · exact fun _ => rfl
    · intro _
      refine ⟨fun e he _ hadv => ht.frozen henv hx he hadv, fun e he hup _ => ht'.below he hup, fun q hq t₁ ht₁ => ?_⟩
      rw [outbox_of_ok hx] at hq
      have hnone := List.filterMap_eq_nil_iff.1 htells q hq
      rw [ht₁] at hnone
      cases hnone
  | some t₀ =>
    obtain ⟨hlt, e, he, hdst, hup, hne, hpaths⟩ := ht.told ht' henv hx hgiven
    rw [hgiven] at htells
    rw [Option.all_some, decide_eq_true_eq]
    constructor
    · -- 256 hops are told as none, fewer than the length of any path
      intro hc
      by_contra hbig
      obtain ⟨q, hq, htold⟩ : ∃ q ∈ x.sent, q.tells id = some (t₀.1, u8 t₀.2) := by
        have hm : (t₀.1, u8 t₀.2) ∈ x.told id := by
          rw [htells]
          exact List.mem_singleton_self _
        exact List.mem_filterMap.1 hm
      obtain ⟨e', he', hdst', -, hle⟩ := hc.told q (by rwa [outbox_of_ok hx]) _ htold
      obtain rfl : e' = e := List.inj_on_of_nodup_map ht'.tidy.rep.dsts he' he (hdst'.trans hdst.symm)
      obtain ⟨f, hf⟩ := List.exists_mem_of_ne_nil _ hne
      have hpos := (hpaths f hf).1
      have hzero : f.hopcount ≤ u8 t₀.2 := (hle f hf).1
      have h256 : t₀.2 = 256 := by omega
      rw [h256] at hzero
      exact absurd hpos (Nat.not_lt.2 hzero)
    · intro hfit
      refine ⟨fun e he _ hadv => ht.frozen henv hx he hadv, fun e he hup _ => ht'.below he hup, fun q hq t₁ ht₁ => ⟨e, he, ?_⟩⟩
      rw [outbox_of_ok hx] at hq
      have hm : t₁ ∈ x.told id := List.mem_filterMap.2 ⟨q, hq, ht₁⟩
      rw [htells] at hm
      obtain rfl : t₁ = t₀ := by
        rw [List.mem_singleton.1 hm]
        exact congrArg (Prod.mk t₀.1) (u8_of_lt hfit)
      refine ⟨hdst, hup, fun f hf => ?_⟩
      obtain ⟨-, hle, adv, hin, b, hd, hhop, hcount⟩ := hpaths f hf
      exact ⟨hle, adv, hin, b, hd, hhop, by omega⟩

/-- A RREQ of node 1 for `dst` comes in from a neighbour. -/
def requestFor (dst : NsAddr) (seqno : Nat) (saddr : NsAddr) (hops bid : Nat) : Call where
  env := { inf := 65535, now := 1 }
  heap := 1
  inp := .recv { ptr := 0, saddr := saddr, daddr := ipBroadcast, sport := rtPort, dport := rtPort, ttl := 20, prevHop := saddr
                 body := .rreq ⟨hops, bid, dst, 0, 1, seqno, 0, saddr, trustThreshold, 1, 1⟩ }

/-- Of three RREQs, the first is for the node itself and leaves it a path of 256 hops, and the last is turned down. -/
theorem candid_requestFor : ∃ t t', Runs.replay callHeard [requestFor 5 4 2 255 7, requestFor 9 6 3 1 8, requestFor 9 6 4 255 9]
      (new 5, []) = some t ∧ callHeard t (requestFor 9 8 2 3 10) = some t' ∧ (t.1.outbox (requestFor 9 8 2 3 10)).length = 1 ∧
    Candid 65535 5 t.1 (requestFor 9 8 2 3 10) t'.1 t'.2 := by
  let last (t : Agent × List Advert) : Bool := octets 65535 t.1 (requestFor 9 8 2 3 10) && fits t.1 (requestFor 9 8 2 3 10) &&
    (callHeard t (requestFor 9 8 2 3 10)).isSome && (t.1.outbox (requestFor 9 8 2 3 10)).length == 1
  obtain ⟨t, ht, hr, hlast⟩ := Runs.Reaches.of_obeys (fun t c => octets 65535 t.1 c) last
    (fun t c h => h) [requestFor 5 4 2 255 7, requestFor 9 6 3 1 8, requestFor 9 6 4 255 9]
    (.init : Runs.Reaches callHeard (fun t c => octets 65535 t.1 c = true) (new 5, []) _)
    (by decide +kernel)
  obtain ⟨hlast, hlen⟩ := Bool.and_eq_true_iff.1 hlast
  obtain ⟨hlast, hsome⟩ := Bool.and_eq_true_iff.1 hlast
  obtain ⟨h8, hfit⟩ := Bool.and_eq_true_iff.1 hlast
  obtain ⟨t', ht'⟩ := Option.isSome_iff_exists.1 hsome
  exact ⟨t, t', ht, ht', eq_of_beq hlen, (candid_iff (by decide) hr h8 ht').2 hfit⟩

/-- **A RREQ with hop count 255 goes on with hop count 0**: `rq_hop_count` does not hold 256. -/
theorem not_candid_requestFrom : ¬ ∀ t t' c,
    Runs.Reaches callHeard (fun t c => octets 65535 t.1 c = true) (new 5, []) t → octets 65535 t.1 c = true →
      callHeard t c = some t' → Candid 65535 5 t.1 c t'.1 t'.2 := by
  intro h
  have hsent : ((new 5).outbox (requestFrom 2 255 7)).any (fun q => q.tells 5 = some (1, 0)) = true := by decide +kernel
  have hstored : (callHeard (new 5, []) (requestFrom 2 255 7)).any
      (fun t => t.1.rtable.all (fun e => e.rtPathList.any (fun f => f.hopcount = 256))) = true := by decide +kernel
  obtain ⟨q, hq, htell⟩ := List.any_eq_true.1 hsent
  obtain ⟨t, ht, hall⟩ := (Option.any_eq_true _ _).1 hstored
  obtain ⟨e, he, -, -, hle⟩ := (h _ _ _ .init (by decide +kernel) ht).told q hq (1, 0) (of_decide_eq_true htell)
  obtain ⟨f, hf, h256⟩ := List.any_eq_true.1 (List.all_eq_true.1 hall e he)
  have h0 : f.hopcount ≤ 0 := (hle f hf).1
  have h256 : f.hopcount = 256 := of_decide_eq_true h256
  omega

end Agent

end TeAomdv

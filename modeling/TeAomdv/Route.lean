import TeAomdv.Rtable
/-!
# Route — a route entry without its clocks, and the rules it changes by

The abstract model of an entry.  `Route` keeps what decides where packets go and what other nodes are told: flag,
sequence numbers, advertised hop count, and the paths without expiry and trust.  `Rule` lists everything that can
happen to one, given what the packet under way says (`Heard`); the handlers are shown to follow it in `Trace`.

The invariants of an entry are stated here, each with the lemma that every rule keeps it: `Sound` (the counter, the flag
and the list agree), `Labelled` (a live entry's paths carry its number), `EvenUp` and `Settled` (parity), `Ordered` (what a
live entry may advertise), and `Vouches`, which outlives the advertisement it was true of.
-/
namespace TeAomdv

/-- A path without expiry and trust. -/
structure Hop where
  nexthop : NsAddr
  hopcount : Nat
  lasthop : NsAddr
  origin : Origin

def Path.hop (f : Path) : Hop := ⟨f.nexthop, f.hopcount, f.lasthop, f.origin⟩

structure Route where
  dst : NsAddr
  flags : RtFlag
  seqno : Nat
  adv : Nat
  highest : Nat
  num : Int
  hops : List Hop

def RtEntry.route (e : RtEntry) : Route :=
  ⟨e.rtDst, e.rtFlags, e.rtSeqno, e.rtAdvertisedHops, e.rtHighestSeqnoHeard, e.rtNumPaths, e.rtPathList.map Path.hop⟩

/-- What a RREQ says of its source, or a RREP of its destination: `sender` is `hops` away from `dst`. -/
structure Advert where
  dst : NsAddr
  seqno : Nat
  hops : Nat
  sender : NsAddr
  lasthop : NsAddr

def Advert.hop (a : Advert) (renewed : Bool) : Hop := ⟨a.sender, a.hops + 1, a.lasthop, ⟨a.seqno, renewed⟩⟩

/-- What an invocation may act on.  An accepted PTA comes with the entry it is about and the paths it leaves. -/
inductive Heard
  | nothing
  | advert (a : Advert)
  | error (slots : List (NsAddr × Nat))
  | pta (r : Route) (hs : List Hop) (n : Nat)
  | clock
  | repair

/-- `path_get_max_hopcount`. -/
def maxHops (hs : List Hop) : Nat :=
  let m := hs.foldl (fun m f => if f.hopcount > m then f.hopcount else m) 0
  if m = 0 then infinity2 else m

theorem foldl_hopcount : ∀ (hs : List Hop) (m : Nat),
    m ≤ hs.foldl (fun m f => if f.hopcount > m then f.hopcount else m) m ∧
      ∀ f ∈ hs, f.hopcount ≤ hs.foldl (fun m f => if f.hopcount > m then f.hopcount else m) m
  | [], m => ⟨Nat.le_refl m, fun _ h => nomatch h⟩
  | g :: hs, m => by
    rw [List.foldl_cons]
    obtain ⟨h1, h2⟩ := foldl_hopcount hs (if g.hopcount > m then g.hopcount else m)
    have hle : m ≤ (if g.hopcount > m then g.hopcount else m) ∧ g.hopcount ≤ (if g.hopcount > m then g.hopcount else m) := by
      split <;> omega
    refine ⟨hle.1.trans h1, fun f hf => ?_⟩
    rcases List.mem_cons.1 hf with rfl | hf
    · exact hle.2.trans h1
    · exact h2 f hf

theorem foldl_hopcount_lt {b : Nat} : ∀ (hs : List Hop) (m : Nat), m < b → (∀ f ∈ hs, f.hopcount < b) →
    hs.foldl (fun m f => if f.hopcount > m then f.hopcount else m) m < b
  | [], _, hm, _ => hm
  | g :: hs, m, hm, hb => by
    rw [List.foldl_cons]
    refine foldl_hopcount_lt hs _ ?_ (fun f hf => hb f (List.mem_cons_of_mem _ hf))
    have := hb g List.mem_cons_self
    split <;> omega

theorem le_maxHops {hs : List Hop} {f : Hop} (hf : f ∈ hs) : f.hopcount ≤ maxHops hs := by
  have h := (foldl_hopcount hs 0).2 f hf
  unfold maxHops
  simp only
  split <;> omega

theorem maxHops_lt {hs : List Hop} {b : Nat} (hne : hs ≠ []) (hb : ∀ f ∈ hs, 0 < f.hopcount ∧ f.hopcount < b) :
    maxHops hs < b := by
  obtain ⟨f, t, rfl⟩ := List.exists_cons_of_ne_nil hne
  have hf := hb f List.mem_cons_self
  have h1 := (foldl_hopcount (f :: t) 0).2 f List.mem_cons_self
  have h2 := foldl_hopcount_lt (f :: t) 0 (b := b) (by omega) (fun g hg => (hb g hg).2)
  unfold maxHops
  simp only
  rw [if_neg (by omega)]
  exact h2

namespace Route

/-- The entry with only the paths `hs` left. -/
def left (r : Route) (hs : List Hop) : Route := { r with hops := hs, num := r.num - (r.hops.length - hs.length : Nat) }

/-- The entry brought down under number `s`. -/
def fall (r : Route) (inf s : Nat) : Route := { r with flags := .down, seqno := s, adv := inf, num := 0, hops := [] }

def failedSeqno (r : Route) : Nat := max (u32 (r.seqno + 1)) r.highest

def expiredSeqno (r : Route) : Nat := if r.failedSeqno % 2 = 0 then u32 (r.failedSeqno + 1) else r.failedSeqno

/-- No path of the entry has this next hop or this last hop. -/
def Disjoint (r : Route) (a : Advert) : Prop := ∀ f ∈ r.hops, f.nexthop ≠ a.sender ∧ f.lasthop ≠ a.lasthop

end Route

/-- **The rules of an entry.**  The distrust of `forward`, which may hit any entry at any time, is not among them. -/
inductive Rule (inf : Nat) (maxPaths : Int) : Heard → Route → Route → Prop
  | keep {h r} : Rule inf maxPaths h r r
  | lose {h r} (hs : List Hop) : r.flags = .up → hs ≠ [] → hs.Sublist r.hops → Rule inf maxPaths h r (r.left hs)
  | freeze {h r} : r.hops ≠ [] → r.adv = inf → Rule inf maxPaths h r { r with adv := maxHops r.hops }
  | renew {r} (a : Advert) : r.dst = a.dst → r.seqno < a.seqno →
      Rule inf maxPaths (.advert a) r
        { r with flags := .up, seqno := a.seqno, adv := inf, num := 1, hops := [a.hop true] }
  | extend {r} (a : Advert) : r.dst = a.dst → r.flags = .up → r.seqno = a.seqno → a.hops < r.adv → r.Disjoint a →
      r.num < maxPaths →
      Rule inf maxPaths (.advert a) r { r with num := r.num + 1, hops := r.hops ++ [a.hop false] }
  | errorLose {r slots} (n : Nat) (hs : List Hop) : (r.dst, n) ∈ slots → r.flags = .up → r.seqno ≤ n → hs ≠ [] →
      hs.Sublist r.hops → Rule inf maxPaths (.error slots) r { r.left hs with highest := max r.highest n }
  | errorFall {r slots} (n : Nat) : (r.dst, n) ∈ slots → r.flags = .up → r.seqno ≤ n →
      Rule inf maxPaths (.error slots) r { r.fall inf (max r.highest n) with highest := max r.highest n }
  | ptaLose {r} (hs : List Hop) (n : Nat) : r.flags = .up → r.seqno ≤ n → hs ≠ [] → hs.Sublist r.hops →
      Rule inf maxPaths (.pta r hs n) r
        { r.left hs with seqno := max r.highest n, highest := max r.highest n }
  | ptaFall {r} (n : Nat) : r.flags = .up → r.seqno ≤ n →
      Rule inf maxPaths (.pta r [] n) r { r.fall inf (max r.highest n) with highest := max r.highest n }
  | failed {r} : r.flags = .up → r.seqno % 2 = 0 → Rule inf maxPaths .clock r (r.fall inf r.failedSeqno)
  | expired {r} : r.flags = .up → Rule inf maxPaths .clock r (r.fall inf r.expiredSeqno)
  | repaired {r} : r.flags ≠ .up → Rule inf maxPaths .repair r (r.fall inf r.seqno)

namespace Rule

variable {inf : Nat} {maxPaths : Int} {h : Heard} {r r' : Route}

theorem dst (hr : Rule inf maxPaths h r r') : r'.dst = r.dst := by
  cases hr <;> rfl

/-- Without a packet or a clock to act on, no rule changes a number. -/
theorem seqno_of_nothing (hr : Rule inf maxPaths .nothing r r') : r'.seqno = r.seqno := by
  cases hr <;> rfl

/-- Without a packet to act on no entry comes up, and a number changes only as the entry goes down. -/
theorem sinks (hr : Rule inf maxPaths h r r') (hh : h = .nothing ∨ h = .clock) :
    (r'.flags = .up → r.flags = .up ∧ r'.seqno = r.seqno) ∧ (r.flags ≠ .up → r'.seqno = r.seqno) := by
  cases hr with
  | keep | freeze => exact ⟨fun h => ⟨h, rfl⟩, fun _ => rfl⟩
  | lose _ hup => exact ⟨fun _ => ⟨hup, rfl⟩, fun _ => rfl⟩
  | failed hup | expired hup => exact ⟨nofun, fun h => absurd hup h⟩
  | renew | extend | errorLose | errorFall | ptaLose | ptaFall | repaired => simp at hh

end Rule

/-! ## Counter, flag and list -/

/-- The representation invariant of an entry. -/
structure Route.Sound (maxPaths : Int) (r : Route) : Prop where
  num : r.num = r.hops.length
  le : r.num ≤ maxPaths
  nexthops : (r.hops.map (·.nexthop)).Nodup
  lasthops : (r.hops.map (·.lasthop)).Nodup
  up : r.flags = .up ↔ r.hops ≠ []

namespace Route.Sound

variable {inf : Nat} {maxPaths : Int} {h : Heard} {r r' : Route}

theorem fresh (hm : 1 ≤ maxPaths) (d : NsAddr) (adv : Nat) : Route.Sound maxPaths ⟨d, .down, 0, adv, 0, 0, []⟩ where
  num := rfl
  le := by show (0 : Int) ≤ maxPaths; omega
  nexthops := List.nodup_nil
  lasthops := List.nodup_nil
  up := by simp

theorem fall (hs : r.Sound maxPaths) (inf s : Nat) : (r.fall inf s).Sound maxPaths where
  num := rfl
  le := by
    have := hs.num
    have := hs.le
    show (0 : Int) ≤ maxPaths
    omega
  nexthops := List.nodup_nil
  lasthops := List.nodup_nil
  up := by simp [Route.fall]

theorem left (hr : r.Sound maxPaths) {hs : List Hop} (hup : r.flags = .up) (hne : hs ≠ []) (hsub : hs.Sublist r.hops) :
    (r.left hs).Sound maxPaths where
  num := by
    have hlen := hsub.length_le
    have := hr.num
    show r.num - ((r.hops.length - hs.length : Nat) : Int) = hs.length
    omega
  le := by
    have := hr.le
    show r.num - ((r.hops.length - hs.length : Nat) : Int) ≤ maxPaths
    omega
  nexthops := hr.nexthops.sublist (hsub.map _)
  lasthops := hr.lasthops.sublist (hsub.map _)
  up := iff_of_true hup hne

/-- The counter, the flag and the list do not see the numbers. -/
theorem congr (hr : r.Sound maxPaths) (hn : r'.num = r.num) (hh : r'.hops = r.hops) (hf : r'.flags = r.flags) :
    r'.Sound maxPaths where
  num := by rw [hn, hh]; exact hr.num
  le := by rw [hn]; exact hr.le
  nexthops := by rw [hh]; exact hr.nexthops
  lasthops := by rw [hh]; exact hr.lasthops
  up := by rw [hf, hh]; exact hr.up

theorem extend (hr : r.Sound maxPaths) {a : Advert} (hup : r.flags = .up) (hd : r.Disjoint a) (hlt : r.num < maxPaths) :
    Route.Sound maxPaths { r with num := r.num + 1, hops := r.hops ++ [a.hop false] } where
  num := by
    have := hr.num
    simp only [List.length_append, List.length_singleton]
    omega
  le := by show r.num + 1 ≤ maxPaths; omega
  nexthops := by
    rw [List.map_append, List.nodup_append]
    refine ⟨hr.nexthops, List.nodup_singleton _, ?_⟩
    intro n hn m hm
    obtain ⟨f, hf, rfl⟩ := List.mem_map.1 hn
    obtain rfl : m = a.sender := by simpa [Advert.hop] using hm
    exact (hd f hf).1
  lasthops := by
    rw [List.map_append, List.nodup_append]
    refine ⟨hr.lasthops, List.nodup_singleton _, ?_⟩
    intro n hn m hm
    obtain ⟨f, hf, rfl⟩ := List.mem_map.1 hn
    obtain rfl : m = a.lasthop := by simpa [Advert.hop] using hm
    exact (hd f hf).2
  up := iff_of_true hup (by simp)

/-- **Every rule keeps the counter, the flag and the list in agreement.** -/
theorem rule (hm : 1 ≤ maxPaths) (hs : r.Sound maxPaths) (hr : Rule inf maxPaths h r r') : r'.Sound maxPaths := by
  cases hr with
  | keep => exact hs
  | lose _ hup hne hsub => exact hs.left hup hne hsub
  | freeze => exact hs.congr rfl rfl rfl
  | renew a => exact ⟨rfl, hm, List.nodup_singleton _, List.nodup_singleton _, by simp⟩
  | extend a _ hup _ _ hd hlt => exact hs.extend hup hd hlt
  | errorLose n _ _ hup _ hne hsub => exact (hs.left hup hne hsub).congr rfl rfl rfl
  | errorFall n => exact (hs.fall inf (max r.highest n)).congr rfl rfl rfl
  | ptaLose _ n hup _ hne hsub => exact (hs.left hup hne hsub).congr rfl rfl rfl
  | ptaFall n => exact (hs.fall inf (max r.highest n)).congr rfl rfl rfl
  | failed | expired | repaired => exact hs.fall _ _

end Route.Sound

/-! ## Labels -/

/-- The PTA, if one is accepted, either takes the last path or names the entry's own number. -/
def Heard.SameNumber (h : Heard) : Prop := ∀ r hs n, h = .pta r hs n → hs ≠ [] → max r.highest n = r.seqno

/-- A live entry's paths came in with its number. -/
def Route.Labelled (r : Route) : Prop := r.flags = .up → ∀ f ∈ r.hops, f.origin.seqno = r.seqno

namespace Route.Labelled

variable {inf : Nat} {maxPaths : Int} {h : Heard} {r r' : Route}

/-- **Every rule keeps the labels**, but for a PTA that changes the number of a live entry. -/
theorem rule (hsame : h.SameNumber) (hl : r.Labelled) (hr : Rule inf maxPaths h r r') : r'.Labelled := by
  intro hup f hf
  cases hr with
  | keep => exact hl hup f hf
  | lose _ hup _ hsub => exact hl hup f (hsub.subset hf)
  | freeze => exact hl hup f hf
  | renew a =>
    obtain rfl : f = a.hop true := by simpa using hf
    rfl
  | extend a _ hup hs =>
    rcases List.mem_append.1 hf with hf | hf
    · exact hl hup f hf
    · obtain rfl : f = a.hop false := by simpa using hf
      exact hs.symm
  | errorLose _ _ _ hup _ _ hsub => exact hl hup f (hsub.subset hf)
  | ptaLose hs n hup _ hne hsub => exact (hl hup f (hsub.subset hf)).trans (hsame _ _ _ rfl hne).symm
  | errorFall | ptaFall | failed | expired | repaired => cases hf

end Route.Labelled

/-! ## Parity -/

/-- The numbers of RREQs and RREPs are even, and so is the number a PTA leaves on a live entry. -/
def Heard.Even : Heard → Prop
  | .advert a => a.seqno % 2 = 0
  | .pta r hs n => hs ≠ [] → max r.highest n % 2 = 0
  | _ => True

def Route.EvenUp (r : Route) : Prop := r.flags = .up → r.seqno % 2 = 0

theorem Route.EvenUp.rule {inf : Nat} {maxPaths : Int} {h : Heard} {r r' : Route} (hh : h.Even) (he : r.EvenUp)
    (hr : Rule inf maxPaths h r r') : r'.EvenUp := by
  intro hup
  cases hr with
  | keep | freeze => exact he hup
  | lose _ hup | errorLose _ _ _ hup => exact he hup
  | renew a => exact hh
  | extend a _ hup => exact he hup
  | ptaLose _ _ _ _ hne => exact hh hne
  | errorFall | ptaFall | failed | expired | repaired => cases hup

/-- No number wraps before this one. -/
def seqnoLimit : Nat := 4294967294

theorem Route.le_failedSeqno {r : Route} (hs : r.seqno < seqnoLimit) : r.seqno ≤ r.failedSeqno := by
  have hu : u32 (r.seqno + 1) = r.seqno + 1 := u32_of_lt (by unfold seqnoLimit at hs; omega)
  unfold Route.failedSeqno
  rw [hu]
  omega

theorem Route.failedSeqno_le_expiredSeqno {r : Route} (hs : r.seqno < seqnoLimit) (hh : r.highest < seqnoLimit) :
    r.failedSeqno ≤ r.expiredSeqno := by
  have hu : u32 (r.seqno + 1) = r.seqno + 1 := u32_of_lt (by unfold seqnoLimit at hs; omega)
  have hf : r.failedSeqno < 4294967295 := by
    unfold Route.failedSeqno
    rw [hu]
    unfold seqnoLimit at *
    omega
  unfold Route.expiredSeqno
  split
  · rw [u32_of_lt (by omega)]
    omega
  · exact Nat.le_refl _

theorem Route.odd_expiredSeqno (r : Route) : r.expiredSeqno % 2 = 1 := by
  unfold Route.expiredSeqno
  split
  · rw [u32_mod_two]
    omega
  · omega

/-- What a packet may say for the parity of numbers to tell a live entry from a dead one. -/
def Heard.Settled : Heard → Prop
  | .advert a => a.seqno % 2 = 0 ∧ 0 < a.seqno ∧ a.seqno < seqnoLimit
  | .error slots => ∀ s ∈ slots, (s.2 % 2 = 1 ∨ s.2 = 0) ∧ s.2 < seqnoLimit
  | .pta r hs n => n < seqnoLimit ∧ (hs = [] → max r.highest n % 2 = 1)
  | _ => True

/-- An entry that is not live has an odd number, or the 0 it was made with. -/
structure Route.Settled (r : Route) : Prop where
  up : r.flags = .up → 0 < r.seqno ∧ r.seqno < seqnoLimit
  down : r.flags ≠ .up → r.seqno % 2 = 1 ∨ r.seqno = 0
  highest : r.highest % 2 = 1 ∨ r.highest ≤ r.seqno
  limit : r.highest < seqnoLimit

namespace Route.Settled

variable {inf : Nat} {maxPaths : Int} {h : Heard} {r r' : Route}

theorem fresh (d : NsAddr) (adv : Nat) : Route.Settled ⟨d, .down, 0, adv, 0, 0, []⟩ where
  up := nofun
  down := fun _ => .inr rfl
  highest := .inr (Nat.le_refl 0)
  limit := show 0 < seqnoLimit by decide

theorem fall (hr : r.Settled) {s : Nat} (hs : s % 2 = 1) (hle : r.seqno ≤ s) (inf : Nat) : (r.fall inf s).Settled where
  up := nofun
  down := fun _ => .inl hs
  highest := hr.highest.imp_right (fun h => h.trans hle)
  limit := hr.limit

theorem odd_failedSeqno (hr : r.Settled) (hup : r.flags = .up) (heven : r.seqno % 2 = 0) : r.failedSeqno % 2 = 1 := by
  obtain ⟨-, hlt⟩ := hr.up hup
  have := hr.highest
  have hu : u32 (r.seqno + 1) = r.seqno + 1 := u32_of_lt (by unfold seqnoLimit at hlt; omega)
  unfold Route.failedSeqno
  rw [hu]
  omega

theorem rule (hh : h.Settled) (hr : r.Settled) (hrule : Rule inf maxPaths h r r') : r'.Settled := by
  cases hrule with
  | keep => exact hr
  | lose => exact ⟨hr.up, hr.down, hr.highest, hr.limit⟩
  | freeze => exact ⟨hr.up, hr.down, hr.highest, hr.limit⟩
  | renew a _ hlt =>
    have := hr.highest
    exact ⟨fun _ => hh.2, fun h => absurd rfl h, this.imp_right (fun h => h.trans hlt.le), hr.limit⟩
  | extend => exact ⟨hr.up, hr.down, hr.highest, hr.limit⟩
  | errorLose n _ hmem hup hle =>
    have hslot := hh _ hmem
    have h1 := hr.highest
    have h2 := hr.up hup
    have h3 := hr.limit
    refine ⟨hr.up, hr.down, .inl ?_, by show max r.highest n < _; omega⟩
    show max r.highest n % 2 = 1
    omega
  | errorFall n hmem hup hle =>
    have hslot := hh _ hmem
    have h1 := hr.highest
    have h2 := hr.up hup
    have h3 := hr.limit
    have hodd : max r.highest n % 2 = 1 := by omega
    exact ⟨nofun, fun _ => .inl hodd, .inl hodd, by show max r.highest n < _; omega⟩
  | ptaLose hs n hup hle hne =>
    have hn : n < seqnoLimit := hh.1
    have h2 := hr.up hup
    have h3 := hr.limit
    exact ⟨fun _ => ⟨by show 0 < max r.highest n; omega, by show max r.highest n < _; omega⟩,
      fun h => absurd hup h, .inr (Nat.le_refl _), by show max r.highest n < _; omega⟩
  | ptaFall n hup hle =>
    have hn : n < seqnoLimit := hh.1
    have hodd : max r.highest n % 2 = 1 := hh.2 rfl
    have h3 := hr.limit
    exact ⟨nofun, fun _ => .inl hodd, .inl hodd, by show max r.highest n < _; omega⟩
  | failed hup heven => exact hr.fall (hr.odd_failedSeqno hup heven) (Route.le_failedSeqno (hr.up hup).2) inf
  | expired hup =>
    have hle := Route.failedSeqno_le_expiredSeqno (hr.up hup).2 hr.limit
    exact hr.fall (Route.odd_expiredSeqno r) ((Route.le_failedSeqno (hr.up hup).2).trans hle) inf
  | repaired hnup => exact ⟨nofun, fun _ => hr.down hnup, hr.highest, hr.limit⟩

end Route.Settled

/-! ## What a live entry may advertise -/

/-- Hop counts stay below `INFINITY2` and numbers do not wrap. -/
def Heard.Fits : Heard → Prop
  | .advert a => a.seqno < seqnoLimit ∧ a.hops + 1 < infinity2
  | .error slots => ∀ s ∈ slots, s.2 < seqnoLimit
  | .pta _ _ n => n < seqnoLimit
  | _ => True

/-- A live entry advertises no less than the length of any of its paths, and only its first path may have renewed it. -/
structure Route.Ordered (inf : Nat) (r : Route) : Prop where
  below : r.flags = .up → ∀ f ∈ r.hops, f.hopcount ≤ r.adv
  short : ∀ f ∈ r.hops, 0 < f.hopcount ∧ f.hopcount < infinity2
  frozen : r.flags = .up → r.adv = inf ∨ r.adv < infinity2
  tail : ∀ f ∈ r.hops.tail, f.origin.renewed = false
  limit : r.flags = .up → r.seqno < seqnoLimit
  highest : r.highest < seqnoLimit

namespace Route.Ordered

variable {inf : Nat} {maxPaths : Int} {h : Heard} {r r' : Route}

theorem fresh (inf : Nat) (d : NsAddr) (adv : Nat) : Route.Ordered inf ⟨d, .down, 0, adv, 0, 0, []⟩ where
  below := nofun
  short := fun _ hf => nomatch hf
  frozen := nofun
  tail := fun _ hf => nomatch hf
  limit := nofun
  highest := show 0 < seqnoLimit by decide

theorem fall (hr : r.Ordered inf) (s : Nat) : (r.fall inf s).Ordered inf where
  below := nofun
  short := fun _ hf => nomatch hf
  frozen := nofun
  tail := fun _ hf => nomatch hf
  limit := nofun
  highest := hr.highest

theorem left (hr : r.Ordered inf) {hs : List Hop} (hsub : hs.Sublist r.hops) : (r.left hs).Ordered inf where
  below := fun hup f hf => hr.below hup f (hsub.subset hf)
  short := fun f hf => hr.short f (hsub.subset hf)
  frozen := hr.frozen
  tail := fun f hf => hr.tail f (hsub.tail.subset hf)
  limit := hr.limit
  highest := hr.highest

theorem renumber (hr : r.Ordered inf) {s n : Nat} (hs : s < seqnoLimit) (hn : n < seqnoLimit) :
    Route.Ordered inf { r with seqno := s, highest := n } :=
  ⟨hr.below, hr.short, hr.frozen, hr.tail, fun _ => hs, hn⟩

theorem extend (hr : r.Ordered inf) {a : Advert} (ha : a.hops + 1 < infinity2) (hlt : a.hops < r.adv) :
    Route.Ordered inf { r with num := r.num + 1, hops := r.hops ++ [a.hop false] } where
  below := by
    intro hup f hf
    rcases List.mem_append.1 hf with hf | hf
    · exact hr.below hup f hf
    · obtain rfl : f = a.hop false := by simpa using hf
      exact hlt
  short := by
    intro f hf
    rcases List.mem_append.1 hf with hf | hf
    · exact hr.short f hf
    · obtain rfl : f = a.hop false := by simpa using hf
      exact ⟨Nat.succ_pos _, ha⟩
  frozen := hr.frozen
  tail := by
    intro f hf
    cases hh : r.hops with
    | nil => simp [hh] at hf
    | cons g t =>
      have ht := hr.tail
      simp only [hh, List.cons_append, List.tail_cons, List.mem_append, List.mem_singleton] at hf ht
      rcases hf with hf | rfl
      · exact ht f hf
      · rfl
  limit := hr.limit
  highest := hr.highest

theorem rule (hinf : infinity2 ≤ inf) (hfit : h.Fits) (hr : r.Ordered inf) (hrule : Rule inf maxPaths h r r') :
    r'.Ordered inf := by
  cases hrule with
  | keep => exact hr
  | lose hs _ _ hsub => exact hr.left hsub
  | freeze hne =>
    exact ⟨fun _ f hf => le_maxHops hf, hr.short, fun _ => .inr (maxHops_lt hne hr.short), hr.tail, hr.limit, hr.highest⟩
  | renew a =>
    obtain ⟨hs, hh⟩ := hfit
    refine ⟨fun _ f hf => ?_, fun f hf => ?_, fun _ => .inl rfl, nofun, fun _ => hs, hr.highest⟩
    · obtain rfl : f = a.hop true := by simpa using hf
      exact hh.le.trans hinf
    · obtain rfl : f = a.hop true := by simpa using hf
      exact ⟨Nat.succ_pos _, hh⟩
  | extend a _ _ _ hlt => exact hr.extend hfit.2 hlt
  | errorLose n hs hmem hup _ _ hsub =>
    exact (hr.left hsub).renumber (hr.limit hup) (max_lt hr.highest (hfit _ hmem))
  | errorFall n hmem =>
    have hn := max_lt hr.highest (hfit _ hmem)
    exact (hr.fall _).renumber hn hn
  | ptaLose hs n _ _ _ hsub =>
    have hn : max r.highest n < seqnoLimit := max_lt hr.highest hfit
    exact (hr.left hsub).renumber hn hn
  | ptaFall n =>
    have hn : max r.highest n < seqnoLimit := max_lt hr.highest hfit
    exact (hr.fall _).renumber hn hn
  | failed | expired | repaired => exact hr.fall _

end Route.Ordered

/-- The entry once advertised number `s`, `h` hops and last hop `l`, and has not fallen behind it since: its number has
grown, or, if it is live, it advertises no more hops and the path that renewed it, if still the first, has last hop `l`. -/
def Route.Vouches (s h : Nat) (l : NsAddr) (r : Route) : Prop :=
  s < r.seqno ∨ r.seqno = s ∧
    (r.flags = .up → r.adv ≤ h ∧ ∀ f ∈ r.hops.head?, f.origin = ⟨s, true⟩ → f.lasthop = l)

theorem mem_head?_of_sublist {α : Type*} {l l' : List α} {a : α} (hsub : l'.Sublist l) (ha : a ∈ l'.head?) :
    a ∈ l.head? ∨ a ∈ l.tail := by
  cases hsub with
  | slnil => cases ha
  | cons b hs => exact .inr (hs.subset (List.mem_of_mem_head? ha))
  | cons_cons b hs => exact .inl ha

namespace Route.Vouches

variable {inf : Nat} {maxPaths : Int} {h : Heard} {r r' : Route} {s k : Nat} {l : NsAddr}

theorem le (hv : r.Vouches s k l) : s ≤ r.seqno := by
  rcases hv with hv | hv
  · exact hv.le
  · exact hv.1.ge

theorem of_lt (hlt : s < r.seqno) : r.Vouches s k l := .inl hlt

theorem of_le_down (hle : s ≤ r.seqno) (hd : r.flags = .down) : r.Vouches s k l := by
  rcases hle.lt_or_eq with hlt | heq
  · exact .inl hlt
  · exact .inr ⟨heq.symm, fun hup => by rw [hd] at hup; cases hup⟩

theorem fall (hv : r.Vouches s k l) {n : Nat} (hle : r.seqno ≤ n) : (r.fall inf n).Vouches s k l :=
  of_le_down (hv.le.trans hle) rfl

/-- Losing paths keeps the promise: a path that moved to the front is not the one that renewed the entry. -/
theorem left (hv : r.Vouches s k l) (hr : r.Ordered inf) {hs : List Hop} (hsub : hs.Sublist r.hops) :
    (r.left hs).Vouches s k l := by
  refine hv.imp_right (fun ⟨heq, hup⟩ => ⟨heq, fun hu => ⟨(hup hu).1, fun f hf ho => ?_⟩⟩)
  rcases mem_head?_of_sublist hsub hf with hf | hf
  · exact (hup hu).2 f hf ho
  · have := hr.tail f hf
    rw [ho] at this
    cases this

/-- **An advertisement once made is never fallen behind.** -/
theorem rule (hinf : infinity2 ≤ inf) (hk : k < infinity2) (hs : r.Sound maxPaths) (hr : r.Ordered inf)
    (hv : r.Vouches s k l) (hrule : Rule inf maxPaths h r r') :
    r'.Vouches s k l := by
  cases hrule with
  | keep => exact hv
  | lose hs _ _ hsub => exact hv.left hr hsub
  | freeze _ hadv =>
    refine hv.imp_right (fun ⟨heq, hup⟩ => ⟨heq, fun hu => ?_⟩)
    have := (hup hu).1
    omega
  | renew a _ hlt => exact of_lt (hv.le.trans_lt hlt)
  | extend a _ hup =>
    refine hv.imp_right (fun ⟨heq, hu⟩ => ⟨heq, fun h => ⟨(hu h).1, fun f hf => (hu h).2 f ?_⟩⟩)
    obtain ⟨g, t, hg⟩ := List.exists_cons_of_ne_nil (hs.up.1 hup)
    simpa [hg] using hf
  | errorLose n hs _ _ _ _ hsub => exact hv.left hr hsub
  | errorFall n _ _ hle => exact of_le_down (hv.le.trans (hle.trans (Nat.le_max_right _ _))) rfl
  | ptaLose hs n _ hle _ hsub =>
    rcases (hle.trans (Nat.le_max_right r.highest n)).lt_or_eq with hlt | heq
    · exact of_lt (hv.le.trans_lt hlt)
    · have := hv.left hr hsub
      unfold Route.Vouches at this ⊢
      simp only [Route.left, ← heq] at this ⊢
      exact this
  | ptaFall n _ hle => exact of_le_down (hv.le.trans (hle.trans (Nat.le_max_right _ _))) rfl
  | failed hup => exact hv.fall (Route.le_failedSeqno (hr.limit hup))
  | expired hup =>
    have hle := Route.failedSeqno_le_expiredSeqno (hr.limit hup) hr.highest
    exact hv.fall ((Route.le_failedSeqno (hr.limit hup)).trans hle)
  | repaired => exact hv.fall (Nat.le_refl _)

end Route.Vouches

/-- The order of live entries along a path: a newer number, or the same with fewer hops. -/
def Route.Above (r r' : Route) : Prop := r.seqno < r'.seqno ∨ r.seqno = r'.seqno ∧ r'.adv < r.adv

namespace Route.Above

variable {inf : Nat} {r r' r'' : Route}

theorem trans (h : r.Above r') (h' : r'.Above r'') : r.Above r'' := by
  unfold Route.Above at *
  omega

theorem irrefl (r : Route) : ¬ r.Above r := by
  unfold Route.Above
  omega

/-- **A path leads up**: the live entry it leads to vouches for it. -/
theorem of_vouches (hl : r.Labelled) (hr : r.Ordered inf) (hup : r.flags = .up) {f : Hop} (hf : f ∈ r.hops) {k : Nat}
    (hk : f.hopcount = k + 1) (hup' : r'.flags = .up) (hv : r'.Vouches f.origin.seqno k f.lasthop) : r.Above r' := by
  have hle := hr.below hup f hf
  have hs := hl hup f hf
  rcases hv with hv | ⟨hv, hadv⟩
  · exact .inl (hs ▸ hv)
  · have := (hadv hup').1
    exact .inr ⟨by omega, by omega⟩

end Route.Above

end TeAomdv

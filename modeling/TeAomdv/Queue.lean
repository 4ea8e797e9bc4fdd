import TeAomdv.Agent
import TeAomdv.Lib.Fallible
import TeAomdv.Lib.Links
import Mathlib.Tactic.Abel
import Mathlib.Algebra.Order.Group.Multiset
/-!
# Queue — the buffer of packets as it is linked in memory (`teaomdv_rqueue.cc`)

The pointers, the counter and the asserts of `teaomdv_rqueue`, over a memory of packets with their `next_`.  The loops take
a number of steps; one above `limit_` is enough (`run_refines`).  `Fifo` says what the queue is for, on a list; the agent's
buffer is that list (`enque_fifo`, `deque_fifo`).
-/
namespace TeAomdv

open Fallible (ok_bind error_bind)

/-! ## The source -/

/-- A packet in memory, with its `next_`. -/
structure Cell where
  packet : Packet
  next : Option Nat

/-- `teaomdv_rqueue` and the memory it lives in; `dropped` is what was passed to `drop`.  `limit_` and `timeout_` keep the
constructor's values. -/
structure Rqueue where
  mem : Nat → Cell
  head : Option Nat := none
  tail : Option Nat := none
  len : Int := 0
  dropped : List (Packet × DropReason) := []

/-- How a call on the queue can end early: an assert, a null pointer followed, a loop that goes on. -/
inductive QueueFault
  | assertion
  | nullPointer
  | diverges
  deriving DecidableEq, Repr

/-- A call on the queue; a packet comes with whatever its `next_` was. -/
inductive QueueCall
  | enque (p : Packet) (stale : Option Nat)
  | deque
  | dequeFor (dst : NsAddr)

namespace Rqueue

def next (q : Rqueue) (a : Nat) : Option Nat := (q.mem a).next

/-- `p->next_ = v`. -/
def setNext (q : Rqueue) (a : Nat) (v : Option Nat) : Rqueue :=
  { q with mem := Function.update q.mem a { q.mem a with next := v } }

/-- `remove_head`. -/
def removeHead (q : Rqueue) : Except QueueFault (Option Nat × Rqueue) :=
  let len := if q.head.isSome then q.len - 1 else q.len
  if q.head = q.tail then .ok (q.head, { q with head := none, tail := none, len := len })
  else match q.head with
  | none => .error .nullPointer
  | some a => .ok (some a, { q with head := q.next a, len := len })

/-- The search of `findPacketWithDst` and `findAgedPacket`: the packet, or null, and the one before. -/
def find (n : Nat) (q : Rqueue) (test : Packet → Bool) : Except QueueFault (Option Nat × Option Nat) :=
  match Links.scan q.next (fun a => test (q.mem a).packet) n q.head none with
  | none => .error .diverges
  | some found => .ok found

def findPacketWithDst (n : Nat) (q : Rqueue) (dst : NsAddr) : Except QueueFault (Option Nat × Option Nat) :=
  q.find n (fun p => p.daddr = dst)

def findAgedPacket (n : Nat) (now : ℚ) (q : Rqueue) : Except QueueFault (Option Nat × Option Nat) :=
  q.find n (fun p => p.ts < now)

/-- `verifyQueue`. -/
def verifyQueue (n : Nat) (q : Rqueue) : Except QueueFault Rqueue :=
  match Links.tally q.next n q.head none 0 with
  | none => .error .diverges
  | some (cnt, prev) => if (cnt : Int) = q.len ∧ prev = q.tail then .ok q else .error .assertion

/-- The assert on what a search found. -/
def checkFound (q : Rqueue) (p prev : Option Nat) : Except QueueFault Rqueue :=
  if p = none ∨ (p = q.head ∧ prev = none) then .ok q
  else match prev with
  | none => .error .nullPointer
  | some b => if q.next b = p then .ok q else .error .assertion

/-- The three cases of a removal: at the head, at the tail, between. -/
def unlink (q : Rqueue) (a : Nat) (prev : Option Nat) : Except QueueFault Rqueue :=
  if q.head = some a then q.removeHead >>= fun r => .ok r.2
  else match prev with
  | none => .error .nullPointer
  | some b =>
    if q.tail = some a then .ok { q.setNext b none with tail := some b, len := q.len - 1 }
    else .ok { q.setNext b (q.next a) with len := q.len - 1 }

/-- The loop of `purge`, with its own bound. -/
def purgeLoop (n : Nat) (now : ℚ) : Nat → Rqueue → Except QueueFault Rqueue
  | 0, _ => .error .diverges
  | k + 1, q =>
    q.findAgedPacket n now >>= fun found =>
      match found.1 with
      | none => .ok q
      | some a => do
        let q ← q.checkFound (some a) found.2
        let q ← q.unlink a found.2
        let q ← q.verifyQueue n
        purgeLoop n now k q

def purge (n : Nat) (now : ℚ) (q : Rqueue) : Except QueueFault Rqueue := purgeLoop n now n q

/-- The eviction of `enque`. -/
def evict (now : ℚ) (q : Rqueue) : Except QueueFault Rqueue :=
  if q.len = teaomdvRtqMaxLen then
    q.removeHead >>= fun r =>
      match r.1 with
      | none => .error .assertion
      | some a =>
        let p0 := (r.2.mem a).packet
        .ok { r.2 with dropped := r.2.dropped ++ [(p0, if p0.ts > now then .rtrQfull else .rtrQtimeout)] }
  else .ok q

/-- The packet goes to the end. -/
def append (q : Rqueue) (a : Nat) : Except QueueFault Rqueue :=
  match q.head with
  | none => .ok { q with head := some a, tail := some a, len := q.len + 1 }
  | some _ =>
    match q.tail with
    | none => .error .nullPointer
    | some b => .ok { q.setNext b (some a) with tail := some a, len := q.len + 1 }

/-- `p` as the caller hands it over. -/
def store (q : Rqueue) (p : Packet) (stale : Option Nat) : Rqueue := { q with mem := Function.update q.mem p.ptr ⟨p, stale⟩ }

/-- `enque`. -/
def enque (n : Nat) (now : ℚ) (q : Rqueue) (p : Packet) (stale : Option Nat) : Except QueueFault Rqueue := do
  let q ← (q.store p stale).purge n now
  let q ← (q.store { p with ts := now + teaomdvRtqTimeout } none).evict now
  let q ← q.append p.ptr
  q.verifyQueue n

/-- `deque()`. -/
def deque (n : Nat) (now : ℚ) (q : Rqueue) : Except QueueFault (Option Nat × Rqueue) := do
  let q ← q.purge n now
  let r ← q.removeHead
  let q ← r.2.verifyQueue n
  .ok (r.1, q)

/-- `deque(dst)`. -/
def dequeFor (n : Nat) (now : ℚ) (q : Rqueue) (dst : NsAddr) : Except QueueFault (Option Nat × Rqueue) := do
  let q ← q.purge n now
  let found ← q.findPacketWithDst n dst
  let q ← q.checkFound found.1 found.2
  match found.1 with
  | none => .ok (none, q)
  | some a =>
    let q ← q.unlink a found.2
    let q ← q.verifyQueue n
    .ok (some a, q)

/-- A call at time `now`, with the packet it returns. -/
def call (n : Nat) (now : ℚ) (q : Rqueue) : QueueCall → Except QueueFault (Option Packet × Rqueue)
  | .enque p stale => q.enque n now p stale >>= fun q => .ok (none, q)
  | .deque => q.deque n now >>= fun r => .ok (r.1.map (fun a => (r.2.mem a).packet), r.2)
  | .dequeFor dst => q.dequeFor n now dst >>= fun r => .ok (r.1.map (fun a => (r.2.mem a).packet), r.2)

/-- Calls one after the other, with the packets they return. -/
def run (n : Nat) (q : Rqueue) : List (ℚ × QueueCall) → Except QueueFault (List Packet × Rqueue)
  | [] => .ok ([], q)
  | (now, c) :: cs => do
    let r ← q.call n now c
    let rs ← run n r.2 cs
    .ok (r.1.toList ++ rs.1, rs.2)

end Rqueue

/-! ## What the queue is for -/

/-- The addresses of packets. -/
def addrs (ps : List Packet) : List Nat := ps.map (·.ptr)

/-- The packets waiting, the oldest first, and those that were dropped. -/
structure Fifo where
  waiting : List Packet := []
  dropped : List (Packet × DropReason) := []

namespace Fifo

/-- The packets that have not timed out. -/
def live (now : ℚ) (ps : List Packet) : List Packet := ps.filter (fun p => ¬ p.ts < now)

/-- A call at time `now`, with the packet it returns: the oldest, the oldest for `dst`, or none.  A full queue drops its
oldest packet. -/
def call (now : ℚ) (f : Fifo) : QueueCall → Option Packet × Fifo
  | .enque p _ =>
    let ps := live now f.waiting
    let p := { p with ts := now + teaomdvRtqTimeout }
    match ps with
    | p0 :: rest =>
      if ps.length = teaomdvRtqMaxLen then
        (none, ⟨rest ++ [p], f.dropped ++ [(p0, if p0.ts > now then .rtrQfull else .rtrQtimeout)]⟩)
      else (none, ⟨ps ++ [p], f.dropped⟩)
    | [] => (none, ⟨[p], f.dropped⟩)
  | .deque => ((live now f.waiting).head?, ⟨(live now f.waiting).tail, f.dropped⟩)
  | .dequeFor dst =>
    ((live now f.waiting).find? (fun p => p.daddr = dst),
      ⟨(live now f.waiting).eraseP (fun p => p.daddr = dst), f.dropped⟩)

def run (f : Fifo) : List (ℚ × QueueCall) → List Packet × Fifo
  | [] => ([], f)
  | (now, c) :: cs =>
    let r := f.call now c
    let rs := run r.2 cs
    (r.1.toList ++ rs.1, rs.2)

/-- No packet is put in that is in already. -/
def Allows (f : Fifo) : List (ℚ × QueueCall) → Prop
  | [] => True
  | (now, c) :: cs => (∀ p s, c = .enque p s → p.ptr ∉ addrs f.waiting) ∧ Allows (f.call now c).2 cs

/-- No call comes after the time until which a packet still waiting may be kept. -/
def Timely (f : Fifo) : List (ℚ × QueueCall) → Prop
  | [] => True
  | (now, c) :: cs => (∀ p ∈ f.waiting, ¬ p.ts < now) ∧ Timely (f.call now c).2 cs

end Fifo

/-! ## Memory and list -/

theorem addrs_append (ps qs : List Packet) : addrs (ps ++ qs) = addrs ps ++ addrs qs := List.map_append

theorem getLast?_addrs (ps : List Packet) (p : Packet) : (addrs (ps ++ [p])).getLast? = some p.ptr := by
  rw [addrs_append]
  exact List.getLast?_concat

theorem eraseP_split {test : Packet → Bool} {as bs : List Packet} {p : Packet} (has : ∀ r ∈ as, (!test r) = true)
    (hp : test p = true) : (as ++ p :: bs).eraseP test = as ++ bs := by
  rw [List.eraseP_append_right _ (fun r hr => by simpa using has r hr), List.eraseP_cons_of_pos hp]

theorem length_addrs (ps : List Packet) : (addrs ps).length = ps.length := List.length_map _

namespace Rqueue

variable {n : Nat} {now : ℚ} {q q' : Rqueue} {ps as bs : List Packet} {p : Packet} {test : Packet → Bool}

/-- **The pointer structure represents this list.** -/
structure Holds (q : Rqueue) (ps : List Packet) : Prop where
  chain : Links.Chain q.next q.head (addrs ps)
  tail : q.tail = (addrs ps).getLast?
  len : q.len = ps.length
  nodup : (addrs ps).Nodup
  stored : ∀ p ∈ ps, (q.mem p.ptr).packet = p

/-- The packets in memory, and what was dropped, are as before. -/
structure Same (q q' : Rqueue) : Prop where
  packet : ∀ a, (q'.mem a).packet = (q.mem a).packet
  dropped : q'.dropped = q.dropped

theorem Same.refl (q : Rqueue) : Same q q := ⟨fun _ => rfl, rfl⟩

theorem Same.trans {q'' : Rqueue} (h : Same q q') (h' : Same q' q'') : Same q q'' :=
  ⟨fun a => (h'.packet a).trans (h.packet a), h'.dropped.trans h.dropped⟩

theorem next_setNext (q : Rqueue) (a : Nat) (v : Option Nat) : (q.setNext a v).next = Function.update q.next a v := by
  funext b
  unfold next setNext
  by_cases h : b = a
  · subst h
    simp
  · simp [h]

theorem same_setNext (q : Rqueue) (a : Nat) (v : Option Nat) : Same q (q.setNext a v) := by
  refine ⟨fun b => ?_, rfl⟩
  unfold setNext
  by_cases h : b = a
  · subst h
    simp
  · simp [h]

theorem Holds.empty (hh : q.head = none) (ht : q.tail = none) (hl : q.len = 0) : q.Holds [] :=
  ⟨hh, ht, hl, List.nodup_nil, fun _ hm => nomatch hm⟩

/-- A cell outside the list may be written. -/
theorem Holds.store (h : q.Holds ps) (hp : p.ptr ∉ addrs ps) (s : Option Nat) : (q.store p s).Holds ps where
  chain := h.chain.frame (fun a ha => by
    have hne : a ≠ p.ptr := fun he => hp (he ▸ ha)
    simp [next, Rqueue.store, hne])
  tail := h.tail
  len := h.len
  nodup := h.nodup
  stored := by
    intro r hr
    have hne : r.ptr ≠ p.ptr := fun he => hp (he ▸ List.mem_map_of_mem hr)
    simpa [Rqueue.store, hne] using h.stored r hr

theorem removeHead_holds (h : q.Holds ps) :
    ∃ q', q.removeHead = .ok (ps.head?.map (·.ptr), q') ∧ q'.Holds ps.tail ∧ Same q q' := by
  have hhead := h.chain.head
  have htail := h.tail
  unfold removeHead
  simp only
  cases ps with
  | nil =>
    have heq : q.head = q.tail := hhead.trans htail.symm
    rw [if_pos heq]
    have hlen : (if q.head.isSome then q.len - 1 else q.len) = 0 := by
      rw [hhead]
      simpa [addrs] using h.len
    have hempty : Holds { q with head := none, tail := none, len := if q.head.isSome then q.len - 1 else q.len } [] :=
      .empty rfl rfl hlen
    refine ⟨_, ?_, hempty, ⟨fun _ => rfl, rfl⟩⟩
    rw [hhead]
    rfl
  | cons p ps =>
    have hlen : (if q.head.isSome then q.len - 1 else q.len) = ps.length := by
      have := h.len
      rw [hhead]
      simp only [addrs, List.map_cons, List.head?_cons, Option.isSome_some, if_true, List.length_cons] at this ⊢
      omega
    have hnd := List.nodup_cons.1 h.nodup
    have hstored : ∀ r ∈ ps, (q.mem r.ptr).packet = r := fun r hr => h.stored r (List.mem_cons_of_mem _ hr)
    have hsome : q.head = some p.ptr := hhead
    by_cases heq : q.head = q.tail
    · rw [if_pos heq]
      obtain rfl : ps = [] := by
        cases ps with
        | nil => rfl
        | cons r ps =>
          rw [hsome, htail] at heq
          refine absurd ?_ hnd.1
          have hlast : (addrs (r :: ps)).getLast? = some p.ptr := by
            rw [heq]
            rfl
          exact List.mem_of_getLast? hlast
      have hempty : Holds { q with head := none, tail := none, len := if q.head.isSome then q.len - 1 else q.len } [] :=
        .empty rfl rfl hlen
      refine ⟨_, ?_, hempty, ⟨fun _ => rfl, rfl⟩⟩
      rw [hsome]
      rfl
    · rw [if_neg heq, hsome]
      refine ⟨_, rfl, ⟨h.chain.2, ?_, ?_, hnd.2, hstored⟩, ⟨fun _ => rfl, rfl⟩⟩
      · show q.tail = (addrs ps).getLast?
        cases ps with
        | nil => exact absurd (hsome.trans htail.symm) heq
        | cons r ps =>
          rw [htail]
          rfl
      · rw [hsome] at hlen
        exact hlen

/-! ## Searching -/

theorem find_none (h : q.Holds ps) (hn : ps.length < n) (ht : ∀ p ∈ ps, test p = false) :
    q.find n test = .ok (none, (addrs ps).getLast?) := by
  unfold find
  rw [Links.scan_none h.chain (by rwa [length_addrs]), Option.or_none]
  intro a ha
  obtain ⟨p, hp, rfl⟩ := List.mem_map.1 ha
  rw [h.stored p hp]
  exact ht p hp

theorem find_some (h : q.Holds (as ++ p :: bs)) (hn : (as ++ p :: bs).length < n) (ht : ∀ p ∈ as, test p = false)
    (hp : test p = true) : q.find n test = .ok (some p.ptr, (addrs as).getLast?) := by
  have hchain := h.chain
  rw [addrs_append] at hchain
  unfold find
  rw [Links.scan_some (a := p.ptr) hchain, Option.or_none]
  · rw [length_addrs]
    rw [List.length_append] at hn
    omega
  · intro a ha
    obtain ⟨r, hr, rfl⟩ := List.mem_map.1 ha
    rw [h.stored r (List.mem_append_left _ hr)]
    exact ht r hr
  · rw [h.stored p (List.mem_append_right _ List.mem_cons_self)]
    exact hp

theorem verifyQueue_holds (h : q.Holds ps) (hn : ps.length < n) : q.verifyQueue n = .ok q := by
  unfold verifyQueue
  rw [Links.tally_eq h.chain (by rwa [length_addrs])]
  simp only [Option.or_none]
  rw [if_pos ⟨by rw [h.len, length_addrs, Nat.zero_add], h.tail.symm⟩]

theorem checkFound_holds (h : q.Holds (as ++ p :: bs)) : q.checkFound (some p.ptr) (addrs as).getLast? = .ok q := by
  have hchain := h.chain
  unfold checkFound
  rcases List.eq_nil_or_concat' as with rfl | ⟨as, b, rfl⟩
  · rw [if_pos (.inr ⟨hchain.1.symm, rfl⟩)]
  · have hlast : (addrs (as ++ [b])).getLast? = some b.ptr := by simp [addrs]
    rw [addrs_append, addrs_append, List.append_assoc] at hchain
    rw [if_neg (by simp [hlast]), hlast]
    simp only
    rw [if_pos hchain.next_eq]

/-! ## Removal -/

/-- **The three cases of a removal take one packet out.** -/
theorem unlink_holds (h : q.Holds (as ++ p :: bs)) :
    ∃ q', q.unlink p.ptr (addrs as).getLast? = .ok q' ∧ q'.Holds (as ++ bs) ∧ Same q q' := by
  unfold unlink
  rcases List.eq_nil_or_concat' as with rfl | ⟨as, b, rfl⟩
  · obtain ⟨q', hq', hh, hs⟩ := removeHead_holds h
    rw [if_pos h.chain.1, hq']
    exact ⟨q', rfl, hh, hs⟩
  · have hlast := getLast?_addrs as b
    have hlist : addrs (as ++ [b] ++ p :: bs) = addrs as ++ b.ptr :: p.ptr :: addrs bs := by simp [addrs]
    have hchain := h.chain
    have hnd := h.nodup
    rw [hlist] at hchain hnd
    have hhead : q.head ≠ some p.ptr := by
      intro he
      rw [hchain.head] at he
      have hmem : p.ptr ∈ addrs as ++ [b.ptr] := by
        cases as with
        | nil => exact Option.some.inj he ▸ List.mem_cons_self
        | cons c as => exact Option.some.inj he ▸ List.mem_cons_self
      have : (addrs as ++ b.ptr :: p.ptr :: addrs bs) = (addrs as ++ [b.ptr]) ++ p.ptr :: addrs bs := by simp
      rw [this] at hnd
      exact (List.nodup_append.1 hnd).2.2 _ hmem _ List.mem_cons_self rfl
    have hunlink := hchain.unlink hnd
    have hsub : (addrs as ++ b.ptr :: addrs bs).Sublist (addrs as ++ b.ptr :: p.ptr :: addrs bs) :=
      .append_left (.cons_cons _ (.cons _ (.refl _))) _
    have hnd' := hnd.sublist hsub
    have hlist' : addrs (as ++ [b] ++ bs) = addrs as ++ b.ptr :: addrs bs := by simp [addrs]
    have hstored : ∀ (v : Option Nat), ∀ r ∈ as ++ [b] ++ bs, ((q.setNext b.ptr v).mem r.ptr).packet = r := by
      intro v r hr
      rw [(same_setNext q b.ptr v).packet]
      refine h.stored r ?_
      rcases List.mem_append.1 hr with hr | hr
      · exact List.mem_append_left _ hr
      · exact List.mem_append_right _ (List.mem_cons_of_mem _ hr)
    have hlen : q.len - 1 = (as ++ [b] ++ bs).length := by
      have := h.len
      simp only [List.length_append, List.length_cons] at this ⊢
      omega
    have hsame (v t : Option Nat) : Same q { q.setNext b.ptr v with tail := t, len := q.len - 1 } :=
      ⟨(same_setNext q b.ptr v).packet, rfl⟩
    rw [if_neg hhead, hlast]
    simp only
    split
    · rename_i htail
      obtain rfl : bs = [] := by
        rcases List.eq_nil_or_concat' bs with rfl | ⟨bs, c, rfl⟩
        · rfl
        · have hc : c.ptr = p.ptr := by
            have hend : as ++ [b] ++ p :: (bs ++ [c]) = (as ++ [b] ++ p :: bs) ++ [c] := by simp
            have := h.tail.symm.trans htail
            rw [hend, getLast?_addrs] at this
            exact Option.some.inj this
          have hnd2 := (List.nodup_cons.1 (List.nodup_append.1 hnd).2.1).2
          exact absurd (hc ▸ List.mem_map_of_mem (List.mem_append_right _ List.mem_cons_self)) (List.nodup_cons.1 hnd2).1
      have hnone : q.next p.ptr = none := by
        have : addrs as ++ b.ptr :: p.ptr :: addrs [] = (addrs as ++ [b.ptr]) ++ [p.ptr] := by simp [addrs]
        rw [this] at hchain
        exact hchain.last
      refine ⟨_, rfl, ⟨?_, ?_, hlen, hlist' ▸ hnd', hstored none⟩, hsame _ _⟩
      · rw [hnone, ← next_setNext] at hunlink
        rw [hlist']
        exact hunlink
      · rw [List.append_nil, getLast?_addrs]
    · rename_i htail
      refine ⟨_, rfl, ⟨?_, ?_, hlen, hlist' ▸ hnd', hstored _⟩, hsame _ _⟩
      · rw [← next_setNext] at hunlink
        rw [hlist']
        exact hunlink
      · show q.tail = _
        rw [h.tail]
        rcases List.eq_nil_or_concat' bs with rfl | ⟨bs, c, rfl⟩
        · exact absurd (h.tail.trans (getLast?_addrs _ p)) htail
        · have hend : as ++ [b] ++ p :: (bs ++ [c]) = (as ++ [b] ++ p :: bs) ++ [c] := by simp
          rw [hend, getLast?_addrs, ← List.append_assoc, getLast?_addrs]

/-- **`purge` leaves the packets that have not timed out.** -/
theorem purge_holds (h : q.Holds ps) (hn : ps.length < n) :
    ∃ q', q.purge n now = .ok q' ∧ q'.Holds (Fifo.live now ps) ∧ Same q q' := by
  have key : ∀ (k : Nat) (ps : List Packet) (q : Rqueue), ps.length < k → ps.length < n → q.Holds ps →
      ∃ q', purgeLoop n now k q = .ok q' ∧ q'.Holds (Fifo.live now ps) ∧ Same q q' := by
    intro k
    induction k with
    | zero => exact fun _ _ hk => absurd hk (Nat.not_lt_zero _)
    | succ k ih =>
      intro ps q hk hn h
      unfold purgeLoop findAgedPacket
      cases hfind : ps.find? (fun p => p.ts < now) with
      | none =>
        have hnone := List.find?_eq_none.1 hfind
        rw [find_none h hn (fun p hp => by simpa using hnone p hp), ok_bind]
        have hlive : Fifo.live now ps = ps := List.filter_eq_self.2 (fun p hp => by simpa using hnone p hp)
        exact ⟨q, rfl, hlive.symm ▸ h, .refl q⟩
      | some p =>
        obtain ⟨hp, as, bs, rfl, has⟩ := List.find?_eq_some_iff_append.1 hfind
        have has' : ∀ r ∈ as, decide (r.ts < now) = false := fun r hr => by simpa using has r hr
        rw [find_some h hn has' hp, ok_bind]
        simp only
        obtain ⟨q₁, hq₁, hh, hs⟩ := unlink_holds h
        have hlt : (as ++ bs).length < (as ++ p :: bs).length := by simp
        rw [checkFound_holds h, ok_bind, hq₁, ok_bind, verifyQueue_holds hh (hlt.trans hn), ok_bind]
        obtain ⟨q₂, hq₂, hh₂, hs₂⟩ := ih (as ++ bs) q₁ (by omega) (hlt.trans hn) hh
        have hlive : Fifo.live now (as ++ p :: bs) = Fifo.live now (as ++ bs) := by
          unfold Fifo.live
          rw [List.filter_append, List.filter_append, List.filter_cons_of_neg (by simpa using hp)]
        exact ⟨q₂, hq₂, hlive ▸ hh₂, hs.trans hs₂⟩
  exact key n ps q hn hn h

/-! ## The calls -/

/-- A full queue loses its oldest packet to `drop`. -/
theorem evict_holds (h : q.Holds ps) : ∃ q', q.evict now = .ok q' ∧
    (∀ a, (q'.mem a) = q.mem a) ∧ if ps.length = teaomdvRtqMaxLen then q'.Holds ps.tail ∧
      q'.dropped = q.dropped ++ ps.head?.toList.map (fun p0 => (p0, if p0.ts > now then .rtrQfull else .rtrQtimeout))
    else q'.Holds ps ∧ q'.dropped = q.dropped := by
  unfold evict
  by_cases hfull : ps.length = teaomdvRtqMaxLen
  · have hlen : q.len = teaomdvRtqMaxLen := by
      rw [h.len, hfull]
    obtain ⟨q', hq', hh, hs⟩ := removeHead_holds h
    have hmem : q'.mem = q.mem := by
      unfold removeHead at hq'
      simp only at hq'
      split at hq'
      · obtain ⟨-, rfl⟩ := Prod.mk.inj (Except.ok.inj hq')
        rfl
      · split at hq'
        · cases hq'
        · obtain ⟨-, rfl⟩ := Prod.mk.inj (Except.ok.inj hq')
          rfl
    rw [if_pos hlen, hq', ok_bind]
    cases ps with
    | nil => cases hfull
    | cons p0 ps =>
      have hp0 : (q'.mem p0.ptr).packet = p0 := by
        rw [hs.packet]
        exact h.stored p0 List.mem_cons_self
      simp only [List.head?_cons, Option.map_some, hp0, hfull, if_true]
      exact ⟨_, rfl, fun a => congrFun hmem a, ⟨hh.chain, hh.tail, hh.len, hh.nodup, hh.stored⟩, by rw [hs.dropped]; rfl⟩
  · have hlen : q.len ≠ teaomdvRtqMaxLen := by
      rw [h.len]
      exact fun he => hfull (Int.ofNat_inj.1 he)
    rw [if_neg hlen]
    exact ⟨q, rfl, fun _ => rfl, by rw [if_neg hfull]; exact ⟨h, rfl⟩⟩

theorem append_holds (h : q.Holds ps) (hp : p.ptr ∉ addrs ps) (hcell : q.mem p.ptr = ⟨p, none⟩) :
    ∃ q', q.append p.ptr = .ok q' ∧ q'.Holds (ps ++ [p]) ∧ Same q q' := by
  have hpacket : (q.mem p.ptr).packet = p := by rw [hcell]
  have hnone : q.next p.ptr = none := by
    unfold next
    rw [hcell]
  have hstored : ∀ r ∈ ps ++ [p], (q.mem r.ptr).packet = r := by
    intro r hr
    rcases List.mem_append.1 hr with hr | hr
    · exact h.stored r hr
    · rw [List.mem_singleton.1 hr]
      exact hpacket
  have hnd : (addrs (ps ++ [p])).Nodup := by
    rw [addrs_append]
    refine List.nodup_append.2 ⟨h.nodup, List.nodup_singleton _, fun a ha b hb he => hp ?_⟩
    have hb' : b = p.ptr := List.mem_singleton.1 hb
    rw [← hb', ← he]
    exact ha
  have hlen : q.len + 1 = (ps ++ [p]).length := by
    rw [h.len, List.length_append, List.length_singleton]
    rfl
  unfold append
  rcases List.eq_nil_or_concat' ps with rfl | ⟨ps, b, rfl⟩
  · rw [h.chain.head]
    exact ⟨_, rfl, ⟨⟨rfl, hnone⟩, rfl, hlen, hnd, hstored⟩, ⟨fun _ => rfl, rfl⟩⟩
  · have hlast := h.tail
    rw [getLast?_addrs] at hlast
    obtain ⟨c, hc⟩ : ∃ c, q.head = some c := by
      rw [h.chain.head]
      cases ps <;> exact ⟨_, rfl⟩
    have hchain := h.chain
    have hnd' := h.nodup
    rw [addrs_append] at hchain hnd' hp
    have hlink := hchain.link hnd' hp hnone
    rw [← next_setNext] at hlink
    rw [hc, hlast]
    refine ⟨_, rfl, ⟨?_, (getLast?_addrs _ p).symm, hlen, hnd, fun r hr => ?_⟩, ⟨(same_setNext q b.ptr _).packet, rfl⟩⟩
    · rw [addrs_append, addrs_append]
      exact hlink
    · exact ((same_setNext q b.ptr (some p.ptr)).packet r.ptr).trans (hstored r hr)

/-- What the pointer structure and the list have to agree on. -/
structure Agrees (q : Rqueue) (f : Fifo) : Prop where
  holds : q.Holds f.waiting
  dropped : q.dropped = f.dropped
  room : f.waiting.length ≤ teaomdvRtqMaxLen

theorem length_live_le (now : ℚ) (ps : List Packet) : (Fifo.live now ps).length ≤ ps.length := List.length_filter_le _ _

theorem addrs_live {a : Nat} (now : ℚ) (ps : List Packet) (h : a ∉ addrs ps) : a ∉ addrs (Fifo.live now ps) :=
  fun hm => h ((List.filter_sublist.map _).subset hm)

theorem enque_agrees {f : Fifo} (hn : teaomdvRtqMaxLen < n) (h : q.Agrees f) (hp : p.ptr ∉ addrs f.waiting)
    (stale : Option Nat) : ∃ q', q.enque n now p stale = .ok q' ∧ q'.Agrees (f.call now (.enque p stale)).2 := by
  obtain ⟨q₁, hq₁, hh₁, hs₁⟩ := purge_holds (h.holds.store hp stale) (h.room.trans_lt hn)
  have hlive := addrs_live now f.waiting hp
  have hroom : (Fifo.live now f.waiting).length ≤ teaomdvRtqMaxLen := (length_live_le now f.waiting).trans h.room
  have hdrop₁ : q₁.dropped = f.dropped := hs₁.dropped.trans h.dropped
  unfold Fifo.call enque
  simp only
  generalize hr : ({ p with ts := now + teaomdvRtqTimeout } : Packet) = r
  have hptr : r.ptr = p.ptr := by rw [← hr]
  rw [hq₁, ok_bind]
  generalize Fifo.live now f.waiting = ps at hh₁ hlive hroom
  rw [← hptr] at hlive
  obtain ⟨q₂, hq₂, hmem, hif⟩ := evict_holds (hh₁.store hlive none)
  have hcell : q₂.mem r.ptr = ⟨r, none⟩ := by
    rw [hmem]
    exact Function.update_self _ _ _
  rw [hq₂, ok_bind, ← hptr]
  have hdone : ∀ {l : List Packet}, q₂.Holds l → r.ptr ∉ addrs l → (l ++ [r]).length ≤ teaomdvRtqMaxLen →
      ∃ q', (q₂.append r.ptr >>= fun q => q.verifyQueue n) = .ok q' ∧ q'.Agrees ⟨l ++ [r], q₂.dropped⟩ := by
    intro l hl hrl hlen
    obtain ⟨q₃, hq₃, hh₃, hs₃⟩ := append_holds hl hrl hcell
    rw [hq₃, ok_bind, verifyQueue_holds hh₃ (hlen.trans_lt hn)]
    exact ⟨q₃, rfl, hh₃, hs₃.dropped, hlen⟩
  cases ps with
  | nil =>
    rw [if_neg (by decide)] at hif
    obtain ⟨q', hq', ha⟩ := hdone hif.1 hlive (by simp [teaomdvRtqMaxLen])
    rw [hif.2] at ha
    exact ⟨q', hq', hdrop₁ ▸ ha⟩
  | cons p0 rest =>
    by_cases hfull : (p0 :: rest).length = teaomdvRtqMaxLen
    · rw [if_pos hfull] at hif
      obtain ⟨q', hq', ha⟩ := hdone hif.1 (fun hm => hlive (List.mem_cons_of_mem _ hm)) (by
        rw [List.length_append]
        exact hfull.le)
      rw [hif.2] at ha
      simp only [hfull, if_true]
      exact ⟨q', hq', hdrop₁ ▸ ha⟩
    · rw [if_neg hfull] at hif
      obtain ⟨q', hq', ha⟩ := hdone hif.1 hlive (by
        rw [List.length_append, List.length_singleton]
        omega)
      rw [hif.2] at ha
      simp only [hfull, if_false]
      exact ⟨q', hq', hdrop₁ ▸ ha⟩

theorem deque_agrees {f : Fifo} (hn : teaomdvRtqMaxLen < n) (h : q.Agrees f) : ∃ q', q.call n now .deque =
    .ok ((f.call now .deque).1, q') ∧ q'.Agrees (f.call now .deque).2 := by
  obtain ⟨q₁, hq₁, hh₁, hs₁⟩ := purge_holds h.holds (h.room.trans_lt hn)
  obtain ⟨q₂, hq₂, hh₂, hs₂⟩ := removeHead_holds hh₁
  have hroom : (Fifo.live now f.waiting).tail.length ≤ teaomdvRtqMaxLen := by
    have h1 := length_live_le now f.waiting
    have h2 := h.room
    rw [List.length_tail]
    omega
  unfold call deque
  rw [hq₁, ok_bind, hq₂, ok_bind, verifyQueue_holds hh₂ (hroom.trans_lt hn), ok_bind, ok_bind]
  refine ⟨q₂, ?_, hh₂, (hs₂.dropped.trans hs₁.dropped).trans h.dropped, hroom⟩
  unfold Fifo.call
  simp only
  cases hlive : Fifo.live now f.waiting with
  | nil => rfl
  | cons p0 rest =>
    have hp0 : (q₂.mem p0.ptr).packet = p0 := by
      rw [hs₂.packet]
      exact hh₁.stored p0 (by rw [hlive]; exact List.mem_cons_self)
    simp [hp0]

theorem dequeFor_agrees {f : Fifo} (hn : teaomdvRtqMaxLen < n) (h : q.Agrees f) (dst : NsAddr) :
    ∃ q', q.call n now (.dequeFor dst) = .ok ((f.call now (.dequeFor dst)).1, q') ∧
      q'.Agrees (f.call now (.dequeFor dst)).2 := by
  obtain ⟨q₁, hq₁, hh₁, hs₁⟩ := purge_holds h.holds (h.room.trans_lt hn)
  have hroom : (Fifo.live now f.waiting).length ≤ teaomdvRtqMaxLen := (length_live_le now f.waiting).trans h.room
  have hdrop₁ : q₁.dropped = f.dropped := hs₁.dropped.trans h.dropped
  unfold call dequeFor findPacketWithDst Fifo.call
  simp only
  rw [hq₁, ok_bind]
  generalize Fifo.live now f.waiting = ps at hh₁ hroom
  cases hfind : ps.find? (fun p => p.daddr = dst) with
  | none =>
    have hnone : ∀ p ∈ ps, decide (p.daddr = dst) = false := fun p hp => by simpa using List.find?_eq_none.1 hfind p hp
    have herase : ps.eraseP (fun p => p.daddr = dst) = ps :=
      List.eraseP_of_forall_not (fun p hp => by simpa using hnone p hp)
    have hcheck : q₁.checkFound none (addrs ps).getLast? = .ok q₁ := if_pos (.inl rfl)
    rw [find_none hh₁ (hroom.trans_lt hn) hnone, ok_bind, hcheck, ok_bind, herase]
    exact ⟨q₁, rfl, hh₁, hdrop₁, hroom⟩
  | some p =>
    obtain ⟨hp, as, bs, rfl, has⟩ := List.find?_eq_some_iff_append.1 hfind
    have has' : ∀ r ∈ as, decide (r.daddr = dst) = false := fun r hr => by simpa using has r hr
    obtain ⟨q₂, hq₂, hh₂, hs₂⟩ := unlink_holds hh₁
    have hlen : (as ++ bs).length ≤ teaomdvRtqMaxLen := by
      simp only [List.length_append, List.length_cons] at hroom ⊢
      omega
    have hpacket : (q₂.mem p.ptr).packet = p := by
      rw [hs₂.packet]
      exact hh₁.stored p (List.mem_append_right _ List.mem_cons_self)
    rw [find_some hh₁ (hroom.trans_lt hn) has' hp, ok_bind, checkFound_holds hh₁, ok_bind]
    simp only
    rw [hq₂, ok_bind, verifyQueue_holds hh₂ (hlen.trans_lt hn), ok_bind, ok_bind, eraseP_split has hp]
    exact ⟨q₂, by rw [Option.map_some, hpacket], hh₂, hs₂.dropped.trans hdrop₁, hlen⟩

/-- **Each call does to the pointer structure what it does to the list.** -/
theorem call_agrees {f : Fifo} (hn : teaomdvRtqMaxLen < n) (h : q.Agrees f) (c : QueueCall)
    (hc : ∀ p s, c = .enque p s → p.ptr ∉ addrs f.waiting) :
    ∃ q', q.call n now c = .ok ((f.call now c).1, q') ∧ q'.Agrees (f.call now c).2 := by
  cases c with
  | enque p s =>
    obtain ⟨q', hq', ha⟩ := enque_agrees hn h (hc p s rfl) s
    have hnone : (f.call now (.enque p s)).1 = none := by
      unfold Fifo.call
      simp only
      repeat' split
      all_goals rfl
    unfold call
    simp only
    rw [hq', ok_bind, hnone]
    exact ⟨q', rfl, ha⟩
  | deque => exact deque_agrees hn h
  | dequeFor dst => exact dequeFor_agrees hn h dst

theorem run_agrees {f : Fifo} (hn : teaomdvRtqMaxLen < n) (h : q.Agrees f) (cs : List (ℚ × QueueCall))
    (hcs : f.Allows cs) : ∃ q', q.run n cs = .ok ((f.run cs).1, q') ∧ q'.Agrees (f.run cs).2 := by
  induction cs generalizing q f with
  | nil => exact ⟨q, rfl, h⟩
  | cons c cs ih =>
    obtain ⟨now, c⟩ := c
    obtain ⟨q₁, hq₁, ha₁⟩ : ∃ q₁, q.call n now c = .ok ((f.call now c).1, q₁) ∧ q₁.Agrees (f.call now c).2 :=
      call_agrees hn h c hcs.1
    obtain ⟨q₂, hq₂, ha₂⟩ := ih ha₁ hcs.2
    refine ⟨q₂, ?_, ha₂⟩
    unfold run
    rw [hq₁, ok_bind]
    simp only
    rw [hq₂, ok_bind]
    rfl

theorem agrees_new (mem : Nat → Cell) : Agrees { mem := mem } {} := ⟨.empty rfl rfl rfl, rfl, Nat.zero_le _⟩

end Rqueue

/-! ## Where every packet went -/

/-- The packets that were put in, one for each call. -/
def enqueued (cs : List (ℚ × QueueCall)) : List Nat :=
  cs.filterMap fun c => match c.2 with
    | .enque p _ => some p.ptr
    | _ => none

namespace Fifo

variable {now : ℚ} {f : Fifo} {c : QueueCall}

/-- The packets that left through `purge`, in a whole run. -/
def lost (f : Fifo) : List (ℚ × QueueCall) → Multiset Nat
  | [] => 0
  | (now, c) :: cs => ↑(addrs (f.waiting.filter (fun p => p.ts < now))) + lost (f.call now c).2 cs

theorem addrs_live_add (now : ℚ) (ps : List Packet) :
    (addrs ps : Multiset Nat) = addrs (live now ps) + addrs (ps.filter (fun p => p.ts < now)) := by
  have hperm := (List.filter_append_perm (fun p : Packet => decide (p.ts < now)) ps).map (·.ptr)
  have hlive : live now ps = ps.filter (fun p => !decide (p.ts < now)) := by
    refine List.filter_congr (fun p _ => ?_)
    by_cases h : p.ts < now <;> simp [h]
  rw [hlive, add_comm, Multiset.coe_add, Multiset.coe_eq_coe, ← addrs_append]
  exact hperm.symm

theorem coe_addrs_append (ps qs : List Packet) : (addrs (ps ++ qs) : Multiset Nat) = addrs ps + addrs qs := by
  rw [addrs_append, Multiset.coe_add]

theorem coe_addrs_cons (p : Packet) (ps : List Packet) : (addrs (p :: ps) : Multiset Nat) = addrs [p] + addrs ps :=
  coe_addrs_append [p] ps

theorem coe_addrs_nil : (addrs [] : Multiset Nat) = 0 := rfl

/-- **A call keeps account of every packet but those that timed out.** -/
theorem call_balance (now : ℚ) (f : Fifo) (c : QueueCall) :
    (addrs f.waiting + addrs (f.dropped.map (·.1)) + enqueued [(now, c)] : Multiset Nat) =
      addrs (f.call now c).1.toList + addrs ((f.call now c).2.dropped.map (·.1)) + addrs (f.call now c).2.waiting +
        addrs (f.waiting.filter (fun p => p.ts < now)) := by
  rw [addrs_live_add now f.waiting]
  generalize (addrs (f.waiting.filter (fun p => p.ts < now)) : Multiset Nat) = aged
  cases c with
  | enque p s =>
    have hput : (enqueued [(now, .enque p s)] : Multiset Nat) = addrs [{ p with ts := now + teaomdvRtqTimeout }] := rfl
    rw [hput]
    unfold call
    simp only
    cases live now f.waiting with
    | nil =>
      simp only [Option.toList_none, coe_addrs_nil]
      abel
    | cons p0 rest =>
      by_cases hfull : (p0 :: rest).length = teaomdvRtqMaxLen
      · simp only [hfull, if_true, Option.toList_none, coe_addrs_nil, List.map_append, List.map_cons, List.map_nil, coe_addrs_append]
        rw [coe_addrs_cons p0]
        abel
      · simp only [hfull, if_false, Option.toList_none, coe_addrs_nil, coe_addrs_append]
        abel
  | deque =>
    have hput : (enqueued [(now, .deque)] : Multiset Nat) = 0 := rfl
    rw [hput]
    unfold call
    simp only
    cases live now f.waiting with
    | nil =>
      simp only [List.head?_nil, List.tail_nil, Option.toList_none, coe_addrs_nil]
      abel
    | cons p0 rest =>
      simp only [List.head?_cons, List.tail_cons, Option.toList_some]
      rw [coe_addrs_cons p0]
      abel
  | dequeFor dst =>
    have hput : (enqueued [(now, .dequeFor dst)] : Multiset Nat) = 0 := rfl
    rw [hput]
    unfold call
    simp only
    generalize live now f.waiting = ps
    cases hfind : ps.find? (fun p => p.daddr = dst) with
    | none =>
      rw [List.eraseP_of_forall_not (fun p hp => List.find?_eq_none.1 hfind p hp)]
      simp only [Option.toList_none, coe_addrs_nil]
      abel
    | some p =>
      obtain ⟨hp, as, bs, rfl, has⟩ := List.find?_eq_some_iff_append.1 hfind
      rw [eraseP_split has hp]
      simp only [Option.toList_some, coe_addrs_append]
      rw [coe_addrs_cons p]
      abel

theorem enqueued_cons (c : ℚ × QueueCall) (cs : List (ℚ × QueueCall)) :
    (enqueued (c :: cs) : Multiset Nat) = enqueued [c] + enqueued cs := by
  rw [Multiset.coe_add]
  unfold enqueued
  rw [← List.filterMap_append]
  rfl

/-- **A run keeps account of every packet but those that timed out.** -/
theorem run_balance (f : Fifo) (cs : List (ℚ × QueueCall)) :
    (addrs f.waiting + addrs (f.dropped.map (·.1)) + enqueued cs : Multiset Nat) =
      addrs (f.run cs).1 + addrs ((f.run cs).2.dropped.map (·.1)) + addrs (f.run cs).2.waiting + f.lost cs := by
  induction cs generalizing f with
  | nil =>
    unfold run lost
    rw [coe_addrs_nil]
    show _ + (0 : Multiset Nat) = _
    abel
  | cons c cs ih =>
    obtain ⟨now, c⟩ := c
    have hcall := call_balance now f c
    have hrun := ih (f.call now c).2
    unfold run lost
    simp only
    rw [enqueued_cons, ← add_assoc, hcall, coe_addrs_append]
    calc _ = (addrs (f.call now c).1.toList : Multiset Nat) + (addrs (f.call now c).2.waiting +
            addrs ((f.call now c).2.dropped.map (·.1)) + enqueued cs) +
            addrs (f.waiting.filter (fun p => p.ts < now)) := by abel
      _ = _ := by
        rw [hrun]
        abel

theorem lost_eq_zero_iff (f : Fifo) (cs : List (ℚ × QueueCall)) : f.lost cs = 0 ↔ f.Timely cs := by
  induction cs generalizing f with
  | nil => exact ⟨fun _ => trivial, fun _ => rfl⟩
  | cons c cs ih =>
    obtain ⟨now, c⟩ := c
    unfold lost Timely
    rw [← Multiset.card_eq_zero, Multiset.card_add, Nat.add_eq_zero_iff, Multiset.card_eq_zero, Multiset.card_eq_zero,
      ih (f.call now c).2, Multiset.coe_eq_zero, addrs, List.map_eq_nil_iff, List.filter_eq_nil_iff]
    simp only [decide_eq_true_eq]

end Fifo

/-- Every packet that was put in was returned, was dropped, or is among those still queued. -/
def Rqueue.Accounts (q : Rqueue) (cs : List (ℚ × QueueCall)) (out queued : List Packet) : Prop :=
  (enqueued cs : Multiset Nat) = addrs out + addrs (q.dropped.map (·.1)) + addrs queued

/-- **The linked queue is the FIFO, and keeps account of its packets unless `purge` finds one that timed out.** -/
theorem run_refines (n : Nat) (hn : teaomdvRtqMaxLen < n) (mem : Nat → Cell) (cs : List (ℚ × QueueCall))
    (hcs : Fifo.Allows {} cs) :
    ∃ out q queued, Rqueue.run n { mem := mem } cs = .ok (out, q) ∧ q.Holds queued ∧ q.verifyQueue n = .ok q ∧
      queued.length ≤ teaomdvRtqMaxLen ∧ Fifo.run {} cs = (out, ⟨queued, q.dropped⟩) ∧
      (q.Accounts cs out queued ↔ Fifo.Timely {} cs) := by
  obtain ⟨q, hq, ha⟩ := Rqueue.run_agrees hn (Rqueue.agrees_new mem) cs hcs
  refine ⟨_, q, _, hq, ha.holds, Rqueue.verifyQueue_holds ha.holds (ha.room.trans_lt hn), ha.room, ?_, ?_⟩
  · rw [ha.dropped]
  · have hbalance := Fifo.run_balance {} cs
    rw [← Fifo.lost_eq_zero_iff, Rqueue.Accounts, ha.dropped]
    simp only [List.map_nil, Fifo.coe_addrs_nil, zero_add] at hbalance
    rw [hbalance, add_eq_left]

/-- A call whose packet is still there past its time. -/
def lateCalls : List (ℚ × QueueCall) := [(0, .enque { ptr := 7 } none), (31, .deque)]

/-- A memory in which nothing is linked. -/
def looseMem (a : Nat) : Cell := ⟨{ ptr := a }, none⟩

/-- **A packet that times out is neither queued, nor returned, nor dropped.** -/
theorem not_accounts_lateCalls :
    Fifo.Allows {} lateCalls ∧ lateCalls.Pairwise (fun c c' => c.1 ≤ c'.1) ∧
      ∃ out q queued, Rqueue.run 65 { mem := looseMem } lateCalls = .ok (out, q) ∧ q.Holds queued ∧
        ¬ q.Accounts lateCalls out queued := by
  have hallows : Fifo.Allows {} lateCalls := by
    refine ⟨fun p s _ => List.not_mem_nil, fun p s h => ?_, trivial⟩
    cases h
  obtain ⟨q, hq, ha⟩ := Rqueue.run_agrees (n := 65) (by decide) (Rqueue.agrees_new looseMem) lateCalls hallows
  have hout : (Fifo.run {} lateCalls).1 = [] := List.length_eq_zero_iff.1 (by decide +kernel)
  have hqueued : (Fifo.run {} lateCalls).2.waiting = [] := List.length_eq_zero_iff.1 (by decide +kernel)
  have hdropped : (Fifo.run {} lateCalls).2.dropped = [] := List.length_eq_zero_iff.1 (by decide +kernel)
  refine ⟨hallows, List.pairwise_pair.2 (by decide +kernel), _, q, _, hq, ha.holds, ?_⟩
  unfold Rqueue.Accounts
  rw [hout, hqueued, ha.dropped, hdropped]
  decide

/-- Calls that use up the queue, in time. -/
def promptCalls : List (ℚ × QueueCall) :=
  [(0, .enque { ptr := 7, daddr := 3 } none), (1, .enque { ptr := 8, daddr := 4 } (some 7)), (2, .dequeFor 4), (30, .deque)]

theorem run_refines_promptCalls : Fifo.Allows {} promptCalls ∧
    ∃ out q queued, Rqueue.run 65 { mem := looseMem } promptCalls = .ok (out, q) ∧ q.Holds queued ∧
      q.verifyQueue 65 = .ok q ∧ queued.length ≤ teaomdvRtqMaxLen ∧
      Fifo.run {} promptCalls = (out, ⟨queued, q.dropped⟩) ∧
      (q.Accounts promptCalls out queued ↔ Fifo.Timely {} promptCalls) := by
  have hcs : Fifo.Allows {} promptCalls := by
    refine ⟨fun p s h => ?_, fun p s h => ?_, fun p s h => ?_, fun p s h => ?_, trivial⟩
    · exact List.not_mem_nil
    · cases h
      decide +kernel
    · cases h
    · cases h
  exact ⟨hcs, run_refines 65 (by decide) looseMem promptCalls hcs⟩

/-! ## The agent's buffer -/

namespace Exec

variable {env : Env} {x : Exec} {p : Packet}

theorem rqPurge_fifo (env : Env) (x : Exec) : (x.rqPurge env).rqueue = Fifo.live env.now x.rqueue := by
  show Keyed.eraseAll _ x.rqueue = _
  rw [Keyed.eraseAll_eq_filter]
  refine List.filter_congr (fun p _ => ?_)
  by_cases h : p.ts < env.now <;> simp [h]

theorem rqEvict_fifo (env : Env) (x : Exec) : (x.rqEvict env).rqueue =
    if x.rqueue.length = teaomdvRtqMaxLen then x.rqueue.tail else x.rqueue := by
  unfold rqEvict
  cases hq : x.rqueue with
  | nil => exact hq
  | cons p0 rest =>
    simp only
    split
    · rfl
    · exact hq

/-- **`enque` is the FIFO's.** -/
theorem enque_fifo (f : Fifo) (hf : f.waiting = x.rqueue) (s : Option Nat) :
    (x.enque env p).rqueue = (f.call env.now (.enque p s)).2.waiting := by
  show ((x.rqPurge env).rqEvict env).rqueue ++ [_] = _
  rw [rqEvict_fifo, rqPurge_fifo]
  unfold Fifo.call
  rw [hf]
  simp only
  cases Fifo.live env.now x.rqueue with
  | nil => rfl
  | cons p0 rest =>
    simp only
    split <;> rfl

/-- **`deque` is the FIFO's.** -/
theorem deque_fifo (f : Fifo) (hf : f.waiting = x.rqueue) (dst : NsAddr) :
    (x.deque env dst).1 = (f.call env.now (.dequeFor dst)).1 ∧
      (x.deque env dst).2.rqueue = (f.call env.now (.dequeFor dst)).2.waiting := by
  have hpurge := rqPurge_fifo env x
  unfold deque Fifo.call
  rw [hf, ← hpurge]
  simp only
  cases hfind : (x.rqPurge env).rqueue.find? (fun p => p.daddr = dst) with
  | none => exact ⟨rfl, (List.eraseP_of_forall_not (fun p hp => List.find?_eq_none.1 hfind p hp)).symm⟩
  | some p => exact ⟨rfl, rfl⟩

end Exec

end TeAomdv

import TeAomdv.Timers
import TeAomdv.Lib.Fallible
import TeAomdv.Lib.Ledger
/-!
# Settle — what becomes of the packets a function has in hand

Each function of the transmission side disposes of the packets it is given and of those it allocates or takes out of the
queue, if it ends normally (`Closes`).  A packet is known by its address.
-/
namespace TeAomdv

open Fallible (Ends)

/-- The packets an act takes into hand. -/
def Act.takes : Act → Multiset Nat
  | .alloc ptr => {ptr}
  | .deque p | .filter p => {p.ptr}
  | _ => 0

/-- The packets an act disposes of. -/
def Act.gives : Act → Multiset Nat
  | .schedule p _ | .dmux p | .drop p _ | .free p | .enque p => {p.ptr}
  | _ => 0

namespace Exec

variable {env : Env} {x y z : Exec} {hand hand' hand'' : Multiset Nat}

/-- The acts from `x` to `y` turn the packets in hand into `hand'`. -/
def Settles (x : Exec) (hand hand' : Multiset Nat) (y : Exec) : Prop :=
  Ledger.Settles Act.takes Act.gives hand hand' x.log y.log

/-- A function called in `x` disposes of the packets in hand. -/
def Closes (x : Exec) (hand : Multiset Nat) (m : Result) : Prop := Ends (fun y => x.Settles hand 0 y) m

namespace Settles

theorem refl (x : Exec) (hand : Multiset Nat) : x.Settles hand hand x := Ledger.Settles.refl hand x.log

theorem trans (h : x.Settles hand hand' y) (h' : y.Settles hand' hand'' z) : x.Settles hand hand'' z :=
  Ledger.Settles.trans h h'

theorem of_log (hand : Multiset Nat) (h : y.log = x.log) : x.Settles hand hand y := by
  unfold Settles
  rw [h]
  exact Ledger.Settles.refl hand x.log

/-- Acts that keep to themselves change nothing in hand. -/
theorem keep (h : x.Settles 0 0 y) (hand : Multiset Nat) : x.Settles hand hand y := by
  have := Ledger.Settles.frame h hand
  rwa [zero_add] at this

theorem before (h : x.Settles 0 0 y) (h' : y.Settles hand hand' z) : x.Settles hand hand' z := (h.keep hand).trans h'

theorem foldl {α : Type*} {f : Exec → α → Exec} (hf : ∀ (x : Exec) a, x.Settles 0 0 (f x a)) :
    ∀ (l : List α) (x : Exec), x.Settles 0 0 (l.foldl f x)
  | [], x => refl x 0
  | a :: l, x => (hf x a).trans (foldl hf l (f x a))

end Settles

namespace Closes

theorem ok (h : x.Settles hand 0 y) : x.Closes hand (.ok y) := Ends.ok h

theorem error (f : Fault) : x.Closes hand (.error f) := Ends.error f

/-- A packet is known by its address. -/
theorem of_ptr {p q : Packet} {m : Result} (h : x.Closes {q.ptr} m) (hp : q.ptr = p.ptr) : x.Closes {p.ptr} m := by
  rw [← hp]
  exact h

theorem after {m : Result} (h : x.Settles hand hand' y) (hm : y.Closes hand' m) : x.Closes hand m :=
  hm.mono (fun _ hz => h.trans hz)

theorem before {m : Result} (h : x.Settles 0 0 y) (hm : y.Closes hand m) : x.Closes hand m := after (h.keep hand) hm

/-- One function after another. -/
theorem bind {m : Result} {f : Exec → Result} (hm : x.Closes 0 m) (hf : ∀ y : Exec, y.Closes hand (f y)) :
    x.Closes hand (m >>= f) :=
  Ends.bind hm (fun y hy => (hf y).mono (fun _ hz => hy.before hz))

theorem foldlM {α : Type} {f : Exec → α → Result} (hf : ∀ (y : Exec) a, y.Closes 0 (f y a)) (l : List α) (x : Exec) :
    x.Closes 0 (l.foldlM f x) :=
  Ends.foldlM (fun y a _ hy => (hf y a).mono (fun _ hz => hy.trans hz)) (.refl x 0)

end Closes

/-! ## Single acts -/

theorem say_settles (x : Exec) (a : Act) (h : hand + a.takes = a.gives + hand') : x.Settles hand hand' (x.say a) :=
  Ledger.Settles.act h x.log

theorem free_settles (x : Exec) (p : Packet) : x.Settles {p.ptr} 0 (x.free p) := say_settles x _ rfl

theorem drop_settles (x : Exec) (p : Packet) (r : DropReason) : x.Settles {p.ptr} 0 (x.drop p r) :=
  say_settles x _ rfl

theorem schedule_settles (x : Exec) (p : Packet) (d : Delay) : x.Settles {p.ptr} 0 (x.schedule p d) :=
  say_settles x _ rfl

theorem dmux_settles (x : Exec) (p : Packet) : x.Settles {p.ptr} 0 (x.say (.dmux p)) := say_settles x _ rfl

theorem alloc_settles (x : Exec) : x.Settles 0 {x.heap} x.alloc := say_settles x _ rfl

theorem deque_settles (x : Exec) (p : Packet) : x.Settles 0 {p.ptr} (x.say (.deque p)) := say_settles x _ rfl

theorem filter_settles (x : Exec) (p : Packet) : x.Settles 0 {p.ptr} (x.say (.filter p)) := say_settles x _ rfl

/-! ## Neighbours, broadcast ids, entries: no packet is touched -/

theorem nbEnsure_settles (env : Env) (x : Exec) (id : NsAddr) : x.Settles 0 0 (x.nbEnsure env id) := by
  refine .of_log 0 ?_
  unfold nbEnsure nbInsert
  simp only
  split
  · split <;> rfl
  · rfl

theorem rtEnsure_settles (x : Exec) (d : NsAddr) : x.Closes 0 (x.rtEnsure env d) := by
  unfold rtEnsure rtAdd
  split
  · split
    · exact .error _
    · exact .ok (.of_log 0 rfl)
  · exact .ok (.refl x 0)

/-! ## The buffer -/

theorem rqPurge_settles (x : Exec) : x.Settles 0 0 (x.rqPurge env) := by
  refine Ledger.Settles.idle (fun a ha => ?_) 0 x.log
  obtain ⟨p, -, rfl⟩ := List.mem_map.1 ha
  exact ⟨rfl, rfl⟩

theorem rqEvict_settles (x : Exec) : x.Settles 0 0 (x.rqEvict env) := by
  unfold rqEvict
  split
  · exact .refl x 0
  · rename_i p0 rest _
    split
    · exact (deque_settles { x with rqueue := rest } p0).trans (drop_settles _ p0 _)
    · exact .refl x 0

theorem enque_settles (x : Exec) (p : Packet) : x.Settles {p.ptr} 0 (x.enque env p) := by
  have h1 : x.Settles 0 0 ((x.rqPurge env).rqEvict env) := (rqPurge_settles x).trans (rqEvict_settles _)
  exact h1.before (say_settles _ _ rfl)

/-- A packet taken out is in hand. -/
theorem settles_of_deque {d : NsAddr} : ∀ {o : Option Packet}, x.deque env d = (o, y) →
    x.Settles 0 (match o with | none => 0 | some p => {p.ptr}) y := by
  intro o h
  unfold deque at h
  simp only at h
  split at h
  · obtain ⟨rfl, rfl⟩ := Prod.mk.inj h
    exact rqPurge_settles x
  · obtain ⟨rfl, rfl⟩ := Prod.mk.inj h
    exact (rqPurge_settles x).before (deque_settles _ _)

theorem drainLoop_settles {d : NsAddr} {body : Exec → Packet → Result} (hb : ∀ (y : Exec) q, y.Closes {q.ptr} (body y q)) :
    ∀ (n : Nat) (x : Exec), x.Closes 0 (drainLoop env d body n x)
  | 0, x => .ok (.refl x 0)
  | n + 1, x => by
    unfold drainLoop
    cases hy : x.deque env d with
    | mk o y =>
      have hs := settles_of_deque hy
      cases o with
      | none => exact .ok hs
      | some q =>
        have hbody : x.Closes 0 (body y q) := .after hs (hb y q)
        exact hbody.bind (drainLoop_settles hb n)

theorem drain_settles {d : NsAddr} {body : Exec → Packet → Result} (hb : ∀ (y : Exec) q, y.Closes {q.ptr} (body y q))
    (x : Exec) : x.Closes 0 (x.drain env d body) :=
  drainLoop_settles hb _ x

/-! ## Control packets -/

theorem reportDistrust_settles (dst : NsAddr) (seqno : Nat) (lasthop : NsAddr → NsAddr) (x : Exec) (pc : NsAddr) :
    x.Settles 0 0 (reportDistrust dst seqno lasthop x pc) :=
  (alloc_settles x).trans (schedule_settles x.alloc _ _)

theorem sendReply_settles (x : Exec) (ipdst : NsAddr) (hopCount : Nat) (rpdst : NsAddr) (rpseq : Nat)
    (lifetime timestamp : ℚ) (nexthop : NsAddr) (bcastId : Nat) (rpFirstHop : NsAddr) (fpt rpt : ℚ) :
    x.Settles 0 0 (x.sendReply ipdst hopCount rpdst rpseq lifetime timestamp nexthop bcastId rpFirstHop fpt rpt) :=
  (alloc_settles x).trans (schedule_settles x.alloc _ _)

theorem sendHello_settles (x : Exec) : x.Settles 0 0 x.sendHello := (alloc_settles x).trans (schedule_settles x.alloc _ _)

theorem sendRcom_settles (x : Exec) (p : Packet) (rc : Recommen) : x.Settles {p.ptr} 0 (x.sendRcom p rc) :=
  schedule_settles x _ _

theorem sendProb_settles (x : Exec) : x.Settles 0 0 x.sendProb := (alloc_settles x).trans (schedule_settles x.alloc _ _)

theorem sendError_settles (x : Exec) (p : Packet) (re : Rerr) (jitter : Bool) :
    x.Settles {p.ptr} 0 (x.sendError p re jitter) :=
  schedule_settles x _ _

theorem emitRequest_settles (x : Exec) (p : Packet) (rt : RtEntry) : x.Closes {p.ptr} (x.emitRequest env p rt) := by
  unfold emitRequest
  simp only
  split
  · exact .error _
  · exact .ok (schedule_settles { x with bid := u32 (x.bid + 1), seqno := u32 (x.seqno + 2) } _ _)

theorem sendRequest_settles (x : Exec) (d : NsAddr) : x.Closes 0 (x.sendRequest env d) := by
  unfold sendRequest
  simp only
  have hdone : x.Settles 0 0 (x.alloc.free x.blank) := (alloc_settles x).trans (free_settles x.alloc x.blank)
  split
  · exact .error _
  · split
    · split
      · exact .error _
      · exact .ok hdone
    split
    · exact .ok hdone
    split
    · refine .after (alloc_settles x) ?_
      exact Closes.bind (drain_settles (fun y q => .ok (drop_settles y q _)) _) (fun y => .ok (free_settles y x.blank))
    · exact .after (alloc_settles x) (emitRequest_settles _ x.blank _)

/-! ## `forward` -/

theorem log_countForward (x : Exec) (p : Packet) : (x.countForward env p).log = x.log := by
  unfold countForward
  split <;> rfl

theorem downIfEmpty_log {d : NsAddr} {rt : RtEntry} {renumber : RtEntry → RtEntry} :
    Ends (fun a : Exec × Bool => a.1.log = x.log) (x.downIfEmpty env d rt renumber) := by
  unfold downIfEmpty
  refine Ends.bind (P := fun _ => True) (fun _ _ => trivial) (fun empty _ => .ok ?_)
  show (if empty then _ else x).log = x.log
  split <;> rfl

theorem forwardDistrust_settles (x : Exec) (d : NsAddr) (path : Path) (p : Packet) :
    x.Closes {p.ptr} (x.forwardDistrust env d path p) := by
  unfold forwardDistrust
  split
  · exact .error _
  · rename_i rt _
    have hreport : x.Settles 0 0 (rt.rtPclist.foldl (reportDistrust rt.rtDst rt.rtSeqno (fun _ => path.lasthop)) x) :=
      .foldl (reportDistrust_settles _ _ _) _ x
    refine .before (hreport.trans (.of_log 0 rfl)) (Ends.bind downIfEmpty_log (fun a ha => .ok ?_))
    exact (Settles.of_log _ ha).trans (Settles.before (say_settles _ _ rfl) (drop_settles _ p _))

theorem forwardSend_settles (x : Exec) (d : NsAddr) (p : Packet) (delay : ℚ) :
    x.Closes {p.ptr} (x.forwardSend env d p delay) := by
  unfold forwardSend
  simp only
  split
  · exact .error _
  · refine .ok ((Settles.of_log _ ?_).trans (schedule_settles _ _ _))
    split
    · exact log_countForward x p
    · exact log_countForward x p

theorem forwardRoute_settles (x : Exec) (d : NsAddr) (p : Packet) (delay : ℚ) :
    x.Closes {p.ptr} (x.forwardRoute env d p delay) := by
  unfold forwardRoute
  split
  · exact .error _
  split
  · exact .error _
  split
  · exact .error _
  · rename_i rt _ _ _ path _
    refine .before (nbEnsure_settles env (x.rtModify d (fun rt => rt.pcInsert p.prevHop)) path.nexthop) ?_
    simp only
    split
    · split
      · refine Closes.after ?_ (forwardDistrust_settles _ d path _)
        exact .of_log _ rfl
      · refine Closes.after ?_ (forwardSend_settles _ d _ delay)
        exact .of_log _ rfl
    · exact (forwardSend_settles _ d _ delay).of_ptr rfl

/-- **`forward` disposes of the packet it is given.** -/
theorem forward_settles (x : Exec) (rt : Option NsAddr) (p : Packet) (delay : ℚ) :
    x.Closes {p.ptr} (x.forward env rt p delay) := by
  unfold forward
  split
  · exact .ok (drop_settles x p _)
  split
  · exact .ok (dmux_settles x p)
  split
  · exact forwardRoute_settles x _ p delay
  · split
    · exact .ok (schedule_settles x _ _)
    · exact .error _

end Exec

end TeAomdv

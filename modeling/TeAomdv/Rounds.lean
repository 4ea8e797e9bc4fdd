import Mathlib.Algebra.BigOperators.Ring.Finset
import TeAomdv.Lib.Batches
import TeAomdv.TraceTimers
import TeAomdv.Reach
/-!
# Rounds — a round of `set_trust`, cell by cell

`setTrustCells` is the loop of `set_trust` over the cells of the neighbour list, with the cells of the packet's two arrays
it writes.  It comes to its end without a write past them; every neighbour is evaluated once, and the packets it sends
hold the neighbours in order, in batches of at most `MAX_NB`.  On a list with one entry for each address it is `setTrust`.
-/
namespace TeAomdv

open Batches (Taken Cut)
open Fallible (ok_bind)

/-- `hdr_teaomdv_recommen` in memory: the cells of `nb_No` and `nb_dt`, `none` where nothing was written. -/
structure RcomCells where
  nbNo : List (Option NsAddr) := List.replicate maxNb none
  nbDt : List (Option ℚ) := List.replicate maxNb none
  nbNum : Nat := 0
  itNum : Int := 0

namespace Neighbor

/-- `set_TV`, then `TV_init`. -/
def evaluated (now : ℚ) (nb : Neighbor) : Neighbor := (nb.setTV now).tvInit now

/-- `delivery_ratio > 0.5`. -/
def delivers (nb : Neighbor) : Bool := 5 / 10 < nb.deliveryRatio.getD 0

end Neighbor

namespace RcomCells

/-- The cells below `nb_num`, as a receiver reads them. -/
def read (rc : RcomCells) : Recommen :=
  ⟨((rc.nbNo.zip rc.nbDt).take rc.nbNum).map (fun c => (c.1.getD 0, c.2.getD 0)), rc.itNum⟩

/-- The writes of one round of the loop, at index `num`. -/
def write (rc : RcomCells) (num : Nat) (nb : Neighbor) : Except Fault RcomCells :=
  if num < maxNb then
    .ok { rc with
      nbNo := rc.nbNo.set num (some nb.nbAddr)
      nbDt := rc.nbDt.set num nb.directTrust
      itNum := if nb.delivers then rc.itNum + 1 else rc.itNum }
  else .error .overrun

/-- In both arrays the cells below `nb_num` were written, and no others. -/
def Exact (rc : RcomCells) : Prop :=
  ∀ i, (rc.nbNo[i]?.join).isSome = decide (i < rc.nbNum) ∧ (rc.nbDt[i]?.join).isSome = decide (i < rc.nbNum)

/-- The cells that hold these neighbours, and no others. -/
def holding (b : List Neighbor) (num : Nat) : RcomCells where
  nbNo := b.map (fun nb => some nb.nbAddr) ++ List.replicate (maxNb - b.length) none
  nbDt := b.map (·.directTrust) ++ List.replicate (maxNb - b.length) none
  nbNum := num
  itNum := b.countP (·.delivers)

end RcomCells

namespace Exec

/-- The loop of `set_trust` under way: the neighbours evaluated, the packet with its cells, `num`, and what was sent. -/
structure CellWalk where
  x : Exec
  done : List Neighbor
  p : Packet
  rc : RcomCells
  num : Nat
  sent : List RcomCells

def cellEntry (env : Env) (s : CellWalk) (nb : Neighbor) : Except Fault CellWalk := do
  let nb := nb.evaluated env.now
  let rc ← s.rc.write s.num nb
  if s.num + 1 = maxNb then
    let rc := { rc with nbNum := maxNb }
    let x := s.x.sendRcom s.p rc.read
    .ok ⟨x.alloc, s.done ++ [nb], x.blank, {}, 0, s.sent ++ [rc]⟩
  else .ok ⟨s.x, s.done ++ [nb], s.p, rc, s.num + 1, s.sent⟩

/-- `set_trust`, with the packets it sends. -/
def setTrustCells (env : Env) (x : Exec) : Except Fault (Exec × List RcomCells) := do
  let s ← x.nbhead.foldlM (cellEntry env) ⟨x.alloc, [], x.blank, {}, 0, []⟩
  let y : Exec := { s.x with nbhead := s.done }
  if s.num ≠ 0 then
    let rc := { s.rc with nbNum := s.num }
    .ok (y.sendRcom s.p rc.read, s.sent ++ [rc])
  else .ok (y, s.sent)

end Exec

/-! ## The cells -/

namespace RcomCells

variable {b : List Neighbor} {num : Nat} {nb : Neighbor}

/-- The first cell not written is the next. -/
theorem set_next {α : Type*} (l : List (Option α)) {n : Nat} (h : l.length < n) (a : Option α) :
    (l ++ List.replicate (n - l.length) none).set l.length a = (l ++ [a]) ++ List.replicate (n - (l.length + 1)) none := by
  obtain ⟨k, hk⟩ : ∃ k, n - l.length = k + 1 := ⟨n - (l.length + 1), by omega⟩
  have hk' : n - (l.length + 1) = k := by omega
  rw [hk, hk', List.set_append_right _ _ (Nat.le_refl _), Nat.sub_self, List.replicate_succ, List.set_cons_zero,
    List.append_assoc]
  rfl

theorem write_holding (h : b.length < maxNb) (num : Nat) (nb : Neighbor) :
    (holding b num).write b.length nb = .ok (holding (b ++ [nb]) num) := by
  unfold write
  rw [if_pos h]
  refine congrArg Except.ok ?_
  have hno := set_next (b.map (fun nb => some nb.nbAddr)) (n := maxNb) (by rwa [List.length_map]) (some nb.nbAddr)
  have hdt := set_next (b.map (·.directTrust)) (n := maxNb) (by rwa [List.length_map]) nb.directTrust
  rw [List.length_map] at hno hdt
  unfold holding
  simp only [hno, hdt, List.map_append, List.map_cons, List.map_nil, List.length_append, List.length_singleton,
    List.countP_append, List.countP_singleton, RcomCells.mk.injEq, true_and]
  split <;> simp

/-- What a receiver reads of a packet that holds `nb_num` neighbours. -/
theorem read_holding (b : List Neighbor) : (holding b b.length).read =
    ⟨b.map (fun nb => (nb.nbAddr, nb.directTrust.getD 0)), b.countP (·.delivers)⟩ := by
  unfold read holding
  simp only [Recommen.mk.injEq, and_true]
  rw [List.zip_append (by simp), List.take_left' (by simp), List.zip_map', List.map_map]
  rfl

/-- A cell of an array of which those of a list are written. -/
theorem isSome_cell {α : Type*} (l : List (Option α)) (h : ∀ a ∈ l, a.isSome) (n i : Nat) :
    (l ++ List.replicate n none)[i]?.join.isSome = decide (i < l.length) := by
  by_cases hi : i < l.length
  · rw [List.getElem?_append_left hi, List.getElem?_eq_getElem hi, decide_eq_true hi]
    exact h _ (List.getElem_mem hi)
  · rw [List.getElem?_append_right (Nat.not_lt.1 hi), List.getElem?_replicate, decide_eq_false hi]
    split <;> rfl

theorem exact_holding (hdt : ∀ nb ∈ b, nb.directTrust.isSome) : (holding b b.length).Exact := by
  refine fun i => ⟨?_, ?_⟩
  · refine (isSome_cell _ (fun a ha => ?_) _ i).trans (by rw [List.length_map]; rfl)
    obtain ⟨nb, -, rfl⟩ := List.mem_map.1 ha
    rfl
  · refine (isSome_cell _ (fun a ha => ?_) _ i).trans (by rw [List.length_map]; rfl)
    obtain ⟨nb, hnb, rfl⟩ := List.mem_map.1 ha
    exact hdt nb hnb

end RcomCells

namespace Exec

variable {env : Env} {x : Exec} {done rest : List Neighbor} {nb : Neighbor} {bs : List (List Neighbor)} {cur : List Neighbor}
  {s : CellWalk}

/-! ## The cells of the neighbour list -/

/-- With another neighbour list. -/
def withNbs (x : Exec) (l : List Neighbor) : Exec := { x with nbhead := l }

section Cell

variable {l r : List Neighbor} (hx : x.nbhead = l ++ nb :: r) (hkeys : ((l ++ nb :: r).map (·.nbAddr)).Nodup)

include hx hkeys

theorem nbLookup_cell : x.nbLookup nb.nbAddr = some nb := by
  unfold nbLookup
  rw [hx]
  exact Keyed.find?_append_cons Neighbor.nbAddr hkeys

theorem nbModify_cell (f : Neighbor → Neighbor) : x.nbModify nb.nbAddr f = x.withNbs (l ++ f nb :: r) := by
  unfold nbModify withNbs
  rw [hx, Keyed.modifyFirst_key Neighbor.nbAddr hkeys]

end Cell

/-! ## The loop -/

/-- The loop with these neighbours behind it, the batches sent and the one being written. -/
structure Writing (env : Env) (x : Exec) (done : List Neighbor) (bs : List (List Neighbor)) (cur : List Neighbor)
    (s : CellWalk) : Prop where
  done : s.done = done.map (·.evaluated env.now)
  taken : Taken maxNb s.done bs cur
  num : s.num = cur.length
  rc : s.rc = .holding cur 0
  sent : s.sent = bs.map (fun b => .holding b b.length)
  bodies : s.x.sent.map (·.body) = x.sent.map (·.body) ++ s.sent.map (fun rc => .rcom rc.read)

theorem Writing.init (env : Env) (x : Exec) : Writing env x [] [] [] ⟨x.alloc, [], x.blank, {}, 0, []⟩ :=
  ⟨rfl, .start (by decide), rfl, rfl, rfl, by rw [sent_alloc]; simp⟩

theorem Writing.addrs (h : Writing env x done bs cur s) : s.done.map (·.nbAddr) = done.map (·.nbAddr) := by
  rw [h.done, List.map_map]
  rfl

/-- The loop by address, in the same place. -/
def CellWalk.batch (s : CellWalk) (rest cur : List Neighbor) : Batch :=
  ⟨s.x.withNbs (s.done ++ rest), s.p, cur.map (fun nb => (nb.nbAddr, nb.directTrust.getD 0)), cur.countP (·.delivers)⟩

/-- One neighbour of the loop by address, at its cell. -/
theorem trustEntry_cell {l r : List Neighbor} {b : Batch} (hb : b.x.nbhead = l ++ nb :: r)
    (hkeys : ((l ++ nb :: r).map (·.nbAddr)).Nodup) : trustEntry env b nb.nbAddr =
      let x := b.x.withNbs (l ++ nb.evaluated env.now :: r)
      let nbs := b.nbs ++ [(nb.nbAddr, (nb.evaluated env.now).directTrust.getD 0)]
      let itNum := if 5 / 10 < (nb.evaluated env.now).deliveryRatio.getD 0 then b.itNum + 1 else b.itNum
      if nbs.length = maxNb then ⟨(x.sendRcom b.p ⟨nbs, itNum⟩).alloc, x.blank, [], 0⟩ else ⟨x, b.p, nbs, itNum⟩ := by
  have hkeys' : ((l ++ nb.evaluated env.now :: r).map (·.nbAddr)).Nodup := by
    rw [List.map_append, List.map_cons] at hkeys ⊢
    exact hkeys
  have hfind : (b.x.withNbs (l ++ nb.evaluated env.now :: r)).nbLookup nb.nbAddr = some (nb.evaluated env.now) :=
    @nbLookup_cell _ (nb.evaluated env.now) _ _ rfl hkeys'
  unfold trustEntry
  simp only
  rw [nbModify_cell hb hkeys, show (nb.setTV env.now).tvInit env.now = nb.evaluated env.now from rfl, hfind]
  rfl

theorem countP_snoc (cur : List Neighbor) (nb : Neighbor) : (if 5 / 10 < nb.deliveryRatio.getD 0 then
    (cur.countP (·.delivers) : Int) + 1 else cur.countP (·.delivers)) = ((cur ++ [nb]).countP (·.delivers) : Nat) := by
  rw [List.countP_append, List.countP_singleton]
  unfold Neighbor.delivers
  simp only [decide_eq_true_eq]
  split <;> simp

/-- **One neighbour**: evaluated and written into the packet, which is sent when it is full. -/
theorem Writing.cellEntry (h : Writing env x done bs cur s) (nb : Neighbor) (rest : List Neighbor) :
    ∃ s' bs' cur', cellEntry env s nb = .ok s' ∧ Writing env x (done ++ [nb]) bs' cur' s' ∧
      (((done ++ nb :: rest).map (·.nbAddr)).Nodup →
        trustEntry env (s.batch (nb :: rest) cur) nb.nbAddr = s'.batch rest cur') := by
  have hdone : s.done ++ [nb.evaluated env.now] = (done ++ [nb]).map (·.evaluated env.now) := by
    rw [List.map_append, h.done]
    rfl
  have hslots : cur.map (fun nb => (nb.nbAddr, nb.directTrust.getD 0)) ++
      [(nb.nbAddr, (nb.evaluated env.now).directTrust.getD 0)] =
      (cur ++ [nb.evaluated env.now]).map (fun nb => (nb.nbAddr, nb.directTrust.getD 0)) := by
    rw [List.map_append]
    rfl
  have hcells : ((done ++ nb :: rest).map (·.nbAddr)).Nodup → ((s.done ++ nb :: rest).map (·.nbAddr)).Nodup := by
    rw [List.map_append, List.map_append, h.addrs]
    exact fun h => h
  have hlen : (cur ++ [nb.evaluated env.now]).length = cur.length + 1 := by
    rw [List.length_append, List.length_singleton]
  unfold Exec.cellEntry
  simp only
  rw [h.rc, h.num, RcomCells.write_holding h.taken.room, ok_bind]
  by_cases hfull : cur.length + 1 = maxNb
  · rw [if_pos hfull]
    have hrc : ({ RcomCells.holding (cur ++ [nb.evaluated env.now]) 0 with nbNum := maxNb } : RcomCells) =
        .holding (cur ++ [nb.evaluated env.now]) (cur ++ [nb.evaluated env.now]).length := by
      rw [hlen, hfull]
      rfl
    rw [hrc]
    refine ⟨_, bs ++ [cur ++ [nb.evaluated env.now]], [], rfl, ⟨hdone, h.taken.close hfull _, rfl, rfl, ?_, ?_⟩, fun hkeys => ?_⟩
    · rw [h.sent, List.map_append]
      rfl
    · rw [sent_alloc]
      unfold sendRcom
      rw [sent_schedule, List.map_append, h.bodies, List.map_append, List.append_assoc]
      rfl
    · rw [trustEntry_cell rfl (hcells hkeys)]
      unfold CellWalk.batch
      simp only
      rw [hslots, countP_snoc, if_pos (by rw [List.length_map, hlen, hfull]), RcomCells.read_holding, List.append_assoc]
      rfl
  · rw [if_neg hfull]
    refine ⟨_, bs, cur ++ [nb.evaluated env.now], rfl, ⟨hdone, h.taken.more ?_ _, hlen.symm, rfl, h.sent, h.bodies⟩,
      fun hkeys => ?_⟩
    · exact lt_of_le_of_ne h.taken.room hfull
    · rw [trustEntry_cell rfl (hcells hkeys)]
      unfold CellWalk.batch
      simp only
      rw [hslots, countP_snoc, if_neg (by rwa [List.length_map, hlen]), List.append_assoc]
      rfl

theorem Writing.walk : ∀ (rest : List Neighbor) {done : List Neighbor} {bs : List (List Neighbor)} {cur : List Neighbor}
    {s : CellWalk}, Writing env x done bs cur s →
    ∃ s' bs' cur', rest.foldlM (Exec.cellEntry env) s = .ok s' ∧ Writing env x (done ++ rest) bs' cur' s' ∧
      (((done ++ rest).map (·.nbAddr)).Nodup →
        (rest.map (·.nbAddr)).foldl (trustEntry env) (s.batch rest cur) = s'.batch [] cur')
  | [], done, bs, cur, s, h => ⟨s, bs, cur, rfl, (List.append_nil done).symm ▸ h, fun _ => rfl⟩
  | nb :: rest, done, bs, cur, s, h => by
    obtain ⟨s₁, bs₁, cur₁, hs₁, h₁, htrust₁⟩ := h.cellEntry nb rest
    obtain ⟨s₂, bs₂, cur₂, hs₂, h₂, htrust₂⟩ := walk rest h₁
    rw [List.append_assoc] at h₂ htrust₂
    refine ⟨s₂, bs₂, cur₂, ?_, h₂, fun hkeys => ?_⟩
    · rw [List.foldlM_cons, hs₁]
      exact hs₂
    · rw [List.map_cons, List.foldl_cons, htrust₁ hkeys]
      exact htrust₂ hkeys

theorem nbhead_setTrust (env : Env) (hkeys : (x.nbhead.map (·.nbAddr)).Nodup) :
    (x.setTrust env).nbhead = x.nbhead.map (·.evaluated env.now) := by
  obtain ⟨s, bs, cur, -, h, htrust⟩ := (Writing.init env x).walk x.nbhead
  have hmirror : (x.nbhead.map (·.nbAddr)).foldl (trustEntry env) ⟨x.alloc, x.blank, [], 0⟩ = s.batch [] cur := htrust hkeys
  have hnbs : (s.batch [] cur).x.nbhead = x.nbhead.map (·.evaluated env.now) := (List.append_nil _).trans h.done
  unfold setTrust
  simp only
  rw [hmirror]
  split
  · exact hnbs
  · exact hnbs

/-! ## A round -/

/-- What a round of `set_trust` makes of the neighbours, and the packets it sends of the batches they are cut into. -/
structure Round (env : Env) (x y : Exec) (bs : List (List Neighbor)) (ws : List RcomCells) : Prop where
  evaluated : y.nbhead = x.nbhead.map (·.evaluated env.now)
  cut : Cut maxNb y.nbhead bs
  packets : ws = bs.map (fun b => .holding b b.length)
  cells : ∀ rc ∈ ws, 1 ≤ rc.nbNum ∧ rc.nbNum ≤ maxNb ∧ rc.Exact
  told : (ws.map (·.read.nbs)).flatten.map (fun r => (r.1, some r.2)) = y.nbhead.map (fun nb => (nb.nbAddr, nb.directTrust))
  itNum : (ws.map (·.itNum)).sum = y.nbhead.countP (·.delivers)
  sent : y.sent.map (·.body) = x.sent.map (·.body) ++ ws.map (fun rc => .rcom rc.read)

/-- The packets of batches of neighbours that were evaluated. -/
theorem Round.of_cut {y : Exec} (hy : y.nbhead = x.nbhead.map (·.evaluated env.now)) (hcut : Cut maxNb y.nbhead bs)
    (hsent : y.sent.map (·.body) = x.sent.map (·.body) ++ (bs.map (fun b => RcomCells.holding b b.length)).map
      (fun rc => .rcom rc.read)) : Round env x y bs (bs.map (fun b => .holding b b.length)) where
  evaluated := hy
  cut := hcut
  packets := rfl
  cells := by
    intro rc hrc
    obtain ⟨b, hb, rfl⟩ := List.mem_map.1 hrc
    refine ⟨(hcut.sizes b hb).1, (hcut.sizes b hb).2, RcomCells.exact_holding (fun nb hnb => ?_)⟩
    have hmem : nb ∈ y.nbhead := hcut.whole ▸ List.mem_flatten_of_mem hb hnb
    rw [hy] at hmem
    obtain ⟨nb₀, -, rfl⟩ := List.mem_map.1 hmem
    rfl
  told := by
    have hread : (bs.map (fun b => RcomCells.holding b b.length)).map (·.read.nbs) =
        bs.map (List.map (fun nb => (nb.nbAddr, nb.directTrust.getD 0))) := by
      rw [List.map_map]
      exact List.map_congr_left (fun b _ => congrArg Recommen.nbs (RcomCells.read_holding b))
    rw [hread, ← List.map_flatten, hcut.whole, List.map_map, hy, List.map_map, List.map_map]
    rfl
  itNum := by
    rw [← hcut.whole, List.countP_flatten, Nat.cast_list_sum, List.map_map, List.map_map]
    rfl
  sent := hsent

/-- **A round of `set_trust` evaluates every neighbour once and reports them all**, in order, each in one packet. -/
theorem setTrust_round (env : Env) (x : Exec) : ∃ y bs ws, x.setTrustCells env = .ok (y, ws) ∧ Round env x y bs ws ∧
    ((x.nbhead.map (·.nbAddr)).Nodup → x.setTrust env = y) := by
  obtain ⟨s, bs, cur, hs, h, htrust⟩ := (Writing.init env x).walk x.nbhead
  have hnbs : s.done = x.nbhead.map (·.evaluated env.now) := h.done
  have hcut := h.taken.cut
  have hmirror : (x.nbhead.map (·.nbAddr)).Nodup →
      (x.nbhead.map (·.nbAddr)).foldl (trustEntry env) ⟨x.alloc, x.blank, [], 0⟩ = s.batch [] cur := htrust
  have hlen : (s.batch [] cur).nbs.length = cur.length := List.length_map _
  unfold setTrustCells setTrust
  rw [hs, ok_bind]
  simp only [h.num]
  by_cases hnum : cur.length ≠ 0
  · rw [if_pos hnum] at hcut
    have hrc : ({ s.rc with nbNum := cur.length } : RcomCells) = .holding cur cur.length := by
      rw [h.rc]
      rfl
    have hsent : s.sent ++ [RcomCells.holding cur cur.length] =
        (bs ++ [cur]).map (fun b => RcomCells.holding b b.length) := by
      rw [h.sent, List.map_append]
      rfl
    rw [if_pos hnum, hrc, hsent]
    refine ⟨_, bs ++ [cur], _, rfl, .of_cut hnbs hcut ?_, fun hkeys => ?_⟩
    · unfold sendRcom
      rw [sent_schedule, List.map_append, ← hsent, List.map_append, ← List.append_assoc, ← h.bodies]
      rfl
    · rw [hmirror hkeys, hlen, if_pos hnum, RcomCells.read_holding]
      unfold CellWalk.batch
      rw [List.append_nil]
      rfl
  · rw [if_neg hnum] at hcut
    rw [if_neg hnum, h.sent]
    refine ⟨_, bs, _, rfl, .of_cut hnbs hcut ?_, fun hkeys => ?_⟩
    · rw [← h.sent, ← h.bodies]
      rfl
    · rw [hmirror hkeys, hlen, if_neg hnum]
      unfold CellWalk.batch
      rw [List.append_nil]
      rfl

/-- A node with one neighbour more than a packet holds. -/
def wellMet : Exec where
  index := 99
  hereAddr := 99
  nbhead := (List.range 51).map (fun id => .new id 0 6)
  heap := 0
  log := []

theorem setTrust_round_wellMet : ∃ bs ws, wellMet.setTrustCells { inf := 65535, now := 2 } =
    .ok (wellMet.setTrust { inf := 65535, now := 2 }, ws) ∧
    Round { inf := 65535, now := 2 } wellMet (wellMet.setTrust { inf := 65535, now := 2 }) bs ws := by
  obtain ⟨y, bs, ws, hcells, hround, heq⟩ := setTrust_round { inf := 65535, now := 2 } wellMet
  have hkeys : (wellMet.nbhead.map (·.nbAddr)).Nodup := by decide
  rw [heq hkeys]
  exact ⟨bs, ws, hcells, hround⟩

end Exec

end TeAomdv

import TeAomdv.Packet
import TeAomdv.Lib.Keyed
/-!
# Trust — the neighbour entry and its trust value (`TEAOMDV_Neighbor`)

The five quantities a `TV` is mixed from and the two record arrays.  A field the constructor leaves unassigned is an
`Option`, `none` until `set_TV` assigns it.  The arrays are kept with their fill counters, so the in-place compaction
of `set_direct_trust` is the source's.
-/
namespace TeAomdv

/-- `TRUST_TIME`, the seconds between two rounds of `set_trust`. -/
def trustTime : ℚ := 21 / 10

/-- `PROB_T`, the seconds between two probes. -/
def probT : ℚ := 2 / 10

/-- `node1`: a packet handed to the neighbour, and whether it was overheard passing it on. -/
structure Node1 where
  uid : Nat
  time : ℚ
  ok : Bool
  deriving DecidableEq

/-- `TEAOMDV_Neighbor`. -/
structure Neighbor where
  nbAddr : NsAddr
  nbExpire : ℚ
  tv : ℚ
  directTrust : Option ℚ := none
  controlForwardRate : Option ℚ := none
  controlForwardCorrects : Nat := 0
  controlForwardAlls : Nat := 0
  dataForwardRate : Option ℚ := none
  dataForwardCorrects : Nat := 0
  dataForwardAlls : Nat := 0
  cbrF : List Node1 := []
  cbrNum : Nat := 0
  ptteaomdvF : List Node1 := []
  ptteaomdvNum : Nat := 0
  recommenTrust : Option ℚ := none
  fenzi : ℚ := 0
  fenmu : ℚ := 0
  deliveryRatio : Option ℚ := none
  probRecvs : ℚ := 0
  probStime : ℚ := 0
  activityDegree : Option ℚ := none
  trustedNbs : ℚ := 2
  interactNbs : ℚ := 2
  deriving DecidableEq

/-- `TrustThreshold`. -/
def trustThreshold : ℚ := 7 / 10

/-- `a_constant`. -/
def aConstant : ℚ := 1 / 10

/-- The sizes of `cbr_f` and `ptteaomdv_f`. -/
def cbrMax : Nat := 1000

def ptteaomdvMax : Nat := 100

/-- A write to cell `i` of an array of which the cells so far written are listed. -/
def writeCell (a : List Node1) (i : Nat) (r : Node1) : List Node1 := if i < a.length then a.set i r else a ++ [r]

/-- The state of one loop of `set_direct_trust`: the array, `tot`, and the two counters. -/
structure Judged where
  cells : List Node1
  tot : Nat
  corrects : Nat
  alls : Nat

/-- One round of the loop: a confirmed record, one more than 1.5 s old, or one that stays pending at cell `tot`. -/
def judgeStep (now : ℚ) (s : Judged) (i : Nat) : Judged :=
  match s.cells[i]? with
  | none => s
  | some r =>
    if r.ok then { s with corrects := s.corrects + 1, alls := s.alls + 1 }
    else if r.time + 15 / 10 < now then { s with alls := s.alls + 1 }
    else { s with cells := s.cells.set s.tot { uid := r.uid, time := r.time, ok := false }, tot := s.tot + 1 }

def judge (now : ℚ) (cells : List Node1) (num corrects alls : Nat) : Judged :=
  (List.range num).foldl (judgeStep now) ⟨cells, 0, corrects, alls⟩

namespace Neighbor

/-- `TV_init`. -/
def tvInit (nb : Neighbor) (now : ℚ) : Neighbor :=
  { nb with
    controlForwardCorrects := 0
    controlForwardAlls := 0
    dataForwardCorrects := if nb.dataForwardAlls ≥ 5 then 0 else nb.dataForwardCorrects
    dataForwardAlls := if nb.dataForwardAlls ≥ 5 then 0 else nb.dataForwardAlls
    fenzi := 0
    fenmu := 0
    probRecvs := 0
    probStime := now
    trustedNbs := 2
    interactNbs := 2 }

/-- The constructor, and the expiry `nb_insert` then sets. -/
def new (a : NsAddr) (now expire : ℚ) : Neighbor := tvInit { nbAddr := a, nbExpire := expire, tv := 1 } now

/-- `set_direct_trust`. -/
def setDirectTrust (nb : Neighbor) (now : ℚ) : Neighbor :=
  let c := judge now nb.ptteaomdvF nb.ptteaomdvNum nb.controlForwardCorrects nb.controlForwardAlls
  let cRate : ℚ := if c.alls ≥ 2 then c.corrects / c.alls else 9 / 10
  let d := judge now nb.cbrF nb.cbrNum nb.dataForwardCorrects nb.dataForwardAlls
  let dRate : ℚ := if d.alls ≥ 5 then d.corrects / d.alls else 9 / 10
  { nb with
    ptteaomdvF := c.cells
    ptteaomdvNum := c.tot
    controlForwardCorrects := c.corrects
    controlForwardAlls := c.alls
    controlForwardRate := some cRate
    cbrF := d.cells
    cbrNum := d.tot
    dataForwardCorrects := d.corrects
    dataForwardAlls := d.alls
    dataForwardRate := some dRate
    directTrust := some (2 / 10 * cRate + 8 / 10 * dRate) }

/-- `set_recommen_trust`. -/
def setRecommenTrust (nb : Neighbor) : Neighbor :=
  { nb with recommenTrust := some (if 1 / 10 ≤ max nb.fenmu (-nb.fenmu) then nb.fenzi / nb.fenmu else 8 / 10) }

/-- `set_delivery_ratio`. -/
def setDeliveryRatio (nb : Neighbor) (now : ℚ) : Neighbor :=
  { nb with
    deliveryRatio := some (if 15 / 10 < now - nb.probStime then nb.probRecvs / ((now - nb.probStime) / probT) else 8 / 10) }

/-- `set_activity_degree`. -/
def setActivityDegree (nb : Neighbor) : Neighbor :=
  { nb with
    activityDegree :=
      some (5 / 10 * (1 - (1 / nb.trustedNbs + aConstant)) + 5 / 10 * (1 - (1 / nb.interactNbs + aConstant))) }

/-- The weighted sum of `set_TV`, once its four other terms are assigned. -/
def mixTV (nb : Neighbor) : ℚ :=
  35 / 100 * nb.directTrust.getD 0 + 1 / 10 * nb.recommenTrust.getD 0 + 2 / 10 * nb.tv
    + 225 / 1000 * nb.deliveryRatio.getD 0 + 125 / 1000 * nb.activityDegree.getD 0

/-- `set_TV`. -/
def setTV (nb : Neighbor) (now : ℚ) : Neighbor :=
  let nb := (((nb.setDirectTrust now).setRecommenTrust).setDeliveryRatio now).setActivityDegree
  { nb with tv := nb.mixTV }

/-- `add_data_forward_corrects` and `add_data_forward_alls`. -/
def addDataForward (nb : Neighbor) : Neighbor :=
  { nb with dataForwardCorrects := nb.dataForwardCorrects + 1, dataForwardAlls := nb.dataForwardAlls + 1 }

/-- `add_control_forward_corrects` and `add_control_forward_alls`. -/
def addControlForward (nb : Neighbor) : Neighbor :=
  { nb with
    controlForwardCorrects := nb.controlForwardCorrects + 1
    controlForwardAlls := nb.controlForwardAlls + 1 }

/-- The record `forward` keeps of a data packet, while there is room. -/
def recordCbr (nb : Neighbor) (uid : Nat) (now : ℚ) : Neighbor :=
  if nb.cbrNum < cbrMax then
    { nb with cbrF := writeCell nb.cbrF nb.cbrNum ⟨uid, now, false⟩, cbrNum := nb.cbrNum + 1 }
  else nb

/-- The record `forward` keeps of a control packet, while there is room. -/
def recordPtteaomdv (nb : Neighbor) (uid : Nat) (now : ℚ) : Neighbor :=
  if nb.ptteaomdvNum < ptteaomdvMax then
    { nb with
      ptteaomdvF := writeCell nb.ptteaomdvF nb.ptteaomdvNum ⟨uid, now, false⟩
      ptteaomdvNum := nb.ptteaomdvNum + 1 }
  else nb

/-- The mark `tap` leaves on the first of the `num` records with this uid. -/
def confirm (cells : List Node1) (num uid : Nat) : List Node1 :=
  Keyed.modifyFirst (fun r => r.uid = uid) (fun r => { r with ok := true }) (cells.take num) ++ cells.drop num

end Neighbor

end TeAomdv

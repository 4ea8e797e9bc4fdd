import TeAomdv.Packet
import TeAomdv.Lib.Keyed
/-!
# Rtable — paths, precursors and route entries (`teaomdv_rtable.cc`)

The route entry with its hand-kept counter and lists.  A `TEAOMDV_Path*` or a `TEAOMDV_Precursor*` is the first list
cell that passed the search; lists are walked and grown as in the source (paths at the end, precursors at the head).

A path carries one field the source does not have, `origin`: the sequence number of the RREQ or RREP it came in with,
and whether that packet renewed the entry.  It is written once, by the insertion, and read by no function; it says
what "was inserted from" means.
-/
namespace TeAomdv

/-- `INFINITY2`. -/
def infinity2 : Nat := 0xff

/-- Where a stored path comes from; not a field of the source. -/
structure Origin where
  seqno : Nat
  renewed : Bool
  deriving DecidableEq

/-- `TEAOMDV_Path`. -/
structure Path where
  nexthop : NsAddr
  hopcount : Nat
  expire : ℚ
  lasthop : NsAddr
  FPT : ℚ
  RPT : ℚ
  origin : Origin
  deriving DecidableEq

/-- `RTF_DOWN`, `RTF_UP`, `RTF_IN_REPAIR`. -/
inductive RtFlag
  | down
  | up
  | inRepair
  deriving DecidableEq, Repr

/-- `teaomdv_rt_entry`.  The constructor leaves `rt_hops` unset and nothing ever sets it. -/
structure RtEntry where
  rtDst : NsAddr
  rtHops : Nat
  rtReqTimeout : ℚ := 0
  rtReqCnt : Nat := 0
  rtFlags : RtFlag := .down
  rtSeqno : Nat := 0
  rtAdvertisedHops : Nat := infinity2
  rtLastHopCount : Int := infinity2
  rtPathList : List Path := []
  rtHighestSeqnoHeard : Nat := 0
  rtNumPaths : Int := 0
  rtError : Bool := false
  rtPclist : List NsAddr := []
  rtExpire : ℚ := 0
  rtDiscLatency : List ℚ := [0, 0, 0]
  rtReqLastTtl : Int := 0
  deriving DecidableEq

namespace RtEntry

/-! ## Paths -/

/-- `path_insert`: the new path goes to the end of the list. -/
def pathInsert (e : RtEntry) (nexthop : NsAddr) (hopcount : Nat) (expire : ℚ) (lasthop : NsAddr) (fpt rpt : ℚ)
    (origin : Origin) : RtEntry :=
  { e with
    rtPathList := e.rtPathList ++ [⟨nexthop, hopcount, expire, lasthop, fpt, rpt, origin⟩]
    rtNumPaths := e.rtNumPaths + 1 }

/-- `path_lookup`: by next hop. -/
def pathLookup (e : RtEntry) (id : NsAddr) : Option Path := e.rtPathList.find? (fun p => p.nexthop = id)

/-- The test of `disjoint_path_lookup`. -/
def samePath (nexthop lasthop : NsAddr) (p : Path) : Bool := p.nexthop = nexthop ∧ p.lasthop = lasthop

/-- `disjoint_path_lookup`. -/
def disjointPathLookup (e : RtEntry) (nexthop lasthop : NsAddr) : Option Path :=
  e.rtPathList.find? (samePath nexthop lasthop)

/-- `new_disjoint_path`: no stored path has this next hop or this last hop. -/
def newDisjointPath (e : RtEntry) (nexthop lasthop : NsAddr) : Bool :=
  !e.rtPathList.any (fun p => p.nexthop = nexthop ∨ p.lasthop = lasthop)

/-- `path_lookup_lasthop`. -/
def pathLookupLasthop (e : RtEntry) (id : NsAddr) : Option Path := e.rtPathList.find? (fun p => p.lasthop = id)

/-- `path_delete(id)`: the first path with this next hop. -/
def pathDelete (e : RtEntry) (id : NsAddr) : RtEntry :=
  if (e.pathLookup id).isSome then
    { e with
      rtPathList := e.rtPathList.eraseP (fun p => p.nexthop = id)
      rtNumPaths := e.rtNumPaths - 1 }
  else e

/-- `path_delete()`. -/
def pathDeleteAll (e : RtEntry) : RtEntry := { e with rtPathList := [], rtNumPaths := 0 }

/-- `path_find`: the path that came first. -/
def pathFind (e : RtEntry) : Option Path := e.rtPathList.head?

/-- `path_get_max_hopcount`. -/
def pathGetMaxHopcount (e : RtEntry) : Nat :=
  let maxHopcount := e.rtPathList.foldl (fun m p => if p.hopcount > m then p.hopcount else m) 0
  if maxHopcount = 0 then infinity2 else maxHopcount

/-- `path_get_min_hopcount`. -/
def pathGetMinHopcount (e : RtEntry) : Nat :=
  e.rtPathList.foldl (fun m p => if p.hopcount < m then p.hopcount else m) infinity2

/-- `path_purge`: restarts the scan after every removal. -/
def pathPurge (e : RtEntry) (now : ℚ) : RtEntry :=
  { e with
    rtPathList := Keyed.eraseAll (fun p => p.expire < now) e.rtPathList
    rtNumPaths := e.rtNumPaths -
      (e.rtPathList.length - (Keyed.eraseAll (fun p => p.expire < now) e.rtPathList).length : Nat) }

/-- A write through the pointer `path_find` returned. -/
def modifyFind (e : RtEntry) (f : Path → Path) : RtEntry := { e with rtPathList := e.rtPathList.modifyHead f }

/-- A write through the pointer `disjoint_path_lookup` returned. -/
def modifyDisjoint (e : RtEntry) (nexthop lasthop : NsAddr) (f : Path → Path) : RtEntry :=
  { e with rtPathList := Keyed.modifyFirst (samePath nexthop lasthop) f e.rtPathList }

/-! ## Precursors -/

/-- `pc_insert`. -/
def pcInsert (e : RtEntry) (id : NsAddr) : RtEntry :=
  if id ∈ e.rtPclist then e else { e with rtPclist := id :: e.rtPclist }

/-! ## Rules the handlers apply to an entry -/

def setSeqno (e : RtEntry) (n : Nat) : RtEntry := { e with rtSeqno := n }

def setHighestSeqnoHeard (e : RtEntry) (n : Nat) : RtEntry := { e with rtHighestSeqnoHeard := n }

def setError (e : RtEntry) (b : Bool) : RtEntry := { e with rtError := b }

/-- `rt_down`. -/
def rtDown (e : RtEntry) (inf : Nat) : RtEntry :=
  if e.rtFlags = .down then e
  else { e.pathDeleteAll with rtFlags := .down, rtAdvertisedHops := inf, rtExpire := 0 }

/-- The route advertisement: the hop count is frozen the first time it is given away. -/
def advertise (e : RtEntry) (inf : Nat) : RtEntry :=
  if e.rtAdvertisedHops = inf then { e with rtAdvertisedHops := e.pathGetMaxHopcount } else e

/-- The soft state a route request leaves, reset when a route comes up. -/
def resetSoftState (e : RtEntry) : RtEntry := { e with rtReqTimeout := 0, rtReqLastTtl := 0, rtReqCnt := 0 }

end RtEntry

end TeAomdv

import Mathlib.Data.Rat.Defs
import Mathlib.Algebra.Order.Ring.Rat
/-!
# Packet — addresses, headers and packets (`teaomdv_packet.h`)

A packet is its common header, its IP header and one routing header.  Times and trust values, doubles in the source,
are rationals; addresses are integers with `IP_BROADCAST` at `-1`; counters are naturals, reduced where the source
writes them into an unsigned field of fixed width.  Sizes, interface numbers and error flags are not carried: nothing
the agent does reads them.
-/
namespace TeAomdv

/-- `nsaddr_t`. -/
abbrev NsAddr := Int

/-- `(nsaddr_t) IP_BROADCAST`. -/
def ipBroadcast : NsAddr := -1

/-- `RT_PORT` of ns-2. -/
def rtPort : Int := 255

/-- A value stored in a `u_int32_t`. -/
def u32 (n : Nat) : Nat := n % 4294967296

/-- A value stored in a `u_int8_t`. -/
def u8 (n : Nat) : Nat := n % 256

theorem u32_of_lt {n : Nat} (h : n < 4294967296) : u32 n = n := Nat.mod_eq_of_lt h

theorem u32_mod_two (n : Nat) : u32 n % 2 = n % 2 := by
  unfold u32
  omega

theorem u8_of_lt {n : Nat} (h : n < 256) : u8 n = n := Nat.mod_eq_of_lt h

/-- `TEAOMDV_MAX_ERRORS`, the slots of a RERR. -/
def teaomdvMaxErrors : Nat := 100

/-- `MAX_NB`, the slots of an RCOM. -/
def maxNb : Nat := 50

/-- The packet types the agent tells apart: its own, `PT_CBR`, and the rest, which `DATA_PACKET` splits in two. -/
inductive Ptype
  | teaomdv
  | cbr
  | other (data : Bool)
  deriving DecidableEq, Repr

/-- `DATA_PACKET`. -/
def dataPacket : Ptype → Bool
  | .teaomdv => false
  | .cbr => true
  | .other data => data

/-- `hdr_cmn::dir_t`. -/
inductive Direction
  | down
  | none
  | up
  deriving DecidableEq, Repr

/-- `ch->addr_type()`: by next hop, or by the IP destination. -/
inductive AddrType
  | none
  | inet
  deriving DecidableEq, Repr

/-- `hdr_teaomdv_request`. -/
structure Rreq where
  rqHopCount : Nat
  rqBcastId : Nat
  rqDst : NsAddr
  rqDstSeqno : Nat
  rqSrc : NsAddr
  rqSrcSeqno : Nat
  rqTimestamp : ℚ
  rqFirstHop : NsAddr
  RT : ℚ
  FPT : ℚ
  RPT : ℚ

/-- `hdr_teaomdv_reply`, the header of a RREP and of a HELLO. -/
structure Rrep where
  rpHopCount : Nat
  rpDst : NsAddr
  rpDstSeqno : Nat
  rpSrc : NsAddr
  rpLifetime : ℚ
  rpTimestamp : ℚ
  rpBcastId : Nat
  rpFirstHop : NsAddr
  RT : ℚ
  FPT : ℚ
  RPT : ℚ

/-- `hdr_teaomdv_error`: the slots below `DestCount`, a destination and its number each. -/
structure Rerr where
  unreachable : List (NsAddr × Nat)

/-- `hdr_teaomdv_recommen`: the slots below `nb_num`, and `it_num`. -/
structure Recommen where
  nbs : List (NsAddr × ℚ)
  itNum : Int

/-- `hdr_teaomdv_pta`. -/
structure Pta where
  unreachableDst : NsAddr
  unreachableLasthop : NsAddr
  unreachableDstSeqno : Nat

/-- The header `hdr_teaomdv::access` finds, by `ah_type`; `payload` when the packet is not the agent's. -/
inductive Body
  | payload
  | rreq (rq : Rreq)
  | rrep (rp : Rrep)
  | rerr (re : Rerr)
  | hello (rp : Rrep)
  | rcom (rc : Recommen)
  | prob
  | pta (re : Pta)

/-- A packet.  `ptr` is its address in memory: two packets with equal headers are still two packets. -/
structure Packet where
  ptr : Nat
  ptype : Ptype := .teaomdv
  direction : Direction := .none
  addrType : AddrType := .none
  nextHop : NsAddr := 0
  prevHop : NsAddr := 0
  pprevHop : NsAddr := 0
  numForwards : Nat := 0
  uid : Nat := 0
  salvageCount : Nat := 0
  ts : ℚ := 0
  saddr : NsAddr := 0
  daddr : NsAddr := 0
  sport : Int := 0
  dport : Int := 0
  ttl : Int := 0
  body : Body := .payload

/-- The link-layer destination: `next_hop_` for `NS_AF_INET`, else the IP destination. -/
def Packet.linkDst (p : Packet) : NsAddr :=
  match p.addrType with
  | .inet => p.nextHop
  | .none => p.daddr

end TeAomdv

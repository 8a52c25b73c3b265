import Onos.IpAddresses
import Onos.Lib.KeyedMap

/-! Routes that are received from the peers of a BGP speaker, and the decision process that compares
two of them. -/
namespace BgpRoutes

open WireBytes IpAddresses KeyedMap

structure BgpSessionInfo where
  bgpId : BitVec 32
  ip4Address : BitVec 32
  asNumber : ℕ
  mpExtensions : Bool
  as4OctetCapability : Bool
  deriving DecidableEq, Repr

structure BgpSession where
  localInfo : BgpSessionInfo
  remoteInfo : BgpSessionInfo
  deriving DecidableEq, Repr

namespace BgpSession

def mpExtensions (s : BgpSession) : Bool := s.remoteInfo.mpExtensions && s.localInfo.mpExtensions

def isAs4OctetCapable (s : BgpSession) : Bool :=
  s.remoteInfo.as4OctetCapability && s.localInfo.as4OctetCapability

end BgpSession

def AS_SET : Byte := 1
def AS_SEQUENCE : Byte := 2
def AS_CONFED_SEQUENCE : Byte := 3
def AS_CONFED_SET : Byte := 4

def BGP_AS_0 : ℕ := 0

def LOWEST_MULTI_EXIT_DISC : ℕ := 0

structure PathSegment where
  type : Byte
  segmentAsNumbers : List ℕ
  deriving DecidableEq, Repr

structure AsPath where
  pathSegments : List PathSegment
  deriving DecidableEq, Repr

/-- A set counts as one, a sequence as the numbers in it, and confederations are ignored. -/
def PathSegment.lengthInPath (segment : PathSegment) : ℕ :=
  if segment.type = AS_SET then 1
  else if segment.type = AS_SEQUENCE then segment.segmentAsNumbers.length
  else 0

def AsPath.getAsPathLength (path : AsPath) : ℕ :=
  (path.pathSegments.map PathSegment.lengthInPath).sum

def AsPath.contains (path : AsPath) (asNumber : ℕ) : Bool :=
  path.pathSegments.any fun segment => segment.segmentAsNumbers.contains asNumber

structure BgpRouteEntry where
  bgpSession : BgpSession
  ipPrefix : IpPrefix
  nextHop : IpAddress
  origin : Byte
  asPath : AsPath
  localPref : ℕ
  multiExitDisc : ℕ
  deriving DecidableEq, Repr

namespace BgpRouteEntry

def firstPathSegment (route : BgpRouteEntry) : Option PathSegment :=
  route.asPath.pathSegments.find? fun segment => segment.type = AS_SET ∨ segment.type = AS_SEQUENCE

def isLocalRoute (route : BgpRouteEntry) : Bool :=
  match route.firstPathSegment with
  | none => true
  | some segment => segment.type = AS_SET

def getNeighborAs (route : BgpRouteEntry) : ℕ :=
  if route.isLocalRoute then BGP_AS_0
  else match route.firstPathSegment with
    | none => BGP_AS_0
    | some segment => segment.segmentAsNumbers.head?.getD BGP_AS_0

def hasAsPathLoop (route : BgpRouteEntry) (localAsNumber : ℕ) : Bool :=
  route.asPath.contains localAsNumber

def comparesMultiExitDisc (route other : BgpRouteEntry) : Bool :=
  !route.isLocalRoute && !other.isLocalRoute && route.getNeighborAs == other.getNeighborAs
    && route.getNeighborAs != BGP_AS_0

def isBetterThan (route other : BgpRouteEntry) : Bool :=
  if route = other then true
  else if route.localPref ≠ other.localPref then route.localPref > other.localPref
  else if route.asPath.getAsPathLength ≠ other.asPath.getAsPathLength then
    route.asPath.getAsPathLength < other.asPath.getAsPathLength
  else if route.origin ≠ other.origin then route.origin.toInt < other.origin.toInt
  else if route.comparesMultiExitDisc other ∧ route.multiExitDisc ≠ other.multiExitDisc then
    route.multiExitDisc > other.multiExitDisc
  else if route.bgpSession.remoteInfo.bgpId ≠ other.bgpSession.remoteInfo.bgpId then
    route.bgpSession.remoteInfo.bgpId < other.bgpSession.remoteInfo.bgpId
  else if route.bgpSession.remoteInfo.ip4Address ≠ other.bgpSession.remoteInfo.ip4Address then
    route.bgpSession.remoteInfo.ip4Address < other.bgpSession.remoteInfo.ip4Address
  else true

theorem comparesMultiExitDisc_comm (route other : BgpRouteEntry) :
    route.comparesMultiExitDisc other = other.comparesMultiExitDisc route := by
  unfold comparesMultiExitDisc
  rw [Bool.and_comm (!route.isLocalRoute), BEq.comm (a := route.getNeighborAs)]
  by_cases h : other.getNeighborAs = route.getNeighborAs
  · rw [h]
  · simp [beq_false_of_ne h]

section Criteria

variable {p p' : Prop} [Decidable p] [Decidable p'] {x x' rest rest' : Bool}

theorem criterion_antisymm (hp : p ↔ p') (hx : p → x = true → ¬x' = true)
    (h : (if p then x else rest) = true) (h' : (if p' then x' else rest') = true) :
    ¬p ∧ rest = true ∧ rest' = true := by
  by_cases hpos : p
  · rw [if_pos hpos] at h
    rw [if_pos (hp.mp hpos)] at h'
    exact absurd h' (hx hpos h)
  · rw [if_neg hpos] at h
    rw [if_neg (mt hp.mpr hpos)] at h'
    exact ⟨hpos, h, h'⟩

theorem criterion_total (hp : p ↔ p') (hx : p → ¬x = true → x' = true)
    (hrest : ¬rest = true → rest' = true) (h : ¬(if p then x else rest) = true) :
    (if p' then x' else rest') = true := by
  by_cases hpos : p
  · rw [if_pos hpos] at h
    rw [if_pos (hp.mp hpos)]
    exact hx hpos h
  · rw [if_neg hpos] at h
    rw [if_neg (mt hp.mpr hpos)]
    exact hrest h

end Criteria

theorem isBetterThan_antisymm {route other : BgpRouteEntry} (h : route.isBetterThan other = true)
    (h' : other.isBetterThan route = true) :
    route.bgpSession.remoteInfo.bgpId = other.bgpSession.remoteInfo.bgpId ∧
      route.bgpSession.remoteInfo.ip4Address = other.bgpSession.remoteInfo.ip4Address := by
  by_cases heq : route = other
  · subst heq
    exact ⟨rfl, rfl⟩
  rw [isBetterThan, if_neg heq] at h
  rw [isBetterThan, if_neg (Ne.symm heq), comparesMultiExitDisc_comm other route] at h'
  obtain ⟨_, h, h'⟩ := criterion_antisymm ne_comm (fun _ hx => by
    rw [decide_eq_true_iff] at *
    omega) h h'
  obtain ⟨_, h, h'⟩ := criterion_antisymm ne_comm (fun _ hx => by
    rw [decide_eq_true_iff] at *
    omega) h h'
  obtain ⟨_, h, h'⟩ := criterion_antisymm ne_comm (fun _ hx => by
    rw [decide_eq_true_iff] at *
    omega) h h'
  obtain ⟨_, h, h'⟩ := criterion_antisymm (and_congr_right' ne_comm) (fun _ hx => by
    rw [decide_eq_true_iff] at *
    omega) h h'
  obtain ⟨hid, h, h'⟩ := criterion_antisymm ne_comm (fun _ hx => by
    rw [decide_eq_true_iff, BitVec.lt_def] at *
    omega) h h'
  obtain ⟨haddress, _, _⟩ := criterion_antisymm ne_comm (fun _ hx => by
    rw [decide_eq_true_iff, BitVec.lt_def] at *
    omega) h h'
  exact ⟨not_not.mp hid, not_not.mp haddress⟩

theorem isBetterThan_total (route other : BgpRouteEntry) (h : ¬route.isBetterThan other = true) :
    other.isBetterThan route = true := by
  by_cases heq : route = other
  · subst heq
    rw [isBetterThan, if_pos rfl]
  rw [isBetterThan, if_neg heq] at h
  rw [isBetterThan, if_neg (Ne.symm heq), comparesMultiExitDisc_comm other route]
  refine criterion_total ne_comm ?_ (criterion_total ne_comm ?_ (criterion_total ne_comm ?_
    (criterion_total (and_congr_right' ne_comm) ?_ (criterion_total ne_comm ?_
    (criterion_total ne_comm ?_ fun _ => rfl))))) h
  · intro hne hx
    rw [decide_eq_true_iff] at *
    omega
  · intro hne hx
    rw [decide_eq_true_iff] at *
    omega
  · intro hne hx
    have hint : route.origin.toInt ≠ other.origin.toInt := fun h => hne (BitVec.eq_of_toInt_eq h)
    rw [decide_eq_true_iff] at *
    omega
  · intro hne hx
    rw [decide_eq_true_iff] at *
    omega
  · intro hne hx
    have hnat := BitVec.toNat_ne_iff_ne.mpr hne
    rw [decide_eq_true_iff, BitVec.lt_def] at *
    omega
  · intro hne hx
    have hnat := BitVec.toNat_ne_iff_ne.mpr hne
    rw [decide_eq_true_iff, BitVec.lt_def] at *
    omega

end BgpRouteEntry

/-- The routes of a peer, or those that were selected among all peers, by their prefixes. The keys
tell routes of IPv4 from those of IPv6. -/
abbrev RibIn := Table IpPrefix BgpRouteEntry

end BgpRoutes

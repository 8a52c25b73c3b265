import Onos.BgpRoutes
import Onos.Lib.ChannelBuffer

/-! UPDATE messages of BGP: how they are parsed, what they announce and withdraw, and what becomes
of the routes that are held of the peer that sent one. -/
namespace BgpUpdates

open WireBytes ByteBuffer BufferReaders ChannelBuffer IpAddresses KeyedMap BgpRoutes

/-- Why a message is answered by a notification that closes the session, with the type code of the
attribute where the notification names it. -/
inductive UpdateError where
  | badMessageLength
  | malformedAttributeList
  | unrecognizedWellKnownAttribute (attrTypeCode : ℕ)
  | missingWellKnownAttribute (attrTypeCode : ℕ)
  | attributeFlagsError (attrTypeCode : ℕ)
  | attributeLengthError (attrTypeCode : ℕ)
  | invalidOriginAttribute
  | invalidNextHopAttribute
  | optionalAttributeError (attrTypeCode : ℕ)
  | invalidNetworkField
  | malformedAsPath
  deriving DecidableEq, Repr

abbrev Parser := Reader UpdateError

def fail {α : Type} (e : UpdateError) : Parser α := fun _ => .error (.checked e)

namespace Origin
def TYPE : ℕ := 1
def LENGTH : ℕ := 1
def IGP : ℕ := 0
def EGP : ℕ := 1
def INCOMPLETE : ℕ := 2
end Origin

namespace AsPathAttribute
def TYPE : ℕ := 2
def AS_LENGTH : ℕ := 2
def AS_4OCTET_LENGTH : ℕ := 4
end AsPathAttribute

namespace NextHop
def TYPE : ℕ := 3
def LENGTH : ℕ := 4
end NextHop

namespace MultiExitDisc
def TYPE : ℕ := 4
def LENGTH : ℕ := 4
end MultiExitDisc

namespace LocalPref
def TYPE : ℕ := 5
def LENGTH : ℕ := 4
end LocalPref

namespace AtomicAggregate
def TYPE : ℕ := 6
def LENGTH : ℕ := 0
end AtomicAggregate

namespace Aggregator
def TYPE : ℕ := 7
def AS2_LENGTH : ℕ := 6
def AS4_LENGTH : ℕ := 8
end Aggregator

namespace MpReachNlri
def TYPE : ℕ := 14
def MIN_LENGTH : ℕ := 5
end MpReachNlri

namespace MpUnreachNlri
def TYPE : ℕ := 15
def MIN_LENGTH : ℕ := 3
end MpUnreachNlri

def BGP_UPDATE_MIN_LENGTH : ℕ := 23
def BGP_HEADER_LENGTH : ℕ := 19
def AFI_IPV4 : ℕ := 1
def AFI_IPV6 : ℕ := 2
def SAFI_UNICAST : ℕ := 1

section Prefixes

structure Family where
  byteLength : ℕ
  valueOf : List Byte → IpAddress

def ip4 : Family := ⟨4, fun octets => .INET (ofBytes 32 octets)⟩

def ip6 : Family := ⟨16, fun octets => .INET6 (ofBytes 128 octets)⟩

theorem makeMaskedAddress_masked (n : ℕ) (a : IpAddress) :
    (a.makeMaskedAddress n).makeMaskedAddress n = a.makeMaskedAddress n := by
  cases a with
  | INET octets => simp only [IpAddress.makeMaskedAddress, BitVec.and_assoc, BitVec.and_self]
  | INET6 octets => simp only [IpAddress.makeMaskedAddress, BitVec.and_assoc, BitVec.and_self]

theorem bitLength_makeMaskedAddress (n : ℕ) (a : IpAddress) :
    (a.makeMaskedAddress n).bitLength = a.bitLength := by
  cases a <;> rfl

def prefixOf (a : IpAddress) (prefixLength : ℕ) : Except (Thrown UpdateError) IpPrefix :=
  if h : prefixLength ≤ a.bitLength then
    .ok ⟨a.makeMaskedAddress prefixLength, prefixLength,
      (bitLength_makeMaskedAddress prefixLength a).symm ▸ h, makeMaskedAddress_masked prefixLength a⟩
  else .error .illegalArgument

/-- One prefix. The octets that it leaves out are not zero in the buffer of the loop, but they are
masked away. -/
def parsePackedPrefix (family : Family) (malformed : UpdateError) (dataEnd : ℕ) :
    Parser IpPrefix := do
  let prefixBitlen ← readUnsignedByte
  let prefixBytelen := (prefixBitlen + 7) / 8
  if dataEnd < (← getPosition) + prefixBytelen then
    fail malformed
  else if family.byteLength < prefixBytelen then
    liftM (.error .indexOutOfBounds : Except (Thrown UpdateError) IpPrefix)
  else
    let octets ← readBytes prefixBytelen
    liftM (prefixOf
      (family.valueOf (octets ++ List.replicate (family.byteLength - prefixBytelen) 0)) prefixBitlen)

/-- All prefixes in the next bytes, as many as given. The caller answers a malformed prefix by the
error that it gives. -/
def parsePackedPrefixes (family : Family) (malformed : UpdateError) (totalLength : ℕ) :
    Parser (List IpPrefix) := do
  let dataEnd := (← getPosition) + totalLength
  readUntil (parsePackedPrefix family malformed dataEnd) dataEnd

end Prefixes

section Attributes

structure MpNlri where
  nextHop : IpAddress
  nlri : List IpPrefix
  deriving DecidableEq, Repr

inductive Attribute where
  | origin (value : ℕ)
  | asPath (path : AsPath)
  | nextHop (address : IpAddress)
  | multiExitDisc (value : ℕ)
  | localPref (value : ℕ)
  | atomicAggregate
  | aggregator
  | mpReachNlri (reach : MpNlri)
  | mpUnreachNlri (withdrawn : List IpPrefix)
  | skipped
  deriving DecidableEq, Repr

def isWellKnown (attrTypeCode : ℕ) : Bool :=
  attrTypeCode == Origin.TYPE || attrTypeCode == AsPathAttribute.TYPE || attrTypeCode == NextHop.TYPE
    || attrTypeCode == LocalPref.TYPE || attrTypeCode == AtomicAggregate.TYPE

def optionalBit (attrFlags : ℕ) : Bool := attrFlags.testBit 7
def transitiveBit (attrFlags : ℕ) : Bool := attrFlags.testBit 6
def partialBit (attrFlags : ℕ) : Bool := attrFlags.testBit 5
def extendedLengthBit (attrFlags : ℕ) : Bool := attrFlags.testBit 4

def verifyBgpUpdateAttributeFlags (attrTypeCode attrFlags : ℕ) : Parser Unit :=
  if isWellKnown attrTypeCode ∧ optionalBit attrFlags
      ∨ isWellKnown attrTypeCode ∧ ¬transitiveBit attrFlags
      ∨ isWellKnown attrTypeCode ∧ partialBit attrFlags
      ∨ optionalBit attrFlags ∧ ¬transitiveBit attrFlags ∧ partialBit attrFlags then
    fail (.attributeFlagsError attrTypeCode)
  else pure ()

def ofLength {α : Type} (attrTypeCode expected attrLen : ℕ) (value : Parser α) : Parser α :=
  if attrLen ≠ expected then fail (.attributeLengthError attrTypeCode) else value

def parseAttributeTypeOrigin (attrLen : ℕ) : Parser Attribute :=
  ofLength Origin.TYPE Origin.LENGTH attrLen do
    let origin ← readUnsignedByte
    if origin = Origin.IGP ∨ origin = Origin.EGP ∨ origin = Origin.INCOMPLETE then
      return .origin origin
    else fail .invalidOriginAttribute

def parsePathSegment (asPathLen attributeEnd : ℕ) : Parser PathSegment := do
  if attributeEnd < (← getPosition) + 2 then
    fail .malformedAsPath
  else
    let pathSegmentType ← readUnsignedByte
    let pathSegmentLength ← readUnsignedByte
    let type := BitVec.ofNat 8 pathSegmentType
    if ¬(type = AS_SET ∨ type = AS_SEQUENCE ∨ type = AS_CONFED_SEQUENCE ∨ type = AS_CONFED_SET) then
      fail .malformedAsPath
    else if attributeEnd < (← getPosition) + asPathLen * pathSegmentLength then
      fail .malformedAsPath
    else
      let numbers ← times (fun _ => readBytes asPathLen) pathSegmentLength
      return ⟨type, numbers.map valueOf⟩

def parseAttributeTypeAsPath (session : BgpSession) (attrLen : ℕ) : Parser Attribute := do
  let asPathLen := if session.isAs4OctetCapable then AsPathAttribute.AS_4OCTET_LENGTH
    else AsPathAttribute.AS_LENGTH
  let attributeEnd := (← getPosition) + attrLen
  let pathSegments ← readUntil (parsePathSegment asPathLen attributeEnd) attributeEnd
  return .asPath ⟨pathSegments⟩

def parseAttributeTypeNextHop (session : BgpSession) (attrLen : ℕ) : Parser Attribute :=
  ofLength NextHop.TYPE NextHop.LENGTH attrLen do
    let nextHopAddress := BitVec.ofNat 32 (← readUnsignedInt)
    if nextHopAddress = session.localInfo.ip4Address then fail .invalidNextHopAttribute
    else return .nextHop (.INET nextHopAddress)

def parseAttributeTypeMultiExitDisc (attrLen : ℕ) : Parser Attribute :=
  ofLength MultiExitDisc.TYPE MultiExitDisc.LENGTH attrLen do
    return .multiExitDisc (← readUnsignedInt)

def parseAttributeTypeLocalPref (attrLen : ℕ) : Parser Attribute :=
  ofLength LocalPref.TYPE LocalPref.LENGTH attrLen do
    return .localPref (← readUnsignedInt)

def parseAttributeTypeAtomicAggregate (attrLen : ℕ) : Parser Attribute :=
  ofLength AtomicAggregate.TYPE AtomicAggregate.LENGTH attrLen (pure .atomicAggregate)

def parseAttributeTypeAggregator (session : BgpSession) (attrLen : ℕ) : Parser Attribute :=
  let expectedAttrLen := if session.isAs4OctetCapable then Aggregator.AS4_LENGTH
    else Aggregator.AS2_LENGTH
  ofLength Aggregator.TYPE expectedAttrLen attrLen do
    skipBytes attrLen
    return .aggregator

def unicastFamily (afi safi : ℕ) : Option Family :=
  if safi ≠ SAFI_UNICAST then none
  else if afi = AFI_IPV4 then some ip4
  else if afi = AFI_IPV6 then some ip6
  else none

def parseAttributeTypeMpReachNlri (attrLen : ℕ) : Parser Attribute := do
  let attributeEnd := (← getPosition) + attrLen
  if attrLen < MpReachNlri.MIN_LENGTH then
    fail (.attributeLengthError MpReachNlri.TYPE)
  else
    let afi ← readUnsignedShort
    let safi ← readUnsignedByte
    let nextHopLen ← readUnsignedByte
    match unicastFamily afi safi with
    | none =>
      skipBytes (attrLen - 4)
      return .skipped
    | some family =>
      if nextHopLen ≠ family.byteLength then
        fail (.optionalAttributeError MpReachNlri.TYPE)
      else if attributeEnd ≤ (← getPosition) + nextHopLen + 1 then
        fail (.optionalAttributeError MpReachNlri.TYPE)
      else
        let nextHop ← readBytes nextHopLen
        let _reserved ← readUnsignedByte
        let nlri ← parsePackedPrefixes family (.optionalAttributeError MpReachNlri.TYPE)
          (attributeEnd - (← getPosition))
        return .mpReachNlri ⟨family.valueOf nextHop, nlri⟩

def parseAttributeTypeMpUnreachNlri (attrLen : ℕ) : Parser Attribute := do
  let attributeEnd := (← getPosition) + attrLen
  if attrLen < MpUnreachNlri.MIN_LENGTH then
    fail (.attributeLengthError MpUnreachNlri.TYPE)
  else
    let afi ← readUnsignedShort
    let safi ← readUnsignedByte
    match unicastFamily afi safi with
    | none =>
      skipBytes (attrLen - 3)
      return .skipped
    | some family =>
      let nlri ← parsePackedPrefixes family (.optionalAttributeError MpUnreachNlri.TYPE)
        (attributeEnd - (← getPosition))
      return .mpUnreachNlri nlri

def parseAttributeValue (session : BgpSession) (attrTypeCode attrFlags attrLen : ℕ) :
    Parser Attribute :=
  if attrTypeCode = Origin.TYPE then parseAttributeTypeOrigin attrLen
  else if attrTypeCode = AsPathAttribute.TYPE then parseAttributeTypeAsPath session attrLen
  else if attrTypeCode = NextHop.TYPE then parseAttributeTypeNextHop session attrLen
  else if attrTypeCode = MultiExitDisc.TYPE then parseAttributeTypeMultiExitDisc attrLen
  else if attrTypeCode = LocalPref.TYPE then parseAttributeTypeLocalPref attrLen
  else if attrTypeCode = AtomicAggregate.TYPE then parseAttributeTypeAtomicAggregate attrLen
  else if attrTypeCode = Aggregator.TYPE then parseAttributeTypeAggregator session attrLen
  else if attrTypeCode = MpReachNlri.TYPE then parseAttributeTypeMpReachNlri attrLen
  else if attrTypeCode = MpUnreachNlri.TYPE then parseAttributeTypeMpUnreachNlri attrLen
  else if ¬optionalBit attrFlags then fail (.unrecognizedWellKnownAttribute attrTypeCode)
  else do
    skipBytes attrLen
    return .skipped

def parseAttribute (session : BgpSession) (pathAttributeEnd : ℕ) : Parser Attribute := do
  let attrFlags ← readUnsignedByte
  if pathAttributeEnd ≤ (← getPosition) then
    fail .malformedAttributeList
  else
    let attrTypeCode ← readUnsignedByte
    let attrLenOctets := if extendedLengthBit attrFlags then 2 else 1
    if pathAttributeEnd < (← getPosition) + attrLenOctets then
      fail .malformedAttributeList
    else
      let attrLen := valueOf (← readBytes attrLenOctets)
      if pathAttributeEnd < (← getPosition) + attrLen then
        fail .malformedAttributeList
      else
        verifyBgpUpdateAttributeFlags attrTypeCode attrFlags
        parseAttributeValue session attrTypeCode attrFlags attrLen

structure PathAttributes where
  origin : Option ℕ := none
  asPath : Option AsPath := none
  nextHop : Option IpAddress := none
  multiExitDisc : ℕ := LOWEST_MULTI_EXIT_DISC
  localPref : Option ℕ := none
  mpNlriReachList : List MpNlri := []
  mpNlriUnreachList : List (List IpPrefix) := []
  deriving DecidableEq, Repr

def PathAttributes.put (attributes : PathAttributes) : Attribute → PathAttributes
  | .origin value => { attributes with origin := some value }
  | .asPath path => { attributes with asPath := some path }
  | .nextHop address => { attributes with nextHop := some address }
  | .multiExitDisc value => { attributes with multiExitDisc := value }
  | .localPref value => { attributes with localPref := some value }
  | .mpReachNlri reach =>
    { attributes with mpNlriReachList := attributes.mpNlriReachList ++ [reach] }
  | .mpUnreachNlri unreach =>
    { attributes with mpNlriUnreachList := attributes.mpNlriUnreachList ++ [unreach] }
  | .atomicAggregate | .aggregator | .skipped => attributes

def verifyBgpUpdateWellKnownAttributes (session : BgpSession) (attributes : PathAttributes)
    (nlri : List IpPrefix) : Parser Unit :=
  -- without the multiprotocol extensions the attributes are mandatory in every message
  let hasLegacyNlri := !session.mpExtensions || !nlri.isEmpty
  let hasNlri := hasLegacyNlri || !attributes.mpNlriReachList.isEmpty
  if hasNlri ∧ attributes.origin = none then fail (.missingWellKnownAttribute Origin.TYPE)
  else if hasNlri ∧ attributes.asPath = none then
    fail (.missingWellKnownAttribute AsPathAttribute.TYPE)
  else if hasNlri ∧ attributes.localPref = none then fail (.missingWellKnownAttribute LocalPref.TYPE)
  else if hasLegacyNlri ∧ attributes.nextHop = none then
    fail (.missingWellKnownAttribute NextHop.TYPE)
  else pure ()

end Attributes

section Messages

/-- What follows the withdrawn routes. Nothing is read behind an empty section of attributes. -/
inductive PathSection where
  | empty (unread : List Byte)
  | attributes (values : PathAttributes) (nlri : List IpPrefix)
  deriving DecidableEq, Repr

structure UpdateMessage where
  withdrawnPrefixes : List IpPrefix
  path : PathSection
  deriving DecidableEq, Repr

def parsePathAttributes (session : BgpSession) : Parser PathSection := do
  let pathAttributeLength ← readUnsignedShort
  if (← getRemaining) < pathAttributeLength then
    fail .malformedAttributeList
  else if pathAttributeLength = 0 then
    return .empty (← StateT.get).rest
  else
    let pathAttributeEnd := (← getPosition) + pathAttributeLength
    let attributes ← readUntil (parseAttribute session pathAttributeEnd) pathAttributeEnd
    let values := attributes.foldl PathAttributes.put {}
    let nlri ← parsePackedPrefixes ip4 .invalidNetworkField (← getRemaining)
    verifyBgpUpdateWellKnownAttributes session values nlri
    return .attributes values nlri

def parseUpdate (session : BgpSession) : Parser UpdateMessage := do
  if (← getRemaining) < BGP_UPDATE_MIN_LENGTH - BGP_HEADER_LENGTH then
    fail .badMessageLength
  else
    let withdrawnRoutesLength ← readUnsignedShort
    if (← getRemaining) < withdrawnRoutesLength then
      fail .malformedAttributeList
    else
      let withdrawnPrefixes ← parsePackedPrefixes ip4 .invalidNetworkField withdrawnRoutesLength
      let path ← parsePathAttributes session
      return ⟨withdrawnPrefixes, path⟩

end Messages

section Loops

variable (session : BgpSession)

theorem advances_fail {α : Type} (e : UpdateError) (n : ℕ) : Advances (fail e : Parser α) n :=
  advances_error (fun _ => ⟨_, rfl⟩) n

theorem advances_number {n : ℕ} : Advances (do return valueOf (← readBytes n) : Parser ℕ) n :=
  (advances_readBytes n).andThen fun _ => advances_pure _

theorem advances_skipBytes (n : ℕ) : Advances (skipBytes n : Parser Unit) 0 :=
  ((advances_readBytes n).mono (Nat.zero_le n)).andThen fun _ => advances_pure _

theorem advances_readUnsignedByte : Advances (readUnsignedByte : Parser ℕ) 1 := advances_number

theorem advances_readUnsignedShort : Advances (readUnsignedShort : Parser ℕ) 0 :=
  advances_number.mono (Nat.zero_le 2)

theorem advances_readUnsignedInt : Advances (readUnsignedInt : Parser ℕ) 0 :=
  advances_number.mono (Nat.zero_le 4)

theorem advances_parsePackedPrefix (family : Family) (malformed : UpdateError) (dataEnd : ℕ) :
    Advances (parsePackedPrefix family malformed dataEnd) 1 := by
  refine advances_readUnsignedByte.andThen fun prefixBitlen => ?_
  refine advances_getPosition.andThen fun position => ?_
  refine advances_ite (advances_fail _ _) (advances_ite (advances_lift _) ?_)
  exact ((advances_readBytes _).mono (Nat.zero_le _)).andThen fun _ => advances_lift _

theorem parsePackedPrefixes_ends {family : Family} {malformed : UpdateError} {totalLength : ℕ}
    {b b' : ReadBuffer} {prefixes : List IpPrefix}
    (h : parsePackedPrefixes family malformed totalLength b = .ok (prefixes, b')) :
    b.position + totalLength ≤ b'.position := by
  obtain ⟨position, mid, hposition, h⟩ := bind_apply_eq_ok h
  cases hposition
  exact readUntil_ends (advances_parsePackedPrefix _ _ _) h

theorem advances_parsePackedPrefixes (family : Family) (malformed : UpdateError)
    (totalLength : ℕ) : Advances (parsePackedPrefixes family malformed totalLength) 0 :=
  advances_getPosition.andThen fun _ =>
    advances_readUntil ((advances_parsePackedPrefix _ _ _).mono (Nat.zero_le 1)) _

theorem advances_parsePathSegment (asPathLen attributeEnd : ℕ) :
    Advances (parsePathSegment asPathLen attributeEnd) 1 := by
  refine (advances_getPosition.bind fun position => ?_).mono (Nat.le_of_eq (Nat.zero_add 1).symm)
  refine advances_ite (advances_fail _ _) ?_
  refine advances_readUnsignedByte.andThen fun pathSegmentType => ?_
  refine (advances_readUnsignedByte.mono (Nat.zero_le 1)).andThen fun pathSegmentLength => ?_
  refine advances_ite (advances_fail _ _) (advances_getPosition.andThen fun position => ?_)
  refine advances_ite (advances_fail _ _) ?_
  refine Advances.andThen (advances_times (fun _ => ?_) _) fun _ => advances_pure _
  exact (advances_readBytes _).mono (Nat.zero_le _)

theorem advances_ofLength {value : Parser Attribute} (h : Advances value 0)
    (attrTypeCode expected attrLen : ℕ) :
    Advances (ofLength attrTypeCode expected attrLen value) 0 :=
  advances_ite (advances_fail _ _) h

theorem advances_parseAttributeTypeMpReachNlri (attrLen : ℕ) :
    Advances (parseAttributeTypeMpReachNlri attrLen) 0 := by
  refine advances_getPosition.andThen fun position => ?_
  refine advances_ite (advances_fail _ _) ?_
  refine advances_readUnsignedShort.andThen fun afi => ?_
  refine (advances_readUnsignedByte.mono (Nat.zero_le 1)).andThen fun safi => ?_
  refine (advances_readUnsignedByte.mono (Nat.zero_le 1)).andThen fun nextHopLen => ?_
  cases unicastFamily afi safi with
  | none => exact (advances_skipBytes _).andThen fun _ => advances_pure _
  | some family =>
    refine advances_ite (advances_fail _ _) (advances_getPosition.andThen fun position => ?_)
    refine advances_ite (advances_fail _ _) ?_
    refine ((advances_readBytes _).mono (Nat.zero_le _)).andThen fun nextHop => ?_
    refine (advances_readUnsignedByte.mono (Nat.zero_le 1)).andThen fun reserved => ?_
    refine advances_getPosition.andThen fun position => ?_
    exact (advances_parsePackedPrefixes _ _ _).andThen fun nlri => advances_pure _

theorem advances_parseAttributeTypeMpUnreachNlri (attrLen : ℕ) :
    Advances (parseAttributeTypeMpUnreachNlri attrLen) 0 := by
  refine advances_getPosition.andThen fun position => ?_
  refine advances_ite (advances_fail _ _) ?_
  refine advances_readUnsignedShort.andThen fun afi => ?_
  refine (advances_readUnsignedByte.mono (Nat.zero_le 1)).andThen fun safi => ?_
  cases unicastFamily afi safi with
  | none => exact (advances_skipBytes _).andThen fun _ => advances_pure _
  | some family =>
    refine advances_getPosition.andThen fun position => ?_
    exact (advances_parsePackedPrefixes _ _ _).andThen fun nlri => advances_pure _

theorem advances_parseAttributeValue (attrTypeCode attrFlags attrLen : ℕ) :
    Advances (parseAttributeValue session attrTypeCode attrFlags attrLen) 0 := by
  refine advances_ite (advances_ofLength ?_ _ _ _) <| advances_ite ?_ <|
    advances_ite (advances_ofLength ?_ _ _ _) <| advances_ite (advances_ofLength ?_ _ _ _) <|
    advances_ite (advances_ofLength ?_ _ _ _) <| advances_ite (advances_ofLength ?_ _ _ _) <|
    advances_ite (advances_ofLength ?_ _ _ _) <|
    advances_ite (advances_parseAttributeTypeMpReachNlri attrLen) <|
    advances_ite (advances_parseAttributeTypeMpUnreachNlri attrLen) <|
    advances_ite (advances_fail _ _) ?_
  · refine (advances_readUnsignedByte.mono (Nat.zero_le 1)).andThen fun origin => ?_
    exact advances_ite (advances_pure _) (advances_fail _ _)
  · refine advances_getPosition.andThen fun position => ?_
    refine Advances.andThen (advances_readUntil ?_ _) fun _ => advances_pure _
    exact (advances_parsePathSegment _ _).mono (Nat.zero_le 1)
  · refine advances_readUnsignedInt.andThen fun address => ?_
    exact advances_ite (advances_fail _ _) (advances_pure _)
  · exact advances_readUnsignedInt.andThen fun _ => advances_pure _
  · exact advances_readUnsignedInt.andThen fun _ => advances_pure _
  · exact advances_pure _
  · exact (advances_skipBytes _).andThen fun _ => advances_pure _
  · exact (advances_skipBytes _).andThen fun _ => advances_pure _

theorem advances_parseAttribute (pathAttributeEnd : ℕ) :
    Advances (parseAttribute session pathAttributeEnd) 1 := by
  refine advances_readUnsignedByte.andThen fun attrFlags => ?_
  refine advances_getPosition.andThen fun position => ?_
  refine advances_ite (advances_fail _ _) ?_
  refine (advances_readUnsignedByte.mono (Nat.zero_le 1)).andThen fun attrTypeCode => ?_
  refine advances_getPosition.andThen fun position => ?_
  refine advances_ite (advances_fail _ _) ?_
  refine ((advances_readBytes _).mono (Nat.zero_le _)).andThen fun octets => ?_
  refine advances_getPosition.andThen fun position => ?_
  refine advances_ite (advances_fail _ _) ?_
  refine Advances.andThen (advances_ite (advances_fail _ _) (advances_pure _)) fun _ => ?_
  exact advances_parseAttributeValue session _ _ _

end Loops

end BgpUpdates

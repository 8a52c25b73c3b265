import Onos.Lib.KeyedMap
import Onos.Packets

/-! MKA protocol data units: their parameter sets, which are written one after the other in a fixed
order, and the loop that reads them. -/
namespace KeyAgreement

open BufferReaders ByteBuffer KeyedMap Packets WireBytes

def PARAMETERSET_TYPE_BASIC : Byte := 0

def PARAMETERSET_TYPE_LIVE_PEER_LIST : Byte := 1

def PARAMETERSET_TYPE_POTENTIAL_PEER_LIST : Byte := 2

def PARAMETERSET_TYPE_MACSEC_SAK_USE : Byte := 3

def PARAMETERSET_TYPE_DISTRIBUTED_SAK : Byte := 4

def PARAMETERSET_TYPE_ICV_INDICATOR : Byte := 255

structure SCI where
  address : List Byte
  port : BitVec 16
  deriving DecidableEq, Repr

structure BasicParameterSet where
  mkaVersion : Byte
  keyServerPriority : Byte
  keyServer : Bool
  macSecDesired : Bool
  capability : Byte
  bodyLength : BitVec 16
  sci : SCI
  mi : List Byte
  mn : BitVec 32
  algAgility : List Byte
  ckn : List Byte
  deriving DecidableEq, Repr

structure MemberDetails where
  memberID : List Byte
  messageNo : BitVec 32
  deriving DecidableEq, Repr

structure PeerListParameterSet where
  peerListType : Byte
  bodyLength : BitVec 16
  members : List MemberDetails
  deriving DecidableEq, Repr

structure MACSecUseParameterSet where
  delayProtect : Bool
  plainTX : Bool
  plainRX : Bool
  latestKI : List Byte
  latestKN : BitVec 32
  latestAN : Byte
  latestLAPN : BitVec 32
  latestTX : Bool
  latestRX : Bool
  oldKI : List Byte
  oldKN : BitVec 32
  oldAN : Byte
  oldLAPN : BitVec 32
  oldTX : Bool
  oldRX : Bool
  bodyLength : BitVec 16
  deriving DecidableEq, Repr

structure DistributedSAKParameterSet where
  distributedAN : Byte
  confidentialityOffset : Byte
  keyNumber : BitVec 32
  sak : List Byte
  bodyLength : BitVec 16
  deriving DecidableEq, Repr

structure ICVIndicatorParameterSet where
  icv : List Byte
  bodyLength : BitVec 16
  deriving DecidableEq, Repr

inductive ParameterSet where
  | basic (ps : BasicParameterSet)
  | peerList (ps : PeerListParameterSet)
  | macSecUse (ps : MACSecUseParameterSet)
  | distributedSAK (ps : DistributedSAKParameterSet)
  | icvIndicator (ps : ICVIndicatorParameterSet)
  deriving DecidableEq, Repr

section Lengths

def BasicParameterSet.getTotalLength (ps : BasicParameterSet) : BitVec 16 :=
  ((BitVec.ofNat 32 (32 + ps.ckn.length) + 3) &&& ~~~3).setWidth 16

def PeerListParameterSet.getTotalLength (ps : PeerListParameterSet) : BitVec 16 :=
  BitVec.ofNat 16 (4 + ps.members.length * (12 + 4))

def ParameterSet.getTotalLength : ParameterSet → BitVec 16
  | basic ps => ps.getTotalLength
  | peerList ps => ps.getTotalLength
  | macSecUse _ => 44
  | distributedSAK _ => 32
  | icvIndicator _ => 20

/-- The upper four bits of a length, which share their byte with flags, and the lower eight. -/
def lengthMsb (length : BitVec 16) : Byte := (length.sshiftRight 8 &&& 0xf).setWidth 8

def lengthLsb (length : BitVec 16) : Byte := length.setWidth 8

def bodyLengthOf (shift : ℕ) (msb lsb : Byte) : BitVec 16 :=
  (msb &&& 0xf).setWidth 16 <<< shift ||| lsb.signExtend 16

end Lengths

section Writing

def flag (b : Bool) (mask : Byte) : Byte := if b then mask else 0

def SCI.array (sci : SCI) : List Byte := sci.address ++ short sci.port

def BasicParameterSet.serialize (ps : BasicParameterSet) : Result (List Byte) :=
  let length := ps.getTotalLength - 4
  let octet3 := flag ps.keyServer 1 <<< 7 ||| flag ps.macSecDesired 1 <<< 6 |||
    ps.capability <<< 4 ||| lengthMsb length
  fillNew ps.getTotalLength.toInt [[ps.mkaVersion], [ps.keyServerPriority], [octet3],
    [lengthLsb length], ps.sci.array, ps.mi, int ps.mn, ps.algAgility, ps.ckn]

def MemberDetails.array (m : MemberDetails) : List Byte := m.memberID ++ int m.messageNo

def PeerListParameterSet.serialize (ps : PeerListParameterSet) : Result (Option (List Byte)) := do
  if ps.members = [] then return none
  else
    let length := ps.getTotalLength - 4
    return some (← fillNew ps.getTotalLength.toInt ([ps.peerListType] :: [0] :: [lengthMsb length] ::
      [lengthLsb length] :: ps.members.map MemberDetails.array))

def MACSecUseParameterSet.serialize (ps : MACSecUseParameterSet) : Result (List Byte) :=
  let octet2 := flag ps.latestRX 0x10 ||| flag ps.latestTX 0x20 ||| flag ps.oldRX 0x1 |||
    flag ps.oldTX 0x2 ||| ps.latestAN <<< 6 ||| ps.oldAN <<< 2
  let octet3 := flag ps.plainTX 0x80 ||| flag ps.plainRX 0x40 ||| flag ps.delayProtect 0x10 |||
    lengthMsb 40
  fillNew 44 [[PARAMETERSET_TYPE_MACSEC_SAK_USE], [octet2], [octet3], [lengthLsb 40], ps.latestKI,
    int ps.latestKN, int ps.latestLAPN, ps.oldKI, int ps.oldKN, int ps.oldLAPN]

def DistributedSAKParameterSet.serialize (wrapper : List Byte → List Byte)
    (ps : DistributedSAKParameterSet) : Result (List Byte) :=
  let octet := (0x3 &&& ps.distributedAN) <<< 6 ||| (0x3 &&& ps.confidentialityOffset) <<< 4
  fillNew 32 [[PARAMETERSET_TYPE_DISTRIBUTED_SAK], [octet], [octet ||| lengthMsb 28], [lengthLsb 28],
    int ps.keyNumber, wrapper ps.sak]

def ICVIndicatorParameterSet.serialize : Result (List Byte) :=
  fillNew 20 [[PARAMETERSET_TYPE_ICV_INDICATOR], [0], [lengthMsb 16], [lengthLsb 16]]

def ParameterSet.serialize (wrapper : List Byte → List Byte) :
    ParameterSet → Result (Option (List Byte))
  | basic ps => ps.serialize.map some
  | peerList ps => ps.serialize
  | macSecUse ps => ps.serialize.map some
  | distributedSAK ps => (ps.serialize wrapper).map some
  | icvIndicator _ => ICVIndicatorParameterSet.serialize.map some

end Writing

section Reading

def getNew (length : ℤ) : Reader DeserializationException (List Byte) :=
  if length < 0 then throw .negativeArraySize else get length.toNat

def BasicParameterSet.read : Reader DeserializationException BasicParameterSet := do
  let mkaVersion ← getByte
  let keyServerPriority ← getByte
  let mbField ← getByte
  let bodyLength := bodyLengthOf 8 mbField (← getByte)
  let address ← get 6
  let port ← getShort
  let mi ← get 12
  let mn ← getInt
  let algAgility ← get 4
  let ckn ← getNew (bodyLength.toInt + 4 - 32)
  return { mkaVersion, keyServerPriority
           keyServer := 0 < (mbField &&& 0x80).toInt
           macSecDesired := 0 < (mbField &&& 0x70).toInt
           capability := (mbField &&& 0x30).sshiftRight 4
           bodyLength, sci := ⟨address, port⟩, mi, mn, algAgility, ckn }

def BasicParameterSet.deserializer (data : List Byte) (offset length : ℤ) :
    Result (Option BasicParameterSet) := do
  if length < 32 then return none
  else
    let bb ← wrap data offset length
    return some (← BasicParameterSet.read.run' bb)

def readMembers (bodyLength : ℤ) : Reader DeserializationException (List MemberDetails) :=
  if 0 < bodyLength then do
    let memberID ← get 12
    let messageNo ← getInt
    let members ← readMembers (bodyLength - (12 + 4))
    return ⟨memberID, messageNo⟩ :: members
  else return []
termination_by bodyLength.toNat

def PeerListParameterSet.read : Reader DeserializationException PeerListParameterSet := do
  let _ ← getByte
  let mbField ← getByte
  let bodyLength := bodyLengthOf 4 mbField (← getByte)
  let members ← readMembers bodyLength.toInt
  return ⟨PARAMETERSET_TYPE_LIVE_PEER_LIST, bodyLength, members⟩

def MACSecUseParameterSet.read : Reader DeserializationException MACSecUseParameterSet := do
  let octet2 ← getByte
  let octet3 ← getByte
  let bodyLength := bodyLengthOf 8 octet3 (← getByte)
  let latestKI ← get 12
  let latestKN ← getInt
  let latestLAPN ← getInt
  let oldKI ← get 12
  let oldKN ← getInt
  let oldLAPN ← getInt
  return { delayProtect := octet3 &&& 0x10 ≠ 0
           plainTX := octet3 &&& 0x80 ≠ 0
           plainRX := octet3 &&& 0x40 ≠ 0
           latestKI, latestKN
           latestAN := octet2.sshiftRight 6 &&& 0x2
           latestLAPN
           latestTX := octet2 &&& 0x2 ≠ 0
           latestRX := octet2 &&& 0x1 ≠ 0
           oldKI, oldKN
           oldAN := octet2.sshiftRight 2 &&& 0x2
           oldLAPN
           oldTX := octet2 &&& 0x2 ≠ 0
           oldRX := octet2 &&& 0x1 ≠ 0
           bodyLength }

def DistributedSAKParameterSet.read : Reader DeserializationException DistributedSAKParameterSet := do
  let octet2 ← getByte
  let octet3 ← getByte
  let bodyLength := bodyLengthOf 8 octet3 (← getByte)
  let keyNumber ← getInt
  let sak ← get 24
  return { distributedAN := octet2.sshiftRight 6 &&& 0x3
           confidentialityOffset := octet2.sshiftRight 4 &&& 0x3
           keyNumber, sak, bodyLength }

def ICVIndicatorParameterSet.read : Reader DeserializationException ICVIndicatorParameterSet := do
  let _ ← getByte
  let mbField ← getByte
  let bodyLength := bodyLengthOf 8 mbField (← getByte)
  let icv ← getNew bodyLength.toInt
  return ⟨icv, bodyLength⟩

def deserializerOf {α : Type} (x : Reader DeserializationException α) (f : α → ParameterSet)
    (data : List Byte) (offset length : ℤ) : Result (Option ParameterSet) := do
  let bb ← wrap data offset length
  return some (f (← x.run' bb))

def PARAMETERSET_DESERIALIZER_MAP (parameterSetType : Byte) :
    Option (List Byte → ℤ → ℤ → Result (Option ParameterSet)) :=
  if parameterSetType = PARAMETERSET_TYPE_BASIC then
    some fun data offset length =>
      (BasicParameterSet.deserializer data offset length).map (Option.map .basic)
  else if parameterSetType = PARAMETERSET_TYPE_LIVE_PEER_LIST ∨
      parameterSetType = PARAMETERSET_TYPE_POTENTIAL_PEER_LIST then
    some (deserializerOf PeerListParameterSet.read .peerList)
  else if parameterSetType = PARAMETERSET_TYPE_MACSEC_SAK_USE then
    some (deserializerOf MACSecUseParameterSet.read .macSecUse)
  else if parameterSetType = PARAMETERSET_TYPE_DISTRIBUTED_SAK then
    some (deserializerOf DistributedSAKParameterSet.read .distributedSAK)
  else if parameterSetType = PARAMETERSET_TYPE_ICV_INDICATOR then
    some (deserializerOf ICVIndicatorParameterSet.read .icvIndicator)
  else none

end Reading

structure EAPOLMkpdu where
  parameterSets : Table Byte ParameterSet

namespace EAPOLMkpdu

def parametersetSerializerKeyList : List Byte :=
  [PARAMETERSET_TYPE_BASIC, PARAMETERSET_TYPE_LIVE_PEER_LIST, PARAMETERSET_TYPE_POTENTIAL_PEER_LIST,
    PARAMETERSET_TYPE_MACSEC_SAK_USE, PARAMETERSET_TYPE_DISTRIBUTED_SAK,
    PARAMETERSET_TYPE_ICV_INDICATOR]

def packetLength (mkpdu : EAPOLMkpdu) : BitVec 16 :=
  (mkpdu.parameterSets.entries.map fun e => e.2.getTotalLength).foldr (· + ·) 0

def serialize (wrapper : List Byte → List Byte) (mkpdu : EAPOLMkpdu) : Result (List Byte) := do
  let chunks ← (parametersetSerializerKeyList.filterMap mkpdu.parameterSets.lookup).mapM
    (ParameterSet.serialize wrapper)
  fillNew mkpdu.packetLength.toInt (chunks.filterMap id)

/-- Nothing is added, and false returned, when there is no set or its type is not known. -/
def addParameterSet (mkpdu : EAPOLMkpdu) (type : Byte) : Option ParameterSet → Option EAPOLMkpdu
  | none => none
  | some ps =>
    if 0 ≤ type.toInt ∧ type.toInt ≤ 4 ∨ type = PARAMETERSET_TYPE_ICV_INDICATOR then
      some ⟨store mkpdu.parameterSets type ps⟩
    else none

structure Extracted where
  type : Byte
  ps : ParameterSet
  consumed : ℤ
  deriving DecidableEq, Repr

def addOrThrow (mkpdu : EAPOLMkpdu) (type : Byte) (ps : Option ParameterSet) : Result EAPOLMkpdu :=
  match mkpdu.addParameterSet type ps with
  | some mkpdu => .ok mkpdu
  | none => throwDeserialization "Error in deserializing packets"

def readBasic (mkpdu : EAPOLMkpdu) : Reader DeserializationException (EAPOLMkpdu × Extracted) := do
  let bb ← StateT.get
  let psDeserializer ← nonNull (PARAMETERSET_DESERIALIZER_MAP PARAMETERSET_TYPE_BASIC)
  let ps ← psDeserializer bb.array bb.position bb.remaining
  let mkpdu ← mkpdu.addOrThrow PARAMETERSET_TYPE_BASIC ps
  let ps ← nonNull ps
  setPosition (bb.position + ps.getTotalLength.toInt)
  let position ← getPosition
  return (mkpdu, ⟨PARAMETERSET_TYPE_BASIC, ps, position - bb.position⟩)

def setPeerListType (parameterSetType : Byte) : ParameterSet → ParameterSet
  | .peerList ps => .peerList { ps with peerListType := parameterSetType }
  | ps => ps

/-- The other sets start with their types. What is left is taken for a short. -/
def readNext (mkpdu : EAPOLMkpdu) : Reader DeserializationException (EAPOLMkpdu × Extracted) := do
  let start ← getPosition
  let parameterSetType ← getByte
  let bb ← StateT.get
  let psDeserializer ← nonNull (PARAMETERSET_DESERIALIZER_MAP parameterSetType)
  let ps ← psDeserializer bb.array bb.position bb.remaining
  let ps := ps.map (setPeerListType parameterSetType)
  let mkpdu ← mkpdu.addOrThrow parameterSetType ps
  let ps ← nonNull ps
  let consumed := ps.getTotalLength.toInt
  let remaining := (BitVec.ofNat 16 bb.remaining).toInt
  setPosition (bb.position + if consumed < remaining then consumed - 1 else remaining)
  let position ← getPosition
  return (mkpdu, ⟨parameterSetType, ps, position - start⟩)

/-- At most so many more sets; the position may go back, so that a bound is not known before. -/
def readRest : ℕ → EAPOLMkpdu → ReadBuffer → Option (Result (EAPOLMkpdu × List Extracted))
  | 0, _, _ => none
  | fuel + 1, mkpdu, bb =>
    if bb.hasRemaining then
      match mkpdu.readNext bb with
      | .error e => some (.error e)
      | .ok ((mkpdu, extracted), bb) =>
        (readRest fuel mkpdu bb).map (Except.map fun r => (r.1, extracted :: r.2))
    else some (.ok (mkpdu, []))

def deserializer (fuel : ℕ) (data : List Byte) (offset length : ℤ) :
    Option (Result (EAPOLMkpdu × List Extracted)) :=
  match (wrap data offset length).bind (EAPOLMkpdu.readBasic ⟨∅⟩) with
  | .error e => some (.error e)
  | .ok ((mkpdu, extracted), bb) =>
    (readRest fuel mkpdu bb).map (Except.map fun r => (r.1, extracted :: r.2))

end EAPOLMkpdu

end KeyAgreement

import Onos.IpAddresses
import Onos.IpPackets

/-! IGMP messages as they are written and read: queries and membership reports of version 3, and the
messages of version 2, which have one group. -/
namespace GroupMessages

open BufferReaders ByteBuffer IpAddresses IpPackets Packets WireBytes

def TYPE_IGMPV3_MEMBERSHIP_QUERY : Byte := 0x11

def TYPE_IGMPV1_MEMBERSHIP_REPORT : Byte := 0x12

def TYPE_IGMPV2_MEMBERSHIP_REPORT : Byte := 0x16

def TYPE_IGMPV2_LEAVE_GROUP : Byte := 0x17

def TYPE_IGMPV3_MEMBERSHIP_REPORT : Byte := 0x22

/-- The length of a version 2 message, and the least length of a version 3 one. -/
def HEADER_LENGTH : ℤ := 8

def MINIMUM_HEADER_LEN : ℤ := 12

def scratchLength : ℕ := 8915

structure IGMPQuery where
  gaddr : IpAddress
  sources : List IpAddress
  sbit : Bool
  qrv : Byte
  qqic : Byte
  deriving DecidableEq, Repr

structure IGMPMembership where
  gaddr : BitVec 32
  sources : List IpAddress
  recordType : Byte
  auxDataLength : Byte
  auxData : Option (List Byte)
  deriving DecidableEq, Repr

inductive IGMPGroup where
  | query (q : IGMPQuery)
  | membership (m : IGMPMembership)
  deriving DecidableEq, Repr

inductive IGMPVersion where
  | IGMPv2
  | IGMPv3
  deriving DecidableEq, Repr

structure IGMP where
  version : IGMPVersion
  igmpType : Byte
  resField : Byte
  checksum : BitVec 16
  groups : List IGMPGroup
  unsupportTypeData : Option (List Byte)
  deriving DecidableEq, Repr

def IGMPQuery.new (gaddr : IpAddress) : IGMPQuery := ⟨gaddr, [], false, 2, 0x7d⟩

section Writing

def octetsOf (sources : List IpAddress) : List Byte := (sources.map IpAddress.toOctets).flatten

def countOf {α : Type} (xs : List α) : List Byte := short (BitVec.ofNat 16 xs.length)

def IGMPQuery.serialize (q : IGMPQuery) : List (List Byte) :=
  [q.gaddr.toOctets, [0x7 &&& q.qrv], [q.qqic], countOf q.sources, octetsOf q.sources]

def IGMPMembership.serialize (m : IGMPMembership) : Result (List (List Byte)) := do
  let chunks := [[m.recordType], [m.auxDataLength], countOf m.sources, int m.gaddr, octetsOf m.sources]
  if 0 < m.auxDataLength.toInt then
    let auxData ← nonNull m.auxData
    return chunks ++ [auxData]
  else return chunks

def IGMPGroup.serialize : IGMPGroup → Result (List (List Byte))
  | query q => .ok q.serialize
  | membership m => m.serialize

def IGMPGroup.getGaddr : IGMPGroup → IpAddress
  | query q => q.gaddr
  | membership m => .INET m.gaddr

def serializeGroups (groups : List IGMPGroup) : Result (List (List Byte)) := do
  let chunks ← groups.mapM IGMPGroup.serialize
  return chunks.flatten

def IGMP.contents (p : IGMP) : Result (List (List Byte)) :=
  match p.version with
  | .IGMPv3 =>
    if p.igmpType = TYPE_IGMPV3_MEMBERSHIP_REPORT then do
      let chunks ← serializeGroups p.groups
      return short 0 :: countOf p.groups :: chunks
    else if p.igmpType = TYPE_IGMPV3_MEMBERSHIP_QUERY then serializeGroups p.groups
    else do
      let unsupportTypeData ← nonNull p.unsupportTypeData
      return [unsupportTypeData]
  | .IGMPv2 =>
    match p.groups with
    | [] => return [int 0]
    | grp :: _ => do
      let gaddr ← nonNull grp.getGaddr.getIp4Address
      return [int gaddr]

def IGMP.setChecksum (p : IGMP) (checksum : BitVec 16) : IGMP := { p with checksum := checksum }

/-- The message, with its checksum set, and its bytes. Twice as many shorts are added up as there are
bytes; beyond the message the array is zero. -/
def IGMP.serialize (p : IGMP) : Result (IGMP × List Byte) := do
  let contents ← p.contents
  let chunks := [p.igmpType] :: [p.resField] :: short 0 :: contents
  let data ← fillNew scratchLength chunks
  let size := chunks.flatten.length
  if p.checksum = 0 then
    let shorts ← (times (fun _ => getShort) (size * 2)).run' ⟨[], data, []⟩
    let checksum := checksumOf shorts
    let data ← putAt data 2 (short checksum)
    return (p.setChecksum checksum, data.take size)
  else return (p, data.take size)

end Writing

section Reading

def getIp4Address : Reader DeserializationException IpAddress := do
  return .INET (← getInt)

def IGMPQuery.deserialize : Reader DeserializationException IGMPQuery := do
  let gaddr ← getIp4Address
  let fld ← getByte
  let qqic ← getByte
  let nsrcs ← getShort
  let remaining ← getRemaining
  checkHeaderLength remaining (4 * nsrcs.toInt)
  let sources ← times (fun _ => getIp4Address) nsrcs.toInt.toNat
  return { gaddr, sources, sbit := fld &&& 0x8 = 0x8, qrv := fld &&& 0x7, qqic }

def getSource (nsrcs : ℕ) : Reader DeserializationException IpAddress := do
  let remaining ← getRemaining
  checkBufferLength remaining 0 (4 * nsrcs)
  getIp4Address

def IGMPMembership.deserialize : Reader DeserializationException IGMPMembership := do
  let remaining ← getRemaining
  checkBufferLength remaining 0 8
  let recordType ← getByte
  let auxDataLength ← getByte
  let nsrcs ← getShort
  let gaddr ← getInt
  let sources ← times getSource nsrcs.toInt.toNat
  if 0 < auxDataLength.toInt then
    let auxData ← get auxDataLength.toNat
    return { gaddr, sources, recordType, auxDataLength, auxData := some auxData }
  else return { gaddr, sources, recordType, auxDataLength, auxData := none }

/-- The check of a version 2 message, whose group is an IPv4 one when it is called. -/
def IGMP.validChecksum (p : IGMP) : Bool :=
  let gaddr := p.groups.head?.bind fun grp => grp.getGaddr.getIp4Address
  let shorts := (p.igmpType ++ p.resField) :: (gaddr.map fun ipaddr =>
    [(ipaddr.sshiftRight 16 &&& 0xffff).setWidth 16, (ipaddr &&& 0xffff).setWidth 16]).getD []
  checksumOf shorts = p.checksum

/-- The groups of a version 3 message, or the data of one that is not supported. -/
def readGroups (igmpType : Byte) (data : List Byte) :
    Reader DeserializationException (List IGMPGroup × Option (List Byte)) := do
  if igmpType = TYPE_IGMPV3_MEMBERSHIP_QUERY then
    let qgroup ← IGMPQuery.deserialize
    return ([.query qgroup], none)
  else if igmpType = TYPE_IGMPV3_MEMBERSHIP_REPORT then
    let _ ← getShort
    let ngrps ← getShort
    let groups ← times (fun _ => IGMPMembership.deserialize) ngrps.toInt.toNat
    return (groups.map .membership, none)
  else return ([], some data)

/-- What comes after the header. A message of version 2 is told by its type or its length. -/
def readBody (igmpType resField : Byte) (checksum : BitVec 16) (data : List Byte)
    (offset length : ℤ) : Reader DeserializationException IGMP := do
  if igmpType = TYPE_IGMPV2_MEMBERSHIP_REPORT ∨ igmpType = TYPE_IGMPV2_LEAVE_GROUP ∨
      length = HEADER_LENGTH then
    let gaddr ← getIp4Address
    let igmp : IGMP := ⟨.IGMPv2, igmpType, resField, checksum, [.query (.new gaddr)], none⟩
    require (igmp.validChecksum = true) "invalid checksum"
    return igmp
  else
    checkInput data offset length MINIMUM_HEADER_LEN
    let (groups, unsupportTypeData) ← readGroups igmpType data
    return ⟨.IGMPv3, igmpType, resField, checksum, groups, unsupportTypeData⟩

def IGMP.read (data : List Byte) (offset length : ℤ) : Reader DeserializationException IGMP := do
  let igmpType ← getByte
  let resField ← getByte
  let checksum ← getShort
  readBody igmpType resField checksum data offset length

def IGMP.deserializer (data : List Byte) (offset length : ℤ) : Result IGMP := do
  checkInput data offset length HEADER_LENGTH
  let bb ← wrap data offset length
  (IGMP.read data offset length).run' bb

end Reading

/-- The fields and the groups are the same; data of an unsupported type are not compared. For
queries this is finer than their equals, which does not look at the group address. -/
def IGMP.Same (p q : IGMP) : Prop := { p with unsupportTypeData := q.unsupportTypeData } = q

instance (p q : IGMP) : Decidable (p.Same q) := inferInstanceAs (Decidable (_ = _))

end GroupMessages

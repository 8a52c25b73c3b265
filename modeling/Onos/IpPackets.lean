import Onos.Packets

/-! IPv4, IPv6, UDP and TCP packets as they are written and read. -/
namespace IpPackets

open ByteBuffer Packets WireBytes

section Checksums

def words : List Byte → List (BitVec 16)
  | a :: b :: bs => (a ++ b) :: words bs
  | [a] => [a ++ 0#8]
  | [] => []

def accumulate (shorts : List (BitVec 16)) : BitVec 32 :=
  shorts.foldl (fun accumulation s => accumulation + s.setWidth 32) 0

def checksumOf (shorts : List (BitVec 16)) : BitVec 16 :=
  let accumulation := accumulate shorts
  let accumulation := (accumulation.sshiftRight 16 &&& 0xffff) + (accumulation &&& 0xffff)
  (~~~accumulation &&& 0xffff).setWidth 16

/-- The shorts of the pseudo header; there is none outside of IPv4 and IPv6 packets. -/
def pseudoHeaderShorts (parent : Option Parent) (length : BitVec 32) : List (BitVec 16) :=
  match parent with
  | some (.IPv4 sourceAddress destinationAddress protocol) =>
    [ (sourceAddress.sshiftRight 16 &&& 0xffff).setWidth 16,
      (sourceAddress &&& 0xffff).setWidth 16,
      (destinationAddress.sshiftRight 16 &&& 0xffff).setWidth 16,
      (destinationAddress &&& 0xffff).setWidth 16,
      protocol.setWidth 16,
      (length &&& 0xffff).setWidth 16 ]
  | some (.IPv6 sourceAddress destinationAddress nextHeader) =>
    words (address sourceAddress ++ address destinationAddress ++ [0, nextHeader] ++ int length)
  | some .other | none => []

end Checksums

section IPv4

structure IPv4 (P : Type) where
  version : Byte
  headerLength : Byte
  diffServ : Byte
  totalLength : BitVec 16
  identification : BitVec 16
  flags : Byte
  fragmentOffset : BitVec 16
  ttl : Byte
  protocol : Byte
  checksum : BitVec 16
  sourceAddress : BitVec 32
  destinationAddress : BitVec 32
  options : Option (List Byte)
  isTruncated : Bool
  payload : Option P
  deriving DecidableEq, Repr

namespace IPv4

variable {P R : Type}

def setChecksum (p : IPv4 P) (checksum : BitVec 16) : IPv4 P := { p with checksum := checksum }

def asParent (p : IPv4 P) : Parent := .IPv4 p.sourceAddress p.destinationAddress p.protocol

def prepared [IPacket P] (p : IPv4 P) (payload : Option P) (payloadLength : ℕ) : IPv4 P :=
  let optionsLength := (p.options.map fun options => options.length / 4).getD 0
  let headerLength := BitVec.ofNat 8 (5 + optionsLength)
  { p with
    headerLength := headerLength
    totalLength := BitVec.ofInt 16 (headerLength.toInt * 4 + payloadLength)
    protocol := (p.payload.bind IPacket.protocol).getD p.protocol
    payload := payload }

theorem length_prepared [IPacket P] {p : IPv4 P} (payload : Option P) (payloadLength : ℕ)
    (hfour : 4 ∣ (p.options.getD []).length) (hforty : (p.options.getD []).length ≤ 40) :
    (p.prepared payload payloadLength).headerLength.toInt * 4 = 20 + (p.options.getD []).length := by
  have hdiv : (p.options.map fun options => options.length / 4).getD 0 =
      (p.options.getD []).length / 4 := by
    cases p.options <;> rfl
  rw [prepared, hdiv, toInt_ofNat_of_lt (by omega)]
  omega

/-- What is put into the buffer before the payload, one put after the other. -/
def header (p : IPv4 P) : List (List Byte) :=
  [ [(p.version &&& 0xf) <<< 4 ||| p.headerLength &&& 0xf],
    [p.diffServ],
    short p.totalLength,
    short p.identification,
    short ((p.flags &&& 0x7).setWidth 16 <<< 13 ||| p.fragmentOffset &&& 0x1fff),
    [p.ttl],
    [p.protocol],
    short p.checksum,
    int p.sourceAddress,
    int p.destinationAddress ] ++ p.options.toList

/-- The prepared packet is written, and its checksum computed if it is zero. -/
def write (p : IPv4 P) (payloadData : Option (List Byte)) : Result (IPv4 P × List Byte) := do
  let data ← fillNew p.totalLength.toInt (p.header ++ payloadData.toList)
  if p.checksum = 0 then
    let (bytes, _) ← get (p.headerLength.toInt * 4).toNat ⟨[], data, []⟩
    let checksum := checksumOf (words bytes)
    return (p.setChecksum checksum, ← putAt data 10 (short checksum))
  else return (p, data)

def serialize [IPacket P] (p : IPv4 P) : Result (IPv4 P × List Byte) := do
  let (payload, payloadData) ← serializePayload p.asParent p.payload
  (p.prepared payload (payloadData.getD []).length).write payloadData

def PROTOCOL_DESERIALIZER_MAP : List Byte := [0x1, 0x2, 0x6, 0x11, 0x67]

def equals (p q : IPv4 P) : Prop := { p with isTruncated := q.isTruncated } = q

def readOptions (headerLength : Byte) (length : ℤ) :
    Reader DeserializationException (Option (List Byte)) := do
  if 5 < headerLength.toInt then
    checkHeaderLength length (headerLength.toInt * 4)
    let options ← get ((headerLength.toInt - 5) * 4).toNat
    return some options
  else return none

def read (registered : Byte → List Byte → ℤ → ℤ → Result R) (data : List Byte) (length : ℤ) :
    Reader DeserializationException (IPv4 (Payload R)) := do
  let versionByte ← getByte
  let headerLength := versionByte &&& 0xf
  let diffServ ← getByte
  let totalLength ← getShort
  let identification ← getShort
  let flagsFragment ← getShort
  let ttl ← getByte
  let protocol ← getByte
  let checksum ← getShort
  let sourceAddress ← getInt
  let destinationAddress ← getInt
  let options ← readOptions headerLength length
  let bb ← StateT.get
  let payloadLength := totalLength.toInt - headerLength.toInt * 4
  let bytesToRead := if payloadLength ≤ bb.remaining then payloadLength else bb.remaining
  let payload ← payloadOf (protocol ∈ PROTOCOL_DESERIALIZER_MAP) (registered protocol) data
    bb.position bytesToRead
  return {
    version := versionByte.sshiftRight 4 &&& 0xf
    headerLength, diffServ, totalLength, identification
    flags := (flagsFragment.sshiftRight 13 &&& 0x7).setWidth 8
    fragmentOffset := flagsFragment &&& 0x1fff
    ttl, protocol, checksum, sourceAddress, destinationAddress, options
    isTruncated := totalLength.toInt ≠ length
    payload := some payload }

def deserializer (registered : Byte → List Byte → ℤ → ℤ → Result R) (data : List Byte)
    (offset length : ℤ) : Result (IPv4 (Payload R)) := do
  checkInput data offset length 20
  let bb ← wrap data offset length
  (read registered data length).run' bb

end IPv4

end IPv4

section IPv6

structure IPv6 (P : Type) where
  version : Byte
  trafficClass : Byte
  flowLabel : BitVec 32
  payloadLength : BitVec 16
  nextHeader : Byte
  hopLimit : Byte
  sourceAddress : BitVec 128
  destinationAddress : BitVec 128
  payload : Option P
  deriving DecidableEq, Repr

namespace IPv6

variable {P R : Type}

def asParent (p : IPv6 P) : Parent := .IPv6 p.sourceAddress p.destinationAddress p.nextHeader

def prepared (p : IPv6 P) (payload : Option P) (payloadLength : ℕ) : IPv6 P :=
  { p with
    payloadLength := BitVec.ofNat 16 payloadLength
    payload := payload }

def header (p : IPv6 P) : List (List Byte) :=
  [ int ((p.version &&& 0xf).setWidth 32 <<< 28 ||| p.trafficClass.setWidth 32 <<< 20 |||
      p.flowLabel &&& 0xfffff),
    short p.payloadLength,
    [p.nextHeader],
    [p.hopLimit],
    address p.sourceAddress,
    address p.destinationAddress ]

def write (p : IPv6 P) (payloadData : Option (List Byte)) : Result (IPv6 P × List Byte) := do
  let data ← fillNew (40 + p.payloadLength.toInt) (p.header ++ payloadData.toList)
  return (p, data)

def serialize [IPacket P] (p : IPv6 P) : Result (IPv6 P × List Byte) := do
  let (payload, payloadData) ← serializePayload p.asParent p.payload
  (p.prepared payload (payloadData.getD []).length).write payloadData

def PROTOCOL_DESERIALIZER_MAP : List Byte := [0x3A, 0x6, 0x11, 0x00, 0x2B, 0x2C, 0x32, 0x33, 0x3C]

def equals (p q : IPv6 P) : Prop := { p with version := q.version } = q

def read (registered : Byte → List Byte → ℤ → ℤ → Result R) (data : List Byte) :
    Reader DeserializationException (IPv6 (Payload R)) := do
  let iscratch ← getInt
  let payloadLength ← getShort
  let nextHeader ← getByte
  let hopLimit ← getByte
  let sourceAddress ← getAddress
  let destinationAddress ← getAddress
  let bb ← StateT.get
  let bytesToRead := if payloadLength.toInt ≤ bb.remaining then payloadLength.toInt else bb.remaining
  let payload ← payloadOf (nextHeader ∈ PROTOCOL_DESERIALIZER_MAP) (registered nextHeader) data
    bb.position bytesToRead
  return {
    version := (iscratch.sshiftRight 28 &&& 0xf).setWidth 8
    trafficClass := (iscratch.sshiftRight 20 &&& 0xff).setWidth 8
    flowLabel := iscratch &&& 0xfffff
    payloadLength, nextHeader, hopLimit, sourceAddress, destinationAddress
    payload := some payload }

def deserializer (registered : Byte → List Byte → ℤ → ℤ → Result R) (data : List Byte)
    (offset length : ℤ) : Result (IPv6 (Payload R)) := do
  checkInput data offset length 40
  let bb ← wrap data offset length
  (read registered data).run' bb

end IPv6

end IPv6

section UDP

structure UDP (P : Type) where
  sourcePort : BitVec 32
  destinationPort : BitVec 32
  length : BitVec 16
  checksum : BitVec 16
  payload : Option P
  deriving DecidableEq, Repr

namespace UDP

variable {P R : Type}

def PROTOCOL_UDP : Byte := 0x11

def setChecksum (p : UDP P) (checksum : BitVec 16) : UDP P := { p with checksum := checksum }

def prepared (p : UDP P) (payload : Option P) (payloadLength : ℕ) : UDP P :=
  { p with
    length := BitVec.ofNat 16 (8 + payloadLength)
    payload := payload }

def header (p : UDP P) : List (List Byte) :=
  [ short (p.sourcePort.setWidth 16),
    short (p.destinationPort.setWidth 16),
    short p.length,
    short p.checksum ]

/-- An IPv4 parent takes the protocol before the pseudo header is computed. -/
def write (parent : Option Parent) (p : UDP P) (payloadData : Option (List Byte)) :
    Result (UDP P × List Byte) := do
  let data ← fillNew p.length.toInt (p.header ++ payloadData.toList)
  let parent := parent.map (Parent.setProtocol PROTOCOL_UDP)
  if p.checksum = 0 then
    let checksum := checksumOf (pseudoHeaderShorts parent (p.length.signExtend 32) ++ words data)
    return (p.setChecksum checksum, ← putAt data 6 (short checksum))
  else return (p, data)

def serialize [IPacket P] (parent : Option Parent) (p : UDP P) : Result (UDP P × List Byte) := do
  let (payload, payloadData) ← serializePayload .other p.payload
  (p.prepared payload (payloadData.getD []).length).write parent payloadData

instance [IPacket P] : IPacket (UDP P) where
  serialize := serialize
  protocol _ := some PROTOCOL_UDP

def PORT_DESERIALIZER_MAP : List (BitVec 32) := [67, 68, 547, 546, 4789, 520, 521]

def payloadOfPorts (registered : BitVec 32 → List Byte → ℤ → ℤ → Result R)
    (sourcePort destinationPort : BitVec 32) (data : List Byte) (offset length : ℤ) :
    Result (Payload R) :=
  if destinationPort ∈ PORT_DESERIALIZER_MAP then
    payloadOf true (registered destinationPort) data offset length
  else
    payloadOf (sourcePort ∈ PORT_DESERIALIZER_MAP) (registered sourcePort) data offset length

def read (registered : BitVec 32 → List Byte → ℤ → ℤ → Result R) (data : List Byte) :
    Reader DeserializationException (UDP (Payload R)) := do
  let sourcePort := (← getShort).setWidth 32
  let destinationPort := (← getShort).setWidth 32
  let length ← getShort
  let checksum ← getShort
  let bb ← StateT.get
  let payload ← payloadOfPorts registered sourcePort destinationPort data bb.position bb.remaining
  return { sourcePort, destinationPort, length, checksum, payload := some payload }

def deserializer (registered : BitVec 32 → List Byte → ℤ → ℤ → Result R) (data : List Byte)
    (offset length : ℤ) : Result (UDP (Payload R)) := do
  checkInput data offset length 8
  let bb ← wrap data offset length
  (read registered data).run' bb

end UDP

end UDP

section TCP

structure TCP (P : Type) where
  sourcePort : BitVec 32
  destinationPort : BitVec 32
  sequence : BitVec 32
  acknowledge : BitVec 32
  dataOffset : Byte
  flags : BitVec 16
  windowSize : BitVec 16
  checksum : BitVec 16
  urgentPointer : BitVec 16
  options : Option (List Byte)
  payload : Option P
  deriving DecidableEq, Repr

namespace TCP

variable {P : Type}

def PROTOCOL_TCP : Byte := 0x6

def setChecksum (p : TCP P) (checksum : BitVec 16) : TCP P := { p with checksum := checksum }

def prepared (p : TCP P) (payload : Option P) : TCP P :=
  { p with
    dataOffset := if p.dataOffset = 0 then 5 else p.dataOffset
    payload := payload }

def optionsAndPadding (p : TCP P) : Result (List (List Byte)) :=
  if 5 < p.dataOffset.toInt then
    match p.options with
    | none => .error .nullPointer
    | some options =>
      let padding := p.dataOffset.toInt * 4 - 20 - options.length
      .ok (options :: List.replicate padding.toNat [0])
  else .ok []

def header (p : TCP P) : List (List Byte) :=
  [ short (p.sourcePort.setWidth 16),
    short (p.destinationPort.setWidth 16),
    int p.sequence,
    int p.acknowledge,
    short (p.flags ||| p.dataOffset.signExtend 16 <<< 12),
    short p.windowSize,
    short p.checksum,
    short p.urgentPointer ]

def write (parent : Option Parent) (p : TCP P) (payloadData : Option (List Byte)) :
    Result (TCP P × List Byte) := do
  let length := intOf (p.dataOffset.toInt * 4 + (payloadData.getD []).length)
  let data ← fillNew length (p.header ++ (← p.optionsAndPadding) ++ payloadData.toList)
  let parent := parent.map (Parent.setProtocol PROTOCOL_TCP)
  if p.checksum = 0 then
    let checksum := checksumOf (pseudoHeaderShorts parent (BitVec.ofInt 32 length) ++ words data)
    return (p.setChecksum checksum, ← putAt data 16 (short checksum))
  else return (p, data)

def serialize [IPacket P] (parent : Option Parent) (p : TCP P) : Result (TCP P × List Byte) := do
  let (payload, payloadData) ← serializePayload .other p.payload
  (p.prepared payload).write parent payloadData

instance [IPacket P] : IPacket (TCP P) where
  serialize := serialize
  protocol _ := some PROTOCOL_TCP

end TCP

end TCP

end IpPackets

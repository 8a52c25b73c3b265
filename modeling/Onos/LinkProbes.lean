import Mathlib.Data.List.Dedup
import Onos.EthernetFrame
import Onos.LinkLayerRoundTrip
import Onos.Lib.Texts

/-! Probes of links: LLDP packets that tell the device and the port that they are sent from, and that
are signed if there is a secret. -/
namespace LinkProbes

open BufferReaders ByteBuffer EthernetFrame FallibleRun LinkLayerDiscovery Packets Texts WireBytes

def DEFAULT_DEVICE : String := "INVALID"

def DEFAULT_NAME : String := "ONOS Discovery"

def NAME_SUBTYPE : Byte := 1

def DEVICE_SUBTYPE : Byte := 2

def TIMESTAMP_SUBTYPE : Byte := 4

def SIG_SUBTYPE : Byte := 5

def CHASSIS_TLV_SUBTYPE : Byte := 4

def PORT_TLV_COMPONENT_SUBTYPE : Byte := 2

def PORT_DESC_TLV_TYPE : Byte := 4

def TYPE_LLDP : BitVec 16 := 0x88cc

def TYPE_BSN : BitVec 16 := 0x8942

def ONOS : BitVec 48 := 0xa42305000000

def oui (mac : BitVec 48) : List Byte := (macAddress mac).take 3

/-- What is left to the platform: the code that signs, the default charset, and the order in which
a hash map gives its entries. -/
structure Platform where
  hmacSHA256 : List Byte → List Byte → List Byte
  length_hmacSHA256 : ∀ key bytes, (hmacSHA256 key bytes).length = 32
  defaultBytes : String → List Byte
  iteration : List Byte → List Byte
  iteration_perm : ∀ keys, (iteration keys).Perm keys

/-- The TLVs of the map are those of the list, which may have others after them. -/
structure ONOSLLDP where
  chassisId : Option TLV
  portId : Option TLV
  ttl : Option TLV
  opttlvs : List (Byte × LLDPOrganizationalTLV)
  others : List TLV
  deriving DecidableEq, Repr

namespace ONOSLLDP

def toLLDP (probe : ONOSLLDP) : LLDP where
  chassisId := probe.chassisId
  portId := probe.portId
  ttl := probe.ttl
  optionalTLVList := (probe.opttlvs.map fun e => .organizational e.2) ++ probe.others

def ofLLDP (lldp : LLDP) : ONOSLLDP where
  chassisId := lldp.chassisId
  portId := lldp.portId
  ttl := lldp.ttl
  opttlvs := []
  others := lldp.optionalTLVList

section Making

def filledTLV (subType : Byte) (infoString : List Byte) (size : ℕ) (tlv : LLDPOrganizationalTLV) :
    LLDPOrganizationalTLV :=
  { tlv with
    length := BitVec.ofNat 16 (size + 4)
    oui := some (oui ONOS)
    subType := subType
    infoString := some infoString }

def fill (subType : Byte) (infoString : List Byte) (size : ℕ) (probe : ONOSLLDP) :
    Result ONOSLLDP := do
  let infoString ← LLDPOrganizationalTLV.setInfoString infoString
  return { probe with opttlvs := probe.opttlvs.map fun e =>
    if e.1 = subType then (e.1, filledTLV subType infoString size e.2) else e }

def setName (name : String) (probe : ONOSLLDP) : Result ONOSLLDP := do
  let _ ← nonNull (probe.opttlvs.lookup NAME_SUBTYPE)
  probe.fill NAME_SUBTYPE (getBytes name) (utf16Length name)

def setDevice (device : String) (probe : ONOSLLDP) : Result ONOSLLDP := do
  let _ ← nonNull (probe.opttlvs.lookup DEVICE_SUBTYPE)
  probe.fill DEVICE_SUBTYPE (getBytes device) (utf16Length device)

def setTimestamp (timestamp : BitVec 64) (probe : ONOSLLDP) : Result ONOSLLDP :=
  if (probe.opttlvs.lookup TIMESTAMP_SUBTYPE).isNone then .ok probe
  else probe.fill TIMESTAMP_SUBTYPE (long timestamp) 8

def setSig (sig : List Byte) (probe : ONOSLLDP) : Result ONOSLLDP :=
  if (probe.opttlvs.lookup SIG_SUBTYPE).isNone then .ok probe
  else probe.fill SIG_SUBTYPE sig sig.length

def chassisTLV (chassisId : BitVec 64) : LLDPTLV :=
  ⟨1, 7, some (CHASSIS_TLV_SUBTYPE :: macAddress (chassisId.setWidth 48))⟩

def portTLV (portNumber : BitVec 32) : LLDPTLV :=
  let port := PORT_TLV_COMPONENT_SUBTYPE :: getBytes (ofInt portNumber.toInt)
  ⟨2, BitVec.ofNat 16 port.length, some port⟩

def ttlTLV : LLDPTLV := ⟨3, 2, some [0, 0x78]⟩

def newTLV : LLDPOrganizationalTLV := ⟨⟨ORGANIZATIONAL_TLV_TYPE, 0, none⟩, none, 0, none⟩

variable (platform : Platform)

def new (subtypes : List Byte) : Result ONOSLLDP := do
  let keys := (subtypes ++ [NAME_SUBTYPE, DEVICE_SUBTYPE]).dedup
  let opttlvs := (platform.iteration keys).map fun key => (key, newTLV)
  let probe ← setName DEFAULT_NAME ⟨none, none, none, opttlvs, []⟩
  let probe ← probe.setDevice DEFAULT_DEVICE
  return { probe with ttl := some (.plain ttlTLV) }

def createSig {χ : Type} (deviceId : String) (portNum : BitVec 32) (timestamp : BitVec 64)
    (secret : String) : Except (Thrown χ) (List Byte) :=
  if getBytes secret = [] then .error .illegalArgument
  else .ok (platform.hmacSHA256 (getBytes secret)
    (platform.defaultBytes deviceId ++ long (portNum.signExtend 64) ++ long timestamp))

def addPortDesc (portDesc : Option String) (probe : ONOSLLDP) : ONOSLLDP :=
  match portDesc with
  | none => probe
  | some portDesc =>
    if portDesc = "" then probe
    else
      let bPortDesc := (getBytes portDesc).take 511
      { probe with others := probe.others ++
        [.plain ⟨PORT_DESC_TLV_TYPE, BitVec.ofNat 16 bPortDesc.length, some bPortDesc⟩] }

def onosSecureLLDP (deviceId : String) (chassisId : BitVec 64) (portNum : BitVec 32)
    (portDesc secret : Option String) (currentTime : BitVec 64) : Result ONOSLLDP := do
  let probe ← new platform (if secret.isNone then [NAME_SUBTYPE, DEVICE_SUBTYPE]
    else [NAME_SUBTYPE, DEVICE_SUBTYPE, TIMESTAMP_SUBTYPE, SIG_SUBTYPE])
  let probe := { probe with portId := some (.plain (portTLV portNum)) }
  let probe ← probe.setDevice deviceId
  let probe := { probe with chassisId := some (.plain (chassisTLV chassisId)) }
  match secret with
  | none => return probe.addPortDesc portDesc
  | some secret =>
    let probe ← probe.setTimestamp currentTime
    let sig ← createSig platform deviceId portNum currentTime secret
    let probe ← probe.setSig sig
    return probe.addPortDesc portDesc

end Making

end ONOSLLDP

/-- What the methods of a probe that was read throw, besides runtime exceptions of its buffers. -/
inductive ProbeException where
  | classCast
  | numberFormat
  deriving DecidableEq, Repr

abbrev Answer (α : Type) := Except (Thrown ProbeException) α

def deref {α : Type} : Option α → Answer α
  | some a => .ok a
  | none => .error .nullPointer

namespace ONOSLLDP

section Reading

def findTLV (subType : Byte) : List TLV → Answer (Option LLDPOrganizationalTLV)
  | [] => .ok none
  | .plain tlv :: tlvs =>
    if tlv.type = ORGANIZATIONAL_TLV_TYPE then .error (.checked .classCast) else findTLV subType tlvs
  | .organizational tlv :: tlvs =>
    if tlv.type = ORGANIZATIONAL_TLV_TYPE ∧ tlv.subType = subType then .ok (some tlv)
    else findTLV subType tlvs

def getTLV (subType : Byte) (probe : ONOSLLDP) : Answer (Option LLDPOrganizationalTLV) :=
  findTLV subType probe.toLLDP.optionalTLVList

def getInfo (subType : Byte) (probe : ONOSLLDP) : Answer (Option (List Byte)) := do
  match ← probe.getTLV subType with
  | none => return none
  | some tlv => return some (← deref tlv.infoString)

def getNameString (probe : ONOSLLDP) : Answer (Option String) :=
  (probe.getInfo NAME_SUBTYPE).map (Option.map fromBytes)

def getDeviceString (probe : ONOSLLDP) : Answer (Option String) :=
  (probe.getInfo DEVICE_SUBTYPE).map (Option.map fromBytes)

def getSig (probe : ONOSLLDP) : Answer (Option (List Byte)) := probe.getInfo SIG_SUBTYPE

def getPortDescString (probe : ONOSLLDP) : Answer (Option String) :=
  match probe.toLLDP.optionalTLVList.find? fun tlv => tlv.toLLDPTLV.type = PORT_DESC_TLV_TYPE with
  | none => .ok none
  | some tlv => (deref tlv.toLLDPTLV.value).map fun value => some (fromBytes value)

def getSubtyped (tlv : Option TLV) : Answer (Byte × List Byte) := do
  let tlv ← deref tlv
  match ← deref tlv.toLLDPTLV.value with
  | [] => .error .bufferUnderflow
  | type :: bytes => .ok (type, bytes)

def getPort (probe : ONOSLLDP) : Answer (BitVec 32) := do
  let port ← getSubtyped probe.portId
  if port.1 = PORT_TLV_COMPONENT_SUBTYPE then
    (parseInt (fromBytes port.2)).elim (.error (.checked .numberFormat)) .ok
  else .ok (-1)

def getChassisIdByMac (probe : ONOSLLDP) : Answer (BitVec 48) := do
  let chassis ← getSubtyped probe.chassisId
  if chassis.1 = CHASSIS_TLV_SUBTYPE then
    if 6 ≤ chassis.2.length then .ok (ofBytes 48 (chassis.2.take 6)) else .error .indexOutOfBounds
  else .ok ONOS

def getTimestamp (probe : ONOSLLDP) : Answer (BitVec 64) := do
  match ← probe.getInfo TIMESTAMP_SUBTYPE with
  | none => return 0
  | some infoString =>
    if 8 < infoString.length then .error .bufferOverflow
    else if infoString.length < 8 then .error .bufferUnderflow
    else return ofBytes 64 infoString

variable (platform : Platform)

def verifySig (sig : List Byte) (deviceId : String) (portNum : BitVec 32) (timestamp : BitVec 64)
    (secret : String) : Answer Bool := do
  let nsig ← createSig platform deviceId portNum timestamp secret
  if nsig.length ≠ sig.length then return false
  else return (nsig.zip sig).all fun pair => pair.1 == pair.2

def verify (probe : ONOSLLDP) (secret : Option String) (maxDelay currentTime laterTime : BitVec 64) :
    Answer Bool := do
  match secret with
  | none => return true
  | some secret =>
    let deviceId ← probe.getDeviceString
    let portNum ← probe.getPort
    let timestamp ← probe.getTimestamp
    let sig ← probe.getSig
    match deviceId, sig with
    | some deviceId, some sig =>
      if (timestamp + maxDelay).toInt ≤ currentTime.toInt ∨ laterTime.toInt < timestamp.toInt then
        return false
      else verifySig platform sig deviceId portNum timestamp secret
    | _, _ => return false

variable {Q : Type}

instance : IPacket LLDP where
  serialize _ packet := packet.serialize
  protocol _ := none

def deserializerOf (others : BitVec 16 → List Byte → ℤ → ℤ → Result Q) (etherType : BitVec 16)
    (data : List Byte) (offset length : ℤ) : Result (LLDP ⊕ Q) :=
  if etherType = TYPE_LLDP ∨ etherType = TYPE_BSN then
    (LLDP.deserializer data offset length).map .inl
  else (others etherType data offset length).map .inr

def parseONOSLLDP (eth : Ethernet (Payload (LLDP ⊕ Q))) : Answer (Option ONOSLLDP) :=
  if eth.etherType = TYPE_LLDP ∨ eth.etherType = TYPE_BSN then
    match eth.payload with
    | none => .error .nullPointer
    | some (.inr (.inl lldp)) => do
      let name ← (ofLLDP lldp).getNameString
      return if name = some DEFAULT_NAME then some (ofLLDP lldp) else none
    | some _ => .error (.checked .classCast)
  else .ok none

end Reading

end ONOSLLDP

end LinkProbes

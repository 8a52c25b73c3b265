import Onos.IpAddresses
import Onos.Lib.KeyedMap
import Onos.Packets

/-! PIM join/prune messages: encoded addresses, and groups with the sources that are joined and
pruned, as they are written and read. -/
namespace JoinPruneMessages

open BufferReaders ByteBuffer IpAddresses KeyedMap Packets WireBytes

def ADDRESS_FAMILY_IP4 : Byte := 0x1

def ADDRESS_FAMILY_IP6 : Byte := 0x2

def scratchLength : ℕ := 8096

def familyOf (addr : IpAddress) : Byte :=
  if addr.isIp4 then ADDRESS_FAMILY_IP4 else ADDRESS_FAMILY_IP6

structure PIMAddrUnicast where
  encType : Byte
  addr : IpAddress
  deriving DecidableEq, Repr

structure PIMAddrGroup where
  encType : Byte
  reserved : Byte
  bBit : Bool
  zBit : Bool
  masklen : Byte
  addr : IpAddress
  deriving DecidableEq, Repr

structure PIMAddrSource where
  encType : Byte
  reserved : Byte
  sBit : Bool
  wBit : Bool
  rBit : Bool
  masklen : Byte
  addr : IpAddress
  deriving DecidableEq, Repr

/-- The order of a list of sources stands for the order of a hash map. -/
structure PIMJoinPruneGroup where
  group : IpPrefix
  joins : List IpPrefix
  prunes : List IpPrefix
  deriving DecidableEq, Repr

structure PIMJoinPrune where
  upstreamAddr : PIMAddrUnicast
  holdTime : BitVec 16
  joinPrunes : Table IpPrefix PIMJoinPruneGroup

section Adding

def PIMJoinPruneGroup.add (jpg : PIMJoinPruneGroup) (spfx : IpPrefix) (join : Bool) :
    PIMJoinPruneGroup :=
  if join then
    if spfx ∈ jpg.joins then jpg else { jpg with joins := jpg.joins ++ [spfx] }
  else if spfx ∈ jpg.prunes then jpg else { jpg with prunes := jpg.prunes ++ [spfx] }

def PIMJoinPrune.addJoinPrune (jp : PIMJoinPrune) (spfx gpfx : IpPrefix) (join : Bool) :
    PIMJoinPrune :=
  let jpg := (jp.joinPrunes.lookup gpfx).getD ⟨gpfx, [], []⟩
  { jp with joinPrunes := store jp.joinPrunes gpfx (jpg.add spfx join) }

end Adding

section Writing

def PIMAddrUnicast.serialize (a : PIMAddrUnicast) : List Byte :=
  familyOf a.addr :: a.encType :: a.addr.toOctets

def PIMAddrGroup.ofPrefix (gpfx : IpPrefix) : PIMAddrGroup :=
  ⟨0, 0, false, false, BitVec.ofNat 8 gpfx.prefixLength, gpfx.address⟩

def PIMAddrGroup.serialize (a : PIMAddrGroup) : List Byte :=
  familyOf a.addr :: a.encType :: a.reserved :: a.masklen :: a.addr.toOctets

def PIMAddrSource.ofPrefix (spfx : IpPrefix) : PIMAddrSource :=
  ⟨0, 0, true, false, false, BitVec.ofNat 8 spfx.prefixLength, spfx.address⟩

def PIMAddrSource.serialize (a : PIMAddrSource) : List Byte :=
  let reserved := a.reserved ||| (if a.sBit then 0x4 else 0) ||| (if a.wBit then 0x2 else 0) |||
    (if a.rBit then 0x1 else 0)
  familyOf a.addr :: a.encType :: reserved :: a.masklen :: a.addr.toOctets

def serializeSources (sources : List IpPrefix) : List Byte :=
  (sources.map fun spfx => (PIMAddrSource.ofPrefix spfx).serialize).flatten

def PIMJoinPruneGroup.serialize (jpg : PIMJoinPruneGroup) : List Byte :=
  (PIMAddrGroup.ofPrefix jpg.group).serialize ++ (short (BitVec.ofNat 16 jpg.joins.length) ++
    (short (BitVec.ofNat 16 jpg.prunes.length) ++
      (serializeSources jpg.joins ++ serializeSources jpg.prunes)))

def PIMJoinPrune.groups (jp : PIMJoinPrune) : List PIMJoinPruneGroup :=
  jp.joinPrunes.entries.map fun e => e.2

def serializeGroups (groups : List PIMJoinPruneGroup) : List Byte :=
  (groups.map PIMJoinPruneGroup.serialize).flatten

def PIMJoinPrune.bytes (jp : PIMJoinPrune) : List Byte :=
  jp.upstreamAddr.serialize ++ (0 :: BitVec.ofNat 8 jp.groups.length :: (short jp.holdTime ++
    serializeGroups jp.groups))

def PIMJoinPrune.serialize (jp : PIMJoinPrune) : Result (List Byte) := do
  let data ← fillNew scratchLength [jp.bytes]
  return data.take jp.bytes.length

end Writing

section Reading

def checkLeft (data : List Byte) (required : ℤ) : Reader DeserializationException Unit := do
  let bb ← StateT.get
  checkInput data bb.position bb.remaining required

/-- The family of an encoded address. Enough is checked for what is left of an address of the other
family. -/
def readFamily (data : List Byte) (ip4Length ip6Length : ℤ) (message : ℤ → String) :
    Reader DeserializationException Byte := do
  checkLeft data ip4Length
  let family ← getByte
  if family ≠ ADDRESS_FAMILY_IP4 ∧ family ≠ ADDRESS_FAMILY_IP6 then
    throwDeserialization (message family.toInt)
  else if family = ADDRESS_FAMILY_IP6 then
    checkLeft data (ip6Length - 1)
    return family
  else return family

def valueOf6 (value : List Byte) (offset : ℕ) : Result IpAddress :=
  if offset + 16 ≤ value.length then .ok (.INET6 (ofBytes 128 ((value.drop offset).take 16)))
  else .error .illegalArgument

/-- Addresses of the one family are read, those of the other are taken from the array. -/
def readAddr (data : List Byte) (family : Byte) : Reader DeserializationException IpAddress := do
  if family = ADDRESS_FAMILY_IP4 then return .INET (← getInt)
  else valueOf6 data 2

def PIMAddrUnicast.deserialize (data : List Byte) : Reader DeserializationException PIMAddrUnicast := do
  let family ← readFamily data (2 + 4) (2 + 16) fun family =>
    "Invalid address family: " ++ toString family
  let encType ← getByte
  let addr ← readAddr data family
  return ⟨encType, addr⟩

def illegalVersion (family : ℤ) : String :=
  "Illegal IP version number: " ++ toString family ++ "\n"

def PIMAddrGroup.deserialize (data : List Byte) : Reader DeserializationException PIMAddrGroup := do
  let family ← readFamily data (4 + 4) (4 + 16) illegalVersion
  let encType ← getByte
  let reserved ← getByte
  let masklen ← getByte
  let addr ← readAddr data family
  return ⟨encType, reserved ||| 0x7d, reserved &&& 0x80 ≠ 0, reserved &&& 0x1 ≠ 0, masklen, addr⟩

def PIMAddrSource.deserialize (data : List Byte) : Reader DeserializationException PIMAddrSource := do
  let family ← readFamily data (4 + 4) (4 + 16) illegalVersion
  let encType ← getByte
  let reserved ← getByte
  let masklen ← getByte
  let addr ← readAddr data family
  return ⟨encType, reserved &&& 0xf8, true, reserved &&& 0x2 ≠ 0, reserved &&& 0x1 ≠ 0, masklen, addr⟩

def readSources (data : List Byte) (grp : PIMAddrGroup) (join : Bool) :
    ℕ → PIMJoinPrune → Reader DeserializationException PIMJoinPrune
  | 0, jp => return jp
  | n + 1, jp => do
    let src ← PIMAddrSource.deserialize data
    readSources data grp join n (jp.addJoinPrune src.addr.toIpPrefix grp.addr.toIpPrefix join)

def readGroup (data : List Byte) (ipv4 : Bool) (jp : PIMJoinPrune) :
    Reader DeserializationException PIMJoinPrune := do
  let grp ← PIMAddrGroup.deserialize data
  checkLeft data 4
  let njoins ← getShort
  let nprunes ← getShort
  checkLeft data ((njoins.toInt + nprunes.toInt) * if ipv4 then 4 + 4 else 4 + 16)
  let jp ← readSources data grp true njoins.toInt.toNat jp
  readSources data grp false nprunes.toInt.toNat jp

def readGroups (data : List Byte) (ipv4 : Bool) :
    ℕ → PIMJoinPrune → Reader DeserializationException PIMJoinPrune
  | 0, jp => return jp
  | n + 1, jp => do
    let jp ← readGroup data ipv4 jp
    readGroups data ipv4 n jp

def PIMJoinPrune.read (data : List Byte) : Reader DeserializationException PIMJoinPrune := do
  let upstream ← PIMAddrUnicast.deserialize data
  checkLeft data 4
  let _ ← getByte
  let ngroups ← getByte
  let holdTime ← getShort
  readGroups data upstream.addr.isIp4 ngroups.toInt.toNat ⟨upstream, holdTime, ∅⟩

def PIMJoinPrune.deserializer (data : List Byte) (offset length : ℤ) : Result PIMJoinPrune := do
  let bb ← wrap data offset length
  (PIMJoinPrune.read data).run' bb

end Reading

end JoinPruneMessages

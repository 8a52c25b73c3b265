import Onos.Packets

/-! LLDP packets: a list of TLVs that ends with one of type zero. -/
namespace LinkLayerDiscovery

open BufferReaders ByteBuffer FallibleRun Packets WireBytes

structure LLDPTLV where
  type : Byte
  length : BitVec 16
  value : Option (List Byte)
  deriving DecidableEq, Repr

structure LLDPOrganizationalTLV extends LLDPTLV where
  oui : Option (List Byte)
  subType : Byte
  infoString : Option (List Byte)
  deriving DecidableEq, Repr

inductive TLV where
  | plain (tlv : LLDPTLV)
  | organizational (tlv : LLDPOrganizationalTLV)
  deriving DecidableEq, Repr

def ORGANIZATIONAL_TLV_TYPE : Byte := 127

namespace LLDPTLV

def scratch (type : Byte) (length : BitVec 16) : BitVec 16 :=
  (type &&& 0x7f).setWidth 16 <<< 9 ||| length &&& 0x1ff

def serialize (tlv : LLDPTLV) : Result (List Byte) :=
  fillNew (2 + tlv.length.toInt) (short (scratch tlv.type tlv.length) :: tlv.value.toList)

def deserialize : Reader DeserializationException LLDPTLV := do
  let remaining ← getRemaining
  require (2 ≤ remaining) "Not enough bytes to deserialize TLV type and length"
  let typeLength ← getShort
  let type := (typeLength.sshiftRight 9 &&& 0x7f).setWidth 8
  let length := typeLength &&& 0x1ff
  if 0 < length.toInt then
    let remaining ← getRemaining
    require (length.toInt ≤ remaining) "Remaining bytes are less then the length of the TLV"
    let value ← get length.toInt.toNat
    return ⟨type, length, some value⟩
  else return ⟨type, length, none⟩

theorem reads_deserialize (b : ReadBuffer) : Reads deserialize b fun tlv b' =>
    0 ≤ tlv.length.toInt ∧ tlv.length.toInt ≤ 511 ∧
      (b'.remaining : ℤ) + 2 + tlv.length.toInt = b.remaining ∧
      (0 < tlv.length.toInt → ∃ value, tlv.value = some value ∧
        (value.length : ℤ) = tlv.length.toInt) := by
  refine reads_getRemaining.bind ?_
  rintro n b₁ ⟨rfl, rfl⟩
  refine (reads_lift (ensures_require _ _)).bind ?_
  rintro - b₂ ⟨htwo, rfl⟩
  refine (reads_getShort htwo).bind ?_
  rintro typeLength b₃ rfl
  have hmask : (typeLength &&& 0x1ff).toNat = typeLength.toNat % 512 :=
    toNat_and_mask (m := 9) typeLength (by decide)
  have hint : (typeLength &&& 0x1ff).toInt = (typeLength &&& 0x1ff).toNat := by
    rw [BitVec.toInt_eq_toNat_of_lt]
    omega
  have hnonneg : 0 ≤ (typeLength &&& 0x1ff).toInt := by omega
  have hle : (typeLength &&& 0x1ff).toInt ≤ 511 := by omega
  dsimp only
  split_ifs with hpos
  · refine reads_getRemaining.bind ?_
    rintro n b₄ ⟨rfl, rfl⟩
    refine (reads_lift (ensures_require _ _)).bind ?_
    rintro - b₅ ⟨hroom, rfl⟩
    refine (reads_get (by omega)).bind ?_
    rintro value b₆ ⟨hvalue, rfl⟩
    have hlength : (value.length : ℤ) = (typeLength &&& 0x1ff).toInt := by omega
    refine reads_pure ⟨hnonneg, hle, ?_, fun _ => ⟨value, rfl, hlength⟩⟩
    simp only [remaining_advance] at hroom ⊢
    omega
  · refine reads_pure ⟨hnonneg, hle, ?_, fun h => absurd h hpos⟩
    simp only [remaining_advance]
    omega

end LLDPTLV

namespace LLDPOrganizationalTLV

def setOUI (oui : List Byte) : Result (List Byte) :=
  if oui.length = 3 then .ok oui else .error .illegalArgument

def setInfoString (infoString : List Byte) : Result (List Byte) :=
  if infoString.length ≤ 507 then .ok infoString else .error .illegalArgument

def serialize (tlv : LLDPOrganizationalTLV) : Result (LLDPOrganizationalTLV × List Byte) := do
  if tlv.type ≠ ORGANIZATIONAL_TLV_TYPE then return (tlv, ← tlv.toLLDPTLV.serialize)
  else
    let infoString ← nonNull tlv.infoString
    let oui ← nonNull tlv.oui
    let value ← fillNew (4 + infoString.length) [oui, [tlv.subType], infoString]
    let tlv := { tlv with value := some value }
    return (tlv, ← tlv.toLLDPTLV.serialize)

def readParts (length : BitVec 16) :
    Reader DeserializationException (List Byte × Byte × List Byte) := do
  let oui ← setOUI (← get 3)
  let subType ← getByte
  let infoString ← setInfoString (← get (length.toInt - 4).toNat)
  return (oui, subType, infoString)

def deserialize : Reader DeserializationException LLDPOrganizationalTLV := do
  let tlv ← LLDPTLV.deserialize
  if tlv.type ≠ ORGANIZATIONAL_TLV_TYPE then return ⟨tlv, none, 0, none⟩
  else
    require (4 < tlv.length.toInt) "TLV length is less than required for organizational TLV"
    let value ← nonNull tlv.value
    let (oui, subType, infoString) ← (readParts tlv.length).run' ⟨[], value, []⟩
    return ⟨tlv, some oui, subType, some infoString⟩

theorem reads_readParts {length : BitVec 16} {value : List Byte} (hpos : 4 < length.toInt)
    (hle : length.toInt ≤ 511) (hlength : (value.length : ℤ) = length.toInt) :
    Reads (readParts length) ⟨[], value, []⟩ fun _ _ => True := by
  have hremaining : ReadBuffer.remaining ⟨[], value, []⟩ = value.length := rfl
  refine (reads_get (by omega)).bind ?_
  rintro oui b₁ ⟨houi, rfl⟩
  have hset : setOUI oui = .ok oui := if_pos houi
  refine (reads_lift_ok hset).bind ?_
  rintro oui' b₂ ⟨-, rfl⟩
  refine (reads_getByte (by simp only [remaining_advance]; omega)).bind ?_
  rintro subType b₃ rfl
  refine (reads_get (by simp only [remaining_advance]; omega)).bind ?_
  rintro infoString b₄ ⟨hinfo, rfl⟩
  have hset' : setInfoString infoString = .ok infoString := if_pos (by omega)
  refine (reads_lift_ok hset').bind ?_
  rintro infoString' b₅ ⟨-, rfl⟩
  exact reads_pure trivial

theorem reads_deserialize (b : ReadBuffer) : Reads deserialize b fun tlv b' =>
    0 ≤ tlv.length.toInt ∧ (b'.remaining : ℤ) + 2 + tlv.length.toInt = b.remaining := by
  refine (LLDPTLV.reads_deserialize b).bind ?_
  rintro tlv b₁ ⟨hnonneg, hle, hread, hvalue⟩
  dsimp only
  split_ifs with htype
  · exact reads_pure ⟨hnonneg, hread⟩
  · refine (reads_lift (ensures_require _ _)).bind ?_
    rintro - b₂ ⟨hfour, rfl⟩
    obtain ⟨value, hsome, hlength⟩ := hvalue (by omega)
    have hnonNull : nonNull tlv.value = .ok value := by rw [hsome, nonNull]
    refine (reads_lift_ok hnonNull).bind ?_
    rintro value' b₃ ⟨rfl, rfl⟩
    refine (reads_lift (reads_readParts hfour hle hlength).run').bind ?_
    rintro parts b₄ ⟨-, rfl⟩
    exact reads_pure ⟨hnonneg, hread⟩

theorem remaining_lt_of_deserialize {b b' : ReadBuffer} {tlv : LLDPOrganizationalTLV}
    (h : deserialize b = .ok (tlv, b')) : b'.remaining < b.remaining := by
  obtain ⟨hnonneg, hread⟩ := (reads_deserialize b).ok h
  dsimp only at hnonneg hread
  omega

theorem infoString_of_deserialize {b b' : ReadBuffer} {tlv : LLDPOrganizationalTLV}
    (h : deserialize b = .ok (tlv, b')) (htype : tlv.type = ORGANIZATIONAL_TLV_TYPE) :
    tlv.infoString ≠ some [] := by
  obtain ⟨base, b₁, -, h⟩ := bind_apply_eq_ok h
  split_ifs at h with hbase
  · cases h
    exact absurd htype hbase
  · obtain ⟨_, _, hrequire, h⟩ := bind_apply_eq_ok h
    obtain ⟨value, _, -, h⟩ := bind_apply_eq_ok h
    obtain ⟨parts, _, hparts, h⟩ := bind_apply_eq_ok h
    cases h
    have hfour := (ensures_require _ _).ok (ok_of_lift hrequire)
    obtain ⟨_, hread⟩ := run'_eq_ok (ok_of_lift hparts)
    obtain ⟨_, _, -, hread⟩ := bind_apply_eq_ok hread
    obtain ⟨_, _, -, hread⟩ := bind_apply_eq_ok hread
    obtain ⟨_, _, -, hread⟩ := bind_apply_eq_ok hread
    obtain ⟨infoString, _, hget, hread⟩ := bind_apply_eq_ok hread
    obtain ⟨infoString', _, hset, hread⟩ := bind_apply_eq_ok hread
    cases hread
    have hlength := length_of_get hget
    have hset := ok_of_lift hset
    rw [setInfoString] at hset
    split_ifs at hset
    cases hset
    rintro hempty
    cases hempty
    rw [List.length_nil] at hlength
    omega

end LLDPOrganizationalTLV

namespace TLV

def toLLDPTLV : TLV → LLDPTLV
  | plain tlv => tlv
  | organizational tlv => tlv.toLLDPTLV

def serialize : TLV → Result (TLV × List Byte)
  | plain tlv => tlv.serialize.map fun data => (plain tlv, data)
  | organizational tlv => tlv.serialize.map fun (tlv, data) => (organizational tlv, data)

def equals : TLV → TLV → Prop
  | plain tlv, other => tlv = other.toLLDPTLV
  | organizational tlv, organizational other =>
    tlv.type = other.type ∧ tlv.length = other.length ∧ tlv.oui = other.oui ∧
      tlv.subType = other.subType ∧ tlv.infoString = other.infoString
  | organizational _, plain _ => False

end TLV

structure LLDP where
  chassisId : Option TLV
  portId : Option TLV
  ttl : Option TLV
  optionalTLVList : List TLV
  deriving DecidableEq, Repr

namespace LLDP

def serialize (lldp : LLDP) : Result (LLDP × List Byte) := do
  let chassisId ← nonNull lldp.chassisId
  let portId ← nonNull lldp.portId
  let ttl ← nonNull lldp.ttl
  let lengths := (chassisId :: portId :: ttl :: lldp.optionalTLVList).map fun tlv =>
    2 + tlv.toLLDPTLV.length.toInt
  let (chassisId, chassisData) ← chassisId.serialize
  let (portId, portData) ← portId.serialize
  let (ttl, ttlData) ← ttl.serialize
  let optional ← lldp.optionalTLVList.mapM TLV.serialize
  let data ← fillNew (intOf (lengths.sum + 2))
    (chassisData :: portData :: ttlData :: optional.map Prod.snd ++ [short 0])
  return (⟨some chassisId, some portId, some ttl, optional.map Prod.fst⟩, data)

def equalRefs : Option TLV → Option TLV → Prop
  | none, none => True
  | some tlv, some other => tlv.equals other
  | _, _ => False

def equals (lldp other : LLDP) : Prop :=
  equalRefs lldp.chassisId other.chassisId ∧
    List.Forall₂ TLV.equals lldp.optionalTLVList other.optionalTLVList ∧
    equalRefs lldp.portId other.portId ∧ equalRefs lldp.ttl other.ttl

def store (lldp : LLDP) (tlv : TLV) : LLDP :=
  match tlv.toLLDPTLV.type with
  | 0x0 => lldp
  | 0x1 => { lldp with chassisId := some tlv }
  | 0x2 => { lldp with portId := some tlv }
  | 0x3 => { lldp with ttl := some tlv }
  | _ => { lldp with optionalTLVList := lldp.optionalTLVList ++ [tlv] }

/-- The loop over the TLVs, with its own index next to the position of the buffer. -/
def readTLVs (length currentIndex : ℤ) (lldp : LLDP) (bb : ReadBuffer) : Result LLDP := do
  let currentIndex := intOf (currentIndex + 2)
  checkHeaderLength length currentIndex
  match _h : LLDPOrganizationalTLV.deserialize bb with
  | .error e => .error e
  | .ok (tlv, bb') =>
    if tlv.type = 0x0 then return lldp
    else readTLVs length (intOf (currentIndex + tlv.length.toInt)) (lldp.store (.organizational tlv)) bb'
termination_by bb.remaining
decreasing_by exact LLDPOrganizationalTLV.remaining_lt_of_deserialize _h

def deserializer (data : List Byte) (offset length : ℤ) : Result LLDP := do
  checkInput data offset length 0
  let bb ← wrap data offset length
  readTLVs length 0 ⟨none, none, none, []⟩ bb

section Totality

theorem readTLVs_eq (length currentIndex : ℤ) (lldp : LLDP) (bb : ReadBuffer) :
    readTLVs length currentIndex lldp bb =
      (checkHeaderLength length (intOf (currentIndex + 2))).bind fun _ =>
        (LLDPOrganizationalTLV.deserialize bb).bind fun r =>
          if r.1.type = 0x0 then .ok lldp
          else readTLVs length (intOf (intOf (currentIndex + 2) + r.1.length.toInt))
            (lldp.store (.organizational r.1)) r.2 := by
  rw [readTLVs]
  congr 1
  funext _
  split
  · next e he =>
    rw [he]
    rfl
  · next tlv bb' h =>
    rw [h]
    rfl

theorem ensures_readTLVs (length currentIndex : ℤ) (lldp : LLDP) (bb : ReadBuffer) :
    Ensures (readTLVs length currentIndex lldp bb) (fun _ => True) Checked := by
  induction hn : bb.remaining using Nat.strong_induction_on generalizing currentIndex lldp bb with
  | h n ih =>
    rw [readTLVs_eq]
    refine Ensures.bind_of (fun _ he => (ensures_checkHeaderLength _ _).error he) ?_
    rintro - -
    refine Ensures.bind_of (fun _ he => (LLDPOrganizationalTLV.reads_deserialize bb).error he) ?_
    intro r hr
    split_ifs
    · exact ensures_ok trivial
    · exact ih _ (hn ▸ LLDPOrganizationalTLV.remaining_lt_of_deserialize hr) _ _ _ rfl

theorem LLDPTLV.local_deserialize : Local LLDPTLV.deserialize := by
  refine local_getRemaining.bind fun _ => (local_lift _).bind fun _ => local_getShort.bind fun _ => ?_
  refine local_ite ?_ (local_pure _)
  exact local_getRemaining.bind fun _ => (local_lift _).bind fun _ => (local_get _).bind fun _ =>
    local_pure _

theorem LLDPOrganizationalTLV.local_deserialize : Local LLDPOrganizationalTLV.deserialize := by
  refine LLDPTLV.local_deserialize.bind fun _ => local_ite (local_pure _) ?_
  exact (local_lift _).bind fun _ => (local_lift _).bind fun _ => (local_lift _).bind fun _ =>
    local_pure _

theorem readTLVs_congr (length currentIndex : ℤ) (lldp : LLDP) {b b' : ReadBuffer}
    (hrest : b.rest = b'.rest) :
    readTLVs length currentIndex lldp b = readTLVs length currentIndex lldp b' := by
  induction hn : b.remaining using Nat.strong_induction_on generalizing currentIndex lldp b b' with
  | h n ih =>
    rw [readTLVs_eq, readTLVs_eq]
    congr 1
    funext _
    apply LLDPOrganizationalTLV.local_deserialize.bind_congr hrest
    intro tlv c c' hc hrest'
    split_ifs
    · rfl
    · exact ih _ (hn ▸ LLDPOrganizationalTLV.remaining_lt_of_deserialize hc) _ _ hrest' rfl

theorem deserializer_congr {data data' : List Byte} {offset length : ℤ}
    (hlength : data'.length = data.length)
    (hwindow : (data'.drop offset.toNat).take length.toNat =
      (data.drop offset.toNat).take length.toNat) :
    deserializer data' offset length = deserializer data offset length := by
  rw [deserializer, deserializer, checkInput, checkInput, hlength]
  congr 1
  funext _
  rw [wrap, wrap, hlength]
  split_ifs
  · exact readTLVs_congr length 0 _ hwindow
  · rfl

theorem reports_iff {data : List Byte} {offset length : ℤ} (harray : data.length < 2 ^ 31)
    (hlength : length < 2 ^ 31) :
    Ensures (deserializer data offset length) (fun _ => True) Checked ↔
      ¬ Overflows data.length offset length := by
  rw [deserializer, bind_opened]
  constructor
  · intro hensures hover
    rw [opened_of_overflows harray hlength hover hover.2.2.1] at hensures
    obtain ⟨c, hc⟩ := hensures.error rfl
    cases hc
  · intro h
    refine Ensures.bind_of ?_ ?_
    · intro e he
      exact (ensures_opened harray fun hover => h hover.1).error he
    · intro bb hbb
      exact ensures_readTLVs length 0 _ bb

end Totality

end LLDP

end LinkLayerDiscovery

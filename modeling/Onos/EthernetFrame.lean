import Onos.Packets

/-! Ethernet frames with their VLAN tags, and which of them can be duplicated. -/
namespace EthernetFrame

open ByteBuffer FallibleRun Packets WireBytes

def TYPE_VLAN : BitVec 16 := 0x8100

def TYPE_QINQ : BitVec 16 := 0x88a8

def VLAN_UNTAGGED : BitVec 16 := 0xffff

def ETHERTYPE_DESERIALIZER_MAP : List (BitVec 16) :=
  [0x806, 0x8035, 0x800, 0x86dd, 0x88cc, 0x8942, 0x8847, 0x8848, 0x888e, 0x8863, 0x8809]

structure Ethernet (P : Type) where
  destinationMACAddress : BitVec 48
  sourceMACAddress : BitVec 48
  priorityCode : Byte
  qInQPriorityCode : Byte
  vlanID : BitVec 16
  qinqVID : BitVec 16
  qinqTPID : BitVec 16
  etherType : BitVec 16
  pad : Bool
  payload : Option P
  deriving DecidableEq, Repr

structure IllegalStateException where
  cause : DeserializationException
  deriving DecidableEq, Repr

namespace Ethernet

section Frames

variable {P R : Type}

def tci (priorityCode : Byte) (vlanID : BitVec 16) : BitVec 16 :=
  priorityCode.signExtend 16 <<< 13 ||| vlanID &&& 0x0fff

def priorityOf (tci : BitVec 16) : Byte := (tci.sshiftRight 13 &&& 0x7).setWidth 8

def vlanOf (tci : BitVec 16) : BitVec 16 := tci &&& 0x0fff

def outerTag (e : Ethernet P) : List (List Byte) :=
  if e.qinqVID = VLAN_UNTAGGED then []
  else [short e.qinqTPID, short (tci e.qInQPriorityCode e.qinqVID)]

def innerTag (e : Ethernet P) : List (List Byte) :=
  if e.vlanID = VLAN_UNTAGGED then []
  else [short TYPE_VLAN, short (tci e.priorityCode e.vlanID)]

/-- What is put into the buffer before the payload, one put after the other. -/
def header (e : Ethernet P) : List (List Byte) :=
  [macAddress e.destinationMACAddress, macAddress e.sourceMACAddress] ++ e.outerTag ++ e.innerTag ++
    [short e.etherType]

def write (e : Ethernet P) (payloadData : Option (List Byte)) : Result (Ethernet P × List Byte) := do
  let length := intOf (14 + (if e.vlanID = VLAN_UNTAGGED then 0 else 4) +
    (if e.qinqVID = VLAN_UNTAGGED then 0 else 4) + (payloadData.getD []).length)
  let length := if e.pad ∧ length < 60 then 60 else length
  return (e, ← fillNew length (e.header ++ payloadData.toList))

def serialize [IPacket P] (e : Ethernet P) : Result (Ethernet P × List Byte) := do
  let (payload, payloadData) ← serializePayload .other e.payload
  { e with payload := payload }.write payloadData

def readQinQ (length : ℤ) (eth : Ethernet P) (ethType : BitVec 16) :
    Reader DeserializationException (Ethernet P × BitVec 16) := do
  if ethType = TYPE_QINQ then
    checkHeaderLength length 22
    let tci ← getShort
    let ethType ← getShort
    return ({ eth with
      qInQPriorityCode := priorityOf tci
      qinqVID := vlanOf tci
      qinqTPID := TYPE_QINQ }, ethType)
  else return (eth, ethType)

def readVlan (length : ℤ) (eth : Ethernet P) (ethType : BitVec 16) :
    Reader DeserializationException (Ethernet P × BitVec 16) := do
  if ethType = TYPE_VLAN then
    checkHeaderLength length 18
    let tci ← getShort
    let eth := { eth with priorityCode := priorityOf tci, vlanID := vlanOf tci }
    let ethType ← getShort
    if ethType = TYPE_VLAN then
      checkHeaderLength length 18
      let innerTci ← getShort
      let ethType ← getShort
      return ({ eth with
        qInQPriorityCode := eth.priorityCode
        qinqVID := eth.vlanID
        qinqTPID := TYPE_VLAN
        priorityCode := priorityOf innerTci
        vlanID := vlanOf innerTci }, ethType)
    else return (eth, ethType)
  else return ({ eth with vlanID := VLAN_UNTAGGED }, ethType)

def untagged (destinationMACAddress sourceMACAddress : BitVec 48) : Ethernet P where
  destinationMACAddress := destinationMACAddress
  sourceMACAddress := sourceMACAddress
  priorityCode := 0
  qInQPriorityCode := 0
  vlanID := VLAN_UNTAGGED
  qinqVID := VLAN_UNTAGGED
  qinqTPID := TYPE_QINQ
  etherType := 0
  pad := false
  payload := none

def read (registered : BitVec 16 → List Byte → ℤ → ℤ → Result R) (data : List Byte) (length : ℤ) :
    Reader DeserializationException (Ethernet (Payload R)) := do
  let destinationMACAddress ← getMacAddress
  let sourceMACAddress ← getMacAddress
  let ethType ← getShort
  let eth : Ethernet (Payload R) := untagged destinationMACAddress sourceMACAddress
  let (eth, ethType) ← readQinQ length eth ethType
  let (eth, ethType) ← readVlan length eth ethType
  let bb ← StateT.get
  let payload ← payloadOf (ethType ∈ ETHERTYPE_DESERIALIZER_MAP) (registered ethType) data
    bb.position bb.remaining
  return { eth with etherType := ethType, payload := some payload }

def deserializer (registered : BitVec 16 → List Byte → ℤ → ℤ → Result R) (data : List Byte)
    (offset length : ℤ) : Result (Ethernet (Payload R)) := do
  checkInput data offset length 14
  let bb ← wrap data offset length
  (read registered data length).run' bb

def duplicate [IPacket R] (registered : BitVec 16 → List Byte → ℤ → ℤ → Result R)
    (e : Ethernet (Payload R)) : Except (Thrown IllegalStateException) (Ethernet (Payload R)) :=
  Except.mapError (Thrown.map IllegalStateException.mk) (do
    let (_, data) ← e.serialize
    deserializer registered data 0 data.length)

def equals (e q : Ethernet P) : Prop := { e with qinqTPID := q.qinqTPID } = q

end Frames

section Tags

variable {P : Type}

theorem toNat_tci {priorityCode : Byte} (vlanID : BitVec 16) (h : priorityCode.toNat < 8) :
    (tci priorityCode vlanID).toNat = priorityCode.toNat * 2 ^ 13 + vlanID.toNat % 2 ^ 12 := by
  have hvlan : (vlanID &&& 0x0fff).toNat = vlanID.toNat % 2 ^ 12 :=
    toNat_and_mask (m := 12) vlanID (by decide)
  have hextend : (priorityCode.signExtend 16).toNat = priorityCode.toNat := by
    rw [BitVec.signExtend_eq_setWidth_of_msb_false, BitVec.toNat_setWidth]
    · omega
    · rw [BitVec.msb_eq_false_iff_two_mul_lt]
      omega
  have hshift : (priorityCode.signExtend 16 <<< 13).toNat = priorityCode.toNat * 2 ^ 13 := by
    rw [BitVec.toNat_shiftLeft, hextend, Nat.shiftLeft_eq]
    omega
  rw [tci, toNat_or_of_dvd (k := 13) (by omega) (by omega), hshift, hvlan]

theorem priorityOf_tci {priorityCode : Byte} (vlanID : BitVec 16) (h : priorityCode.toNat < 8) :
    priorityOf (tci priorityCode vlanID) = priorityCode := by
  have hmid : ((tci priorityCode vlanID).sshiftRight 13 &&& 0x7).toNat =
      (tci priorityCode vlanID).toNat / 2 ^ 13 % 8 := toNat_shift_and_mask (m := 3) _ (by decide)
  apply BitVec.eq_of_toNat_eq
  rw [priorityOf, BitVec.toNat_setWidth, hmid, toNat_tci vlanID h]
  omega

theorem vlanOf_tci {priorityCode : Byte} {vlanID : BitVec 16} (h : priorityCode.toNat < 8)
    (hvlan : vlanID.toNat < 4096) : vlanOf (tci priorityCode vlanID) = vlanID := by
  have hlow : (tci priorityCode vlanID &&& 0x0fff).toNat =
      (tci priorityCode vlanID).toNat % 2 ^ 12 := toNat_and_mask (m := 12) _ (by decide)
  apply BitVec.eq_of_toNat_eq
  rw [vlanOf, hlow, toNat_tci vlanID h]
  omega

theorem checkHeaderLength_of_le {givenLength requiredLength : ℤ} (h : requiredLength ≤ givenLength) :
    checkHeaderLength givenLength requiredLength = .ok () := by
  rw [checkHeaderLength, if_neg (by omega)]

variable {length : ℤ} (eth : Ethernet P) {ethType : BitVec 16} (t u next : BitVec 16)
  (before rest : List Byte)

theorem readQinQ_other (h : ethType ≠ TYPE_QINQ) (b : ReadBuffer) :
    readQinQ length eth ethType b = .ok ((eth, ethType), b) := by
  rw [readQinQ, if_neg h]
  rfl

theorem readQinQ_tag (h : 22 ≤ length) :
    readQinQ length eth TYPE_QINQ ⟨before, short t ++ (short next ++ rest), []⟩ =
      .ok (({ eth with
        qInQPriorityCode := priorityOf t
        qinqVID := vlanOf t
        qinqTPID := TYPE_QINQ }, next), ⟨before ++ short t ++ short next, rest, []⟩) := by
  rw [readQinQ, if_pos rfl, checkHeaderLength_of_le h]
  simp only [bind_apply, liftM_ok_apply, Except.bind, getShort_append, pure_apply]

theorem readQinQ_short (hshort : length < 22) (b : ReadBuffer)
    (r : (Ethernet P × BitVec 16) × ReadBuffer) : readQinQ length eth TYPE_QINQ b ≠ .ok r := by
  rw [readQinQ, if_pos rfl, checkHeaderLength, if_pos hshort]
  intro h
  cases h

theorem readVlan_other (h : ethType ≠ TYPE_VLAN) (b : ReadBuffer) :
    readVlan length eth ethType b = .ok (({ eth with vlanID := VLAN_UNTAGGED }, ethType), b) := by
  rw [readVlan, if_neg h]
  rfl

theorem readVlan_single (h : 18 ≤ length) (hnext : next ≠ TYPE_VLAN) :
    readVlan length eth TYPE_VLAN ⟨before, short t ++ (short next ++ rest), []⟩ =
      .ok (({ eth with priorityCode := priorityOf t, vlanID := vlanOf t }, next),
        ⟨before ++ short t ++ short next, rest, []⟩) := by
  rw [readVlan, if_pos rfl, checkHeaderLength_of_le h]
  simp only [bind_apply, liftM_ok_apply, Except.bind, getShort_append, if_neg hnext, pure_apply]

theorem readVlan_double (h : 18 ≤ length) : readVlan length eth TYPE_VLAN
      ⟨before, short t ++ (short TYPE_VLAN ++ (short u ++ (short next ++ rest))), []⟩ =
      .ok (({ eth with
        qInQPriorityCode := priorityOf t
        qinqVID := vlanOf t
        qinqTPID := TYPE_VLAN
        priorityCode := priorityOf u
        vlanID := vlanOf u }, next),
        ⟨before ++ short t ++ short TYPE_VLAN ++ short u ++ short next, rest, []⟩) := by
  rw [readVlan, if_pos rfl, checkHeaderLength_of_le h]
  simp only [bind_apply, liftM_ok_apply, Except.bind, getShort_append, if_true, pure_apply]

end Tags

section Duplicates

variable {R : Type} (registered : BitVec 16 → List Byte → ℤ → ℤ → Result R)
  {e : Ethernet (Payload R)} {payload : List Byte}

/-- A frame without padding, with tags in their ranges and plain data in it. -/
structure Proper (e : Ethernet (Payload R)) (payload : List Byte) : Prop where
  pad : e.pad = false
  data : e.payload = some (.inl ⟨payload⟩)
  priorityCode : e.priorityCode.toNat < 8
  qInQPriorityCode : e.qInQPriorityCode.toNat < 8
  vlanID : e.vlanID = VLAN_UNTAGGED ∨ e.vlanID.toNat < 4096
  qinqVID : e.qinqVID = VLAN_UNTAGGED ∨ e.qinqVID.toNat < 4096
  qinqTPID : e.qinqTPID = TYPE_VLAN ∨ e.qinqTPID = TYPE_QINQ
  etherType : e.etherType ≠ TYPE_VLAN ∧ e.etherType ≠ TYPE_QINQ
  unregistered : e.etherType ∉ ETHERTYPE_DESERIALIZER_MAP

/-- The duplicate is there, and is an exact copy, with the type of an outer tag. -/
def Duplicates [IPacket R] (e : Ethernet (Payload R)) : Prop :=
  ∃ q, e.duplicate registered = .ok q ∧ e.equals q ∧
    (e.qinqVID ≠ VLAN_UNTAGGED → q.qinqTPID = e.qinqTPID)

def frameLength (e : Ethernet (Payload R)) (payload : List Byte) : ℕ :=
  14 + (if e.vlanID = VLAN_UNTAGGED then 0 else 4) + (if e.qinqVID = VLAN_UNTAGGED then 0 else 4) +
    payload.length

theorem length_frame (e : Ethernet (Payload R)) (payload : List Byte) :
    (e.header.flatten ++ payload).length = e.frameLength payload := by
  rw [header, outerTag, innerTag, frameLength]
  split_ifs <;> simp <;> omega

theorem write_plain (h : e.Proper payload) : e.write (some payload) =
    (fillNew (intOf (e.frameLength payload)) (e.header ++ [payload])).bind fun data =>
      .ok (e, data) := by
  have hsize : intOf (14 + (if e.vlanID = VLAN_UNTAGGED then 0 else 4) +
      (if e.qinqVID = VLAN_UNTAGGED then 0 else 4) + ((some payload).getD []).length) =
        intOf (e.frameLength payload) := by
    rw [frameLength]
    split_ifs <;> simp
  have hpad : ¬ (e.pad = true ∧ intOf (e.frameLength payload) < 60) := by
    rw [h.pad]
    simp
  rw [write, hsize]
  simp only [if_neg hpad]
  rfl

theorem serialize_plain [IPacket R] (h : e.Proper payload) :
    e.serialize = (fillNew (intOf (e.frameLength payload)) (e.header ++ [payload])).bind fun data =>
      .ok (e, data) := by
  rw [← write_plain h, serialize, h.data]
  change ({ e with payload := some (Sum.inl (Data.mk payload)) } : Ethernet (Payload R)).write
    (some payload) = _
  rw [← h.data]

theorem flatten_frame (e : Ethernet (Payload R)) (payload : List Byte) :
    (e.header ++ [payload]).flatten = e.header.flatten ++ payload := by
  rw [List.flatten_append, List.flatten_singleton]

variable {q : Ethernet (Payload R)}

theorem duplicate_iff [IPacket R] (h : e.Proper payload) :
    e.duplicate registered = .ok q ↔ e.frameLength payload < 2 ^ 31 ∧
      ∃ b, read registered (e.header.flatten ++ payload) (e.header.flatten ++ payload).length
        ⟨[], e.header.flatten ++ payload, []⟩ = .ok (q, b) := by
  rw [duplicate, mapError_eq_ok, serialize_plain h]
  have hframe := length_frame e payload
  by_cases hlen : e.frameLength payload < 2 ^ 31
  · have hfill : (fillNew (intOf (e.frameLength payload)) (e.header ++ [payload]) : Result _) =
        .ok (e.header.flatten ++ payload) := by
      rw [intOf_of_lt (by omega) (by omega), fillNew_exact, flatten_frame]
      rw [flatten_frame, hframe]
    have hfourteen : 14 ≤ e.frameLength payload := by
      rw [frameLength]
      omega
    rw [hfill]
    change deserializer registered (e.header.flatten ++ payload) 0
      (e.header.flatten ++ payload).length = .ok q ↔ _
    rw [deserializer, deserialize_whole _ (by decide) (by omega) (by omega)]
    constructor
    · intro hread
      exact ⟨hlen, run'_eq_ok hread⟩
    · rintro ⟨-, b, hread⟩
      exact run'_of_ok hread
  · constructor
    · intro hok
      obtain ⟨r, hwrite, -⟩ := bind_eq_ok.mp hok
      obtain ⟨data, hfill, -⟩ := bind_eq_ok.mp hwrite
      refine absurd hfill (fillNew_of_lt ?_ data)
      rw [flatten_frame, hframe]
      -- The int that overflowed is less than the length.
      have hbound : intOf (e.frameLength payload) < 2 ^ 31 := by
        have := Int.bmod_lt (x := (e.frameLength payload : ℤ)) (m := 2 ^ 32) (by decide)
        rw [intOf]
        omega
      omega
    · rintro ⟨hint, -⟩
      exact absurd hint hlen

variable {b : ReadBuffer}

theorem read_payload {d s : BitVec 48} {first second etherType : BitVec 16}
    {outer inner : Ethernet (Payload R)} {data tags before : List Byte}
    {content : Payload R} (hflat : data = macAddress d ++ (macAddress s ++ (short first ++ tags)))
    (houter : readQinQ data.length (untagged d s) first
      ⟨macAddress d ++ macAddress s ++ short first, tags, []⟩ = .ok ((outer, second), b))
    (hinner : readVlan data.length outer second b = .ok ((inner, etherType), ⟨before, payload, []⟩))
    (hcontent : payloadOf (etherType ∈ ETHERTYPE_DESERIALIZER_MAP) (registered etherType) data
      before.length payload.length = .ok content) :
    read registered data data.length ⟨[], data, []⟩ =
      .ok ({ inner with etherType := etherType, payload := some content },
        ⟨before, payload, []⟩) := by
  have hstart : (⟨[], data, []⟩ : ReadBuffer) =
      ⟨[], macAddress d ++ (macAddress s ++ (short first ++ tags)), []⟩ := by rw [hflat]
  rw [hstart]
  simp only [read, bind_apply, getMacAddress_append, getShort_append, Except.bind, List.nil_append,
    houter, hinner, get_state_apply, ReadBuffer.position, ReadBuffer.remaining]
  rw [lift_of_ok hcontent]
  rfl

variable {registered}

theorem duplicates_of_read [IPacket R] (h : e.Proper payload)
    (hlen : e.frameLength payload < 2 ^ 31)
    (hread : read registered (e.header.flatten ++ payload) (e.header.flatten ++ payload).length
      ⟨[], e.header.flatten ++ payload, []⟩ = .ok (q, b)) : Duplicates registered e ↔
        e.equals q ∧ (e.qinqVID ≠ VLAN_UNTAGGED → q.qinqTPID = e.qinqTPID) := by
  constructor
  · rintro ⟨q', hdup, hcopy⟩
    obtain ⟨-, b', hread'⟩ := (duplicate_iff registered h).mp hdup
    rw [hread] at hread'
    cases hread'
    exact hcopy
  · intro hcopy
    exact ⟨q, (duplicate_iff registered h).mpr ⟨hlen, b, hread⟩, hcopy⟩

theorem equals_iff : e.equals q ↔
    e.destinationMACAddress = q.destinationMACAddress ∧ e.sourceMACAddress = q.sourceMACAddress ∧
    e.priorityCode = q.priorityCode ∧ e.qInQPriorityCode = q.qInQPriorityCode ∧
    e.vlanID = q.vlanID ∧ e.qinqVID = q.qinqVID ∧ e.etherType = q.etherType ∧ e.pad = q.pad ∧
    e.payload = q.payload := by
  cases e
  cases q
  simp [equals]

structure Tagged (e : Ethernet (Payload R)) : Prop where
  qinqTPID : e.qinqVID ≠ VLAN_UNTAGGED → e.qinqTPID = TYPE_VLAN ∨ e.qinqTPID = TYPE_QINQ
  etherType : e.etherType ≠ TYPE_VLAN ∧ e.etherType ≠ TYPE_QINQ

/-- The tags as they are read: a single one of the plain type is an inner one. -/
def readBack (e : Ethernet (Payload R)) (content : Payload R) : Ethernet (Payload R) :=
  let eth : Ethernet (Payload R) := untagged e.destinationMACAddress e.sourceMACAddress
  let eth := { eth with etherType := e.etherType, payload := some content }
  if e.qinqVID = VLAN_UNTAGGED then
    if e.vlanID = VLAN_UNTAGGED then eth
    else { eth with
      priorityCode := priorityOf (tci e.priorityCode e.vlanID)
      vlanID := vlanOf (tci e.priorityCode e.vlanID) }
  else if e.vlanID = VLAN_UNTAGGED ∧ e.qinqTPID = TYPE_VLAN then
    { eth with
      priorityCode := priorityOf (tci e.qInQPriorityCode e.qinqVID)
      vlanID := vlanOf (tci e.qInQPriorityCode e.qinqVID) }
  else
    let eth := { eth with
      qInQPriorityCode := priorityOf (tci e.qInQPriorityCode e.qinqVID)
      qinqVID := vlanOf (tci e.qInQPriorityCode e.qinqVID)
      qinqTPID := e.qinqTPID }
    if e.vlanID = VLAN_UNTAGGED then eth
    else { eth with
      priorityCode := priorityOf (tci e.priorityCode e.vlanID)
      vlanID := vlanOf (tci e.priorityCode e.vlanID) }

theorem read_header {content : Payload R} (h : e.Tagged) (hroom : e.vlanID = VLAN_UNTAGGED →
      e.qinqVID ≠ VLAN_UNTAGGED → e.qinqTPID = TYPE_QINQ → 4 ≤ payload.length)
    (hcontent : payloadOf (e.etherType ∈ ETHERTYPE_DESERIALIZER_MAP) (registered e.etherType)
      (e.header.flatten ++ payload) e.header.flatten.length payload.length = .ok content) :
    ∃ b, read registered (e.header.flatten ++ payload) (e.header.flatten ++ payload).length
      ⟨[], e.header.flatten ++ payload, []⟩ = .ok (e.readBack content, b) := by
  have hlength := length_frame e payload
  have hdiffer : TYPE_QINQ ≠ TYPE_VLAN := by decide
  by_cases hinner : e.vlanID = VLAN_UNTAGGED <;> by_cases houter : e.qinqVID = VLAN_UNTAGGED
  · have hheader : e.header.flatten = macAddress e.destinationMACAddress ++
        macAddress e.sourceMACAddress ++ short e.etherType := by
      simp [header, outerTag, innerTag, hinner, houter]
    have hflat : e.header.flatten ++ payload = macAddress e.destinationMACAddress ++
        (macAddress e.sourceMACAddress ++ (short e.etherType ++ payload)) := by
      rw [hheader]
      simp only [List.append_assoc]
    have hread := read_payload registered hflat (readQinQ_other _ h.etherType.2 _)
      (readVlan_other _ h.etherType.1 _) (by rw [← hheader]; exact hcontent)
    simp only [readBack, if_pos houter, if_pos hinner]
    exact ⟨_, hread⟩
  · have hheader : e.header.flatten = macAddress e.destinationMACAddress ++
        macAddress e.sourceMACAddress ++ short e.qinqTPID ++
          short (tci e.qInQPriorityCode e.qinqVID) ++ short e.etherType := by
      simp [header, outerTag, innerTag, hinner, houter]
    have hflat : e.header.flatten ++ payload = macAddress e.destinationMACAddress ++
        (macAddress e.sourceMACAddress ++ (short e.qinqTPID ++
          (short (tci e.qInQPriorityCode e.qinqVID) ++ (short e.etherType ++ payload)))) := by
      rw [hheader]
      simp only [List.append_assoc]
    have heighteen : e.frameLength payload = 18 + payload.length := by
      rw [frameLength, if_pos hinner, if_neg houter]
    cases h.qinqTPID houter with
    | inl htype =>
      rw [htype] at hheader hflat
      have hread := read_payload registered hflat (readQinQ_other _ (by decide) _)
        (readVlan_single _ _ _ _ _ (by omega) h.etherType.1) (by rw [← hheader]; exact hcontent)
      simp only [readBack, if_neg houter, if_pos (And.intro hinner htype)]
      exact ⟨_, hread⟩
    | inr htype =>
      have hfour := hroom hinner houter htype
      rw [htype] at hheader hflat
      have hread := read_payload registered hflat (readQinQ_tag _ _ _ _ _ (by omega))
        (readVlan_other _ h.etherType.1 _) (by rw [← hheader]; exact hcontent)
      simp only [readBack, if_neg houter, htype, if_neg fun hlone : _ ∧ _ => hdiffer hlone.2,
        if_pos hinner]
      exact ⟨_, hread⟩
  · have hheader : e.header.flatten = macAddress e.destinationMACAddress ++
        macAddress e.sourceMACAddress ++ short TYPE_VLAN ++
          short (tci e.priorityCode e.vlanID) ++ short e.etherType := by
      simp [header, outerTag, innerTag, hinner, houter]
    have hflat : e.header.flatten ++ payload = macAddress e.destinationMACAddress ++
        (macAddress e.sourceMACAddress ++ (short TYPE_VLAN ++
          (short (tci e.priorityCode e.vlanID) ++ (short e.etherType ++ payload)))) := by
      rw [hheader]
      simp only [List.append_assoc]
    have heighteen : e.frameLength payload = 18 + payload.length := by
      rw [frameLength, if_neg hinner, if_pos houter]
    have hread := read_payload registered hflat (readQinQ_other _ (by decide) _)
      (readVlan_single _ _ _ _ _ (by omega) h.etherType.1) (by rw [← hheader]; exact hcontent)
    simp only [readBack, if_pos houter, if_neg hinner]
    exact ⟨_, hread⟩
  · have hheader : e.header.flatten = macAddress e.destinationMACAddress ++
        macAddress e.sourceMACAddress ++ short e.qinqTPID ++
          short (tci e.qInQPriorityCode e.qinqVID) ++ short TYPE_VLAN ++
            short (tci e.priorityCode e.vlanID) ++ short e.etherType := by
      simp [header, outerTag, innerTag, hinner, houter]
    have hflat : e.header.flatten ++ payload = macAddress e.destinationMACAddress ++
        (macAddress e.sourceMACAddress ++ (short e.qinqTPID ++
          (short (tci e.qInQPriorityCode e.qinqVID) ++ (short TYPE_VLAN ++
            (short (tci e.priorityCode e.vlanID) ++ (short e.etherType ++ payload)))))) := by
      rw [hheader]
      simp only [List.append_assoc]
    have htwo : e.frameLength payload = 22 + payload.length := by
      rw [frameLength, if_neg hinner, if_neg houter]
    cases h.qinqTPID houter with
    | inl htype =>
      rw [htype] at hheader hflat
      have hread := read_payload registered hflat (readQinQ_other _ (by decide) _)
        (readVlan_double _ _ _ _ _ _ (by omega)) (by rw [← hheader]; exact hcontent)
      simp only [readBack, if_neg houter, if_neg fun hlone : _ ∧ _ => hinner hlone.1, if_neg hinner, htype]
      exact ⟨_, hread⟩
    | inr htype =>
      rw [htype] at hheader hflat
      have hread := read_payload registered hflat (readQinQ_tag _ _ _ _ _ (by omega))
        (readVlan_single _ _ _ _ _ (by omega) h.etherType.1) (by rw [← hheader]; exact hcontent)
      simp only [readBack, if_neg houter, if_neg fun hlone : _ ∧ _ => hinner hlone.1, if_neg hinner, htype]
      exact ⟨_, hread⟩

theorem duplicates_iff_equals [IPacket R] (h : e.Proper payload)
    (hlen : e.frameLength payload < 2 ^ 31) (hroom : e.vlanID = VLAN_UNTAGGED →
      e.qinqVID ≠ VLAN_UNTAGGED → e.qinqTPID = TYPE_QINQ → 4 ≤ payload.length) :
    Duplicates registered e ↔ e.equals (e.readBack (.inl ⟨payload⟩)) ∧
      (e.qinqVID ≠ VLAN_UNTAGGED → (e.readBack (.inl ⟨payload⟩)).qinqTPID = e.qinqTPID) := by
  have hcontent : payloadOf (e.etherType ∈ ETHERTYPE_DESERIALIZER_MAP) (registered e.etherType)
      (e.header.flatten ++ payload) e.header.flatten.length payload.length =
        .ok (.inl ⟨payload⟩) := by
    rw [decide_eq_false h.unregistered]
    apply payloadOf_plain
    rwa [length_frame]
  obtain ⟨b, hread⟩ := read_header ⟨fun _ => h.qinqTPID, h.etherType⟩ hroom hcontent
  exact duplicates_of_read h hlen hread

theorem not_duplicates_of_short [IPacket R] (h : e.Proper payload)
    (hinner : e.vlanID = VLAN_UNTAGGED) (houter : e.qinqVID ≠ VLAN_UNTAGGED)
    (htype : e.qinqTPID = TYPE_QINQ) (hshort : payload.length < 4) : ¬ Duplicates registered e := by
  rintro ⟨q, hdup, -⟩
  obtain ⟨-, b, hread⟩ := (duplicate_iff registered h).mp hdup
  have hstart : (⟨[], e.header.flatten ++ payload, []⟩ : ReadBuffer) =
      ⟨[], macAddress e.destinationMACAddress ++ (macAddress e.sourceMACAddress ++
        (short TYPE_QINQ ++ (short (tci e.qInQPriorityCode e.qinqVID) ++
          (short e.etherType ++ payload)))), []⟩ := by
    simp [header, outerTag, innerTag, hinner, houter, htype]
  have hlength := length_frame e payload
  have heighteen : e.frameLength payload = 18 + payload.length := by
    rw [frameLength, if_pos hinner, if_neg houter]
  rw [hstart] at hread
  obtain ⟨d, b₁, hd, hread⟩ := bind_apply_eq_ok hread
  rw [getMacAddress_append] at hd
  cases hd
  obtain ⟨s, b₂, hs, hread⟩ := bind_apply_eq_ok hread
  rw [getMacAddress_append] at hs
  cases hs
  obtain ⟨first, b₃, hfirst, hread⟩ := bind_apply_eq_ok hread
  rw [getShort_append] at hfirst
  cases hfirst
  obtain ⟨r, b₄, htag, -⟩ := bind_apply_eq_ok hread
  exact absurd htag (readQinQ_short _ (by omega) _ _)

/-- Which frames can be duplicated exactly. -/
theorem duplicates_iff [IPacket R] (h : e.Proper payload) : Duplicates registered e ↔
    e.frameLength payload < 2 ^ 31 ∧
    (e.vlanID = VLAN_UNTAGGED → e.priorityCode = 0) ∧
    (e.qinqVID = VLAN_UNTAGGED → e.qInQPriorityCode = 0) ∧
    (e.qinqVID ≠ VLAN_UNTAGGED → e.vlanID = VLAN_UNTAGGED →
      e.qinqTPID = TYPE_QINQ ∧ 4 ≤ payload.length) := by
  by_cases hlen : e.frameLength payload < 2 ^ 31
  · rw [and_iff_right hlen]
    by_cases hroom : e.vlanID = VLAN_UNTAGGED → e.qinqVID ≠ VLAN_UNTAGGED →
        e.qinqTPID = TYPE_QINQ → 4 ≤ payload.length
    · rw [duplicates_iff_equals h hlen hroom, equals_iff]
      have hvlan := fun hinner => vlanOf_tci h.priorityCode (h.vlanID.resolve_left hinner)
      have hqinq := fun houter => vlanOf_tci h.qInQPriorityCode (h.qinqVID.resolve_left houter)
      have hdiffer : TYPE_QINQ ≠ TYPE_VLAN := by decide
      by_cases hinner : e.vlanID = VLAN_UNTAGGED <;> by_cases houter : e.qinqVID = VLAN_UNTAGGED
      · simp [readBack, untagged, h.pad, h.data, hinner, houter]
      · cases h.qinqTPID with
        | inl htype =>
          simp [readBack, untagged, hinner, houter, htype, hqinq houter, hdiffer.symm, Ne.symm houter]
        | inr htype =>
          simp [readBack, untagged, h.pad, h.data, hinner, houter, htype, hqinq houter, hdiffer,
            priorityOf_tci _ h.qInQPriorityCode, hroom hinner houter htype]
      · simp [readBack, untagged, h.pad, h.data, hinner, houter, hvlan hinner,
          priorityOf_tci _ h.priorityCode]
      · simp [readBack, untagged, h.pad, h.data, hinner, houter, hvlan hinner, hqinq houter,
          priorityOf_tci _ h.priorityCode, priorityOf_tci _ h.qInQPriorityCode]
    · obtain ⟨hinner, houter, htype, hshort⟩ : e.vlanID = VLAN_UNTAGGED ∧
          e.qinqVID ≠ VLAN_UNTAGGED ∧ e.qinqTPID = TYPE_QINQ ∧ payload.length < 4 := by
        simpa using hroom
      refine iff_of_false (not_duplicates_of_short h hinner houter htype hshort) ?_
      rintro ⟨-, -, hfour⟩
      exact absurd (hfour houter hinner).2 (by omega)
  · constructor
    · rintro ⟨q, hdup, -⟩
      exact absurd ((duplicate_iff registered h).mp hdup).1 hlen
    · rintro ⟨hint, -⟩
      exact absurd hint hlen

def outerTagged (qinqTPID : BitVec 16) : Ethernet (Payload Data) where
  destinationMACAddress := 0x112233445566
  sourceMACAddress := 0x665544332211
  priorityCode := 0
  qInQPriorityCode := 3
  vlanID := VLAN_UNTAGGED
  qinqVID := 100
  qinqTPID := qinqTPID
  etherType := 0x9000
  pad := false
  payload := some (.inl ⟨[1, 2, 3, 4]⟩)

theorem proper_outerTagged (qinqTPID : BitVec 16)
    (h : qinqTPID = TYPE_VLAN ∨ qinqTPID = TYPE_QINQ) :
    Proper (outerTagged qinqTPID) [1, 2, 3, 4] := by
  refine ⟨rfl, rfl, ?_, ?_, .inl rfl, .inr ?_, h, ?_, ?_⟩ <;> simp only [outerTagged] <;> decide

theorem duplicates_iff_outerTagged :
    Duplicates (fun _ => Data.deserializer) (outerTagged TYPE_QINQ) :=
  (duplicates_iff (proper_outerTagged TYPE_QINQ (.inr rfl))).mpr (by decide)

theorem outer_tag_lost : ¬ ∀ (e : Ethernet (Payload Data)) (payload : List Byte),
    e.Proper payload → Duplicates (fun _ => Data.deserializer) e := by
  intro h
  have hproper := proper_outerTagged TYPE_VLAN (.inl rfl)
  have hlen : (outerTagged TYPE_VLAN).frameLength [1, 2, 3, 4] < 2 ^ 31 := by decide
  have hcopy := ((duplicates_iff_equals hproper hlen (by decide)).mp (h _ _ hproper)).1
  exact absurd (equals_iff.mp hcopy).2.2.2.2.2.1 (by decide)

end Duplicates

section Carrying

variable {R : Type} {registered : BitVec 16 → List Byte → ℤ → ℤ → Result R}
  {e : Ethernet (Payload R)} {payload : List Byte} {content : Payload R}

theorem read_frame (h : e.Tagged) (hroom : 4 ≤ payload.length)
    (hcontent : payloadOf (e.etherType ∈ ETHERTYPE_DESERIALIZER_MAP) (registered e.etherType)
      (e.header.flatten ++ payload) e.header.flatten.length payload.length = .ok content) :
    ∃ q b, read registered (e.header.flatten ++ payload) (e.header.flatten ++ payload).length
      ⟨[], e.header.flatten ++ payload, []⟩ = .ok (q, b) ∧ q.etherType = e.etherType ∧
        q.payload = some content := by
  obtain ⟨b, hread⟩ := read_header h (fun _ _ _ => hroom) hcontent
  refine ⟨_, b, hread, ?_, ?_⟩
  · rw [readBack]
    split_ifs <;> rfl
  · rw [readBack]
    split_ifs <;> rfl

theorem write_padded (hint : e.frameLength payload < 2 ^ 31) : ∃ n ≤ 60, e.write (some payload) =
    .ok (e, e.header.flatten ++ (payload ++ List.replicate n 0)) := by
  have hsize : intOf (14 + (if e.vlanID = VLAN_UNTAGGED then 0 else 4) +
      (if e.qinqVID = VLAN_UNTAGGED then 0 else 4) + ((some payload).getD []).length) =
        e.frameLength payload := by
    rw [← intOf_of_lt (n := e.frameLength payload) (by omega) (by omega), frameLength]
    split_ifs <;> simp
  have hlength := length_frame e payload
  obtain ⟨size, hpadded⟩ : ∃ size : ℤ, (if e.pad = true ∧ (e.frameLength payload : ℤ) < 60 then 60
    else (e.frameLength payload : ℤ)) = size := ⟨_, rfl⟩
  have hle : ((e.header ++ [payload]).flatten.length : ℤ) ≤ size := by
    rw [flatten_frame, hlength, ← hpadded]
    split_ifs <;> omega
  have hfill := fillNew_of_le (χ := DeserializationException) hle
  rw [flatten_frame, hlength, List.append_assoc] at hfill
  refine ⟨size.toNat - e.frameLength payload, ?_, ?_⟩
  · rw [← hpadded]
    split_ifs <;> omega
  · rw [write, hsize]
    change (Except.bind (fillNew (if e.pad = true ∧ (e.frameLength payload : ℤ) < 60 then 60
      else (e.frameLength payload : ℤ)) (e.header ++ [payload])) _) = _
    rw [hpadded, hfill]
    rfl

theorem serialize_carrying [IPacket R] {packet packet' : R} (hpacket : e.payload = some (.inr packet))
    (hserialize : IPacket.serialize (some .other) packet = .ok (packet', payload)) :
    e.serialize = Ethernet.write { e with payload := some (Sum.inr packet') } (some payload) := by
  rw [serialize, hpacket, serializePayload]
  change (Except.bind (Except.map _ (Except.map _ (IPacket.serialize (some .other) packet))) _) = _
  rw [hserialize]
  rfl

theorem payload_of_deserializer {data : List Byte} {offset length : ℤ} {q : Ethernet (Payload R)}
    (h : deserializer registered data offset length = .ok q) : ∃ content, q.payload = some content ∧
      ∃ start size, payloadOf (q.etherType ∈ ETHERTYPE_DESERIALIZER_MAP) (registered q.etherType)
        data start size = .ok content := by
  obtain ⟨bb, b, hread⟩ := deserialized_from h
  obtain ⟨_, _, -, hread⟩ := bind_apply_eq_ok hread
  obtain ⟨_, _, -, hread⟩ := bind_apply_eq_ok hread
  obtain ⟨_, _, -, hread⟩ := bind_apply_eq_ok hread
  obtain ⟨_, _, -, hread⟩ := bind_apply_eq_ok hread
  obtain ⟨_, _, -, hread⟩ := bind_apply_eq_ok hread
  obtain ⟨_, _, -, hread⟩ := bind_apply_eq_ok hread
  obtain ⟨content, _, hcontent, hread⟩ := bind_apply_eq_ok hread
  cases hread
  exact ⟨content, rfl, _, _, ok_of_lift hcontent⟩

end Carrying

end Ethernet

end EthernetFrame

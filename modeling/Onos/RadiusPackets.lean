import Onos.KeyAgreement

/-! RADIUS packets, which count their own length, and the EAP messages that are cut up into their
attributes. -/
namespace RadiusPackets

open BufferReaders ByteBuffer FallibleRun
open KeyAgreement (getNew)
open Packets WireBytes

def HEADER_LENGTH : ℤ := 4

def REQUEST : Byte := 1

def RESPONSE : Byte := 2

def EAP_HDR_LEN_REQ_RESP : ℕ := 5

def EAP_HDR_LEN_SUC_FAIL : ℕ := 4

def RADIUS_MIN_LENGTH : BitVec 16 := 20

def MAX_ATTR_VALUE_LENGTH : ℕ := 253

def RADIUS_ATTR_EAP_MESSAGE : Byte := 79

structure EAP where
  code : Byte
  identifier : Byte
  length : BitVec 16
  type : Byte
  data : Option (List Byte)
  deriving DecidableEq, Repr

namespace EAP

def hasType (code : Byte) : Bool := code = REQUEST || code = RESPONSE

def headerLength (code : Byte) : ℕ :=
  if hasType code then EAP_HDR_LEN_REQ_RESP else EAP_HDR_LEN_SUC_FAIL

def new (code identifier type : Byte) (data : Option (List Byte)) : EAP where
  code
  identifier
  length := BitVec.ofNat 16 (headerLength code + data.elim 0 List.length)
  type := if hasType code then type else 0
  data

def chunks (e : EAP) : List (List Byte) :=
  [[e.code], [e.identifier], short e.length] ++ (if hasType e.code then [[e.type]] else []) ++
    e.data.toList

def serialize (e : EAP) : Result (List Byte) := fillNew e.length.toInt e.chunks

def readType (code : Byte) : Reader DeserializationException Byte :=
  if hasType code then getByte else pure 0

def read (length : ℤ) : Reader DeserializationException EAP := do
  let code ← getByte
  let identifier ← getByte
  let eapLength ← getShort
  checkHeaderLength length eapLength.toInt
  let type ← readType code
  let data ← getNew (eapLength.toInt - headerLength code)
  return ⟨code, identifier, eapLength, type, some data⟩

def deserializer (data : List Byte) (offset length : ℤ) : Result EAP := do
  checkInput data offset length HEADER_LENGTH
  let bb ← wrap data offset length
  (read length).run' bb

end EAP

structure RADIUSAttribute where
  type : Byte
  length : Byte
  value : List Byte
  deriving DecidableEq, Repr

structure RADIUS where
  code : Byte
  identifier : Byte
  length : BitVec 16
  authenticator : List Byte
  attributes : List RADIUSAttribute
  deriving DecidableEq, Repr

namespace RADIUS

def new (code identifier : Byte) : RADIUS :=
  ⟨code, identifier, RADIUS_MIN_LENGTH, List.replicate 16 0, []⟩

def attributeOf (attrType : Byte) (value : List Byte) : RADIUSAttribute :=
  ⟨attrType, BitVec.ofNat 8 (value.length + 2), value⟩

def setAttribute (p : RADIUS) (attrType : Byte) (value : List Byte) : RADIUS :=
  let newAttribute := attributeOf attrType value
  { p with
    attributes := p.attributes ++ [newAttribute]
    length := p.length + newAttribute.length.setWidth 16 }

/-- The first attribute of the type takes the value; nothing changes when there is none. -/
def updateAttribute (p : RADIUS) (attrType : Byte) (value : List Byte) : RADIUS :=
  let newAttr := attributeOf attrType value
  match p.attributes.findIdx? fun attr => attr.type = attrType with
  | none => p
  | some i => { p with
      attributes := p.attributes.set i newAttr
      length := p.length - (p.attributes[i]?.elim 0 RADIUSAttribute.length).setWidth 16 +
        newAttr.length.setWidth 16 }

/-- What a round of the loop adds. Here the length does not go through a byte. -/
def addSegment (p : RADIUS) (messageAttributeData : List Byte) : RADIUS :=
  { p with
    attributes := p.attributes ++ [attributeOf RADIUS_ATTR_EAP_MESSAGE messageAttributeData]
    length := p.length + (BitVec.ofNat 8 messageAttributeData.length).setWidth 16 + 2 }

/-- At most so many rounds of the loop, each with what is left of the length. -/
def addSegments : ℕ → RADIUS → BitVec 16 → ReadBuffer → Option (Result RADIUS)
  | 0, _, _, _ => none
  | rounds + 1, p, remainingLength, bb =>
    if bb.hasRemaining then
      if MAX_ATTR_VALUE_LENGTH < remainingLength.toInt then
        match getNew MAX_ATTR_VALUE_LENGTH bb with
        | .error e => some (.error e)
        | .ok (messageAttributeData, bb) => addSegments rounds (p.addSegment messageAttributeData)
            (remainingLength - BitVec.ofNat 16 MAX_ATTR_VALUE_LENGTH) bb
      else match getNew remainingLength.toInt bb with
        | .error e => some (.error e)
        | .ok (messageAttributeData, bb) =>
          addSegments rounds (p.addSegment messageAttributeData) remainingLength bb
    else some (.ok p)

def encapsulateMessage (rounds : ℕ) (p : RADIUS) (message : EAP) : Option (Result RADIUS) :=
  if message.length.toInt ≤ MAX_ATTR_VALUE_LENGTH then
    some (message.serialize.map (p.setAttribute RADIUS_ATTR_EAP_MESSAGE))
  else match message.serialize with
    | .error e => some (.error e)
    | .ok messageBuffer => addSegments rounds p message.length ⟨[], messageBuffer, []⟩

def getAttributeList (p : RADIUS) (attrType : Byte) : List RADIUSAttribute :=
  p.attributes.filter fun attr => attr.type = attrType

def messageStream (p : RADIUS) : List Byte :=
  (p.getAttributeList RADIUS_ATTR_EAP_MESSAGE).flatMap RADIUSAttribute.value

def decapsulateMessage (p : RADIUS) : Result EAP :=
  EAP.deserializer p.messageStream 0 p.messageStream.length

end RADIUS

def readAttribute : Reader DeserializationException RADIUSAttribute := do
  let type ← getByte
  let length ← getByte
  let value ← getNew (length.toNat - 2)
  return ⟨type, length, value⟩

theorem getNew_eq_ok {n : ℤ} {b b' : ReadBuffer} {bs : List Byte} (h : getNew n b = .ok (bs, b')) :
    (bs.length : ℤ) = n ∧ b.rest = bs ++ b'.rest := by
  rw [getNew] at h
  split_ifs at h with hneg
  · cases h
  · have hlen := length_of_get h
    rw [ByteBuffer.get] at h
    split_ifs at h
    cases h
    exact ⟨by omega, (List.take_append_drop _ _).symm⟩

theorem getNew_of_le {n : ℕ} {b : ReadBuffer} (h : n ≤ b.remaining) :
    getNew n b = .ok (b.rest.take n, b.advance n) := by
  rw [getNew, if_neg (by omega), Int.toNat_natCast, ByteBuffer.get, if_pos h]

theorem getNew_append {n : ℤ} (before xs ys beyond : List Byte) (h : n = xs.length) :
    getNew n ⟨before, xs ++ ys, beyond⟩ = .ok (xs, ⟨before ++ xs, ys, beyond⟩) := by
  rw [getNew, if_neg (by omega)]
  exact get_of_length before xs ys beyond (by omega)

theorem remaining_lt_of_readAttribute {b b' : ReadBuffer} {attr : RADIUSAttribute}
    (h : readAttribute b = .ok (attr, b')) : b'.remaining < b.remaining := by
  obtain ⟨type, b₁, htype, h⟩ := bind_apply_eq_ok h
  obtain ⟨length, b₂, hlength, h⟩ := bind_apply_eq_ok h
  obtain ⟨value, b₃, hvalue, h⟩ := bind_apply_eq_ok h
  cases h
  have hread := congrArg List.length (getNew_eq_ok hvalue).2
  obtain ⟨before, rest, beyond⟩ := b
  obtain _ | ⟨x, _ | ⟨y, rest⟩⟩ := rest
  · cases htype
  · cases htype
    cases hlength
  · cases htype
    cases hlength
    simp only [List.length_append] at hread
    simp only [ReadBuffer.remaining, List.length_cons]
    omega

def readAttributes (attributes : List RADIUSAttribute) (remainingLength : ℤ) (bb : ReadBuffer) :
    Result (List RADIUSAttribute) :=
  if 0 < remainingLength ∧ bb.hasRemaining then
    match _h : readAttribute bb with
    | .error e => .error e
    | .ok (attr, bb') => readAttributes (attributes ++ [attr]) (remainingLength - attr.length.toNat) bb'
  else .ok attributes
termination_by bb.remaining
decreasing_by exact remaining_lt_of_readAttribute _h

namespace RADIUS

def readHeader (length : ℤ) : Reader DeserializationException RADIUS := do
  let code ← getByte
  let identifier ← getByte
  let radiusLength ← getShort
  let authenticator ← get 16
  checkHeaderLength length radiusLength.toInt
  return ⟨code, identifier, radiusLength, authenticator, []⟩

def deserializer (data : List Byte) (offset length : ℤ) : Result RADIUS := do
  checkInput data offset length RADIUS_MIN_LENGTH.toInt
  let bb ← wrap data offset length
  let (radius, bb) ← readHeader length bb
  let attributes ← readAttributes [] (radius.length.toInt - RADIUS_MIN_LENGTH.toInt) bb
  return { radius with attributes }

def chunks (p : RADIUS) : List (List Byte) :=
  [[p.code], [p.identifier], short p.length, p.authenticator] ++
    p.attributes.flatMap fun attr => [[attr.type], [attr.length], attr.value]

def serialize (p : RADIUS) : Result (List Byte) := fillNew p.length.toInt p.chunks

end RADIUS

inductive Call where
  | setAttribute (attrType : Byte) (value : List Byte)
  | updateAttribute (attrType : Byte) (value : List Byte)
  | encapsulateMessage (message : EAP)
  deriving DecidableEq, Repr

def Call.Returns (p : RADIUS) : Call → RADIUS → Prop
  | setAttribute attrType value, p' => p' = p.setAttribute attrType value
  | updateAttribute attrType value, p' => p' = p.updateAttribute attrType value
  | encapsulateMessage message, p' => ∃ rounds, p.encapsulateMessage rounds message = some (.ok p')

inductive Builds : RADIUS → List Call → RADIUS → Prop
  | nil (p : RADIUS) : Builds p [] p
  | cons {p p₁ p' : RADIUS} {call : Call} {calls : List Call} :
      call.Returns p p₁ → Builds p₁ calls p' → Builds p (call :: calls) p'

section Accounting

namespace RADIUSAttribute

def IsSized (attr : RADIUSAttribute) : Prop := attr.length.toNat = 2 + attr.value.length

theorem isSized_attributeOf (attrType : Byte) {value : List Byte}
    (h : value.length ≤ MAX_ATTR_VALUE_LENGTH) : (RADIUS.attributeOf attrType value).IsSized := by
  rw [MAX_ATTR_VALUE_LENGTH] at h
  rw [IsSized, RADIUS.attributeOf, BitVec.toNat_ofNat]
  dsimp only
  omega

theorem IsSized.setWidth_length {attr : RADIUSAttribute} (h : attr.IsSized) :
    attr.length.setWidth 16 = BitVec.ofNat 16 (2 + attr.value.length) := by
  rw [← h]
  apply BitVec.eq_of_toNat_eq
  rw [BitVec.toNat_setWidth, BitVec.toNat_ofNat]

end RADIUSAttribute

def attributesLength (attributes : List RADIUSAttribute) : ℕ :=
  (attributes.map fun attr => 2 + attr.value.length).sum

@[simp] theorem attributesLength_append (before after : List RADIUSAttribute) :
    attributesLength (before ++ after) = attributesLength before + attributesLength after := by
  simp [attributesLength]

@[simp] theorem attributesLength_cons (attr : RADIUSAttribute) (attrs : List RADIUSAttribute) :
    attributesLength (attr :: attrs) = 2 + attr.value.length + attributesLength attrs := by
  simp [attributesLength]

@[simp] theorem attributesLength_nil : attributesLength [] = 0 := rfl

namespace RADIUS

def totalLength (p : RADIUS) : ℕ := 20 + attributesLength p.attributes

/-- The length of the packet is its size, up to what a short can hold. -/
structure IsCounted (p : RADIUS) : Prop where
  sized : ∀ attr ∈ p.attributes, attr.IsSized
  length : p.length = BitVec.ofNat 16 p.totalLength
  authenticator : p.authenticator.length = 16

variable {p : RADIUS} {attrType : Byte} {value : List Byte}

theorem IsCounted.setAttribute (h : p.IsCounted) (hvalue : value.length ≤ MAX_ATTR_VALUE_LENGTH) :
    (p.setAttribute attrType value).IsCounted where
  sized attr hattr := by
    obtain hattr | hattr := List.mem_append.mp hattr
    · exact h.sized attr hattr
    · rw [List.mem_singleton.mp hattr]
      exact RADIUSAttribute.isSized_attributeOf attrType hvalue
  length := by
    have hsized := RADIUSAttribute.isSized_attributeOf attrType hvalue
    simp only [RADIUS.setAttribute, totalLength, hsized.setWidth_length]
    rw [h.length, totalLength, ← BitVec.ofNat_add]
    simp [attributeOf, Nat.add_assoc]
  authenticator := h.authenticator

theorem updateAttribute_cases (p : RADIUS) (attrType : Byte) (value : List Byte) :
    p.updateAttribute attrType value = p ∨
      ∃ before old after, p.attributes = before ++ old :: after ∧ old.type = attrType ∧
        p.updateAttribute attrType value = { p with
          attributes := before ++ attributeOf attrType value :: after
          length := p.length - old.length.setWidth 16 +
            (attributeOf attrType value).length.setWidth 16 } := by
  cases hfind : p.attributes.findIdx? fun attr => attr.type = attrType with
  | none =>
    left
    rw [updateAttribute, hfind]
  | some i =>
    right
    obtain ⟨hi, htype, -⟩ := List.findIdx?_eq_some_iff_getElem.mp hfind
    refine ⟨p.attributes.take i, p.attributes[i], p.attributes.drop (i + 1), ?_, by simpa using htype, ?_⟩
    · rw [List.getElem_cons_drop, List.take_append_drop]
    · rw [updateAttribute, hfind]
      dsimp only
      rw [List.set_eq_take_append_cons_drop, if_pos hi, List.getElem?_eq_getElem hi]
      rfl

theorem IsCounted.updateAttribute (h : p.IsCounted) (hvalue : value.length ≤ MAX_ATTR_VALUE_LENGTH) :
    (p.updateAttribute attrType value).IsCounted := by
  obtain heq | ⟨before, old, after, hsplit, -, heq⟩ := p.updateAttribute_cases attrType value
  · rw [heq]
    exact h
  have hnew := RADIUSAttribute.isSized_attributeOf attrType hvalue
  have hall := h.sized
  have hlength := h.length
  rw [hsplit, List.forall_mem_append, List.forall_mem_cons] at hall
  rw [heq]
  refine ⟨?_, ?_, h.authenticator⟩
  · exact List.forall_mem_append.mpr ⟨hall.1, List.forall_mem_cons.mpr ⟨hnew, hall.2.2⟩⟩
  · rw [totalLength, hsplit] at hlength
    simp only [totalLength, hlength, hnew.setWidth_length, hall.2.1.setWidth_length,
      attributesLength_append, attributesLength_cons, BitVec.ofNat_add]
    simp only [attributeOf]
    grind

theorem addSegment_eq (h : value.length ≤ MAX_ATTR_VALUE_LENGTH) :
    p.addSegment value = p.setAttribute RADIUS_ATTR_EAP_MESSAGE value := by
  have hsized := RADIUSAttribute.isSized_attributeOf RADIUS_ATTR_EAP_MESSAGE h
  rw [MAX_ATTR_VALUE_LENGTH] at h
  have hwidth : (BitVec.ofNat 8 value.length).setWidth 16 = BitVec.ofNat 16 value.length := by
    apply BitVec.eq_of_toNat_eq
    rw [BitVec.toNat_setWidth, BitVec.toNat_ofNat, BitVec.toNat_ofNat]
    omega
  have hlength : p.length + (BitVec.ofNat 8 value.length).setWidth 16 + 2 =
      p.length + (attributeOf RADIUS_ATTR_EAP_MESSAGE value).length.setWidth 16 := by
    rw [hsized.setWidth_length, hwidth, BitVec.ofNat_add, attributeOf]
    grind
  simp only [addSegment, RADIUS.setAttribute, hlength]

def setSegments (p : RADIUS) (segments : List (List Byte)) : RADIUS :=
  segments.foldl (fun p segment => p.setAttribute RADIUS_ATTR_EAP_MESSAGE segment) p

theorem IsCounted.setSegments {segments : List (List Byte)} (h : p.IsCounted)
    (hsegments : ∀ segment ∈ segments, segment.length ≤ MAX_ATTR_VALUE_LENGTH) :
    (p.setSegments segments).IsCounted := by
  induction segments generalizing p with
  | nil => exact h
  | cons segment segments ih =>
    rw [List.forall_mem_cons] at hsegments
    exact ih (h.setAttribute hsegments.1) hsegments.2

end RADIUS

end Accounting

section Messages

theorem toInt_sub_ofNat {x : BitVec 16} {n : ℕ} (h : (n : ℤ) < x.toInt) :
    (x - BitVec.ofNat 16 n).toInt = x.toInt - n := by
  have hlt : x.toInt < 2 ^ 15 := BitVec.toInt_lt
  have hn : (BitVec.ofNat 16 n).toInt = n := toInt_ofNat_of_lt (by omega)
  rw [BitVec.toInt_sub, hn]
  exact Int.bmod_eq_of_le (by omega) (by omega)

namespace RADIUS

variable {p : RADIUS} {attrType : Byte} {value : List Byte}

theorem messageStream_setAttribute : (p.setAttribute attrType value).messageStream =
      p.messageStream ++ if attrType = RADIUS_ATTR_EAP_MESSAGE then value else [] := by
  simp only [messageStream, getAttributeList, RADIUS.setAttribute, List.filter_append,
    List.flatMap_append, List.filter_singleton, attributeOf]
  by_cases htype : attrType = RADIUS_ATTR_EAP_MESSAGE <;> simp [htype]

theorem messageStream_setSegments (segments : List (List Byte)) :
    (p.setSegments segments).messageStream = p.messageStream ++ segments.flatten := by
  induction segments generalizing p with
  | nil => exact (List.append_nil _).symm
  | cons segment segments ih =>
    rw [List.flatten_cons, ← List.append_assoc]
    refine ih.trans ?_
    rw [messageStream_setAttribute, if_pos rfl]

theorem messageStream_updateAttribute (h : attrType ≠ RADIUS_ATTR_EAP_MESSAGE) :
    (p.updateAttribute attrType value).messageStream = p.messageStream := by
  obtain heq | ⟨before, old, after, hsplit, rfl, heq⟩ := p.updateAttribute_cases attrType value
  · rw [heq]
  · simp [heq, messageStream, getAttributeList, hsplit, attributeOf, h]

theorem messageStream_updateAttribute_of_nil (h : p.getAttributeList RADIUS_ATTR_EAP_MESSAGE = []) :
    (p.updateAttribute attrType value).getAttributeList RADIUS_ATTR_EAP_MESSAGE = [] := by
  obtain heq | ⟨before, old, after, hsplit, rfl, heq⟩ := p.updateAttribute_cases attrType value
  · rwa [heq]
  · rw [getAttributeList, hsplit, List.filter_eq_nil_iff, List.forall_mem_append,
      List.forall_mem_cons] at h
    rw [heq, getAttributeList, List.filter_eq_nil_iff, List.forall_mem_append, List.forall_mem_cons]
    exact h

theorem addSegments_eq_ok {rounds : ℕ} {p' : RADIUS} {remainingLength : BitVec 16} {bb : ReadBuffer}
    (h : addSegments rounds p remainingLength bb = some (.ok p'))
    (hleft : remainingLength.toInt = bb.remaining) :
    ∃ segments : List (List Byte), (∀ segment ∈ segments, segment.length ≤ MAX_ATTR_VALUE_LENGTH) ∧
      segments.flatten = bb.rest ∧ p' = p.setSegments segments := by
  induction rounds generalizing p remainingLength bb with
  | zero => cases h
  | succ rounds ih =>
    rw [addSegments] at h
    split_ifs at h with hmore hlong
    · -- a full segment, and the rest of it in the rounds to come
      cases hget : getNew MAX_ATTR_VALUE_LENGTH bb with
      | error e =>
        rw [hget] at h
        cases h
      | ok read =>
        obtain ⟨segment, bb'⟩ := read
        rw [hget] at h
        obtain ⟨hlen, hrest⟩ := getNew_eq_ok hget
        have hsegment : segment.length = MAX_ATTR_VALUE_LENGTH := by omega
        have hleft' : (remainingLength - BitVec.ofNat 16 MAX_ATTR_VALUE_LENGTH).toInt =
            bb'.remaining := by
          have hsize := congrArg List.length hrest
          rw [List.length_append, hsegment] at hsize
          rw [toInt_sub_ofNat hlong, hleft, ReadBuffer.remaining, ReadBuffer.remaining, hsize]
          omega
        obtain ⟨segments, hall, hflatten, rfl⟩ := ih h hleft'
        refine ⟨segment :: segments, List.forall_mem_cons.mpr ⟨hsegment.le, hall⟩, ?_, ?_⟩
        · rw [List.flatten_cons, hflatten, hrest]
        · rw [addSegment_eq hsegment.le]
          rfl
    · -- the last segment, after which nothing is left
      cases hget : getNew remainingLength.toInt bb with
      | error e =>
        rw [hget] at h
        cases h
      | ok read =>
        obtain ⟨segment, bb'⟩ := read
        rw [hget] at h
        obtain ⟨hlen, hrest⟩ := getNew_eq_ok hget
        have hsegment : segment.length ≤ MAX_ATTR_VALUE_LENGTH := by omega
        have hnil : bb'.rest = [] := by
          have hsize := congrArg List.length hrest
          rw [List.length_append] at hsize
          rw [ReadBuffer.remaining] at hleft
          exact List.length_eq_zero_iff.mp (by omega)
        have hdone : bb'.hasRemaining = false := by simp [ReadBuffer.hasRemaining, hnil]
        refine ⟨[segment], List.forall_mem_singleton.mpr hsegment, ?_, ?_⟩
        · rw [hrest, hnil, List.flatten_singleton, List.append_nil]
        · cases rounds with
          | zero => cases h
          | succ rounds =>
            dsimp only at h
            rw [addSegments, hdone, if_neg Bool.false_ne_true] at h
            rw [← Except.ok.inj (Option.some.inj h), addSegment_eq hsegment]
            rfl
    · have hnil : bb.rest = [] := by simpa [ReadBuffer.hasRemaining] using hmore
      exact ⟨[], List.forall_mem_nil _, hnil.symm, (Except.ok.inj (Option.some.inj h)).symm⟩

theorem encapsulateMessage_eq_ok {rounds : ℕ} {message : EAP} {p' : RADIUS}
    (h : p.encapsulateMessage rounds message = some (.ok p')) :
    ∃ segments : List (List Byte), (∀ segment ∈ segments, segment.length ≤ MAX_ATTR_VALUE_LENGTH) ∧
      message.serialize = .ok segments.flatten ∧ p' = p.setSegments segments := by
  rw [encapsulateMessage] at h
  split_ifs at h with hshort
  · obtain ⟨bytes, hbytes, rfl⟩ := map_eq_ok.mp (Option.some.inj h)
    have hlen := length_of_fillNew hbytes
    refine ⟨[bytes], List.forall_mem_singleton.mpr (by omega), ?_, rfl⟩
    rw [List.flatten_singleton, hbytes]
  · split at h
    · cases h
    · rename_i bytes hbytes
      have hlen := length_of_fillNew hbytes
      obtain ⟨segments, hall, hflatten, rfl⟩ := addSegments_eq_ok h hlen.symm
      exact ⟨segments, hall, by rw [hflatten, hbytes], rfl⟩

theorem addSegments_returns {rounds : ℕ} {remainingLength : BitVec 16} {bb : ReadBuffer}
    (hleft : remainingLength.toInt = bb.remaining) (hrounds : bb.remaining < rounds) :
    ∃ p', addSegments rounds p remainingLength bb = some (.ok p') := by
  induction rounds generalizing p remainingLength bb with
  | zero => omega
  | succ rounds ih =>
    rw [addSegments]
    split_ifs with hmore hlong
    · have hroom : MAX_ATTR_VALUE_LENGTH ≤ bb.remaining := by omega
      have hleft' : (remainingLength - BitVec.ofNat 16 MAX_ATTR_VALUE_LENGTH).toInt =
          ((bb.remaining - MAX_ATTR_VALUE_LENGTH : ℕ) : ℤ) := by
        rw [toInt_sub_ofNat hlong]
        omega
      have hpos : 0 < MAX_ATTR_VALUE_LENGTH := by decide
      rw [getNew_of_le hroom]
      refine ih ?_ ?_
      · rw [remaining_advance, hleft']
      · rw [remaining_advance]
        omega
    · have hpos : 0 < bb.remaining := by
        simpa [ReadBuffer.hasRemaining, ReadBuffer.remaining, List.length_pos_iff] using hmore
      have hget : getNew remainingLength.toInt bb = .ok (bb.rest, bb.advance bb.remaining) := by
        rw [hleft, getNew_of_le le_rfl, ReadBuffer.remaining, List.take_length]
      rw [hget]
      obtain ⟨rounds, rfl⟩ : ∃ n, rounds = n + 1 := ⟨rounds - 1, by omega⟩
      have hdone : (bb.advance bb.remaining).hasRemaining = false := by
        simp [ReadBuffer.hasRemaining, ReadBuffer.advance, ReadBuffer.remaining]
      dsimp only
      rw [addSegments, hdone, if_neg Bool.false_ne_true]
      exact ⟨_, rfl⟩
    · exact ⟨p, rfl⟩

theorem encapsulateMessage_returns {message : EAP} {bytes : List Byte}
    (h : message.serialize = .ok bytes) :
    ∃ rounds p', p.encapsulateMessage rounds message = some (.ok p') ∧
      p'.messageStream = p.messageStream ++ bytes ∧ (p.IsCounted → p'.IsCounted) := by
  obtain ⟨p', hp'⟩ : ∃ p', p.encapsulateMessage (bytes.length + 1) message = some (.ok p') := by
    rw [encapsulateMessage]
    split_ifs
    · exact ⟨_, by rw [h]; rfl⟩
    · simp only [h]
      exact addSegments_returns (length_of_fillNew h).symm (Nat.lt_succ_self _)
  obtain ⟨segments, hsegments, hbytes, rfl⟩ := encapsulateMessage_eq_ok hp'
  obtain rfl := Except.ok.inj (h.symm.trans hbytes)
  exact ⟨_, _, hp', messageStream_setSegments segments, fun hp => hp.setSegments hsegments⟩

end RADIUS

/-- The message is as its constructor leaves it, but for what a short can hold. -/
def EAP.IsBuilt (e : EAP) : Prop := e = EAP.new e.code e.identifier e.type e.data

namespace EAP

variable {e : EAP}

def dataBytes (e : EAP) : List Byte := e.data.getD []

theorem flatten_chunks (e : EAP) : e.chunks.flatten = e.code :: e.identifier :: (short e.length ++
      ((if hasType e.code then [e.type] else []) ++ e.dataBytes)) := by
  have hdata : e.data.toList.flatten = e.dataBytes := by
    rw [dataBytes]
    cases e.data <;> simp
  rw [chunks, List.flatten_append, List.flatten_append, hdata]
  cases hasType e.code <;> simp

theorem length_flatten_chunks (e : EAP) :
    e.chunks.flatten.length = headerLength e.code + e.dataBytes.length := by
  rw [flatten_chunks, headerLength]
  cases hasType e.code
  · simp [EAP_HDR_LEN_SUC_FAIL]
    omega
  · simp [EAP_HDR_LEN_REQ_RESP]
    omega

theorem IsBuilt.serialize_eq_ok (h : e.IsBuilt) {bytes : List Byte} (hbytes : e.serialize = .ok bytes) :
    bytes = e.chunks.flatten ∧ e.length.toInt = headerLength e.code + e.dataBytes.length := by
  have hlength : e.length = BitVec.ofNat 16 (headerLength e.code + e.dataBytes.length) := by
    conv_lhs => rw [h]
    rw [EAP.new, dataBytes]
    cases e.data <;> rfl
  obtain ⟨hle, heq⟩ := fillNew_eq_ok hbytes
  rw [length_flatten_chunks] at hle heq
  have hlt : e.length.toInt < 2 ^ 15 := BitVec.toInt_lt
  have hint : e.length.toInt = headerLength e.code + e.dataBytes.length := by
    rw [hlength, toInt_ofNat_of_lt (by omega)]
    push_cast
    rfl
  refine ⟨?_, hint⟩
  rw [heq, hint]
  simp

theorem read_type (h : hasType e.code = false → e.type = 0) (before ys beyond : List Byte) :
    readType e.code ⟨before, (if hasType e.code then [e.type] else []) ++ ys, beyond⟩ =
      .ok (e.type, ⟨before ++ (if hasType e.code then [e.type] else []), ys, beyond⟩) := by
  rw [readType]
  cases hcode : hasType e.code with
  | false => simp [h hcode]
  | true => exact getByte_cons _ _ _ _

theorem IsBuilt.deserializer_append (h : e.IsBuilt) {bytes rest : List Byte}
    (hbytes : e.serialize = .ok bytes) (hint : (bytes ++ rest).length < 2 ^ 31) :
    deserializer (bytes ++ rest) 0 (bytes ++ rest).length = .ok { e with data := some e.dataBytes } := by
  obtain ⟨rfl, hlength⟩ := h.serialize_eq_ok hbytes
  have htype : hasType e.code = false → e.type = 0 := fun hcode => by
    rw [h, EAP.new, hcode]
    rfl
  have hsize := e.length_flatten_chunks
  have hheader : 4 ≤ headerLength e.code := by
    rw [headerLength]
    split_ifs <;> decide
  have hroom : ¬ (((e.chunks.flatten ++ rest).length : ℕ) : ℤ) < e.length.toInt := by
    rw [List.length_append, hsize]
    omega
  have hdata : getNew (e.length.toInt - headerLength e.code) = getNew e.dataBytes.length := by
    rw [hlength]
    congr 1
    omega
  have hcheck : checkHeaderLength (e.chunks.flatten ++ rest).length e.length.toInt = .ok () :=
    if_neg hroom
  have hread : read (e.chunks.flatten ++ rest).length ⟨[], e.chunks.flatten ++ rest, []⟩ =
      .ok ({ e with data := some e.dataBytes }, ⟨e.chunks.flatten, rest, []⟩) := by
    rw [flatten_chunks, List.cons_append, List.cons_append, List.append_assoc,
      List.append_assoc] at hcheck ⊢
    rw [read, bind_of_ok (getByte_cons _ _ _ _), bind_of_ok (getByte_cons _ _ _ _),
      bind_of_ok (getShort_append _ _ _ _), bind_of_ok (lift_of_ok hcheck _),
      bind_of_ok (read_type htype _ _ _), hdata, bind_of_ok (getNew_append _ _ _ _ rfl)]
    simp
  refine deserialized (by decide) hint ?_ hread
  rw [List.length_append, hsize, HEADER_LENGTH]
  omega

end EAP

end Messages

section RoundTrip

def RADIUSAttribute.bytes (attr : RADIUSAttribute) : List Byte := attr.type :: attr.length :: attr.value

theorem readAttribute_bytes {attr : RADIUSAttribute} (h : attr.IsSized) (before rest beyond : List Byte) :
    readAttribute ⟨before, attr.bytes ++ rest, beyond⟩ =
      .ok (attr, ⟨before ++ attr.bytes, rest, beyond⟩) := by
  have hvalue : (attr.length.toNat : ℤ) - 2 = attr.value.length := by
    rw [h]
    push_cast
    omega
  have hcons : attr.bytes ++ rest = attr.type :: attr.length :: (attr.value ++ rest) := rfl
  rw [readAttribute, hcons, bind_of_ok (getByte_cons _ _ _ _), bind_of_ok (getByte_cons _ _ _ _),
    bind_of_ok (getNew_append _ _ _ _ hvalue)]
  simp [RADIUSAttribute.bytes]

theorem readAttributes_bytes {attrs : List RADIUSAttribute} (h : ∀ attr ∈ attrs, attr.IsSized)
    (before : List Byte) (attributes : List RADIUSAttribute) :
    readAttributes attributes (attributesLength attrs)
        ⟨before, attrs.flatMap RADIUSAttribute.bytes, []⟩ = .ok (attributes ++ attrs) := by
  induction attrs generalizing before attributes with
  | nil =>
    rw [readAttributes, if_neg (by simp), List.append_nil]
  | cons attr attrs ih =>
    rw [List.forall_mem_cons] at h
    have hfirst := readAttribute_bytes h.1 before (attrs.flatMap RADIUSAttribute.bytes) []
    have hlength : attributesLength (attr :: attrs) = attr.length.toNat + attributesLength attrs := by
      rw [h.1, attributesLength_cons]
    have hmore : 0 < (attributesLength (attr :: attrs) : ℤ) ∧
        ReadBuffer.hasRemaining ⟨before, (attr :: attrs).flatMap RADIUSAttribute.bytes, []⟩ = true := by
      have hsized := h.1
      rw [RADIUSAttribute.IsSized] at hsized
      exact ⟨by omega, rfl⟩
    have hleft : (attributesLength (attr :: attrs) : ℤ) - attr.length.toNat = attributesLength attrs := by
      omega
    rw [readAttributes, if_pos hmore]
    split
    · rename_i e herror
      rw [List.flatMap_cons, hfirst] at herror
      cases herror
    · rename_i attr' bb' hread
      rw [List.flatMap_cons, hfirst] at hread
      obtain ⟨rfl, rfl⟩ := Prod.mk.inj (Except.ok.inj hread)
      rw [hleft, ih h.2, List.append_assoc]
      rfl

namespace RADIUS

variable {p : RADIUS}

def bytes (p : RADIUS) : List Byte := p.chunks.flatten

theorem bytes_eq (p : RADIUS) : p.bytes = p.code :: p.identifier :: (short p.length ++
      (p.authenticator ++ p.attributes.flatMap RADIUSAttribute.bytes)) := by
  have hattributes : (p.attributes.flatMap fun attr => [[attr.type], [attr.length], attr.value]).flatten =
      p.attributes.flatMap RADIUSAttribute.bytes := by
    induction p.attributes with
    | nil => rfl
    | cons attr attrs ih =>
      rw [List.flatMap_cons, List.flatten_append, ih, List.flatMap_cons]
      simp [RADIUSAttribute.bytes]
  rw [bytes, chunks, List.flatten_append, hattributes]
  simp

theorem length_flatMap_bytes (attrs : List RADIUSAttribute) :
    (attrs.flatMap RADIUSAttribute.bytes).length = attributesLength attrs := by
  rw [List.length_flatMap, attributesLength]
  congr 1
  refine List.map_congr_left fun attr _ => ?_
  rw [RADIUSAttribute.bytes, List.length_cons, List.length_cons]
  omega

theorem IsCounted.length_bytes (h : p.IsCounted) : p.bytes.length = p.totalLength := by
  rw [bytes_eq, List.length_cons, List.length_cons, List.length_append, List.length_append,
    length_flatMap_bytes, length_short, h.authenticator, totalLength]
  omega

theorem IsCounted.toInt_length (h : p.IsCounted) (htotal : p.totalLength ≤ 4096) :
    p.length.toInt = p.totalLength := by
  rw [h.length]
  exact toInt_ofNat_of_lt (by omega)

theorem IsCounted.serialize_eq (h : p.IsCounted) (htotal : p.totalLength ≤ 4096) :
    p.serialize = .ok p.bytes := by
  refine fillNew_exact ?_
  rw [h.toInt_length htotal, ← h.length_bytes, bytes]

theorem IsCounted.deserializer_bytes (h : p.IsCounted) (htotal : p.totalLength ≤ 4096) :
    deserializer p.bytes 0 p.bytes.length = .ok p := by
  have hlen := h.length_bytes
  have hint := h.toInt_length htotal
  have hmin : 20 ≤ p.totalLength := Nat.le_add_right 20 _
  have hinput : checkInput p.bytes 0 p.bytes.length RADIUS_MIN_LENGTH.toInt = .ok () := by
    have hrequired : RADIUS_MIN_LENGTH.toInt = 20 := by decide
    refine checkInput_whole (List.ne_nil_of_length_pos (by omega)) (by omega) ?_
    omega
  have hcheck : checkHeaderLength p.bytes.length p.length.toInt = .ok () := if_neg (by omega)
  have hheader : readHeader p.bytes.length ⟨[], p.bytes, []⟩ = .ok ({ p with attributes := [] },
      ⟨p.code :: p.identifier :: (short p.length ++ p.authenticator),
        p.attributes.flatMap RADIUSAttribute.bytes, []⟩) := by
    rw [bytes_eq] at hcheck ⊢
    rw [readHeader, bind_of_ok (getByte_cons _ _ _ _), bind_of_ok (getByte_cons _ _ _ _),
      bind_of_ok (getShort_append _ _ _ _), bind_of_ok (get_of_length _ _ _ _ h.authenticator),
      bind_of_ok (lift_of_ok hcheck _)]
    simp
  have hleft : p.length.toInt - RADIUS_MIN_LENGTH.toInt = attributesLength p.attributes := by
    have hrequired : RADIUS_MIN_LENGTH.toInt = 20 := by decide
    rw [hint, hrequired, totalLength]
    omega
  have hattributes := readAttributes_bytes h.sized
    (p.code :: p.identifier :: (short p.length ++ p.authenticator)) []
  rw [deserializer, hinput, wrap_whole]
  change ((readHeader p.bytes.length ⟨[], p.bytes, []⟩).bind fun r =>
    (readAttributes [] (r.1.length.toInt - RADIUS_MIN_LENGTH.toInt) r.2).bind fun attributes =>
      .ok { r.1 with attributes }) = .ok p
  rw [hheader]
  change (readAttributes [] (p.length.toInt - RADIUS_MIN_LENGTH.toInt) _).bind _ = .ok p
  rw [hleft, hattributes]
  rfl

end RADIUS

end RoundTrip

section Building

variable {p p' : RADIUS} {call : Call} {calls : List Call} {e : EAP}

def Call.Fits : Call → Prop
  | setAttribute _ value => value.length ≤ MAX_ATTR_VALUE_LENGTH
  | updateAttribute _ value => value.length ≤ MAX_ATTR_VALUE_LENGTH
  | encapsulateMessage _ => True

instance : DecidablePred Call.Fits
  | .setAttribute _ value => inferInstanceAs (Decidable (value.length ≤ MAX_ATTR_VALUE_LENGTH))
  | .updateAttribute _ value => inferInstanceAs (Decidable (value.length ≤ MAX_ATTR_VALUE_LENGTH))
  | .encapsulateMessage _ => isTrue trivial

theorem Call.Returns.isCounted (h : call.Returns p p') (hfits : call.Fits) (hp : p.IsCounted) :
    p'.IsCounted := by
  cases call with
  | setAttribute attrType value =>
    obtain rfl := h
    exact hp.setAttribute hfits
  | updateAttribute attrType value =>
    obtain rfl := h
    exact hp.updateAttribute hfits
  | encapsulateMessage message =>
    obtain ⟨rounds, hreturns⟩ := h
    obtain ⟨segments, hsegments, -, rfl⟩ := RADIUS.encapsulateMessage_eq_ok hreturns
    exact hp.setSegments hsegments

theorem Builds.isCounted (h : Builds p calls p') (hfits : ∀ call ∈ calls, call.Fits)
    (hp : p.IsCounted) : p'.IsCounted := by
  induction h with
  | nil => exact hp
  | cons hcall _ ih =>
    rw [List.forall_mem_cons] at hfits
    exact ih hfits.2 (hcall.isCounted hfits.1 hp)

/-- No attribute has a part of a message after the call, if none had one before. -/
def Call.AddsNoMessage : Call → Prop
  | setAttribute attrType _ => attrType ≠ RADIUS_ATTR_EAP_MESSAGE
  | updateAttribute _ _ => True
  | encapsulateMessage _ => False

def Call.KeepsMessages : Call → Prop
  | setAttribute _ _ => True
  | updateAttribute attrType _ => attrType ≠ RADIUS_ATTR_EAP_MESSAGE
  | encapsulateMessage _ => True

theorem Call.Returns.getAttributeList_eq_nil (h : call.Returns p p') (hadds : call.AddsNoMessage)
    (hp : p.getAttributeList RADIUS_ATTR_EAP_MESSAGE = []) :
    p'.getAttributeList RADIUS_ATTR_EAP_MESSAGE = [] := by
  cases call with
  | setAttribute attrType value =>
    obtain rfl := h
    have htype : decide ((RADIUS.attributeOf attrType value).type = RADIUS_ATTR_EAP_MESSAGE) = false :=
      decide_eq_false hadds
    rw [RADIUS.getAttributeList] at hp ⊢
    rw [RADIUS.setAttribute, List.filter_append, hp, List.nil_append, List.filter_singleton, htype]
    rfl
  | updateAttribute attrType value =>
    obtain rfl := h
    exact RADIUS.messageStream_updateAttribute_of_nil hp
  | encapsulateMessage message => exact hadds.elim

theorem Call.Returns.messageStream_prefix (h : call.Returns p p') (hkeeps : call.KeepsMessages) :
    p.messageStream <+: p'.messageStream := by
  cases call with
  | setAttribute attrType value =>
    obtain rfl := h
    rw [RADIUS.messageStream_setAttribute]
    exact List.prefix_append _ _
  | updateAttribute attrType value =>
    obtain rfl := h
    exact (RADIUS.messageStream_updateAttribute hkeeps).symm ▸ List.prefix_refl _
  | encapsulateMessage message =>
    obtain ⟨rounds, hreturns⟩ := h
    obtain ⟨segments, -, -, rfl⟩ := RADIUS.encapsulateMessage_eq_ok hreturns
    rw [RADIUS.messageStream_setSegments]
    exact List.prefix_append _ _

theorem Builds.messageStream_prefix (h : Builds p calls p')
    (hkeeps : ∀ call ∈ calls, call.KeepsMessages) : p.messageStream <+: p'.messageStream := by
  induction h with
  | nil => exact List.prefix_refl _
  | cons hcall _ ih =>
    rw [List.forall_mem_cons] at hkeeps
    exact (hcall.messageStream_prefix hkeeps.1).trans (ih hkeeps.2)

theorem Builds.encapsulated_prefix {before after : List Call}
    (h : Builds p (before ++ .encapsulateMessage e :: after) p')
    (hbefore : ∀ call ∈ before, call.AddsNoMessage) (hafter : ∀ call ∈ after, call.KeepsMessages)
    (hp : p.getAttributeList RADIUS_ATTR_EAP_MESSAGE = []) :
    ∃ bytes, e.serialize = .ok bytes ∧ bytes <+: p'.messageStream := by
  induction before generalizing p with
  | nil =>
    cases h with
    | cons hcall hrest =>
      obtain ⟨rounds, hreturns⟩ := hcall
      obtain ⟨segments, -, hbytes, rfl⟩ := RADIUS.encapsulateMessage_eq_ok hreturns
      have hnil : p.messageStream = [] := by rw [RADIUS.messageStream, hp, List.flatMap_nil]
      have hkept := hrest.messageStream_prefix hafter
      rw [RADIUS.messageStream_setSegments, hnil, List.nil_append] at hkept
      exact ⟨segments.flatten, hbytes, hkept⟩
  | cons call before ih =>
    rw [List.forall_mem_cons] at hbefore
    cases h with
    | cons hcall hrest => exact ih hrest hbefore.2 (hcall.getAttributeList_eq_nil hbefore.1 hp)

theorem length_messageStream_le (p : RADIUS) : p.messageStream.length ≤ p.totalLength := by
  have hle : ∀ attrs : List RADIUSAttribute,
      ((attrs.filter fun attr => attr.type = RADIUS_ATTR_EAP_MESSAGE).flatMap
        RADIUSAttribute.value).length ≤ attributesLength attrs := by
    intro attrs
    induction attrs with
    | nil => exact le_rfl
    | cons attr attrs ih =>
      rw [List.filter_cons, attributesLength_cons]
      split_ifs
      · rw [List.flatMap_cons, List.length_append]
        omega
      · omega
  exact (hle p.attributes).trans (Nat.le_add_left _ _)

namespace RADIUS

structure IsEmpty (p : RADIUS) : Prop where
  length : p.length = RADIUS_MIN_LENGTH
  authenticator : p.authenticator.length = 16
  attributes : p.attributes = []

theorem IsEmpty.isCounted (h : p.IsEmpty) : p.IsCounted where
  sized := by rw [h.attributes]; nofun
  length := by rw [h.length, totalLength, h.attributes]; rfl
  authenticator := h.authenticator

/-- The length is the size of the packet, which is written in full and read back. -/
structure IsExact (p : RADIUS) : Prop where
  length : p.length.toInt = p.totalLength
  filled : (p.bytes.length : ℤ) = p.length.toInt
  serialize : p.serialize = .ok p.bytes
  deserializer : deserializer p.bytes 0 p.bytes.length = .ok p

theorem IsCounted.isExact (h : p.IsCounted) (htotal : p.totalLength ≤ 4096) : p.IsExact where
  length := h.toInt_length htotal
  filled := by rw [h.toInt_length htotal, h.length_bytes]
  serialize := h.serialize_eq htotal
  deserializer := h.deserializer_bytes htotal

/-- The packet gives back a message that is like the one that was put into it. -/
def Decapsulates (p : RADIUS) (e : EAP) : Prop :=
  ∃ message, p.decapsulateMessage = .ok message ∧ message.code = e.code ∧
    message.identifier = e.identifier ∧ message.type = e.type ∧ message.dataBytes = e.dataBytes

end RADIUS

/-- Calls with values that fit keep the account, and a message without others before it is found. -/
theorem built_exact_and_decapsulates (hempty : p.IsEmpty) (h : Builds p calls p')
    (hfits : ∀ call ∈ calls, call.Fits) (htotal : p'.totalLength ≤ 4096) :
    p'.IsExact ∧ ∀ before e after, calls = before ++ .encapsulateMessage e :: after → e.IsBuilt →
      (∀ call ∈ before, call.AddsNoMessage) → (∀ call ∈ after, call.KeepsMessages) →
        p'.Decapsulates e := by
  refine ⟨(h.isCounted hfits hempty.isCounted).isExact htotal, ?_⟩
  rintro before e after rfl hbuilt hbefore hafter
  have hnone : p.getAttributeList RADIUS_ATTR_EAP_MESSAGE = [] := by
    rw [RADIUS.getAttributeList, hempty.attributes, List.filter_nil]
  obtain ⟨bytes, hbytes, rest, hstream⟩ := h.encapsulated_prefix hbefore hafter hnone
  have hlen := length_messageStream_le p'
  refine ⟨{ e with data := some e.dataBytes }, ?_, rfl, rfl, rfl, rfl⟩
  rw [RADIUS.decapsulateMessage]
  rw [← hstream] at hlen ⊢
  exact hbuilt.deserializer_append hbytes (by omega)

def response : EAP := EAP.new RESPONSE 7 1 (some [0x61, 0x62])

theorem encapsulateMessage_response :
    ∃ rounds p', (RADIUS.new 1 2).encapsulateMessage rounds response = some (.ok p') ∧
      p'.messageStream = [2, 7, 0, 7, 1, 0x61, 0x62] := by
  obtain ⟨rounds, p', hp', hstream, -⟩ := RADIUS.encapsulateMessage_returns (p := .new 1 2)
    (show response.serialize = .ok _ from rfl)
  exact ⟨rounds, p', hp', hstream⟩

def namedCalls : List Call :=
  [.setAttribute 1 [0x61], .encapsulateMessage response, .updateAttribute 1 [0x62, 0x63]]

def namedPacket : RADIUS :=
  ⟨1, 2, 33, List.replicate 16 0, [⟨1, 4, [0x62, 0x63]⟩, ⟨79, 9, [2, 7, 0, 7, 1, 0x61, 0x62]⟩]⟩

theorem builds_namedPacket : Builds (RADIUS.new 1 2) namedCalls namedPacket :=
  .cons rfl (.cons ⟨0, rfl⟩ (.cons rfl (.nil _)))

theorem named_exact_and_decapsulates : namedPacket.IsExact ∧ namedPacket.Decapsulates response := by
  obtain ⟨hexact, hmessages⟩ := built_exact_and_decapsulates ⟨rfl, rfl, rfl⟩ builds_namedPacket
    (by decide) (by decide)
  have hname : (1 : Byte) ≠ RADIUS_ATTR_EAP_MESSAGE := by decide
  exact ⟨hexact, hmessages [.setAttribute 1 [0x61]] response [.updateAttribute 1 [0x62, 0x63]] rfl rfl
    (List.forall_mem_singleton.mpr hname) (List.forall_mem_singleton.mpr hname)⟩

def shiftedPacket : RADIUS :=
  ⟨1, 2, 32, List.replicate 16 0, [⟨79, 3, [0]⟩, ⟨79, 9, [2, 7, 0, 7, 1, 0x61, 0x62]⟩]⟩

set_option maxRecDepth 4000 in
/-- What comes before the message is taken for the start of it. A longer value than an attribute can
have is counted as a shorter one. -/
theorem not_decapsulates_not_exact :
    (Builds (RADIUS.new 1 2) [.setAttribute RADIUS_ATTR_EAP_MESSAGE [0], .encapsulateMessage response]
        shiftedPacket ∧ response.IsBuilt ∧ shiftedPacket.totalLength ≤ 4096 ∧
      ¬shiftedPacket.Decapsulates response) ∧
    ∃ p, Builds (RADIUS.new 1 2) [.setAttribute 1 [0x61],
        .updateAttribute 1 (List.replicate 254 0x61)] p ∧ p.totalLength ≤ 4096 ∧
      p.length.toInt ≠ p.totalLength := by
  constructor
  · refine ⟨.cons rfl (.cons ⟨0, rfl⟩ (.nil _)), rfl, by decide, ?_⟩
    rintro ⟨message, hmessage, -⟩
    have hthrows : shiftedPacket.decapsulateMessage = throwDeserialization
        "1792 bytes are needed to continue deserialization, however only 8 remain in buffer" := rfl
    rw [hthrows] at hmessage
    cases hmessage
  · exact ⟨_, .cons rfl (.cons rfl (.nil _)), by decide, by decide⟩

end Building

end RadiusPackets

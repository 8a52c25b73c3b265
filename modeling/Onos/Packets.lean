import Onos.Lib.BufferReaders

/-! What all packets share: the checks of the input, payloads of plain data, and packets that know
their parent while they are serialized. -/
namespace Packets

open BufferReaders ByteBuffer FallibleRun WireBytes

structure DeserializationException where
  message : String
  deriving DecidableEq, Repr

abbrev Result (α : Type) := Except (Thrown DeserializationException) α

def throwDeserialization {α : Type} (message : String) : Result α := .error (.checked ⟨message⟩)

def require (p : Prop) [Decidable p] (message : String) : Result Unit :=
  if p then .ok () else throwDeserialization message

theorem ensures_require (p : Prop) [Decidable p] (message : String) :
    Ensures (require p message) (fun _ => p) Checked := by
  rw [require]
  split_ifs with h
  · exact ensures_ok h
  · exact ensures_error ⟨_, rfl⟩

def nonNull {α : Type} : Option α → Result α
  | some a => .ok a
  | none => .error .nullPointer

@[simp] theorem nonNull_some {α : Type} (a : α) : nonNull (some a) = .ok a := rfl

def intOf (n : ℤ) : ℤ := n.bmod (2 ^ 32)

section Checks

theorem intOf_of_lt {n : ℤ} (hpos : 0 ≤ n) (h : n < 2 ^ 31) : intOf n = n := by
  rw [intOf]
  exact Int.bmod_eq_of_le (by omega) (by omega)

def checkBufferLength (byteLength : ℕ) (offset length : ℤ) : Result Unit :=
  if 0 ≤ offset ∧ offset < byteLength ∧ 0 ≤ length ∧ intOf (offset + length) ≤ byteLength then .ok ()
  else throwDeserialization ("Unable to read " ++ toString length ++ " bytes from a " ++
    toString byteLength ++ " byte array starting at offset " ++ toString offset)

def checkHeaderLength (givenLength requiredLength : ℤ) : Result Unit :=
  if givenLength < requiredLength then
    throwDeserialization (toString requiredLength ++
      " bytes are needed to continue deserialization, however only " ++ toString givenLength ++
      " remain in buffer")
  else .ok ()

theorem ensures_checkBufferLength (byteLength : ℕ) (offset length : ℤ) :
    Ensures (checkBufferLength byteLength offset length) (fun _ => 0 ≤ offset ∧
      offset < byteLength ∧ 0 ≤ length ∧ intOf (offset + length) ≤ byteLength) Checked := by
  rw [checkBufferLength]
  split_ifs with h
  · exact ensures_ok h
  · exact ensures_error ⟨_, rfl⟩

theorem ensures_checkHeaderLength (givenLength requiredLength : ℤ) :
    Ensures (checkHeaderLength givenLength requiredLength)
      (fun _ => requiredLength ≤ givenLength) Checked := by
  rw [checkHeaderLength]
  split_ifs with h
  · exact ensures_error ⟨_, rfl⟩
  · exact ensures_ok (by omega)

def checkInput (data : List Byte) (offset length requiredLength : ℤ) : Result Unit := do
  checkBufferLength data.length offset length
  checkHeaderLength length requiredLength

variable {data : List Byte} {requiredLength : ℤ}

theorem checkInput_whole (hpos : data ≠ [])
    (hint : data.length < 2 ^ 31) (h : requiredLength ≤ data.length) :
    checkInput data 0 data.length requiredLength = .ok () := by
  have hlt : (0 : ℤ) < data.length := by
    have := List.length_pos_iff.mpr hpos
    omega
  have hsum : intOf (0 + data.length) = data.length := by
    rw [zero_add]
    exact intOf_of_lt (by omega) (by omega)
  have hheader : ¬ (data.length : ℤ) < requiredLength := by omega
  rw [checkInput, checkBufferLength, if_pos ⟨le_rfl, hlt, by omega, hsum.le⟩, checkHeaderLength,
    if_neg hheader]
  rfl

def Overflows (byteLength : ℕ) (offset length : ℤ) : Prop :=
  0 ≤ offset ∧ offset < byteLength ∧ 0 ≤ length ∧ 2 ^ 31 ≤ offset + length

instance (byteLength : ℕ) (offset length : ℤ) : Decidable (Overflows byteLength offset length) :=
  inferInstanceAs (Decidable (_ ∧ _))

def opened (data : List Byte) (offset length requiredLength : ℤ) : Result ReadBuffer := do
  checkInput data offset length requiredLength
  wrap data offset length

variable {offset length : ℤ}

theorem opened_of_overflows (harray : data.length < 2 ^ 31) (hlength : length < 2 ^ 31)
    (h : Overflows data.length offset length) (hrequired : requiredLength ≤ length) :
    opened data offset length requiredLength = .error .indexOutOfBounds := by
  obtain ⟨hoffset, hlt, hpos, hover⟩ := h
  have hint : intOf (offset + length) = offset + length - 2 ^ 32 := by
    rw [intOf, ← Int.sub_bmod_right]
    exact Int.bmod_eq_of_le (by omega) (by omega)
  have hbuffer : checkBufferLength data.length offset length = .ok () :=
    if_pos ⟨hoffset, hlt, hpos, by omega⟩
  have hheader : checkHeaderLength length requiredLength = .ok () := if_neg (by omega)
  have hwrap : (wrap data offset length : Result _) = .error .indexOutOfBounds := by
    rw [wrap, if_neg]
    omega
  rw [opened, checkInput, hbuffer, hheader, hwrap]
  rfl

theorem ensures_opened (harray : data.length < 2 ^ 31)
    (h : ¬ (Overflows data.length offset length ∧ requiredLength ≤ length)) :
    Ensures (opened data offset length requiredLength) (fun bb => requiredLength ≤ length ∧
      bb.rest = (data.drop offset.toNat).take length.toNat ∧ (bb.remaining : ℤ) = length ∧
      (bb.position : ℤ) = offset) Checked := by
  refine Ensures.bind_of ?_ ?_
  · intro e he
    refine (Ensures.bind_of ?_ ?_ : Ensures (checkInput data offset length requiredLength)
      (fun _ => True) Checked).error he
    · intro e he
      exact (ensures_checkBufferLength _ _ _).error he
    · rintro - -
      exact ⟨fun _ => trivial, (ensures_checkHeaderLength _ _).error⟩
  · intro _ hinput
    obtain ⟨_, hbuffer, hheader⟩ := bind_eq_ok.mp hinput
    obtain ⟨hoffset, hlt, hpos, hend⟩ := (ensures_checkBufferLength _ _ _).ok hbuffer
    have hrequired := (ensures_checkHeaderLength _ _).ok hheader
    have hint : offset + length < 2 ^ 31 := by
      by_contra hover
      exact h ⟨⟨hoffset, hlt, hpos, by omega⟩, hrequired⟩
    rw [intOf_of_lt (by omega) hint] at hend
    rw [wrap, if_pos ⟨hoffset, hpos, hend⟩]
    refine ensures_ok ⟨hrequired, rfl, ?_, ?_⟩
    · simp only [ReadBuffer.remaining, List.length_take, List.length_drop]
      omega
    · simp only [ReadBuffer.position, List.length_take]
      omega

theorem opened_mid {before mid after : List Byte}
    (hint : (before ++ (mid ++ after)).length < 2 ^ 31) (hpos : mid ≠ [])
    (hrequired : requiredLength ≤ mid.length) :
    opened (before ++ (mid ++ after)) before.length mid.length requiredLength =
      .ok ⟨before, mid, after⟩ := by
  have hmid := List.length_pos_iff.mpr hpos
  simp only [List.length_append] at hint
  have hstop : intOf ((before.length : ℤ) + mid.length) = before.length + mid.length :=
    intOf_of_lt (by omega) (by omega)
  have hbuffer : checkBufferLength (before ++ (mid ++ after)).length before.length mid.length =
      .ok () := by
    rw [checkBufferLength, hstop, if_pos]
    simp only [List.length_append]
    omega
  have hheader : checkHeaderLength mid.length requiredLength = .ok () := if_neg (by omega)
  have hwrap : (wrap (before ++ (mid ++ after)) before.length mid.length : Result _) =
      .ok ⟨before, mid, after⟩ := by
    have hend : ((before.length : ℤ) + mid.length).toNat = before.length + mid.length := by omega
    rw [wrap, if_pos, hend, ← List.drop_drop]
    · simp
    · simp only [List.length_append]
      omega
  rw [opened, checkInput, hbuffer, hheader, hwrap]
  rfl

theorem bind_opened {α : Type} (f : ReadBuffer → Result α) : (do
      checkInput data offset length requiredLength
      let bb ← wrap data offset length
      f bb) = (opened data offset length requiredLength).bind f := by
  rw [opened]
  cases checkInput data offset length requiredLength <;> rfl

end Checks

/-- The packet that a packet is serialized in, with what checksums use of it. -/
inductive Parent where
  | IPv4 (sourceAddress destinationAddress : BitVec 32) (protocol : Byte)
  | IPv6 (sourceAddress destinationAddress : BitVec 128) (nextHeader : Byte)
  | other
  deriving DecidableEq, Repr

def Parent.setProtocol (protocol : Byte) : Parent → Parent
  | .IPv4 sourceAddress destinationAddress _ => .IPv4 sourceAddress destinationAddress protocol
  | parent => parent

/-- A packet gives its bytes, and is changed by that; it may set the protocol of an IPv4 parent. -/
class IPacket (P : Type) where
  serialize : Option Parent → P → Result (P × List Byte)
  protocol : P → Option Byte

def serializePayload {P : Type} [IPacket P] (parent : Parent) :
    Option P → Result (Option P × Option (List Byte))
  | none => .ok (none, none)
  | some payload => (IPacket.serialize (some parent) payload).map fun (payload, data) =>
    (some payload, some data)

structure Data where
  data : List Byte
  deriving DecidableEq, Repr

instance : IPacket Data where
  serialize _ packet := .ok (packet, packet.data)
  protocol _ := none

/-- Packets of either of two kinds. -/
instance {P Q : Type} [IPacket P] [IPacket Q] : IPacket (P ⊕ Q) where
  serialize parent packet := match packet with
    | .inl packet => (IPacket.serialize parent packet).map fun (packet, data) => (.inl packet, data)
    | .inr packet => (IPacket.serialize parent packet).map fun (packet, data) => (.inr packet, data)
  protocol packet := match packet with
    | .inl packet => IPacket.protocol packet
    | .inr packet => IPacket.protocol packet

/-- The end of the range may come before its start, and after the end of the array. -/
def copyOfRange (original : List Byte) (start stop : ℤ) : Result (List Byte) :=
  if stop < start then .error .illegalArgument
  else if start < 0 ∨ original.length < start then .error .indexOutOfBounds
  else
    let range := (original.drop start.toNat).take (stop - start).toNat
    .ok (range ++ List.replicate ((stop - start).toNat - range.length) 0)

def Data.deserializer (data : List Byte) (offset length : ℤ) : Result Data :=
  if length = 0 then .ok ⟨[]⟩
  else do
    checkInput data offset length 1
    return ⟨← copyOfRange data offset (intOf (offset + length))⟩

theorem Data.deserializer_mid {before mid after : List Byte}
    (hint : (before ++ (mid ++ after)).length < 2 ^ 31) :
    Data.deserializer (before ++ (mid ++ after)) before.length mid.length = .ok ⟨mid⟩ := by
  rw [Data.deserializer]
  split_ifs with hzero
  · rw [List.length_eq_zero_iff.mp (by omega : mid.length = 0)]
  · simp only [List.length_append] at hint
    have hstop : intOf ((before.length : ℤ) + mid.length) = before.length + mid.length :=
      intOf_of_lt (by omega) (by omega)
    have hinput : checkInput (before ++ (mid ++ after)) before.length mid.length 1 = .ok () := by
      have hheader : ¬ (mid.length : ℤ) < 1 := by omega
      rw [checkInput, checkBufferLength, hstop, if_pos, checkHeaderLength, if_neg hheader]
      · rfl
      · simp only [List.length_append]
        omega
    have hcopy : copyOfRange (before ++ (mid ++ after)) before.length
        (before.length + mid.length) = .ok mid := by
      have horder : ¬ (before.length : ℤ) + mid.length < before.length := by omega
      have hstart : ¬ ((before.length : ℤ) < 0 ∨
          ((before ++ (mid ++ after)).length : ℤ) < before.length) := by
        simp only [List.length_append]
        omega
      rw [copyOfRange, if_neg horder, if_neg hstart]
      simp
    rw [hinput, hstop]
    change (do return Data.mk (← copyOfRange _ _ _)) = _
    rw [hcopy]
    rfl

/-- What is read as a payload: plain data, or a packet of a kind that is registered. -/
abbrev Payload (R : Type) := Data ⊕ R

def payloadOf {R : Type} (isRegistered : Bool) (registered : List Byte → ℤ → ℤ → Result R)
    (data : List Byte) (offset length : ℤ) : Result (Payload R) :=
  if isRegistered then (registered data offset length).map .inr
  else (Data.deserializer data offset length).map .inl

section Reading

theorem wrap_whole (data : List Byte) :
    (wrap data 0 data.length : Result _) = .ok ⟨[], data, []⟩ := by
  simp [wrap]

theorem deserialize_whole {α : Type} (x : Reader DeserializationException α) {data : List Byte}
    {required : ℤ} (hpos : 0 < required) (hint : data.length < 2 ^ 31)
    (hlen : required ≤ data.length) :
    (do
      checkInput data 0 data.length required
      let bb ← wrap data 0 data.length
      x.run' bb : Result α) = x.run' ⟨[], data, []⟩ := by
  have hne : data ≠ [] := by
    rintro rfl
    simp only [List.length_nil] at hlen
    omega
  rw [checkInput_whole hne hint hlen, wrap_whole]
  rfl

theorem deserialized {α : Type} {x : Reader DeserializationException α} {data : List Byte}
    {required : ℤ} {a : α} {b : ReadBuffer} (hpos : 0 < required) (hint : data.length < 2 ^ 31)
    (hlen : required ≤ data.length) (h : x ⟨[], data, []⟩ = .ok (a, b)) :
    (do
      checkInput data 0 data.length required
      let bb ← wrap data 0 data.length
      x.run' bb) = (.ok a : Result α) := by
  rw [deserialize_whole x hpos hint hlen]
  exact run'_of_ok h

theorem deserialized_from {α : Type} {x : Reader DeserializationException α} {data : List Byte}
    {offset length required : ℤ} {a : α} (h : (do
      checkInput data offset length required
      let bb ← wrap data offset length
      x.run' bb) = (.ok a : Result α)) : ∃ bb b, x bb = .ok (a, b) := by
  obtain ⟨-, -, h⟩ := bind_eq_ok.mp h
  obtain ⟨bb, -, h⟩ := bind_eq_ok.mp h
  obtain ⟨b, h⟩ := run'_eq_ok h
  exact ⟨bb, b, h⟩

theorem payloadOf_plain {R : Type} {registered : List Byte → ℤ → ℤ → Result R} {header payload : List Byte}
    (hint : (header ++ payload).length < 2 ^ 31) :
    payloadOf false registered (header ++ payload) header.length payload.length =
      .ok (.inl ⟨payload⟩) := by
  have hmid : Data.deserializer (header ++ (payload ++ [])) header.length payload.length =
      .ok ⟨payload⟩ := by
    apply Data.deserializer_mid
    rwa [List.append_nil]
  rw [List.append_nil] at hmid
  rw [payloadOf, if_neg (by decide), hmid]
  rfl

end Reading

end Packets

import Mathlib.Data.List.Forall2
import Onos.Packets

/-! The options of neighbor discovery packets, written and read back. The length of an option is a
signed byte, in units of eight octets. -/
namespace NeighborDiscoveryOptions

open BufferReaders ByteBuffer FallibleRun Packets WireBytes

def INITIAL_HEADER_REQUIRED : ℤ := 2

def BUFFER_UNDERFLOW_ERROR : String := "Not enough bytes in buffer to read option"

structure PacketOption where
  type : Byte
  data : List Byte
  deriving DecidableEq, Repr

namespace PacketOption

def dataLength (o : PacketOption) : ℤ := o.data.length

def optionLength (o : PacketOption) : ℤ := intOf (2 + o.dataLength)

def optionLengthField (o : PacketOption) : Byte := BitVec.ofInt 8 ((intOf (o.optionLength + 7)).tdiv 8)

def optionWireLength (o : PacketOption) : ℤ := 8 * o.optionLengthField.toInt

def chunks (o : PacketOption) : List (List Byte) :=
  [[o.type], [o.optionLengthField], o.data,
    List.replicate (intOf (o.optionWireLength - o.optionLength)).toNat 0]

end PacketOption

def wireLength (options : List PacketOption) : ℤ :=
  options.foldl (fun wireLength o => intOf (wireLength + o.optionWireLength)) 0

def serialize (options : List PacketOption) : Result (List Byte) :=
  fillNew (wireLength options) (options.flatMap PacketOption.chunks)

def readOption : Reader DeserializationException (Option PacketOption) := do
  let type ← getByte
  let remaining ← getRemaining
  require (0 < remaining) BUFFER_UNDERFLOW_ERROR
  let lengthField ← getByte
  let dataLength := lengthField.toInt * 8
  if dataLength < 2 then return none
  let remaining ← getRemaining
  require (dataLength - 2 ≤ remaining) BUFFER_UNDERFLOW_ERROR
  let optionData ← get (dataLength - 2).toNat
  return some ⟨type, optionData⟩

theorem reads_readOption {b : ReadBuffer} (h : 1 ≤ b.remaining) :
    Reads readOption b fun _ b' => b'.remaining < b.remaining := by
  refine (reads_getByte h).bind ?_
  rintro type _ rfl
  refine reads_getRemaining.bind ?_
  rintro _ _ ⟨rfl, rfl⟩
  refine (reads_lift (ensures_require _ _)).bind ?_
  rintro - _ ⟨hpos, rfl⟩
  refine (reads_getByte hpos).bind ?_
  rintro lengthField _ rfl
  simp only [remaining_advance] at hpos
  dsimp only
  split_ifs with hsmall
  · exact reads_pure (by simp only [remaining_advance]; omega)
  · refine reads_getRemaining.bind ?_
    rintro _ _ ⟨rfl, rfl⟩
    refine (reads_lift (ensures_require _ _)).bind ?_
    rintro - _ ⟨hroom, rfl⟩
    refine (reads_get (by omega)).bind ?_
    rintro optionData _ ⟨-, rfl⟩
    exact reads_pure (by simp only [remaining_advance]; omega)

theorem remaining_lt_of_readOption {b b' : ReadBuffer} {o : Option PacketOption}
    (h : readOption b = .ok (o, b')) : b'.remaining < b.remaining := by
  refine (reads_readOption ?_).ok h
  by_contra hempty
  obtain ⟨before, rest, beyond⟩ := b
  obtain rfl : rest = [] := List.length_eq_zero_iff.mp (by simpa [ReadBuffer.remaining] using hempty)
  cases h

def readOptions (options : List PacketOption) (bb : ReadBuffer) : Result (List PacketOption) :=
  if bb.hasRemaining then
    match _h : readOption bb with
    | .error e => .error e
    | .ok (none, _) => .ok options
    | .ok (some o, bb') => readOptions (options ++ [o]) bb'
  else .ok options
termination_by bb.remaining
decreasing_by exact remaining_lt_of_readOption _h

def deserializer (data : List Byte) (offset length : ℤ) : Result (List PacketOption) := do
  checkInput data offset length INITIAL_HEADER_REQUIRED
  let bb ← wrap data offset length
  readOptions [] bb

section Wire

namespace PacketOption

def units (o : PacketOption) : ℕ := (2 + o.data.length + 7) / 8

def paddedLength (o : PacketOption) : ℕ := 8 * o.units

def padded (o : PacketOption) : List Byte :=
  o.data ++ List.replicate (o.paddedLength - 2 - o.data.length) 0

variable {o : PacketOption}

theorem length_le_paddedLength (o : PacketOption) : 2 + o.data.length ≤ o.paddedLength := by
  rw [paddedLength, units]
  omega

theorem paddedLength_lt (o : PacketOption) : o.paddedLength - 2 - o.data.length < 8 := by
  rw [paddedLength, units]
  omega

theorem length_padded (o : PacketOption) : o.padded.length = o.paddedLength - 2 := by
  have hle := o.length_le_paddedLength
  rw [padded, List.length_append, List.length_replicate]
  omega

theorem optionLength_eq (h : o.units ≤ 255) : o.optionLength = 2 + o.data.length := by
  rw [units] at h
  rw [optionLength, dataLength, intOf_of_lt (by omega) (by omega)]

theorem optionLengthField_eq (h : o.units ≤ 255) :
    o.optionLengthField = BitVec.ofNat 8 o.units := by
  have hsum : intOf (o.optionLength + 7) = (2 + o.data.length + 7 : ℕ) := by
    have hlength := h
    rw [units] at hlength
    rw [optionLength_eq h, intOf_of_lt (by omega) (by omega)]
    omega
  rw [optionLengthField, hsum]
  exact BitVec.ofInt_natCast 8 o.units

theorem optionWireLength_eq (h : o.units ≤ 255) :
    o.optionWireLength = if o.units ≤ 127 then (o.paddedLength : ℤ) else o.paddedLength - 2048 := by
  rw [optionWireLength, optionLengthField_eq h, BitVec.toInt_eq_toNat_cond, BitVec.toNat_ofNat,
    Nat.mod_eq_of_lt (by omega), paddedLength]
  split_ifs <;> omega

def bytes (o : PacketOption) : List Byte := o.type :: BitVec.ofNat 8 o.units :: o.padded

theorem length_bytes (o : PacketOption) : o.bytes.length = o.paddedLength := by
  have hle := o.length_le_paddedLength
  rw [bytes, List.length_cons, List.length_cons, length_padded]
  omega

theorem flatten_chunks (h : o.units ≤ 127) : o.chunks.flatten = o.bytes := by
  have hwire : o.optionWireLength = o.paddedLength := by
    rw [optionWireLength_eq (by omega), if_pos h]
  have hpad : intOf (o.optionWireLength - o.optionLength) =
      (o.paddedLength - 2 - o.data.length : ℕ) := by
    have hle := o.length_le_paddedLength
    have hlt := o.paddedLength_lt
    rw [hwire, optionLength_eq (by omega), intOf_of_lt (by omega) (by omega)]
    omega
  rw [chunks, hpad, optionLengthField_eq (by omega), bytes, padded]
  simp

end PacketOption

theorem readOption_bytes {o : PacketOption} (h : o.units ≤ 127) (before rest beyond : List Byte) :
    readOption ⟨before, o.bytes ++ rest, beyond⟩ =
      .ok (some ⟨o.type, o.padded⟩, ⟨before ++ o.bytes, rest, beyond⟩) := by
  have hle := o.length_le_paddedLength
  have hpadded : o.paddedLength = 8 * o.units := rfl
  have hint : (BitVec.ofNat 8 o.units).toInt = o.units := toInt_ofNat_of_lt (by omega)
  have hcount : o.padded.length = ((o.units : ℤ) * 8 - 2).toNat := by
    rw [PacketOption.length_padded]
    omega
  have hrequire : require (0 < ReadBuffer.remaining
      ⟨before ++ [o.type], BitVec.ofNat 8 o.units :: (o.padded ++ rest), beyond⟩)
      BUFFER_UNDERFLOW_ERROR = .ok () := if_pos (by simp)
  have hrequire' : require ((o.units : ℤ) * 8 - 2 ≤ ReadBuffer.remaining
      ⟨before ++ [o.type] ++ [BitVec.ofNat 8 o.units], o.padded ++ rest, beyond⟩)
      BUFFER_UNDERFLOW_ERROR = .ok () := if_pos (by
    rw [remaining_mk, List.length_append]
    omega)
  rw [PacketOption.bytes, readOption]
  change (getByte >>= _) ⟨before, o.type :: (BitVec.ofNat 8 o.units :: (o.padded ++ rest)), beyond⟩ = _
  rw [bind_of_ok (getByte_cons _ _ _ _), bind_of_ok (getRemaining_apply _),
    bind_of_ok (lift_of_ok hrequire _), bind_of_ok (getByte_cons _ _ _ _), hint, if_neg (by omega),
    bind_of_ok (getRemaining_apply _), bind_of_ok (lift_of_ok hrequire' _),
    bind_of_ok (get_of_length _ _ _ _ hcount)]
  simp

theorem readOptions_bytes {options : List PacketOption} (h : ∀ o ∈ options, o.units ≤ 127)
    (read : List PacketOption) (before beyond : List Byte) :
    readOptions read ⟨before, options.flatMap PacketOption.bytes, beyond⟩ =
      .ok (read ++ options.map fun o => ⟨o.type, o.padded⟩) := by
  induction options generalizing read before with
  | nil => simp [readOptions, ReadBuffer.hasRemaining]
  | cons o options ih =>
    rw [List.forall_mem_cons] at h
    have hfirst := readOption_bytes h.1 before (options.flatMap PacketOption.bytes) beyond
    rw [List.flatMap_cons, readOptions, if_pos (by simp [ReadBuffer.hasRemaining, PacketOption.bytes])]
    split
    · next e he => cases hfirst.symm.trans he
    · next b he => cases hfirst.symm.trans he
    · next o' b he =>
      cases hfirst.symm.trans he
      rw [ih h.2, List.map_cons, List.append_assoc]
      rfl

def totalLength (options : List PacketOption) : ℕ := (options.map PacketOption.paddedLength).sum

theorem length_flatMap_bytes (options : List PacketOption) :
    (options.flatMap PacketOption.bytes).length = totalLength options := by
  rw [List.length_flatMap, totalLength]
  exact congrArg List.sum (List.map_congr_left fun o _ => o.length_bytes)

theorem wireLength_eq (options : List PacketOption) :
    wireLength options = intOf (options.map PacketOption.optionWireLength).sum := by
  have hfold : ∀ (options : List PacketOption) (n : ℤ),
      options.foldl (fun wireLength o => intOf (wireLength + o.optionWireLength)) (intOf n) =
        intOf (n + (options.map PacketOption.optionWireLength).sum) := by
    intro options
    induction options with
    | nil => simp
    | cons o options ih =>
      intro n
      have hstep : intOf (intOf n + o.optionWireLength) = intOf (n + o.optionWireLength) :=
        Int.bmod_add_bmod
      rw [List.foldl_cons, hstep, ih, List.map_cons, List.sum_cons, add_assoc]
  have hall := hfold options 0
  rw [zero_add] at hall
  exact hall

theorem sum_optionWireLength {options : List PacketOption} (h : ∀ o ∈ options, o.units ≤ 127) :
    (options.map PacketOption.optionWireLength).sum = totalLength options := by
  induction options with
  | nil => rfl
  | cons o options ih =>
    rw [List.forall_mem_cons] at h
    rw [List.map_cons, List.sum_cons, ih h.2, o.optionWireLength_eq (by omega), if_pos h.1, totalLength,
      totalLength, List.map_cons, List.sum_cons]
    exact (Nat.cast_add _ _).symm

theorem sum_optionWireLength_lt {options : List PacketOption} (h : ∀ o ∈ options, o.units ≤ 255) :
    -(totalLength options : ℤ) ≤ (options.map PacketOption.optionWireLength).sum ∧
      (options.map PacketOption.optionWireLength).sum ≤ totalLength options ∧
      ((∃ o ∈ options, 127 < o.units) →
        (options.map PacketOption.optionWireLength).sum < totalLength options) := by
  induction options with
  | nil => simp [totalLength]
  | cons o options ih =>
    rw [List.forall_mem_cons] at h
    obtain ⟨hlow, hhigh, hlt⟩ := ih h.2
    have hpadded : o.paddedLength = 8 * o.units := rfl
    have htotal : totalLength (o :: options) = o.paddedLength + totalLength options := rfl
    have hfirst := o.optionWireLength_eq h.1
    rw [List.map_cons, List.sum_cons, htotal]
    push_cast
    split_ifs at hfirst with hsmall
    · refine ⟨by omega, by omega, fun ⟨o', ho', hlarge⟩ => ?_⟩
      rcases List.mem_cons.mp ho' with rfl | ho'
      · omega
      · have hrest := hlt ⟨o', ho', hlarge⟩
        omega
    · exact ⟨by omega, by omega, fun _ => by omega⟩

end Wire

section RoundTrip

/-- The array is as long as the padded options, and the options come back with their types and padded
data. -/
def RoundTrips (options : List PacketOption) : Prop :=
  ∃ data, serialize options = .ok data ∧ data.length = totalLength options ∧
    ∃ options', deserializer data 0 data.length = .ok options' ∧
      List.Forall₂ (fun o o' => o'.type = o.type ∧
        ∃ n < 8, o'.data = o.data ++ List.replicate n 0) options options'

theorem serialize_eq {options : List PacketOption} (h : ∀ o ∈ options, o.units ≤ 127)
    (hint : totalLength options < 2 ^ 31) :
    serialize options = .ok (options.flatMap PacketOption.bytes) := by
  have hflat : (options.flatMap PacketOption.chunks).flatten = options.flatMap PacketOption.bytes := by
    rw [List.flatten_eq_flatMap, List.flatMap_assoc]
    refine List.flatMap_congr fun o ho => ?_
    rw [← List.flatten_eq_flatMap, PacketOption.flatten_chunks (h o ho)]
  rw [serialize, wireLength_eq, sum_optionWireLength h, intOf_of_lt (by omega) (by omega),
    fillNew_exact, hflat]
  rw [hflat, length_flatMap_bytes]

theorem roundTrips_of_fits {options : List PacketOption} (hne : options ≠ [])
    (h : ∀ o ∈ options, o.units ≤ 127) (hint : totalLength options < 2 ^ 31) :
    RoundTrips options := by
  have hlength := length_flatMap_bytes options
  obtain ⟨o, rest, rfl⟩ := List.exists_cons_of_ne_nil hne
  have htwo : 2 ≤ totalLength (o :: rest) := by
    have hle := o.length_le_paddedLength
    have htotal : totalLength (o :: rest) = o.paddedLength + totalLength rest := rfl
    omega
  refine ⟨_, serialize_eq h hint, hlength, [] ++ (o :: rest).map fun o => ⟨o.type, o.padded⟩, ?_, ?_⟩
  · have hbytes : (o :: rest).flatMap PacketOption.bytes ≠ [] := by
      intro hnil
      rw [hnil, List.length_nil] at hlength
      omega
    have hinput : checkInput ((o :: rest).flatMap PacketOption.bytes) 0
        ((o :: rest).flatMap PacketOption.bytes).length INITIAL_HEADER_REQUIRED = .ok () :=
      checkInput_whole hbytes (by omega) (by
        rw [hlength, INITIAL_HEADER_REQUIRED]
        omega)
    rw [deserializer, hinput, wrap_whole]
    exact readOptions_bytes h [] [] []
  · rw [List.nil_append, List.forall₂_map_right_iff, List.forall₂_same]
    exact fun o _ => ⟨rfl, _, o.paddedLength_lt, rfl⟩

theorem fits_of_roundTrips {options : List PacketOption} (h : ∀ o ∈ options, o.units ≤ 255)
    (hround : RoundTrips options) :
    options ≠ [] ∧ (∀ o ∈ options, o.units ≤ 127) ∧ totalLength options < 2 ^ 31 := by
  obtain ⟨data, hdata, hlength, options', hread, -⟩ := hround
  have hsize := length_of_fillNew hdata
  obtain ⟨hlow, hhigh, hlt⟩ := sum_optionWireLength_lt h
  rw [hlength, wireLength_eq] at hsize
  have hint : totalLength options < 2 ^ 31 := by
    have hbmod : intOf (options.map PacketOption.optionWireLength).sum < 2 ^ 31 :=
      Int.bmod_lt (by decide)
    omega
  refine ⟨?_, ?_, hint⟩
  · rintro rfl
    obtain rfl : data = [] := List.length_eq_zero_iff.mp hlength
    cases hread
  · intro o ho
    by_contra hlarge
    have hsum := hlt ⟨o, ho, by omega⟩
    have hsame : intOf (options.map PacketOption.optionWireLength).sum =
        (options.map PacketOption.optionWireLength).sum :=
      Int.bmod_eq_of_le (by omega) (by omega)
    omega

/-- The lengths that a signed byte can hold. -/
theorem optionsRoundTrip_iff (options : List PacketOption) (h : ∀ o ∈ options, o.units ≤ 255) :
    RoundTrips options ↔
      options ≠ [] ∧ (∀ o ∈ options, o.units ≤ 127) ∧ totalLength options < 2 ^ 31 :=
  ⟨fits_of_roundTrips h, fun hfits => roundTrips_of_fits hfits.1 hfits.2.1 hfits.2.2⟩

theorem roundTrips_two : RoundTrips [⟨1, [0x0a, 0, 0, 0, 0, 0x0b]⟩, ⟨5, [0, 0, 0, 0, 5, 0xdc, 1]⟩] :=
  (optionsRoundTrip_iff _ (by decide)).mpr (by decide)

def longOption : PacketOption := ⟨4, List.replicate 1015 1⟩

theorem units_longOption : longOption.units = 128 := by
  rw [PacketOption.units, longOption, List.length_replicate]

theorem not_roundTrips_longOption :
    (longOption.data ≠ [] ∧ longOption.units ≤ 255) ∧ ¬RoundTrips [longOption] := by
  have hunits : ∀ o ∈ [longOption], o.units ≤ 255 :=
    List.forall_mem_singleton.mpr (units_longOption.le.trans (by decide))
  refine ⟨⟨List.cons_ne_nil 1 _, hunits _ List.mem_cons_self⟩, fun h => ?_⟩
  have hfits := (fits_of_roundTrips hunits h).2.1 longOption List.mem_cons_self
  rw [units_longOption] at hfits
  omega

end RoundTrip

end NeighborDiscoveryOptions

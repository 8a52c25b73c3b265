import Onos.IpAddresses
import Onos.Lib.BitStrings

/-! Which addresses and which prefixes a prefix contains. Addresses are masked octet by octet. -/
namespace IpAddresses

open WireBytes BitStrings

def makeMaskPrefixArray (addrByteLength prefixLength : ℕ) : List Byte :=
  let maskBytes := prefixLength / 8
  let maskBits := prefixLength % 8
  let mask : List Byte :=
    List.replicate maskBytes 0xff ++ List.replicate (addrByteLength - maskBytes) 0
  if 0 < maskBits then mask.set maskBytes (((0xff : BitVec 32) <<< (8 - maskBits)).setWidth 8)
  else mask

def makeMaskedAddressArray (addr : IpAddress) (prefixLength : ℕ) : List Byte :=
  List.zipWith (· &&& ·) addr.toOctets (makeMaskPrefixArray addr.toOctets.length prefixLength)

namespace IpPrefix

def contains (p other : IpPrefix) : Bool :=
  if p.address.isIp4 ≠ other.address.isIp4 then false
  else if other.prefixLength < p.prefixLength then false
  else p.address.toOctets = makeMaskedAddressArray other.address p.prefixLength

def containsAddress (p : IpPrefix) (other : IpAddress) : Bool :=
  if p.address.isIp4 ≠ other.isIp4 then false
  else p.address.toOctets = makeMaskedAddressArray other p.prefixLength

def equals (p other : IpPrefix) : Bool :=
  p.prefixLength = other.prefixLength ∧ p.address = other.address

end IpPrefix

section Bits

namespace IpAddress

theorem length_toOctets (a : IpAddress) : 8 * a.toOctets.length = a.bitLength := by
  cases a with
  | INET octets => rw [toOctets, length_int, bitLength]
  | INET6 octets => rw [toOctets, length_address, bitLength]

theorem bitLength_eq {a b : IpAddress} (h : a.isIp4 = b.isIp4) : a.bitLength = b.bitLength := by
  cases a <;> cases b
  · rfl
  · cases h
  · cases h
  · rfl

def bit : IpAddress → ℕ → Bool
  | INET octets, i => octets.getMsbD i
  | INET6 octets, i => octets.getMsbD i

theorem bitAt_toOctets {a : IpAddress} {i : ℕ} (hi : i < a.bitLength) :
    bitAt a.toOctets i = a.bit i := by
  cases a with
  | INET octets => exact bitAt_bytesOf_toNat octets rfl hi
  | INET6 octets => exact bitAt_bytesOf_toNat octets rfl hi

theorem eq_of_bit {a b : IpAddress} (hversion : a.isIp4 = b.isIp4)
    (h : ∀ i < a.bitLength, a.bit i = b.bit i) : a = b := by
  cases a with
  | INET x =>
    cases b with
    | INET y => exact congrArg INET (BitVec.eq_of_getMsbD_eq h)
    | INET6 y => cases hversion
  | INET6 x =>
    cases b with
    | INET y => cases hversion
    | INET6 y => exact congrArg INET6 (BitVec.eq_of_getMsbD_eq h)

theorem getMsbD_maskOf {w n : ℕ} (hn : n ≤ w) (i : ℕ) :
    (maskOf w n).getMsbD i = decide (i < n) := by
  rw [maskOf, BitVec.getMsbD_shiftLeft, BitVec.getMsbD_allOnes]
  exact decide_eq_decide.mpr (by omega)

theorem bit_makeMaskedAddress {a : IpAddress} {n : ℕ} (hn : n ≤ a.bitLength) (i : ℕ) :
    (a.makeMaskedAddress n).bit i = (a.bit i && decide (i < n)) := by
  cases a with
  | INET x =>
    have hwidth : n ≤ 32 := hn
    rw [makeMaskedAddress, bit, bit, BitVec.getMsbD_and, getMsbD_maskOf hwidth]
  | INET6 x =>
    have hwidth : n ≤ 128 := hn
    rw [makeMaskedAddress, bit, bit, BitVec.getMsbD_and, getMsbD_maskOf hwidth]

def last (n : ℕ) : IpAddress → IpAddress
  | INET octets => INET (octets ||| ~~~maskOf 32 n)
  | INET6 octets => INET6 (octets ||| ~~~maskOf 128 n)

theorem isIp4_last (a : IpAddress) (n : ℕ) : (a.last n).isIp4 = a.isIp4 := by
  cases a <;> rfl

theorem bit_last {a : IpAddress} {n i : ℕ} (hn : n ≤ a.bitLength) (hi : i < a.bitLength) :
    (a.last n).bit i = (a.bit i || !decide (i < n)) := by
  cases a with
  | INET x =>
    have hwidth : n ≤ 32 := hn
    have hin : i < 32 := hi
    rw [last, bit, bit, BitVec.getMsbD_or, BitVec.getMsbD_not, getMsbD_maskOf hwidth,
      decide_eq_true hin, Bool.true_and]
  | INET6 x =>
    have hwidth : n ≤ 128 := hn
    have hin : i < 128 := hi
    rw [last, bit, bit, BitVec.getMsbD_or, BitVec.getMsbD_not, getMsbD_maskOf hwidth,
      decide_eq_true hin, Bool.true_and]

end IpAddress

theorem makeMaskPrefixArray_eq (n p : ℕ) : makeMaskPrefixArray n p =
    bordered n p 0xff (((0xff : BitVec 32) <<< (8 - p % 8)).setWidth 8) := by
  have hzero : (~~~0xff : Byte) = 0 := by decide
  rw [makeMaskPrefixArray, bordered, hzero]
  by_cases h : p % 8 = 0
  · rw [if_neg (by omega), if_pos h]
  · rw [if_pos (by omega), if_neg h]

theorem getMsbD_partialMask : ∀ bits < 8, ∀ j < 8,
    (((0xff : BitVec 32) <<< (8 - bits)).setWidth 8).getMsbD j =
      if j < bits then true else !true := by decide

theorem bitAt_makeMaskPrefixArray {n p i : ℕ} (hi : i < 8 * n) :
    bitAt (makeMaskPrefixArray n p) i = decide (i < p) := by
  rw [makeMaskPrefixArray_eq, bitAt_bordered true hi (by decide)
    (getMsbD_partialMask _ (Nat.mod_lt p (by decide)))]
  by_cases h : i < p
  · rw [if_pos h, decide_eq_true h]
  · rw [if_neg h, decide_eq_false h]
    rfl

theorem length_makeMaskedAddressArray {a : IpAddress} {n : ℕ} (hn : n ≤ a.bitLength) :
    (makeMaskedAddressArray a n).length = a.toOctets.length := by
  rw [makeMaskedAddressArray, List.length_zipWith, makeMaskPrefixArray_eq,
    length_bordered _ _ (a.length_toOctets ▸ hn), Nat.min_self]

theorem bitAt_makeMaskedAddressArray {a : IpAddress} {n i : ℕ} (hn : n ≤ a.bitLength)
    (hi : i < a.bitLength) :
    bitAt (makeMaskedAddressArray a n) i = (bitAt a.toOctets i && decide (i < n)) := by
  have hlength : a.toOctets.length = (makeMaskPrefixArray a.toOctets.length n).length := by
    rw [makeMaskPrefixArray_eq, length_bordered _ _ (a.length_toOctets ▸ hn)]
  rw [makeMaskedAddressArray, bitAt_zipWith_and hlength,
    bitAt_makeMaskPrefixArray (a.length_toOctets.symm ▸ hi)]

theorem toOctets_makeMaskedAddress {a : IpAddress} {n : ℕ} (hn : n ≤ a.bitLength) :
    (a.makeMaskedAddress n).toOctets = makeMaskedAddressArray a n := by
  have hversion : (a.makeMaskedAddress n).bitLength = a.bitLength := by cases a <;> rfl
  have hlength := (a.makeMaskedAddress n).length_toOctets
  have hlength' := a.length_toOctets
  refine ext (by rw [length_makeMaskedAddressArray hn]; omega) fun i hi => ?_
  rw [hlength, hversion] at hi
  rw [IpAddress.bitAt_toOctets (hversion ▸ hi), IpAddress.bit_makeMaskedAddress hn,
    bitAt_makeMaskedAddressArray hn hi, IpAddress.bitAt_toOctets hi]

end Bits

namespace IpPrefix

variable {p q : IpPrefix}

theorem bitAt_eq_false {i : ℕ} (h : p.prefixLength ≤ i) : bitAt p.address.toOctets i = false := by
  by_cases hi : i < p.address.bitLength
  · rw [← p.isMasked, toOctets_makeMaskedAddress p.le_bitLength,
      bitAt_makeMaskedAddressArray p.le_bitLength hi, decide_eq_false (by omega), Bool.and_false]
  · exact bitAt_of_le (by rw [IpAddress.length_toOctets]; omega)

theorem masked_iff {a : IpAddress} (hversion : p.address.isIp4 = a.isIp4) :
    p.address.toOctets = makeMaskedAddressArray a p.prefixLength ↔
      ∀ i < p.prefixLength, bitAt a.toOctets i = bitAt p.address.toOctets i := by
  have hbits := IpAddress.bitLength_eq hversion
  have hn : p.prefixLength ≤ a.bitLength := hbits ▸ p.le_bitLength
  constructor
  · intro h i hi
    rw [h, bitAt_makeMaskedAddressArray hn (by omega), decide_eq_true hi, Bool.and_true]
  · intro h
    have hlength := p.address.length_toOctets
    have hlength' := a.length_toOctets
    refine ext (by rw [length_makeMaskedAddressArray hn]; omega) fun i hi => ?_
    rw [bitAt_makeMaskedAddressArray hn (by omega)]
    by_cases hlt : i < p.prefixLength
    · rw [decide_eq_true hlt, Bool.and_true, h i hlt]
    · rw [decide_eq_false hlt, Bool.and_false, bitAt_eq_false (by omega)]

theorem containsAddress_iff {a : IpAddress} : p.containsAddress a = true ↔
    a.isIp4 = p.address.isIp4 ∧
      ∀ i < p.prefixLength, bitAt a.toOctets i = bitAt p.address.toOctets i := by
  rw [containsAddress]
  by_cases hversion : p.address.isIp4 = a.isIp4
  · rw [if_neg (not_not.mpr hversion), decide_eq_true_iff, masked_iff hversion]
    exact ⟨fun h => ⟨hversion.symm, h⟩, And.right⟩
  · rw [if_pos hversion]
    exact ⟨nofun, fun h => absurd h.1.symm hversion⟩

theorem contains_iff : p.contains q = true ↔
    p.prefixLength ≤ q.prefixLength ∧ p.containsAddress q.address = true := by
  rw [contains, containsAddress]
  split_ifs with hversion hlength
  · exact ⟨nofun, fun h => h.2⟩
  · exact ⟨nofun, fun h => absurd h.1 (by omega)⟩
  · exact ⟨fun h => ⟨by omega, h⟩, And.right⟩

theorem containsAddress_address : p.containsAddress p.address = true :=
  containsAddress_iff.mpr ⟨rfl, fun _ _ => rfl⟩

theorem prefixLength_le (h : ∀ a, q.containsAddress a = true → p.containsAddress a = true) :
    p.prefixLength ≤ q.prefixLength := by
  by_contra hlt
  obtain ⟨hversion, hfirst⟩ := containsAddress_iff.mp (h _ containsAddress_address)
  have hbits := IpAddress.bitLength_eq hversion
  have hp := p.le_bitLength
  have hlast : ∀ i < q.address.bitLength, bitAt (q.address.last q.prefixLength).toOctets i =
      (bitAt q.address.toOctets i || !decide (i < q.prefixLength)) := by
    intro i hi
    have hlength := IpAddress.bitLength_eq (q.address.isIp4_last q.prefixLength)
    rw [IpAddress.bitAt_toOctets (hlength ▸ hi), IpAddress.bit_last q.le_bitLength hi,
      IpAddress.bitAt_toOctets hi]
  have hin : q.containsAddress (q.address.last q.prefixLength) = true := by
    refine containsAddress_iff.mpr ⟨q.address.isIp4_last _, fun i hi => ?_⟩
    rw [hlast i (by omega), decide_eq_true hi, Bool.not_true, Bool.or_false]
  have hone := (containsAddress_iff.mp (h _ hin)).2 q.prefixLength (by omega)
  rw [← hfirst q.prefixLength (by omega), hlast _ (by omega), bitAt_eq_false le_rfl,
    decide_eq_false (Nat.lt_irrefl _)] at hone
  cases hone

theorem contains_iff_forall : p.contains q = true ↔
    ∀ a, q.containsAddress a = true → p.containsAddress a = true := by
  rw [contains_iff]
  constructor
  · rintro ⟨hle, hq⟩ a ha
    obtain ⟨hversion, hbits⟩ := containsAddress_iff.mp hq
    obtain ⟨hversion', hbits'⟩ := containsAddress_iff.mp ha
    refine containsAddress_iff.mpr ⟨hversion'.trans hversion, fun i hi => ?_⟩
    exact (hbits' i (by omega)).trans (hbits i hi)
  · intro h
    exact ⟨prefixLength_le h, h _ containsAddress_address⟩

theorem equals_iff : p.equals q = true ↔ p = q := by
  rw [equals, decide_eq_true_iff]
  constructor
  · obtain ⟨address, prefixLength, hle, hmasked⟩ := p
    obtain ⟨address', prefixLength', hle', hmasked'⟩ := q
    rintro ⟨hlength, haddress⟩
    cases hlength
    cases haddress
    rfl
  · rintro rfl
    exact ⟨rfl, rfl⟩

theorem eq_of_contains (hp : p.contains q = true) (hq : q.contains p = true) : p = q := by
  obtain ⟨hle, hin⟩ := contains_iff.mp hp
  obtain ⟨hge, -⟩ := contains_iff.mp hq
  obtain ⟨hversion, hbits⟩ := containsAddress_iff.mp hin
  have hlength : p.prefixLength = q.prefixLength := Nat.le_antisymm hle hge
  refine equals_iff.mp (decide_eq_true ⟨hlength, IpAddress.eq_of_bit hversion.symm ?_⟩)
  intro i hi
  rw [← IpAddress.bitAt_toOctets hi,
    ← IpAddress.bitAt_toOctets (IpAddress.bitLength_eq hversion ▸ hi)]
  by_cases hlt : i < p.prefixLength
  · exact (hbits i hlt).symm
  · rw [bitAt_eq_false (by omega), bitAt_eq_false (by omega)]

/-- Containment is inclusion of the sets of addresses. -/
theorem contains_is_inclusion (p q : IpPrefix) : (p.contains q = true ↔
      ∀ a, q.containsAddress a = true → p.containsAddress a = true) ∧
    (∀ a, p.containsAddress a = true ↔ a.isIp4 = p.address.isIp4 ∧
      ∀ i < p.prefixLength, bitAt a.toOctets i = bitAt p.address.toOctets i) ∧
    (p.equals q = true ↔ p.contains q = true ∧ q.contains p = true) := by
  refine ⟨contains_iff_forall, fun a => containsAddress_iff, ?_⟩
  rw [equals_iff]
  constructor
  · rintro rfl
    exact ⟨contains_iff_forall.mpr fun _ => id, contains_iff_forall.mpr fun _ => id⟩
  · rintro ⟨hp, hq⟩
    exact eq_of_contains hp hq

/-- Two prefixes never overlap in part. -/
theorem nested_or_disjoint (p q : IpPrefix) : p.contains q = true ∨ q.contains p = true ∨
    ∀ a, p.containsAddress a = true → q.containsAddress a = false := by
  by_contra hneither
  obtain ⟨hp, hq, hshared⟩ := by simpa only [not_or, not_forall] using hneither
  obtain ⟨a, hpa, hqa⟩ := hshared
  rw [Bool.not_eq_false] at hqa
  obtain ⟨hpversion, hpbits⟩ := containsAddress_iff.mp hpa
  obtain ⟨hqversion, hqbits⟩ := containsAddress_iff.mp hqa
  rcases Nat.le_total p.prefixLength q.prefixLength with hle | hle
  · refine hp (contains_iff.mpr ⟨hle, containsAddress_iff.mpr ⟨hqversion.symm.trans hpversion, ?_⟩⟩)
    exact fun i hi => (hqbits i (by omega)).symm.trans (hpbits i hi)
  · refine hq (contains_iff.mpr ⟨hle, containsAddress_iff.mpr ⟨hpversion.symm.trans hqversion, ?_⟩⟩)
    exact fun i hi => (hpbits i (by omega)).symm.trans (hqbits i hi)

end IpPrefix

end IpAddresses

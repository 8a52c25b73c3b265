import Onos.Packets
import Onos.Lib.BitStrings
import Mathlib.Data.Nat.Size

/-! Immutable byte sequences: their most significant bit, the sequences that fit a width, and those
that start with ones or with zeros. -/
namespace ByteSequences

open WireBytes ByteBuffer BitStrings Packets

section Model

/-- A sequence has at least one byte, and no more than an array can have. -/
structure ImmutableByteSequence where
  value : List Byte
  ne_nil : value ≠ []
  length_lt : value.length < 2 ^ 31
  deriving DecidableEq, Repr

inductive FitException where
  | byteSequenceTrim
  deriving DecidableEq, Repr

abbrev Result := Except (Thrown FitException)

/-- The bits of a byte from the highest down, and whether one of them broke off the scan. -/
def scanBits (b : Byte) : ℕ → ℤ → ℤ × Bool
  | 0, index => (index, false)
  | j + 1, index =>
    let mask : Byte := ((1 : BitVec 32) <<< j - 1).setWidth 8
    if b.signExtend 32 &&& ~~~(mask.signExtend 32) ≠ 0 then (index, true)
    else scanBits b j (intOf (index - 1))

def scanBytes : List Byte → ℤ → ℤ
  | [], index => index
  | b :: rest, index =>
    if b ≠ 0 then
      match scanBits b 8 index with
      | (index, true) => index
      | (index, false) => scanBytes rest (intOf (index - 8))
    else scanBytes rest (intOf (index - 8))

def msbIndex (s : ImmutableByteSequence) : ℤ :=
  scanBytes s.value (intOf (intOf (s.value.length * 8) - 1))

def fit (original : ImmutableByteSequence) (bitWidth : ℤ) : Result (List Byte) :=
  let size : ℤ := original.value.length
  if bitWidth ≤ 0 then .error .illegalArgument
  else
    let newByteWidth := (intOf (bitWidth + 7)).tdiv 8
    if bitWidth = intOf (size * 8) then .ok original.value
    else if newByteWidth < 0 then .error .illegalArgument
    else if size < newByteWidth then
      .ok (List.replicate (newByteWidth - size).toNat 0 ++ original.value)
    else if msbIndex original < bitWidth then
      .ok (original.value.drop (size - newByteWidth).toNat)
    else .error (.checked .byteSequenceTrim)

/-- `prefix` of the source. The number of bits is a long, of which the bytes are an int. -/
def prefixed (size prefixBits : ℕ) (val : Byte) : Result (List Byte) :=
  if ¬(val = 0 ∨ val = 0xff) then .error .illegalArgument
  else
    let prefixBytes := prefixBits / 8
    if size < prefixBytes then .error .indexOutOfBounds
    else
      let bytes := List.replicate prefixBytes val ++ List.replicate (size - prefixBytes) (~~~val)
      let partialBits := prefixBits % 8
      if partialBits ≠ 0 then
        .ok (bytes.set prefixBytes (if val = 0 then ((0xff : BitVec 32) >>> partialBits).setWidth 8
          else ((0xff : BitVec 32) <<< (8 - partialBits)).setWidth 8))
      else .ok bytes

def prefixZeros (size prefixBits : ℕ) : Result (List Byte) := prefixed size prefixBits 0

def prefixOnes (size prefixBits : ℕ) : Result (List Byte) := prefixed size prefixBits 0xff

end Model

section Index

theorem intOf_intOf_sub (x y : ℤ) : intOf (intOf x - y) = intOf (x - y) := Int.bmod_sub_bmod

theorem mask_iff : ∀ j < 8, ∀ b : Byte, (b.signExtend 32 &&&
    ~~~((((1 : BitVec 32) <<< j - 1).setWidth 8).signExtend 32 : BitVec 32) ≠ 0) ↔ 2 ^ j ≤ b.toNat := by
  decide +kernel

theorem scanBits_eq {b : Byte} (hb : b ≠ 0) {k : ℕ} (hk : k ≤ 8) (hlt : b.toNat < 2 ^ k) (i : ℤ) :
    scanBits b k (intOf i) = (intOf (i - k + Nat.size b.toNat), true) := by
  induction k generalizing i with
  | zero => exact absurd (BitVec.eq_of_toNat_eq (by simpa using hlt)) hb
  | succ j ih =>
    rw [scanBits]
    by_cases hbit : 2 ^ j ≤ b.toNat
    · have hsize : Nat.size b.toNat = j + 1 :=
        Nat.le_antisymm (Nat.size_le.mpr hlt) (Nat.lt_size.mpr hbit)
      rw [if_pos ((mask_iff j hk b).mpr hbit), hsize, Int.sub_add_cancel]
    · rw [if_neg (mt (mask_iff j hk b).mp hbit), intOf_intOf_sub, ih (by omega) (by omega)]
      congr 2
      push_cast
      ring

theorem size_valueOf_cons {b : Byte} (hb : b ≠ 0) (rest : List Byte) :
    Nat.size (valueOf (b :: rest)) = 8 * rest.length + Nat.size b.toNat := by
  have hpow : 256 ^ rest.length = 2 ^ (8 * rest.length) := by rw [pow_mul, show 2 ^ 8 = 256 from rfl]
  have hpos : 0 < Nat.size b.toNat := Nat.size_pos.mpr (by
    rw [Nat.pos_iff_ne_zero]
    exact fun h => hb (BitVec.eq_of_toNat_eq h))
  have hrest := valueOf_lt rest
  rw [valueOf, hpow]
  rw [hpow] at hrest
  apply Nat.le_antisymm
  · rw [Nat.size_le, pow_add, Nat.mul_comm (2 ^ _) (2 ^ _)]
    calc b.toNat * 2 ^ (8 * rest.length) + valueOf rest
        < (b.toNat + 1) * 2 ^ (8 * rest.length) := by rw [Nat.add_mul]; omega
      _ ≤ 2 ^ Nat.size b.toNat * 2 ^ (8 * rest.length) :=
        Nat.mul_le_mul_right _ (Nat.lt_size_self _)
  · have hhigh : 2 ^ (Nat.size b.toNat - 1) ≤ b.toNat := Nat.lt_size.mp (by omega)
    have hlt : 8 * rest.length + (Nat.size b.toNat - 1) <
        Nat.size (b.toNat * 2 ^ (8 * rest.length) + valueOf rest) := by
      rw [Nat.lt_size, pow_add, Nat.mul_comm (2 ^ _) (2 ^ _)]
      exact (Nat.mul_le_mul_right _ hhigh).trans (Nat.le_add_right _ _)
    omega

/-- The scan counts down to the highest bit, or below the lowest. -/
theorem scanBytes_eq (bytes : List Byte) (i : ℤ) :
    scanBytes bytes (intOf i) = intOf (i - 8 * bytes.length + Nat.size (valueOf bytes)) := by
  induction bytes generalizing i with
  | nil => simp [scanBytes, valueOf]
  | cons b rest ih =>
    rw [scanBytes]
    by_cases hb : b = 0
    · have hvalue : valueOf (b :: rest) = valueOf rest := by simp [valueOf, hb]
      rw [if_neg (not_not.mpr hb), intOf_intOf_sub, ih, hvalue, List.length_cons]
      congr 1
      push_cast
      ring
    · rw [if_pos hb, scanBits_eq hb le_rfl b.isLt, size_valueOf_cons hb, List.length_cons]
      dsimp only
      congr 1
      push_cast
      ring

theorem msbIndex_eq (s : ImmutableByteSequence) :
    msbIndex s = intOf (Nat.size (valueOf s.value) - 1) := by
  have hstart : intOf (intOf (s.value.length * 8) - 1) = intOf (s.value.length * 8 - 1) :=
    intOf_intOf_sub _ _
  rw [msbIndex, hstart, scanBytes_eq]
  exact congrArg intOf (by ring)

def IsMsbIndex (i : ℤ) (v : ℕ) : Prop :=
  v = 0 ∧ i = -1 ∨ ∃ k : ℕ, i = k ∧ 2 ^ k ≤ v ∧ v < 2 ^ (k + 1)

theorem isMsbIndex_iff {i : ℤ} {v : ℕ} : IsMsbIndex i v ↔ i = Nat.size v - 1 := by
  constructor
  · rintro (⟨rfl, rfl⟩ | ⟨k, rfl, hle, hlt⟩)
    · rw [Nat.size_zero, Nat.cast_zero, zero_sub]
    · have hsize : Nat.size v = k + 1 :=
        Nat.le_antisymm (Nat.size_le.mpr hlt) (Nat.lt_size.mpr hle)
      rw [hsize, Nat.cast_succ, add_sub_cancel_right]
  · rintro rfl
    cases hsize : Nat.size v with
    | zero => exact .inl ⟨Nat.size_eq_zero.mp hsize, by rw [Nat.cast_zero, zero_sub]⟩
    | succ k =>
      refine .inr ⟨k, by rw [Nat.cast_succ, add_sub_cancel_right], ?_, ?_⟩
      · exact Nat.lt_size.mp (by omega)
      · exact Nat.size_le.mp (by omega)

theorem isMsbIndex_msbIndex (s : ImmutableByteSequence) :
    IsMsbIndex (msbIndex s) (valueOf s.value) ↔ Nat.size (valueOf s.value) ≤ 2 ^ 31 := by
  rw [isMsbIndex_iff, msbIndex_eq, intOf, Int.bmod_def]
  split <;> omega

end Index

section Fit

/-- A sequence as a number: the index of its highest bit, and what becomes of it in a width. -/
def FitsExactly (s : ImmutableByteSequence) (w : ℕ) : Prop :=
  IsMsbIndex (msbIndex s) (valueOf s.value) ∧
  (fit s w = .error (.checked .byteSequenceTrim) ↔ 2 ^ w ≤ valueOf s.value) ∧
  (valueOf s.value < 2 ^ w →
    ∃ bytes, fit s w = .ok bytes ∧ bytes.length = (w + 7) / 8 ∧ valueOf bytes = valueOf s.value)

theorem valueOf_replicate_zero_append (k : ℕ) (bytes : List Byte) :
    valueOf (List.replicate k 0 ++ bytes) = valueOf bytes := by
  induction k with
  | zero => rfl
  | succ k ih =>
    rw [List.replicate_succ, List.cons_append, valueOf, ih]
    simp

theorem valueOf_drop {bytes : List Byte} {k : ℕ}
    (h : valueOf bytes < 256 ^ (bytes.length - k)) : valueOf (bytes.drop k) = valueOf bytes := by
  induction k generalizing bytes with
  | zero => rfl
  | succ k ih =>
    cases bytes with
    | nil => rfl
    | cons b rest =>
      rw [List.length_cons, Nat.add_sub_add_right] at h
      have hpow : 256 ^ (rest.length - k) ≤ 256 ^ rest.length :=
        Nat.pow_le_pow_right (by decide) (Nat.sub_le _ _)
      have hb : b.toNat = 0 := by
        by_contra hb
        have := Nat.le_mul_of_pos_left (256 ^ rest.length) (Nat.pos_of_ne_zero hb)
        rw [valueOf] at h
        omega
      have hvalue : valueOf (b :: rest) = valueOf rest := by
        rw [valueOf, hb, Nat.zero_mul, Nat.zero_add]
      rw [hvalue] at h ⊢
      exact ih h

/-- Nothing overflows: the bits of the number and the width are counted in ints. -/
def Countable (s : ImmutableByteSequence) (w : ℕ) : Prop :=
  Nat.size (valueOf s.value) ≤ 2 ^ 31 ∧ w + 7 < 2 ^ 31 ∧
    ((w : ℤ) = intOf (s.value.length * 8) → w = s.value.length * 8)

theorem tdiv_eight {n : ℕ} (h : n < 2 ^ 31) : (intOf n).tdiv 8 = (n / 8 : ℕ) := by
  rw [intOf_of_lt (by omega) (by omega), Int.tdiv_eq_ediv_of_nonneg (by omega)]
  omega

theorem fit_of_countable {s : ImmutableByteSequence} {w : ℕ} (hw : 0 < w) (h : Countable s w) :
    fit s w = if 2 ^ w ≤ valueOf s.value then .error (.checked .byteSequenceTrim)
      else .ok (bytesOf ((w + 7) / 8) (valueOf s.value)) := by
  obtain ⟨hsize, hint, hwrap⟩ := h
  have hvalue : valueOf s.value < 2 ^ (8 * s.value.length) := by
    rw [pow_mul, show 2 ^ 8 = 256 from rfl]
    exact valueOf_lt _
  have hwidth : (intOf (w + 7)).tdiv 8 = ((w + 7) / 8 : ℕ) := by
    rw [← tdiv_eight hint, Nat.cast_add, Nat.cast_ofNat]
  have hindex := isMsbIndex_iff.mp ((isMsbIndex_msbIndex s).mpr hsize)
  rw [fit, if_neg (by omega)]
  dsimp only
  rw [hwidth]
  by_cases hsame : (w : ℤ) = intOf (s.value.length * 8)
  · obtain rfl := hwrap hsame
    have hbytes : (s.value.length * 8 + 7) / 8 = s.value.length := by omega
    rw [if_pos hsame, if_neg (by rw [Nat.mul_comm]; omega), hbytes, bytesOf_valueOf]
  · rw [if_neg hsame, if_neg (by omega)]
    by_cases hpad : s.value.length < (w + 7) / 8
    · have hfit : valueOf s.value < 2 ^ w :=
        hvalue.trans_le (Nat.pow_le_pow_right (by decide) (by omega))
      have hlength : (List.replicate ((w + 7) / 8 - s.value.length) (0 : Byte) ++ s.value).length =
          (w + 7) / 8 := by
        rw [List.length_append, List.length_replicate]
        omega
      have hpadded := bytesOf_valueOf
        (List.replicate ((w + 7) / 8 - s.value.length) (0 : Byte) ++ s.value)
      rw [valueOf_replicate_zero_append, hlength] at hpadded
      rw [if_pos (by omega), if_neg (by omega), hpadded, ← Nat.cast_sub hpad.le, Int.toNat_natCast]
    · rw [if_neg (by omega), hindex]
      by_cases hfit : valueOf s.value < 2 ^ w
      · have hbits := Nat.size_le.mpr hfit
        have hroom : valueOf s.value < 256 ^ (s.value.length -
            (s.value.length - (w + 7) / 8)) := by
          rw [show 256 = 2 ^ 8 from rfl, ← pow_mul]
          exact hfit.trans_le (Nat.pow_le_pow_right (by decide) (by omega))
        have hdropped := bytesOf_valueOf (s.value.drop (s.value.length - (w + 7) / 8))
        rw [valueOf_drop hroom, List.length_drop,
          Nat.sub_sub_self (Nat.le_of_not_lt hpad)] at hdropped
        rw [if_pos (by omega), if_neg (by omega), hdropped,
          ← Nat.cast_sub (Nat.le_of_not_lt hpad), Int.toNat_natCast]
      · have hbits := mt Nat.size_le.mp hfit
        rw [if_neg (by omega), if_pos (by omega)]

theorem fitsExactly_iff {s : ImmutableByteSequence} {w : ℕ} (hw : 0 < w) (hint : w < 2 ^ 31) :
    FitsExactly s w ↔ Countable s w := by
  constructor
  · rintro ⟨hindex, htrim, hok⟩
    have hwrap : (w : ℤ) = intOf (s.value.length * 8) → fit s w = .ok s.value := by
      intro hsame
      rw [fit, if_neg (by omega)]
      exact if_pos hsame
    refine ⟨(isMsbIndex_msbIndex s).mp hindex, ?_, fun hsame => ?_⟩
    · by_contra hover
      have hother : (w : ℤ) ≠ intOf (s.value.length * 8) := by
        rw [intOf, Int.bmod_def]
        split <;> omega
      have hnegative : (intOf (w + 7)).tdiv 8 < 0 := by
        have hwrapped : intOf (w + 7) = -(2 ^ 32 - w - 7) := by
          rw [intOf, Int.bmod_def]
          split <;> omega
        rw [hwrapped, Int.neg_tdiv, Int.tdiv_eq_ediv_of_nonneg (by omega)]
        omega
      have hfail : fit s w = .error .illegalArgument := by
        rw [fit, if_neg (by omega)]
        dsimp only
        rw [if_neg hother, if_pos hnegative]
      by_cases hle : 2 ^ w ≤ valueOf s.value
      · have htrimmed := htrim.mpr hle
        rw [hfail] at htrimmed
        cases htrimmed
      · obtain ⟨bytes, hbytes, -⟩ := hok (Nat.lt_of_not_le hle)
        rw [hfail] at hbytes
        cases hbytes
    · have hsame' := hwrap hsame
      have hlt : valueOf s.value < 2 ^ w := by
        by_contra hle
        have htrimmed := htrim.mpr (Nat.le_of_not_lt hle)
        rw [hsame'] at htrimmed
        cases htrimmed
      obtain ⟨bytes, hbytes, hlength, -⟩ := hok hlt
      rw [hsame'] at hbytes
      cases hbytes
      rw [intOf, Int.bmod_def] at hsame
      split at hsame <;> omega
  · intro h
    refine ⟨(isMsbIndex_msbIndex s).mpr h.1, ?_, fun hlt => ?_⟩
    · rw [fit_of_countable hw h]
      split_ifs with hle
      · exact ⟨fun _ => hle, fun _ => rfl⟩
      · exact ⟨fun h' => (by cases h'), fun hle' => absurd hle' hle⟩
    · rw [fit_of_countable hw h, if_neg (Nat.not_le.mpr hlt)]
      refine ⟨_, rfl, length_bytesOf _ _, ?_⟩
      rw [valueOf_bytesOf, Nat.mod_eq_of_lt]
      refine hlt.trans_le ?_
      rw [show 256 = 2 ^ 8 from rfl, ← pow_mul]
      exact Nat.pow_le_pow_right (by decide) (by omega)

end Fit

section Prefixes

theorem prefixed_eq {n p : ℕ} {val : Byte} (hval : val = 0 ∨ val = 0xff) (hp : p ≤ 8 * n) :
    prefixed n p val = .ok (bordered n p val
      (if val = 0 then ((0xff : BitVec 32) >>> (p % 8)).setWidth 8
        else ((0xff : BitVec 32) <<< (8 - p % 8)).setWidth 8)) := by
  rw [prefixed, if_neg (not_not.mpr hval), bordered]
  dsimp only
  rw [if_neg (by omega), ite_not]
  split_ifs <;> rfl

theorem getMsbD_border : ∀ bits < 8, ∀ j < 8,
    (((0xff : BitVec 32) >>> bits).setWidth 8).getMsbD j = (if j < bits then false else !false) ∧
    (((0xff : BitVec 32) <<< (8 - bits)).setWidth 8).getMsbD j = if j < bits then true else !true := by
  decide

def PrefixesExact (n p : ℕ) : Prop :=
  ∃ ones zeros, prefixOnes n p = .ok ones ∧ prefixZeros n p = .ok zeros ∧
    ones.length = n ∧ (∀ i < 8 * n, bitAt ones i = decide (i < p)) ∧
    zeros.length = n ∧ (∀ i < 8 * n, bitAt zeros i = !decide (i < p)) ∧
    zeros = ones.map (~~~ ·)

theorem prefixesExact {n p : ℕ} (hp : p ≤ 8 * n) : PrefixesExact n p := by
  have hbits : p % 8 < 8 := Nat.mod_lt p (by decide)
  have hones : ∀ i < 8 * n, bitAt (bordered n p 0xff
      (((0xff : BitVec 32) <<< (8 - p % 8)).setWidth 8)) i = decide (i < p) := by
    intro i hi
    rw [bitAt_bordered true hi (by decide) fun j hj => (getMsbD_border _ hbits j hj).2]
    by_cases h : i < p <;> simp [h]
  have hzeros : ∀ i < 8 * n, bitAt (bordered n p 0
      (((0xff : BitVec 32) >>> (p % 8)).setWidth 8)) i = !decide (i < p) := by
    intro i hi
    rw [bitAt_bordered false hi (by decide) fun j hj => (getMsbD_border _ hbits j hj).1]
    by_cases h : i < p <;> simp [h]
  refine ⟨_, _, prefixed_eq (.inr rfl) hp, prefixed_eq (.inl rfl) hp, length_bordered _ _ hp,
    hones, length_bordered _ _ hp, hzeros, ?_⟩
  refine ext (by rw [List.length_map, length_bordered _ _ hp, length_bordered _ _ hp]) ?_
  intro i hi
  rw [length_bordered _ _ hp] at hi
  rw [bitAt_map_not (by rwa [length_bordered _ _ hp])]
  exact (hzeros i hi).trans (congrArg not (hones i hi).symm)

end Prefixes

/-- Sequences are fitted without changing their value where nothing overflows, and prefixes are made
as they are told. -/
theorem fitted_iff_countable (s : ImmutableByteSequence) {w : ℕ} (hw : 0 < w) (hint : w < 2 ^ 31)
    {n p : ℕ} (hp : p ≤ 8 * n) : FitsExactly s w ∧ PrefixesExact n p ↔ Countable s w :=
  ⟨fun h => (fitsExactly_iff hw hint).mp h.1,
    fun h => ⟨(fitsExactly_iff hw hint).mpr h, prefixesExact hp⟩⟩

def oneByte : ImmutableByteSequence := ⟨[1], by decide, by decide⟩

theorem fitted_oneByte : FitsExactly oneByte 12 ∧ PrefixesExact 2 5 :=
  (fitted_iff_countable oneByte (by decide) (by decide) (by decide)).mpr
    ⟨by decide, by decide, by decide⟩

/-- Rounding the width up to bytes overflows. -/
theorem oneByte_not_fitted : ¬ FitsExactly oneByte (2 ^ 31 - 1) := by
  intro h
  exact absurd ((fitsExactly_iff (by decide) (by decide)).mp h).2.1 (by decide)

end ByteSequences

import Onos.LinkStateHeaders
import Onos.Lib.Fletcher
import Onos.Packets

/-! The checksum of a link state advertisement: two running sums over its bytes in ints, and two
check bytes that make both of them multiples of 255. -/
namespace LsaChecksum

open Fletcher LinkStateHeaders Packets WireBytes

def LSAPACKET_CHECKSUM_POS1 : ℕ := 16

def LSAPACKET_CHECKSUM_POS2 : ℕ := 17

section Model

def addByte (checksumOut : ℤ × ℤ) (b : Byte) : ℤ × ℤ :=
  let first := intOf (checksumOut.1 + b.toNat)
  (first, intOf (checksumOut.2 + first))

def calculateLsaChecksum (lsaBytes : List Byte) (lsaChecksumPos1 lsaChecksumPos2 : ℕ) :
    Option (Byte × Byte) :=
  if lsaChecksumPos1 < lsaBytes.length ∧ lsaChecksumPos2 < lsaBytes.length then
    let tempLsaByte := (lsaBytes.set lsaChecksumPos1 0).set lsaChecksumPos2 0
    let checksumOut := (tempLsaByte.drop 2).foldl addByte (0, 0)
    let first := checksumOut.1.tmod 255
    let second := checksumOut.2.tmod 255
    let byte1 := (intOf (intOf ((tempLsaByte.length - lsaChecksumPos1 - 1) * first) - second)).tmod 255
    let byte1 := if byte1 ≤ 0 then byte1 + 255 else byte1
    let byte2 := 510 - first - byte1
    let byte2 := if byte2 > 255 then byte2 - 255 else byte2
    some (BitVec.ofInt 8 byte1, BitVec.ofInt 8 byte2)
  else none

def validateLsaCheckSum (lsaPacket : List Byte) (lsaChecksumPos1 lsaChecksumPos2 : ℕ) :
    Option Bool :=
  (calculateLsaChecksum lsaPacket lsaChecksumPos1 lsaChecksumPos2).map fun checksum =>
    lsaPacket[lsaChecksumPos1]? = some checksum.1 ∧ lsaPacket[lsaChecksumPos2]? = some checksum.2

def isValidLsaCheckSum (ospfLsa : List Byte) (lsType : ℤ) (lsaChecksumPos1 lsaChecksumPos2 : ℕ) :
    Option Bool :=
  if lsType = OspfLsaType.ROUTER.value then
    validateLsaCheckSum ospfLsa lsaChecksumPos1 lsaChecksumPos2
  else if lsType = OspfLsaType.NETWORK.value then
    validateLsaCheckSum ospfLsa lsaChecksumPos1 lsaChecksumPos2
  else if lsType = OspfLsaType.SUMMARY.value then
    validateLsaCheckSum ospfLsa lsaChecksumPos1 lsaChecksumPos2
  else if lsType = OspfLsaType.ASBR_SUMMARY.value then
    validateLsaCheckSum ospfLsa lsaChecksumPos1 lsaChecksumPos2
  else if lsType = OspfLsaType.EXTERNAL_LSA.value then
    validateLsaCheckSum ospfLsa lsaChecksumPos1 lsaChecksumPos2
  else if lsType = OspfLsaType.LINK_LOCAL_OPAQUE_LSA.value then
    validateLsaCheckSum ospfLsa lsaChecksumPos1 lsaChecksumPos2
  else if lsType = OspfLsaType.AREA_LOCAL_OPAQUE_LSA.value then
    validateLsaCheckSum ospfLsa lsaChecksumPos1 lsaChecksumPos2
  else if lsType = OspfLsaType.AS_OPAQUE_LSA.value then
    validateLsaCheckSum ospfLsa lsaChecksumPos1 lsaChecksumPos2
  else some false

end Model

section Sums

def digits (lsa : List Byte) : List ℕ := (lsa.drop 2).map BitVec.toNat

theorem intOf_intOf_add (a b : ℤ) : intOf (intOf a + b) = intOf (a + b) := Int.bmod_add_bmod

theorem foldl_addByte (bs : List Byte) (a b : ℕ)
    (h : a + (runningSums (bs.map BitVec.toNat)).1 < 2 ^ 31) :
    bs.foldl addByte (↑a, intOf ↑b) = (↑((bs.map BitVec.toNat).foldl advance (a, b)).1,
      intOf ↑((bs.map BitVec.toNat).foldl advance (a, b)).2) := by
  induction bs generalizing a b with
  | nil => rfl
  | cons d bs ih =>
    rw [List.map_cons, runningSums_cons] at h
    dsimp only at h
    have hfirst : intOf ((a : ℤ) + d.toNat) = ((a + d.toNat : ℕ) : ℤ) := by
      rw [intOf_of_lt] <;> push_cast <;> omega
    rw [List.foldl_cons, List.map_cons, List.foldl_cons, addByte, advance, ← ih _ _ (by omega)]
    dsimp only
    rw [hfirst, intOf_intOf_add]
    push_cast
    rfl

def clearedSums (lsa : List Byte) : ℕ × ℕ := runningSums (digits ((lsa.set 16 0).set 17 0))

theorem exists_parts {lsa : List Byte} (h : 18 ≤ lsa.length) :
    ∃ age before x y after, lsa = age ++ (before ++ x :: y :: after) ∧ age.length = 2 ∧
      before.length = 14 := by
  refine ⟨lsa.take 2, (lsa.drop 2).take 14, lsa[16], lsa[17], lsa.drop 18, ?_, ?_, ?_⟩
  · rw [List.getElem_cons_drop, List.getElem_cons_drop, ← List.drop_drop (i := 14) (j := 2),
      List.take_append_drop, List.take_append_drop]
  · rw [List.length_take]
    omega
  · rw [List.length_take, List.length_drop]
    omega

theorem set_parts {age before after : List Byte} (x y x' y' : Byte) (hage : age.length = 2)
    (hbefore : before.length = 14) :
    ((age ++ (before ++ x :: y :: after)).set 16 x').set 17 y' =
      age ++ (before ++ x' :: y' :: after) := by
  rw [List.set_append_right _ _ (by omega), List.set_append_right _ _ (by omega),
    List.set_append_right _ _ (by omega), List.set_append_right _ _ (by omega), hage, hbefore]
  rfl

theorem digits_parts {age before after : List Byte} (x y : Byte) (hage : age.length = 2) :
    digits (age ++ (before ++ x :: y :: after)) =
      before.map BitVec.toNat ++ x.toNat :: y.toNat :: after.map BitVec.toNat := by
  rw [digits, ← hage, List.drop_left, List.map_append, List.map_cons, List.map_cons]

/-- The sums of an advertisement with these check bytes are multiples of 255 exactly when the check
bytes make up for the other bytes. -/
theorem passes_set_iff {lsa : List Byte} (h : 18 ≤ lsa.length) (x y : Byte) :
    Passes 255 (digits ((lsa.set 16 x).set 17 y)) ↔
      (x.toNat : ℤ) ≡ (lsa.length - 17) * (clearedSums lsa).1 - (clearedSums lsa).2 [ZMOD 255] ∧
        (x.toNat + y.toNat : ℤ) ≡ -(clearedSums lsa).1 [ZMOD 255] := by
  obtain ⟨age, before, x₀, y₀, after, rfl, hage, hbefore⟩ := exists_parts h
  have hlen : ((age ++ (before ++ x₀ :: y₀ :: after)).length : ℤ) - 17 =
      (after.map BitVec.toNat).length + 1 := by
    simp only [List.length_append, List.length_cons, List.length_map, hage, hbefore]
    push_cast
    ring
  rw [clearedSums, set_parts _ _ _ _ hage hbefore, set_parts _ _ _ _ hage hbefore,
    digits_parts _ _ hage, digits_parts _ _ hage, hlen]
  exact passes_iff 255 _ _ _ _

theorem set_of_getElem {lsa : List Byte} {x y : Byte} (hx : lsa[16]? = some x)
    (hy : lsa[17]? = some y) : (lsa.set 16 x).set 17 y = lsa := by
  obtain ⟨hlt, rfl⟩ := List.getElem?_eq_some_iff.mp hx
  obtain ⟨hlt', rfl⟩ := List.getElem?_eq_some_iff.mp hy
  rw [List.set_getElem_self, List.set_getElem_self]

end Sums

section Bounds

theorem clearedSums_lt {lsa : List Byte} (h : lsa.length ≤ 65535) :
    (clearedSums lsa).1 < 2 ^ 24 ∧ (clearedSums lsa).2 < 2 ^ 39 := by
  have hdigits : ∀ d ∈ digits ((lsa.set 16 0).set 17 0), d ≤ 255 := by
    intro d hd
    obtain ⟨b, -, rfl⟩ := List.mem_map.mp hd
    have := b.isLt
    omega
  have hlen : (digits ((lsa.set 16 0).set 17 0)).length ≤ 65533 := by
    rw [digits, List.length_map, List.length_drop, List.length_set, List.length_set]
    omega
  obtain ⟨hfirst, hsecond⟩ := runningSums_le hdigits
  have hone := hfirst.trans (Nat.mul_le_mul_right 255 hlen)
  have htwo := hsecond.trans
    (Nat.mul_le_mul_right 255 (Nat.mul_le_mul hlen (Nat.succ_le_succ hlen)))
  rw [clearedSums]
  constructor <;> omega

/-- What an int keeps of the second sum differs from it by a multiple of 255 only if it is that
sum. -/
theorem intOf_modEq_iff {n : ℕ} (h : n < 2 ^ 39) : intOf n ≡ n [ZMOD 255] ↔ n < 2 ^ 31 := by
  constructor
  · intro hmod
    have hkept : intOf n = n - 4294967296 * Int.bdiv n (2 ^ 32) :=
      Int.bmod_eq_self_sub_mul_bdiv n (2 ^ 32)
    have hlow : -2147483648 ≤ intOf n := Int.le_bmod (x := (n : ℤ)) (m := 2 ^ 32) (by decide)
    have hhigh : intOf n < 2147483648 := Int.bmod_lt (x := (n : ℤ)) (m := 2 ^ 32) (by decide)
    obtain ⟨k, hk⟩ := Int.modEq_iff_dvd.mp hmod
    generalize intOf n = kept at *
    generalize Int.bdiv n (2 ^ 32) = carries at *
    -- 2 ^ 32 leaves the remainder 1, so the carries that are lost count each by itself
    have hcarries : carries = 255 * (k - 16843009 * carries) := by omega
    have hnone : carries = 0 := by omega
    omega
  · intro hlt
    rw [intOf_of_lt (by omega) (by omega)]

end Bounds

section CheckBytes

theorem eq_of_modEq {a b : ℤ} (h : a ≡ b [ZMOD 255]) (ha : 1 ≤ a ∧ a ≤ 255) (hb : 1 ≤ b ∧ b ≤ 255) :
    a = b := by
  obtain ⟨k, hk⟩ := Int.modEq_iff_dvd.mp h
  omega

theorem toNat_ofInt_byte {n : ℤ} (h : 0 ≤ n ∧ n ≤ 255) : ((BitVec.ofInt 8 n).toNat : ℤ) = n := by
  rw [BitVec.toNat_ofInt]
  omega

theorem tmod_modEq (n : ℤ) : n.tmod 255 ≡ n [ZMOD 255] := by
  refine Int.modEq_iff_dvd.mpr ⟨n.tdiv 255, ?_⟩
  have := Int.mul_tdiv_add_tmod n 255
  omega

theorem intOf_of_range {n : ℤ} (hlow : -2147483648 ≤ n) (hhigh : n < 2147483648) : intOf n = n := by
  rw [intOf]
  exact Int.bmod_eq_of_le (by omega) (by omega)

theorem byte1_spec {p second byte1 : ℤ} (hp : 0 ≤ p ∧ p < 2 ^ 30) (hsecond : -255 < second ∧ second < 255)
    (h : byte1 = (intOf (intOf p - second)).tmod 255) :
    (1 ≤ (if byte1 ≤ 0 then byte1 + 255 else byte1) ∧
      (if byte1 ≤ 0 then byte1 + 255 else byte1) ≤ 255) ∧
      (if byte1 ≤ 0 then byte1 + 255 else byte1) ≡ p - second [ZMOD 255] := by
  rw [intOf_of_range (n := p) (by omega) (by omega), intOf_of_range (by omega) (by omega)] at h
  obtain ⟨k, hk⟩ := Int.modEq_iff_dvd.mp (tmod_modEq (p - second))
  have hlow := Int.lt_tmod_of_pos (p - second) (b := 255) (by decide)
  have hhigh := Int.tmod_lt_of_pos (p - second) (b := 255) (by decide)
  rw [← h] at hk hlow hhigh
  split_ifs
  · exact ⟨by omega, Int.modEq_iff_dvd.mpr ⟨k - 1, by omega⟩⟩
  · exact ⟨by omega, Int.modEq_iff_dvd.mpr ⟨k, by omega⟩⟩

theorem byte2_spec {first byte1 byte2 : ℤ} (hfirst : 0 ≤ first ∧ first < 255)
    (hbyte1 : 1 ≤ byte1 ∧ byte1 ≤ 255) (h : byte2 = 510 - first - byte1) :
    (1 ≤ (if byte2 > 255 then byte2 - 255 else byte2) ∧
      (if byte2 > 255 then byte2 - 255 else byte2) ≤ 255) ∧
      byte1 + (if byte2 > 255 then byte2 - 255 else byte2) ≡ -first [ZMOD 255] := by
  split_ifs
  · exact ⟨by omega, Int.modEq_iff_dvd.mpr ⟨-1, by omega⟩⟩
  · exact ⟨by omega, Int.modEq_iff_dvd.mpr ⟨-2, by omega⟩⟩

theorem calculateLsaChecksum_spec {lsa : List Byte} (h : 18 ≤ lsa.length)
    (hle : lsa.length ≤ 65535) : ∃ x y : Byte,
      calculateLsaChecksum lsa LSAPACKET_CHECKSUM_POS1 LSAPACKET_CHECKSUM_POS2 = some (x, y) ∧
      1 ≤ x.toNat ∧ 1 ≤ y.toNat ∧
      (x.toNat : ℤ) ≡ (lsa.length - 17) * (clearedSums lsa).1 - intOf (clearedSums lsa).2 [ZMOD 255] ∧
      (x.toNat + y.toNat : ℤ) ≡ -(clearedSums lsa).1 [ZMOD 255] := by
  obtain ⟨hfirst, -⟩ := clearedSums_lt hle
  have hfold : (((lsa.set 16 0).set 17 0).drop 2).foldl addByte (0, 0) =
      (↑(clearedSums lsa).1, intOf ↑(clearedSums lsa).2) := by
    refine foldl_addByte (((lsa.set 16 0).set 17 0).drop 2) 0 0 ?_
    rw [Nat.zero_add]
    exact hfirst.trans (by decide)
  have hlen : ((lsa.set 16 0).set 17 0).length = lsa.length := by
    rw [List.length_set, List.length_set]
  rw [calculateLsaChecksum, if_pos (by simp only [LSAPACKET_CHECKSUM_POS1, LSAPACKET_CHECKSUM_POS2]; omega)]
  simp only [LSAPACKET_CHECKSUM_POS1, LSAPACKET_CHECKSUM_POS2, hfold, hlen]
  generalize (clearedSums lsa).1 = c₀ at hfirst ⊢
  generalize intOf ↑(clearedSums lsa).2 = c₁
  have hrange : 0 ≤ (c₀ : ℤ).tmod 255 ∧ (c₀ : ℤ).tmod 255 < 255 :=
    ⟨Int.tmod_nonneg _ (Int.natCast_nonneg _), Int.tmod_lt_of_pos _ (by decide)⟩
  have hsecond : -255 < c₁.tmod 255 ∧ c₁.tmod 255 < 255 :=
    ⟨Int.lt_tmod_of_pos _ (by decide), Int.tmod_lt_of_pos _ (by decide)⟩
  have hplace : (lsa.length : ℤ) - (16 : ℕ) - 1 = lsa.length - 17 := by
    push_cast
    ring
  have hproduct : 0 ≤ ((lsa.length : ℤ) - 17) * (c₀ : ℤ).tmod 255 ∧
      ((lsa.length : ℤ) - 17) * (c₀ : ℤ).tmod 255 < 2 ^ 30 := by
    refine ⟨Int.mul_nonneg (by omega) hrange.1, ?_⟩
    calc ((lsa.length : ℤ) - 17) * (c₀ : ℤ).tmod 255
        ≤ 65518 * 255 := Int.mul_le_mul (by omega) hrange.2.le hrange.1 (by decide)
      _ < 2 ^ 30 := by decide
  rw [hplace]
  obtain ⟨hone, hmod⟩ := byte1_spec hproduct hsecond rfl
  obtain ⟨htwo, hsum⟩ := byte2_spec hrange hone rfl
  have hone' := toNat_ofInt_byte ⟨by omega, hone.2⟩
  have htwo' := toNat_ofInt_byte ⟨by omega, htwo.2⟩
  refine ⟨_, _, rfl, by omega, by omega, ?_, ?_⟩
  · rw [hone']
    exact hmod.trans (((tmod_modEq c₀).mul_left _).sub (tmod_modEq c₁))
  · rw [hone', htwo']
    exact hsum.trans (tmod_modEq c₀).neg

end CheckBytes

section Results

variable {lsa : List Byte}

def Fits (lsa : List Byte) : Prop := (clearedSums lsa).2 < 2 ^ 31

instance (lsa : List Byte) : Decidable (Fits lsa) := inferInstanceAs (Decidable (_ < _))

theorem stored_passes_iff (h : 18 ≤ lsa.length) (hle : lsa.length ≤ 65535) : ∃ x y : Byte,
    calculateLsaChecksum lsa LSAPACKET_CHECKSUM_POS1 LSAPACKET_CHECKSUM_POS2 = some (x, y) ∧
      (Passes 255 (digits ((lsa.set 16 x).set 17 y)) ↔ Fits lsa) := by
  obtain ⟨x, y, hcalc, -, -, hx, hsum⟩ := calculateLsaChecksum_spec h hle
  refine ⟨x, y, hcalc, ?_⟩
  rw [passes_set_iff h, and_iff_left hsum, Fits, ← intOf_modEq_iff (clearedSums_lt hle).2]
  constructor
  · intro hmod
    refine Int.ModEq.add_left_cancel (hx.symm.trans hmod) ?_
    rw [sub_add_cancel, sub_add_cancel]
  · exact fun hmod => hx.trans (hmod.sub_left _)

/-- The check bytes are not zero, though a multiple of 255 may be written so. -/
def HasCheckBytes (lsa : List Byte) : Prop :=
  ∀ b, lsa[16]? = some b ∨ lsa[17]? = some b → b ≠ 0

theorem validate_iff (h : 18 ≤ lsa.length) (hle : lsa.length ≤ 65535) (hfits : Fits lsa) :
    validateLsaCheckSum lsa LSAPACKET_CHECKSUM_POS1 LSAPACKET_CHECKSUM_POS2 = some true ↔
      Passes 255 (digits lsa) ∧ HasCheckBytes lsa := by
  obtain ⟨x, y, hcalc, hxpos, hypos, hx, hsum⟩ := calculateLsaChecksum_spec h hle
  have hkept := (intOf_modEq_iff (clearedSums_lt hle).2).mpr hfits
  have hx' := hx.trans (hkept.sub_left _)
  obtain ⟨x₀, hx₀⟩ : ∃ x₀, lsa[16]? = some x₀ := ⟨_, List.getElem?_eq_getElem (by omega)⟩
  obtain ⟨y₀, hy₀⟩ : ∃ y₀, lsa[17]? = some y₀ := ⟨_, List.getElem?_eq_getElem (by omega)⟩
  have haccept : validateLsaCheckSum lsa LSAPACKET_CHECKSUM_POS1 LSAPACKET_CHECKSUM_POS2 = some true ↔
      x₀ = x ∧ y₀ = y := by
    rw [validateLsaCheckSum, hcalc]
    simp [LSAPACKET_CHECKSUM_POS1, LSAPACKET_CHECKSUM_POS2, hx₀, hy₀]
  have hnonzero : HasCheckBytes lsa ↔ x₀ ≠ 0 ∧ y₀ ≠ 0 := by
    rw [HasCheckBytes, hx₀, hy₀]
    constructor
    · exact fun hb => ⟨hb x₀ (Or.inl rfl), hb y₀ (Or.inr rfl)⟩
    · rintro ⟨hne, hne'⟩ b (hb | hb)
      · exact Option.some.inj hb ▸ hne
      · exact Option.some.inj hb ▸ hne'
  have hpasses := passes_set_iff h x₀ y₀
  rw [set_of_getElem hx₀ hy₀] at hpasses
  rw [haccept, hpasses, hnonzero]
  constructor
  · rintro ⟨rfl, rfl⟩
    refine ⟨⟨hx', hsum⟩, ?_, ?_⟩
    · rintro rfl
      cases hxpos
    · rintro rfl
      cases hypos
  · rintro ⟨⟨hx₀', hsum₀⟩, hne, hne'⟩
    have hrange : ∀ {b : Byte}, 1 ≤ b.toNat → (1 : ℤ) ≤ b.toNat ∧ (b.toNat : ℤ) ≤ 255 := by
      intro b hb
      have := b.isLt
      omega
    have hpos : ∀ {b : Byte}, b ≠ 0 → 1 ≤ b.toNat := fun hb =>
      Nat.pos_of_ne_zero fun hzero => hb (BitVec.eq_of_toNat_eq hzero)
    have hfirst := eq_of_modEq (hx₀'.trans hx'.symm) (hrange (hpos hne)) (hrange hxpos)
    have hsums := hsum₀.trans hsum.symm
    rw [hfirst] at hsums
    have hsecond := eq_of_modEq (Int.ModEq.add_left_cancel' _ hsums) (hrange (hpos hne'))
      (hrange hypos)
    exact ⟨BitVec.eq_of_toNat_eq (Int.ofNat_inj.mp hfirst),
      BitVec.eq_of_toNat_eq (Int.ofNat_inj.mp hsecond)⟩

theorem isValidLsaCheckSum_eq {t : OspfLsaType} (ht : t ≠ .UNDEFINED) (pos1 pos2 : ℕ) :
    isValidLsaCheckSum lsa t.value pos1 pos2 = validateLsaCheckSum lsa pos1 pos2 := by
  cases t <;> first | rfl | exact absurd rfl ht

/-- A router advertisement without links, with a first check byte that is 255 or 0. -/
def linkless (check : Byte) : List Byte :=
  [0, 1, 2, 1, 10, 0, 0, 1, 10, 0, 0, 1, 0x80, 0, 0, 74, check, 4, 0, 24, 0, 0, 0, 0]

end Results

end LsaChecksum

import Onos.Lib.Texts

/-! Headers of link state advertisements, and the texts that name an advertisement: its addresses
and the key it has in the link state database. -/
namespace LinkStateHeaders

open Texts WireBytes

def LSREFRESHTIME : ℕ := 1800

def MAXAGE : ℕ := 3600

def CHECKAGE : ℕ := 300

def MAXAGEDIFF : ℤ := 900

structure Ip4Address where
  first : Byte
  second : Byte
  third : Byte
  fourth : Byte
  deriving DecidableEq

def Ip4Address.toOctets (a : Ip4Address) : List Byte := [a.first, a.second, a.third, a.fourth]

def dotted (a b c d : ℤ) : String :=
  ofInt a ++ "." ++ ofInt b ++ "." ++ ofInt c ++ "." ++ ofInt d

def Ip4Address.text (a : Ip4Address) : String :=
  dotted a.first.toNat a.second.toNat a.third.toNat a.fourth.toNat

inductive OspfLsaType where
  | ROUTER
  | NETWORK
  | SUMMARY
  | ASBR_SUMMARY
  | EXTERNAL_LSA
  | LINK_LOCAL_OPAQUE_LSA
  | AREA_LOCAL_OPAQUE_LSA
  | AS_OPAQUE_LSA
  | UNDEFINED
  deriving DecidableEq, Repr

def OspfLsaType.value : OspfLsaType → ℤ
  | .ROUTER => 1
  | .NETWORK => 2
  | .SUMMARY => 3
  | .ASBR_SUMMARY => 4
  | .EXTERNAL_LSA => 5
  | .LINK_LOCAL_OPAQUE_LSA => 9
  | .AREA_LOCAL_OPAQUE_LSA => 10
  | .AS_OPAQUE_LSA => 11
  | .UNDEFINED => 20

def OspfLsaType.ofValue (v : ℤ) : OspfLsaType :=
  if v = OspfLsaType.ROUTER.value then .ROUTER
  else if v = OspfLsaType.NETWORK.value then .NETWORK
  else if v = OspfLsaType.SUMMARY.value then .SUMMARY
  else if v = OspfLsaType.ASBR_SUMMARY.value then .ASBR_SUMMARY
  else if v = OspfLsaType.EXTERNAL_LSA.value then .EXTERNAL_LSA
  else if v = OspfLsaType.LINK_LOCAL_OPAQUE_LSA.value then .LINK_LOCAL_OPAQUE_LSA
  else if v = OspfLsaType.AREA_LOCAL_OPAQUE_LSA.value then .AREA_LOCAL_OPAQUE_LSA
  else if v = OspfLsaType.AS_OPAQUE_LSA.value then .AS_OPAQUE_LSA
  else .UNDEFINED

def OspfLsaType.isOpaqueType : OspfLsaType → Bool
  | .LINK_LOCAL_OPAQUE_LSA => true
  | .AREA_LOCAL_OPAQUE_LSA => true
  | .AS_OPAQUE_LSA => true
  | _ => false

theorem value_ofValue {v : ℤ} {t : OspfLsaType} (h : OspfLsaType.ofValue v = t)
    (ht : t ≠ .UNDEFINED) : v = t.value := by
  subst h
  unfold OspfLsaType.ofValue at ht ⊢
  repeat' split at ht
  all_goals simp_all

/-- The header of an advertisement. The opaque type and id are those of an `OpaqueLsaHeader`; no
one reads them unless the type is one of the three opaque types. -/
structure LsaHeader where
  age : ℤ
  options : ℤ
  lsType : ℤ
  linkStateId : String
  opaqueType : ℤ
  opaqueId : ℤ
  advertisingRouter : Ip4Address
  lsSequenceNo : ℤ
  lsCheckSum : ℤ
  lsPacketLen : ℤ
  deriving DecidableEq

def LsaHeader.getOspfLsaType (h : LsaHeader) : OspfLsaType := OspfLsaType.ofValue h.lsType

def LsaHeader.setAge (h : LsaHeader) (age : ℤ) : LsaHeader := { h with age := age }

/-- The key of an advertisement of one of the known types; `link` is its link state id. -/
def keyOf (lsType : ℤ) (link : String) (router : String) : String :=
  ofInt lsType ++ "-" ++ link ++ "-" ++ router

def getLsaKey (lsaHeader : LsaHeader) : String :=
  match lsaHeader.getOspfLsaType with
  | .LINK_LOCAL_OPAQUE_LSA | .AREA_LOCAL_OPAQUE_LSA | .AS_OPAQUE_LSA =>
    keyOf lsaHeader.lsType (ofInt lsaHeader.opaqueType ++ ofInt lsaHeader.opaqueId)
      lsaHeader.advertisingRouter.text
  | .ROUTER | .NETWORK | .ASBR_SUMMARY | .SUMMARY | .EXTERNAL_LSA =>
    keyOf lsaHeader.lsType lsaHeader.linkStateId lsaHeader.advertisingRouter.text
  | .UNDEFINED => ""

inductive Newness where
  | latest
  | old
  | same
  deriving DecidableEq, Repr

/-- How the first of two instances of an advertisement compares to the second. -/
def isNewerOrSameLsa (lsa1 lsa2 : LsaHeader) : Newness :=
  if lsa1.lsSequenceNo > lsa2.lsSequenceNo then .latest
  else if lsa1.lsSequenceNo < lsa2.lsSequenceNo then .old
  else if lsa1.lsCheckSum > lsa2.lsCheckSum then .latest
  else if lsa1.lsCheckSum < lsa2.lsCheckSum then .old
  else if lsa1.age = lsa2.age then .same
  else if lsa1.age = MAXAGE then .latest
  else if lsa2.age = MAXAGE then .old
  else if MAXAGEDIFF = lsa1.age - lsa2.age then
    if lsa1.age < lsa2.age then .latest else .old
  else .same

@[simp] theorem getLsaKey_setAge (h : LsaHeader) (age : ℤ) : getLsaKey (h.setAge age) = getLsaKey h :=
  rfl

section Recency

def recency (lsa1 lsa2 : LsaHeader) : Newness :=
  if lsa1.lsSequenceNo ≠ lsa2.lsSequenceNo then
    if lsa1.lsSequenceNo > lsa2.lsSequenceNo then .latest else .old
  else if lsa1.lsCheckSum ≠ lsa2.lsCheckSum then
    if lsa1.lsCheckSum > lsa2.lsCheckSum then .latest else .old
  else if lsa1.age = MAXAGE ∧ lsa2.age ≠ MAXAGE then .latest
  else if lsa2.age = MAXAGE ∧ lsa1.age ≠ MAXAGE then .old
  else if ((lsa1.age - lsa2.age).natAbs : ℤ) > MAXAGEDIFF then
    if lsa1.age < lsa2.age then .latest else .old
  else .same

structure IsConsistent (lsa1 lsa2 : LsaHeader) : Prop where
  latest : isNewerOrSameLsa lsa1 lsa2 = .latest ↔ isNewerOrSameLsa lsa2 lsa1 = .old
  old : isNewerOrSameLsa lsa1 lsa2 = .old ↔ isNewerOrSameLsa lsa2 lsa1 = .latest
  same : isNewerOrSameLsa lsa1 lsa2 = .same ↔ isNewerOrSameLsa lsa2 lsa1 = .same
  trans : ∀ lsa3, isNewerOrSameLsa lsa1 lsa2 = .latest → isNewerOrSameLsa lsa2 lsa3 = .latest →
    isNewerOrSameLsa lsa1 lsa3 = .latest
  recency : isNewerOrSameLsa lsa1 lsa2 = recency lsa1 lsa2

/-- Only the ages tell the instances apart, and by the difference that counts. -/
def IsFarApart (lsa1 lsa2 : LsaHeader) : Prop :=
  lsa1.lsSequenceNo = lsa2.lsSequenceNo ∧ lsa1.lsCheckSum = lsa2.lsCheckSum ∧
    lsa1.age ≠ MAXAGE ∧ lsa2.age ≠ MAXAGE ∧ ((lsa1.age - lsa2.age).natAbs : ℤ) ≥ MAXAGEDIFF

variable {lsa1 lsa2 lsa3 : LsaHeader}

theorem latest_iff : isNewerOrSameLsa lsa1 lsa2 = .latest ↔
    lsa1.lsSequenceNo > lsa2.lsSequenceNo ∨ lsa1.lsSequenceNo = lsa2.lsSequenceNo ∧
      (lsa1.lsCheckSum > lsa2.lsCheckSum ∨ lsa1.lsCheckSum = lsa2.lsCheckSum ∧
        lsa1.age = MAXAGE ∧ lsa2.age ≠ MAXAGE) := by
  unfold isNewerOrSameLsa MAXAGEDIFF
  rcases lt_trichotomy lsa1.lsSequenceNo lsa2.lsSequenceNo with hseq | hseq | hseq
  · simp [hseq, hseq.not_gt, hseq.ne]
  · rcases lt_trichotomy lsa1.lsCheckSum lsa2.lsCheckSum with hsum | hsum | hsum
    · simp [hseq, hsum, hsum.not_gt, hsum.ne]
    · simp only [hseq, hsum, gt_iff_lt, lt_irrefl, if_false, false_or, true_and]
      split_ifs <;> simp only [true_iff, false_iff] <;> omega
    · simp [hseq, hsum]
  · simp [hseq]

theorem old_iff : isNewerOrSameLsa lsa1 lsa2 = .old ↔
    lsa1.lsSequenceNo < lsa2.lsSequenceNo ∨ lsa1.lsSequenceNo = lsa2.lsSequenceNo ∧
      (lsa1.lsCheckSum < lsa2.lsCheckSum ∨ lsa1.lsCheckSum = lsa2.lsCheckSum ∧
        lsa1.age ≠ MAXAGE ∧ (lsa2.age = MAXAGE ∨ lsa1.age - lsa2.age = MAXAGEDIFF)) := by
  unfold isNewerOrSameLsa MAXAGEDIFF
  rcases lt_trichotomy lsa1.lsSequenceNo lsa2.lsSequenceNo with hseq | hseq | hseq
  · simp [hseq, hseq.not_gt]
  · rcases lt_trichotomy lsa1.lsCheckSum lsa2.lsCheckSum with hsum | hsum | hsum
    · simp [hseq, hsum, hsum.not_gt]
    · simp only [hseq, hsum, gt_iff_lt, lt_irrefl, if_false, false_or, true_and]
      split_ifs <;> simp only [true_iff, false_iff] <;> omega
    · simp [hseq, hsum, hsum.not_gt, hsum.ne']
  · simp [hseq, hseq.not_gt, hseq.ne']

theorem eq_of_same (h : isNewerOrSameLsa lsa1 lsa2 = .same) :
    lsa1.lsSequenceNo = lsa2.lsSequenceNo ∧ lsa1.lsCheckSum = lsa2.lsCheckSum := by
  have hlatest : isNewerOrSameLsa lsa1 lsa2 ≠ .latest := by
    rw [h]
    decide
  have hold : isNewerOrSameLsa lsa1 lsa2 ≠ .old := by
    rw [h]
    decide
  rw [Ne, latest_iff] at hlatest
  rw [Ne, old_iff] at hold
  omega

theorem latest_trans (h₁ : isNewerOrSameLsa lsa1 lsa2 = .latest)
    (h₂ : isNewerOrSameLsa lsa2 lsa3 = .latest) : isNewerOrSameLsa lsa1 lsa3 = .latest := by
  rw [latest_iff] at *
  omega

theorem recency_latest_iff : recency lsa1 lsa2 = .latest ↔
    lsa1.lsSequenceNo > lsa2.lsSequenceNo ∨ lsa1.lsSequenceNo = lsa2.lsSequenceNo ∧
      (lsa1.lsCheckSum > lsa2.lsCheckSum ∨ lsa1.lsCheckSum = lsa2.lsCheckSum ∧
        (lsa1.age = MAXAGE ∧ lsa2.age ≠ MAXAGE ∨ lsa2.age ≠ MAXAGE ∧
          lsa2.age - lsa1.age > MAXAGEDIFF)) := by
  unfold recency MAXAGEDIFF
  split_ifs <;> simp only [true_iff, false_iff] <;> omega

theorem recency_old_iff : recency lsa1 lsa2 = .old ↔ recency lsa2 lsa1 = .latest := by
  rw [recency_latest_iff]
  unfold recency MAXAGEDIFF
  split_ifs <;> simp only [true_iff, false_iff] <;> omega

theorem newness_ext {x y : Newness} (hlatest : x = .latest ↔ y = .latest) (hold : x = .old ↔ y = .old) :
    x = y := by
  cases x <;> cases y <;> simp_all

theorem isConsistent_iff (lsa1 lsa2 : LsaHeader) : IsConsistent lsa1 lsa2 ↔ ¬IsFarApart lsa1 lsa2 := by
  constructor
  · rintro ⟨hlatest, hold, -, -, hrecency⟩ ⟨hseq, hsum, hage1, hage2, hdiff⟩
    have h₁ : recency lsa1 lsa2 = .latest → isNewerOrSameLsa lsa1 lsa2 = .latest :=
      fun h => hrecency.trans h
    have h₂ : recency lsa2 lsa1 = .latest → isNewerOrSameLsa lsa1 lsa2 = .old :=
      fun h => hrecency.trans (recency_old_iff.mpr h)
    rw [latest_iff, recency_latest_iff] at h₁
    rw [latest_iff, old_iff] at hlatest
    rw [old_iff, latest_iff] at hold
    rw [old_iff, recency_latest_iff] at h₂
    unfold MAXAGEDIFF at *
    omega
  · intro h
    have hfar : lsa1.lsSequenceNo = lsa2.lsSequenceNo → lsa1.lsCheckSum = lsa2.lsCheckSum →
        lsa1.age ≠ MAXAGE → lsa2.age ≠ MAXAGE → ((lsa1.age - lsa2.age).natAbs : ℤ) < MAXAGEDIFF := by
      intro hseq hsum hage1 hage2
      exact lt_of_not_ge fun hdiff => h ⟨hseq, hsum, hage1, hage2, hdiff⟩
    unfold MAXAGEDIFF at hfar
    have hlatest : isNewerOrSameLsa lsa1 lsa2 = .latest ↔ isNewerOrSameLsa lsa2 lsa1 = .old := by
      rw [latest_iff, old_iff]
      unfold MAXAGEDIFF
      omega
    have hold : isNewerOrSameLsa lsa1 lsa2 = .old ↔ isNewerOrSameLsa lsa2 lsa1 = .latest := by
      rw [latest_iff, old_iff]
      unfold MAXAGEDIFF
      omega
    refine ⟨hlatest, hold, ?_, fun _ => latest_trans, ?_⟩
    · revert hlatest hold
      cases isNewerOrSameLsa lsa1 lsa2 <;> cases isNewerOrSameLsa lsa2 lsa1 <;> simp
    · apply newness_ext
      · rw [latest_iff, recency_latest_iff]
        unfold MAXAGEDIFF
        omega
      · rw [recency_old_iff, old_iff, recency_latest_iff]
        unfold MAXAGEDIFF
        omega

def agedHeader (age : ℤ) : LsaHeader :=
  { age := age, options := 0, lsType := 1, linkStateId := "", opaqueType := 0, opaqueId := 0,
    advertisingRouter := ⟨10, 0, 0, 1⟩, lsSequenceNo := 1, lsCheckSum := 1, lsPacketLen := 20 }

/-- The older of two instances that are 900 seconds apart is old for one router and the same for the
other; with one more second it is the same for both. -/
theorem far_apart_inconsistent : isNewerOrSameLsa (agedHeader 1000) (agedHeader 100) = .old ∧
      isNewerOrSameLsa (agedHeader 100) (agedHeader 1000) = .same ∧
        isNewerOrSameLsa (agedHeader 100) (agedHeader 1001) = .same ∧
          recency (agedHeader 100) (agedHeader 1001) = .latest ∧
            ¬ ∀ lsa1 lsa2, IsConsistent lsa1 lsa2 := by
  refine ⟨by decide, by decide, by decide, by decide, fun h => ?_⟩
  have hsame := (h (agedHeader 100) (agedHeader 1000)).same.mp (by decide)
  exact absurd hsame (by decide)

end Recency

end LinkStateHeaders

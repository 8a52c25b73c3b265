import Mathlib.Data.List.Forall2
import Onos.LinkLayerDiscovery

/-! LLDP packets that are written and read back. -/
namespace LinkLayerDiscovery

open BufferReaders ByteBuffer FallibleRun Packets WireBytes

section Wire

def tlvBytes (type : Byte) (value : List Byte) : List Byte :=
  short (LLDPTLV.scratch type (BitVec.ofNat 16 value.length)) ++ value

def parsed (type : Byte) (value : List Byte) : LLDPOrganizationalTLV :=
  let tlv : LLDPTLV :=
    ⟨type, BitVec.ofNat 16 value.length, if value = [] then none else some value⟩
  if type = ORGANIZATIONAL_TLV_TYPE then
    ⟨tlv, some (value.take 3), value.getD 3 0, some (value.drop 4)⟩
  else ⟨tlv, none, 0, none⟩

structure Sendable (type : Byte) (value : List Byte) : Prop where
  typeBits : type.toNat < 128
  valueLength : value.length ≤ 511
  infoBytes : type = ORGANIZATIONAL_TLV_TYPE → 5 ≤ value.length

theorem toNat_scratch {type : Byte} {length : ℕ} (htype : type.toNat < 128) (hlength : length ≤ 511) :
    (LLDPTLV.scratch type (BitVec.ofNat 16 length)).toNat = type.toNat * 512 + length := by
  have hlow : (type &&& 0x7f).toNat = type.toNat % 128 := toNat_and_mask (m := 7) type (by decide)
  have hnine : (BitVec.ofNat 16 length &&& 0x1ff).toNat = (BitVec.ofNat 16 length).toNat % 512 :=
    toNat_and_mask (m := 9) _ (by decide)
  rw [BitVec.toNat_ofNat] at hnine
  have hshift : ((type &&& 0x7f).setWidth 16 <<< 9).toNat = type.toNat * 512 := by
    rw [BitVec.toNat_shiftLeft, BitVec.toNat_setWidth, hlow, Nat.shiftLeft_eq]
    omega
  rw [LLDPTLV.scratch, toNat_or_of_dvd (k := 9) (by omega) (by omega), hshift, hnine]
  omega

theorem LLDPTLV.deserialize_sent {type : Byte} {value : List Byte} (h : Sendable type value)
    (before rest beyond : List Byte) :
    LLDPTLV.deserialize ⟨before, tlvBytes type value ++ rest, beyond⟩ =
      .ok (⟨type, BitVec.ofNat 16 value.length, if value = [] then none else some value⟩,
        ⟨before ++ tlvBytes type value, rest, beyond⟩) := by
  have htype := h.typeBits
  have hvalue := h.valueLength
  have hscratch := toNat_scratch htype hvalue
  have hbytes : tlvBytes type value ++ rest =
      short (LLDPTLV.scratch type (BitVec.ofNat 16 value.length)) ++ (value ++ rest) := by
    rw [tlvBytes, List.append_assoc]
  rw [hbytes, tlvBytes]
  generalize LLDPTLV.scratch type (BitVec.ofNat 16 value.length) = scratch at hscratch
  have hhigh : (scratch.sshiftRight 9 &&& 0x7f).setWidth 8 = type := by
    have hmid : (scratch.sshiftRight 9 &&& 0x7f).toNat = scratch.toNat / 512 % 128 :=
      toNat_shift_and_mask (m := 7) scratch (by decide)
    apply BitVec.eq_of_toNat_eq
    rw [BitVec.toNat_setWidth, hmid]
    omega
  have hlow : scratch &&& 0x1ff = BitVec.ofNat 16 value.length := by
    have hmask : (scratch &&& 0x1ff).toNat = scratch.toNat % 512 :=
      toNat_and_mask (m := 9) scratch (by decide)
    apply BitVec.eq_of_toNat_eq
    rw [BitVec.toNat_ofNat, hmask]
    omega
  have hint : (BitVec.ofNat 16 value.length).toInt = value.length := toInt_ofNat_of_lt (by omega)
  have hroom : 2 ≤ ReadBuffer.remaining ⟨before, short scratch ++ (value ++ rest), beyond⟩ := by
    simp [ReadBuffer.remaining]
  have hrequire : require (2 ≤ ReadBuffer.remaining
      ⟨before, short scratch ++ (value ++ rest), beyond⟩)
        "Not enough bytes to deserialize TLV type and length" = .ok () := if_pos hroom
  rw [LLDPTLV.deserialize, bind_of_ok (getRemaining_apply _), bind_of_ok (lift_of_ok hrequire _),
    bind_of_ok (getShort_append _ _ _ _), hhigh, hlow, hint]
  by_cases hempty : value = []
  · subst hempty
    simp [short]
  · have hpos := List.length_pos_iff.mpr hempty
    have hrequire' : require ((value.length : ℤ) ≤ ReadBuffer.remaining
        ⟨before ++ short scratch, value ++ rest, beyond⟩)
          "Remaining bytes are less then the length of the TLV" = .ok () := by
      apply if_pos
      simp [ReadBuffer.remaining]
    rw [if_pos (by omega), bind_of_ok (getRemaining_apply _), bind_of_ok (lift_of_ok hrequire' _),
      bind_of_ok (get_of_length _ _ _ _ (Int.toNat_natCast value.length).symm), if_neg hempty,
      List.append_assoc]
    rfl

theorem LLDPOrganizationalTLV.readParts_sent (oui infoString : List Byte) (subType : Byte)
    (houi : oui.length = 3) (hinfo : infoString.length ≤ 507) :
    (readParts (BitVec.ofNat 16 (4 + infoString.length))).run'
      ⟨[], oui ++ subType :: infoString, []⟩ = .ok (oui, subType, infoString) := by
  have hint : (BitVec.ofNat 16 (4 + infoString.length)).toInt = (4 + infoString.length : ℕ) :=
    toInt_ofNat_of_lt (by omega)
  have hcount : infoString.length = ((4 + infoString.length : ℕ) - 4 : ℤ).toNat := by omega
  have hset : setOUI oui = .ok oui := if_pos houi
  have hset' : setInfoString infoString = .ok infoString := if_pos hinfo
  refine run'_of_ok (?_ : _ = Except.ok (_, ⟨[] ++ oui ++ [subType] ++ infoString, [], []⟩))
  have hlast := get_of_length (χ := DeserializationException) ([] ++ oui ++ [subType]) infoString []
    [] hcount
  rw [List.append_nil] at hlast
  rw [readParts, bind_of_ok (get_of_length _ _ _ _ houi), bind_of_ok (lift_of_ok hset _),
    bind_of_ok (getByte_cons _ _ _ _), hint, bind_of_ok hlast, bind_of_ok (lift_of_ok hset' _)]
  rfl

theorem cut_value {value : List Byte} (h : 5 ≤ value.length) :
    value = value.take 3 ++ value.getD 3 0 :: value.drop 4 := by
  rcases value with _ | ⟨a, _ | ⟨b, _ | ⟨c, _ | ⟨d, rest⟩⟩⟩⟩ <;> simp at h ⊢

theorem LLDPOrganizationalTLV.deserialize_sent {type : Byte} {value : List Byte}
    (h : Sendable type value) (before rest beyond : List Byte) :
    LLDPOrganizationalTLV.deserialize ⟨before, tlvBytes type value ++ rest, beyond⟩ =
      .ok (parsed type value, ⟨before ++ tlvBytes type value, rest, beyond⟩) := by
  rw [LLDPOrganizationalTLV.deserialize, bind_of_ok (LLDPTLV.deserialize_sent h before rest beyond),
    parsed]
  by_cases htype : type = ORGANIZATIONAL_TLV_TYPE
  · have hfive := h.infoBytes htype
    have hvalue := h.valueLength
    have hne : value ≠ [] := by
      rintro rfl
      simp at hfive
    have hint : (BitVec.ofNat 16 value.length).toInt = value.length := toInt_ofNat_of_lt (by omega)
    have hrequire : require (4 < (BitVec.ofNat 16 value.length).toInt)
        "TLV length is less than required for organizational TLV" = .ok () := if_pos (by omega)
    have hcut := cut_value hfive
    have hdrop : (value.drop 4).length = value.length - 4 := List.length_drop
    have hthree : (value.take 3).length = 3 := by
      rw [List.length_take]
      omega
    have hparts := readParts_sent (value.take 3) (value.drop 4) (value.getD 3 0) hthree (by omega)
    have hfour : 4 + (value.drop 4).length = value.length := by omega
    rw [← hcut, hfour] at hparts
    rw [if_neg (not_not.mpr htype), bind_of_ok (lift_of_ok hrequire _), if_neg hne,
      bind_of_ok (lift_of_ok (nonNull_some value) _), bind_of_ok (lift_of_ok hparts _), if_pos htype]
    rfl
  · rw [if_pos htype, if_neg htype]
    rfl

def wire (tlvs : List (Byte × List Byte)) : List Byte := tlvs.flatMap fun t => tlvBytes t.1 t.2

theorem LLDP.readTLVs_sent {tlvs : List (Byte × List Byte)}
    (h : ∀ t ∈ tlvs, Sendable t.1 t.2 ∧ t.1 ≠ 0) {length currentIndex : ℤ} (hpos : 0 ≤ currentIndex)
    (hroom : currentIndex + (wire tlvs).length + 2 ≤ length) (hint : length < 2 ^ 31) (lldp : LLDP)
    (before rest beyond : List Byte) :
    LLDP.readTLVs length currentIndex lldp ⟨before, wire tlvs ++ (short 0 ++ rest), beyond⟩ =
      .ok (tlvs.foldl (fun lldp t => lldp.store (.organizational (parsed t.1 t.2))) lldp) := by
  induction tlvs generalizing currentIndex lldp before with
  | nil =>
    have hend : LLDPOrganizationalTLV.deserialize ⟨before, tlvBytes 0 [] ++ rest, beyond⟩ =
        .ok (parsed 0 [], ⟨before ++ tlvBytes 0 [], rest, beyond⟩) :=
      LLDPOrganizationalTLV.deserialize_sent ⟨by decide, by decide, by decide⟩ _ _ _
    have hzero : tlvBytes 0 [] = short 0 := rfl
    rw [hzero] at hend
    simp only [wire, List.flatMap_nil, List.length_nil] at hroom
    rw [readTLVs_eq, intOf_of_lt (by omega) (by omega), checkHeaderLength, if_neg (by omega)]
    change (LLDPOrganizationalTLV.deserialize ⟨before, short 0 ++ rest, beyond⟩).bind _ = _
    rw [hend]
    rfl
  | cons t tlvs ih =>
    obtain ⟨hsend, hne⟩ := h t List.mem_cons_self
    have hfirst := LLDPOrganizationalTLV.deserialize_sent hsend before
      (wire tlvs ++ (short 0 ++ rest)) beyond
    have hvalue := hsend.valueLength
    have hlen : (wire (t :: tlvs)).length = 2 + t.2.length + (wire tlvs).length := by
      rw [wire, List.flatMap_cons, List.length_append, tlvBytes, List.length_append, length_short]
      rfl
    have hwire : wire (t :: tlvs) ++ (short 0 ++ rest) =
        tlvBytes t.1 t.2 ++ (wire tlvs ++ (short 0 ++ rest)) := by
      simp [wire]
    have htype : (parsed t.1 t.2).type = t.1 := by
      rw [parsed]
      split_ifs <;> rfl
    have hlength : (parsed t.1 t.2).length.toInt = t.2.length := by
      rw [← toInt_ofNat_of_lt (w := 16) (n := t.2.length) (by omega), parsed]
      split_ifs <;> rfl
    rw [readTLVs_eq, intOf_of_lt (by omega) (by omega), checkHeaderLength, if_neg (by omega), hwire]
    change (LLDPOrganizationalTLV.deserialize
      ⟨before, tlvBytes t.1 t.2 ++ (wire tlvs ++ (short 0 ++ rest)), beyond⟩).bind _ = _
    rw [hfirst]
    change (if (parsed t.1 t.2).type = 0x0 then _ else _) = _
    rw [htype, if_neg hne, hlength, intOf_of_lt (by omega) (by omega), List.foldl_cons]
    exact ih (fun u hu => h u (List.mem_cons_of_mem t hu)) (by omega) (by omega) _ _

end Wire

section Sending

def TLV.Proper : TLV → Prop
  | .plain tlv => tlv.length = BitVec.ofNat 16 (tlv.value.getD []).length ∧
      Sendable tlv.type (tlv.value.getD [])
  | .organizational tlv => tlv.type = ORGANIZATIONAL_TLV_TYPE ∧ ∃ oui infoString,
      tlv.oui = some oui ∧ tlv.infoString = some infoString ∧ oui.length = 3 ∧
        1 ≤ infoString.length ∧ infoString.length ≤ 507 ∧
          tlv.length = BitVec.ofNat 16 (4 + infoString.length)

def TLV.sentValue : TLV → List Byte
  | .plain tlv => tlv.value.getD []
  | .organizational tlv => tlv.oui.getD [] ++ tlv.subType :: tlv.infoString.getD []

def TLV.filled : TLV → TLV
  | .plain tlv => .plain tlv
  | .organizational tlv =>
    .organizational { tlv with value := some (TLV.sentValue (.organizational tlv)) }

def TLV.Kept : TLV → Prop
  | .plain tlv => tlv.value ≠ some []
  | .organizational _ => True

variable {tlv : TLV}

theorem TLV.Proper.sendable (h : tlv.Proper) : Sendable tlv.toLLDPTLV.type tlv.sentValue := by
  cases tlv with
  | plain tlv => exact h.2
  | organizational tlv =>
    obtain ⟨htype, oui, infoString, houi, hinfo, hthree, hone, hlong, -⟩ := h
    have hlength : (TLV.sentValue (.organizational tlv)).length = 4 + infoString.length := by
      simp only [TLV.sentValue, houi, hinfo, Option.getD_some, List.length_append, List.length_cons]
      omega
    have hbits : tlv.type.toNat < 128 := by
      rw [htype]
      decide
    exact ⟨hbits, by omega, fun _ => by omega⟩

theorem TLV.Proper.length_eq (h : tlv.Proper) :
    tlv.toLLDPTLV.length = BitVec.ofNat 16 tlv.sentValue.length := by
  cases tlv with
  | plain tlv => exact h.1
  | organizational tlv =>
    obtain ⟨-, oui, infoString, houi, hinfo, hthree, -, -, hlength⟩ := h
    have hcount : (TLV.sentValue (.organizational tlv)).length = 4 + infoString.length := by
      simp only [TLV.sentValue, houi, hinfo, Option.getD_some, List.length_append, List.length_cons]
      omega
    rw [hcount]
    exact hlength

theorem LLDPTLV.serialize_value {tlv : LLDPTLV} {value : List Byte} (hvalue : value.length ≤ 511)
    (hgiven : tlv.value.getD [] = value) (hlength : tlv.length = BitVec.ofNat 16 value.length) :
    tlv.serialize = .ok (tlvBytes tlv.type value) := by
  have hint : tlv.length.toInt = value.length := by
    rw [hlength]
    exact toInt_ofNat_of_lt (by omega)
  have hflat : (short (scratch tlv.type tlv.length) :: tlv.value.toList).flatten =
      tlvBytes tlv.type value := by
    rw [tlvBytes, hlength, ← hgiven]
    cases tlv.value <;> simp
  rw [LLDPTLV.serialize, hint, fillNew_exact, hflat]
  rw [hflat, tlvBytes, List.length_append, length_short]
  rfl

theorem TLV.Proper.serialize_eq (h : tlv.Proper) :
    tlv.serialize = .ok (tlv.filled, tlvBytes tlv.toLLDPTLV.type tlv.sentValue) := by
  have hlength := h.length_eq
  have hvalue := h.sendable.valueLength
  cases tlv with
  | plain tlv =>
    rw [TLV.serialize, LLDPTLV.serialize_value hvalue rfl hlength]
    rfl
  | organizational tlv =>
    obtain ⟨htype, oui, infoString, houi, hinfo, hthree, -, -, -⟩ := h
    have hsent : TLV.sentValue (.organizational tlv) = oui ++ tlv.subType :: infoString := by
      rw [TLV.sentValue, houi, hinfo]
      rfl
    have hfill : (fillNew (4 + infoString.length) [oui, [tlv.subType], infoString] : Result _) =
        .ok (TLV.sentValue (.organizational tlv)) := by
      rw [hsent, fillNew_exact]
      · simp
      · simp only [List.flatten_cons, List.flatten_nil, List.length_append, List.length_singleton,
          List.length_nil]
        omega
    have hbase : LLDPTLV.serialize
        ⟨tlv.type, tlv.length, some (TLV.sentValue (.organizational tlv))⟩ =
          .ok (tlvBytes tlv.type (TLV.sentValue (.organizational tlv))) :=
      LLDPTLV.serialize_value hvalue rfl hlength
    rw [TLV.serialize, LLDPOrganizationalTLV.serialize, if_neg (not_not.mpr htype), houi, hinfo]
    change Except.map _ ((fillNew (4 + infoString.length)
      [oui, [tlv.subType], infoString]).bind fun value => _) = _
    rw [hfill]
    change Except.map _ (Except.bind (LLDPTLV.serialize
      ⟨tlv.type, tlv.length, some (TLV.sentValue (.organizational tlv))⟩) _) = _
    rw [hbase, TLV.filled, ← houi, ← hinfo]
    rfl

theorem LLDPOrganizationalTLV.serialize_of_lt {tlv : LLDPOrganizationalTLV} {oui infoString : List Byte}
    (htype : tlv.type = ORGANIZATIONAL_TLV_TYPE) (houi : tlv.oui = some oui)
    (hinfo : tlv.infoString = some infoString) (hthree : oui.length = 3)
    (hshort : tlv.length.toInt < 4 + infoString.length) (r : LLDPOrganizationalTLV × List Byte) :
    tlv.serialize ≠ .ok r := by
  intro hok
  have hcount : ([oui, [tlv.subType], infoString].flatten.length : ℤ) = 4 + infoString.length := by
    simp only [List.flatten_cons, List.flatten_nil, List.length_append, List.length_singleton,
      List.length_nil]
    omega
  rw [serialize, if_neg (not_not.mpr htype), houi, hinfo] at hok
  obtain ⟨_, hgiven, hok⟩ := bind_eq_ok.mp hok
  cases hgiven
  obtain ⟨_, hgiven, hok⟩ := bind_eq_ok.mp hok
  cases hgiven
  obtain ⟨value, hvalue, hok⟩ := bind_eq_ok.mp hok
  obtain ⟨data, hdata, -⟩ := bind_eq_ok.mp hok
  rw [fillNew_exact hcount.symm] at hvalue
  cases hvalue
  refine fillNew_of_lt ?_ data hdata
  simp only [Option.toList_some, List.flatten_cons, List.flatten_nil, List.append_nil,
    List.length_append, length_short] at hcount ⊢
  push_cast at hcount ⊢
  omega

theorem TLV.Proper.parsed_organizational {tlv : LLDPOrganizationalTLV}
    (h : (TLV.organizational tlv).Proper) :
    parsed tlv.type (TLV.sentValue (.organizational tlv)) =
      { tlv with value := some (TLV.sentValue (.organizational tlv)) } := by
  obtain ⟨htype, oui, infoString, houi, hinfo, hthree, hone, -, hlength⟩ := h
  have hsent : TLV.sentValue (.organizational tlv) = oui ++ tlv.subType :: infoString := by
    rw [TLV.sentValue, houi, hinfo]
    rfl
  have hcount : 4 + infoString.length = (oui ++ tlv.subType :: infoString).length := by
    simp only [List.length_append, List.length_cons]
    omega
  have htake : (oui ++ tlv.subType :: infoString).take 3 = oui := List.take_left' hthree
  have hdrop : (oui ++ tlv.subType :: infoString).drop 4 = infoString := by
    rw [List.drop_append, hthree, List.drop_of_length_le (by omega)]
    rfl
  have hsub : (oui ++ tlv.subType :: infoString).getD 3 0 = tlv.subType := by
    rw [← hthree]
    simp
  rw [hsent, parsed, if_pos htype, htake, hdrop, hsub, ← hcount, ← hlength, if_neg (by simp), ← houi,
    ← hinfo]

theorem TLV.Proper.equals_parsed_iff (h : tlv.Proper) :
    tlv.filled.equals (.organizational (parsed tlv.toLLDPTLV.type tlv.sentValue)) ↔ tlv.Kept := by
  cases tlv with
  | plain tlv =>
    have hbase : (parsed tlv.type (tlv.value.getD [])).toLLDPTLV =
        ⟨tlv.type, BitVec.ofNat 16 (tlv.value.getD []).length,
          if tlv.value.getD [] = [] then none else some (tlv.value.getD [])⟩ := by
      rw [parsed]
      split_ifs <;> rfl
    change tlv = (parsed tlv.type (tlv.value.getD [])).toLLDPTLV ↔ tlv.value ≠ some []
    obtain ⟨type, length, value⟩ := tlv
    have hlength : length = BitVec.ofNat 16 (value.getD []).length := h.1
    rw [hbase, LLDPTLV.mk.injEq, and_iff_right rfl, and_iff_right hlength]
    cases value with
    | none => simp
    | some bytes => by_cases hempty : bytes = [] <;> simp [hempty]
  | organizational tlv =>
    change TLV.equals (.organizational _)
      (.organizational (parsed tlv.type (TLV.sentValue (.organizational tlv)))) ↔ True
    rw [h.parsed_organizational, iff_true]
    exact ⟨rfl, rfl, rfl, rfl, rfl⟩

end Sending

section RoundTrips

namespace LLDP

/-- A packet with its three mandatory TLVs, and any others after them. -/
structure Proper (lldp : LLDP) (chassisId portId ttl : TLV) : Prop where
  chassisId : lldp.chassisId = some chassisId ∧ chassisId.Proper ∧ chassisId.toLLDPTLV.type = 1
  portId : lldp.portId = some portId ∧ portId.Proper ∧ portId.toLLDPTLV.type = 2
  ttl : lldp.ttl = some ttl ∧ ttl.Proper ∧ ttl.toLLDPTLV.type = 3
  optional : ∀ tlv ∈ lldp.optionalTLVList, tlv.Proper ∧ 4 ≤ tlv.toLLDPTLV.type.toNat

def sent (tlvs : List TLV) : List (Byte × List Byte) :=
  tlvs.map fun tlv => (tlv.toLLDPTLV.type, tlv.sentValue)

theorem sum_lengths {tlvs : List TLV} (h : ∀ tlv ∈ tlvs, tlv.Proper) :
    (tlvs.map fun tlv => 2 + tlv.toLLDPTLV.length.toInt : List ℤ).sum =
      (wire (sent tlvs)).length := by
  induction tlvs with
  | nil => rfl
  | cons tlv tlvs ih =>
    have hproper := h tlv List.mem_cons_self
    have hvalue := hproper.sendable.valueLength
    have hint : tlv.toLLDPTLV.length.toInt = tlv.sentValue.length := by
      rw [hproper.length_eq]
      exact toInt_ofNat_of_lt (by omega)
    have hwire : wire (sent (tlv :: tlvs)) =
        tlvBytes tlv.toLLDPTLV.type tlv.sentValue ++ wire (sent tlvs) := by
      simp [wire, sent]
    rw [List.map_cons, List.sum_cons, hint, ih fun t ht => h t (List.mem_cons_of_mem tlv ht), hwire,
      List.length_append, tlvBytes, List.length_append, length_short]
    omega

theorem mapM_serialize {tlvs : List TLV} (h : ∀ tlv ∈ tlvs, tlv.Proper) : tlvs.mapM TLV.serialize =
      .ok (tlvs.map fun tlv => (tlv.filled, tlvBytes tlv.toLLDPTLV.type tlv.sentValue)) := by
  induction tlvs with
  | nil => rfl
  | cons tlv tlvs ih =>
    rw [List.mapM_cons, (h tlv List.mem_cons_self).serialize_eq,
      ih fun t ht => h t (List.mem_cons_of_mem tlv ht)]
    rfl

def received (tlv : TLV) : TLV := .organizational (parsed tlv.toLLDPTLV.type tlv.sentValue)

theorem received_organizational {tlv : LLDPOrganizationalTLV}
    (h : (TLV.organizational tlv).Proper) :
    received (.organizational tlv) = TLV.filled (.organizational tlv) :=
  congrArg TLV.organizational h.parsed_organizational

theorem received_plain {tlv : LLDPTLV} (h : (TLV.plain tlv).Proper)
    (htype : tlv.type ≠ ORGANIZATIONAL_TLV_TYPE) (hvalue : tlv.value ≠ some []) :
    received (.plain tlv) = .organizational ⟨tlv, none, 0, none⟩ := by
  obtain ⟨type, length, value⟩ := tlv
  have hlength : length = BitVec.ofNat 16 (value.getD []).length := h.1
  change TLV.organizational (parsed type (value.getD [])) = _
  rw [parsed, if_neg htype, hlength]
  cases value with
  | none => rfl
  | some bytes =>
    have hne : bytes ≠ [] := fun hempty => hvalue (congrArg some hempty)
    simp [hne]

@[simp] theorem type_received (tlv : TLV) : (received tlv).toLLDPTLV.type = tlv.toLLDPTLV.type := by
  rw [received, parsed]
  split_ifs <;> rfl

theorem store_chassisId {tlv : TLV} (h : tlv.toLLDPTLV.type = 1) (lldp : LLDP) :
    lldp.store tlv = { lldp with chassisId := some tlv } := by
  rw [store, h]
  rfl

theorem store_portId {tlv : TLV} (h : tlv.toLLDPTLV.type = 2) (lldp : LLDP) :
    lldp.store tlv = { lldp with portId := some tlv } := by
  rw [store, h]
  rfl

theorem store_ttl {tlv : TLV} (h : tlv.toLLDPTLV.type = 3) (lldp : LLDP) :
    lldp.store tlv = { lldp with ttl := some tlv } := by
  rw [store, h]
  rfl

theorem store_optional {tlv : TLV} (h : 4 ≤ tlv.toLLDPTLV.type.toNat) (lldp : LLDP) :
    lldp.store tlv = { lldp with optionalTLVList := lldp.optionalTLVList ++ [tlv] } := by
  rw [store]
  split
  · next htype => exact absurd (htype ▸ h) (by decide)
  · next htype => exact absurd (htype ▸ h) (by decide)
  · next htype => exact absurd (htype ▸ h) (by decide)
  · next htype => exact absurd (htype ▸ h) (by decide)
  · rfl

theorem foldl_store_optional {tlvs : List TLV} (h : ∀ tlv ∈ tlvs, 4 ≤ tlv.toLLDPTLV.type.toNat)
    (lldp : LLDP) :
    (tlvs.map received).foldl store lldp =
      { lldp with optionalTLVList := lldp.optionalTLVList ++ tlvs.map received } := by
  induction tlvs generalizing lldp with
  | nil => simp
  | cons tlv tlvs ih =>
    have htype : 4 ≤ (received tlv).toLLDPTLV.type.toNat := by
      rw [type_received]
      exact h tlv List.mem_cons_self
    rw [List.map_cons, List.foldl_cons, store_optional htype,
      ih fun t ht => h t (List.mem_cons_of_mem tlv ht)]
    simp

def filled (lldp : LLDP) : LLDP :=
  ⟨lldp.chassisId.map TLV.filled, lldp.portId.map TLV.filled, lldp.ttl.map TLV.filled,
    lldp.optionalTLVList.map TLV.filled⟩

def returned (lldp : LLDP) : LLDP :=
  ⟨lldp.chassisId.map received, lldp.portId.map received, lldp.ttl.map received,
    lldp.optionalTLVList.map received⟩

def tlvs (lldp : LLDP) : List TLV :=
  lldp.chassisId.toList ++ lldp.portId.toList ++ lldp.ttl.toList ++ lldp.optionalTLVList

def bytes (lldp : LLDP) : List Byte := wire (sent lldp.tlvs) ++ short 0

variable {lldp : LLDP} {chassisId portId ttl : TLV}

section

variable (h : lldp.Proper chassisId portId ttl)

include h

theorem Proper.tlvs_eq : lldp.tlvs = chassisId :: portId :: ttl :: lldp.optionalTLVList := by
  rw [tlvs, h.chassisId.1, h.portId.1, h.ttl.1]
  rfl

theorem Proper.of_mem : ∀ tlv ∈ lldp.tlvs, tlv.Proper ∧ tlv.toLLDPTLV.type ≠ 0 := by
  intro tlv htlv
  rw [h.tlvs_eq] at htlv
  rcases List.mem_cons.mp htlv with rfl | htlv
  · exact ⟨h.chassisId.2.1, by rw [h.chassisId.2.2]; decide⟩
  rcases List.mem_cons.mp htlv with rfl | htlv
  · exact ⟨h.portId.2.1, by rw [h.portId.2.2]; decide⟩
  rcases List.mem_cons.mp htlv with rfl | htlv
  · exact ⟨h.ttl.2.1, by rw [h.ttl.2.2]; decide⟩
  · obtain ⟨hproper, hfour⟩ := h.optional tlv htlv
    refine ⟨hproper, fun hzero => ?_⟩
    rw [hzero] at hfour
    exact absurd hfour (by decide)

theorem Proper.serialize_eq : ∃ chunks, chunks.flatten = lldp.bytes ∧ lldp.serialize =
      (fillNew (intOf lldp.bytes.length) chunks).bind fun data => .ok (lldp.filled, data) := by
  have hproper : ∀ tlv ∈ lldp.tlvs, tlv.Proper := fun tlv htlv => (h.of_mem tlv htlv).1
  have hsize : ((chassisId :: portId :: ttl :: lldp.optionalTLVList).map
      fun tlv => 2 + tlv.toLLDPTLV.length.toInt : List ℤ).sum + 2 = lldp.bytes.length := by
    rw [← h.tlvs_eq, sum_lengths hproper, bytes, List.length_append, length_short]
    push_cast
    ring
  have hoptional := mapM_serialize fun tlv htlv => (h.optional tlv htlv).1
  refine ⟨(lldp.tlvs.map fun tlv => tlvBytes tlv.toLLDPTLV.type tlv.sentValue) ++ [short 0], ?_, ?_⟩
  · rw [bytes, wire, sent, List.flatMap_map, List.flatten_append, List.flatMap_def]
    simp
  · rw [serialize, h.chassisId.1, h.portId.1, h.ttl.1, nonNull_some, nonNull_some, nonNull_some,
      filled, h.chassisId.1, h.portId.1, h.ttl.1, ← hsize, h.tlvs_eq, hoptional]
    change (TLV.serialize chassisId).bind _ = _
    rw [h.chassisId.2.1.serialize_eq]
    change (TLV.serialize portId).bind _ = _
    rw [h.portId.2.1.serialize_eq]
    change (TLV.serialize ttl).bind _ = _
    rw [h.ttl.2.1.serialize_eq]
    change (fillNew (intOf _) _).bind _ = _
    simp only [List.map_map, List.map_cons, List.cons_append]
    rfl

theorem Proper.foldl_store : (sent lldp.tlvs).foldl
    (fun lldp t => lldp.store (.organizational (parsed t.1 t.2))) ⟨none, none, none, []⟩ =
      lldp.returned := by
  have hchassisId (l : LLDP) := store_chassisId ((type_received chassisId).trans h.chassisId.2.2) l
  have hportId (l : LLDP) := store_portId ((type_received portId).trans h.portId.2.2) l
  have httl (l : LLDP) := store_ttl ((type_received ttl).trans h.ttl.2.2) l
  have hoptional := foldl_store_optional fun tlv htlv => (h.optional tlv htlv).2
  rw [sent, List.foldl_map, h.tlvs_eq]
  change (chassisId :: portId :: ttl :: lldp.optionalTLVList).foldl
    (fun (l : LLDP) tlv => l.store (received tlv)) _ = _
  rw [List.foldl_cons, List.foldl_cons, List.foldl_cons, hchassisId, hportId, httl,
    ← List.foldl_map, hoptional, returned, h.chassisId.1, h.portId.1, h.ttl.1]
  rfl

theorem Proper.serialize_of_lt
    (hint : lldp.bytes.length < 2 ^ 31) : lldp.serialize = .ok (lldp.filled, lldp.bytes) := by
  obtain ⟨chunks, hchunks, hserialize⟩ := h.serialize_eq
  rw [hserialize, intOf_of_lt (by omega) (by omega), fillNew_exact (by rw [hchunks]), hchunks]
  rfl

theorem Proper.deserializer_mid {before after : List Byte}
    (hint : (before ++ (lldp.bytes ++ after)).length < 2 ^ 31) :
    deserializer (before ++ (lldp.bytes ++ after)) before.length (lldp.bytes ++ after).length =
      .ok lldp.returned := by
  have hlen : lldp.bytes.length = (wire (sent lldp.tlvs)).length + 2 := by
    rw [bytes, List.length_append, length_short]
  have hne : lldp.bytes ++ after ≠ [] := by
    intro hempty
    rw [(List.append_eq_nil_iff.mp hempty).1] at hlen
    simp at hlen
  have hsend : ∀ t ∈ sent lldp.tlvs, Sendable t.1 t.2 ∧ t.1 ≠ 0 := by
    intro t ht
    obtain ⟨tlv, htlv, rfl⟩ := List.mem_map.mp ht
    exact ⟨(h.of_mem tlv htlv).1.sendable, (h.of_mem tlv htlv).2⟩
  have hopened : opened (before ++ ((lldp.bytes ++ after) ++ [])) before.length
      (lldp.bytes ++ after).length 0 = .ok ⟨before, lldp.bytes ++ after, []⟩ :=
    opened_mid (by rwa [List.append_nil]) hne (by omega)
  have hwire : lldp.bytes ++ after = wire (sent lldp.tlvs) ++ (short 0 ++ after) := by
    rw [bytes, List.append_assoc]
  simp only [List.length_append] at hint
  have hroom : 0 + ((wire (sent lldp.tlvs)).length : ℤ) + 2 ≤ (lldp.bytes ++ after).length := by
    simp only [List.length_append]
    omega
  have hread := readTLVs_sent hsend le_rfl hroom (by simp only [List.length_append]; omega)
    ⟨none, none, none, []⟩ before after []
  rw [List.append_nil] at hopened
  rw [deserializer, bind_opened, hopened]
  change readTLVs (lldp.bytes ++ after).length 0 ⟨none, none, none, []⟩
    ⟨before, lldp.bytes ++ after, []⟩ = _
  rw [← h.foldl_store, ← hread, hwire]

theorem Proper.deserializer_eq (hint : lldp.bytes.length < 2 ^ 31) :
    deserializer lldp.bytes 0 lldp.bytes.length = .ok lldp.returned := by
  have hwhole : deserializer ([] ++ (lldp.bytes ++ [])) ([] : List Byte).length
      (lldp.bytes ++ []).length = .ok lldp.returned := h.deserializer_mid (by simpa using hint)
  simpa using hwhole

end

def RoundTrips (lldp : LLDP) : Prop := ∃ after data lldp',
  lldp.serialize = .ok (after, data) ∧ deserializer data 0 data.length = .ok lldp' ∧
    lldp.equals lldp'

theorem equals_received_iff {tlv : TLV} (h : tlv.Proper) :
    tlv.equals (received tlv) ↔ tlv.Kept := by
  rw [← h.equals_parsed_iff]
  cases tlv <;> rfl

theorem Proper.equals_returned_iff (h : lldp.Proper chassisId portId ttl) :
    lldp.equals lldp.returned ↔ ∀ tlv ∈ lldp.tlvs, tlv.Kept := by
  have hlist : List.Forall₂ TLV.equals lldp.optionalTLVList
      (lldp.optionalTLVList.map received) ↔ ∀ tlv ∈ lldp.optionalTLVList, tlv.Kept := by
    rw [List.forall₂_map_right_iff, List.forall₂_same]
    exact forall₂_congr fun tlv htlv => equals_received_iff (h.optional tlv htlv).1
  have hchassisId := equals_received_iff h.chassisId.2.1
  have hportId := equals_received_iff h.portId.2.1
  have httl := equals_received_iff h.ttl.2.1
  have hequal : lldp.equals lldp.returned ↔ chassisId.equals (received chassisId) ∧
      List.Forall₂ TLV.equals lldp.optionalTLVList (lldp.optionalTLVList.map received) ∧
        portId.equals (received portId) ∧ ttl.equals (received ttl) := by
    rw [equals, returned, h.chassisId.1, h.portId.1, h.ttl.1]
    rfl
  rw [hequal, h.tlvs_eq, List.forall_mem_cons, List.forall_mem_cons, List.forall_mem_cons, hlist,
    hchassisId, hportId, httl]
  tauto

theorem Proper.roundTrips_iff (h : lldp.Proper chassisId portId ttl) :
    lldp.RoundTrips ↔ lldp.bytes.length < 2 ^ 31 ∧ ∀ tlv ∈ lldp.tlvs, tlv.Kept := by
  by_cases hint : lldp.bytes.length < 2 ^ 31
  · have hdata := h.serialize_of_lt hint
    rw [and_iff_right hint, ← h.equals_returned_iff]
    constructor
    · rintro ⟨after, data, lldp', hafter, hread, hequals⟩
      rw [hdata] at hafter
      cases hafter
      rw [h.deserializer_eq hint] at hread
      cases hread
      exact hequals
    · intro hequals
      exact ⟨_, _, _, hdata, h.deserializer_eq hint, hequals⟩
  · -- The size is negative, or less than what is put.
    obtain ⟨chunks, hchunks, hserialize⟩ := h.serialize_eq
    have hsize : intOf lldp.bytes.length < chunks.flatten.length := by
      have hbound := Int.bmod_lt (x := (lldp.bytes.length : ℤ)) (m := 2 ^ 32) (by decide)
      rw [hchunks, intOf]
      omega
    refine iff_of_false ?_ fun hall => hint hall.1
    rintro ⟨after, data, lldp', hafter, -⟩
    rw [hserialize] at hafter
    obtain ⟨data', hdata, -⟩ := bind_eq_ok.mp hafter
    exact fillNew_of_lt hsize data' hdata

/-- The range is parsed, or the failure to parse it is reported; nothing else of the array is read. -/
def Reports (data : List Byte) (offset length : ℤ) : Prop :=
  Ensures (deserializer data offset length) (fun _ => True) Checked ∧
    ∀ data', data'.length = data.length → (data'.drop offset.toNat).take length.toNat =
      (data.drop offset.toNat).take length.toNat →
        deserializer data' offset length = deserializer data offset length

/-- The parser is total unless the end of the range overflows an int, and it is inverse to the writer
unless a TLV has an empty array as its value, or the packet has no array to be written to. -/
theorem reports_and_roundTrips_iff (data : List Byte) (offset length : ℤ)
    (harray : data.length < 2 ^ 31) (hlength : length < 2 ^ 31) (lldp : LLDP)
    (chassisId portId ttl : TLV) (h : lldp.Proper chassisId portId ttl) :
    (Reports data offset length ↔ ¬ Overflows data.length offset length) ∧
      (lldp.RoundTrips ↔ lldp.bytes.length < 2 ^ 31 ∧ ∀ tlv ∈ lldp.tlvs, tlv.Kept) := by
  constructor
  · rw [Reports, reports_iff harray hlength, and_iff_left]
    intro data' hdata' hwindow
    exact deserializer_congr hdata' hwindow
  · exact h.roundTrips_iff

def described (value : Option (List Byte)) : LLDP :=
  ⟨some (.plain ⟨1, 7, some [4, 2, 0, 0, 0, 0, 1]⟩), some (.plain ⟨2, 2, some [7, 49]⟩),
    some (.plain ⟨3, 2, some [0, 120]⟩),
    [.plain ⟨4, BitVec.ofNat 16 (value.getD []).length, value⟩,
      .organizational ⟨⟨127, 5, none⟩, some [0xa4, 0x23, 0x05], 1, some [9]⟩]⟩

theorem described_proper {value : Option (List Byte)} (h : (value.getD []).length ≤ 511) :
    (described value).Proper (.plain ⟨1, 7, some [4, 2, 0, 0, 0, 0, 1]⟩)
      (.plain ⟨2, 2, some [7, 49]⟩) (.plain ⟨3, 2, some [0, 120]⟩) where
  chassisId := ⟨rfl, ⟨rfl, by decide, by decide, by decide⟩, rfl⟩
  portId := ⟨rfl, ⟨rfl, by decide, by decide, by decide⟩, rfl⟩
  ttl := ⟨rfl, ⟨rfl, by decide, by decide, by decide⟩, rfl⟩
  optional := by
    have hbits : 4 ≤ (4 : Byte).toNat ∧ (4 : Byte).toNat < 128 := by decide
    have hplain : (4 : Byte) ≠ ORGANIZATIONAL_TLV_TYPE := by decide
    intro tlv htlv
    rcases List.mem_pair.mp htlv with rfl | rfl
    · exact ⟨⟨rfl, hbits.2, h, fun htype => absurd htype hplain⟩, hbits.1⟩
    · exact ⟨⟨rfl, _, _, rfl, rfl, by decide, by decide, by decide, rfl⟩, by decide⟩

theorem reports_and_roundTrips_iff_described : (Reports [0, 0] 0 2 ↔ ¬ Overflows 2 0 2) ∧
      ((described (some [100])).RoundTrips ↔ (described (some [100])).bytes.length < 2 ^ 31 ∧
        ∀ tlv ∈ (described (some [100])).tlvs, tlv.Kept) :=
  reports_and_roundTrips_iff [0, 0] 0 2 (by decide) (by decide) _ _ _ _
    (described_proper (by decide))

/-- The empty description comes back as none, and a range that ends beyond the ints is not refused. -/
theorem empty_description_lost :
    (∃ chassisId portId ttl, (described (some [])).Proper chassisId portId ttl) ∧
      ¬ (described (some [])).RoundTrips ∧ ¬ Reports [0, 0] 1 (2 ^ 31 - 1) := by
  have hproper := described_proper (show ((some []).getD [] : List Byte).length ≤ 511 by decide)
  refine ⟨⟨_, _, _, hproper⟩, ?_, ?_⟩
  · rw [hproper.roundTrips_iff]
    intro hall
    have hmem : .plain ⟨4, 0, some []⟩ ∈ (described (some [])).tlvs := by decide
    exact hall.2 _ hmem rfl
  · intro hreports
    have hover := (reports_iff (by decide) (by decide)).mp hreports.1
    exact hover (by decide)

end LLDP

end RoundTrips

end LinkLayerDiscovery

import Onos.LinkProbes

/-! Which probes are read back as they were sent. -/
namespace LinkProbes

open BufferReaders ByteBuffer EthernetFrame FallibleRun LinkLayerDiscovery Packets Texts WireBytes

namespace ONOSLLDP

section Making

variable (platform : Platform) (device : String) (chassisId : BitVec 64) (portNum : BitVec 32)
  (portDesc secret : Option String) (timestamp : BitVec 64)

def kinds : List Byte :=
  platform.iteration ((if secret.isNone then [NAME_SUBTYPE, DEVICE_SUBTYPE]
    else [NAME_SUBTYPE, DEVICE_SUBTYPE, TIMESTAMP_SUBTYPE, SIG_SUBTYPE]) ++
      [NAME_SUBTYPE, DEVICE_SUBTYPE]).dedup

def signature : List Byte :=
  platform.hmacSHA256 (getBytes (secret.getD ""))
    (platform.defaultBytes device ++ long (portNum.signExtend 64) ++ long timestamp)

def info (kind : Byte) : List Byte × ℕ :=
  if kind = DEVICE_SUBTYPE then (getBytes device, utf16Length device)
  else if kind = TIMESTAMP_SUBTYPE then (long timestamp, 8)
  else if kind = SIG_SUBTYPE then
    (signature platform device portNum secret timestamp,
      (signature platform device portNum secret timestamp).length)
  else (getBytes DEFAULT_NAME, utf16Length DEFAULT_NAME)

def madeTLV (kind : Byte) : LLDPOrganizationalTLV :=
  let kindInfo := info platform device portNum secret timestamp kind
  filledTLV kind kindInfo.1 kindInfo.2 newTLV

def made : ONOSLLDP :=
  addPortDesc portDesc
    { chassisId := some (.plain (chassisTLV chassisId))
      portId := some (.plain (portTLV portNum))
      ttl := some (.plain ttlTLV)
      opttlvs := (kinds platform secret).map fun kind =>
        (kind, madeTLV platform device portNum secret timestamp kind)
      others := [] }

theorem mem_kinds {kind : Byte} : kind ∈ kinds platform secret ↔ kind = NAME_SUBTYPE ∨
    kind = DEVICE_SUBTYPE ∨ secret ≠ none ∧ (kind = TIMESTAMP_SUBTYPE ∨ kind = SIG_SUBTYPE) := by
  rw [kinds, (platform.iteration_perm _).mem_iff, List.mem_dedup]
  cases secret with
  | none =>
    simp only [Option.isNone_none, if_true, List.mem_append, List.mem_cons, List.not_mem_nil,
      or_false, ne_eq, not_true, false_and]
    tauto
  | some secret =>
    simp only [Option.isNone_some, Bool.false_eq_true, if_false, List.mem_append, List.mem_cons,
      List.not_mem_nil, or_false, ne_eq, reduceCtorEq, not_false_eq_true, true_and]
    tauto

theorem lookup_map {α : Type} (keys : List Byte) (f : Byte → α) (kind : Byte) :
    (keys.map fun key => (key, f key)).lookup kind = if kind ∈ keys then some (f kind) else none := by
  induction keys with
  | nil => rfl
  | cons key keys ih =>
    by_cases heq : kind = key
    · subst heq
      simp
    · simp [List.lookup_cons, beq_false_of_ne heq, heq, ih]

variable {probe : ONOSLLDP} {keys : List Byte} {f : Byte → LLDPOrganizationalTLV}

section

variable (hmap : probe.opttlvs = keys.map fun key => (key, f key))

include hmap

theorem fill_map {infoString : List Byte}
    (hinfo : infoString.length ≤ 507) (subType : Byte) (size : ℕ) :
    probe.fill subType infoString size = .ok { probe with opttlvs := keys.map fun key =>
      (key, if key = subType then filledTLV subType infoString size (f key) else f key) } := by
  have hset : LLDPOrganizationalTLV.setInfoString infoString = .ok infoString := if_pos hinfo
  have hfilled : (keys.map fun key => (key, f key)).map (fun e =>
      if e.1 = subType then (e.1, filledTLV subType infoString size e.2) else e) =
        keys.map fun key =>
          (key, if key = subType then filledTLV subType infoString size (f key) else f key) := by
    rw [List.map_map]
    apply List.map_congr_left
    intro key _
    dsimp only [Function.comp]
    split_ifs <;> rfl
  rw [fill, hset, hmap, ← hfilled]
  rfl

theorem nonNull_lookup {kind : Byte}
    (h : kind ∈ keys) : nonNull (probe.opttlvs.lookup kind) = .ok (f kind) := by
  rw [hmap, lookup_map, if_pos h, nonNull]

theorem isNone_lookup {kind : Byte}
    (h : kind ∈ keys) : (probe.opttlvs.lookup kind).isNone = false := by
  rw [hmap, lookup_map, if_pos h]
  rfl

theorem setName_map
    (h : NAME_SUBTYPE ∈ keys) {name : String} (hname : (getBytes name).length ≤ 507) :
    probe.setName name = .ok { probe with opttlvs := keys.map fun key => (key,
      if key = NAME_SUBTYPE then filledTLV NAME_SUBTYPE (getBytes name) (utf16Length name) (f key)
      else f key) } := by
  rw [setName, nonNull_lookup hmap h]
  exact fill_map hmap hname _ _

theorem setDevice_map
    (h : DEVICE_SUBTYPE ∈ keys) {device : String} (hdevice : (getBytes device).length ≤ 507) :
    probe.setDevice device = .ok { probe with opttlvs := keys.map fun key => (key,
      if key = DEVICE_SUBTYPE then
        filledTLV DEVICE_SUBTYPE (getBytes device) (utf16Length device) (f key)
      else f key) } := by
  rw [setDevice, nonNull_lookup hmap h]
  exact fill_map hmap hdevice _ _

theorem setTimestamp_map (h : TIMESTAMP_SUBTYPE ∈ keys) (timestamp : BitVec 64) :
    probe.setTimestamp timestamp = .ok { probe with opttlvs := keys.map fun key => (key,
      if key = TIMESTAMP_SUBTYPE then filledTLV TIMESTAMP_SUBTYPE (long timestamp) 8 (f key)
      else f key) } := by
  rw [setTimestamp, isNone_lookup hmap h]
  exact fill_map hmap (by rw [length_long]; decide) _ _

theorem setSig_map (h : SIG_SUBTYPE ∈ keys) {sig : List Byte} (hsig : sig.length ≤ 507) :
    probe.setSig sig = .ok { probe with opttlvs := keys.map fun key => (key,
      if key = SIG_SUBTYPE then filledTLV SIG_SUBTYPE sig sig.length (f key) else f key) } := by
  rw [setSig, isNone_lookup hmap h]
  exact fill_map hmap hsig _ _

end

theorem length_DEFAULT_NAME : (getBytes DEFAULT_NAME).length ≤ 507 := by decide

theorem length_DEFAULT_DEVICE : (getBytes DEFAULT_DEVICE).length ≤ 507 := by decide

variable {platform device chassisId portNum portDesc secret timestamp}

theorem onosSecureLLDP_eq (hdevice : (getBytes device).length ≤ 507) (hsecret : secret ≠ some "") :
    onosSecureLLDP platform device chassisId portNum portDesc secret timestamp =
      .ok (made platform device chassisId portNum portDesc secret timestamp) := by
  have hname : NAME_SUBTYPE ∈ kinds platform secret := (mem_kinds platform secret).mpr (.inl rfl)
  have hdev : DEVICE_SUBTYPE ∈ kinds platform secret :=
    (mem_kinds platform secret).mpr (.inr (.inl rfl))
  rw [onosSecureLLDP, new]
  change ((Except.bind (setName DEFAULT_NAME ⟨none, none, none,
    (kinds platform secret).map fun key => (key, newTLV), []⟩) _).bind _) = _
  rw [setName_map rfl hname length_DEFAULT_NAME]
  change ((Except.bind (setDevice DEFAULT_DEVICE _) _).bind _) = _
  rw [setDevice_map rfl hdev length_DEFAULT_DEVICE]
  change (Except.bind (setDevice device _) _) = _
  rw [setDevice_map rfl hdev hdevice]
  cases secret with
  | none =>
    apply congrArg (fun opttlvs => Except.ok (addPortDesc portDesc
      ⟨some (.plain (chassisTLV chassisId)), some (.plain (portTLV portNum)),
        some (.plain ttlTLV), opttlvs, []⟩))
    apply List.map_congr_left
    intro kind hkind
    rcases (mem_kinds platform none).mp hkind with rfl | rfl | ⟨hnone, -⟩
    · rfl
    · rfl
    · exact absurd rfl hnone
  | some secret =>
    have htime : TIMESTAMP_SUBTYPE ∈ kinds platform (some secret) :=
      (mem_kinds platform (some secret)).mpr (.inr (.inr ⟨Option.some_ne_none _, .inl rfl⟩))
    have hsig : SIG_SUBTYPE ∈ kinds platform (some secret) :=
      (mem_kinds platform (some secret)).mpr (.inr (.inr ⟨Option.some_ne_none _, .inr rfl⟩))
    have hcreate : (createSig platform device portNum timestamp secret : Result _) =
        .ok (signature platform device portNum (some secret) timestamp) := by
      rw [createSig, if_neg]
      · rfl
      · intro hempty
        exact hsecret (congrArg some (getBytes_eq_nil_iff.mp hempty))
    have hlength : (signature platform device portNum (some secret) timestamp).length ≤ 507 := by
      rw [signature, platform.length_hmacSHA256]
      decide
    change (Except.bind (setTimestamp timestamp _) _) = _
    rw [setTimestamp_map rfl htime]
    change (Except.bind (createSig platform device portNum timestamp secret) _) = _
    rw [hcreate]
    change (Except.bind (setSig _ _) _) = _
    rw [setSig_map rfl hsig hlength]
    apply congrArg (fun opttlvs => Except.ok (addPortDesc portDesc
      ⟨some (.plain (chassisTLV chassisId)), some (.plain (portTLV portNum)),
        some (.plain ttlTLV), opttlvs, []⟩))
    apply List.map_congr_left
    intro kind hkind
    rcases (mem_kinds platform (some secret)).mp hkind with rfl | rfl | ⟨-, rfl | rfl⟩ <;> rfl

theorem onosSecureLLDP_empty (probe : ONOSLLDP) :
    onosSecureLLDP platform device chassisId portNum portDesc (some "") timestamp ≠ .ok probe := by
  intro hmade
  obtain ⟨_, -, hmade⟩ := bind_eq_ok.mp hmade
  obtain ⟨_, -, hmade⟩ := bind_eq_ok.mp hmade
  obtain ⟨_, -, hmade⟩ := bind_eq_ok.mp hmade
  obtain ⟨_, hsig, -⟩ := bind_eq_ok.mp hmade
  cases hsig

end Making

section Sending

variable {platform : Platform} {device : String} {chassisId : BitVec 64} {portNum : BitVec 32}
  {portDesc secret : Option String} {timestamp : BitVec 64}

/-- Texts that can name a device in a TLV: each of their characters is a byte. -/
def Plain (device : String) : Prop := device ≠ "" ∧ ∀ c ∈ device.toList, c.toNat < 128

def described : Option String → List TLV
  | none => []
  | some portDesc =>
    if portDesc = "" then []
    else [.plain ⟨PORT_DESC_TLV_TYPE, BitVec.ofNat 16 ((getBytes portDesc).take 511).length,
      some ((getBytes portDesc).take 511)⟩]

theorem addPortDesc_eq (portDesc : Option String) (probe : ONOSLLDP) :
    probe.addPortDesc portDesc = { probe with others := probe.others ++ described portDesc } := by
  cases portDesc with
  | none => simp [addPortDesc, described]
  | some portDesc =>
    rw [addPortDesc, described]
    split_ifs <;> simp

theorem made_toLLDP : (made platform device chassisId portNum portDesc secret timestamp).toLLDP =
    ⟨some (.plain (chassisTLV chassisId)), some (.plain (portTLV portNum)), some (.plain ttlTLV),
      (kinds platform secret).map (fun kind =>
        .organizational (madeTLV platform device portNum secret timestamp kind)) ++
          described portDesc⟩ := by
  rw [made, addPortDesc_eq, toLLDP]
  simp

theorem plain_proper {type : Byte} {value : List Byte} (htype : type.toNat < 127)
    (hvalue : value.length ≤ 511) :
    (TLV.plain ⟨type, BitVec.ofNat 16 value.length, some value⟩).Proper := by
  refine ⟨rfl, by change type.toNat < 128; omega, hvalue, ?_⟩
  intro horganizational
  change type = ORGANIZATIONAL_TLV_TYPE at horganizational
  rw [horganizational] at htype
  exact absurd htype (by decide)

theorem described_proper {tlv : TLV} (h : tlv ∈ described portDesc) : ∃ value,
    tlv = .plain ⟨PORT_DESC_TLV_TYPE, BitVec.ofNat 16 value.length, some value⟩ ∧ value ≠ [] ∧
      tlv.Proper := by
  cases portDesc with
  | none => cases h
  | some portDesc =>
    rw [described] at h
    split_ifs at h with hempty
    · cases h
    · obtain rfl := List.mem_singleton.mp h
      refine ⟨_, rfl, ?_, plain_proper (by decide) (List.length_take_le _ _)⟩
      rw [Ne, List.take_eq_nil_iff, getBytes_eq_nil_iff]
      exact not_or.mpr ⟨by decide, hempty⟩

variable (platform portNum secret timestamp) in
theorem info_proper (hdevice : Plain device) (hlen : (getBytes device).length ≤ 507) (kind : Byte) :
    1 ≤ (info platform device portNum secret timestamp kind).1.length ∧
      (info platform device portNum secret timestamp kind).1.length ≤ 507 ∧
        (info platform device portNum secret timestamp kind).2 =
          (info platform device portNum secret timestamp kind).1.length := by
  have hsig : (signature platform device portNum secret timestamp).length = 32 :=
    platform.length_hmacSHA256 _ _
  have hne : 1 ≤ (getBytes device).length := by
    rw [Nat.one_le_iff_ne_zero, Ne, List.length_eq_zero_iff, getBytes_eq_nil_iff]
    exact hdevice.1
  have hname : utf16Length DEFAULT_NAME = (getBytes DEFAULT_NAME).length := by decide
  rw [info]
  split_ifs
  · exact ⟨hne, hlen, (utf16Length_eq_iff device).mpr hdevice.2⟩
  · rw [length_long]
    exact ⟨by decide, by decide, rfl⟩
  · rw [hsig]
    exact ⟨by decide, by decide, rfl⟩
  · exact ⟨by decide, length_DEFAULT_NAME, hname⟩

theorem madeTLV_proper (hdevice : Plain device) (hlen : (getBytes device).length ≤ 507)
    (kind : Byte) :
    (TLV.organizational (madeTLV platform device portNum secret timestamp kind)).Proper := by
  obtain ⟨hone, hlong, hsize⟩ := info_proper platform portNum secret timestamp hdevice hlen kind
  refine ⟨rfl, oui ONOS, _, rfl, rfl, rfl, hone, hlong, ?_⟩
  rw [← hsize, Nat.add_comm]
  rfl

theorem made_proper (hdevice : Plain device) (hlen : (getBytes device).length ≤ 507) :
    (made platform device chassisId portNum portDesc secret timestamp).toLLDP.Proper
      (.plain (chassisTLV chassisId)) (.plain (portTLV portNum)) (.plain ttlTLV) := by
  have hport : (PORT_TLV_COMPONENT_SUBTYPE :: getBytes (ofInt portNum.toInt)).length ≤ 511 := by
    have hchars := length_ofInt_le portNum
    have hbytes := length_getBytes_le (ofInt portNum.toInt)
    rw [List.length_cons]
    omega
  have hchassis : (CHASSIS_TLV_SUBTYPE :: macAddress (chassisId.setWidth 48)).length = 7 := by
    rw [List.length_cons, length_macAddress]
  have hchassisTLV : chassisTLV chassisId = ⟨1, BitVec.ofNat 16
      (CHASSIS_TLV_SUBTYPE :: macAddress (chassisId.setWidth 48)).length,
        some (CHASSIS_TLV_SUBTYPE :: macAddress (chassisId.setWidth 48))⟩ := by
    rw [hchassis]
    rfl
  rw [made_toLLDP]
  constructor
  · refine ⟨rfl, ?_, rfl⟩
    rw [hchassisTLV]
    exact plain_proper (by decide) (by omega)
  · exact ⟨rfl, plain_proper (by decide) hport, rfl⟩
  · exact ⟨rfl, ⟨rfl, by decide, by decide, by decide⟩, rfl⟩
  · intro tlv htlv
    rcases List.mem_append.mp htlv with htlv | htlv
    · obtain ⟨kind, -, rfl⟩ := List.mem_map.mp htlv
      exact ⟨madeTLV_proper hdevice hlen kind, by change 4 ≤ (127 : Byte).toNat; decide⟩
    · obtain ⟨value, rfl, -, hproper⟩ := described_proper htlv
      exact ⟨hproper, by change 4 ≤ (4 : Byte).toNat; decide⟩

theorem length_wire_le {tlvs : List TLV} (h : ∀ tlv ∈ tlvs, tlv.Proper) :
    (wire (LLDP.sent tlvs)).length ≤ 513 * tlvs.length := by
  induction tlvs with
  | nil => rfl
  | cons tlv tlvs ih =>
    have hvalue := (h tlv List.mem_cons_self).sendable.valueLength
    have hrest := ih fun t ht => h t (List.mem_cons_of_mem tlv ht)
    have hlen : (wire (LLDP.sent (tlv :: tlvs))).length =
        2 + tlv.sentValue.length + (wire (LLDP.sent tlvs)).length := by
      simp [wire, LLDP.sent, tlvBytes, Nat.add_assoc]
    rw [hlen, List.length_cons]
    omega

theorem length_bytes_made (hdevice : Plain device) (hlen : (getBytes device).length ≤ 507) :
    (made platform device chassisId portNum portDesc secret timestamp).toLLDP.bytes.length ≤
      6000 := by
  have hproper : (made platform device chassisId portNum portDesc secret timestamp).toLLDP.Proper
      (.plain (chassisTLV chassisId)) (.plain (portTLV portNum)) (.plain ttlTLV) :=
    made_proper hdevice hlen
  have hwire := length_wire_le fun tlv htlv => (hproper.of_mem tlv htlv).1
  have hkinds : (kinds platform secret).length ≤ 6 := by
    rw [kinds, (platform.iteration_perm _).length_eq]
    refine (List.dedup_sublist _).length_le.trans ?_
    cases secret <;> simp
  have hdescribed : (described portDesc).length ≤ 1 := by
    cases portDesc with
    | none => exact Nat.zero_le 1
    | some portDesc =>
      rw [described]
      split_ifs <;> simp
  rw [hproper.tlvs_eq, made_toLLDP] at hwire
  simp only [List.length_cons, List.length_append, List.length_map] at hwire
  rw [LLDP.bytes, List.length_append, length_short, hproper.tlvs_eq, made_toLLDP]
  simp only
  omega

end Sending

section Returning

variable {platform : Platform} {device : String} {chassisId : BitVec 64} {portNum : BitVec 32}
  {portDesc secret : Option String} {timestamp : BitVec 64}

theorem findTLV_map (keys : List Byte) {g : Byte → LLDPOrganizationalTLV}
    (hg : ∀ kind, (g kind).type = ORGANIZATIONAL_TLV_TYPE ∧ (g kind).subType = kind)
    (others : List TLV) (kind : Byte) :
    findTLV kind (keys.map (fun key => .organizational (g key)) ++ others) =
      if kind ∈ keys then .ok (some (g kind)) else findTLV kind others := by
  induction keys with
  | nil => rfl
  | cons key keys ih =>
    rw [List.map_cons, List.cons_append, findTLV, ih, (hg key).1, (hg key).2]
    by_cases heq : key = kind
    · subst heq
      simp
    · simp [heq, Ne.symm heq]

theorem find_map (keys : List Byte) {g : Byte → LLDPOrganizationalTLV}
    (hg : ∀ kind, (g kind).type = ORGANIZATIONAL_TLV_TYPE ∧ (g kind).subType = kind)
    (others : List TLV) :
    (keys.map (fun key => TLV.organizational (g key)) ++ others).find?
        (fun tlv => tlv.toLLDPTLV.type = PORT_DESC_TLV_TYPE) =
      others.find? fun tlv => tlv.toLLDPTLV.type = PORT_DESC_TLV_TYPE := by
  rw [List.find?_append, List.find?_eq_none.mpr, Option.none_or]
  intro tlv htlv
  obtain ⟨kind, -, rfl⟩ := List.mem_map.mp htlv
  rw [decide_eq_true_eq]
  change (g kind).type ≠ PORT_DESC_TLV_TYPE
  rw [(hg kind).1]
  decide

def returnedTLV (platform : Platform) (device : String) (portNum : BitVec 32)
    (secret : Option String) (timestamp : BitVec 64) (kind : Byte) : LLDPOrganizationalTLV :=
  { madeTLV platform device portNum secret timestamp kind with
    value := some (TLV.sentValue
      (.organizational (madeTLV platform device portNum secret timestamp kind))) }

theorem returned_made (hdevice : Plain device) (hlen : (getBytes device).length ≤ 507) :
    (made platform device chassisId portNum portDesc secret timestamp).toLLDP.returned =
      ⟨some (.organizational ⟨chassisTLV chassisId, none, 0, none⟩),
        some (.organizational ⟨portTLV portNum, none, 0, none⟩),
        some (.organizational ⟨ttlTLV, none, 0, none⟩),
        (kinds platform secret).map (fun kind =>
          .organizational (returnedTLV platform device portNum secret timestamp kind)) ++
            (described portDesc).map LLDP.received⟩ := by
  have hproper : (made platform device chassisId portNum portDesc secret timestamp).toLLDP.Proper
      (.plain (chassisTLV chassisId)) (.plain (portTLV portNum)) (.plain ttlTLV) :=
    made_proper hdevice hlen
  have hone : (1 : Byte) ≠ ORGANIZATIONAL_TLV_TYPE := by decide
  have htwo : (2 : Byte) ≠ ORGANIZATIONAL_TLV_TYPE := by decide
  have hchassis := LLDP.received_plain hproper.chassisId.2.1 hone (by simp [chassisTLV])
  have hport := LLDP.received_plain hproper.portId.2.1 htwo (by simp [portTLV])
  have httl := LLDP.received_plain hproper.ttl.2.1 (by decide) (by simp [ttlTLV])
  have hmap : (kinds platform secret).map (LLDP.received ∘ fun kind =>
      .organizational (madeTLV platform device portNum secret timestamp kind)) =
        (kinds platform secret).map fun kind =>
          .organizational (returnedTLV platform device portNum secret timestamp kind) := by
    apply List.map_congr_left
    intro kind _
    exact LLDP.received_organizational (madeTLV_proper hdevice hlen kind)
  rw [LLDP.returned, made_toLLDP, List.map_append, List.map_map, hmap, Option.map_some,
    Option.map_some, Option.map_some, hchassis, hport, httl]

variable (platform chassisId portNum portDesc secret timestamp) in
def readProbe (device : String) : ONOSLLDP :=
  ofLLDP (made platform device chassisId portNum portDesc secret timestamp).toLLDP.returned

theorem toLLDP_ofLLDP (lldp : LLDP) : (ofLLDP lldp).toLLDP = lldp := rfl

section

variable (hdevice : Plain device)

include hdevice

section

variable (hlen : (getBytes device).length ≤ 507)

include hlen

theorem getInfo_readProbe {kind : Byte} (h : kind ∈ kinds platform secret) :
    (readProbe platform chassisId portNum portDesc secret timestamp device).getInfo kind =
      .ok (some (info platform device portNum secret timestamp kind).1) := by
  have hfind := findTLV_map (kinds platform secret)
    (g := returnedTLV platform device portNum secret timestamp) (fun _ => ⟨rfl, rfl⟩)
    ((described portDesc).map LLDP.received) kind
  rw [if_pos h] at hfind
  rw [getInfo, getTLV, readProbe, toLLDP_ofLLDP, returned_made hdevice hlen, hfind]
  rfl

theorem getNameString_readProbe :
    (readProbe platform chassisId portNum portDesc secret timestamp device).getNameString =
      .ok (some DEFAULT_NAME) := by
  have hname : NAME_SUBTYPE ∈ kinds platform secret := (mem_kinds platform secret).mpr (.inl rfl)
  rw [getNameString, getInfo_readProbe hdevice hlen hname]
  change Except.ok (some (fromBytes (getBytes DEFAULT_NAME))) = _
  rw [fromBytes_getBytes]

theorem getDeviceString_readProbe :
    (readProbe platform chassisId portNum portDesc secret timestamp device).getDeviceString =
      .ok (some device) := by
  have hkind : DEVICE_SUBTYPE ∈ kinds platform secret :=
    (mem_kinds platform secret).mpr (.inr (.inl rfl))
  rw [getDeviceString, getInfo_readProbe hdevice hlen hkind]
  change Except.ok (some (fromBytes (getBytes device))) = _
  rw [fromBytes_getBytes]

theorem getPort_readProbe :
    (readProbe platform chassisId portNum portDesc secret timestamp device).getPort =
      .ok portNum := by
  rw [getPort, readProbe, returned_made hdevice hlen]
  change (parseInt (fromBytes (getBytes (ofInt portNum.toInt)))).elim _ Except.ok = _
  rw [fromBytes_getBytes, parseInt_ofInt]
  rfl

theorem getChassisIdByMac_readProbe :
    (readProbe platform chassisId portNum portDesc secret timestamp device).getChassisIdByMac =
      .ok (chassisId.setWidth 48) := by
  have hmac := length_macAddress (chassisId.setWidth 48)
  rw [getChassisIdByMac, readProbe, returned_made hdevice hlen]
  change (if 6 ≤ (macAddress (chassisId.setWidth 48)).length then
    .ok (ofBytes 48 ((macAddress (chassisId.setWidth 48)).take 6))
      else .error .indexOutOfBounds : Answer (BitVec 48)) = _
  rw [if_pos hmac.ge, List.take_of_length_le hmac.le, ofBytes_macAddress]

theorem getTimestamp_readProbe (hsecret : secret ≠ none) :
    (readProbe platform chassisId portNum portDesc secret timestamp device).getTimestamp =
      .ok timestamp := by
  have hkind : TIMESTAMP_SUBTYPE ∈ kinds platform secret :=
    (mem_kinds platform secret).mpr (.inr (.inr ⟨hsecret, .inl rfl⟩))
  have htime := length_long timestamp
  rw [getTimestamp, getInfo_readProbe hdevice hlen hkind]
  change (if 8 < (long timestamp).length then .error .bufferOverflow
    else if (long timestamp).length < 8 then .error .bufferUnderflow
    else .ok (ofBytes 64 (long timestamp)) : Answer (BitVec 64)) = _
  rw [if_neg (by omega), if_neg (by omega), ofBytes_long]

theorem getSig_readProbe (hsecret : secret ≠ none) :
    (readProbe platform chassisId portNum portDesc secret timestamp device).getSig =
      .ok (some (signature platform device portNum secret timestamp)) := by
  have hkind : SIG_SUBTYPE ∈ kinds platform secret :=
    (mem_kinds platform secret).mpr (.inr (.inr ⟨hsecret, .inr rfl⟩))
  exact getInfo_readProbe hdevice hlen hkind

theorem getPortDescString_readProbe :
    (readProbe platform chassisId portNum portDesc secret timestamp device).getPortDescString =
      (made platform device chassisId portNum portDesc secret timestamp).getPortDescString := by
  have hread := find_map (kinds platform secret)
    (g := returnedTLV platform device portNum secret timestamp) (fun _ => ⟨rfl, rfl⟩)
    ((described portDesc).map LLDP.received)
  have hmade := find_map (kinds platform secret)
    (g := madeTLV platform device portNum secret timestamp) (fun _ => ⟨rfl, rfl⟩)
    (described portDesc)
  rw [getPortDescString, getPortDescString, readProbe, toLLDP_ofLLDP, returned_made hdevice hlen,
    hread, made_toLLDP, hmade]
  cases portDesc with
  | none => rfl
  | some portDesc =>
    by_cases hempty : portDesc = ""
    · rw [described, if_pos hempty]
      rfl
    · have hmem : TLV.plain ⟨PORT_DESC_TLV_TYPE,
          BitVec.ofNat 16 ((getBytes portDesc).take 511).length,
            some ((getBytes portDesc).take 511)⟩ ∈ described (some portDesc) := by
        rw [described, if_neg hempty]
        exact List.mem_singleton_self _
      obtain ⟨value, heq, hne, hproper⟩ := described_proper hmem
      have hfour : PORT_DESC_TLV_TYPE ≠ ORGANIZATIONAL_TLV_TYPE := by decide
      have hvalue : some ((getBytes portDesc).take 511) ≠ some [] := by
        simp only [TLV.plain.injEq, LLDPTLV.mk.injEq] at heq
        rw [heq.2.2]
        simpa using hne
      rw [described, if_neg hempty, List.map_singleton, LLDP.received_plain hproper hfour hvalue]
      rfl

end

end

theorem getPortDescString_made (h : ∀ desc, portDesc = some desc → desc ≠ "" ∧
    (getBytes desc).length ≤ 511) :
    (made platform device chassisId portNum portDesc secret timestamp).getPortDescString =
      .ok portDesc := by
  have hmade := find_map (kinds platform secret)
    (g := madeTLV platform device portNum secret timestamp) (fun _ => ⟨rfl, rfl⟩)
    (described portDesc)
  rw [getPortDescString, made_toLLDP, hmade]
  cases portDesc with
  | none => rfl
  | some portDesc =>
    obtain ⟨hempty, hfit⟩ := h portDesc rfl
    rw [described, if_neg hempty, List.take_of_length_le hfit]
    change Except.ok (some (fromBytes (getBytes portDesc))) = _
    rw [fromBytes_getBytes]

theorem zip_self_all (bytes : List Byte) :
    ((bytes.zip bytes).all fun pair => pair.1 == pair.2) = true := by
  induction bytes with
  | nil => rfl
  | cons b bytes ih => simpa using ih

theorem verifySig_signature {deviceId sharedSecret : String} (h : sharedSecret ≠ "") :
    verifySig platform (signature platform deviceId portNum (some sharedSecret) timestamp) deviceId
      portNum timestamp sharedSecret = .ok true := by
  have hkey : getBytes sharedSecret ≠ [] := fun hnil => h (getBytes_eq_nil_iff.mp hnil)
  have hcreate : (createSig platform deviceId portNum timestamp sharedSecret : Answer _) =
      .ok (signature platform deviceId portNum (some sharedSecret) timestamp) := if_neg hkey
  rw [verifySig, hcreate]
  change (if _ then _ else _) = _
  rw [if_neg (not_not.mpr rfl), zip_self_all]
  rfl

/-- A probe that comes in time: after it was sent, and before the delay is over. -/
structure InTime (timestamp maxDelay currentTime laterTime : BitVec 64) : Prop where
  sent : timestamp.toInt ≤ currentTime.toInt
  later : currentTime.toInt ≤ laterTime.toInt
  delay : currentTime.toInt < timestamp.toInt + maxDelay.toInt

variable {maxDelay currentTime laterTime : BitVec 64}

theorem InTime.accepted_iff (h : InTime timestamp maxDelay currentTime laterTime) :
    ¬ ((timestamp + maxDelay).toInt ≤ currentTime.toInt ∨ laterTime.toInt < timestamp.toInt) ↔
      timestamp.toInt + maxDelay.toInt < 2 ^ 63 := by
  obtain ⟨hsent, hlater, hdelay⟩ := h
  have hlow := BitVec.le_toInt currentTime
  have hhigh := BitVec.toInt_lt (x := timestamp)
  have hbound := BitVec.toInt_lt (x := maxDelay)
  rw [BitVec.toInt_add]
  by_cases hfits : timestamp.toInt + maxDelay.toInt < 2 ^ 63
  · rw [Int.bmod_eq_of_le (by omega) (by omega)]
    omega
  · rw [← Int.sub_bmod_right, Int.bmod_eq_of_le (by omega) (by omega)]
    omega

theorem verify_readProbe (hdevice : Plain device) (hlen : (getBytes device).length ≤ 507)
    (hsecret : secret ≠ some "")
    (htime : secret ≠ none → InTime timestamp maxDelay currentTime laterTime) :
    verify platform (readProbe platform chassisId portNum portDesc secret timestamp device) secret
      maxDelay currentTime laterTime = .ok true ↔
        (secret ≠ none → timestamp.toInt + maxDelay.toInt < 2 ^ 63) := by
  cases secret with
  | none => exact iff_of_true rfl fun hne => absurd rfl hne
  | some sharedSecret =>
    have hsome : some sharedSecret ≠ none := Option.some_ne_none _
    have hkey : sharedSecret ≠ "" := fun hempty => hsecret (congrArg some hempty)
    rw [← (htime hsome).accepted_iff, verify, getDeviceString_readProbe hdevice hlen,
      getPort_readProbe hdevice hlen, getTimestamp_readProbe hdevice hlen hsome,
      getSig_readProbe hdevice hlen hsome]
    change (if _ then Except.ok false else verifySig platform _ _ _ _ _) = _ ↔ _
    rw [verifySig_signature hkey]
    split_ifs with hlate
    · exact iff_of_false (by simp) fun hin => hin hsome hlate
    · exact iff_of_true rfl fun _ => hlate

end Returning

section Losing

def Informative : TLV → Prop
  | .plain _ => True
  | .organizational tlv => tlv.type = ORGANIZATIONAL_TLV_TYPE → tlv.infoString ≠ some []

theorem store_informative {lldp : LLDP} {tlv : TLV} (htlv : Informative tlv)
    (h : ∀ t ∈ lldp.optionalTLVList, Informative t) :
    ∀ t ∈ (lldp.store tlv).optionalTLVList, Informative t := by
  rw [LLDP.store]
  split <;> try exact h
  intro t ht
  rcases List.mem_append.mp ht with ht | ht
  · exact h t ht
  · exact List.mem_singleton.mp ht ▸ htlv

theorem readTLVs_informative {length currentIndex : ℤ} {lldp lldp' : LLDP} {bb : ReadBuffer}
    (h : ∀ t ∈ lldp.optionalTLVList, Informative t)
    (hread : LLDP.readTLVs length currentIndex lldp bb = .ok lldp') :
    ∀ t ∈ lldp'.optionalTLVList, Informative t := by
  induction hn : bb.remaining using Nat.strong_induction_on generalizing currentIndex lldp bb with
  | h n ih =>
    rw [LLDP.readTLVs_eq] at hread
    obtain ⟨_, -, hread⟩ := bind_eq_ok.mp hread
    obtain ⟨⟨tlv, bb'⟩, htlv, hread⟩ := bind_eq_ok.mp hread
    dsimp only at hread
    split_ifs at hread
    · cases hread
      exact h
    · have hless := LLDPOrganizationalTLV.remaining_lt_of_deserialize htlv
      have hinformative : Informative (.organizational tlv) :=
        LLDPOrganizationalTLV.infoString_of_deserialize htlv
      exact ih _ (hn ▸ hless) (store_informative hinformative h) hread rfl

theorem deserializer_informative {data : List Byte} {offset length : ℤ} {lldp : LLDP}
    (h : LLDP.deserializer data offset length = .ok lldp) :
    ∀ t ∈ lldp.optionalTLVList, Informative t := by
  obtain ⟨_, -, h⟩ := bind_eq_ok.mp h
  obtain ⟨_, -, h⟩ := bind_eq_ok.mp h
  exact readTLVs_informative (fun t ht => absurd ht List.not_mem_nil) h

theorem findTLV_mem {kind : Byte} {tlvs : List TLV} {tlv : LLDPOrganizationalTLV}
    (h : findTLV kind tlvs = .ok (some tlv)) :
    .organizational tlv ∈ tlvs ∧ tlv.type = ORGANIZATIONAL_TLV_TYPE := by
  induction tlvs with
  | nil => cases h
  | cons first tlvs ih =>
    cases first with
    | plain first =>
      rw [findTLV] at h
      split_ifs at h
      exact ⟨List.mem_cons_of_mem _ (ih h).1, (ih h).2⟩
    | organizational first =>
      rw [findTLV] at h
      split_ifs at h with hfirst
      · cases h
        exact ⟨List.mem_cons_self, hfirst.1⟩
      · exact ⟨List.mem_cons_of_mem _ (ih h).1, (ih h).2⟩

theorem getDeviceString_ne_empty {data : List Byte} {offset length : ℤ} {lldp : LLDP}
    (h : LLDP.deserializer data offset length = .ok lldp) :
    (ofLLDP lldp).getDeviceString ≠ .ok (some "") := by
  intro hname
  obtain ⟨info, hinfo, htext⟩ := map_eq_ok.mp hname
  obtain ⟨found, hfound, hinfo⟩ := bind_eq_ok.mp hinfo
  cases found with
  | none =>
    cases hinfo
    cases htext
  | some tlv =>
    obtain ⟨infoString, hderef, hinfo⟩ := bind_eq_ok.mp hinfo
    cases hinfo
    obtain ⟨hmem, htype⟩ := findTLV_mem hfound
    have hinformative := deserializer_informative h _ hmem htype
    have hsome : tlv.infoString = some infoString := by
      cases hinfo : tlv.infoString with
      | none =>
        rw [hinfo] at hderef
        cases hderef
      | some bytes =>
        rw [hinfo] at hderef
        cases hderef
        rfl
    have hempty : fromBytes infoString = "" := Option.some.inj htext
    refine fromBytes_ne_empty (fun hnil => hinformative ?_) hempty
    rw [hsome, hnil]

variable {platform : Platform} {device : String} {chassisId : BitVec 64} {portNum : BitVec 32}
  {portDesc secret : Option String} {timestamp : BitVec 64}

theorem serialize_of_mapM {tlvs : List TLV} {results : List (TLV × List Byte)}
    (h : tlvs.mapM TLV.serialize = .ok results) : ∀ tlv ∈ tlvs, ∃ r, tlv.serialize = .ok r := by
  induction tlvs generalizing results with
  | nil => exact fun tlv htlv => absurd htlv List.not_mem_nil
  | cons tlv tlvs ih =>
    rw [List.mapM_cons] at h
    obtain ⟨r, hr, h⟩ := bind_eq_ok.mp h
    obtain ⟨rs, hrs, -⟩ := bind_eq_ok.mp h
    rw [List.forall_mem_cons]
    exact ⟨⟨r, hr⟩, ih hrs⟩

theorem serialize_of_ok {lldp : LLDP} {r : LLDP × List Byte} (h : lldp.serialize = .ok r) :
    ∀ tlv ∈ lldp.optionalTLVList, ∃ r, tlv.serialize = .ok r := by
  obtain ⟨_, -, h⟩ := bind_eq_ok.mp h
  obtain ⟨_, -, h⟩ := bind_eq_ok.mp h
  obtain ⟨_, -, h⟩ := bind_eq_ok.mp h
  obtain ⟨_, -, h⟩ := bind_eq_ok.mp h
  obtain ⟨_, -, h⟩ := bind_eq_ok.mp h
  obtain ⟨_, -, h⟩ := bind_eq_ok.mp h
  obtain ⟨_, hoptional, -⟩ := bind_eq_ok.mp h
  exact serialize_of_mapM hoptional

theorem serialize_device (hlen : (getBytes device).length ≤ 507)
    (hdevice : utf16Length device ≠ (getBytes device).length) (r : TLV × List Byte) :
    (TLV.organizational
      (madeTLV platform device portNum secret timestamp DEVICE_SUBTYPE)).serialize ≠ .ok r := by
  intro hok
  have hunits := utf16Length_le device
  have hint : (BitVec.ofNat 16 (utf16Length device + 4)).toInt = (utf16Length device + 4 : ℕ) :=
    toInt_ofNat_of_lt (by omega)
  obtain ⟨_, hok, -⟩ := map_eq_ok.mp hok
  refine LLDPOrganizationalTLV.serialize_of_lt rfl rfl rfl rfl ?_ _ hok
  change (BitVec.ofNat 16 (utf16Length device + 4)).toInt < 4 + ((getBytes device).length : ℤ)
  omega

theorem serialize_made (hlen : (getBytes device).length ≤ 507)
    (hdevice : ¬ ∀ c ∈ device.toList, c.toNat < 128) (r : LLDP × List Byte) :
    (made platform device chassisId portNum portDesc secret timestamp).toLLDP.serialize ≠ .ok r := by
  intro hok
  have hkind : DEVICE_SUBTYPE ∈ kinds platform secret :=
    (mem_kinds platform secret).mpr (.inr (.inl rfl))
  have hmem : .organizational (madeTLV platform device portNum secret timestamp DEVICE_SUBTYPE) ∈
      (made platform device chassisId portNum portDesc secret timestamp).toLLDP.optionalTLVList := by
    rw [made_toLLDP]
    exact List.mem_append_left _ (List.mem_map_of_mem hkind)
  obtain ⟨r', hr'⟩ := serialize_of_ok hok _ hmem
  exact serialize_device hlen (mt (utf16Length_eq_iff device).mp hdevice) r' hr'

end Losing

section ReadBack

variable {Q : Type}

def setPayload (probe : ONOSLLDP) (frame : Ethernet (Payload (LLDP ⊕ Q))) :
    Ethernet (Payload (LLDP ⊕ Q)) :=
  { frame with payload := some (.inr (.inl probe.toLLDP)) }

def ReadBack [IPacket Q] (platform : Platform) (others : BitVec 16 → List Byte → ℤ → ℤ → Result Q)
    (frame : Ethernet (Payload (LLDP ⊕ Q))) (device : String) (chassisId : BitVec 64)
    (portNum : BitVec 32) (portDesc secret : Option String)
    (timestamp maxDelay currentTime laterTime : BitVec 64) : Prop :=
  ∃ probe after data eth probe',
    onosSecureLLDP platform device chassisId portNum portDesc secret timestamp = .ok probe ∧
    (setPayload probe frame).serialize = .ok (after, data) ∧
    Ethernet.deserializer (deserializerOf others) data 0 data.length = .ok eth ∧
    parseONOSLLDP eth = .ok (some probe') ∧
    probe'.getDeviceString = .ok (some device) ∧ probe'.getPort = .ok portNum ∧
    probe'.getChassisIdByMac = .ok (chassisId.setWidth 48) ∧
    probe'.getPortDescString = probe.getPortDescString ∧
    verify platform probe' secret maxDelay currentTime laterTime = .ok true

variable {platform : Platform} {others : BitVec 16 → List Byte → ℤ → ℤ → Result Q}
  {frame : Ethernet (Payload (LLDP ⊕ Q))} {device : String} {chassisId : BitVec 64}
  {portNum : BitVec 32} {portDesc secret : Option String}
  {timestamp maxDelay currentTime laterTime : BitVec 64}

theorem parsed_from {data : List Byte} {offset length : ℤ} {eth : Ethernet (Payload (LLDP ⊕ Q))}
    {probe : ONOSLLDP} (heth : Ethernet.deserializer (deserializerOf others) data offset length = .ok eth)
    (hparse : parseONOSLLDP eth = .ok (some probe)) : ∃ lldp start size,
      LLDP.deserializer data start size = .ok lldp ∧ probe = ofLLDP lldp := by
  obtain ⟨content, hcontent, start, size, hread⟩ := Ethernet.payload_of_deserializer heth
  rw [parseONOSLLDP, hcontent] at hparse
  split_ifs at hparse with htype
  · rcases content with _ | lldp | _
    · cases hparse
    · obtain ⟨name, -, hname⟩ := bind_eq_ok.mp hparse
      rw [payloadOf] at hread
      split_ifs at hread
      · obtain ⟨packet, hpacket, hinr⟩ := map_eq_ok.mp hread
        cases hinr
        rw [deserializerOf, if_pos htype] at hpacket
        obtain ⟨lldp', hlldp, hinl⟩ := map_eq_ok.mp hpacket
        cases hinl
        refine ⟨lldp, start, size, hlldp, ?_⟩
        have hsome := Except.ok.inj hname
        split_ifs at hsome
        exact (Option.some.inj hsome).symm
      · obtain ⟨packet, -, hinl⟩ := map_eq_ok.mp hread
        cases hinl
    · cases hparse
  · cases hparse

variable (others chassisId portNum portDesc secret timestamp) in
theorem parsed_made [IPacket Q] (hframe : frame.Tagged)
    (htype : frame.etherType = TYPE_LLDP ∨ frame.etherType = TYPE_BSN) (hdevice : Plain device)
    (hlen : (getBytes device).length ≤ 507) : ∃ after data eth,
      (setPayload (made platform device chassisId portNum portDesc secret timestamp)
        frame).serialize = .ok (after, data) ∧
      Ethernet.deserializer (deserializerOf others) data 0 data.length = .ok eth ∧
      parseONOSLLDP eth =
        .ok (some (readProbe platform chassisId portNum portDesc secret timestamp device)) := by
  have hproper : (made platform device chassisId portNum portDesc secret timestamp).toLLDP.Proper
      (.plain (chassisTLV chassisId)) (.plain (portTLV portNum)) (.plain ttlTLV) :=
    made_proper hdevice hlen
  have hsize : (made platform device chassisId portNum portDesc secret timestamp).toLLDP.bytes.length ≤
    6000 := length_bytes_made hdevice hlen
  have hname : (readProbe platform chassisId portNum portDesc secret timestamp device).getNameString =
    .ok (some DEFAULT_NAME) := getNameString_readProbe hdevice hlen
  rw [readProbe] at hname ⊢
  generalize made platform device chassisId portNum portDesc secret timestamp = probe at *
  have hpacket : IPacket.serialize (some Parent.other) (Sum.inl probe.toLLDP : LLDP ⊕ Q) =
      .ok (.inl probe.toLLDP.filled, probe.toLLDP.bytes) := by
    change Except.map _ probe.toLLDP.serialize = _
    rw [hproper.serialize_of_lt (by omega)]
    rfl
  have hshort (payload : List Byte) : frame.frameLength payload ≤ 22 + payload.length := by
    rw [Ethernet.frameLength]
    split_ifs <;> omega
  have hframeLength := hshort probe.toLLDP.bytes
  have hint : ({ frame with payload := some (.inr (.inl probe.toLLDP.filled)) } :
      Ethernet (Payload (LLDP ⊕ Q))).frameLength probe.toLLDP.bytes < 2 ^ 31 := by
    change frame.frameLength _ < _
    omega
  obtain ⟨n, hn, hwrite⟩ := Ethernet.write_padded hint
  have hserialize := Ethernet.serialize_carrying (e := setPayload probe frame) rfl hpacket
  have hlength := Ethernet.length_frame frame (probe.toLLDP.bytes ++ List.replicate n 0)
  have hframeLength' := hshort (probe.toLLDP.bytes ++ List.replicate n 0)
  simp only [List.length_append, List.length_replicate] at hlength hframeLength'
  have hregistered : frame.etherType ∈ ETHERTYPE_DESERIALIZER_MAP := by
    rcases htype with htype | htype <;> rw [htype] <;> decide
  have hread : payloadOf (frame.etherType ∈ ETHERTYPE_DESERIALIZER_MAP)
      (deserializerOf others frame.etherType)
      (frame.header.flatten ++ (probe.toLLDP.bytes ++ List.replicate n 0))
      frame.header.flatten.length (probe.toLLDP.bytes ++ List.replicate n 0).length =
        .ok (.inr (.inl probe.toLLDP.returned)) := by
    rw [decide_eq_true hregistered, payloadOf, if_pos rfl, deserializerOf, if_pos htype,
      hproper.deserializer_mid]
    · rfl
    · simp only [List.length_append, List.length_replicate]
      omega
  have hroom : 4 ≤ probe.toLLDP.bytes.length := by
    rw [LLDP.bytes, hproper.tlvs_eq]
    simp only [wire, LLDP.sent, List.map_cons, List.flatMap_cons, tlvBytes, List.length_append,
      length_short]
    omega
  obtain ⟨eth, _, heth, hethType, hethPayload⟩ := Ethernet.read_frame hframe
    (by rw [List.length_append]; omega) hread
  have hfourteen : 14 ≤ frame.frameLength (probe.toLLDP.bytes ++ List.replicate n 0) := by
    rw [Ethernet.frameLength]
    omega
  have hdata : (setPayload probe frame).serialize = .ok
      ({ frame with payload := some (.inr (.inl probe.toLLDP.filled)) },
        frame.header.flatten ++ (probe.toLLDP.bytes ++ List.replicate n 0)) :=
    hserialize.trans hwrite
  refine ⟨_, _, eth, hdata, ?_, ?_⟩
  · refine deserialized (by decide) ?_ ?_ heth
    · simp only [List.length_append, List.length_replicate]
      omega
    · simp only [List.length_append, List.length_replicate]
      omega
  · rw [parseONOSLLDP, if_pos (hethType ▸ htype), hethPayload]
    change (Except.bind (ofLLDP probe.toLLDP.returned).getNameString _) = _
    rw [hname]
    rfl

theorem made_of_ok (hlen : (getBytes device).length ≤ 507) {probe : ONOSLLDP}
    (h : onosSecureLLDP platform device chassisId portNum portDesc secret timestamp = .ok probe) :
    secret ≠ some "" ∧
      probe = made platform device chassisId portNum portDesc secret timestamp := by
  have hsecret : secret ≠ some "" := by
    rintro rfl
    exact onosSecureLLDP_empty probe h
  rw [onosSecureLLDP_eq hlen hsecret] at h
  exact ⟨hsecret, (Except.ok.inj h).symm⟩

theorem plain_of_readBack [IPacket Q] (hlen : (getBytes device).length ≤ 507)
    (h : ReadBack platform others frame device chassisId portNum portDesc secret timestamp maxDelay
      currentTime laterTime) : Plain device := by
  obtain ⟨probe, after, data, eth, probe', hprobe, hdata, heth, hparse, hname, -⟩ := h
  obtain ⟨-, rfl⟩ := made_of_ok hlen hprobe
  constructor
  · rintro rfl
    obtain ⟨lldp, _, _, hlldp, rfl⟩ := parsed_from heth hparse
    exact getDeviceString_ne_empty hlldp hname
  · by_contra hwide
    obtain ⟨_, hpayload, -⟩ := bind_eq_ok.mp hdata
    obtain ⟨_, hpacket, -⟩ := map_eq_ok.mp hpayload
    obtain ⟨_, hpacket, -⟩ := map_eq_ok.mp hpacket
    obtain ⟨r, hlldp, -⟩ := map_eq_ok.mp hpacket
    exact serialize_made hlen hwide r hlldp

/-- A probe is read back as it was sent if and only if each character in the name of its device is a
single byte, its secret is not empty, and the end of its delay can be told. -/
theorem readBack_iff [IPacket Q] (platform : Platform)
    (others : BitVec 16 → List Byte → ℤ → ℤ → Result Q) (frame : Ethernet (Payload (LLDP ⊕ Q)))
    (hframe : frame.Tagged) (htype : frame.etherType = TYPE_LLDP ∨ frame.etherType = TYPE_BSN)
    (device : String) (hlen : (getBytes device).length ≤ 507) (chassisId : BitVec 64)
    (portNum : BitVec 32) (portDesc secret : Option String)
    (timestamp maxDelay currentTime laterTime : BitVec 64)
    (htime : secret ≠ none → InTime timestamp maxDelay currentTime laterTime) :
    (ReadBack platform others frame device chassisId portNum portDesc secret timestamp maxDelay
        currentTime laterTime ↔ Plain device ∧ secret ≠ some "" ∧
          (secret ≠ none → timestamp.toInt + maxDelay.toInt < 2 ^ 63)) ∧
    ∀ probe, onosSecureLLDP platform device chassisId portNum portDesc secret timestamp = .ok probe →
      (∀ desc, portDesc = some desc → desc ≠ "" ∧ (getBytes desc).length ≤ 511) →
        probe.getPortDescString = .ok portDesc := by
  refine ⟨⟨?_, ?_⟩, ?_⟩
  · intro hback
    have hdevice := plain_of_readBack hlen hback
    obtain ⟨probe, after, data, eth, probe', hprobe, hdata, heth, hparse, -, -, -, -, hverify⟩ := hback
    obtain ⟨hsecret, rfl⟩ := made_of_ok hlen hprobe
    refine ⟨hdevice, hsecret, ?_⟩
    obtain ⟨after', data', eth', hdata', heth', hparse'⟩ := parsed_made others chassisId
      portNum portDesc secret timestamp hframe htype hdevice hlen
    rw [hdata] at hdata'
    cases hdata'
    rw [heth] at heth'
    cases heth'
    rw [hparse] at hparse'
    cases hparse'
    exact (verify_readProbe hdevice hlen hsecret htime).mp hverify
  · rintro ⟨hdevice, hsecret, hend⟩
    obtain ⟨after, data, eth, hdata, heth, hparse⟩ := parsed_made others chassisId
      portNum portDesc secret timestamp hframe htype hdevice hlen
    exact ⟨_, after, data, eth, _, onosSecureLLDP_eq hlen hsecret, hdata, heth, hparse,
      getDeviceString_readProbe hdevice hlen, getPort_readProbe hdevice hlen,
      getChassisIdByMac_readProbe hdevice hlen, getPortDescString_readProbe hdevice hlen,
      (verify_readProbe hdevice hlen hsecret htime).mpr hend⟩
  · intro probe hprobe hdesc
    obtain ⟨-, rfl⟩ := made_of_ok hlen hprobe
    exact getPortDescString_made hdesc

/-- The signature that the secret `test` gives to the probe that is sent below. -/
def testSignature : List Byte :=
  [38, 239, 54, 84, 124, 212, 236, 156, 65, 141, 185, 99, 122, 43, 78, 75, 236, 54, 142, 183, 234,
    114, 87, 238, 220, 113, 10, 226, 8, 48, 213, 253]

def testPlatform : Platform where
  hmacSHA256 _ _ := testSignature
  length_hmacSHA256 _ _ := rfl
  defaultBytes := getBytes
  iteration keys := keys
  iteration_perm keys := .refl keys

def testFrame : Ethernet (Payload (LLDP ⊕ Data)) :=
  { Ethernet.untagged 0x0180c200000e 0x112233445566 with etherType := TYPE_LLDP, pad := true }

theorem testFrame_tagged : testFrame.Tagged where
  qinqTPID h := absurd rfl h
  etherType := by
    change TYPE_LLDP ≠ TYPE_VLAN ∧ TYPE_LLDP ≠ TYPE_QINQ
    decide

theorem plain_testDevice : Plain "of:0000000000000001" := by
  have hall : ("of:0000000000000001".toList.all fun c => c.toNat < 128) = true := by decide
  exact ⟨by decide, fun c hc => of_decide_eq_true (List.all_eq_true.mp hall c hc)⟩

theorem readBack_iff_testFrame :
    ReadBack testPlatform (fun _ data offset length => Data.deserializer data offset length) testFrame
      "of:0000000000000001" 1 2 (some "Ethernet1") (some "test") 1500000000000 1000 1500000000005
        1500000000006 :=
  (readBack_iff testPlatform (fun _ data offset length => Data.deserializer data offset length)
    testFrame testFrame_tagged (.inl rfl) "of:0000000000000001" (by decide) 1 2 (some "Ethernet1")
    (some "test") 1500000000000 1000 1500000000005 1500000000006
    fun _ => ⟨by decide, by decide, by decide⟩).1.mpr
      ⟨plain_testDevice, by decide, fun _ => by decide⟩

/-- The name of a device with an accent is not sent. -/
theorem wide_device_lost : (getBytes "of:é").length ≤ 507 ∧
    ¬ ReadBack testPlatform (fun _ data offset length => Data.deserializer data offset length)
      testFrame "of:é" 1 2 (some "Ethernet1") (some "test") 1500000000000 1000 1500000000005
        1500000000006 := by
  have hlen : (getBytes "of:é").length ≤ 507 := by decide
  refine ⟨hlen, fun hback => ?_⟩
  have hmem : 'é' ∈ "of:é".toList := by decide
  exact absurd ((plain_of_readBack hlen hback).2 'é' hmem) (by decide)

end ReadBack

end ONOSLLDP

end LinkProbes

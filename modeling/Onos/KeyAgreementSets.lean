import Onos.KeyAgreement

/-! The parameter sets of MKA one by one: the bytes that each is written to, what is read back from
them, and when that is the set itself. -/
namespace KeyAgreement

open BufferReaders ByteBuffer Packets WireBytes

section Octets

def basicOctet (keyServer macSecDesired : Bool) (capability : Byte) : Byte :=
  flag keyServer 1 <<< 7 ||| flag macSecDesired 1 <<< 6 ||| capability <<< 4 ||| 0

theorem basicOctet_length (keyServer macSecDesired : Bool) (capability : Byte) :
    basicOctet keyServer macSecDesired capability &&& 0xf = 0 := by
  revert capability
  cases keyServer <;> cases macSecDesired <;> decide

theorem basicOctet_keyServer (keyServer macSecDesired : Bool) (capability : Byte) :
    ¬ 0 < (basicOctet keyServer macSecDesired capability &&& 0x80).toInt := by
  revert capability
  cases keyServer <;> cases macSecDesired <;> decide

theorem basicOctet_capability (keyServer macSecDesired : Bool) (capability : Byte) :
    (decide (0 < (basicOctet keyServer macSecDesired capability &&& 0x70).toInt) = macSecDesired ∧
      (basicOctet keyServer macSecDesired capability &&& 0x30).sshiftRight 4 = capability) ↔
        capability.toNat < 4 ∧ (macSecDesired = true ∨ capability = 0) := by
  revert capability
  cases keyServer <;> cases macSecDesired <;> decide

def basicLength (n : ℕ) : BitVec 16 := ((BitVec.ofNat 32 (32 + n) + 3) &&& ~~~3).setWidth 16

theorem toInt_basicLength {n : ℕ} (h : n ≤ 32) : (basicLength n).toInt = (35 + n) / 4 * 4 := by
  have hall : ∀ n < 33, (basicLength n).toInt = ((35 + n) / 4 * 4 : ℕ) := by decide
  rw [hall n (by omega)]
  omega

theorem basicLength_lengthMsb {n : ℕ} (h : n ≤ 32) : lengthMsb (basicLength n - 4) = 0 := by
  have hall : ∀ n < 33, lengthMsb (basicLength n - 4) = 0 := by decide
  exact hall n (by omega)

theorem toInt_bodyLength_basic {n : ℕ} (h : n ≤ 32) :
    (bodyLengthOf 8 0 (lengthLsb (basicLength n - 4))).toInt = (35 + n) / 4 * 4 - 4 := by
  have hall : ∀ n < 33, (bodyLengthOf 8 0 (lengthLsb (basicLength n - 4))).toInt =
      ((35 + n) / 4 * 4 : ℕ) - 4 := by decide
  rw [hall n (by omega)]
  omega

def peersLength (n : ℕ) : BitVec 16 := BitVec.ofNat 16 (4 + n * (12 + 4))

def peersBody (n : ℕ) : ℤ :=
  (bodyLengthOf 4 (lengthMsb (peersLength n - 4)) (lengthLsb (peersLength n - 4))).toInt

theorem toInt_peersLength {n : ℕ} (h : n < 256) : (peersLength n).toInt = 4 + 16 * n := by
  rw [peersLength, toInt_ofNat_of_lt (by omega)]
  omega

theorem peersBody_of_lt {n : ℕ} (h : n < 8) : peersBody n = 16 * n := by
  have hall : ∀ n < 8, peersBody n = (16 * n : ℕ) := by decide
  rw [hall n h]
  omega

theorem peersBody_of_le {n : ℕ} (hmin : 8 ≤ n) (h : n < 256) : peersBody n ≤ 16 * n - 16 := by
  have hall : ∀ n < 256, 8 ≤ n → peersBody n ≤ (16 * n : ℕ) - 16 := by decide +kernel
  have := hall n h hmin
  omega

def useOctet (latestRX latestTX oldRX oldTX : Bool) (latestAN oldAN : Byte) : Byte :=
  flag latestRX 0x10 ||| flag latestTX 0x20 ||| flag oldRX 0x1 ||| flag oldTX 0x2 |||
    latestAN <<< 6 ||| oldAN <<< 2

/-- What is read from the flags and numbers of both keys is what was written of the old one, and the
upper bits of the numbers. -/
theorem useOctet_readBack {latestRX latestTX oldRX oldTX : Bool} {latestAN oldAN octet2 : Byte}
    (hlatest : latestAN.toNat ≤ 3) (hold : oldAN.toNat ≤ 3)
    (hoctet : octet2 = useOctet latestRX latestTX oldRX oldTX latestAN oldAN) :
    (octet2.sshiftRight 6 &&& 0x2 = latestAN ∧ decide (octet2 &&& 0x2 ≠ 0) = latestTX ∧
      decide (octet2 &&& 0x1 ≠ 0) = latestRX ∧ octet2.sshiftRight 2 &&& 0x2 = oldAN ∧
      decide (octet2 &&& 0x2 ≠ 0) = oldTX ∧ decide (octet2 &&& 0x1 ≠ 0) = oldRX) ↔
        latestRX = oldRX ∧ latestTX = oldTX ∧ (latestAN = 0 ∨ latestAN = 2) ∧
          (oldAN = 0 ∨ oldAN = 2) := by
  subst hoctet
  have hnumber : ∀ a : Byte, a.toNat ≤ 3 → a = 0 ∨ a = 1 ∨ a = 2 ∨ a = 3 := by decide
  obtain rfl | rfl | rfl | rfl := hnumber latestAN hlatest <;>
    obtain rfl | rfl | rfl | rfl := hnumber oldAN hold <;>
      (revert latestRX latestTX oldRX oldTX; decide)

theorem protectOctet_flags (plainTX plainRX delayProtect : Bool) :
    let octet3 := flag plainTX 0x80 ||| flag plainRX 0x40 ||| flag delayProtect 0x10 ||| lengthMsb 40
    decide (octet3 &&& 0x10 ≠ 0) = delayProtect ∧ decide (octet3 &&& 0x80 ≠ 0) = plainTX ∧
      decide (octet3 &&& 0x40 ≠ 0) = plainRX := by
  cases plainTX <;> cases plainRX <;> cases delayProtect <;> decide

end Octets

section Basic

def BasicParameterSet.IsActor (ps : BasicParameterSet) : Prop :=
  ps.sci.address.length = 6 ∧ ps.mi.length = 12 ∧ ps.algAgility.length = 4 ∧ 1 ≤ ps.ckn.length ∧
    ps.ckn.length ≤ 32

def BasicParameterSet.paddedName (ps : BasicParameterSet) : List Byte :=
  ps.ckn ++ List.replicate ((35 + ps.ckn.length) / 4 * 4 - (32 + ps.ckn.length)) 0

def BasicParameterSet.octet3 (ps : BasicParameterSet) : Byte :=
  basicOctet ps.keyServer ps.macSecDesired ps.capability

def BasicParameterSet.lengthOctet (ps : BasicParameterSet) : Byte :=
  lengthLsb (basicLength ps.ckn.length - 4)

def BasicParameterSet.encode (ps : BasicParameterSet) : List Byte :=
  ps.mkaVersion :: ps.keyServerPriority :: ps.octet3 :: ps.lengthOctet ::
    (ps.sci.address ++ (short ps.sci.port ++ (ps.mi ++ (int ps.mn ++ (ps.algAgility ++ ps.paddedName)))))

def BasicParameterSet.readBack (ps : BasicParameterSet) : BasicParameterSet :=
  { ps with
    keyServer := false
    macSecDesired := 0 < (ps.octet3 &&& 0x70).toInt
    capability := (ps.octet3 &&& 0x30).sshiftRight 4
    bodyLength := bodyLengthOf 8 ps.octet3 ps.lengthOctet
    ckn := ps.paddedName }

variable {ps : BasicParameterSet}

theorem length_paddedName (ps : BasicParameterSet) :
    ps.paddedName.length = (35 + ps.ckn.length) / 4 * 4 - 32 := by
  rw [BasicParameterSet.paddedName, List.length_append, List.length_replicate]
  omega

theorem BasicParameterSet.getTotalLength_toInt (h : ps.IsActor) :
    ps.getTotalLength.toInt = (35 + ps.ckn.length) / 4 * 4 := toInt_basicLength h.2.2.2.2

theorem BasicParameterSet.length_encode (h : ps.IsActor) :
    (ps.encode.length : ℤ) = ps.getTotalLength.toInt := by
  obtain ⟨haddress, hmi, halg, -, -⟩ := id h
  rw [BasicParameterSet.getTotalLength_toInt h]
  simp only [BasicParameterSet.encode, List.length_cons, List.length_append, haddress, hmi, halg,
    length_short, length_int, length_paddedName]
  omega

theorem BasicParameterSet.serialize_eq (h : ps.IsActor) : ps.serialize = .ok ps.encode := by
  obtain ⟨haddress, hmi, halg, -, hmax⟩ := id h
  have htotal := BasicParameterSet.getTotalLength_toInt h
  have hmsb : lengthMsb (ps.getTotalLength - 4) = 0 := basicLength_lengthMsb hmax
  rw [BasicParameterSet.serialize, htotal, hmsb, fillNew_of_le]
  · have hcount : ((35 + (ps.ckn.length : ℤ)) / 4 * 4).toNat - (32 + ps.ckn.length) =
        (35 + ps.ckn.length) / 4 * 4 - (32 + ps.ckn.length) := by omega
    have hlength : ([[ps.mkaVersion], [ps.keyServerPriority], [flag ps.keyServer 1 <<< 7 |||
        flag ps.macSecDesired 1 <<< 6 ||| ps.capability <<< 4 ||| 0],
        [lengthLsb (ps.getTotalLength - 4)], ps.sci.array, ps.mi, int ps.mn, ps.algAgility,
        ps.ckn] : List (List Byte)).flatten.length = 32 + ps.ckn.length := by
      simp [SCI.array, haddress, hmi, halg]
      omega
    rw [hlength, hcount]
    simp [BasicParameterSet.encode, BasicParameterSet.paddedName, BasicParameterSet.octet3,
      basicOctet, BasicParameterSet.lengthOctet, BasicParameterSet.getTotalLength, basicLength,
      SCI.array]
  · simp [SCI.array, haddress, hmi, halg]
    omega

theorem BasicParameterSet.read_encode (h : ps.IsActor) (before rest beyond : List Byte) :
    BasicParameterSet.read ⟨before, ps.encode ++ rest, beyond⟩ =
      .ok (ps.readBack, ⟨before ++ ps.encode, rest, beyond⟩) := by
  obtain ⟨haddress, hmi, halg, hmin, hmax⟩ := id h
  have hbody : (bodyLengthOf 8 ps.octet3 ps.lengthOctet).toInt + 4 - 32 = ps.paddedName.length := by
    have hoctet : bodyLengthOf 8 ps.octet3 ps.lengthOctet = bodyLengthOf 8 0 ps.lengthOctet := by
      have hzero : ps.octet3 &&& 0xf = 0 := basicOctet_length _ _ _
      rw [bodyLengthOf, hzero]
      rfl
    rw [hoctet, BasicParameterSet.lengthOctet, toInt_bodyLength_basic hmax, length_paddedName]
    omega
  have hname : getNew ps.paddedName.length = get ps.paddedName.length := by
    rw [getNew, if_neg (by omega)]
    rfl
  have hkey : decide (0 < (ps.octet3 &&& 0x80).toInt) = false :=
    decide_eq_false (basicOctet_keyServer _ _ _)
  have hbytes : ps.encode ++ rest = ps.mkaVersion :: ps.keyServerPriority :: ps.octet3 ::
      ps.lengthOctet :: (ps.sci.address ++ (short ps.sci.port ++ (ps.mi ++ (int ps.mn ++
        (ps.algAgility ++ (ps.paddedName ++ rest)))))) := by
    simp [BasicParameterSet.encode]
  rw [BasicParameterSet.read, hbytes, bind_of_ok (getByte_cons _ _ _ _),
    bind_of_ok (getByte_cons _ _ _ _), bind_of_ok (getByte_cons _ _ _ _),
    bind_of_ok (getByte_cons _ _ _ _), bind_of_ok (get_of_length _ _ _ _ haddress),
    bind_of_ok (getShort_append _ _ _ _), bind_of_ok (get_of_length _ _ _ _ hmi),
    bind_of_ok (getInt_append _ _ _ _), bind_of_ok (get_of_length _ _ _ _ halg), hbody, hname,
    bind_of_ok (get_append _ _ _ _), hkey]
  simp [BasicParameterSet.readBack, BasicParameterSet.encode]

def BasicParameterSet.IsPlain (ps : BasicParameterSet) : Prop :=
  ps.keyServer = false ∧ ps.capability.toNat < 4 ∧ (ps.macSecDesired = true ∨ ps.capability = 0) ∧
    4 ∣ ps.ckn.length

def BasicParameterSet.erased (ps : BasicParameterSet) : BasicParameterSet := { ps with bodyLength := 0 }

theorem paddedName_eq_iff (h : ps.IsActor) : ps.paddedName = ps.ckn ↔ 4 ∣ ps.ckn.length := by
  constructor
  · intro hname
    have hlength := congrArg List.length hname
    rw [length_paddedName] at hlength
    have := h.2.2.2.1
    omega
  · intro hdvd
    have hzero : (35 + ps.ckn.length) / 4 * 4 - (32 + ps.ckn.length) = 0 := by omega
    rw [BasicParameterSet.paddedName, hzero]
    simp

theorem BasicParameterSet.erased_readBack_iff (h : ps.IsActor) :
    ps.readBack.erased = ps.erased ↔ ps.IsPlain := by
  have hcapability := basicOctet_capability ps.keyServer ps.macSecDesired ps.capability
  rw [← BasicParameterSet.octet3] at hcapability
  have hname := paddedName_eq_iff h
  obtain ⟨mkaVersion, priority, keyServer, macSecDesired, capability, bodyLength, sci, mi, mn,
    algAgility, ckn⟩ := ps
  simp only [BasicParameterSet.erased, BasicParameterSet.readBack, BasicParameterSet.mk.injEq,
    BasicParameterSet.IsPlain, true_and, hname]
  constructor
  · rintro ⟨hkey, hdesired, hcap, hdvd⟩
    obtain ⟨hlt, hor⟩ := hcapability.mp ⟨hdesired, hcap⟩
    exact ⟨hkey.symm, hlt, hor, hdvd⟩
  · rintro ⟨hkey, hlt, hor, hdvd⟩
    obtain ⟨hdesired, hcap⟩ := hcapability.mpr ⟨hlt, hor⟩
    exact ⟨hkey.symm, hdesired, hcap, hdvd⟩

end Basic

section PeerList

def PeerListParameterSet.IsPeerList (ps : PeerListParameterSet) : Prop :=
  (∀ m ∈ ps.members, m.memberID.length = 12) ∧ 16 * ps.members.length ≤ 4095

def PeerListParameterSet.msb (ps : PeerListParameterSet) : Byte :=
  lengthMsb (peersLength ps.members.length - 4)

def PeerListParameterSet.lsb (ps : PeerListParameterSet) : Byte :=
  lengthLsb (peersLength ps.members.length - 4)

def PeerListParameterSet.body (ps : PeerListParameterSet) : List Byte :=
  0 :: ps.msb :: ps.lsb :: (ps.members.map MemberDetails.array).flatten

variable {ps : PeerListParameterSet}

theorem length_members {members : List MemberDetails} (h : ∀ m ∈ members, m.memberID.length = 12) :
    (members.map MemberDetails.array).flatten.length = 16 * members.length := by
  induction members with
  | nil => rfl
  | cons m members ih =>
    have hrest := ih fun m' hm' => h m' (List.mem_cons_of_mem m hm')
    have hm := h m List.mem_cons_self
    rw [List.map_cons, List.flatten_cons, List.length_append, hrest, MemberDetails.array,
      List.length_append, hm, length_int, List.length_cons]
    omega

theorem PeerListParameterSet.length_body (h : ps.IsPeerList) :
    (ps.body.length : ℤ) + 1 = ps.getTotalLength.toInt := by
  have htotal : ps.getTotalLength.toInt = 4 + 16 * ps.members.length :=
    toInt_peersLength (by have := h.2; omega)
  rw [htotal, PeerListParameterSet.body, List.length_cons, List.length_cons, List.length_cons,
    length_members h.1]
  omega

theorem PeerListParameterSet.serialize_eq (h : ps.IsPeerList) :
    ps.serialize = .ok (if ps.members = [] then none else some (ps.peerListType :: ps.body)) := by
  have hlength := PeerListParameterSet.length_body h
  rw [PeerListParameterSet.serialize]
  split_ifs
  · rfl
  · have hfill := @fillNew_exact DeserializationException ps.getTotalLength.toInt
      ([ps.peerListType] :: [0] :: [lengthMsb (ps.getTotalLength - 4)] ::
        [lengthLsb (ps.getTotalLength - 4)] :: ps.members.map MemberDetails.array)
      (by
        rw [← hlength]
        simp only [PeerListParameterSet.body, List.flatten_cons, List.length_append, List.length_cons,
          List.length_nil]
        omega)
    simp only [hfill]
    rfl

theorem readMembers_append {members : List MemberDetails}
    (h : ∀ m ∈ members, m.memberID.length = 12) (before rest beyond : List Byte) :
    readMembers (16 * members.length)
      ⟨before, (members.map MemberDetails.array).flatten ++ rest, beyond⟩ =
        .ok (members, ⟨before ++ (members.map MemberDetails.array).flatten, rest, beyond⟩) := by
  induction members generalizing before with
  | nil =>
    rw [readMembers, if_neg (by simp)]
    simp
  | cons m members ih =>
    have hrest := ih (fun m' hm' => h m' (List.mem_cons_of_mem m hm'))
      (before ++ m.memberID ++ int m.messageNo)
    have hpos : (0 : ℤ) < 16 * (m :: members).length := by
      rw [List.length_cons]
      omega
    have hless : (16 * (m :: members).length : ℤ) - (12 + 4) = 16 * members.length := by
      rw [List.length_cons]
      push_cast
      omega
    have hbytes : ((m :: members).map MemberDetails.array).flatten ++ rest =
        m.memberID ++ (int m.messageNo ++ ((members.map MemberDetails.array).flatten ++ rest)) := by
      simp [MemberDetails.array]
    rw [readMembers, if_pos hpos, hbytes,
      bind_of_ok (get_of_length _ _ _ _ (h m List.mem_cons_self)),
      bind_of_ok (getInt_append _ _ _ _), hless, bind_of_ok hrest]
    simp [MemberDetails.array]

theorem length_of_readMembers {bodyLength : ℤ} {b b' : ReadBuffer} {members : List MemberDetails}
    (h : readMembers bodyLength b = .ok (members, b')) (n : ℕ) (hn : bodyLength ≤ 16 * n) :
    members.length ≤ n := by
  induction n generalizing bodyLength b members with
  | zero =>
    rw [readMembers, if_neg (by omega)] at h
    cases h
    exact Nat.le_refl 0
  | succ n ih =>
    rw [readMembers] at h
    split_ifs at h with hpos
    · obtain ⟨memberID, b₁, -, h⟩ := bind_apply_eq_ok h
      obtain ⟨messageNo, b₂, -, h⟩ := bind_apply_eq_ok h
      obtain ⟨rest, b₃, hrest, h⟩ := bind_apply_eq_ok h
      cases h
      have hle := ih hrest (by push_cast at hn; omega)
      rw [List.length_cons]
      omega
    · cases h
      exact Nat.zero_le _

theorem PeerListParameterSet.read_body (h : ps.IsPeerList) (hfew : ps.members.length < 8)
    (before rest beyond : List Byte) :
    PeerListParameterSet.read ⟨before, ps.body ++ rest, beyond⟩ =
      .ok (⟨PARAMETERSET_TYPE_LIVE_PEER_LIST, bodyLengthOf 4 ps.msb ps.lsb, ps.members⟩,
        ⟨before ++ ps.body, rest, beyond⟩) := by
  have hbody : (bodyLengthOf 4 ps.msb ps.lsb).toInt = 16 * ps.members.length := peersBody_of_lt hfew
  have hmembers := readMembers_append h.1 (before ++ [0] ++ [ps.msb] ++ [ps.lsb]) rest beyond
  rw [PeerListParameterSet.read, PeerListParameterSet.body, List.cons_append, List.cons_append,
    List.cons_append, bind_of_ok (getByte_cons _ _ _ _), bind_of_ok (getByte_cons _ _ _ _),
    bind_of_ok (getByte_cons _ _ _ _), hbody, bind_of_ok hmembers]
  simp

theorem PeerListParameterSet.few_of_read (h : ps.IsPeerList) {before rest beyond : List Byte}
    {b : ReadBuffer} {ps' : PeerListParameterSet}
    (hread : PeerListParameterSet.read ⟨before, ps.body ++ rest, beyond⟩ = .ok (ps', b))
    (hmembers : ps'.members = ps.members) : ps.members.length < 8 := by
  by_contra hmany
  have hbody : (bodyLengthOf 4 ps.msb ps.lsb).toInt ≤ 16 * ps.members.length - 16 :=
    peersBody_of_le (by omega) (by have := h.2; omega)
  rw [PeerListParameterSet.read, PeerListParameterSet.body, List.cons_append, List.cons_append,
    List.cons_append, bind_of_ok (getByte_cons _ _ _ _), bind_of_ok (getByte_cons _ _ _ _),
    bind_of_ok (getByte_cons _ _ _ _)] at hread
  obtain ⟨members, b', hread, hok⟩ := bind_apply_eq_ok hread
  cases hok
  have hle := length_of_readMembers hread (ps.members.length - 1) (by omega)
  have hlength : members.length = ps.members.length := congrArg List.length hmembers
  omega

end PeerList

section MACSecUse

def MACSecUseParameterSet.IsUse (ps : MACSecUseParameterSet) : Prop :=
  ps.latestKI.length = 12 ∧ ps.oldKI.length = 12 ∧ ps.latestAN.toNat ≤ 3 ∧ ps.oldAN.toNat ≤ 3

def MACSecUseParameterSet.octet2 (ps : MACSecUseParameterSet) : Byte :=
  useOctet ps.latestRX ps.latestTX ps.oldRX ps.oldTX ps.latestAN ps.oldAN

def MACSecUseParameterSet.octet3 (ps : MACSecUseParameterSet) : Byte :=
  flag ps.plainTX 0x80 ||| flag ps.plainRX 0x40 ||| flag ps.delayProtect 0x10 ||| lengthMsb 40

def MACSecUseParameterSet.body (ps : MACSecUseParameterSet) : List Byte :=
  ps.octet2 :: ps.octet3 :: lengthLsb 40 :: (ps.latestKI ++ (int ps.latestKN ++ (int ps.latestLAPN ++
    (ps.oldKI ++ (int ps.oldKN ++ int ps.oldLAPN)))))

def MACSecUseParameterSet.readBack (ps : MACSecUseParameterSet) : MACSecUseParameterSet :=
  { ps with
    latestAN := ps.octet2.sshiftRight 6 &&& 0x2
    latestTX := ps.octet2 &&& 0x2 ≠ 0
    latestRX := ps.octet2 &&& 0x1 ≠ 0
    oldAN := ps.octet2.sshiftRight 2 &&& 0x2
    oldTX := ps.octet2 &&& 0x2 ≠ 0
    oldRX := ps.octet2 &&& 0x1 ≠ 0
    bodyLength := bodyLengthOf 8 ps.octet3 (lengthLsb 40) }

variable {ps : MACSecUseParameterSet}

theorem MACSecUseParameterSet.length_body (h : ps.IsUse) : ps.body.length = 43 := by
  simp [MACSecUseParameterSet.body, h.1, h.2.1]

theorem MACSecUseParameterSet.serialize_eq (h : ps.IsUse) :
    ps.serialize = .ok (PARAMETERSET_TYPE_MACSEC_SAK_USE :: ps.body) := by
  have hlength := MACSecUseParameterSet.length_body h
  rw [MACSecUseParameterSet.serialize, fillNew_exact]
  · simp [MACSecUseParameterSet.body, MACSecUseParameterSet.octet2, useOctet,
      MACSecUseParameterSet.octet3]
  · simp [h.1, h.2.1]

theorem MACSecUseParameterSet.read_body (h : ps.IsUse) (before rest beyond : List Byte) :
    MACSecUseParameterSet.read ⟨before, ps.body ++ rest, beyond⟩ =
      .ok (ps.readBack, ⟨before ++ ps.body, rest, beyond⟩) := by
  obtain ⟨hdelay, htx, hrx⟩ := protectOctet_flags ps.plainTX ps.plainRX ps.delayProtect
  rw [← MACSecUseParameterSet.octet3] at hdelay htx hrx
  have hbytes : ps.body ++ rest = ps.octet2 :: ps.octet3 :: lengthLsb 40 :: (ps.latestKI ++
      (int ps.latestKN ++ (int ps.latestLAPN ++ (ps.oldKI ++ (int ps.oldKN ++
        (int ps.oldLAPN ++ rest)))))) := by
    simp [MACSecUseParameterSet.body]
  rw [MACSecUseParameterSet.read, hbytes, bind_of_ok (getByte_cons _ _ _ _),
    bind_of_ok (getByte_cons _ _ _ _), bind_of_ok (getByte_cons _ _ _ _),
    bind_of_ok (get_of_length _ _ _ _ h.1), bind_of_ok (getInt_append _ _ _ _),
    bind_of_ok (getInt_append _ _ _ _), bind_of_ok (get_of_length _ _ _ _ h.2.1),
    bind_of_ok (getInt_append _ _ _ _), bind_of_ok (getInt_append _ _ _ _), hdelay, htx, hrx]
  simp [MACSecUseParameterSet.readBack, MACSecUseParameterSet.body]

def MACSecUseParameterSet.IsPlain (ps : MACSecUseParameterSet) : Prop :=
  ps.latestRX = ps.oldRX ∧ ps.latestTX = ps.oldTX ∧ (ps.latestAN = 0 ∨ ps.latestAN = 2) ∧
    (ps.oldAN = 0 ∨ ps.oldAN = 2)

def MACSecUseParameterSet.erased (ps : MACSecUseParameterSet) : MACSecUseParameterSet :=
  { ps with bodyLength := 0 }

theorem MACSecUseParameterSet.erased_readBack_iff (h : ps.IsUse) :
    ps.readBack.erased = ps.erased ↔ ps.IsPlain := by
  rw [MACSecUseParameterSet.IsPlain, ← useOctet_readBack h.2.2.1 h.2.2.2 rfl]
  obtain ⟨delayProtect, plainTX, plainRX, latestKI, latestKN, latestAN, latestLAPN, latestTX,
    latestRX, oldKI, oldKN, oldAN, oldLAPN, oldTX, oldRX, bodyLength⟩ := ps
  simp only [MACSecUseParameterSet.erased, MACSecUseParameterSet.readBack,
    MACSecUseParameterSet.octet2, MACSecUseParameterSet.mk.injEq, true_and, and_true]
  exact Iff.rfl

end MACSecUse

end KeyAgreement

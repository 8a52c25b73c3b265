import Onos.LsaIdentity

/-! Requests for advertisements. A header goes over the wire in a database description, the router
that lacks the advertisement makes a request of the header's key, and the router that has it looks
up what the request says. Link state ids are texts in between, and go through the name service. -/
namespace LsRequests

open LinkStateDatabase LinkStateHeaders LsaIdentity Texts WireBytes

def OSPF_HEADER_LENGTH : ℤ := 24

def LSA_HEADER_LENGTH : ℕ := 20

def LSREQUEST_LENGTH : ℤ := 12

/-- The names that a router's host knows. The text of an address stands for the address, and a name
has no label that begins with a hyphen. -/
structure NameService where
  getHostName : Ip4Address → String
  getByName : String → Option Ip4Address
  literal : ∀ a : Ip4Address, getByName a.text = some a
  hyphen : ∀ s : String, (∃ label ∈ s.toList.splitOn '.', label.head? = some '-') → getByName s = none

section Bytes

def hexLength (v : ℕ) : ℕ :=
  if v < 256 then 1 else if v < 256 ^ 2 then 2 else if v < 256 ^ 3 then 3 else if v < 256 ^ 4 then 4
  else if v < 256 ^ 5 then 5 else if v < 256 ^ 6 then 6 else if v < 256 ^ 7 then 7 else 8

def hexBytes (v : ℕ) : List Byte := bytesOf (hexLength v) v

def unsignedInt (n : ℤ) : ℕ := (n % 2 ^ 32).toNat

def unsignedLong (n : ℤ) : ℕ := (n % 2 ^ 64).toNat

def fitted (n : ℕ) (hexas : List Byte) : List Byte :=
  (List.replicate (n - hexas.length) 0 ++ hexas).take n

def convertToTwoBytes (n : ℤ) : List Byte := fitted 2 (hexBytes (unsignedInt n))

def convertToThreeBytes (n : ℤ) : List Byte := fitted 3 (hexBytes (unsignedInt n))

def convertToFourBytes (n : ℤ) : List Byte := fitted 4 (hexBytes (unsignedInt n))

def convertLongToFourBytes (n : ℤ) : List Byte :=
  let hexas := hexBytes (unsignedLong n)
  fitted 4 (if hexas.length = 8 then hexas.drop 4 else hexas)

def byteOf (n : ℤ) : Byte := BitVec.ofInt 8 n

theorem length_fitted (n : ℕ) (hexas : List Byte) : (fitted n hexas).length = n := by
  unfold fitted
  rw [List.length_take, List.length_append, List.length_replicate]
  omega

theorem bytesOf_pad {k v : ℕ} (hv : v < 256 ^ k) (j : ℕ) :
    bytesOf (j + k) v = List.replicate j 0 ++ bytesOf k v := by
  induction j with
  | zero => simp
  | succ j ih =>
    have hzero : v / 256 ^ (j + k) = 0 :=
      Nat.div_eq_of_lt (Nat.lt_of_lt_of_le hv (Nat.pow_le_pow_right (by decide) (by omega)))
    rw [Nat.succ_add_eq_add_succ, Nat.add_succ, bytesOf, hzero, ih]
    rfl

theorem hexLength_spec {v : ℕ} (hv : v < 256 ^ 4) :
    v < 256 ^ hexLength v ∧ ∀ n, 0 < n → v < 256 ^ n → hexLength v ≤ n := by
  have hle {k n : ℕ} (hk : 256 ^ k ≤ v) (hn : v < 256 ^ n) : k < n := by
    by_contra hno
    have := Nat.pow_le_pow_right (n := 256) (by decide) (Nat.le_of_not_lt hno)
    omega
  unfold hexLength
  split
  · exact ⟨by omega, fun n hn _ => hn⟩
  · split
    · exact ⟨by omega, fun n _ h => hle (by omega) h⟩
    · split
      · exact ⟨by omega, fun n _ h => hle (by omega) h⟩
      · simp only [hv]
        exact ⟨trivial, fun n _ h => hle (by omega) h⟩

theorem fitted_hexBytes {n v : ℕ} (hn : n ≤ 4) (h0 : 0 < n) (hv : v < 256 ^ n) :
    fitted n (hexBytes v) = bytesOf n v := by
  have hv4 : v < 256 ^ 4 := Nat.lt_of_lt_of_le hv (Nat.pow_le_pow_right (by decide) hn)
  obtain ⟨hlt, hle⟩ := hexLength_spec hv4
  have hk := hle n h0 hv
  have hpad := bytesOf_pad hlt (n - hexLength v)
  rw [Nat.sub_add_cancel hk] at hpad
  unfold fitted hexBytes
  rw [length_bytesOf, ← hpad, List.take_of_length_le (by rw [length_bytesOf])]

end Bytes

/-- The bytes of a header in a database description. What cannot be written is left out with all
that follows. -/
def asByteArray (names : NameService) (h : LsaHeader) : List Byte :=
  let front := convertToTwoBytes h.age ++ [byteOf h.options, byteOf h.lsType]
  let back := h.advertisingRouter.toOctets ++ convertLongToFourBytes h.lsSequenceNo ++
    convertToTwoBytes h.lsCheckSum ++ convertToTwoBytes h.lsPacketLen
  if h.getOspfLsaType.isOpaqueType then
    front ++ byteOf h.opaqueType :: convertToThreeBytes h.opaqueId ++ back
  else
    match names.getByName h.linkStateId with
    | some id => front ++ id.toOctets ++ back
    | none => front

def shortAt (bs : List Byte) (i : ℕ) : BitVec 16 := bs.getD i 0 ++ bs.getD (i + 1) 0

def intAt (bs : List Byte) (i : ℕ) : BitVec 32 := shortAt bs i ++ shortAt bs (i + 2)

def addressAt (bs : List Byte) (i : ℕ) : Ip4Address :=
  ⟨bs.getD i 0, bs.getD (i + 1) 0, bs.getD (i + 2) 0, bs.getD (i + 3) 0⟩

/-- The two bytes of an opaque id in the text of a link state id, where they stand as signed
numbers. -/
def opaqueLinkStateId (opaqueType opaqueId : ℤ) : String :=
  let opaqueIdBytes := convertToTwoBytes opaqueId
  dotted opaqueType 0 (opaqueIdBytes.getD 0 0).toInt (opaqueIdBytes.getD 1 0).toInt

def readLsaHeader (names : NameService) (bs : List Byte) : Option LsaHeader :=
  if LSA_HEADER_LENGTH ≤ bs.length then
    let lsType := (bs.getD 3 0).toInt
    let opaqueType := (bs.getD 4 0).toInt
    let opaqueId : ℤ := valueOf [bs.getD 5 0, bs.getD 6 0, bs.getD 7 0]
    let isOpaqueType := (OspfLsaType.ofValue lsType).isOpaqueType
    some {
      age := (shortAt bs 0).toInt
      options := (bs.getD 2 0).toInt
      lsType := lsType
      linkStateId := if isOpaqueType then opaqueLinkStateId opaqueType opaqueId
        else names.getHostName (addressAt bs 4)
      opaqueType := if isOpaqueType then opaqueType else 0
      opaqueId := if isOpaqueType then opaqueId else 0
      advertisingRouter := addressAt bs 8
      lsSequenceNo := (intAt bs 12).toInt
      lsCheckSum := (shortAt bs 16).toNat
      lsPacketLen := (shortAt bs 18).toInt }
  else none

structure LsRequestPacket where
  lsType : ℤ
  linkStateId : String
  ownRouterId : String

def lsRequestPacket (key : String) (lsa : LsaHeader) : Option LsRequestPacket :=
  let lsaKey := split '-' key
  lsaKey[0]?.bind fun lsType => (parseInt lsType).bind fun lsType => lsaKey[2]?.bind fun ownRouterId =>
    if lsa.getOspfLsaType.isOpaqueType then
      some ⟨lsType.toInt, opaqueLinkStateId lsa.opaqueType lsa.opaqueId, ownRouterId⟩
    else lsaKey[1]?.map fun linkStateId => ⟨lsType.toInt, linkStateId, ownRouterId⟩

def requestsFrom (maxSize : ℤ) : ℤ → List (String × LsaHeader) → Option (List LsRequestPacket)
  | _, [] => some []
  | currentLength, (key, lsa) :: rest =>
    if currentLength + LSREQUEST_LENGTH ≥ maxSize then some []
    else (lsRequestPacket key lsa).bind fun packet =>
      (requestsFrom maxSize (currentLength + LSREQUEST_LENGTH) rest).map (packet :: ·)

def buildLsRequest (mtu : ℤ) (lsReqList : List (String × LsaHeader)) : Option (List LsRequestPacket) :=
  requestsFrom (mtu - LSA_HEADER_LENGTH) OSPF_HEADER_LENGTH lsReqList

/-- The body of a request. At a text without an address the rest is left out. -/
def getLsrBodyAsByteArray (names : NameService) : List LsRequestPacket → List Byte
  | [] => []
  | packet :: rest =>
    convertToFourBytes packet.lsType ++
      ((names.getByName packet.linkStateId).elim [] fun id =>
        id.toOctets ++ ((names.getByName packet.ownRouterId).elim [] fun router =>
          router.toOctets ++ getLsrBodyAsByteArray names rest))

def readLsRequest : List Byte → List LsRequestPacket
  | t₀ :: t₁ :: t₂ :: t₃ :: l₀ :: l₁ :: l₂ :: l₃ :: r₀ :: r₁ :: r₂ :: r₃ :: rest =>
    ⟨(intAt [t₀, t₁, t₂, t₃] 0).toInt, (Ip4Address.mk l₀ l₁ l₂ l₃).text,
      (Ip4Address.mk r₀ r₁ r₂ r₃).text⟩ :: readLsRequest rest
  | _ => []

def getLsa (names : NameService) (s : OspfLsdb) (lsType : ℤ) (linkStateID advertisingRouter : String) :
    Option Ref :=
  if (OspfLsaType.ofValue lsType).isOpaqueType then
    (names.getByName linkStateID).bind fun a =>
      s.findLsa lsType (keyOf lsType
        (ofInt a.first.toInt ++ ofInt (valueOf [a.second, a.third, a.fourth])) advertisingRouter)
  else s.findLsa lsType (keyOf lsType linkStateID advertisingRouter)

structure Advert (names peer : NameService) (s : OspfLsdb) where
  ref : Ref
  header : LsaHeader
  stored : s.lsaLookup (s.lsaHeader ref) = some ref
  received : readLsaHeader names (asByteArray peer (s.lsaHeader ref)) = some header
  typeRange : -128 ≤ (s.lsaHeader ref).opaqueType ∧ (s.lsaHeader ref).opaqueType < 128
  idRange : 0 ≤ (s.lsaHeader ref).opaqueId ∧ (s.lsaHeader ref).opaqueId < 2 ^ 24

section Reading

theorem toInt_byteOf {n : ℤ} (h : -128 ≤ n ∧ n < 128) : (byteOf n).toInt = n := by
  unfold byteOf
  rw [BitVec.toInt_ofInt]
  exact Int.bmod_eq_of_le (by omega) (by omega)

theorem two_bytes (n : ℤ) : ∃ a b, convertToTwoBytes n = [a, b] :=
  List.length_eq_two.mp (length_fitted 2 _)

theorem three_bytes (n : ℤ) : ∃ a b c, convertToThreeBytes n = [a, b, c] :=
  List.length_eq_three.mp (length_fitted 3 _)

theorem four_bytes (n : ℤ) : ∃ a b c d, convertLongToFourBytes n = [a, b, c, d] := by
  have h : (convertLongToFourBytes n).length = 4 := length_fitted 4 _
  match convertLongToFourBytes n, h with
  | [a, b, c, d], _ => exact ⟨a, b, c, d, rfl⟩

theorem lsType_range {h : LsaHeader} (hk : h.getOspfLsaType ≠ .UNDEFINED) :
    0 ≤ h.lsType ∧ h.lsType < 128 := by
  rw [value_ofValue (v := h.lsType) rfl hk]
  cases OspfLsaType.ofValue h.lsType <;> decide

theorem unsignedInt_of_lt {n : ℤ} (h0 : 0 ≤ n) (h : n < 2 ^ 32) : unsignedInt n = n.toNat := by
  unfold unsignedInt
  rw [Int.emod_eq_of_lt h0 h]

theorem read_asByteArray {names peer : NameService} {h₀ h : LsaHeader}
    (hr : readLsaHeader names (asByteArray peer h₀) = some h) (hk : h₀.getOspfLsaType ≠ .UNDEFINED)
    (ht : -128 ≤ h₀.opaqueType ∧ h₀.opaqueType < 128) (hi : 0 ≤ h₀.opaqueId ∧ h₀.opaqueId < 2 ^ 24) :
    h.lsType = h₀.lsType ∧ h.advertisingRouter = h₀.advertisingRouter ∧
      (h₀.getOspfLsaType.isOpaqueType = true → h.opaqueType = h₀.opaqueType ∧ h.opaqueId = h₀.opaqueId) ∧
      (h₀.getOspfLsaType.isOpaqueType = false →
        ∃ id, peer.getByName h₀.linkStateId = some id ∧ h.linkStateId = names.getHostName id) := by
  obtain ⟨a, a', hage⟩ := two_bytes h₀.age
  obtain ⟨q₀, q₁, q₂, q₃, hseq⟩ := four_bytes h₀.lsSequenceNo
  obtain ⟨c, c', hsum⟩ := two_bytes h₀.lsCheckSum
  obtain ⟨l, l', hlen⟩ := two_bytes h₀.lsPacketLen
  have htype := toInt_byteOf (n := h₀.lsType) (by have := lsType_range hk; omega)
  unfold asByteArray at hr
  simp only [hage, hseq, hsum, hlen, Ip4Address.toOctets, List.cons_append, List.nil_append] at hr
  cases ho : h₀.getOspfLsaType.isOpaqueType with
  | true =>
    have ho' : (OspfLsaType.ofValue h₀.lsType).isOpaqueType = true := ho
    have hid : convertToThreeBytes h₀.opaqueId = bytesOf 3 h₀.opaqueId.toNat := by
      unfold convertToThreeBytes
      rw [unsignedInt_of_lt hi.1 (by omega), fitted_hexBytes (by decide) (by decide) (by omega)]
    have hvalue := valueOf_bytesOf 3 h₀.opaqueId.toNat
    rw [← hid] at hvalue
    obtain ⟨i₀, i₁, i₂, hid'⟩ := three_bytes h₀.opaqueId
    rw [hid'] at hvalue
    simp only [ho, hid', ↓reduceIte, readLsaHeader, LSA_HEADER_LENGTH, List.cons_append,
      List.nil_append, List.length_cons, List.length_nil, List.getD_cons_succ, List.getD_cons_zero,
      htype, ho', addressAt, Nat.reduceAdd, Nat.reduceLeDiff, Option.some.injEq] at hr
    rw [← hr]
    refine ⟨rfl, rfl, ?_, ?_⟩
    · intro _
      refine ⟨toInt_byteOf ht, ?_⟩
      change ((valueOf [i₀, i₁, i₂] : ℕ) : ℤ) = _
      rw [hvalue]
      omega
    · intro e
      cases e
  | false =>
    have ho' : (OspfLsaType.ofValue h₀.lsType).isOpaqueType = false := ho
    cases hn : peer.getByName h₀.linkStateId with
    | none =>
      simp [ho, hn, readLsaHeader, LSA_HEADER_LENGTH] at hr
    | some id =>
      simp only [ho, hn, Bool.false_eq_true, ↓reduceIte, readLsaHeader, LSA_HEADER_LENGTH,
        List.length_cons, List.length_nil, List.getD_cons_succ, List.getD_cons_zero, htype, ho',
        addressAt, Nat.reduceAdd, Nat.reduceLeDiff, Option.some.injEq] at hr
      rw [← hr]
      refine ⟨rfl, rfl, ?_, ?_⟩
      · intro e
        cases e
      · intro _
        exact ⟨id, rfl, rfl⟩

end Reading

section Requesting

/-- How many requests of 12 bytes fit after the header in a packet that leaves room for an IP
header. -/
def room (mtu : ℤ) : ℕ := ((mtu - LSA_HEADER_LENGTH - OSPF_HEADER_LENGTH - 1) / LSREQUEST_LENGTH).toNat

theorem requestsFrom_eq (maxSize currentLength : ℤ) (l : List (String × LsaHeader))
    (hl : ∀ e ∈ l, ∃ p, lsRequestPacket e.1 e.2 = some p) :
    ∃ ps, requestsFrom maxSize currentLength l = some ps ∧
      (l.take ((maxSize - currentLength - 1) / LSREQUEST_LENGTH).toNat).map
        (fun e => lsRequestPacket e.1 e.2) = ps.map some := by
  induction l generalizing currentLength with
  | nil => exact ⟨[], rfl, by simp⟩
  | cons e rest ih =>
    obtain ⟨key, lsa⟩ := e
    obtain ⟨p, hp⟩ := hl _ List.mem_cons_self
    unfold requestsFrom LSREQUEST_LENGTH
    by_cases hfull : currentLength + 12 ≥ maxSize
    · refine ⟨[], if_pos hfull, ?_⟩
      have hzero : ((maxSize - currentLength - 1) / 12).toNat = 0 := by omega
      rw [hzero]
      rfl
    · obtain ⟨ps, hps, htake⟩ := ih (currentLength + 12) fun e he => hl e (List.mem_cons_of_mem _ he)
      refine ⟨p :: ps, ?_, ?_⟩
      · rw [if_neg hfull, hp, Option.bind_some, hps]
        rfl
      · have hmore : ((maxSize - currentLength - 1) / 12).toNat =
            ((maxSize - (currentLength + 12) - 1) / 12).toNat + 1 := by omega
        unfold LSREQUEST_LENGTH at htake
        rw [hmore, List.take_succ_cons, List.map_cons, htake]
        exact congrArg (· :: ps.map some) hp

/-- What the peer reads of a request of a list, if all before it can be read. -/
def sent (names : NameService) (p : LsRequestPacket) : Option LsRequestPacket :=
  (names.getByName p.linkStateId).bind fun id =>
    (names.getByName p.ownRouterId).map fun router =>
      ⟨(intAt (convertToFourBytes p.lsType) 0).toInt, id.text, router.text⟩

theorem readLsRequest_body (names : NameService) (p : LsRequestPacket) (ps : List LsRequestPacket) :
    readLsRequest (getLsrBodyAsByteArray names (p :: ps)) =
      (sent names p).elim [] (· :: readLsRequest (getLsrBodyAsByteArray names ps)) := by
  have hfour : (convertToFourBytes p.lsType).length = 4 := length_fitted 4 _
  rw [getLsrBodyAsByteArray]
  unfold sent
  match convertToFourBytes p.lsType, hfour with
  | [a, b, c, d], _ =>
    cases names.getByName p.linkStateId with
    | none => rfl
    | some id =>
      cases names.getByName p.ownRouterId with
      | none => rfl
      | some router => rfl

def answers (names peer : NameService) (s : OspfLsdb) (ps : List LsRequestPacket) : List (Option Ref) :=
  (readLsRequest (getLsrBodyAsByteArray names ps)).map fun p =>
    getLsa peer s p.lsType p.linkStateId p.ownRouterId

def answer (names peer : NameService) (s : OspfLsdb) (p : LsRequestPacket) : Option Ref :=
  (sent names p).bind fun p => getLsa peer s p.lsType p.linkStateId p.ownRouterId

theorem answers_eq_iff {α : Type} (names peer : NameService) (s : OspfLsdb) (l : List α)
    (ref : α → Ref) (request : α → Option LsRequestPacket) {ps : List LsRequestPacket}
    (h : l.map request = ps.map some) :
    answers names peer s ps = l.map (fun a => some (ref a)) ↔
      ∀ a ∈ l, (request a).bind (answer names peer s) = some (ref a) := by
  induction ps generalizing l with
  | nil =>
    have hl : l = [] := by simpa using h
    subst hl
    simp [answers, getLsrBodyAsByteArray, readLsRequest]
  | cons p ps ih =>
    obtain ⟨a, l, rfl⟩ : ∃ a l', l = a :: l' := by
      cases l with
      | nil => cases h
      | cons a l => exact ⟨a, l, rfl⟩
    obtain ⟨ha, hl⟩ := List.cons.inj h
    rw [List.forall_mem_cons, ← ih l hl, ha, Option.bind_some]
    unfold answers answer
    rw [readLsRequest_body]
    cases sent names p with
    | none => simp
    | some q => simp

end Requesting

section Lookups

variable {names peer : NameService} {s : OspfLsdb}

theorem Advert.known (a : Advert names peer s) :
    (s.lsaHeader a.ref).getOspfLsaType ≠ .UNDEFINED := by
  intro h
  have hs := a.stored
  unfold OspfLsdb.lsaLookup OspfLsdb.findLsa at hs
  rw [show OspfLsaType.ofValue (s.lsaHeader a.ref).lsType = .UNDEFINED from h] at hs
  cases hs

theorem findLsa_eq_iff (a : Advert names peer s) (k : String) :
    s.findLsa (s.lsaHeader a.ref).lsType k = some a.ref ↔ k = getLsaKey (s.lsaHeader a.ref) := by
  constructor
  · intro h
    unfold OspfLsdb.findLsa at h
    split at h
    · cases h
    · exact (s.named _ k a.ref h).2.1.symm
  · rintro rfl
    exact a.stored

theorem split_getLsaKey {h : LsaHeader} (hk : h.getOspfLsaType ≠ .UNDEFINED) :
    split '-' (getLsaKey h) = ofInt h.lsType ::
      (((linkText h).toList.splitOn '-').map String.ofList ++ [h.advertisingRouter.text]) := by
  have hty : '-' ∉ (ofInt h.lsType).toList := notMem_ofInt (type_nonneg hk) (by decide)
  have hrouter : '-' ∉ h.advertisingRouter.text.toList :=
    notMem_text h.advertisingRouter (by decide) (by decide)
  have hsplit := split_append (linkText h).toList hty hrouter (text_ne_nil h.advertisingRouter)
  rw [← toList_keyOf, String.ofList_toList, String.ofList_toList, String.ofList_toList] at hsplit
  rw [getLsaKey_eq hk, hsplit]

theorem lsRequestPacket_getLsaKey {h : LsaHeader} (hk : h.getOspfLsaType ≠ .UNDEFINED) :
    ∃ link router, (split '-' (getLsaKey h))[1]? = some link ∧
      (split '-' (getLsaKey h))[2]? = some router ∧
      lsRequestPacket (getLsaKey h) h = some ⟨h.lsType,
        if h.getOspfLsaType.isOpaqueType then opaqueLinkStateId h.opaqueType h.opaqueId else link,
        router⟩ := by
  have hrange := lsType_range hk
  have hint : (BitVec.ofInt 32 h.lsType).toInt = h.lsType := by
    rw [BitVec.toInt_ofInt]
    exact Int.bmod_eq_of_le (by omega) (by omega)
  have hparse : parseInt (ofInt h.lsType) = some (BitVec.ofInt 32 h.lsType) := by
    have := parseInt_ofInt (BitVec.ofInt 32 h.lsType)
    rwa [hint] at this
  have hsplit := split_getLsaKey hk
  obtain ⟨x, xs, hxs⟩ := List.exists_cons_of_ne_nil (List.splitOn_ne_nil '-' (linkText h).toList)
  rw [hxs, List.map_cons, List.cons_append] at hsplit
  obtain ⟨router, rest, hrest⟩ : ∃ router rest,
      xs.map String.ofList ++ [h.advertisingRouter.text] = router :: rest := by
    cases xs with
    | nil => exact ⟨_, _, rfl⟩
    | cons y ys => exact ⟨_, _, rfl⟩
  rw [hrest] at hsplit
  refine ⟨String.ofList x, router, by rw [hsplit]; rfl, by rw [hsplit]; rfl, ?_⟩
  unfold lsRequestPacket
  rw [hsplit]
  cases ho : h.getOspfLsaType.isOpaqueType with
  | true => simp [hparse, hint]
  | false => simp [hparse, hint]

def Advert.request (a : Advert names peer s) : Option LsRequestPacket :=
  lsRequestPacket (getLsaKey a.header) a.header

theorem Advert.request_eq (a : Advert names peer s) :
    ∃ link router, (split '-' (getLsaKey a.header))[1]? = some link ∧
      (split '-' (getLsaKey a.header))[2]? = some router ∧
      a.request = some ⟨(s.lsaHeader a.ref).lsType,
        if (s.lsaHeader a.ref).getOspfLsaType.isOpaqueType then
          opaqueLinkStateId (s.lsaHeader a.ref).opaqueType (s.lsaHeader a.ref).opaqueId
        else link, router⟩ := by
  obtain ⟨hty, -, hopaque, -⟩ := read_asByteArray a.received a.known a.typeRange a.idRange
  have hsame : a.header.getOspfLsaType = (s.lsaHeader a.ref).getOspfLsaType :=
    congrArg OspfLsaType.ofValue hty
  obtain ⟨link, router, hlink, hrouter, hrequest⟩ :=
    lsRequestPacket_getLsaKey (h := a.header) (hsame ▸ a.known)
  refine ⟨link, router, hlink, hrouter, ?_⟩
  rw [hty, hsame] at hrequest
  unfold Advert.request
  rw [hrequest]
  cases ho : (s.lsaHeader a.ref).getOspfLsaType.isOpaqueType with
  | true =>
    obtain ⟨h1, h2⟩ := hopaque ho
    rw [h1, h2]
  | false => rfl

/-- The request of an advertisement leads the peer back to it. Of an opaque one the type and both
low bytes of the id have to be small enough to be read as signed bytes, and there is no third byte.
Of another one the name of the link state id has to lead back to the id. -/
def Advert.Requestable (a : Advert names peer s) : Prop :=
  let h := s.lsaHeader a.ref
  if h.getOspfLsaType.isOpaqueType then
    0 ≤ h.opaqueType ∧ h.opaqueId / 256 < 128 ∧ h.opaqueId % 256 < 128
  else
    let lsaKey := split '-' (getLsaKey a.header)
    (lsaKey[1]?.bind names.getByName).map Ip4Address.text = some h.linkStateId ∧
      lsaKey[2]?.bind names.getByName = some h.advertisingRouter

theorem decoded_type {h : LsaHeader} (hk : h.getOspfLsaType ≠ .UNDEFINED) :
    (intAt (convertToFourBytes h.lsType) 0).toInt = h.lsType := by
  have hv := value_ofValue (v := h.lsType) rfl hk
  rw [hv]
  cases OspfLsaType.ofValue h.lsType <;> decide

theorem opaque_bytes {n : ℤ} (h : 0 ≤ n ∧ n < 2 ^ 24) :
    ∃ b b' : Byte, convertToTwoBytes n = [b, b'] ∧
      (valueOf [b, b'] : ℤ) = if n < 65536 then n else n / 256 := by
  obtain ⟨b, b', hbytes⟩ := two_bytes n
  refine ⟨b, b', hbytes, ?_⟩
  rw [← hbytes]
  unfold convertToTwoBytes
  rw [unsignedInt_of_lt h.1 (by omega)]
  by_cases hn : n < 65536
  · rw [if_pos hn, fitted_hexBytes (by decide) (by decide) (by omega), valueOf_bytesOf]
    omega
  · have hhex : hexBytes n.toNat = bytesOf 3 n.toNat := by
      unfold hexBytes hexLength
      rw [if_neg (by omega), if_neg (by omega), if_pos (by omega)]
    have hfirst : fitted 2 (bytesOf 3 n.toNat) =
        [BitVec.ofNat 8 (n.toNat / 256 ^ 2), BitVec.ofNat 8 (n.toNat / 256 ^ 1)] := rfl
    rw [if_neg hn, hhex, hfirst]
    simp only [valueOf, List.length_cons, List.length_nil, BitVec.toNat_ofNat]
    omega

theorem notMem_dot_ofInt (n : ℤ) : '.' ∉ (ofInt n).toList := by
  rw [ofInt, String.toList_ofList]
  have hdigits : '.' ∉ Nat.toDigits 10 n.natAbs := fun h =>
    absurd (Nat.isDigit_of_mem_toDigits (by decide) (by decide) h) (by decide)
  split
  · simp [hdigits]
  · exact hdigits

theorem splitOn_dotted (a b c d : ℤ) : (dotted a b c d).toList.splitOn '.' =
      [(ofInt a).toList, (ofInt b).toList, (ofInt c).toList, (ofInt d).toList] := by
  rw [toList_dotted, List.splitOn_append_cons_self_of_not_mem (notMem_dot_ofInt a),
    List.splitOn_append_cons_self_of_not_mem (notMem_dot_ofInt b),
    List.splitOn_append_cons_self_of_not_mem (notMem_dot_ofInt c),
    List.splitOn_eq_singleton (notMem_dot_ofInt d)]

theorem getByName_negative (names : NameService) {a b c d n : ℤ} (hn : n < 0)
    (h : n ∈ [a, b, c, d]) : names.getByName (dotted a b c d) = none := by
  apply names.hyphen
  refine ⟨(ofInt n).toList, ?_, ?_⟩
  · rw [splitOn_dotted]
    exact List.mem_map_of_mem (f := fun n => (ofInt n).toList) h
  · rw [ofInt, String.toList_ofList, if_pos hn]
    rfl

theorem toInt_byte (b : Byte) : b.toInt = if b.toNat < 128 then (b.toNat : ℤ) else b.toNat - 256 := by
  rw [BitVec.toInt_eq_toNat_cond]
  split <;> split <;> omega

theorem getLsa_opaque (a : Advert names peer s)
    (ho : (s.lsaHeader a.ref).getOspfLsaType.isOpaqueType = true) :
    (a.request.bind (answer names peer s) = some a.ref) ↔ a.Requestable := by
  obtain ⟨link, router, -, hrouter, hrequest⟩ := a.request_eq
  obtain ⟨hty, hadv, hopaque, -⟩ := read_asByteArray a.received a.known a.typeRange a.idRange
  obtain ⟨ht, hid⟩ := hopaque ho
  have hsame : a.header.getOspfLsaType = (s.lsaHeader a.ref).getOspfLsaType :=
    congrArg OspfLsaType.ofValue hty
  obtain ⟨b, b', hbytes, hvalue⟩ := opaque_bytes a.idRange
  have hhigh := b.isLt
  have hlow := b'.isLt
  have hvalue' : (valueOf [b, b'] : ℤ) = b.toNat * 256 + b'.toNat := by simp [valueOf]
  have htext : opaqueLinkStateId (s.lsaHeader a.ref).opaqueType (s.lsaHeader a.ref).opaqueId =
      dotted (s.lsaHeader a.ref).opaqueType 0 b.toInt b'.toInt := by
    unfold opaqueLinkStateId
    rw [hbytes]
    rfl
  have hcond : a.Requestable ↔ 0 ≤ (s.lsaHeader a.ref).opaqueType ∧
      (s.lsaHeader a.ref).opaqueId / 256 < 128 ∧ (s.lsaHeader a.ref).opaqueId % 256 < 128 := by
    unfold Advert.Requestable
    rw [if_pos ho]
  rw [hrequest, if_pos ho, htext, Option.bind_some, hcond]
  have hidRange := a.idRange
  have htypeRange := a.typeRange
  have hb := toInt_byte b
  have hb' := toInt_byte b'
  by_cases hneg : (s.lsaHeader a.ref).opaqueType < 0 ∨ b.toInt < 0 ∨ b'.toInt < 0
  · -- the text of the link state id has no address
    have hnone : names.getByName
        (dotted (s.lsaHeader a.ref).opaqueType 0 b.toInt b'.toInt) = none := by
      obtain hneg | hneg | hneg := hneg
      · exact getByName_negative names hneg (by simp)
      · exact getByName_negative names hneg (by simp)
      · exact getByName_negative names hneg (by simp)
    unfold answer sent
    rw [hnone]
    constructor
    · intro h
      cases h
    · split at hvalue <;> split at hb <;> split at hb' <;> omega
  · have ht0 : 0 ≤ (s.lsaHeader a.ref).opaqueType := by omega
    have hbyte := toInt_byteOf htypeRange
    have hname : dotted (s.lsaHeader a.ref).opaqueType 0 b.toInt b'.toInt =
        (Ip4Address.mk (byteOf (s.lsaHeader a.ref).opaqueType) 0 b b').text := by
      rw [toInt_byte] at hbyte
      have h1 : ((byteOf (s.lsaHeader a.ref).opaqueType).toNat : ℤ) =
          (s.lsaHeader a.ref).opaqueType := by split at hbyte <;> omega
      have h2 : (b.toNat : ℤ) = b.toInt := by split at hb <;> omega
      have h3 : (b'.toNat : ℤ) = b'.toInt := by split at hb' <;> omega
      unfold Ip4Address.text
      rw [h1, h2, h3]
      rfl
    have hrouterText : router = (s.lsaHeader a.ref).advertisingRouter.text := by
      have hlink : '-' ∉ (linkText a.header).toList := by
        unfold linkText
        rw [hsame, if_pos ho, String.toList_append, List.mem_append, not_or, ht, hid]
        exact ⟨notMem_ofInt ht0 (by decide), notMem_ofInt hidRange.1 (by decide)⟩
      rw [split_getLsaKey (hsame ▸ a.known), List.splitOn_eq_singleton hlink] at hrouter
      rw [← hadv]
      exact (Option.some.inj hrouter).symm
    have hfound : answer names peer s ⟨(s.lsaHeader a.ref).lsType,
        dotted (s.lsaHeader a.ref).opaqueType 0 b.toInt b'.toInt, router⟩ =
        s.findLsa (s.lsaHeader a.ref).lsType (keyOf (s.lsaHeader a.ref).lsType
          (ofInt (s.lsaHeader a.ref).opaqueType ++ ofInt (valueOf [b, b']))
          (s.lsaHeader a.ref).advertisingRouter.text) := by
      have hvalue3 : valueOf [0, b, b'] = valueOf [b, b'] := by simp [valueOf]
      have ho' : (OspfLsaType.ofValue (s.lsaHeader a.ref).lsType).isOpaqueType = true := ho
      simp only [answer, sent, hname, hrouterText, names.literal, peer.literal, Option.bind_some,
        Option.map_some, decoded_type a.known, getLsa, ho', ↓reduceIte, hbyte, hvalue3]
    rw [hfound, findLsa_eq_iff, getLsaKey_eq a.known,
      keyOf_inj (type_nonneg a.known) (type_nonneg a.known)]
    unfold linkText
    rw [if_pos ho, String.append_right_inj]
    constructor
    · rintro ⟨-, hsameId, -⟩
      have := ofInt_injective hsameId
      split at hvalue <;> split at hb <;> split at hb' <;> omega
    · rintro ⟨-, h1, h2⟩
      have : (valueOf [b, b'] : ℤ) = (s.lsaHeader a.ref).opaqueId := by
        split at hvalue <;> omega
      exact ⟨rfl, congrArg ofInt this, rfl⟩

theorem getLsa_named (a : Advert names peer s)
    (ho : (s.lsaHeader a.ref).getOspfLsaType.isOpaqueType = false) :
    (a.request.bind (answer names peer s) = some a.ref) ↔ a.Requestable := by
  obtain ⟨link, router, hlink, hrouter, hrequest⟩ := a.request_eq
  have ho' : (OspfLsaType.ofValue (s.lsaHeader a.ref).lsType).isOpaqueType = false := ho
  unfold Advert.Requestable
  simp only [hrequest, ho, Bool.false_eq_true, ↓reduceIte, Option.bind_some, hlink, hrouter]
  unfold answer sent
  cases names.getByName link with
  | none =>
    simp only [Option.bind_none, Option.map_none]
    constructor
    · intro h
      cases h
    · rintro ⟨h, -⟩
      cases h
  | some id =>
    cases names.getByName router with
    | none =>
      simp only [Option.bind_some, Option.map_none, Option.bind_none]
      constructor
      · intro h
        cases h
      · rintro ⟨-, h⟩
        cases h
    | some own =>
      simp only [Option.bind_some, Option.map_some, decoded_type a.known, getLsa, ho',
        Bool.false_eq_true, ↓reduceIte, Option.some.injEq]
      rw [findLsa_eq_iff, getLsaKey_eq a.known,
        keyOf_inj (type_nonneg a.known) (type_nonneg a.known)]
      unfold linkText
      simp [ho]

theorem Advert.answered_iff (a : Advert names peer s) :
    (a.request.bind (answer names peer s) = some a.ref) ↔ a.Requestable := by
  cases ho : (s.lsaHeader a.ref).getOspfLsaType.isOpaqueType with
  | true => exact getLsa_opaque a ho
  | false => exact getLsa_named a ho

end Lookups

/-- Keys tell headers apart, unless the headers are of a pair that the key confuses; and what is
requested of a list comes back, if and only if each advertisement of it is one that can be
requested. -/
theorem identity_consistent_iff (h h' : LsaHeader) (names peer : NameService) (s : OspfLsdb) (mtu : ℤ)
    (lsReqList : List (Advert names peer s)) :
    ((getLsaKey h = getLsaKey h' ↔ SameLsa h h') ↔ ¬ Confused h h') ∧
      ∃ packets, buildLsRequest mtu (lsReqList.map fun a => (getLsaKey a.header, a.header)) =
          some packets ∧
        (answers names peer s packets = (lsReqList.take (room mtu)).map (fun a => some a.ref) ↔
          ∀ a ∈ lsReqList.take (room mtu), a.Requestable) := by
  refine ⟨key_identifies_iff h h', ?_⟩
  obtain ⟨packets, hbuilt, htake⟩ := requestsFrom_eq (mtu - LSA_HEADER_LENGTH) OSPF_HEADER_LENGTH
    (lsReqList.map fun a => (getLsaKey a.header, a.header)) fun e he => by
      obtain ⟨a, -, rfl⟩ := List.mem_map.mp he
      obtain ⟨_, _, -, -, hrequest⟩ := a.request_eq
      exact ⟨_, hrequest⟩
  refine ⟨packets, hbuilt, ?_⟩
  rw [← List.map_take, List.map_map] at htake
  have htake : (lsReqList.take (room mtu)).map Advert.request = packets.map some := htake
  rw [answers_eq_iff names peer s _ Advert.ref Advert.request htake]
  constructor
  · intro hall a ha
    exact a.answered_iff.mp (hall a ha)
  · intro hall a ha
    exact a.answered_iff.mpr (hall a ha)

section Numeric

def octet (cs : List Char) : Option Byte :=
  if cs ≠ [] ∧ cs.all Char.isDigit ∧ Nat.ofDigitChars 10 cs 0 < 256 then
    some (BitVec.ofNat 8 (Nat.ofDigitChars 10 cs 0))
  else none

def addressOf : List (Option Byte) → Option Ip4Address
  | [some a, some b, some c, some d] => some ⟨a, b, c, d⟩
  | _ => none

theorem octet_ofInt (b : Byte) : octet (ofInt b.toNat).toList = some b := by
  have hdigits : ((ofInt b.toNat).toList).all Char.isDigit = true := by
    rw [List.all_eq_true]
    exact digits_ofInt (Int.natCast_nonneg _)
  have hvalue : Nat.ofDigitChars 10 (ofInt b.toNat).toList 0 = b.toNat := by
    rw [ofInt, String.toList_ofList, if_neg (by omega), Int.natAbs_natCast]
    simp
  unfold octet
  rw [hvalue, if_pos ⟨ofInt_ne_empty _, hdigits, b.isLt⟩, BitVec.ofNat_toNat, BitVec.setWidth_eq]

theorem addressOf_none {l : List (Option Byte)} (h : none ∈ l) : addressOf l = none := by
  unfold addressOf
  split
  · simp at h
  · rfl

def numeric : NameService where
  getHostName a := a.text
  getByName s := addressOf ((s.toList.splitOn '.').map octet)
  literal a := by
    unfold Ip4Address.text
    rw [splitOn_dotted]
    simp only [List.map_cons, List.map_nil, octet_ofInt, addressOf]
  hyphen s h := by
    obtain ⟨label, hmem, hhead⟩ := h
    have hoctet : octet label = none := by
      unfold octet
      apply if_neg
      rintro ⟨-, hall, -⟩
      have hdigit := List.all_eq_true.mp hall '-' (List.mem_of_head? hhead)
      exact absurd hdigit (by decide)
    exact addressOf_none (List.mem_map.mpr ⟨label, hmem, hoctet⟩)

def opaqueHeader (opaqueType opaqueId : ℤ) (linkStateId : String) : LsaHeader :=
  ⟨0, 2, 9, linkStateId, opaqueType, opaqueId, ⟨10, 0, 0, 1⟩, 1, 0, 44⟩

def opaqueStore : OspfLsdb :=
  (OspfLsdb.initial ⟨0, 0, Nat.zero_le MAXAGE⟩).addLsa (opaqueHeader 1 65536 "1.0.1.0") false

theorem stored_opaqueStore : opaqueStore.lsaLookup (opaqueStore.lsaHeader 0) = some 0 := by decide

theorem lsaHeader_opaqueStore : opaqueStore.lsaHeader 0 = opaqueHeader 1 65536 "1.0.1.0" := by decide

theorem received_opaqueStore :
    readLsaHeader numeric (asByteArray numeric (opaqueStore.lsaHeader 0)) =
      some (opaqueHeader 1 65536 "1.0.1.0") := by
  rw [lsaHeader_opaqueStore]
  decide

def advertOpaqueStore : Advert numeric numeric opaqueStore where
  ref := 0
  header := opaqueHeader 1 65536 "1.0.1.0"
  stored := stored_opaqueStore
  received := received_opaqueStore
  typeRange := by rw [lsaHeader_opaqueStore]; decide
  idRange := by rw [lsaHeader_opaqueStore]; decide

/-- Opaque type 1 with id 23 and opaque type 12 with id 3 have one key, and an id of three bytes does
not come back. -/
theorem opaque_identity_lost : (¬ ∀ h h' : LsaHeader, getLsaKey h = getLsaKey h' ↔ SameLsa h h') ∧
      ¬ ∀ (names peer : NameService) (s : OspfLsdb) (a : Advert names peer s),
        a.request.bind (answer names peer s) = some a.ref := by
  constructor
  · intro hkeys
    have hsame := (hkeys (opaqueHeader 1 23 "1.0.0.23") (opaqueHeader 12 3 "12.0.0.3")).mp (by decide)
    revert hsame
    unfold SameLsa
    decide
  · intro hback
    have hrequestable := (Advert.answered_iff advertOpaqueStore).mp (hback _ _ _ advertOpaqueStore)
    revert hrequestable
    unfold Advert.Requestable
    rw [show opaqueStore.lsaHeader advertOpaqueStore.ref = _ from lsaHeader_opaqueStore]
    decide

end Numeric

end LsRequests

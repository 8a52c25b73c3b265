import Onos.PacketChecksum
import Onos.Lib.Radix

/-! The checksum of a packet, computed over the texts of numbers: words as binary texts, carries
folded in hexadecimal texts, and a complement that turns binary digits around. -/
namespace OspfPacketChecksum

open OnesComplement Packets Radix WireBytes

def OSPFPACKET_LENGTH_POS1 : ℕ := 2

def OSPFPACKET_LENGTH_POS2 : ℕ := 3

def OSPFPACKET_CHECKSUM_POS1 : ℕ := 12

def OSPFPACKET_CHECKSUM_POS2 : ℕ := 13

section Model

def toBinaryString (n : ℕ) : List Char := Nat.toDigits 2 n

def toHexString (n : ℕ) : List Char := Nat.toDigits 16 n

def convertToSixteenBits (strToConvert : List Char) : Option ℕ :=
  let sb := strToConvert.reverse
  if 4 ≤ sb.length then do
    let s1 := (sb.take 4).reverse
    let s2 := (sb.drop 4).reverse
    let low ← parse 16 s1
    let high ← parse 16 s2
    some (low + high)
  else none

def addWord (hexasum : ℕ) (b1 b2 : Byte) : Option ℕ := do
  let s1 := pad 8 (toBinaryString b1.toNat)
  let s2 := pad 8 (toBinaryString b2.toNat)
  let num1 ← parse 2 (s1 ++ s2)
  let convertTo16 := toHexString (hexasum + num1)
  if convertTo16.length > 4 then convertToSixteenBits convertTo16 else some (hexasum + num1)

/-- The loop from position `i` on. A last byte without a second one is an exception. -/
def addWords : ℕ → List Byte → ℕ → Option ℕ
  | _, [], hexasum => some hexasum
  | i, [_], hexasum => if i ≠ 12 then none else some hexasum
  | i, b1 :: b2 :: rest, hexasum => do
    let hexasum ← if i ≠ 12 then addWord hexasum b1 b2 else some hexasum
    addWords (i + 2) rest hexasum

/-- The loop that folds a binary text into sixteen digits. The fuel bounds its turns. -/
def foldBinary : ℕ → List Char → Option (List Char)
  | 0, hexaAsBinaryStr => some hexaAsBinaryStr
  | fuel + 1, hexaAsBinaryStr =>
    if hexaAsBinaryStr.length > 16 then do
      let offset := hexaAsBinaryStr.length % 4
      let hexaAsBinaryStr := if offset ≠ 0 then List.replicate (4 - offset) '0' ++ hexaAsBinaryStr
        else hexaAsBinaryStr
      let revHexaStr1 := (hexaAsBinaryStr.reverse.take 16).reverse
      let hexaStr2 := hexaAsBinaryStr.reverse.reverse
      let revHexaStr3 := (hexaStr2.reverse.drop 16).reverse
      let lastSixteenHexaBits ← parse 2 revHexaStr1
      let remainingHexaBits ← parse 2 revHexaStr3
      foldBinary fuel (toBinaryString (lastSixteenHexaBits + remainingHexaBits))
    else some hexaAsBinaryStr

def negate (binaryString : List Char) : List Char :=
  binaryString.map fun c => if c = '1' then '0' else '1'

def calculateChecksum (hexasum : ℕ) : Option ℕ := do
  let hexaAsBinaryStr ← foldBinary hexasum (toBinaryString hexasum)
  parse 2 (negate (pad 16 hexaAsBinaryStr))

def parseHexBinary : List Char → List Byte
  | high :: low :: rest => BitVec.ofNat 8 (16 * digitValue high + digitValue low) :: parseHexBinary rest
  | _ => []

def convertToTwoBytes (numberToConvert : ℕ) : Option (Byte × Byte) :=
  let s1 := toHexString numberToConvert
  let s1 := if s1.length % 2 ≠ 0 then '0' :: s1 else s1
  match parseHexBinary s1 with
  | [] => none
  | [hexa] => some (0, hexa)
  | hexa :: hexa' :: _ => some (hexa, hexa')

def calculateOspfCheckSum (packet : List Byte) (_checksumPos1 _checksumPos2 : ℕ) :
    Option (Byte × Byte) := do
  let hexasum ← addWords 0 packet 0
  let sb := toHexString hexasum
  let hexasum ← if sb.length > 4 then convertToSixteenBits sb else some hexasum
  let finalChecksum ← calculateChecksum hexasum
  convertToTwoBytes finalChecksum

def validateOspfCheckSum (ospfPacket : List Byte) (checksumPos1 checksumPos2 : ℕ) : Option Bool := do
  let checkSum ← calculateOspfCheckSum ospfPacket checksumPos1 checksumPos2
  let byte1 ← ospfPacket[checksumPos1]?
  if byte1 = checkSum.1 then
    let byte2 ← ospfPacket[checksumPos2]?
    some (byte2 = checkSum.2)
  else some false

def isValidOspfCheckSum (ospfMessage : List Byte) (checksumPos1 checksumPos2 : ℕ) : Option Bool :=
  validateOspfCheckSum ospfMessage checksumPos1 checksumPos2

def store (packet : List Byte) (pos : ℕ) (b : Byte) : Option (List Byte) :=
  if pos < packet.length then some (packet.set pos b) else none

def addLengthAndCheckSum (ospfPacket : List Byte)
    (lengthBytePos1 lengthBytePos2 checksumBytePos1 checksumBytePos2 : ℕ) : Option (List Byte) := do
  let lenthInTwoBytes ← convertToTwoBytes ospfPacket.length
  let ospfPacket ← store ospfPacket lengthBytePos1 lenthInTwoBytes.1
  let ospfPacket ← store ospfPacket lengthBytePos2 lenthInTwoBytes.2
  let checkSumInTwoBytes ← calculateOspfCheckSum ospfPacket checksumBytePos1 checksumBytePos2
  let ospfPacket ← store ospfPacket checksumBytePos1 checkSumInTwoBytes.1
  store ospfPacket checksumBytePos2 checkSumInTwoBytes.2

end Model

section Texts

theorem reverse_take_reverse (cs : List Char) (k : ℕ) :
    (cs.reverse.take k).reverse = cs.drop (cs.length - k) := by
  rw [List.take_reverse, List.reverse_reverse]

theorem reverse_drop_reverse (cs : List Char) (k : ℕ) :
    (cs.reverse.drop k).reverse = cs.take (cs.length - k) := by
  rw [List.drop_reverse, List.reverse_reverse]

theorem length_toHexString (n : ℕ) : (toHexString n).length > 4 ↔ 65536 ≤ n := by
  have h := Nat.length_toDigits_le_iff (b := 16) (n := n) (k := 4) (by decide) (by decide)
  rw [toHexString]
  omega

theorem convertToSixteenBits_eq {n : ℕ} (hlow : 65536 ≤ n) (hhigh : n < 2 ^ 31) :
    convertToSixteenBits (toHexString n) = some (foldOnce 65536 n) := by
  have hlen := (length_toHexString n).mpr hlow
  have hdigits := digits_toDigits (b := 16) (by decide) (by decide) n
  obtain ⟨hquotient, hremainder⟩ := value_split (b := 16) (by decide) (by decide) n 4
    (show 4 ≤ (toHexString n).length by omega)
  rw [toHexString] at hlen
  have hlowParse : parse 16 ((toHexString n).drop ((toHexString n).length - 4)) =
      some (n % 65536) :=
    parse_eq_some (List.ne_nil_of_length_pos (by rw [List.length_drop, toHexString]; omega))
      (fun c hc => hdigits c (List.mem_of_mem_drop hc)) hremainder (by omega)
  have hhighParse : parse 16 ((toHexString n).take ((toHexString n).length - 4)) =
      some (n / 65536) :=
    parse_eq_some (List.ne_nil_of_length_pos (by rw [List.length_take, toHexString]; omega))
      (fun c hc => hdigits c (List.mem_of_mem_take hc)) hquotient (by omega)
  rw [convertToSixteenBits, List.length_reverse, if_pos (by rw [toHexString]; omega),
    reverse_take_reverse, reverse_drop_reverse]
  dsimp only
  rw [hlowParse, hhighParse]
  exact congrArg some (Nat.add_comm _ _)

theorem binary_byte (x : Byte) : (pad 8 (toBinaryString x.toNat)).length = 8 ∧
    value 2 (pad 8 (toBinaryString x.toNat)) = x.toNat ∧
    ∀ c ∈ pad 8 (toBinaryString x.toNat), digitValue c < 2 := by
  have hlen : (toBinaryString x.toNat).length ≤ 8 :=
    (Nat.length_toDigits_le_iff (by decide) (by decide)).mpr x.isLt
  refine ⟨length_pad hlen, ?_, digits_pad (by decide) 8 (digits_toDigits (by decide) (by decide) _)⟩
  rw [value_pad, toBinaryString, value_toDigits (by decide) (by decide)]

theorem parse_word (b1 b2 : Byte) :
    parse 2 (pad 8 (toBinaryString b1.toNat) ++ pad 8 (toBinaryString b2.toNat)) =
      some (b1 ++ b2 : BitVec 16).toNat := by
  obtain ⟨hlen, hvalue, hdigits⟩ := binary_byte b1
  obtain ⟨hlen', hvalue', hdigits'⟩ := binary_byte b2
  have hword : value 2 (pad 8 (toBinaryString b1.toNat) ++ pad 8 (toBinaryString b2.toNat)) =
      (b1 ++ b2 : BitVec 16).toNat := by
    rw [value_append, hlen', hvalue, hvalue', IpPackets.toNat_word]
    rfl
  exact parse_eq_some (List.ne_nil_of_length_pos (by rw [List.length_append]; omega))
    (fun c hc => (List.mem_append.mp hc).elim (hdigits c) (hdigits' c)) hword
    ((b1 ++ b2 : BitVec 16).isLt.trans (by decide))

theorem addWord_eq {hexasum : ℕ} (h : hexasum < 65536) (b1 b2 : Byte) :
    addWord hexasum b1 b2 = some (addCarry 65536 hexasum (b1 ++ b2 : BitVec 16).toNat) := by
  have hword := (b1 ++ b2 : BitVec 16).isLt
  simp only [addWord, parse_word, Option.bind_eq_bind, Option.bind_some]
  generalize (b1 ++ b2 : BitVec 16).toNat = w at *
  rw [addCarry]
  split_ifs with hlong hlt
  · have := (length_toHexString _).mp hlong
    omega
  · rw [convertToSixteenBits_eq (by omega) (by omega), foldOnce]
    exact congrArg some (by omega)
  · rfl
  · exact absurd ((length_toHexString _).mpr (by omega)) hlong

theorem calculateChecksum_eq {n : ℕ} (h : n < 65536) : calculateChecksum n = some (65535 - n) := by
  have hlen : (toBinaryString n).length ≤ 16 :=
    (Nat.length_toDigits_le_iff (by decide) (by decide)).mpr h
  have hfold : foldBinary n (toBinaryString n) = some (toBinaryString n) := by
    cases n with
    | zero => rfl
    | succ n => rw [foldBinary, if_neg (by omega)]
  have hdigits : ∀ c ∈ pad 16 (toBinaryString n), digitValue c < 2 :=
    digits_pad (by decide) 16 (digits_toDigits (by decide) (by decide) n)
  have hvalue : value 2 (negate (pad 16 (toBinaryString n))) = 65535 - n := by
    rw [negate, value_negate hdigits, length_pad hlen, value_pad, toBinaryString,
      value_toDigits (by decide) (by decide)]
    rfl
  rw [calculateChecksum, hfold, Option.bind_eq_bind, Option.bind_some]
  refine parse_eq_some (List.ne_nil_of_length_pos ?_) (digits_negate _) hvalue (by omega)
  rw [negate, List.length_map, length_pad hlen]
  decide

theorem parseHexBinary_two {cs : List Char} (h : cs.length = 2) :
    parseHexBinary cs = [BitVec.ofNat 8 (value 16 cs)] := by
  obtain ⟨c, d, rfl⟩ := List.length_eq_two.mp h
  rw [parseHexBinary, parseHexBinary, value_cons, value_singleton, List.length_singleton, pow_one,
    Nat.mul_comm]
  simp

theorem parseHexBinary_four {cs : List Char} (h : cs.length = 4)
    (hdigits : ∀ c ∈ cs, digitValue c < 16) : parseHexBinary cs =
      [BitVec.ofNat 8 (value 16 cs / 256), BitVec.ofNat 8 (value 16 cs % 256)] := by
  obtain ⟨c, d, rest, rfl⟩ : ∃ c d rest, cs = c :: d :: rest := by
    cases cs with
    | nil => cases h
    | cons c cs =>
      cases cs with
      | nil => cases h
      | cons d rest => exact ⟨c, d, rest, rfl⟩
  have hrest : rest.length = 2 := by simpa using h
  have hlow : value 16 rest < 16 ^ rest.length := value_lt fun e he =>
    hdigits e (List.mem_cons_of_mem c (List.mem_cons_of_mem d he))
  rw [parseHexBinary, parseHexBinary_two hrest, value_cons, value_cons, List.length_cons, hrest]
  rw [hrest] at hlow
  congr 2
  · omega
  · congr 1
    omega

theorem even_hex (n : ℕ) {s1 : List Char}
    (h : s1 = if (toHexString n).length % 2 ≠ 0 then '0' :: toHexString n else toHexString n) :
    2 ∣ s1.length ∧ 2 ≤ s1.length ∧ (toHexString n).length ≤ s1.length ∧
      s1.length ≤ (toHexString n).length + 1 ∧ value 16 s1 = n ∧ ∀ c ∈ s1, digitValue c < 16 := by
  have hpos : 0 < (toHexString n).length := Nat.length_toDigits_pos
  have hvalue : value 16 (toHexString n) = n := value_toDigits (by decide) (by decide) n
  have hdigits : ∀ c ∈ toHexString n, digitValue c < 16 :=
    digits_toDigits (by decide) (by decide) n
  subst h
  split_ifs with hodd
  · refine ⟨by rw [List.length_cons]; omega, by rw [List.length_cons]; omega, ?_, le_rfl, ?_, ?_⟩
    · rw [List.length_cons]
      omega
    · rw [value_cons, hvalue, show digitValue '0' = 0 from rfl, Nat.zero_mul, Nat.zero_add]
    · intro c hc
      rcases List.mem_cons.mp hc with rfl | hc
      · decide
      · exact hdigits c hc
  · exact ⟨by omega, by omega, le_rfl, by omega, hvalue, hdigits⟩

theorem convertToTwoBytes_eq {n : ℕ} (h : n < 65536) :
    convertToTwoBytes n = some (BitVec.ofNat 8 (n / 256), BitVec.ofNat 8 (n % 256)) := by
  have hlong := mt (length_toHexString n).mp (by omega)
  obtain ⟨heven, htwo, -, hle, hvalue, hdigits⟩ := even_hex n rfl
  rw [convertToTwoBytes]
  generalize (if (toHexString n).length % 2 ≠ 0 then '0' :: toHexString n else toHexString n) = s1 at *
  rcases (show s1.length = 2 ∨ s1.length = 4 by omega) with hlen | hlen
  · have hlt : n < 256 := by
      have hbound := value_lt hdigits
      rwa [hlen, hvalue] at hbound
    rw [parseHexBinary_two hlen, hvalue, Nat.div_eq_of_lt hlt, Nat.mod_eq_of_lt hlt]
    rfl
  · rw [parseHexBinary_four hlen hdigits, hvalue]

theorem exists_convertToTwoBytes (n : ℕ) : ∃ x y, convertToTwoBytes n = some (x, y) := by
  obtain ⟨-, htwo, -, -, -, -⟩ := even_hex n rfl
  rw [convertToTwoBytes]
  generalize (if (toHexString n).length % 2 ≠ 0 then '0' :: toHexString n else toHexString n) = s1 at *
  cases s1 with
  | nil => cases htwo
  | cons c s1 =>
    cases s1 with
    | nil => simp at htwo
    | cons d rest =>
      rw [parseHexBinary]
      cases parseHexBinary rest with
      | nil => exact ⟨_, _, rfl⟩
      | cons _ _ => exact ⟨_, _, rfl⟩

end Texts

section Words

def sumFrom (s : ℕ) (bs : List Byte) : ℕ :=
  ((IpPackets.words bs).map BitVec.toNat).foldl (addCarry 65536) s

theorem sumFrom_lt {s : ℕ} (h : s < 65536) (bs : List Byte) : sumFrom s bs < 65536 := by
  refine (foldl_addCarry (fun d hd => ?_) (by decide) h).1
  obtain ⟨w, -, rfl⟩ := List.mem_map.mp hd
  exact w.isLt

theorem sumFrom_append (s : ℕ) {xs : List Byte} (ys : List Byte) (h : 2 ∣ xs.length) :
    sumFrom s (xs ++ ys) = sumFrom (sumFrom s xs) ys := by
  rw [sumFrom, IpPackets.words_append ys h, List.map_append, List.foldl_append]
  rfl

theorem addWords_cons (i s : ℕ) (b1 b2 : Byte) (rest : List Byte) :
    addWords i (b1 :: b2 :: rest) s =
      (if i ≠ 12 then addWord s b1 b2 else some s).bind (addWords (i + 2) rest) := by
  rw [addWords]
  split_ifs <;> rfl

theorem addWords_eq {i s : ℕ} {bs : List Byte} (hi : 12 < i ∨ i + bs.length ≤ 12)
    (heven : 2 ∣ bs.length) (hs : s < 65536) : addWords i bs s = some (sumFrom s bs) := by
  induction bs using IpPackets.words.induct generalizing i s with
  | case1 a b bs ih =>
    simp only [List.length_cons] at heven hi
    have hne : i ≠ 12 := by omega
    have hnext : addCarry 65536 s (a ++ b : BitVec 16).toNat < 65536 :=
      addCarry_lt hs (a ++ b : BitVec 16).isLt
    rw [addWords_cons, if_pos hne, addWord_eq hs, Option.bind_some,
      ih (by omega) (by omega) hnext]
    rfl
  | case2 a => simp at heven
  | case3 => rfl

theorem addWords_append {i s : ℕ} {xs : List Byte} (ys : List Byte) (h : 2 ∣ xs.length) :
    addWords i (xs ++ ys) s = (addWords i xs s).bind (addWords (i + xs.length) ys) := by
  induction xs using IpPackets.words.induct generalizing i s with
  | case1 a b xs ih =>
    rw [List.length_cons, List.length_cons] at h
    rw [List.cons_append, List.cons_append, addWords_cons, addWords_cons, Option.bind_assoc]
    refine Option.bind_congr fun s' _ => ?_
    rw [ih (by omega), List.length_cons, List.length_cons, Nat.add_assoc i 2, Nat.add_comm 2]
  | case2 a => simp at h
  | case3 => rfl

theorem addWords_odd {i s : ℕ} {bs : List Byte} (hodd : ¬2 ∣ bs.length) (hi : 13 < i + bs.length) :
    addWords i bs s = none := by
  induction bs using IpPackets.words.induct generalizing i s with
  | case1 a b bs ih =>
    simp only [List.length_cons] at hodd hi
    rw [addWords_cons, Option.bind_eq_none_iff]
    exact fun s' _ => ih (by omega) (by omega)
  | case2 a =>
    rw [addWords, if_pos]
    simp at hi
    omega
  | case3 => simp at hodd

end Words

section Results

variable {packet : List Byte}

/-- The complement of the sum of all words in one's complement, the packet padded to words and the
checksum taken as zero. -/
def rfcCheckSum (packet : List Byte) : ℕ :=
  complement 65536
    (onesSum 65536 ((IpPackets.words ((packet.set 12 0).set 13 0)).map BitVec.toNat))

theorem exists_parts (h : 14 ≤ packet.length) : ∃ before x y after,
    packet = before ++ x :: y :: after ∧ before.length = 12 := by
  refine ⟨packet.take 12, packet[12], packet[13], packet.drop 14, ?_, ?_⟩
  · rw [List.getElem_cons_drop, List.getElem_cons_drop, List.take_append_drop]
  · rw [List.length_take]
    omega

theorem set_parts {before after : List Byte} (x y x' y' : Byte) (h : before.length = 12) :
    ((before ++ x :: y :: after).set 12 x').set 13 y' = before ++ x' :: y' :: after := by
  rw [List.set_append_right _ _ (by omega), List.set_append_right _ _ (by omega), h]
  rfl

theorem addWords_packet (h : 14 ≤ packet.length) (heven : 2 ∣ packet.length) :
    addWords 0 packet 0 = some (sumFrom 0 ((packet.set 12 0).set 13 0)) := by
  obtain ⟨before, x, y, after, rfl, hbefore⟩ := exists_parts h
  have hafter : 2 ∣ after.length := by
    simp only [List.length_append, List.length_cons] at heven
    omega
  have hlt := sumFrom_lt (s := 0) (by decide) before
  have hzero : sumFrom (sumFrom 0 before) (0 :: 0 :: after) = sumFrom (sumFrom 0 before) after := by
    rw [sumFrom, IpPackets.words, List.map_cons, List.foldl_cons, addCarry, if_pos]
    · rfl
    · exact hlt
  rw [set_parts x y 0 0 hbefore, sumFrom_append 0 _ (by omega), hzero,
    addWords_append _ (by omega), addWords_eq (by omega) (by omega) (by decide), Option.bind_some,
    addWords_cons, if_neg (by omega), Option.bind_some, addWords_eq (by omega) hafter hlt]

theorem calculateOspfCheckSum_eq (h : 14 ≤ packet.length) (pos1 pos2 : ℕ) :
    calculateOspfCheckSum packet pos1 pos2 = if 2 ∣ packet.length then
      some (BitVec.ofNat 8 (rfcCheckSum packet / 256), BitVec.ofNat 8 (rfcCheckSum packet % 256))
    else none := by
  split_ifs with heven
  · have hlt := sumFrom_lt (s := 0) (by decide) ((packet.set 12 0).set 13 0)
    have hrfc : rfcCheckSum packet = 65535 - sumFrom 0 ((packet.set 12 0).set 13 0) := by
      rw [rfcCheckSum, complement, onesSum]
      exact congrArg (65535 - ·) (Nat.mod_eq_of_lt hlt)
    rw [calculateOspfCheckSum, addWords_packet h heven, Option.bind_eq_bind, Option.bind_some]
    generalize sumFrom 0 ((packet.set 12 0).set 13 0) = sum at *
    have hshort : ¬(toHexString sum).length > 4 := mt (length_toHexString sum).mp (by omega)
    simp only [if_neg hshort, Option.bind_some, calculateChecksum_eq hlt]
    rw [convertToTwoBytes_eq (by omega), hrfc]
  · have hodd := addWords_odd (i := 0) (s := 0) heven (by omega)
    rw [calculateOspfCheckSum, hodd]
    rfl

theorem addLengthAndCheckSum_eq (h : 14 ≤ packet.length) (heven : 2 ∣ packet.length) :
    ∃ withLength x y, addLengthAndCheckSum packet OSPFPACKET_LENGTH_POS1 OSPFPACKET_LENGTH_POS2
        OSPFPACKET_CHECKSUM_POS1 OSPFPACKET_CHECKSUM_POS2 = some ((withLength.set 12 x).set 13 y) ∧
      withLength.length = packet.length ∧
      calculateOspfCheckSum withLength OSPFPACKET_CHECKSUM_POS1 OSPFPACKET_CHECKSUM_POS2 =
        some (x, y) := by
  obtain ⟨l₁, l₂, hlength⟩ := exists_convertToTwoBytes packet.length
  have hlen : ((packet.set 2 l₁).set 3 l₂).length = packet.length := by
    rw [List.length_set, List.length_set]
  obtain ⟨x, y, hcalc⟩ : ∃ x y, calculateOspfCheckSum ((packet.set 2 l₁).set 3 l₂)
      OSPFPACKET_CHECKSUM_POS1 OSPFPACKET_CHECKSUM_POS2 = some (x, y) := by
    rw [calculateOspfCheckSum_eq (by omega), if_pos (by omega)]
    exact ⟨_, _, rfl⟩
  refine ⟨(packet.set 2 l₁).set 3 l₂, x, y, ?_, hlen, hcalc⟩
  have hstore : ∀ {bs : List Byte} {pos : ℕ} (b : Byte), pos < bs.length →
      store bs pos b = some (bs.set pos b) := fun b hpos => if_pos hpos
  simp only [addLengthAndCheckSum, hlength, Option.bind_eq_bind, Option.bind_some]
  rw [hstore l₁ (by rw [OSPFPACKET_LENGTH_POS1]; omega), Option.bind_some,
    hstore l₂ (by rw [List.length_set, OSPFPACKET_LENGTH_POS2]; omega), Option.bind_some]
  rw [show ((packet.set OSPFPACKET_LENGTH_POS1 l₁).set OSPFPACKET_LENGTH_POS2 l₂) =
    (packet.set 2 l₁).set 3 l₂ from rfl, hcalc, Option.bind_some,
    hstore x (by rw [hlen, OSPFPACKET_CHECKSUM_POS1]; omega), Option.bind_some,
    hstore y (by rw [List.length_set, hlen, OSPFPACKET_CHECKSUM_POS2]; omega)]
  rfl

theorem isValid_completed {withLength : List Byte} {x y : Byte} (h : 14 ≤ withLength.length)
    (hcalc : calculateOspfCheckSum withLength OSPFPACKET_CHECKSUM_POS1 OSPFPACKET_CHECKSUM_POS2 =
      some (x, y)) : isValidOspfCheckSum ((withLength.set 12 x).set 13 y) OSPFPACKET_CHECKSUM_POS1
        OSPFPACKET_CHECKSUM_POS2 = some true := by
  obtain ⟨before, x₀, y₀, after, rfl, hbefore⟩ := exists_parts h
  rw [set_parts x₀ y₀ x y hbefore]
  -- the checksum does not depend on the bytes in its place
  have hsame : calculateOspfCheckSum (before ++ x :: y :: after) OSPFPACKET_CHECKSUM_POS1
      OSPFPACKET_CHECKSUM_POS2 = some (x, y) := by
    have hlen : 14 ≤ (before ++ x :: y :: after).length := by
      simp only [List.length_append, List.length_cons, hbefore]
      omega
    rw [calculateOspfCheckSum_eq hlen, rfcCheckSum, set_parts x y 0 0 hbefore]
    rw [calculateOspfCheckSum_eq h, rfcCheckSum, set_parts x₀ y₀ 0 0 hbefore] at hcalc
    simpa only [List.length_append, List.length_cons] using hcalc
  have hget : (before ++ x :: y :: after)[12]? = some x := by
    rw [List.getElem?_append_right (by omega), hbefore]
    rfl
  have hget' : (before ++ x :: y :: after)[13]? = some y := by
    rw [List.getElem?_append_right (by omega), hbefore]
    rfl
  rw [isValidOspfCheckSum, validateOspfCheckSum, hsame]
  simp [OSPFPACKET_CHECKSUM_POS1, OSPFPACKET_CHECKSUM_POS2, hget, hget']

def IsChecksummed (packet : List Byte) : Prop :=
  (∃ x y, calculateOspfCheckSum packet OSPFPACKET_CHECKSUM_POS1 OSPFPACKET_CHECKSUM_POS2 =
      some (x, y) ∧ valueOf [x, y] = rfcCheckSum packet) ∧
    ∃ completed, addLengthAndCheckSum packet OSPFPACKET_LENGTH_POS1 OSPFPACKET_LENGTH_POS2
        OSPFPACKET_CHECKSUM_POS1 OSPFPACKET_CHECKSUM_POS2 = some completed ∧
      isValidOspfCheckSum completed OSPFPACKET_CHECKSUM_POS1 OSPFPACKET_CHECKSUM_POS2 = some true

/-- The checksum of a packet is the one of its words, and accepted, exactly when its length is
even. -/
theorem isChecksummed_iff (h : 24 ≤ packet.length) : IsChecksummed packet ↔ 2 ∣ packet.length := by
  constructor
  · rintro ⟨⟨x, y, hcalc, -⟩, -⟩
    by_contra hodd
    rw [calculateOspfCheckSum_eq (by omega), if_neg hodd] at hcalc
    cases hcalc
  · intro heven
    constructor
    · refine ⟨_, _, (calculateOspfCheckSum_eq (by omega) _ _).trans (if_pos heven), ?_⟩
      have hlt : rfcCheckSum packet < 65536 := by
        rw [rfcCheckSum, complement]
        omega
      simp only [valueOf, BitVec.toNat_ofNat, List.length_singleton, List.length_nil]
      omega
    · obtain ⟨withLength, x, y, hcompleted, hlen, hcalc⟩ :=
        addLengthAndCheckSum_eq (by omega) heven
      exact ⟨_, hcompleted, isValid_completed (by omega) hcalc⟩

def emptyHeader : List Byte :=
  [2, 1, 0, 24, 10, 0, 0, 1, 0, 0, 0, 0, 0, 0, 0, 0, 0, 0, 0, 0, 0, 0, 0, 0]

theorem isChecksummed_iff_emptyHeader : IsChecksummed emptyHeader ↔ 2 ∣ emptyHeader.length :=
  isChecksummed_iff (by decide)

theorem odd_packet_fails : ¬∀ packet : List Byte, 24 ≤ packet.length → IsChecksummed packet := by
  intro hall
  obtain ⟨⟨x, y, hcalc, -⟩, -⟩ := hall (emptyHeader ++ [1]) (by decide)
  have hnone : calculateOspfCheckSum (emptyHeader ++ [1]) OSPFPACKET_CHECKSUM_POS1
      OSPFPACKET_CHECKSUM_POS2 = none := by decide
  rw [hnone] at hcalc
  cases hcalc

end Results

end OspfPacketChecksum

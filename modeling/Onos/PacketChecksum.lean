import Onos.IpPackets
import Onos.Lib.OnesComplement

/-! The checksums that packets are emitted with, against the check of their receivers. -/
namespace IpPackets

open ByteBuffer FallibleRun OnesComplement Packets WireBytes

section Words

theorem toNat_word (a b : Byte) : (a ++ b : BitVec 16).toNat = a.toNat * 256 + b.toNat := by
  have hb : b.toNat < 2 ^ 8 := b.isLt
  calc (a ++ b : BitVec 16).toNat = a.toNat <<< 8 ||| b.toNat := BitVec.toNat_append a b
    _ = a.toNat * 256 + b.toNat := by
      rw [← Nat.shiftLeft_add_eq_or_of_lt hb, Nat.shiftLeft_eq]

theorem toNat_and_ffff (x : BitVec 32) : (x &&& 0xffff).toNat = x.toNat % 65536 := by
  rw [BitVec.toNat_and]
  exact Nat.and_two_pow_sub_one_eq_mod x.toNat 16

theorem toNat_high (x : BitVec 32) : (x.sshiftRight 16 &&& 0xffff).toNat = x.toNat / 65536 := by
  have hshift : (x.sshiftRight 16).toInt = x.toInt / 65536 := by
    rw [BitVec.toInt_sshiftRight, Int.shiftRight_eq_div_pow]
    rfl
  have hx : x.toNat < 4294967296 := x.isLt
  have hy : (x.sshiftRight 16).toNat < 4294967296 := (x.sshiftRight 16).isLt
  rw [BitVec.toInt_eq_toNat_cond, BitVec.toInt_eq_toNat_cond] at hshift
  rw [toNat_and_ffff]
  split_ifs at hshift <;> omega

theorem words_append {xs : List Byte} (ys : List Byte) (h : 2 ∣ xs.length) :
    words (xs ++ ys) = words xs ++ words ys := by
  induction xs using words.induct with
  | case1 a b bs ih =>
    have hbs : 2 ∣ bs.length := by simpa [Nat.dvd_add_left (dvd_refl 2)] using h
    rw [List.cons_append, List.cons_append, words, ih hbs, words, List.cons_append]
  | case2 a => simp at h
  | case3 => rfl

theorem length_words (bs : List Byte) : (words bs).length = (bs.length + 1) / 2 := by
  induction bs using words.induct with
  | case1 a b bs ih =>
    simp only [words, List.length_cons, ih]
    omega
  | case2 a => simp [words]
  | case3 => simp [words]

@[simp] theorem words_short (x : BitVec 16) : words (short x) = [x] := by
  have hx : x.toNat < 65536 := x.isLt
  simp only [short, bytesOf, words, List.cons.injEq, and_true]
  apply BitVec.eq_of_toNat_eq
  rw [toNat_word, BitVec.toNat_ofNat, BitVec.toNat_ofNat]
  omega

@[simp] theorem words_int (x : BitVec 32) : words (int x) =
    [(x.sshiftRight 16 &&& 0xffff).setWidth 16, (x &&& 0xffff).setWidth 16] := by
  have hx : x.toNat < 4294967296 := x.isLt
  simp only [int, bytesOf, words, List.cons.injEq, and_true]
  constructor <;> apply BitVec.eq_of_toNat_eq
  · rw [toNat_word, BitVec.toNat_ofNat, BitVec.toNat_ofNat, BitVec.toNat_setWidth, toNat_high]
    omega
  · rw [toNat_word, BitVec.toNat_ofNat, BitVec.toNat_ofNat, BitVec.toNat_setWidth, toNat_and_ffff]
    omega

end Words

section Sums

def wordSum (shorts : List (BitVec 16)) : ℕ := (shorts.map BitVec.toNat).sum

@[simp] theorem wordSum_nil : wordSum [] = 0 := rfl

@[simp] theorem wordSum_cons (s : BitVec 16) (shorts : List (BitVec 16)) :
    wordSum (s :: shorts) = s.toNat + wordSum shorts := by
  simp [wordSum]

@[simp] theorem wordSum_append (xs ys : List (BitVec 16)) :
    wordSum (xs ++ ys) = wordSum xs + wordSum ys := by
  simp [wordSum]

theorem wordSum_le (shorts : List (BitVec 16)) : wordSum shorts ≤ shorts.length * 65535 := by
  induction shorts with
  | nil => rfl
  | cons s shorts ih =>
    have hs : s.toNat < 65536 := s.isLt
    rw [wordSum_cons, List.length_cons]
    omega

theorem toNat_accumulate (shorts : List (BitVec 16)) :
    (accumulate shorts).toNat = wordSum shorts % 2 ^ 32 := by
  have hfold : ∀ accumulation : BitVec 32, (shorts.foldl
      (fun accumulation s => accumulation + s.setWidth 32) accumulation).toNat =
        (accumulation.toNat + wordSum shorts) % 2 ^ 32 := by
    induction shorts with
    | nil =>
      intro accumulation
      have hlt : accumulation.toNat < 2 ^ 32 := accumulation.isLt
      rw [List.foldl_nil, wordSum_nil]
      omega
    | cons s shorts ih =>
      intro accumulation
      have hs : s.toNat < 65536 := s.isLt
      rw [List.foldl_cons, ih, wordSum_cons, BitVec.toNat_add, BitVec.toNat_setWidth]
      omega
  rw [accumulate, hfold]
  simp

theorem toNat_checksumOf {shorts : List (BitVec 16)} (h : wordSum shorts < 2 ^ 32) :
    (checksumOf shorts).toNat = complement 65536 (foldOnce 65536 (wordSum shorts)) := by
  have hsum : (accumulate shorts).toNat = wordSum shorts := by
    rw [toNat_accumulate, Nat.mod_eq_of_lt h]
  rw [checksumOf, BitVec.toNat_setWidth, toNat_and_ffff, BitVec.toNat_not, BitVec.toNat_add,
    toNat_high, toNat_and_ffff, hsum, complement, foldOnce]
  omega

end Sums

section Verifying

def Verifies (shorts : List (BitVec 16)) : Prop :=
  onesSum 65536 (shorts.map BitVec.toNat) = 0xffff

instance (shorts : List (BitVec 16)) : Decidable (Verifies shorts) :=
  inferInstanceAs (Decidable (_ = _))

def NoSecondCarry (shorts : List (BitVec 16)) : Prop := foldOnce 65536 (wordSum shorts) < 65536

instance (shorts : List (BitVec 16)) : Decidable (NoSecondCarry shorts) :=
  inferInstanceAs (Decidable (_ < _))

/-- What is summed with a checksum of zero is verified with the checksum of that sum if and only if
one carry was enough. -/
theorem verifies_filled_iff (pseudo pseudo' : List (BitVec 16)) {before after : List Byte}
    (heven : 2 ∣ before.length) (hpseudo : wordSum pseudo' = wordSum pseudo)
    {checksum : BitVec 16}
    (hchecksum : checksum = checksumOf (pseudo ++ words (before ++ (short 0 ++ after))))
    (hbound : wordSum (pseudo ++ words (before ++ (short 0 ++ after))) < 2 ^ 32) :
    Verifies (pseudo' ++ words (before ++ (short checksum ++ after))) ↔
      NoSecondCarry (pseudo ++ words (before ++ (short 0 ++ after))) := by
  have hdigits : ∀ d ∈ (pseudo' ++ words (before ++ (short checksum ++ after))).map BitVec.toNat,
      d < 65536 := by
    intro d hd
    obtain ⟨s, -, rfl⟩ := List.mem_map.mp hd
    exact s.isLt
  have hfield : ∀ x, wordSum (words (before ++ (short x ++ after))) =
      wordSum (words before) + (x.toNat + wordSum (words after)) := by
    intro x
    rw [words_append _ heven, words_append _ (by simp), words_short]
    simp
  have hsum : ((pseudo' ++ words (before ++ (short checksum ++ after))).map BitVec.toNat).sum =
      wordSum (pseudo ++ words (before ++ (short 0 ++ after))) +
        complement 65536 (foldOnce 65536
          (wordSum (pseudo ++ words (before ++ (short 0 ++ after))))) := by
    rw [← toNat_checksumOf hbound, ← hchecksum]
    change wordSum _ = _
    have hzero : (0 : BitVec 16).toNat = 0 := rfl
    rw [wordSum_append, wordSum_append, hpseudo, hfield, hfield, hzero]
    omega
  exact onesSum_complement_iff hdigits (by decide) hbound hsum

def pseudoHeader (parent : Option Parent) (length : ℕ) : List Byte :=
  match parent with
  | some (.IPv4 sourceAddress destinationAddress protocol) =>
    int sourceAddress ++ int destinationAddress ++ [0, protocol] ++ short (BitVec.ofNat 16 length)
  | some (.IPv6 sourceAddress destinationAddress nextHeader) =>
    address sourceAddress ++ address destinationAddress ++ int (BitVec.ofNat 32 length) ++
      [0, 0, 0, nextHeader]
  | some .other | none => []

theorem even_length_pseudoHeader (parent : Option Parent) (length : ℕ) :
    2 ∣ (pseudoHeader parent length).length := by
  cases parent with
  | none => exact dvd_zero 2
  | some parent => cases parent <;> simp [pseudoHeader]

theorem wordSum_pseudoHeader (parent : Option Parent) (length : ℕ) :
    wordSum (words (pseudoHeader parent length)) =
      wordSum (pseudoHeaderShorts parent (BitVec.ofNat 32 length)) := by
  have hbyte : ∀ b : Byte, words [0, b] = [b.setWidth 16] := by
    intro b
    have hb : b.toNat < 256 := b.isLt
    simp only [words, List.cons.injEq, and_true]
    apply BitVec.eq_of_toNat_eq
    rw [toNat_word, BitVec.toNat_setWidth]
    simp
    omega
  cases parent with
  | none => rfl
  | some parent =>
    cases parent with
    | IPv4 sourceAddress destinationAddress protocol =>
      have hlength : (BitVec.ofNat 32 length &&& 0xffff).setWidth 16 = BitVec.ofNat 16 length := by
        apply BitVec.eq_of_toNat_eq
        rw [BitVec.toNat_setWidth, toNat_and_ffff, BitVec.toNat_ofNat, BitVec.toNat_ofNat]
        omega
      rw [pseudoHeader, pseudoHeaderShorts, words_append _ (by simp), words_append _ (by simp),
        words_append _ (by simp), words_int, words_int, hbyte, words_short, hlength]
      rfl
    | IPv6 sourceAddress destinationAddress nextHeader =>
      have hthree : words [0, 0, 0, nextHeader] = 0 :: words [0, nextHeader] := rfl
      have hzero : (0 : BitVec 16).toNat = 0 := rfl
      rw [pseudoHeader, pseudoHeaderShorts, words_append _ (by simp), words_append _ (by simp),
        words_append _ (by simp), words_append _ (by simp), hthree, words_append _ (by simp),
        words_append _ (by simp)]
      simp only [wordSum_append, wordSum_cons, hzero]
      omega
    | other => rfl

theorem length_pseudoHeaderShorts (parent : Option Parent) (length : BitVec 32) :
    (pseudoHeaderShorts parent length).length ≤ 19 := by
  cases parent with
  | none => simp [pseudoHeaderShorts]
  | some parent => cases parent <;> simp [pseudoHeaderShorts, length_words]

theorem wordSum_lt (parent : Option Parent) (length : BitVec 32) {bs : List Byte}
    (h : bs.length ≤ 32767) :
    wordSum (pseudoHeaderShorts parent length ++ words bs) < 2 ^ 32 := by
  have hshorts := length_pseudoHeaderShorts parent length
  have hle := wordSum_le (pseudoHeaderShorts parent length ++ words bs)
  rw [List.length_append, length_words] at hle
  omega

end Verifying

section Emitting

theorem get_eq_ok {n : ℕ} {data bytes : List Byte} {bb : ReadBuffer}
    (h : (ByteBuffer.get n ⟨[], data, []⟩ : Result _) = .ok (bytes, bb)) : bytes = data.take n := by
  rw [ByteBuffer.get] at h
  split_ifs at h
  exact (Prod.mk.inj (Except.ok.inj h)).1.symm

theorem putAt_eq_ok {before old after bs data : List Byte} (hlen : bs.length = old.length)
    (h : (putAt (before ++ (old ++ after)) before.length bs : Result _) = .ok data) :
    data = before ++ (bs ++ after) := by
  rw [putAt_append hlen] at h
  exact (Except.ok.inj h).symm

theorem fillNew_exact_ok {size : ℤ} {chunks : List (List Byte)} {data : List Byte}
    (h : (fillNew size chunks : Result _) = .ok data) (hsize : size ≤ chunks.flatten.length) :
    data = chunks.flatten := by
  obtain ⟨hle, hdata⟩ := fillNew_eq_ok h
  have hnone : size.toNat - chunks.flatten.length = 0 := by omega
  rw [hdata, hnone, List.replicate_zero, List.append_nil]

theorem segment_verifies_iff {parent : Option Parent} {before after filled data : List Byte}
    {index : ℕ} (hindex : before.length = index) (heven : 2 ∣ index)
    (hfilled : filled = before ++ (short 0 ++ after)) (hlen : filled.length ≤ 32767)
    (hput : (putAt filled index (short (checksumOf
      (pseudoHeaderShorts parent (BitVec.ofNat 32 filled.length) ++ words filled))) : Result _) =
        .ok data) :
    Verifies (words (pseudoHeader parent data.length ++ data)) ↔
      NoSecondCarry (pseudoHeaderShorts parent (BitVec.ofNat 32 filled.length) ++ words filled) := by
  subst hindex hfilled
  have hdata := putAt_eq_ok (by simp) hput
  have hlength : data.length = (before ++ (short 0 ++ after)).length := by
    rw [hdata]
    simp
  rw [hlength, hdata, words_append _ (even_length_pseudoHeader parent _)]
  exact verifies_filled_iff _ _ heven (wordSum_pseudoHeader parent _) rfl (wordSum_lt _ _ hlen)

end Emitting

section IPv4

variable {P : Type}

theorem IPv4.header_flatten (p : IPv4 P) : ∃ before after, before.length = 10 ∧
    after.length = 8 + (p.options.getD []).length ∧
    p.header.flatten = before ++ (short p.checksum ++ after) := by
  refine ⟨(p.header.take 7).flatten, (p.header.drop 8).flatten, ?_, ?_, ?_⟩
  · simp [IPv4.header]
  · cases hoptions : p.options <;> simp [IPv4.header, hoptions]
    omega
  · simp [IPv4.header]

theorem IPv4.write_verifies_iff {p p' : IPv4 P} {payloadData : Option (List Byte)}
    {data : List Byte} (hzero : p.checksum = 0)
    (hlen : p.headerLength.toInt * 4 = 20 + (p.options.getD []).length)
    (hforty : (p.options.getD []).length ≤ 40) (h : p.write payloadData = .ok (p', data)) :
    Verifies (words (data.take (20 + (p.options.getD []).length))) ↔
      NoSecondCarry (words p.header.flatten) := by
  obtain ⟨filled, hfill, h⟩ := bind_eq_ok.mp h
  rw [if_pos hzero] at h
  obtain ⟨⟨bytes, bb⟩, hget, h⟩ := bind_eq_ok.mp h
  obtain ⟨put, hput, h⟩ := bind_eq_ok.mp h
  obtain ⟨-, rfl⟩ := Prod.mk.inj (Except.ok.inj h)
  obtain ⟨before, after, hbefore, hafter, hcontents⟩ := p.header_flatten
  obtain ⟨-, hfilled⟩ := fillNew_eq_ok hfill
  rw [List.flatten_append, hcontents, hzero] at hfilled
  simp only [List.append_assoc] at hfilled
  generalize payloadData.toList.flatten ++ _ = rest at hfilled
  have htake : ∀ x, (before ++ (short x ++ (after ++ rest))).take (20 + (p.options.getD []).length) =
      before ++ (short x ++ after) := by
    intro x
    rw [← List.append_assoc (short x), ← List.append_assoc, List.take_left']
    simp only [List.length_append, length_short]
    omega
  have hnat : (p.headerLength.toInt * 4).toNat = 20 + (p.options.getD []).length := by omega
  have hbytes := get_eq_ok hget
  rw [hfilled, hnat, htake] at hbytes
  rw [hfilled, ← hbefore] at hput
  rw [putAt_eq_ok (by simp) hput, htake, hcontents, hzero, hbytes]
  have hlength : (before ++ (short 0 ++ after)).length ≤ 32767 := by
    simp only [List.length_append, length_short]
    omega
  have heven : 2 ∣ before.length := by
    rw [hbefore]
    decide
  exact verifies_filled_iff [] [] heven rfl rfl (wordSum_lt none 0 hlength)

variable [IPacket P]

def IPv4.contents (p : IPv4 P) (payload : Option P) (payloadData : Option (List Byte)) :
    List (BitVec 16) :=
  words (p.prepared payload (payloadData.getD []).length).header.flatten

theorem IPv4.verifies_iff {p p' : IPv4 P} {payload : Option P} {payloadData : Option (List Byte)}
    {data : List Byte} (hpayload : serializePayload p.asParent p.payload = .ok (payload, payloadData))
    (hzero : p.checksum = 0) (hfour : 4 ∣ (p.options.getD []).length)
    (hforty : (p.options.getD []).length ≤ 40) (h : p.serialize = .ok (p', data)) :
    Verifies (words (data.take (20 + (p.options.getD []).length))) ↔
      NoSecondCarry (p.contents payload payloadData) := by
  rw [IPv4.serialize, hpayload] at h
  have hlen := IPv4.length_prepared payload (payloadData.getD []).length hfour hforty
  exact IPv4.write_verifies_iff (p := p.prepared payload (payloadData.getD []).length) hzero hlen
    hforty h

end IPv4

section UDP

variable {P : Type}

theorem UDP.header_flatten (p : UDP P) : ∃ before, before.length = 6 ∧
    p.header.flatten = before ++ short p.checksum := by
  refine ⟨(p.header.take 3).flatten, ?_, ?_⟩
  · simp [UDP.header]
  · simp [UDP.header]

def UDP.contents (parent : Option Parent) (p : UDP P) (payload : Option P)
    (payloadData : Option (List Byte)) : List (BitVec 16) :=
  pseudoHeaderShorts (parent.map (Parent.setProtocol UDP.PROTOCOL_UDP))
      (BitVec.ofNat 32 (8 + (payloadData.getD []).length)) ++
    words ((p.prepared payload (payloadData.getD []).length).header.flatten ++ payloadData.getD [])

theorem UDP.verifies_iff [IPacket P] {parent : Option Parent} {p p' : UDP P} {payload : Option P}
    {payloadData : Option (List Byte)} {data : List Byte}
    (hpayload : serializePayload .other p.payload = .ok (payload, payloadData))
    (hzero : p.checksum = 0) (hlen : 8 + (payloadData.getD []).length ≤ 32767)
    (h : p.serialize parent = .ok (p', data)) :
    Verifies (words (pseudoHeader (parent.map (Parent.setProtocol UDP.PROTOCOL_UDP)) data.length ++
      data)) ↔ NoSecondCarry (p.contents parent payload payloadData) := by
  rw [UDP.serialize, hpayload] at h
  change (p.prepared payload (payloadData.getD []).length).write parent payloadData = _ at h
  have hint : (p.prepared payload (payloadData.getD []).length).length.toInt =
      8 + (payloadData.getD []).length := by
    rw [UDP.prepared, toInt_ofNat_of_lt (by omega), Nat.cast_add]
    rfl
  have hzero' : (p.prepared payload (payloadData.getD []).length).checksum = 0 := hzero
  rw [UDP.contents]
  generalize p.prepared payload (payloadData.getD []).length = p at h hint hzero' ⊢
  obtain ⟨filled, hfill, h⟩ := bind_eq_ok.mp h
  rw [if_pos hzero'] at h
  obtain ⟨put, hput, h⟩ := bind_eq_ok.mp h
  obtain ⟨-, rfl⟩ := Prod.mk.inj (Except.ok.inj h)
  obtain ⟨before, hbefore, hheader⟩ := p.header_flatten
  have hcontents : (p.header ++ payloadData.toList).flatten =
      before ++ (short 0 ++ payloadData.getD []) := by
    rw [List.flatten_append, hheader, hzero', List.append_assoc]
    cases payloadData <;> simp
  have hfilled : filled = before ++ (short 0 ++ payloadData.getD []) := by
    rw [← hcontents]
    apply fillNew_exact_ok hfill
    rw [hcontents, hint]
    simp only [List.length_append, length_short]
    omega
  have hlength : filled.length = 8 + (payloadData.getD []).length := by
    rw [hfilled]
    simp only [List.length_append, length_short]
    omega
  have hextend : p.length.signExtend 32 = BitVec.ofNat 32 filled.length := by
    rw [BitVec.signExtend, hint, hlength]
    rfl
  rw [hextend] at hput
  rw [segment_verifies_iff hbefore (by decide) hfilled (by omega) hput, hheader, hzero', hfilled,
    List.append_assoc, ← hlength, hfilled]

end UDP

section TCP

variable {P : Type}

theorem TCP.header_flatten (p : TCP P) : ∃ before after, before.length = 16 ∧ after.length = 2 ∧
    p.header.flatten = before ++ (short p.checksum ++ after) := by
  refine ⟨(p.header.take 6).flatten, (p.header.drop 7).flatten, ?_, ?_, ?_⟩
  · simp [TCP.header]
  · simp [TCP.header]
  · simp [TCP.header]

theorem TCP.length_optionsAndPadding {p : TCP P} {options : List (List Byte)}
    (h : p.optionsAndPadding = .ok options) :
    p.dataOffset.toInt * 4 ≤ 20 + options.flatten.length := by
  rw [TCP.optionsAndPadding] at h
  split_ifs at h with hlonger
  · cases hoptions : p.options with
    | none =>
      rw [hoptions] at h
      cases h
    | some bytes =>
      rw [hoptions] at h
      cases Except.ok.inj h
      rw [List.flatten_cons, List.flatten_replicate_singleton, List.length_append,
        List.length_replicate]
      omega
  · cases Except.ok.inj h
    omega

def TCP.contents (parent : Option Parent) (p : TCP P) (payload : Option P)
    (options : List (List Byte)) (payloadData : Option (List Byte)) : List (BitVec 16) :=
  let data := (p.prepared payload).header.flatten ++ options.flatten ++ payloadData.getD []
  pseudoHeaderShorts (parent.map (Parent.setProtocol TCP.PROTOCOL_TCP))
    (BitVec.ofNat 32 data.length) ++ words data

theorem TCP.verifies_iff [IPacket P] {parent : Option Parent} {p p' : TCP P} {payload : Option P}
    {options : List (List Byte)} {payloadData : Option (List Byte)} {data : List Byte}
    (hpayload : serializePayload .other p.payload = .ok (payload, payloadData))
    (hoptions : (p.prepared payload).optionsAndPadding = .ok options)
    (hzero : p.checksum = 0)
    (hlen : (p.prepared payload).dataOffset.toInt * 4 + (payloadData.getD []).length ≤ 32767)
    (h : p.serialize parent = .ok (p', data)) :
    Verifies (words (pseudoHeader (parent.map (Parent.setProtocol TCP.PROTOCOL_TCP)) data.length ++
      data)) ↔ NoSecondCarry (p.contents parent payload options payloadData) := by
  rw [TCP.serialize, hpayload] at h
  change (p.prepared payload).write parent payloadData = _ at h
  have hzero' : (p.prepared payload).checksum = 0 := hzero
  rw [TCP.contents]
  generalize p.prepared payload = p at h hoptions hlen hzero' ⊢
  rw [TCP.write, hoptions] at h
  obtain ⟨options', hoptions', h⟩ := bind_eq_ok.mp h
  cases Except.ok.inj hoptions'
  obtain ⟨filled, hfill, h⟩ := bind_eq_ok.mp h
  rw [if_pos hzero'] at h
  obtain ⟨put, hput, h⟩ := bind_eq_ok.mp h
  obtain ⟨-, rfl⟩ := Prod.mk.inj (Except.ok.inj h)
  obtain ⟨before, after, hbefore, hafter, hheader⟩ := p.header_flatten
  have hreach := TCP.length_optionsAndPadding hoptions
  have hcontents : (p.header ++ options ++ payloadData.toList).flatten =
      before ++ (short 0 ++ (after ++ (options.flatten ++ payloadData.getD []))) := by
    rw [List.flatten_append, List.flatten_append, hheader, hzero']
    simp only [List.append_assoc]
    cases payloadData <;> simp
  have hint : intOf (p.dataOffset.toInt * 4 + (payloadData.getD []).length) =
      p.dataOffset.toInt * 4 + (payloadData.getD []).length := by
    have hbyte := BitVec.le_toInt p.dataOffset
    rw [intOf]
    exact Int.bmod_eq_of_le (by omega) (by omega)
  have hcount : (p.header ++ options ++ payloadData.toList).flatten.length =
      20 + options.flatten.length + (payloadData.getD []).length := by
    rw [hcontents]
    simp only [List.length_append, length_short]
    omega
  have hfilled : filled = before ++ (short 0 ++ (after ++ (options.flatten ++ payloadData.getD []))) := by
    rw [← hcontents]
    apply fillNew_exact_ok hfill
    rw [hcount, hint]
    omega
  have hlength : p.dataOffset.toInt * 4 + (payloadData.getD []).length = filled.length := by
    have hle := (fillNew_eq_ok hfill).1
    rw [hcount, hint] at hle
    rw [hfilled, ← hcontents, hcount]
    omega
  rw [hint, hlength] at hput
  rw [segment_verifies_iff hbefore (by decide) hfilled (by omega) hput, hheader, hzero', hfilled]
  simp only [List.append_assoc]

end TCP

section Claims

/-- An IPv4 header, a datagram and a segment that leave with a checksum computed for them are
verified by their receivers if and only if one carry was enough for the sum of their words. -/
theorem emitted_verifies_iff {P : Type} [IPacket P] (payload : Option P)
    (payloadData : Option (List Byte)) (data : List Byte) :
    (∀ p p' : IPv4 P, serializePayload p.asParent p.payload = .ok (payload, payloadData) →
      p.checksum = 0 → 4 ∣ (p.options.getD []).length → (p.options.getD []).length ≤ 40 →
      p.serialize = .ok (p', data) →
      (Verifies (words (data.take (20 + (p.options.getD []).length))) ↔
        NoSecondCarry (p.contents payload payloadData))) ∧
    (∀ (parent : Option Parent) (p p' : UDP P),
      serializePayload .other p.payload = .ok (payload, payloadData) →
      p.checksum = 0 → 8 + (payloadData.getD []).length ≤ 32767 →
      p.serialize parent = .ok (p', data) →
      (Verifies (words (pseudoHeader (parent.map (Parent.setProtocol UDP.PROTOCOL_UDP)) data.length ++
        data)) ↔ NoSecondCarry (p.contents parent payload payloadData))) ∧
    (∀ (parent : Option Parent) (p p' : TCP P) (options : List (List Byte)),
      serializePayload .other p.payload = .ok (payload, payloadData) →
      (p.prepared payload).optionsAndPadding = .ok options → p.checksum = 0 →
      (p.prepared payload).dataOffset.toInt * 4 + (payloadData.getD []).length ≤ 32767 →
      p.serialize parent = .ok (p', data) →
      (Verifies (words (pseudoHeader (parent.map (Parent.setProtocol TCP.PROTOCOL_TCP)) data.length ++
        data)) ↔ NoSecondCarry (p.contents parent payload options payloadData))) := by
  refine ⟨?_, ?_, ?_⟩
  · intro p p' hpayload hzero hfour hforty h
    exact IPv4.verifies_iff hpayload hzero hfour hforty h
  · intro parent p p' hpayload hzero hlen h
    exact UDP.verifies_iff hpayload hzero hlen h
  · intro parent p p' options hpayload hoptions hzero hlen h
    exact TCP.verifies_iff hpayload hoptions hzero hlen h

def emptyPacket (identification : BitVec 16) : IPv4 Data where
  version := 4
  headerLength := 0
  diffServ := 0
  totalLength := 0
  identification := identification
  flags := 0
  fragmentOffset := 0
  ttl := 64
  protocol := 0x11
  checksum := 0
  sourceAddress := 0xc0a80001
  destinationAddress := 0xc0a80002
  options := none
  isTruncated := false
  payload := none

def oddDatagram : UDP Data where
  sourcePort := 5000
  destinationPort := 6000
  length := 0
  checksum := 0
  payload := some ⟨[1, 2, 3]⟩

theorem emitted_verifies_iff_emptyPacket :
    (∃ p' data, (emptyPacket 0).serialize = .ok (p', data) ∧ Verifies (words (data.take 20))) ∧
    ∃ p' data, oddDatagram.serialize (some (emptyPacket 0).asParent) = .ok (p', data) ∧
      Verifies (words (pseudoHeader (some (emptyPacket 0).asParent) data.length ++ data)) := by
  constructor
  · refine ⟨_, _, rfl, ?_⟩
    exact ((emitted_verifies_iff none none _).1 (emptyPacket 0) _ rfl rfl (by decide) (by decide)
      rfl).mpr (by decide)
  · refine ⟨_, _, rfl, ?_⟩
    exact ((emitted_verifies_iff (some ⟨[1, 2, 3]⟩) (some [1, 2, 3]) _).2.1
      (some (emptyPacket 0).asParent) oddDatagram _ rfl rfl (by decide) rfl).mpr (by decide)

/-- Two carries are needed, and the second one is lost. -/
theorem second_carry_lost : ¬ ∀ (p p' : IPv4 Data) (data : List Byte),
    p.checksum = 0 → p.options = none → p.serialize = .ok (p', data) →
      Verifies (words (data.take 20)) := by
  intro h
  have hverifies := h (emptyPacket 0xf986) _ _ rfl rfl rfl
  revert hverifies
  decide

end Claims

end IpPackets

import Onos.GroupMessages
import Onos.PacketChecksum

/-! IGMP messages that are written and read back: their checksums, and which of them come back as
they were. -/
namespace GroupMessages

open BufferReaders ByteBuffer FallibleRun IpAddresses IpPackets Packets WireBytes

section Summing

theorem words_zeros (n : ℕ) : wordSum (words (List.replicate n 0)) = 0 := by
  induction n using Nat.twoStepInduction with
  | zero => rfl
  | one => rfl
  | more n ih _ =>
    rw [List.replicate_succ, List.replicate_succ, words, wordSum_cons, ih]
    rfl

theorem wordSum_padded (bs : List Byte) (n : ℕ) :
    wordSum (words (bs ++ List.replicate n 0)) = wordSum (words bs) := by
  induction bs using words.induct with
  | case1 a b bs ih =>
    rw [List.cons_append, List.cons_append, words, words, wordSum_cons, wordSum_cons, ih]
  | case2 a =>
    cases n with
    | zero => rfl
    | succ n =>
      rw [List.replicate_succ, List.singleton_append, words, wordSum_cons, words_zeros]
      simp [words]
  | case3 => exact words_zeros n

theorem checksumOf_congr {xs ys : List (BitVec 16)} (h : wordSum xs = wordSum ys) :
    checksumOf xs = checksumOf ys := by
  have hsum : accumulate xs = accumulate ys := by
    apply BitVec.eq_of_toNat_eq
    rw [toNat_accumulate, toNat_accumulate, h]
  rw [checksumOf, checksumOf, hsum]

theorem checksumOf_padded (bs : List Byte) (n : ℕ) :
    checksumOf (words (bs ++ List.replicate n 0)) = checksumOf (words bs) :=
  checksumOf_congr (wordSum_padded bs n)

theorem flatten_words {bs : List Byte} (h : 2 ∣ bs.length) : ((words bs).map short).flatten = bs := by
  induction bs using words.induct with
  | case1 a b bs ih =>
    have hbs : 2 ∣ bs.length := by simpa [Nat.dvd_add_left (dvd_refl 2)] using h
    have hword : short (a ++ b : BitVec 16) = [a, b] := by
      have hvalue : (a ++ b : BitVec 16).toNat = valueOf [a, b] := by
        rw [toNat_word]
        simp [valueOf]
      rw [short, hvalue]
      exact bytesOf_valueOf [a, b]
    rw [words, List.map_cons, List.flatten_cons, ih hbs, hword]
    rfl
  | case2 a => simp at h
  | case3 => rfl

theorem times_getShort (xs ys : List Byte) {n : ℕ} (h : xs.length = 2 * n) :
    (times (fun _ => getShort) n : Reader DeserializationException _) ⟨[], xs ++ ys, []⟩ =
      .ok (words xs, ⟨xs, ys, []⟩) := by
  have heven : 2 ∣ xs.length := by omega
  have hlen : (words xs).length = n := by
    rw [length_words]
    omega
  have hread := times_append (χ := DeserializationException) (x := fun _ => getShort) short [] ys
    (words xs) (fun before a as' _ => getShort_append before _ [] a) []
  rwa [flatten_words heven, hlen, List.nil_append] at hread

theorem times_getShort_underflow (n : ℕ) {b : ReadBuffer} (h : b.remaining < 2 * n) :
    (times (fun _ => getShort) n : Reader DeserializationException _) b = .error .bufferUnderflow := by
  induction n generalizing b with
  | zero => omega
  | succ n ih =>
    by_cases htwo : 2 ≤ b.remaining
    · have hfirst : (getShort : Reader DeserializationException _) b =
          .ok (ofBytes 16 (b.rest.take 2), b.advance 2) := by
        rw [getShort, bind_apply, ByteBuffer.get, if_pos htwo]
        rfl
      rw [times_succ hfirst, ih (by rw [remaining_advance]; omega)]
      rfl
    · rw [times, getShort, bind_apply, bind_apply, ByteBuffer.get, if_neg htwo]
      rfl

end Summing

section Written

def IGMP.headerBytes (p : IGMP) (checksum : BitVec 16) : List Byte :=
  [p.igmpType, p.resField] ++ short checksum

/-- The checksum is filled in if it is zero and the array has four times as many bytes as the
message; one that is not zero is left out. -/
theorem serialize_eq {p : IGMP} {contents : List (List Byte)} (hc : p.contents = .ok contents)
    (hsize : 4 + contents.flatten.length ≤ scratchLength) :
    p.serialize =
      if p.checksum = 0 then
        if 4 * (4 + contents.flatten.length) ≤ scratchLength then
          let checksum := checksumOf (words (p.headerBytes 0 ++ contents.flatten))
          .ok (p.setChecksum checksum, p.headerBytes checksum ++ contents.flatten)
        else .error .bufferUnderflow
      else .ok (p, p.headerBytes 0 ++ contents.flatten) := by
  generalize hrest : contents.flatten = rest at hsize ⊢
  have hflat : ([p.igmpType] :: [p.resField] :: short 0 :: contents).flatten =
      p.headerBytes 0 ++ rest := by
    rw [← hrest]
    simp [IGMP.headerBytes]
  have hlen : ∀ x, (p.headerBytes x ++ rest).length = 4 + rest.length := by
    intro x
    simp [IGMP.headerBytes]
    omega
  have hfill : (fillNew scratchLength ([p.igmpType] :: [p.resField] :: short 0 :: contents) : Result _) =
      .ok (p.headerBytes 0 ++ rest ++ List.replicate (scratchLength - (4 + rest.length)) 0) := by
    rw [fillNew_of_le, hflat, hlen]
    · simp
    · rw [hflat, hlen]
      exact_mod_cast hsize
  have htake : ∀ x, (p.headerBytes x ++ rest ++
      List.replicate (scratchLength - (4 + rest.length)) 0).take (4 + rest.length) =
        p.headerBytes x ++ rest := by
    intro x
    rw [← hlen x, List.take_left]
  unfold IGMP.serialize
  simp only [hc, hfill, hflat, hlen, bind, Except.bind]
  by_cases hzero : p.checksum = 0
  · rw [if_pos hzero, if_pos hzero]
    by_cases hfour : 4 * (4 + rest.length) ≤ scratchLength
    · have hsplit : p.headerBytes 0 ++ rest ++ List.replicate (scratchLength - (4 + rest.length)) 0 =
          (p.headerBytes 0 ++ rest ++ List.replicate (3 * (4 + rest.length)) 0) ++
            List.replicate (scratchLength - 4 * (4 + rest.length)) 0 := by
        rw [List.append_assoc (p.headerBytes 0 ++ rest) (List.replicate _ 0), ← List.replicate_add]
        congr 2
        omega
      have hread := times_getShort (p.headerBytes 0 ++ rest ++
        List.replicate (3 * (4 + rest.length)) 0)
        (List.replicate (scratchLength - 4 * (4 + rest.length)) 0) (n := (4 + rest.length) * 2)
        (by rw [List.length_append, hlen, List.length_replicate]; omega)
      have hput : (putAt (p.headerBytes 0 ++ rest ++
          List.replicate (scratchLength - (4 + rest.length)) 0) 2
          (short (checksumOf (words (p.headerBytes 0 ++ rest)))) : Result _) =
            .ok (p.headerBytes (checksumOf (words (p.headerBytes 0 ++ rest))) ++ rest ++
              List.replicate (scratchLength - (4 + rest.length)) 0) := by
        have htwo : 2 = [p.igmpType, p.resField].length := rfl
        unfold IGMP.headerBytes
        rw [List.append_assoc, List.append_assoc, htwo, putAt_append (by simp)]
        simp
      rw [← hsplit] at hread
      rw [if_pos hfour, run'_of_ok hread]
      simp only [checksumOf_padded, hput, htake]
      rfl
    · rw [if_neg hfour]
      have hunder := times_getShort_underflow ((4 + rest.length) * 2)
        (b := ⟨[], p.headerBytes 0 ++ rest ++ List.replicate (scratchLength - (4 + rest.length)) 0, []⟩)
        (by
          unfold ReadBuffer.remaining
          rw [List.length_append, hlen, List.length_replicate]
          omega)
      rw [StateT.run', hunder]
      rfl
  · rw [if_neg hzero, if_neg hzero, htake]
    rfl

end Written

section Addresses

variable (before ys beyond : List Byte)

theorem getIp4Address_append {a : IpAddress} (h : a.isIp4 = true) :
    getIp4Address ⟨before, a.toOctets ++ ys, beyond⟩ =
      .ok (a, ⟨before ++ a.toOctets, ys, beyond⟩) := by
  cases a with
  | INET octets => exact bind_of_ok (getInt_append before ys beyond octets)
  | INET6 octets => cases h

theorem isIp4_of_get {b b' : ReadBuffer} {a : IpAddress} (h : getIp4Address b = .ok (a, b')) :
    a.isIp4 = true := by
  obtain ⟨octets, c, -, h⟩ := bind_apply_eq_ok h
  cases h
  rfl

theorem length_octetsOf (sources : List IpAddress) : 4 * sources.length ≤ (octetsOf sources).length := by
  induction sources with
  | nil => exact Nat.le_refl 0
  | cons a sources ih =>
    have ha : 4 ≤ a.toOctets.length := by
      cases a <;> simp [IpAddress.toOctets]
    have hcons : octetsOf (a :: sources) = a.toOctets ++ octetsOf sources := rfl
    rw [hcons, List.length_append, List.length_cons]
    omega

theorem toInt_count {α : Type} {xs : List α} (h : xs.length < 32768) :
    (BitVec.ofNat 16 xs.length).toInt.toNat = xs.length := by
  rw [toInt_ofNat_of_lt (by omega)]
  rfl

theorem getCount_append {α : Type} (xs : List α) :
    (getShort : Reader DeserializationException _) ⟨before, countOf xs ++ ys, beyond⟩ =
      .ok (BitVec.ofNat 16 xs.length, ⟨before ++ countOf xs, ys, beyond⟩) :=
  getShort_append before ys beyond _

theorem getSource_append {a : IpAddress} {n : ℕ} (h : a.isIp4 = true) (hn : 4 * n ≤ 4 + ys.length)
    (hpos : 0 < n) (hint : 4 * n < 2 ^ 31) :
    getSource n ⟨before, a.toOctets ++ ys, beyond⟩ =
      .ok (a, ⟨before ++ a.toOctets, ys, beyond⟩) := by
  have hlen := IpAddress.length_toOctets_of_isIp4 h
  have hcheck : checkBufferLength (a.toOctets ++ ys).length 0 (4 * n) = .ok () := by
    unfold checkBufferLength
    rw [List.length_append, hlen, if_pos]
    rw [zero_add, intOf_of_lt (by omega) (by omega)]
    omega
  refine (bind_of_ok (getRemaining_apply _)).trans ((bind_of_ok (lift_of_ok hcheck _)).trans ?_)
  exact getIp4Address_append before ys beyond h

theorem isIp4_of_getSource {n : ℕ} {b b' : ReadBuffer} {a : IpAddress}
    (h : getSource n b = .ok (a, b')) : a.isIp4 = true := by
  obtain ⟨remaining, c, -, h⟩ := bind_apply_eq_ok h
  obtain ⟨_, c', -, h⟩ := bind_apply_eq_ok h
  exact isIp4_of_get h

theorem times_getIp4Address {sources : List IpAddress} (h : ∀ a ∈ sources, a.isIp4 = true) :
    times (fun _ => getIp4Address) sources.length ⟨before, octetsOf sources ++ ys, beyond⟩ =
      .ok (sources, ⟨before ++ octetsOf sources, ys, beyond⟩) := by
  refine times_append IpAddress.toOctets beyond ys sources ?_ before
  intro before a as' hsuffix
  exact getIp4Address_append before _ beyond (h a (hsuffix.subset List.mem_cons_self))

theorem times_getSource {sources : List IpAddress} (h : ∀ a ∈ sources, a.isIp4 = true)
    (hlen : sources.length < 32768) :
    times getSource sources.length ⟨before, octetsOf sources ++ ys, beyond⟩ =
      .ok (sources, ⟨before ++ octetsOf sources, ys, beyond⟩) := by
  refine times_append IpAddress.toOctets beyond ys sources ?_ before
  intro before a as' hsuffix
  have hle := hsuffix.length_le
  have hoctets := length_octetsOf as'
  rw [List.length_cons] at hle
  apply getSource_append before _ beyond (h a (hsuffix.subset List.mem_cons_self))
  · rw [List.length_append]
    change _ ≤ 4 + ((octetsOf as').length + _)
    omega
  · omega
  · omega

end Addresses

section Groups

def IGMPQuery.encode (q : IGMPQuery) : List Byte :=
  q.gaddr.toOctets ++ ((0x7 &&& q.qrv) :: q.qqic :: (countOf q.sources ++ octetsOf q.sources))

def IGMPMembership.encode (m : IGMPMembership) : List Byte :=
  m.recordType :: m.auxDataLength :: (countOf m.sources ++ (int m.gaddr ++ octetsOf m.sources))

theorem and_7_and_8 (qrv : Byte) : ¬ (0x7 &&& qrv) &&& 0x8 = 0x8 := by
  revert qrv
  decide

theorem and_7_and_7 (qrv : Byte) : (0x7 &&& qrv) &&& 0x7 = qrv &&& 0x7 := by
  revert qrv
  decide

/-- A query that was written with IPv4 addresses comes back without its S flag, and with three bits
of its robustness variable. -/
theorem IGMPQuery.deserialize_encode (before beyond : List Byte) {q : IGMPQuery}
    (hg : q.gaddr.isIp4 = true) (hs : ∀ a ∈ q.sources, a.isIp4 = true)
    (hlen : q.sources.length < 32768) :
    IGMPQuery.deserialize ⟨before, q.encode, beyond⟩ =
      .ok ({ q with sbit := false, qrv := q.qrv &&& 0x7 }, ⟨before ++ q.encode, [], beyond⟩) := by
  have hcount := toInt_count hlen
  have hoctets := length_octetsOf q.sources
  have hsign : (BitVec.ofNat 16 q.sources.length).toInt = q.sources.length :=
    toInt_ofNat_of_lt (by omega)
  have hcheck : checkHeaderLength
      (ReadBuffer.remaining ⟨before ++ q.gaddr.toOctets ++ [0x7 &&& q.qrv] ++ [q.qqic] ++
        countOf q.sources, octetsOf q.sources, beyond⟩)
      (4 * (BitVec.ofNat 16 q.sources.length).toInt) = .ok () := by
    rw [checkHeaderLength, if_neg]
    rw [hsign, remaining_mk]
    omega
  have hsources := times_getIp4Address
    (before ++ q.gaddr.toOctets ++ [0x7 &&& q.qrv] ++ [q.qqic] ++ countOf q.sources) [] beyond hs
  rw [List.append_nil] at hsources
  unfold IGMPQuery.encode IGMPQuery.deserialize
  rw [bind_of_ok (getIp4Address_append _ _ _ hg), bind_of_ok (getByte_cons _ _ _ _),
    bind_of_ok (getByte_cons _ _ _ _), bind_of_ok (getCount_append _ _ _ _),
    bind_of_ok (getRemaining_apply _), bind_of_ok (lift_of_ok hcheck _), hcount,
    bind_of_ok hsources]
  simp only [pure_apply, and_7_and_8, and_7_and_7, decide_false, List.append_assoc,
    List.cons_append, List.nil_append]

theorem isIp4_of_query {b b' : ReadBuffer} {q : IGMPQuery} (h : IGMPQuery.deserialize b = .ok (q, b')) :
    q.gaddr.isIp4 = true ∧ ∀ a ∈ q.sources, a.isIp4 = true := by
  obtain ⟨gaddr, b₁, hg, h⟩ := bind_apply_eq_ok h
  obtain ⟨fld, b₂, -, h⟩ := bind_apply_eq_ok h
  obtain ⟨qqic, b₃, -, h⟩ := bind_apply_eq_ok h
  obtain ⟨nsrcs, b₄, -, h⟩ := bind_apply_eq_ok h
  obtain ⟨remaining, b₅, -, h⟩ := bind_apply_eq_ok h
  obtain ⟨_, b₆, -, h⟩ := bind_apply_eq_ok h
  obtain ⟨sources, b₇, hs, h⟩ := bind_apply_eq_ok h
  cases h
  refine ⟨isIp4_of_get hg, ?_⟩
  intro a ha
  obtain ⟨m, c, c', hget⟩ := (times_eq_ok hs).2 a ha
  exact isIp4_of_get hget

theorem IGMPMembership.deserialize_encode (before ys beyond : List Byte) {m : IGMPMembership}
    (hs : ∀ a ∈ m.sources, a.isIp4 = true) (haux : m.auxDataLength = 0 ∧ m.auxData = none)
    (hlen : m.sources.length < 32768) :
    IGMPMembership.deserialize ⟨before, m.encode ++ ys, beyond⟩ =
      .ok (m, ⟨before ++ m.encode, ys, beyond⟩) := by
  have hsources := times_getSource (before ++ [m.recordType] ++ [m.auxDataLength] ++
    countOf m.sources ++ int m.gaddr) ys beyond hs hlen
  have hcheck : checkBufferLength (ReadBuffer.remaining ⟨before, m.encode ++ ys, beyond⟩) 0 8 =
      .ok () := by
    have hlength : 8 ≤ (m.encode ++ ys).length := by
      simp [IGMPMembership.encode, countOf]
      omega
    rw [checkBufferLength, remaining_mk, if_pos]
    rw [zero_add, intOf_of_lt (by omega) (by omega)]
    omega
  have hbytes : m.encode ++ ys = m.recordType :: m.auxDataLength ::
      (countOf m.sources ++ (int m.gaddr ++ (octetsOf m.sources ++ ys))) := by
    simp [IGMPMembership.encode]
  rw [IGMPMembership.deserialize, bind_of_ok (getRemaining_apply _),
    bind_of_ok (lift_of_ok hcheck _), hbytes, bind_of_ok (getByte_cons _ _ _ _),
    bind_of_ok (getByte_cons _ _ _ _), bind_of_ok (getCount_append _ _ _ _),
    bind_of_ok (getInt_append _ _ _ _), toInt_count hlen, bind_of_ok hsources, if_neg]
  · obtain ⟨gaddr, sources, recordType, auxDataLength, auxData⟩ := m
    cases haux.2
    simp [IGMPMembership.encode]
  · rw [haux.1]
    decide

theorem isIp4_of_membership {b b' : ReadBuffer} {m : IGMPMembership}
    (h : IGMPMembership.deserialize b = .ok (m, b')) : ∀ a ∈ m.sources, a.isIp4 = true := by
  obtain ⟨remaining, b₁, -, h⟩ := bind_apply_eq_ok h
  obtain ⟨_, b₂, -, h⟩ := bind_apply_eq_ok h
  obtain ⟨recordType, b₃, -, h⟩ := bind_apply_eq_ok h
  obtain ⟨auxDataLength, b₄, -, h⟩ := bind_apply_eq_ok h
  obtain ⟨nsrcs, b₅, -, h⟩ := bind_apply_eq_ok h
  obtain ⟨gaddr, b₆, -, h⟩ := bind_apply_eq_ok h
  obtain ⟨sources, b₇, hs, h⟩ := bind_apply_eq_ok h
  have hsources : ∀ a ∈ sources, a.isIp4 = true := by
    intro a ha
    obtain ⟨m, c, c', hget⟩ := (times_eq_ok hs).2 a ha
    exact isIp4_of_getSource hget
  split at h
  · obtain ⟨auxData, b₈, -, h⟩ := bind_apply_eq_ok h
    cases h
    exact hsources
  · cases h
    exact hsources

end Groups

section Returning

/-- The message is written with a checksum that verifies, and it is read back as it is then. -/
def IGMP.RoundTrips (p : IGMP) : Prop :=
  ∃ p' data, p.serialize = .ok (p', data) ∧ Verifies (words data) ∧
    ∃ r, IGMP.deserializer data 0 data.length = .ok r ∧ r.Same p'

def IGMP.ReadsBack (p : IGMP) (checksum : BitVec 16) (rest : List Byte) : Prop :=
  ∃ r b, readBody p.igmpType p.resField checksum (p.headerBytes checksum ++ rest) 0
    (p.headerBytes checksum ++ rest).length ⟨p.headerBytes checksum, rest, []⟩ = .ok (r, b) ∧
      r.Same (p.setChecksum checksum)

theorem IGMP.Same.checksum {p q : IGMP} (h : p.Same q) : p.checksum = q.checksum := by
  have hfields : { p with unsupportTypeData := q.unsupportTypeData } = q := h
  rw [← hfields]

theorem IGMP.Same.groups {p q : IGMP} (h : p.Same q) : p.groups = q.groups := by
  have hfields : { p with unsupportTypeData := q.unsupportTypeData } = q := h
  rw [← hfields]

theorem length_headerBytes (p : IGMP) (checksum : BitVec 16) (rest : List Byte) :
    (p.headerBytes checksum ++ rest).length = 4 + rest.length := by
  simp [IGMP.headerBytes]
  omega

theorem deserializer_headerBytes (p : IGMP) (checksum : BitVec 16) {rest : List Byte}
    (hmin : 4 ≤ rest.length) (hmax : 4 + rest.length ≤ scratchLength) :
    IGMP.deserializer (p.headerBytes checksum ++ rest) 0 (p.headerBytes checksum ++ rest).length =
      (readBody p.igmpType p.resField checksum (p.headerBytes checksum ++ rest) 0
        (p.headerBytes checksum ++ rest).length).run' ⟨p.headerBytes checksum, rest, []⟩ := by
  have hlength := length_headerBytes p checksum rest
  have hheader : p.headerBytes checksum ++ rest =
      p.igmpType :: p.resField :: (short checksum ++ rest) := by
    simp [IGMP.headerBytes]
  have hread : ∀ data : List Byte, IGMP.read data 0 data.length
      ⟨[], p.headerBytes checksum ++ rest, []⟩ =
        readBody p.igmpType p.resField checksum data 0 data.length
          ⟨p.headerBytes checksum, rest, []⟩ := by
    intro data
    rw [hheader, IGMP.read, bind_of_ok (getByte_cons _ _ _ _), bind_of_ok (getByte_cons _ _ _ _),
      bind_of_ok (getShort_append _ _ _ _)]
    rfl
  have hwhole := @deserialize_whole _
    (IGMP.read (p.headerBytes checksum ++ rest) 0 (p.headerBytes checksum ++ rest).length)
    (p.headerBytes checksum ++ rest) HEADER_LENGTH (by decide)
    (by rw [hlength]; unfold scratchLength at hmax; omega)
    (by rw [hlength]; unfold HEADER_LENGTH; omega)
  rw [IGMP.deserializer, hwhole, StateT.run', StateT.run', hread]

theorem checksum_of_readBody {igmpType resField : Byte} {checksum : BitVec 16} {data : List Byte}
    {offset length : ℤ} {b b' : ReadBuffer} {r : IGMP}
    (h : readBody igmpType resField checksum data offset length b = .ok (r, b')) :
    r.checksum = checksum := by
  unfold readBody at h
  split_ifs at h
  · obtain ⟨gaddr, b₁, -, h⟩ := bind_apply_eq_ok h
    obtain ⟨_, b₂, -, h⟩ := bind_apply_eq_ok h
    cases h
    rfl
  · obtain ⟨_, b₁, -, h⟩ := bind_apply_eq_ok h
    obtain ⟨groups, b₂, -, h⟩ := bind_apply_eq_ok h
    cases h
    rfl

theorem verifies_headerBytes_iff (p : IGMP) {rest : List Byte}
    (hmax : 4 + rest.length ≤ scratchLength) :
    Verifies (words (p.headerBytes (checksumOf (words (p.headerBytes 0 ++ rest))) ++ rest)) ↔
      NoSecondCarry (words (p.headerBytes 0 ++ rest)) := by
  have hbound : wordSum (words (p.headerBytes 0 ++ rest)) < 2 ^ 32 := by
    have hle := wordSum_le (words (p.headerBytes 0 ++ rest))
    rw [length_words, length_headerBytes] at hle
    unfold scratchLength at hmax
    omega
  have hsplit : ∀ x, [p.igmpType, p.resField] ++ (short x ++ rest) = p.headerBytes x ++ rest := by
    intro x
    rw [IGMP.headerBytes, List.append_assoc]
  have hverifies := @verifies_filled_iff [] [] [p.igmpType, p.resField] rest (by simp) rfl
    (checksumOf (words (p.headerBytes 0 ++ rest)))
    (by rw [hsplit, List.nil_append]) (by rwa [hsplit, List.nil_append])
  rwa [hsplit, hsplit, List.nil_append, List.nil_append] at hverifies

/-- A message returns if its checksum is to be filled in, the loop that adds it up stays within the
array, one carry is enough for it, and what follows the header is read back. -/
theorem roundTrips_iff {p : IGMP} {contents : List (List Byte)} (hc : p.contents = .ok contents)
    (hmin : 4 ≤ contents.flatten.length) (hmax : 4 + contents.flatten.length ≤ scratchLength) :
    p.RoundTrips ↔ p.checksum = 0 ∧ 4 * (4 + contents.flatten.length) ≤ scratchLength ∧
      NoSecondCarry (words (p.headerBytes 0 ++ contents.flatten)) ∧
      p.ReadsBack (checksumOf (words (p.headerBytes 0 ++ contents.flatten))) contents.flatten := by
  have hserialize := serialize_eq hc hmax
  rw [IGMP.RoundTrips]
  by_cases hzero : p.checksum = 0
  · by_cases hfour : 4 * (4 + contents.flatten.length) ≤ scratchLength
    · rw [if_pos hzero, if_pos hfour] at hserialize
      constructor
      · rintro ⟨p', data, hdata, hverifies, r, hr, hsame⟩
        rw [hserialize] at hdata
        cases hdata
        rw [deserializer_headerBytes _ _ hmin hmax] at hr
        obtain ⟨b, hr⟩ := run'_eq_ok hr
        exact ⟨hzero, hfour, (verifies_headerBytes_iff p hmax).mp hverifies, r, b, hr, hsame⟩
      · rintro ⟨-, -, hcarry, r, b, hr, hsame⟩
        refine ⟨_, _, hserialize, (verifies_headerBytes_iff p hmax).mpr hcarry, r, ?_, hsame⟩
        rw [deserializer_headerBytes _ _ hmin hmax]
        exact run'_of_ok hr
    · rw [if_pos hzero, if_neg hfour] at hserialize
      constructor
      · rintro ⟨p', data, hdata, -⟩
        rw [hserialize] at hdata
        cases hdata
      · rintro ⟨-, hle, -⟩
        exact absurd hle hfour
  · rw [if_neg hzero] at hserialize
    constructor
    · rintro ⟨p', data, hdata, -, r, hr, hsame⟩
      rw [hserialize] at hdata
      cases hdata
      rw [deserializer_headerBytes _ _ hmin hmax] at hr
      obtain ⟨b, hr⟩ := run'_eq_ok hr
      have hread := checksum_of_readBody hr
      exact absurd (hsame.checksum.symm.trans hread) hzero
    · rintro ⟨hz, -⟩
      exact absurd hz hzero

end Returning

section Versions

def IGMPGroup.IsPlain : IGMPVersion → IGMPGroup → Prop
  | .IGMPv2, grp => ∃ gaddr, grp = .query (.new (.INET gaddr))
  | .IGMPv3, .query q => q.gaddr.isIp4 = true ∧ (∀ a ∈ q.sources, a.isIp4 = true) ∧
      q.sbit = false ∧ q.qrv &&& 0x7 = q.qrv
  | .IGMPv3, .membership m => ∀ a ∈ m.sources, a.isIp4 = true

variable {p : IGMP}

theorem contents_query {q : IGMPQuery} (hversion : p.version = .IGMPv3)
    (htype : p.igmpType = TYPE_IGMPV3_MEMBERSHIP_QUERY) (hgroups : p.groups = [.query q]) :
    ∃ contents, p.contents = .ok contents ∧ contents.flatten = q.encode := by
  have hreport : ¬ TYPE_IGMPV3_MEMBERSHIP_QUERY = TYPE_IGMPV3_MEMBERSHIP_REPORT := by decide
  refine ⟨q.serialize, ?_, ?_⟩
  · unfold IGMP.contents
    rw [hversion, htype, hgroups]
    simp only [if_neg hreport, if_true]
    simp [serializeGroups, IGMPGroup.serialize, bind, Except.bind, pure, Except.pure]
  · simp [IGMPQuery.serialize, IGMPQuery.encode]

theorem readsBack_v3 {checksum : BitVec 16} {rest : List Byte}
    (hversion : p.version = .IGMPv3) (hreport : p.igmpType ≠ TYPE_IGMPV2_MEMBERSHIP_REPORT)
    (hleave : p.igmpType ≠ TYPE_IGMPV2_LEAVE_GROUP) (hmin : 12 ≤ 4 + rest.length)
    (hmax : 4 + rest.length ≤ scratchLength) :
    p.ReadsBack checksum rest ↔ ∃ r b, readGroups p.igmpType (p.headerBytes checksum ++ rest)
      ⟨p.headerBytes checksum, rest, []⟩ = .ok (r, b) ∧ r.1 = p.groups := by
  have hlength := length_headerBytes p checksum rest
  have hcheck : checkInput (p.headerBytes checksum ++ rest) 0 (p.headerBytes checksum ++ rest).length
      MINIMUM_HEADER_LEN = .ok () := by
    apply checkInput_whole
    · intro hnil
      rw [hnil, List.length_nil] at hlength
      omega
    · rw [hlength]
      unfold scratchLength at hmax
      omega
    · rw [hlength]
      unfold MINIMUM_HEADER_LEN
      omega
  have hversion2 : ¬ (p.igmpType = TYPE_IGMPV2_MEMBERSHIP_REPORT ∨
      p.igmpType = TYPE_IGMPV2_LEAVE_GROUP ∨
        ((p.headerBytes checksum ++ rest).length : ℤ) = HEADER_LENGTH) := by
    rintro (h | h | h)
    · exact hreport h
    · exact hleave h
    · rw [hlength, HEADER_LENGTH] at h
      omega
  rw [IGMP.ReadsBack, readBody, if_neg hversion2, bind_of_ok (lift_of_ok hcheck _)]
  constructor
  · rintro ⟨r, b, hr, hsame⟩
    obtain ⟨groups, b', hgroups, hr⟩ := bind_apply_eq_ok hr
    cases hr
    exact ⟨groups, _, hgroups, hsame.groups⟩
  · rintro ⟨groups, b, hgroups, hsame⟩
    refine ⟨_, _, bind_of_ok hgroups, ?_⟩
    obtain ⟨version, igmpType, resField, checksum', groups', data⟩ := p
    cases hversion
    cases hsame
    rfl

theorem readsBack_query {q : IGMPQuery} (checksum : BitVec 16)
    (hversion : p.version = .IGMPv3) (htype : p.igmpType = TYPE_IGMPV3_MEMBERSHIP_QUERY)
    (hgroups : p.groups = [.query q]) (hmin : 12 ≤ 4 + q.encode.length)
    (hmax : 4 + q.encode.length ≤ scratchLength) :
    p.ReadsBack checksum q.encode ↔ IGMPGroup.IsPlain .IGMPv3 (.query q) := by
  have hfew : q.sources.length < 32768 := by
    have hoctets := length_octetsOf q.sources
    have hlength : (octetsOf q.sources).length ≤ q.encode.length := by
      simp [IGMPQuery.encode]
      omega
    unfold scratchLength at hmax
    omega
  rw [readsBack_v3 hversion (by rw [htype]; decide) (by rw [htype]; decide) hmin hmax, htype,
    readGroups, if_pos rfl]
  constructor
  · rintro ⟨r, b, hr, hsame⟩
    obtain ⟨qgroup, b', hq, hr⟩ := bind_apply_eq_ok hr
    cases hr
    have heq : qgroup = q := by simpa [hgroups] using hsame
    cases heq
    obtain ⟨hg, hs⟩ := isIp4_of_query hq
    rw [IGMPQuery.deserialize_encode _ _ hg hs hfew] at hq
    have hfields := congrArg Prod.fst (Except.ok.inj hq)
    exact ⟨hg, hs, (congrArg IGMPQuery.sbit hfields).symm, congrArg IGMPQuery.qrv hfields⟩
  · rintro ⟨hg, hs, hsbit, hqrv⟩
    refine ⟨_, _, bind_of_ok (IGMPQuery.deserialize_encode _ _ hg hs hfew), ?_⟩
    obtain ⟨gaddr, sources, sbit, qrv, qqic⟩ := q
    cases hsbit
    rw [hgroups, hqrv]

def IGMPMembership.WithoutData (m : IGMPMembership) : Prop :=
  m.auxDataLength = 0 ∧ m.auxData = none

variable {ms : List IGMPMembership}

theorem serializeGroups_memberships (h : ∀ m ∈ ms, m.WithoutData) :
    ∃ chunks, serializeGroups (ms.map .membership) = .ok chunks ∧
      chunks.flatten = (ms.map IGMPMembership.encode).flatten := by
  induction ms with
  | nil => exact ⟨[], rfl, rfl⟩
  | cons m ms ih =>
    obtain ⟨chunks, hchunks, hflatten⟩ := ih fun m' hm' => h m' (List.mem_cons_of_mem m hm')
    have hlength : ¬ 0 < m.auxDataLength.toInt := by
      rw [(h m List.mem_cons_self).1]
      decide
    unfold serializeGroups at hchunks ⊢
    obtain ⟨written, hwritten, hok⟩ := bind_eq_ok.mp hchunks
    cases hok
    rw [List.map_cons, List.mapM_cons, hwritten, IGMPGroup.serialize, IGMPMembership.serialize,
      if_neg hlength]
    refine ⟨_, rfl, ?_⟩
    rw [List.flatten_cons, List.flatten_append, hflatten]
    simp [IGMPMembership.encode]

theorem contents_report (hversion : p.version = .IGMPv3)
    (htype : p.igmpType = TYPE_IGMPV3_MEMBERSHIP_REPORT) (hgroups : p.groups = ms.map .membership)
    (hdata : ∀ m ∈ ms, m.WithoutData) :
    ∃ contents, p.contents = .ok contents ∧ contents.flatten =
      short 0 ++ (countOf ms ++ (ms.map IGMPMembership.encode).flatten) := by
  obtain ⟨chunks, hchunks, hflatten⟩ := serializeGroups_memberships hdata
  refine ⟨short 0 :: countOf ms :: chunks, ?_, ?_⟩
  · unfold IGMP.contents
    rw [hversion, htype, hgroups, hchunks]
    simp only [if_true]
    simp [countOf, bind, Except.bind, pure, Except.pure]
  · rw [List.flatten_cons, List.flatten_cons, hflatten]

theorem length_le_encode (m : IGMPMembership) : 8 + 4 * m.sources.length ≤ m.encode.length := by
  have hoctets := length_octetsOf m.sources
  simp [IGMPMembership.encode, countOf]
  omega

theorem length_le_encoded (ms : List IGMPMembership) :
    8 * ms.length ≤ (ms.map IGMPMembership.encode).flatten.length ∧
      ∀ m ∈ ms, 4 * m.sources.length ≤ (ms.map IGMPMembership.encode).flatten.length := by
  induction ms with
  | nil => simp
  | cons m ms ih =>
    obtain ⟨hcount, hsources⟩ := ih
    have hm := length_le_encode m
    rw [List.map_cons, List.flatten_cons, List.length_append, List.length_cons]
    refine ⟨by omega, ?_⟩
    intro m' hm'
    obtain rfl | hmem := List.mem_cons.mp hm'
    · omega
    · have := hsources m' hmem
      omega

theorem times_membership (before : List Byte)
    (hdata : ∀ m ∈ ms, m.WithoutData) (hs : ∀ m ∈ ms, ∀ a ∈ m.sources, a.isIp4 = true)
    (hfew : ∀ m ∈ ms, m.sources.length < 32768) :
    times (fun _ => IGMPMembership.deserialize) ms.length
      ⟨before, (ms.map IGMPMembership.encode).flatten, []⟩ =
        .ok (ms, ⟨before ++ (ms.map IGMPMembership.encode).flatten, [], []⟩) := by
  have hread := times_append (x := fun _ => IGMPMembership.deserialize) IGMPMembership.encode [] [] ms
    (by
      intro before m ms' hsuffix
      have hm := hsuffix.subset List.mem_cons_self
      exact IGMPMembership.deserialize_encode before _ [] (hs m hm) (hdata m hm) (hfew m hm)) before
  rwa [List.append_nil] at hread

theorem readsBack_report (checksum : BitVec 16)
    (hversion : p.version = .IGMPv3) (htype : p.igmpType = TYPE_IGMPV3_MEMBERSHIP_REPORT)
    (hgroups : p.groups = ms.map .membership) (hdata : ∀ m ∈ ms, m.WithoutData) {rest : List Byte}
    (hrest : rest = short 0 ++ (countOf ms ++ (ms.map IGMPMembership.encode).flatten))
    (hmin : 12 ≤ 4 + rest.length) (hmax : 4 + rest.length ≤ scratchLength) :
    p.ReadsBack checksum rest ↔ ∀ grp ∈ p.groups, grp.IsPlain .IGMPv3 := by
  have hquery : ¬ TYPE_IGMPV3_MEMBERSHIP_REPORT = TYPE_IGMPV3_MEMBERSHIP_QUERY := by decide
  obtain ⟨hcount, hsources⟩ := length_le_encoded ms
  have hlength : (ms.map IGMPMembership.encode).flatten.length ≤ rest.length := by
    rw [hrest, List.length_append, List.length_append]
    omega
  have hfew : ∀ m ∈ ms, m.sources.length < 32768 := by
    intro m hm
    have := hsources m hm
    unfold scratchLength at hmax
    omega
  have hnumber : (BitVec.ofNat 16 ms.length).toInt.toNat = ms.length := by
    apply toInt_count
    unfold scratchLength at hmax
    omega
  have hplain : (∀ grp ∈ p.groups, grp.IsPlain .IGMPv3) ↔
      ∀ m ∈ ms, ∀ a ∈ m.sources, a.isIp4 = true := by
    rw [hgroups, List.forall_mem_map]
    rfl
  rw [readsBack_v3 hversion (by rw [htype]; decide) (by rw [htype]; decide) hmin hmax, htype,
    readGroups, if_neg hquery, if_pos rfl, hplain, hrest, bind_of_ok (getShort_append _ _ _ _),
    bind_of_ok (getCount_append _ _ _ _), hnumber]
  constructor
  · rintro ⟨r, b, hr, hsame⟩
    obtain ⟨groups, b', htimes, hr⟩ := bind_apply_eq_ok hr
    cases hr
    have heq : groups = ms := by
      rw [hgroups] at hsame
      exact List.map_injective_iff.mpr (fun _ _ h => IGMPGroup.membership.inj h) hsame
    cases heq
    intro m hm
    obtain ⟨_, c, c', hread⟩ := (times_eq_ok htimes).2 m hm
    exact isIp4_of_membership hread
  · intro hs
    exact ⟨_, _, bind_of_ok (times_membership _ hdata hs hfew), hgroups.symm⟩

theorem contents_v2 {grp : IGMPGroup} (hversion : p.version = .IGMPv2)
    (hgroups : p.groups = [grp]) :
    p.contents = (nonNull grp.getGaddr.getIp4Address).map fun gaddr => [int gaddr] := by
  unfold IGMP.contents
  simp only [hversion, hgroups]
  cases grp.getGaddr.getIp4Address <;> rfl

theorem validChecksum_filled (igmpType resField : Byte) (gaddr : BitVec 32) (p : IGMP)
    (hp : p.igmpType = igmpType ∧ p.resField = resField) :
    IGMP.validChecksum ⟨.IGMPv2, igmpType, resField, checksumOf (words (p.headerBytes 0 ++ int gaddr)),
      [.query (.new (.INET gaddr))], none⟩ = true := by
  have hwords : words (p.headerBytes 0 ++ int gaddr) =
      (igmpType ++ resField : BitVec 16) :: 0 :: words (int gaddr) := by
    rw [words_append _ (by simp [IGMP.headerBytes]), IGMP.headerBytes, words_append _ (by simp),
      words_short, hp.1, hp.2]
    rfl
  have hsum : wordSum (words (p.headerBytes 0 ++ int gaddr)) =
      wordSum ((igmpType ++ resField : BitVec 16) :: words (int gaddr)) := by
    have hzero : (0 : BitVec 16).toNat = 0 := rfl
    rw [hwords, wordSum_cons, wordSum_cons, wordSum_cons, hzero, Nat.zero_add]
  rw [checksumOf_congr hsum, words_int]
  exact decide_eq_true rfl

theorem readsBack_v2 {gaddr : BitVec 32} (hversion : p.version = .IGMPv2) :
    p.ReadsBack (checksumOf (words (p.headerBytes 0 ++ int gaddr))) (int gaddr) ↔
      p.groups = [.query (.new (.INET gaddr))] := by
  have hvalid := validChecksum_filled p.igmpType p.resField gaddr p ⟨rfl, rfl⟩
  generalize checksumOf (words (p.headerBytes 0 ++ int gaddr)) = checksum at hvalid ⊢
  have hlength := length_headerBytes p checksum (int gaddr)
  rw [length_int] at hlength
  have hversion2 : p.igmpType = TYPE_IGMPV2_MEMBERSHIP_REPORT ∨
      p.igmpType = TYPE_IGMPV2_LEAVE_GROUP ∨
        ((p.headerBytes checksum ++ int gaddr).length : ℤ) = HEADER_LENGTH := by
    rw [hlength]
    exact .inr (.inr rfl)
  have haddress : getIp4Address ⟨p.headerBytes checksum, int gaddr, []⟩ =
      .ok (.INET gaddr, ⟨p.headerBytes checksum ++ int gaddr, [], []⟩) := by
    have hread := getIp4Address_append (p.headerBytes checksum) [] [] (a := .INET gaddr) rfl
    rwa [List.append_nil] at hread
  have hrequire : require (IGMP.validChecksum ⟨.IGMPv2, p.igmpType, p.resField, checksum,
      [.query (.new (.INET gaddr))], none⟩ = true) "invalid checksum" = .ok () := if_pos hvalid
  rw [IGMP.ReadsBack, readBody, if_pos hversion2, bind_of_ok haddress,
    bind_of_ok (lift_of_ok hrequire _)]
  constructor
  · rintro ⟨r, b, hr, hsame⟩
    cases hr
    exact hsame.groups.symm
  · intro hgroups
    refine ⟨_, _, rfl, ?_⟩
    obtain ⟨version, igmpType, resField, checksum', groups, data⟩ := p
    cases hversion
    cases hgroups
    rfl

end Versions

section Messages

def IGMP.unsummed (p : IGMP) : List Byte :=
  match p.contents with
  | .ok contents => p.headerBytes 0 ++ contents.flatten
  | .error _ => []

def IGMP.size (p : IGMP) : ℕ := p.unsummed.length

def IGMP.IsReport (p : IGMP) : Prop :=
  p.version = .IGMPv3 ∧ p.igmpType = TYPE_IGMPV3_MEMBERSHIP_REPORT ∧
    ∃ ms : List IGMPMembership, p.groups = ms.map .membership ∧ ∀ m ∈ ms, m.WithoutData

def IGMP.IsQuery (p : IGMP) : Prop :=
  p.version = .IGMPv3 ∧ p.igmpType = TYPE_IGMPV3_MEMBERSHIP_QUERY ∧ ∃ q, p.groups = [.query q]

def IGMP.IsVersion2 (p : IGMP) : Prop := p.version = .IGMPv2 ∧ ∃ grp, p.groups = [grp]

def IGMP.IsMessage (p : IGMP) : Prop :=
  (p.IsReport ∨ p.IsQuery) ∧ 12 ≤ p.size ∧ p.size ≤ scratchLength ∨ p.IsVersion2

/-- The checksum is still to be filled in, a quarter of the array holds the message, one carry is
enough, and the groups say no more than their bytes do. -/
def IGMP.IsKept (p : IGMP) : Prop :=
  p.checksum = 0 ∧ 4 * p.size ≤ scratchLength ∧ NoSecondCarry (words p.unsummed) ∧
    ∀ grp ∈ p.groups, grp.IsPlain p.version

theorem unsummed_eq {p : IGMP} {contents : List (List Byte)} (hc : p.contents = .ok contents) :
    p.unsummed = p.headerBytes 0 ++ contents.flatten ∧ p.size = 4 + contents.flatten.length := by
  have hunsummed : p.unsummed = p.headerBytes 0 ++ contents.flatten := by
    rw [IGMP.unsummed, hc]
  refine ⟨hunsummed, ?_⟩
  rw [IGMP.size, hunsummed, length_headerBytes]

theorem roundTrips_iff_isKept {p : IGMP} {contents : List (List Byte)}
    (hc : p.contents = .ok contents) (hmin : 8 ≤ p.size) (hmax : p.size ≤ scratchLength)
    (hgroups : p.ReadsBack (checksumOf (words (p.headerBytes 0 ++ contents.flatten)))
      contents.flatten ↔ ∀ grp ∈ p.groups, grp.IsPlain p.version) :
    p.RoundTrips ↔ p.IsKept := by
  obtain ⟨hunsummed, hsize⟩ := unsummed_eq hc
  rw [IGMP.IsKept, hunsummed, hsize, ← hgroups]
  exact roundTrips_iff hc (by omega) (by omega)

theorem roundTrips_report_iff {p : IGMP} (h : p.IsReport) (hmin : 12 ≤ p.size)
    (hmax : p.size ≤ scratchLength) : p.RoundTrips ↔ p.IsKept := by
  obtain ⟨hversion, htype, ms, hgroups, hdata⟩ := h
  obtain ⟨contents, hc, hflatten⟩ := contents_report hversion htype hgroups hdata
  obtain ⟨-, hsize⟩ := unsummed_eq hc
  apply roundTrips_iff_isKept hc (by omega) hmax
  rw [hversion]
  exact readsBack_report _ hversion htype hgroups hdata hflatten (by omega) (by omega)

theorem roundTrips_query_iff {p : IGMP} (h : p.IsQuery) (hmin : 12 ≤ p.size)
    (hmax : p.size ≤ scratchLength) : p.RoundTrips ↔ p.IsKept := by
  obtain ⟨hversion, htype, q, hgroups⟩ := h
  obtain ⟨contents, hc, hflatten⟩ := contents_query hversion htype hgroups
  obtain ⟨-, hsize⟩ := unsummed_eq hc
  rw [hflatten] at hsize
  apply roundTrips_iff_isKept hc (by omega) hmax
  rw [hversion, hflatten, readsBack_query _ hversion htype hgroups (by omega) (by omega), hgroups,
    List.forall_mem_singleton]

theorem roundTrips_v2_iff {p : IGMP} (h : p.IsVersion2) : p.RoundTrips ↔ p.IsKept := by
  obtain ⟨hversion, grp, hgroups⟩ := h
  have hc := contents_v2 hversion hgroups
  cases haddress : grp.getGaddr with
  | INET gaddr =>
    rw [haddress] at hc
    obtain ⟨-, hsize⟩ := unsummed_eq hc
    have hflatten : ([int gaddr] : List (List Byte)).flatten = int gaddr := by simp
    rw [hflatten, length_int] at hsize
    apply roundTrips_iff_isKept hc (by omega) (by rw [hsize]; decide)
    rw [hflatten, readsBack_v2 hversion, hversion, hgroups, List.forall_mem_singleton]
    constructor
    · intro hgrp
      exact ⟨gaddr, (List.cons.inj hgrp).1⟩
    · rintro ⟨gaddr', rfl⟩
      cases haddress
      rfl
  | INET6 gaddr =>
    rw [haddress] at hc
    constructor
    · rintro ⟨p', data, hserialize, -⟩
      rw [IGMP.serialize, hc] at hserialize
      cases hserialize
    · rintro ⟨-, -, -, hplain⟩
      rw [hversion, hgroups, List.forall_mem_singleton] at hplain
      obtain ⟨gaddr', rfl⟩ := hplain
      cases haddress

end Messages

/-- Exactly the messages that are kept are written, verified and read back as they are. -/
theorem message_roundTrips_iff {p : IGMP} (h : p.IsMessage) : p.RoundTrips ↔ p.IsKept := by
  obtain ⟨hreport | hquery, hmin, hmax⟩ | hversion2 := h
  · exact roundTrips_report_iff hreport hmin hmax
  · exact roundTrips_query_iff hquery hmin hmax
  · exact roundTrips_v2_iff hversion2

def queryMessage (sbit : Bool) : IGMP where
  version := .IGMPv3
  igmpType := TYPE_IGMPV3_MEMBERSHIP_QUERY
  resField := 0
  checksum := 0
  groups := [.query ⟨.INET 0xe0000001, [.INET 0xa000001], sbit, 2, 0x7d⟩]
  unsupportTypeData := none

theorem isMessage_queryMessage (sbit : Bool) : (queryMessage sbit).IsMessage := by
  refine .inl ⟨.inr ⟨rfl, rfl, _, rfl⟩, ?_, ?_⟩
  · cases sbit <;> decide
  · cases sbit <;> decide

theorem message_roundTrips_iff_queryMessage : (queryMessage false).IsMessage ∧
    ((queryMessage false).RoundTrips ↔ (queryMessage false).IsKept) :=
  ⟨isMessage_queryMessage false, message_roundTrips_iff (isMessage_queryMessage false)⟩

/-- The S flag of a query is lost. -/
theorem sbit_lost : ¬ ∀ p : IGMP, p.IsMessage → p.RoundTrips := by
  intro h
  have hquery : (queryMessage true).IsQuery := ⟨rfl, rfl, _, rfl⟩
  have hkept := (roundTrips_query_iff hquery (by decide) (by decide)).mp
    (h (queryMessage true) (isMessage_queryMessage true))
  obtain ⟨-, -, -, hgroups⟩ := hkept
  have hplain := hgroups _ List.mem_cons_self
  cases hplain.2.2.1

end GroupMessages

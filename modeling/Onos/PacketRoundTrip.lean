import Onos.IpPackets

/-! Packets that are written and read back: which of them come back as they were. -/
namespace IpPackets

open ByteBuffer FallibleRun Packets WireBytes

variable {R : Type}

section UDP

namespace UDP

def RoundTrips [IPacket R] (registered : BitVec 32 → List Byte → ℤ → ℤ → Result R)
    (parent : Option Parent) (p : UDP (Payload R)) (payload : List Byte) : Prop :=
  ∃ p' header q, p.serialize parent = .ok (p', header ++ payload) ∧ header.length = 8 ∧
    deserializer registered (header ++ payload) 0 (header ++ payload).length = .ok q ∧
    q = p' ∧ q.payload = p.payload

variable {registered : BitVec 32 → List Byte → ℤ → ℤ → Result R}
  {parent : Option Parent} {p : UDP (Payload R)} {payload : List Byte}

variable (parent) in
theorem serialize_plain [IPacket R] (hpayload : p.payload = some (.inl ⟨payload⟩)) :
    p.serialize parent = (p.prepared p.payload payload.length).write parent (some payload) := by
  rw [serialize, hpayload]
  rfl

theorem setWidth_setWidth_of_lt {x : BitVec 32} (h : x.toNat < 65536) :
    (x.setWidth 16).setWidth 32 = x := by
  apply BitVec.eq_of_toNat_eq
  rw [BitVec.toNat_setWidth, BitVec.toNat_setWidth]
  omega

theorem length_header (p : UDP (Payload R)) : p.header.flatten.length = 8 := by
  simp [header]

variable (parent) in
theorem write_exact (hchecksum : p.checksum ≠ 0) (hsize : p.length.toInt = 8 + payload.length) :
    p.write parent (some payload) = .ok (p, p.header.flatten ++ payload) := by
  have hfill : (fillNew p.length.toInt (p.header ++ (some payload).toList) : Result _) =
      .ok (p.header.flatten ++ payload) := by
    rw [fillNew_exact]
    · simp
    · rw [List.flatten_append, List.length_append, length_header, hsize]
      simp
  rw [write, hfill]
  simp only [if_neg hchecksum]
  rfl

theorem write_fits {r : UDP (Payload R) × List Byte} (hchecksum : p.checksum ≠ 0)
    (h : p.write parent (some payload) = .ok r) :
    r.1 = p ∧ 8 + (payload.length : ℤ) ≤ p.length.toInt := by
  obtain ⟨data, hfill, h⟩ := bind_eq_ok.mp h
  rw [if_neg hchecksum] at h
  cases h
  refine ⟨rfl, ?_⟩
  by_contra hlt
  refine fillNew_of_lt ?_ data hfill
  simp only [Option.toList_some, List.flatten_append, List.length_append, length_header,
    List.flatten_singleton]
  omega

theorem read_fields {source destination : BitVec 16} (length checksum : BitVec 16)
    {data payload : List Byte} {x : Payload R} (hpayload : payloadOfPorts registered (source.setWidth 32)
      (destination.setWidth 32) data 8 payload.length = .ok x) :
    read registered data ⟨[], short source ++ (short destination ++ (short length ++
      (short checksum ++ payload))), []⟩ =
      .ok (⟨source.setWidth 32, destination.setWidth 32, length, checksum, some x⟩,
        ⟨short source ++ short destination ++ short length ++ short checksum, payload, []⟩) := by
  simp only [read, bind_apply, getShort_append, get_state_apply, Except.bind, ReadBuffer.position,
    ReadBuffer.remaining, List.length_append, length_short, List.nil_append, Nat.reduceAdd,
    Nat.cast_ofNat]
  rw [lift_of_ok hpayload]
  rfl

variable (registered) in
theorem read_written (hsource : p.sourcePort.toNat < 65536) (hdestination : p.destinationPort.toNat < 65536)
    (hpayload : p.payload = some (.inl ⟨payload⟩))
    (hunregistered : p.sourcePort ∉ PORT_DESERIALIZER_MAP ∧ p.destinationPort ∉ PORT_DESERIALIZER_MAP)
    (hint : payload.length < 2 ^ 30) :
    ∃ b, read registered (p.header.flatten ++ payload) ⟨[], p.header.flatten ++ payload, []⟩ =
      .ok (p, b) := by
  have hflat : p.header.flatten ++ payload = short (p.sourcePort.setWidth 16) ++
      (short (p.destinationPort.setWidth 16) ++ (short p.length ++ (short p.checksum ++ payload))) := by
    simp [header]
  have hplain : payloadOfPorts registered p.sourcePort p.destinationPort
      (p.header.flatten ++ payload) 8 payload.length = .ok (.inl ⟨payload⟩) := by
    have hlen : (8 : ℤ) = (p.header.flatten.length : ℤ) := by rw [length_header]; rfl
    rw [payloadOfPorts, if_neg hunregistered.2, decide_eq_false hunregistered.1, hlen]
    apply payloadOf_plain
    rw [List.length_append, length_header]
    omega
  rw [← setWidth_setWidth_of_lt hsource, ← setWidth_setWidth_of_lt hdestination] at hplain
  have hread := read_fields p.length p.checksum hplain
  rw [setWidth_setWidth_of_lt hsource, setWidth_setWidth_of_lt hdestination, ← hpayload, ← hflat]
    at hread
  exact ⟨_, hread⟩

theorem ports_of_read {data : List Byte} {bb bb' : ReadBuffer} {q : UDP (Payload R)}
    (h : read registered data bb = .ok (q, bb')) :
    q.sourcePort.toNat < 65536 ∧ q.destinationPort.toNat < 65536 := by
  obtain ⟨source, b₁, -, h⟩ := bind_apply_eq_ok h
  obtain ⟨destination, b₂, -, h⟩ := bind_apply_eq_ok h
  obtain ⟨length, b₃, -, h⟩ := bind_apply_eq_ok h
  obtain ⟨checksum, b₄, -, h⟩ := bind_apply_eq_ok h
  obtain ⟨b, b₅, -, h⟩ := bind_apply_eq_ok h
  obtain ⟨payload, b₆, -, h⟩ := bind_apply_eq_ok h
  cases h
  have hsource := source.isLt
  have hdestination := destination.isLt
  constructor <;> rw [BitVec.toNat_setWidth] <;> omega

theorem roundTrips_iff [IPacket R] (hpayload : p.payload = some (.inl ⟨payload⟩))
    (hunregistered : p.sourcePort ∉ PORT_DESERIALIZER_MAP ∧
      p.destinationPort ∉ PORT_DESERIALIZER_MAP) (hchecksum : p.checksum ≠ 0) :
    RoundTrips registered parent p payload ↔
      8 + payload.length ≤ 32767 ∧ p.sourcePort.toNat < 65536 ∧ p.destinationPort.toNat < 65536 := by
  have hserialize := serialize_plain parent hpayload
  constructor
  · rintro ⟨p', header, q, hwrite, -, hread, rfl, -⟩
    rw [hserialize] at hwrite
    obtain ⟨hq, hfits⟩ := write_fits (p := p.prepared p.payload payload.length) hchecksum hwrite
    have hbound := BitVec.toInt_lt (x := (p.prepared p.payload payload.length).length)
    obtain ⟨bb, b, hread⟩ := deserialized_from hread
    have hports := ports_of_read hread
    rw [show q = p.prepared p.payload payload.length from hq] at hports
    exact ⟨by omega, hports⟩
  · rintro ⟨hlen, hsource, hdestination⟩
    have hint : (p.prepared p.payload payload.length).length.toInt = 8 + payload.length := by
      rw [prepared, toInt_ofNat_of_lt (by omega), Nat.cast_add]
      rfl
    have hwrite := write_exact parent (p := p.prepared p.payload payload.length) hchecksum hint
    obtain ⟨b, hread⟩ := read_written registered (p := p.prepared p.payload payload.length) hsource hdestination
      hpayload hunregistered (by omega)
    have hheader := length_header (p.prepared p.payload payload.length)
    refine ⟨_, _, p.prepared p.payload payload.length, hserialize.trans hwrite, hheader, ?_, rfl, rfl⟩
    refine deserialized (by decide) ?_ ?_ hread
    · rw [List.length_append, hheader]
      omega
    · rw [List.length_append, hheader]
      omega

end UDP

end UDP

section IPv6

namespace IPv6

def RoundTrips [IPacket R] (registered : Byte → List Byte → ℤ → ℤ → Result R)
    (p : IPv6 (Payload R)) (payload : List Byte) : Prop :=
  ∃ p' header q, p.serialize = .ok (p', header ++ payload) ∧ header.length = 40 ∧
    deserializer registered (header ++ payload) 0 (header ++ payload).length = .ok q ∧
    p'.equals q ∧ q.payload = p.payload

variable {registered : Byte → List Byte → ℤ → ℤ → Result R} {p : IPv6 (Payload R)}
  {payload : List Byte}

theorem serialize_plain [IPacket R] (hpayload : p.payload = some (.inl ⟨payload⟩)) :
    p.serialize = (p.prepared p.payload payload.length).write (some payload) := by
  rw [serialize, hpayload]
  rfl

theorem length_header (p : IPv6 (Payload R)) : p.header.flatten.length = 40 := by
  simp [header]

theorem write_exact (hsize : p.payloadLength.toInt = payload.length) :
    p.write (some payload) = .ok (p, p.header.flatten ++ payload) := by
  have hfill : (fillNew (40 + p.payloadLength.toInt) (p.header ++ (some payload).toList) :
      Result _) = .ok (p.header.flatten ++ payload) := by
    rw [fillNew_exact]
    · simp
    · rw [List.flatten_append, List.length_append, length_header, hsize]
      simp
  rw [write, hfill]
  rfl

theorem write_fits {r : IPv6 (Payload R) × List Byte} (h : p.write (some payload) = .ok r) :
    r.1 = p ∧ (payload.length : ℤ) ≤ p.payloadLength.toInt := by
  obtain ⟨data, hfill, h⟩ := bind_eq_ok.mp h
  cases h
  refine ⟨rfl, ?_⟩
  by_contra hlt
  refine fillNew_of_lt ?_ data hfill
  simp only [Option.toList_some, List.flatten_append, List.length_append, length_header,
    List.flatten_singleton]
  omega

theorem toNat_firstInt (v t : Byte) (l : BitVec 32) :
    ((v &&& 0xf).setWidth 32 <<< 28 ||| t.setWidth 32 <<< 20 ||| l &&& 0xfffff).toNat =
      v.toNat % 16 * 2 ^ 28 + t.toNat * 2 ^ 20 + l.toNat % 2 ^ 20 := by
  have hv : (v &&& 0xf).toNat = v.toNat % 16 := toNat_and_mask (m := 4) v (by decide)
  have hl : (l &&& 0xfffff).toNat = l.toNat % 2 ^ 20 := toNat_and_mask (m := 20) l (by decide)
  have ht : t.toNat < 256 := t.isLt
  have hversion : ((v &&& 0xf).setWidth 32 <<< 28).toNat = v.toNat % 16 * 2 ^ 28 := by
    rw [BitVec.toNat_shiftLeft, BitVec.toNat_setWidth, hv, Nat.shiftLeft_eq]
    omega
  have htraffic : (t.setWidth 32 <<< 20).toNat = t.toNat * 2 ^ 20 := by
    rw [BitVec.toNat_shiftLeft, BitVec.toNat_setWidth, Nat.shiftLeft_eq]
    omega
  have hhigh : ((v &&& 0xf).setWidth 32 <<< 28 ||| t.setWidth 32 <<< 20).toNat =
      v.toNat % 16 * 2 ^ 28 + t.toNat * 2 ^ 20 := by
    rw [toNat_or_of_dvd (k := 28) (by omega) (by omega), hversion, htraffic]
  rw [toNat_or_of_dvd (k := 20) (by omega) (by omega), hhigh, hl]

theorem read_fields (first : BitVec 32) {payloadLength : BitVec 16} {nextHeader : Byte}
    (hopLimit : Byte) (source destination : BitVec 128) {data payload : List Byte} {x : Payload R}
    (hlength : payloadLength.toInt = payload.length)
    (hpayload : payloadOf (nextHeader ∈ PROTOCOL_DESERIALIZER_MAP) (registered nextHeader) data 40
      payload.length = .ok x) :
    read registered data ⟨[], int first ++ (short payloadLength ++ (nextHeader :: hopLimit ::
      (address source ++ (address destination ++ payload)))), []⟩ =
      .ok (⟨(first.sshiftRight 28 &&& 0xf).setWidth 8, (first.sshiftRight 20 &&& 0xff).setWidth 8,
        first &&& 0xfffff, payloadLength, nextHeader, hopLimit, source, destination, some x⟩,
        ⟨int first ++ short payloadLength ++ [nextHeader] ++ [hopLimit] ++ address source ++
          address destination, payload, []⟩) := by
  simp only [read, bind_apply, getInt_append, getShort_append, getByte_cons, getAddress_append,
    get_state_apply, Except.bind, ReadBuffer.position, ReadBuffer.remaining, List.length_append,
    length_int, length_short, length_address, List.length_singleton, List.nil_append, Nat.reduceAdd,
    Nat.cast_ofNat, hlength, le_refl, if_true]
  rw [lift_of_ok hpayload]
  rfl

variable (registered) in
theorem read_written (hflow : p.flowLabel.toNat < 2 ^ 20)
    (hlength : p.payloadLength.toInt = payload.length) (hpayload : p.payload = some (.inl ⟨payload⟩))
    (hunregistered : p.nextHeader ∉ PROTOCOL_DESERIALIZER_MAP) :
    ∃ version b, read registered (p.header.flatten ++ payload)
      ⟨[], p.header.flatten ++ payload, []⟩ = .ok ({ p with version := version }, b) := by
  have hbound := BitVec.toInt_lt (x := p.payloadLength)
  have hflat : p.header.flatten ++ payload =
      int ((p.version &&& 0xf).setWidth 32 <<< 28 ||| p.trafficClass.setWidth 32 <<< 20 |||
        p.flowLabel &&& 0xfffff) ++ (short p.payloadLength ++ (p.nextHeader :: p.hopLimit ::
          (address p.sourceAddress ++ (address p.destinationAddress ++ payload)))) := by
    simp [header]
  have hplain : payloadOf (p.nextHeader ∈ PROTOCOL_DESERIALIZER_MAP) (registered p.nextHeader)
      (p.header.flatten ++ payload) 40 payload.length = .ok (.inl ⟨payload⟩) := by
    have hlen : (40 : ℤ) = (p.header.flatten.length : ℤ) := by rw [length_header]; rfl
    rw [decide_eq_false hunregistered, hlen]
    apply payloadOf_plain
    rw [List.length_append, length_header]
    omega
  have hfirst := toNat_firstInt p.version p.trafficClass p.flowLabel
  generalize (p.version &&& 0xf).setWidth 32 <<< 28 ||| p.trafficClass.setWidth 32 <<< 20 |||
    p.flowLabel &&& 0xfffff = first at hflat hfirst
  have ht : p.trafficClass.toNat < 256 := p.trafficClass.isLt
  have htraffic : (first.sshiftRight 20 &&& 0xff).setWidth 8 = p.trafficClass := by
    apply BitVec.eq_of_toNat_eq
    have hmid : (first.sshiftRight 20 &&& 0xff).toNat = first.toNat / 2 ^ 20 % 256 :=
      toNat_shift_and_mask (m := 8) first (by decide)
    rw [BitVec.toNat_setWidth, hmid]
    omega
  have hlabel : first &&& 0xfffff = p.flowLabel := by
    apply BitVec.eq_of_toNat_eq
    have hlow : (first &&& 0xfffff).toNat = first.toNat % 2 ^ 20 :=
      toNat_and_mask (m := 20) first (by decide)
    rw [hlow]
    omega
  have hread := read_fields first p.hopLimit p.sourceAddress p.destinationAddress hlength hplain
  rw [htraffic, hlabel, ← hpayload, ← hflat] at hread
  exact ⟨_, _, hread⟩

theorem flowLabel_of_read {data : List Byte} {bb bb' : ReadBuffer} {q : IPv6 (Payload R)}
    (h : read registered data bb = .ok (q, bb')) : q.flowLabel.toNat < 2 ^ 20 := by
  obtain ⟨first, b₁, -, h⟩ := bind_apply_eq_ok h
  obtain ⟨payloadLength, b₂, -, h⟩ := bind_apply_eq_ok h
  obtain ⟨nextHeader, b₃, -, h⟩ := bind_apply_eq_ok h
  obtain ⟨hopLimit, b₄, -, h⟩ := bind_apply_eq_ok h
  obtain ⟨source, b₅, -, h⟩ := bind_apply_eq_ok h
  obtain ⟨destination, b₆, -, h⟩ := bind_apply_eq_ok h
  obtain ⟨b, b₇, -, h⟩ := bind_apply_eq_ok h
  obtain ⟨payload, b₈, -, h⟩ := bind_apply_eq_ok h
  cases h
  have hlow : (first &&& 0xfffff).toNat = first.toNat % 2 ^ 20 :=
    toNat_and_mask (m := 20) first (by decide)
  rw [hlow]
  exact Nat.mod_lt _ (Nat.two_pow_pos 20)

theorem roundTrips_iff [IPacket R] (hpayload : p.payload = some (.inl ⟨payload⟩))
    (hunregistered : p.nextHeader ∉ PROTOCOL_DESERIALIZER_MAP) :
    RoundTrips registered p payload ↔ payload.length ≤ 32767 ∧ p.flowLabel.toNat < 2 ^ 20 := by
  have hserialize := serialize_plain hpayload
  constructor
  · rintro ⟨p', header, q, hwrite, -, hread, hequals, -⟩
    rw [hserialize] at hwrite
    obtain ⟨hp, hfits⟩ := write_fits hwrite
    have hbound := BitVec.toInt_lt (x := (p.prepared p.payload payload.length).payloadLength)
    obtain ⟨bb, b, hread⟩ := deserialized_from hread
    have hflow := flowLabel_of_read hread
    rw [← hequals, show p' = p.prepared p.payload payload.length from hp] at hflow
    exact ⟨by omega, hflow⟩
  · rintro ⟨hlen, hflow⟩
    have hint : (p.prepared p.payload payload.length).payloadLength.toInt = payload.length := by
      rw [prepared, toInt_ofNat_of_lt (by omega)]
    obtain ⟨version, b, hread⟩ := read_written registered
      (p := p.prepared p.payload payload.length) hflow hint hpayload hunregistered
    have hheader := length_header (p.prepared p.payload payload.length)
    refine ⟨_, _, { p.prepared p.payload payload.length with version := version },
      hserialize.trans (write_exact hint), hheader, ?_, rfl, rfl⟩
    refine deserialized (by decide) ?_ ?_ hread
    · rw [List.length_append, hheader]
      omega
    · rw [List.length_append, hheader]
      omega

end IPv6

end IPv6

section IPv4

namespace IPv4

def RoundTrips [IPacket R] (registered : Byte → List Byte → ℤ → ℤ → Result R)
    (p : IPv4 (Payload R)) (payload : List Byte) : Prop :=
  ∃ p' header q, p.serialize = .ok (p', header ++ payload) ∧
    header.length = 20 + (p.options.getD []).length ∧
    deserializer registered (header ++ payload) 0 (header ++ payload).length = .ok q ∧
    p'.equals q ∧ q.payload = p.payload

/-- The fields fit into their bits, and the options, if there are any, into words. -/
structure Fits (p : IPv4 (Payload R)) : Prop where
  version : p.version.toNat < 16
  flags : p.flags.toNat < 8
  fragmentOffset : p.fragmentOffset.toNat < 2 ^ 13
  options : ∀ options, p.options = some options → options ≠ [] ∧ 4 ∣ options.length

variable {registered : Byte → List Byte → ℤ → ℤ → Result R} {p : IPv4 (Payload R)}
  {payload : List Byte}

theorem serialize_plain [IPacket R] (hpayload : p.payload = some (.inl ⟨payload⟩)) :
    p.serialize = (p.prepared p.payload payload.length).write (some payload) := by
  rw [serialize, hpayload]
  rfl

theorem length_header (p : IPv4 (Payload R)) :
    p.header.flatten.length = 20 + (p.options.getD []).length := by
  cases hoptions : p.options <;> simp [header, hoptions]
  omega

theorem write_exact (hchecksum : p.checksum ≠ 0)
    (hsize : p.totalLength.toInt = 20 + (p.options.getD []).length + payload.length) :
    p.write (some payload) = .ok (p, p.header.flatten ++ payload) := by
  have hfill : (fillNew p.totalLength.toInt (p.header ++ (some payload).toList) : Result _) =
      .ok (p.header.flatten ++ payload) := by
    rw [fillNew_exact]
    · simp
    · rw [List.flatten_append, List.length_append, length_header, hsize]
      simp
  rw [write, hfill]
  simp only [bind, Except.bind, if_neg hchecksum]
  rfl

theorem write_fits {r : IPv4 (Payload R) × List Byte} (hchecksum : p.checksum ≠ 0)
    (h : p.write (some payload) = .ok r) : r.1 = p ∧
      20 + ((p.options.getD []).length : ℤ) + payload.length ≤ p.totalLength.toInt := by
  obtain ⟨data, hfill, h⟩ := bind_eq_ok.mp h
  rw [if_neg hchecksum] at h
  cases h
  refine ⟨rfl, ?_⟩
  by_contra hlt
  refine fillNew_of_lt ?_ data hfill
  simp only [Option.toList_some, List.flatten_append, List.length_append, length_header,
    List.flatten_singleton]
  omega

theorem toNat_versionByte (v h : Byte) :
    ((v &&& 0xf) <<< 4 ||| h &&& 0xf).toNat = v.toNat % 16 * 16 + h.toNat % 16 := by
  have hv : (v &&& 0xf).toNat = v.toNat % 16 := toNat_and_mask (m := 4) v (by decide)
  have hh : (h &&& 0xf).toNat = h.toNat % 16 := toNat_and_mask (m := 4) h (by decide)
  have hshift : ((v &&& 0xf) <<< 4).toNat = v.toNat % 16 * 16 := by
    rw [BitVec.toNat_shiftLeft, hv, Nat.shiftLeft_eq]
    omega
  rw [toNat_or_of_dvd (k := 4) (by omega) (by omega), hshift, hh]

theorem toNat_flagsFragment (f : Byte) (o : BitVec 16) :
    ((f &&& 0x7).setWidth 16 <<< 13 ||| o &&& 0x1fff).toNat =
      f.toNat % 8 * 2 ^ 13 + o.toNat % 2 ^ 13 := by
  have hf : (f &&& 0x7).toNat = f.toNat % 8 := toNat_and_mask (m := 3) f (by decide)
  have ho : (o &&& 0x1fff).toNat = o.toNat % 2 ^ 13 := toNat_and_mask (m := 13) o (by decide)
  have hshift : ((f &&& 0x7).setWidth 16 <<< 13).toNat = f.toNat % 8 * 2 ^ 13 := by
    rw [BitVec.toNat_shiftLeft, BitVec.toNat_setWidth, hf, Nat.shiftLeft_eq]
    omega
  rw [toNat_or_of_dvd (k := 13) (by omega) (by omega), hshift, ho]

variable {options : Option (List Byte)} {length : ℤ}

theorem readOptions_written {headerLength : Byte}
    (hoptions : ∀ bytes, options = some bytes → bytes ≠ [] ∧ 4 ∣ bytes.length)
    (hheader : headerLength.toInt * 4 = 20 + (options.getD []).length)
    (hlength : 20 + ((options.getD []).length : ℤ) ≤ length) (before payload : List Byte) :
    readOptions headerLength length ⟨before, options.getD [] ++ payload, []⟩ =
      .ok (options, ⟨before ++ options.getD [], payload, []⟩) := by
  cases options with
  | none =>
    simp only [Option.getD_none, List.length_nil] at hheader
    rw [readOptions, if_neg (by omega)]
    simp
  | some bytes =>
    simp only [Option.getD_some] at hheader hlength ⊢
    have hpos := List.length_pos_iff.mpr (hoptions bytes rfl).1
    have hfour := (hoptions bytes rfl).2
    have hcheck : checkHeaderLength length (headerLength.toInt * 4) = .ok () := by
      rw [checkHeaderLength, if_neg (by omega)]
    have hcount : bytes.length = ((headerLength.toInt - 5) * 4).toNat := by omega
    rw [readOptions, if_pos (by omega), bind_of_ok (lift_of_ok hcheck _),
      bind_of_ok (get_of_length _ _ _ _ hcount)]
    rfl

theorem read_fields {versionByte : Byte} (diffServ : Byte) {totalLength : BitVec 16}
    (identification flagsFragment : BitVec 16) (ttl : Byte) {protocol : Byte}
    (checksum : BitVec 16) (source destination : BitVec 32)
    {data bytes payload : List Byte} {x : Payload R}
    (hoptions : ∀ before, readOptions (versionByte &&& 0xf) length
      ⟨before, bytes ++ payload, []⟩ = .ok (options, ⟨before ++ bytes, payload, []⟩))
    (htotal : totalLength.toInt - (versionByte &&& 0xf).toInt * 4 = payload.length)
    (hpayload : payloadOf (protocol ∈ PROTOCOL_DESERIALIZER_MAP) (registered protocol) data
      (20 + bytes.length : ℕ) payload.length = .ok x) :
    read registered data length ⟨[], versionByte :: diffServ :: (short totalLength ++
      (short identification ++ (short flagsFragment ++ (ttl :: protocol :: (short checksum ++
        (int source ++ (int destination ++ (bytes ++ payload)))))))), []⟩ =
      .ok ({
        version := versionByte.sshiftRight 4 &&& 0xf
        headerLength := versionByte &&& 0xf
        diffServ, totalLength, identification
        flags := (flagsFragment.sshiftRight 13 &&& 0x7).setWidth 8
        fragmentOffset := flagsFragment &&& 0x1fff
        ttl, protocol, checksum
        sourceAddress := source
        destinationAddress := destination
        options
        isTruncated := totalLength.toInt ≠ length
        payload := some x },
        ⟨[versionByte] ++ [diffServ] ++ short totalLength ++ short identification ++
          short flagsFragment ++ [ttl] ++ [protocol] ++ short checksum ++ int source ++
            int destination ++ bytes, payload, []⟩) := by
  simp only [read, bind_apply, getByte_cons, getShort_append, getInt_append, hoptions,
    get_state_apply, Except.bind, ReadBuffer.position, ReadBuffer.remaining, List.length_append,
    length_int, length_short, List.length_singleton, List.nil_append, Nat.reduceAdd, htotal,
    le_refl, if_true]
  rw [lift_of_ok hpayload]
  rfl

variable (registered) in
theorem read_written (hfits : p.Fits) (hheader : p.headerLength.toInt * 4 =
      20 + (p.options.getD []).length) (hforty : (p.options.getD []).length ≤ 40)
    (htotal : p.totalLength.toInt = 20 + (p.options.getD []).length + payload.length)
    (hpayload : p.payload = some (.inl ⟨payload⟩))
    (hunregistered : p.protocol ∉ PROTOCOL_DESERIALIZER_MAP) :
    ∃ isTruncated b, read registered (p.header.flatten ++ payload)
      (p.header.flatten ++ payload).length ⟨[], p.header.flatten ++ payload, []⟩ =
        .ok ({ p with isTruncated := isTruncated }, b) := by
  have hbound := BitVec.toInt_lt (x := p.totalLength)
  have hlength := length_header p
  have hflat : p.header.flatten ++ payload = ((p.version &&& 0xf) <<< 4 ||| p.headerLength &&& 0xf) ::
      p.diffServ :: (short p.totalLength ++ (short p.identification ++
        (short ((p.flags &&& 0x7).setWidth 16 <<< 13 ||| p.fragmentOffset &&& 0x1fff) ++ (p.ttl ::
          p.protocol :: (short p.checksum ++ (int p.sourceAddress ++ (int p.destinationAddress ++
            (p.options.getD [] ++ payload)))))))) := by
    cases hoptions : p.options <;> simp [header, hoptions]
  have hplain : payloadOf (p.protocol ∈ PROTOCOL_DESERIALIZER_MAP) (registered p.protocol)
      (p.header.flatten ++ payload) (20 + (p.options.getD []).length : ℕ) payload.length =
        .ok (.inl ⟨payload⟩) := by
    rw [decide_eq_false hunregistered, ← hlength]
    apply payloadOf_plain
    rw [List.length_append, hlength]
    omega
  have hroom : 20 + ((p.options.getD []).length : ℤ) ≤ (p.header.flatten ++ payload).length := by
    rw [List.length_append, hlength]
    omega
  have hoptions := fun before => readOptions_written hfits.options hheader hroom before payload
  have hfirst := toNat_versionByte p.version p.headerLength
  generalize (p.version &&& 0xf) <<< 4 ||| p.headerLength &&& 0xf = first at hflat hfirst
  have hthird := toNat_flagsFragment p.flags p.fragmentOffset
  generalize (p.flags &&& 0x7).setWidth 16 <<< 13 ||| p.fragmentOffset &&& 0x1fff = third
    at hflat hthird
  have hversion := hfits.version
  have hflags := hfits.flags
  have hoffset := hfits.fragmentOffset
  have hnibble : p.headerLength.toNat < 16 := by
    have hbyte : p.headerLength.toNat < 256 := p.headerLength.isLt
    rw [BitVec.toInt_eq_toNat_cond] at hheader
    split_ifs at hheader <;> omega
  have hlow : first &&& 0xf = p.headerLength := by
    apply BitVec.eq_of_toNat_eq
    have hmask : (first &&& 0xf).toNat = first.toNat % 16 := toNat_and_mask (m := 4) first (by decide)
    omega
  have hhigh : first.sshiftRight 4 &&& 0xf = p.version := by
    apply BitVec.eq_of_toNat_eq
    have hmask : (first.sshiftRight 4 &&& 0xf).toNat = first.toNat / 16 % 16 :=
      toNat_shift_and_mask (m := 4) first (by decide)
    omega
  have hthree : (third.sshiftRight 13 &&& 0x7).setWidth 8 = p.flags := by
    apply BitVec.eq_of_toNat_eq
    have hmask : (third.sshiftRight 13 &&& 0x7).toNat = third.toNat / 2 ^ 13 % 8 :=
      toNat_shift_and_mask (m := 3) third (by decide)
    rw [BitVec.toNat_setWidth, hmask]
    omega
  have hthirteen : third &&& 0x1fff = p.fragmentOffset := by
    apply BitVec.eq_of_toNat_eq
    have hmask : (third &&& 0x1fff).toNat = third.toNat % 2 ^ 13 :=
      toNat_and_mask (m := 13) third (by decide)
    omega
  have hrest : p.totalLength.toInt - (first &&& 0xf).toInt * 4 = payload.length := by
    rw [hlow]
    omega
  rw [← hlow] at hoptions
  have hread := read_fields p.diffServ p.identification third p.ttl p.checksum p.sourceAddress
    p.destinationAddress hoptions hrest hplain
  rw [hlow, hhigh, hthree, hthirteen, ← hpayload, ← hflat] at hread
  exact ⟨_, _, hread⟩

theorem options_of_read {headerLength : Byte} {bb bb' : ReadBuffer}
    (h : readOptions headerLength length bb = .ok (options, bb')) :
    ∀ bytes, options = some bytes → bytes ≠ [] ∧ 4 ∣ bytes.length := by
  rw [readOptions] at h
  split_ifs at h with hlonger
  · obtain ⟨-, b₁, -, h⟩ := bind_apply_eq_ok h
    obtain ⟨read, b₂, hget, h⟩ := bind_apply_eq_ok h
    have hlen := length_of_get hget
    cases h
    rintro bytes ⟨⟩
    refine ⟨?_, by omega⟩
    rintro rfl
    simp only [List.length_nil] at hlen
    omega
  · cases h
    nofun

theorem fits_of_read {data : List Byte} {bb bb' : ReadBuffer} {q : IPv4 (Payload R)}
    (h : read registered data length bb = .ok (q, bb')) : q.Fits := by
  obtain ⟨first, b₁, -, h⟩ := bind_apply_eq_ok h
  obtain ⟨diffServ, b₂, -, h⟩ := bind_apply_eq_ok h
  obtain ⟨totalLength, b₃, -, h⟩ := bind_apply_eq_ok h
  obtain ⟨identification, b₄, -, h⟩ := bind_apply_eq_ok h
  obtain ⟨third, b₅, -, h⟩ := bind_apply_eq_ok h
  obtain ⟨ttl, b₆, -, h⟩ := bind_apply_eq_ok h
  obtain ⟨protocol, b₇, -, h⟩ := bind_apply_eq_ok h
  obtain ⟨checksum, b₈, -, h⟩ := bind_apply_eq_ok h
  obtain ⟨source, b₉, -, h⟩ := bind_apply_eq_ok h
  obtain ⟨destination, b₁₀, -, h⟩ := bind_apply_eq_ok h
  obtain ⟨options, b₁₁, hoptions, h⟩ := bind_apply_eq_ok h
  obtain ⟨b, b₁₂, -, h⟩ := bind_apply_eq_ok h
  obtain ⟨payload, b₁₃, -, h⟩ := bind_apply_eq_ok h
  cases h
  have hversion : (first.sshiftRight 4 &&& 0xf).toNat = first.toNat / 16 % 16 :=
    toNat_shift_and_mask (m := 4) first (by decide)
  have hflags : (third.sshiftRight 13 &&& 0x7).toNat = third.toNat / 2 ^ 13 % 8 :=
    toNat_shift_and_mask (m := 3) third (by decide)
  have hoffset : (third &&& 0x1fff).toNat = third.toNat % 2 ^ 13 :=
    toNat_and_mask (m := 13) third (by decide)
  refine ⟨?_, ?_, ?_, options_of_read hoptions⟩
  · rw [hversion]
    omega
  · rw [BitVec.toNat_setWidth, hflags]
    omega
  · rw [hoffset]
    omega

theorem roundTrips_iff [IPacket R] (hpayload : p.payload = some (.inl ⟨payload⟩))
    (hunregistered : p.protocol ∉ PROTOCOL_DESERIALIZER_MAP) (hchecksum : p.checksum ≠ 0)
    (hforty : (p.options.getD []).length ≤ 40) : RoundTrips registered p payload ↔
      20 + (p.options.getD []).length + payload.length ≤ 32767 ∧ p.Fits := by
  have hserialize := serialize_plain hpayload
  constructor
  · rintro ⟨p', header, q, hwrite, -, hread, hequals, -⟩
    rw [hserialize] at hwrite
    obtain ⟨hp, hfits⟩ := write_fits (p := p.prepared p.payload payload.length) hchecksum hwrite
    have hoptions : (p.prepared p.payload payload.length).options = p.options := rfl
    rw [hoptions] at hfits
    have hbound := BitVec.toInt_lt (x := (p.prepared p.payload payload.length).totalLength)
    obtain ⟨bb, b, hread⟩ := deserialized_from hread
    have hfields := fits_of_read hread
    rw [← hequals, show p' = p.prepared p.payload payload.length from hp] at hfields
    exact ⟨by omega, hfields.1, hfields.2, hfields.3, hfields.4⟩
  · rintro ⟨hlen, hfits⟩
    have hfour : 4 ∣ (p.options.getD []).length := by
      cases hoptions : p.options with
      | none => exact dvd_zero 4
      | some options => exact (hfits.options options hoptions).2
    have hheader := length_prepared p.payload payload.length hfour hforty
    have htotal : (p.prepared p.payload payload.length).totalLength.toInt =
        20 + (p.options.getD []).length + payload.length := by
      change (BitVec.ofInt 16 ((p.prepared p.payload payload.length).headerLength.toInt * 4 +
        payload.length)).toInt = _
      rw [hheader, BitVec.toInt_ofInt]
      exact Int.bmod_eq_of_le (by omega) (by omega)
    have hprotocol : (p.prepared p.payload payload.length).protocol = p.protocol := by
      rw [prepared, hpayload]
      rfl
    rw [← hprotocol] at hunregistered
    obtain ⟨isTruncated, b, hread⟩ := read_written registered
      (p := p.prepared p.payload payload.length) ⟨hfits.1, hfits.2, hfits.3, hfits.4⟩ hheader hforty
      htotal hpayload hunregistered
    have hlength : (p.prepared p.payload payload.length).header.flatten.length =
      20 + (p.options.getD []).length := length_header _
    refine ⟨_, _, { p.prepared p.payload payload.length with isTruncated := isTruncated },
      hserialize.trans (write_exact hchecksum htotal), hlength, ?_, rfl, rfl⟩
    refine deserialized (by decide) ?_ ?_ hread
    · rw [List.length_append, hlength]
      omega
    · rw [List.length_append, hlength]
      omega

end IPv4

end IPv4

section Claims

/-- With plain data in it, a packet survives the round trip if and only if its length is at most
what a signed short can hold, and its fields fit into their bits. -/
theorem roundTrips_iff_fits [IPacket R] (payload : List Byte) :
    (∀ (registered : Byte → List Byte → ℤ → ℤ → Result R) (p : IPv4 (Payload R)),
      p.payload = some (.inl ⟨payload⟩) → p.protocol ∉ IPv4.PROTOCOL_DESERIALIZER_MAP →
      p.checksum ≠ 0 → (p.options.getD []).length ≤ 40 →
      (IPv4.RoundTrips registered p payload ↔
        20 + (p.options.getD []).length + payload.length ≤ 32767 ∧ p.Fits)) ∧
    (∀ (registered : Byte → List Byte → ℤ → ℤ → Result R) (p : IPv6 (Payload R)),
      p.payload = some (.inl ⟨payload⟩) → p.nextHeader ∉ IPv6.PROTOCOL_DESERIALIZER_MAP →
      (IPv6.RoundTrips registered p payload ↔
        payload.length ≤ 32767 ∧ p.flowLabel.toNat < 2 ^ 20)) ∧
    (∀ (registered : BitVec 32 → List Byte → ℤ → ℤ → Result R) (parent : Option Parent)
      (p : UDP (Payload R)), p.payload = some (.inl ⟨payload⟩) →
      p.sourcePort ∉ UDP.PORT_DESERIALIZER_MAP → p.destinationPort ∉ UDP.PORT_DESERIALIZER_MAP →
      p.checksum ≠ 0 → (UDP.RoundTrips registered parent p payload ↔
        8 + payload.length ≤ 32767 ∧ p.sourcePort.toNat < 65536 ∧
          p.destinationPort.toNat < 65536)) := by
  refine ⟨?_, ?_, ?_⟩
  · intro registered p hpayload hunregistered hchecksum hforty
    exact IPv4.roundTrips_iff hpayload hunregistered hchecksum hforty
  · intro registered p hpayload hunregistered
    exact IPv6.roundTrips_iff hpayload hunregistered
  · intro registered parent p hpayload hsource hdestination hchecksum
    exact UDP.roundTrips_iff hpayload ⟨hsource, hdestination⟩ hchecksum

def datagram (payload : List Byte) : UDP (Payload Data) where
  sourcePort := 5000
  destinationPort := 6000
  length := 0
  checksum := 1
  payload := some (.inl ⟨payload⟩)

theorem roundTrips_iff_fits_datagram :
    UDP.RoundTrips (fun _ => Data.deserializer) none (datagram [1, 2, 3]) [1, 2, 3] :=
  ((roundTrips_iff_fits (R := Data) [1, 2, 3]).2.2 _ none (datagram [1, 2, 3]) rfl (by decide)
    (by decide) (by decide)).mpr (by decide)

/-- A length from 32768 on is a negative short. -/
theorem long_datagram_lost : ¬ ∀ (payload : List Byte) (p : UDP (Payload Data)),
    p.payload = some (.inl ⟨payload⟩) → p.sourcePort ∉ UDP.PORT_DESERIALIZER_MAP →
    p.destinationPort ∉ UDP.PORT_DESERIALIZER_MAP → p.sourcePort.toNat < 65536 →
    p.destinationPort.toNat < 65536 → p.checksum ≠ 0 → 8 + payload.length ≤ 65535 →
      UDP.RoundTrips (fun _ => Data.deserializer) none p payload := by
  intro h
  have hlong : (List.replicate 32760 (0 : Byte)).length = 32760 := List.length_replicate
  have htrip := h _ (datagram (List.replicate 32760 0)) rfl (by decide) (by decide) (by decide)
    (by decide) (by decide) (by omega)
  rw [UDP.roundTrips_iff rfl ⟨by decide, by decide⟩ (by decide), hlong] at htrip
  omega

end Claims

end IpPackets

import Onos.BgpRibIn

/-! Which UPDATE messages are answered: each is accepted or its sender gets a notification, but for
those that make the parser throw another exception. -/
namespace BgpAnswers

open WireBytes ByteBuffer BufferReaders ChannelBuffer IpAddresses BgpRoutes BgpUpdates BgpRibIn

section Defects

/-- Some prefix is longer than an address and not cut off, and all prefixes before it are good. -/
inductive MeetsTooLong (family : Family) : List Byte → Prop
  | here {prefixBitlen : Byte} {s : List Byte} (hfits : (prefixBitlen.toNat + 7) / 8 ≤ s.length)
    (hlong : 8 * family.byteLength < prefixBitlen.toNat) : MeetsTooLong family (prefixBitlen :: s)
  | next {prefixBitlen : Byte} {s : List Byte} (hfits : (prefixBitlen.toNat + 7) / 8 ≤ s.length)
    (hlong : prefixBitlen.toNat ≤ 8 * family.byteLength)
    (hrest : MeetsTooLong family (s.drop ((prefixBitlen.toNat + 7) / 8))) :
    MeetsTooLong family (prefixBitlen :: s)

/-- The announced prefixes in the value of an attribute, behind a next hop and a reserved octet. -/
def reachPrefixes (value : List Byte) : Option (Family × List Byte) :=
  if value.length < MpReachNlri.MIN_LENGTH then none
  else
    match unicastFamily (valueOf (value.take 2)) (valueOf ((value.drop 2).take 1)) with
    | none => none
    | some family =>
      let nextHopLen := valueOf ((value.drop 3).take 1)
      if nextHopLen ≠ family.byteLength ∨ value.length ≤ nextHopLen + 5 then none
      else some (family, value.drop (nextHopLen + 5))

def unreachPrefixes (value : List Byte) : Option (Family × List Byte) :=
  if value.length < MpUnreachNlri.MIN_LENGTH then none
  else
    (unicastFamily (valueOf (value.take 2)) (valueOf ((value.drop 2).take 1))).map fun family =>
      (family, value.drop 3)

def ValueDefective (attrTypeCode : ℕ) (value : List Byte) : Prop :=
  ∃ family octets, MeetsTooLong family octets ∧
    (attrTypeCode = MpReachNlri.TYPE ∧ reachPrefixes value = some (family, octets) ∨
      attrTypeCode = MpUnreachNlri.TYPE ∧ unreachPrefixes value = some (family, octets))

def AttributeDefective : List Byte → Prop
  | attrFlags :: attrTypeCode :: s =>
    let attrLenOctets := if extendedLengthBit attrFlags.toNat then 2 else 1
    let attrLen := valueOf (s.take attrLenOctets)
    attrLenOctets + attrLen ≤ s.length ∧
      ¬(optionalBit attrFlags.toNat ∧ ¬transitiveBit attrFlags.toNat ∧ partialBit attrFlags.toNat) ∧
      ValueDefective attrTypeCode.toNat ((s.drop attrLenOctets).take attrLen)
  | _ => False

/-- The parser comes to an attribute that is defective, or accepts all of them and then meets a
prefix that is too long. -/
def PathDefective (session : BgpSession) (b : ReadBuffer) : Prop :=
  let pathAttributeLength := valueOf (b.rest.take 2)
  let start := b.advance 2
  let pathAttributeEnd := start.position + pathAttributeLength
  2 + pathAttributeLength ≤ b.remaining ∧ pathAttributeLength ≠ 0 ∧
    ((∃ b', Visits (parseAttribute session pathAttributeEnd) pathAttributeEnd start b' ∧
        AttributeDefective (b'.rest.take (pathAttributeEnd - b'.position))) ∨
      ∃ attributes b', readUntil (parseAttribute session pathAttributeEnd) pathAttributeEnd start =
        .ok (attributes, b') ∧ MeetsTooLong ip4 b'.rest)

/-- The message is long enough for its withdrawn routes, and a prefix there is too long, or all of
them are accepted and what follows has no length field or is defective. -/
def Defective (session : BgpSession) (message : List Byte) : Prop :=
  let start : ReadBuffer := (⟨[], message, []⟩ : ReadBuffer).advance 2
  let withdrawnRoutesLength := valueOf (message.take 2)
  BGP_UPDATE_MIN_LENGTH - BGP_HEADER_LENGTH ≤ message.length ∧
    2 + withdrawnRoutesLength ≤ message.length ∧
    (MeetsTooLong ip4 (start.rest.take withdrawnRoutesLength) ∨
      ∃ prefixes b', parsePackedPrefixes ip4 .invalidNetworkField withdrawnRoutesLength start =
        .ok (prefixes, b') ∧ (b'.remaining < 2 ∨ PathDefective session b'))

/-- The message is accepted, or a notification is sent and the session is closed. -/
def IsAnswered (session : BgpSession) (ribIn : RibIn) (message : List Byte) : Prop :=
  ∀ e, (processBgpUpdate session ribIn message).2 = .error e → Checked e

end Defects

section Prefixes

def IsFixed (family : Family) : Prop :=
  ∀ octets, (family.valueOf octets).bitLength = 8 * family.byteLength

variable {family : Family} {malformed : UpdateError} {b : ReadBuffer}

theorem escapes_guard {α : Type} {p : Prop} [Decidable p] {e : UpdateError} {y : Parser α} :
    Escapes (if p then fail e else y) b ↔ ¬p ∧ Escapes y b := by
  by_cases hp : p
  · rw [if_pos hp]
    refine iff_of_false ?_ fun h => h.1 hp
    rintro ⟨_, he, hunchecked⟩
    cases he
    exact hunchecked ⟨e, rfl⟩
  · rw [if_neg hp]
    exact (and_iff_right hp).symm

theorem not_meetsTooLong_nil : ¬MeetsTooLong family [] := nofun

theorem meetsTooLong_cons {prefixBitlen : Byte} {s : List Byte} :
    MeetsTooLong family (prefixBitlen :: s) ↔ (prefixBitlen.toNat + 7) / 8 ≤ s.length ∧
      (8 * family.byteLength < prefixBitlen.toNat ∨ prefixBitlen.toNat ≤ 8 * family.byteLength ∧
        MeetsTooLong family (s.drop ((prefixBitlen.toNat + 7) / 8))) := by
  constructor
  · intro h
    cases h with
    | here hfits hlong => exact ⟨hfits, .inl hlong⟩
    | next hfits hlong hrest => exact ⟨hfits, .inr ⟨hlong, hrest⟩⟩
  · rintro ⟨hfits, hlong | ⟨hlong, hrest⟩⟩
    · exact .here hfits hlong
    · exact .next hfits hlong hrest

theorem advance_advance (b : ReadBuffer) (m n : ℕ) :
    (b.advance m).advance n = b.advance (m + n) := by
  simp [ReadBuffer.advance, List.take_add]

theorem rest_advance (b : ReadBuffer) (n : ℕ) : (b.advance n).rest = b.rest.drop n := rfl

theorem valueOf_singleton (x : Byte) : valueOf [x] = x.toNat := by
  simp [valueOf]

theorem isFixed_ip4 : IsFixed ip4 := fun _ => rfl

theorem isFixed_unicastFamily {afi safi : ℕ} (h : unicastFamily afi safi = some family) :
    IsFixed family := by
  unfold unicastFamily at h
  split_ifs at h
  · cases h
    exact isFixed_ip4
  · cases h
    exact fun _ => rfl

theorem readUnsignedByte_cons {x : Byte} {xs : List Byte} (h : b.rest = x :: xs) :
    (readUnsignedByte : Parser ℕ) b = .ok (x.toNat, b.advance 1) := by
  have hread : (readBytes 1 : Parser _) b = .ok ([x], b.advance 1) := by
    rw [readBytes, if_pos (by simp [ReadBuffer.remaining, h]), h]
    rfl
  rw [readUnsignedByte, bind_of_ok hread, valueOf_singleton]
  rfl

/-- One prefix is cut off, or too long, or read to its end. -/
theorem parsePackedPrefix_cases (malformed : UpdateError) (hfamily : IsFixed family)
    {prefixBitlen : Byte} {s : List Byte} (hrest : b.rest = prefixBitlen :: s) {dataEnd : ℕ}
    (hend : dataEnd ≤ b.position + b.remaining) :
    dataEnd < b.position + 1 + (prefixBitlen.toNat + 7) / 8 ∧
        parsePackedPrefix family malformed dataEnd b = .error (.checked malformed) ∨
      b.position + 1 + (prefixBitlen.toNat + 7) / 8 ≤ dataEnd ∧
        (8 * family.byteLength < prefixBitlen.toNat ∧
            parsePackedPrefix family malformed dataEnd b = .error .indexOutOfBounds ∨
          prefixBitlen.toNat ≤ 8 * family.byteLength ∧
            ∃ p, parsePackedPrefix family malformed dataEnd b =
              .ok (p, b.advance (1 + (prefixBitlen.toNat + 7) / 8))) := by
  have hone : 1 ≤ b.remaining := by simp [ReadBuffer.remaining, hrest]
  rw [parsePackedPrefix, bind_of_ok (readUnsignedByte_cons hrest), bind_of_ok rfl,
    position_advance hone]
  generalize hbytes : (prefixBitlen.toNat + 7) / 8 = prefixBytelen
  by_cases hcut : dataEnd < b.position + 1 + prefixBytelen
  · exact .inl ⟨hcut, by rw [if_pos hcut]; rfl⟩
  refine .inr ⟨Nat.le_of_not_lt hcut, ?_⟩
  rw [if_neg hcut]
  by_cases hlong : family.byteLength < prefixBytelen
  · exact .inl ⟨by omega, by rw [if_pos hlong]; rfl⟩
  have hshort : prefixBitlen.toNat ≤ 8 * family.byteLength := by omega
  have hread : prefixBytelen ≤ (b.advance 1).remaining := by
    rw [remaining_advance]
    omega
  rw [if_neg hlong, bind_of_ok (if_pos hread), advance_advance]
  have hprefix : ∀ octets, ∃ p, prefixOf (family.valueOf octets) prefixBitlen.toNat = .ok p :=
    fun octets => ⟨_, dif_pos (hfamily octets ▸ hshort)⟩
  obtain ⟨p, hp⟩ := hprefix (((b.advance 1).rest.take prefixBytelen) ++
    List.replicate (family.byteLength - prefixBytelen) 0)
  exact .inr ⟨hshort, p, by rw [hp]; rfl⟩

theorem escapes_parsePackedPrefixes (hfamily : IsFixed family) {n : ℕ} (hn : n ≤ b.remaining) :
    Escapes (parsePackedPrefixes family malformed n) b ↔ MeetsTooLong family (b.rest.take n) := by
  have hloop : ∀ fuel b n, n ≤ fuel → n ≤ b.remaining → (Escapes (readAtMost
      (parsePackedPrefix family malformed (b.position + n)) (b.position + n) fuel) b ↔
        MeetsTooLong family (b.rest.take n)) := by
    intro fuel
    induction fuel with
    | zero =>
      intro b n hfuel _
      cases Nat.le_zero.mp hfuel
      exact iff_of_false not_escapes_pure not_meetsTooLong_nil
    | succ fuel ih =>
      intro b n hfuel hn
      rw [readAtMost, escapes_getPosition]
      split
      · next hlt =>
        obtain ⟨prefixBitlen, s, hrest⟩ := List.exists_cons_of_length_pos
          (show 0 < b.rest.length by unfold ReadBuffer.remaining at hn; omega)
        have htake : b.rest.take n = prefixBitlen :: s.take (n - 1) := by
          rw [hrest, List.take_cons (by omega)]
        have hs : s.length + 1 = b.remaining := by simp [ReadBuffer.remaining, hrest]
        rw [htake, meetsTooLong_cons, List.length_take, Nat.min_eq_left (by omega)]
        rcases parsePackedPrefix_cases malformed hfamily hrest
          (Nat.add_le_add_left hn b.position) with ⟨hcut, hp⟩ | ⟨hfits, ⟨hlong, hp⟩ | ⟨hlong, p, hp⟩⟩
        · rw [escapes_of_error hp]
          refine iff_of_false (fun h => h ⟨_, rfl⟩) fun h => ?_
          omega
        · rw [escapes_of_error hp]
          exact iff_of_true (by simp [Checked]) ⟨by omega, .inl hlong⟩
        · generalize (prefixBitlen.toNat + 7) / 8 = prefixBytelen at *
          have hposition := position_advance (show 1 + prefixBytelen ≤ b.remaining by omega)
          have hmid := ih (b.advance (1 + prefixBytelen)) (n - (1 + prefixBytelen)) (by omega)
            (by rw [remaining_advance]; omega)
          rw [hposition, show b.position + (1 + prefixBytelen) + (n - (1 + prefixBytelen)) =
            b.position + n by omega] at hmid
          have hdrop : (b.advance (1 + prefixBytelen)).rest.take (n - (1 + prefixBytelen)) =
              (s.take (n - 1)).drop prefixBytelen := by
            rw [ReadBuffer.advance, hrest, Nat.add_comm, List.drop_succ_cons, List.drop_take]
            congr 1
            omega
          rw [escapes_of_ok hp, escapes_map, hmid, hdrop]
          exact ⟨fun h => ⟨by omega, .inr ⟨hlong, h⟩⟩, fun h => (h.2.resolve_left (by omega)).2⟩
      · next hstop =>
        have hzero : n = 0 := by omega
        rw [hzero]
        exact iff_of_false not_escapes_pure not_meetsTooLong_nil
  rw [parsePackedPrefixes, escapes_getPosition, readUntil, escapes_getPosition,
    Nat.add_sub_cancel_left]
  exact hloop n b n (Nat.le_refl n) hn

end Prefixes

section Attributes

variable {session : BgpSession} {b : ReadBuffer} {attrLen : ℕ}

theorem not_escapes_fail {α : Type} {e : UpdateError} : ¬Escapes (fail e : Parser α) b := by
  rintro ⟨_, he, hunchecked⟩
  cases he
  exact hunchecked ⟨e, rfl⟩

theorem not_escapes_ofLength {attrTypeCode expected : ℕ} {value : Parser Attribute}
    (h : attrLen ≤ b.remaining) (hvalue : expected ≤ b.remaining → ¬Escapes value b) :
    ¬Escapes (ofLength attrTypeCode expected attrLen value) b := by
  rw [ofLength, escapes_guard, not_not]
  rintro ⟨rfl, hescapes⟩
  exact hvalue h hescapes

theorem not_escapes_parsePathSegment {asPathLen attributeEnd : ℕ}
    (hend : attributeEnd ≤ b.position + b.remaining) :
    ¬Escapes (parsePathSegment asPathLen attributeEnd) b := by
  rw [parsePathSegment, escapes_getPosition, escapes_guard]
  rintro ⟨htwo, h⟩
  rw [readUnsignedByte, escapes_number (by omega),
    escapes_number (by rw [remaining_advance]; omega), advance_advance] at h
  obtain ⟨-, h⟩ := escapes_guard.mp h
  rw [escapes_getPosition, escapes_guard, escapes_map, position_advance (by omega)] at h
  exact not_escapes_times (by rw [remaining_advance]; omega) h.2

theorem not_escapes_parseAttributeValue {attrTypeCode attrFlags : ℕ} (h : attrLen ≤ b.remaining)
    (hreach : attrTypeCode ≠ MpReachNlri.TYPE) (hunreach : attrTypeCode ≠ MpUnreachNlri.TYPE) :
    ¬Escapes (parseAttributeValue session attrTypeCode attrFlags attrLen) b := by
  rw [parseAttributeValue, if_neg hreach, if_neg hunreach]
  split_ifs
  · refine not_escapes_ofLength h fun hlen hescapes => ?_
    rw [readUnsignedByte, escapes_number (n := 1) hlen] at hescapes
    split at hescapes
    · exact not_escapes_pure hescapes
    · exact not_escapes_fail hescapes
  · rw [parseAttributeTypeAsPath, escapes_getPosition, escapes_map,
      escapes_readUntil (advances_parsePathSegment _ _)]
    rintro ⟨b', hvisit, hescapes⟩
    have hends := hvisit.ends ((advances_parsePathSegment _ _).mono (Nat.zero_le 1))
    exact not_escapes_parsePathSegment (by omega) hescapes
  · refine not_escapes_ofLength h fun hlen hescapes => ?_
    rw [readUnsignedInt, escapes_number (n := 4) hlen, escapes_guard] at hescapes
    exact not_escapes_pure hescapes.2
  · refine not_escapes_ofLength h fun hlen hescapes => ?_
    rw [readUnsignedInt, escapes_number (n := 4) hlen] at hescapes
    exact not_escapes_pure hescapes
  · refine not_escapes_ofLength h fun hlen hescapes => ?_
    rw [readUnsignedInt, escapes_number (n := 4) hlen] at hescapes
    exact not_escapes_pure hescapes
  · exact not_escapes_ofLength h fun _ => not_escapes_pure
  · exact not_escapes_ofLength h fun _ => not_escapes_skipBytes h
  · exact not_escapes_skipBytes h
  · exact not_escapes_fail

theorem section_take {l : List Byte} {i n m : ℕ} (h : i + n ≤ m) :
    ((l.take m).drop i).take n = (l.drop i).take n := by
  rw [List.drop_take, List.take_take, Nat.min_eq_left (by omega)]

section

variable (h : attrLen ≤ b.remaining)

include h

theorem escapes_parseAttributeTypeMpReachNlri :
    Escapes (parseAttributeTypeMpReachNlri attrLen) b ↔ ∃ family octets,
      MeetsTooLong family octets ∧ reachPrefixes (b.rest.take attrLen) = some (family, octets) := by
  have hlength : (b.rest.take attrLen).length = attrLen := List.length_take_of_le h
  rw [parseAttributeTypeMpReachNlri, escapes_getPosition, escapes_guard, reachPrefixes, hlength]
  by_cases hmin : attrLen < MpReachNlri.MIN_LENGTH
  · simp [hmin]
  have hfive : 5 ≤ attrLen := Nat.le_of_not_lt hmin
  rw [and_iff_right hmin, if_neg hmin, readUnsignedShort, escapes_number (by omega),
    readUnsignedByte, escapes_number (by rw [remaining_advance]; omega),
    escapes_number (by simp only [remaining_advance]; omega), advance_advance, advance_advance,
    section_take (by omega), section_take (by omega), List.take_take, Nat.min_eq_left (by omega)]
  simp only [rest_advance, Nat.reduceAdd]
  cases hunicast : unicastFamily (valueOf (b.rest.take 2)) (valueOf ((b.rest.drop 2).take 1)) with
  | none =>
    refine iff_of_false (not_escapes_skipBytes (by rw [remaining_advance]; omega)) ?_
    rintro ⟨_, _, _, hnone⟩
    cases hnone
  | some family =>
    dsimp only
    obtain ⟨nextHopLen, hhop⟩ : ∃ n, valueOf ((b.rest.drop 3).take 1) = n := ⟨_, rfl⟩
    simp only [hhop]
    rw [escapes_guard, escapes_getPosition, escapes_guard, position_advance (by omega), not_not]
    by_cases hcond : nextHopLen ≠ family.byteLength ∨ attrLen ≤ nextHopLen + 5
    · rw [if_pos hcond]
      refine iff_of_false (fun hall => ?_) (by simp)
      omega
    · have hlt : nextHopLen + 5 < attrLen := by omega
      rw [if_neg hcond, and_iff_right (by omega), and_iff_right (by omega),
        escapes_readBytes (by rw [remaining_advance]; omega),
        escapes_number (by simp only [remaining_advance]; omega), advance_advance, advance_advance,
        escapes_getPosition, escapes_map, position_advance (by omega),
        escapes_parsePackedPrefixes (isFixed_unicastFamily hunicast)
          (by rw [remaining_advance]; omega)]
      rw [show 4 + (nextHopLen + 1) = nextHopLen + 5 by omega, Nat.add_sub_add_left, rest_advance,
        ← List.drop_take]
      simp

theorem escapes_parseAttributeTypeMpUnreachNlri :
    Escapes (parseAttributeTypeMpUnreachNlri attrLen) b ↔ ∃ family octets,
      MeetsTooLong family octets ∧ unreachPrefixes (b.rest.take attrLen) = some (family, octets) := by
  have hlength : (b.rest.take attrLen).length = attrLen := List.length_take_of_le h
  rw [parseAttributeTypeMpUnreachNlri, escapes_getPosition, escapes_guard, unreachPrefixes, hlength]
  by_cases hmin : attrLen < MpUnreachNlri.MIN_LENGTH
  · simp [hmin]
  have hthree : 3 ≤ attrLen := Nat.le_of_not_lt hmin
  rw [and_iff_right hmin, if_neg hmin, readUnsignedShort, escapes_number (by omega),
    readUnsignedByte, escapes_number (by rw [remaining_advance]; omega), advance_advance,
    section_take (by omega), List.take_take, Nat.min_eq_left (by omega)]
  simp only [rest_advance, Nat.reduceAdd]
  cases hunicast : unicastFamily (valueOf (b.rest.take 2)) (valueOf ((b.rest.drop 2).take 1)) with
  | none =>
    refine iff_of_false (not_escapes_skipBytes (by rw [remaining_advance]; omega)) ?_
    rintro ⟨_, _, _, hnone⟩
    cases hnone
  | some family =>
    dsimp only
    rw [escapes_getPosition, escapes_map, position_advance (by omega), Nat.add_sub_add_left,
      escapes_parsePackedPrefixes (isFixed_unicastFamily hunicast)
        (by rw [remaining_advance]; omega), rest_advance, ← List.drop_take]
    simp

theorem escapes_parseAttributeValue {attrTypeCode attrFlags : ℕ} :
    Escapes (parseAttributeValue session attrTypeCode attrFlags attrLen) b ↔
      ValueDefective attrTypeCode (b.rest.take attrLen) := by
  unfold ValueDefective
  by_cases hreach : attrTypeCode = MpReachNlri.TYPE
  · subst hreach
    change Escapes (parseAttributeTypeMpReachNlri attrLen) b ↔ _
    rw [escapes_parseAttributeTypeMpReachNlri h]
    simp [MpReachNlri.TYPE, MpUnreachNlri.TYPE]
  by_cases hunreach : attrTypeCode = MpUnreachNlri.TYPE
  · subst hunreach
    change Escapes (parseAttributeTypeMpUnreachNlri attrLen) b ↔ _
    rw [escapes_parseAttributeTypeMpUnreachNlri h]
    simp [MpReachNlri.TYPE, MpUnreachNlri.TYPE]
  refine iff_of_false (not_escapes_parseAttributeValue h hreach hunreach) ?_
  rintro ⟨_, _, _, ⟨hcode, -⟩ | ⟨hcode, -⟩⟩
  · exact hreach hcode
  · exact hunreach hcode

/-- The flags are not verified for the well-known attributes alone. -/
theorem escapes_verified {attrTypeCode attrFlags : ℕ} : Escapes (do
      verifyBgpUpdateAttributeFlags attrTypeCode attrFlags
      parseAttributeValue session attrTypeCode attrFlags attrLen) b ↔
    ¬(optionalBit attrFlags ∧ ¬transitiveBit attrFlags ∧ partialBit attrFlags) ∧
      ValueDefective attrTypeCode (b.rest.take attrLen) := by
  rw [verifyBgpUpdateAttributeFlags]
  split
  · next hbad =>
    rw [escapes_of_error rfl]
    refine iff_of_false (fun hunchecked => hunchecked ⟨_, rfl⟩) ?_
    rintro ⟨hflags, _, _, _, hcode⟩
    have hplain : isWellKnown attrTypeCode = false := by
      rcases hcode with ⟨rfl, -⟩ | ⟨rfl, -⟩
      · rfl
      · rfl
    simp only [hplain, Bool.false_eq_true, false_and, false_or] at hbad
    exact hflags hbad
  · next hgood =>
    rw [escapes_of_ok rfl, escapes_parseAttributeValue h]
    exact (and_iff_right fun hbad => hgood (.inr (.inr (.inr hbad)))).symm

end

theorem escapes_parseAttribute {pathAttributeEnd : ℕ} (hlt : b.position < pathAttributeEnd)
    (hend : pathAttributeEnd ≤ b.position + b.remaining) :
    Escapes (parseAttribute session pathAttributeEnd) b ↔
      AttributeDefective (b.rest.take (pathAttributeEnd - b.position)) := by
  obtain ⟨attrFlags, r, hrest⟩ := List.exists_cons_of_length_pos
    (show 0 < b.rest.length by unfold ReadBuffer.remaining at hend; omega)
  rw [parseAttribute, escapes_of_ok (readUnsignedByte_cons hrest), escapes_getPosition,
    escapes_guard, position_advance (by omega), not_le]
  by_cases hone : b.position + 1 < pathAttributeEnd
  · have hr : (b.advance 1).rest = r := by
      rw [rest_advance, hrest, List.drop_succ_cons, List.drop_zero]
    have hlen : r.length + 1 = b.remaining := by simp [ReadBuffer.remaining, hrest]
    obtain ⟨attrTypeCode, s, rfl⟩ := List.exists_cons_of_length_pos (show 0 < r.length by omega)
    have htake : b.rest.take (pathAttributeEnd - b.position) =
        attrFlags :: attrTypeCode :: s.take (pathAttributeEnd - b.position - 2) := by
      rw [hrest, List.take_cons (by omega), List.take_cons (by omega)]
      rfl
    rw [htake, and_iff_right hone, escapes_of_ok (readUnsignedByte_cons hr), advance_advance,
      AttributeDefective]
    have hs : (b.advance (1 + 1)).rest = s := by rw [rest_advance, hrest]; rfl
    rw [List.length_cons] at hlen
    dsimp only
    generalize (if extendedLengthBit attrFlags.toNat then 2 else 1) = attrLenOctets
    rw [escapes_getPosition, escapes_guard, position_advance (by omega), List.length_take]
    by_cases hoctets : pathAttributeEnd < b.position + (1 + 1) + attrLenOctets
    · exact iff_of_false (fun h => h.1 hoctets) fun h => by omega
    rw [and_iff_right hoctets, escapes_readBytes (by rw [remaining_advance]; omega), hs,
      advance_advance, escapes_getPosition, escapes_guard, position_advance (by omega),
      List.take_take, Nat.min_eq_left (by omega)]
    generalize valueOf (s.take attrLenOctets) = attrLen
    by_cases hvalue : pathAttributeEnd < b.position + (1 + 1 + attrLenOctets) + attrLen
    · exact iff_of_false (fun h => h.1 hvalue) fun h => by omega
    have hfits : attrLenOctets + attrLen ≤ min (pathAttributeEnd - b.position - 2) s.length := by
      omega
    rw [and_iff_right hvalue, escapes_verified (by rw [remaining_advance]; omega),
      and_iff_right hfits, ← advance_advance, rest_advance, hs, section_take (by omega)]
  · refine iff_of_false (fun h => hone h.1) fun h => ?_
    rw [hrest, show pathAttributeEnd - b.position = 1 by omega] at h
    exact h

end Attributes

section Messages

variable {session : BgpSession} {b : ReadBuffer}

theorem not_escapes_verifyWellKnown {values : PathAttributes} {nlri : List IpPrefix} :
    ¬Escapes (verifyBgpUpdateWellKnownAttributes session values nlri) b := by
  unfold verifyBgpUpdateWellKnownAttributes
  simp only [escapes_guard]
  exact fun h => not_escapes_pure h.2.2.2.2

theorem escapes_parsePathAttributes :
    Escapes (parsePathAttributes session) b ↔ b.remaining < 2 ∨ PathDefective session b := by
  rw [parsePathAttributes, readUnsignedShort]
  by_cases htwo : b.remaining < 2
  · have hshort : (do return valueOf (← readBytes 2) : Parser ℕ) b = .error .indexOutOfBounds := by
      rw [bind_apply, readBytes, if_neg (Nat.not_le_of_lt htwo)]
      rfl
    rw [escapes_of_error hshort]
    exact iff_of_true (by simp [Checked]) (.inl htwo)
  rw [or_iff_right htwo, escapes_number (by omega), escapes_getRemaining, escapes_guard,
    remaining_advance, PathDefective]
  by_cases hcut : b.remaining - 2 < valueOf (b.rest.take 2)
  · exact iff_of_false (fun h => h.1 hcut) fun h => by omega
  rw [and_iff_right hcut, and_iff_right (show 2 + valueOf (b.rest.take 2) ≤ b.remaining by omega)]
  by_cases hzero : valueOf (b.rest.take 2) = 0
  · rw [if_pos hzero]
    exact iff_of_false not_escapes_pure fun h => h.1 hzero
  rw [if_neg hzero, and_iff_right hzero, escapes_getPosition, escapes_bind,
    escapes_readUntil (advances_parseAttribute session _)]
  refine or_congr ?_ ?_
  · refine exists_congr fun b' => and_congr_right fun hvisit => ?_
    have hends := hvisit.ends ((advances_parseAttribute session _).mono (Nat.zero_le 1))
    rw [remaining_advance] at hends
    exact escapes_parseAttribute hends.1 (by omega)
  · refine exists_congr fun attributes => exists_congr fun b' => and_congr_right fun _ => ?_
    rw [escapes_getRemaining, escapes_bind, escapes_parsePackedPrefixes isFixed_ip4 (Nat.le_refl _)]
    rw [ReadBuffer.remaining, List.take_length]
    refine or_iff_left ?_
    rintro ⟨_, _, _, hescapes⟩
    exact not_escapes_verifyWellKnown (escapes_map.mp hescapes)

theorem escapes_parseUpdate (session : BgpSession) (message : List Byte) :
    Escapes (parseUpdate session) ⟨[], message, []⟩ ↔ Defective session message := by
  rw [parseUpdate, escapes_getRemaining, escapes_guard, remaining_mk, Defective]
  by_cases hshort : message.length < BGP_UPDATE_MIN_LENGTH - BGP_HEADER_LENGTH
  · exact iff_of_false (fun h => h.1 hshort) fun h => Nat.not_le_of_lt hshort h.1
  have hfour : 4 ≤ message.length := Nat.le_of_not_lt hshort
  rw [and_iff_right hshort, and_iff_right (Nat.le_of_not_lt hshort), readUnsignedShort,
    escapes_number (by rw [remaining_mk]; omega), escapes_getRemaining, escapes_guard,
    remaining_advance, remaining_mk]
  dsimp only
  by_cases hcut : message.length - 2 < valueOf (message.take 2)
  · exact iff_of_false (fun h => h.1 hcut) fun h => by omega
  have hfits : 2 + valueOf (message.take 2) ≤ message.length := by omega
  rw [and_iff_right hcut, and_iff_right hfits, escapes_bind, escapes_parsePackedPrefixes isFixed_ip4
      (by rw [remaining_advance, remaining_mk]; omega)]
  simp only [escapes_map, escapes_parsePathAttributes]

/-- A message is answered exactly unless it ends before the length of its attributes or meets a
prefix that is too long. What is accepted has only prefixes that are no longer than an address. -/
theorem isAnswered_iff (session : BgpSession) (ribIn : RibIn) (message : List Byte) :
    (IsAnswered session ribIn message ∧ ∀ parsed,
      (parseUpdate session).run' ⟨[], message, []⟩ = .ok parsed →
        ∀ p ∈ withdrawn parsed ++ (announced parsed).map Prod.fst,
          p.prefixLength ≤ p.address.bitLength) ↔ ¬Defective session message := by
  rw [and_iff_left fun _ _ p _ => p.le_bitLength, ← escapes_parseUpdate]
  cases hparse : parseUpdate session ⟨[], message, []⟩ with
  | error e =>
    have hresult : (processBgpUpdate session ribIn message).2 = .error e := by
      rw [processBgpUpdate, decodeUpdate, StateT.run', hparse]
      rfl
    rw [IsAnswered, hresult, Escapes, hparse]
    simp
  | ok r =>
    have hrun : (parseUpdate session).run' ⟨[], message, []⟩ = .ok r.1 := by
      rw [StateT.run', hparse]
      rfl
    obtain ⟨decoded, hdecode, -⟩ := follows_iff ribIn hrun
    rw [IsAnswered, processBgpUpdate, hdecode, Escapes, hparse]
    exact iff_of_true (by simp) (by simp)

/-- A withdrawn prefix of 33 bits. -/
theorem longPrefix_not_answered : ¬IsAnswered (peer 1) ∅ [0, 6, 33, 10, 0, 0, 0, 0, 0, 0] := by
  intro h
  obtain ⟨_, hchecked⟩ := h .indexOutOfBounds rfl
  cases hchecked

end Messages

end BgpAnswers

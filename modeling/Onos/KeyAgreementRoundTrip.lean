import Onos.KeyAgreementSets

/-! MKA protocol data units that are written and read back: which parameter sets come back with the
fields they had. -/
namespace KeyAgreement

open BufferReaders ByteBuffer FallibleRun KeyedMap Packets WireBytes

section Next

open EAPOLMkpdu

variable {α : Type} {x : Reader DeserializationException α} {f : α → ParameterSet} {type : Byte}
  {mkpdu : EAPOLMkpdu} {before : List Byte}

section

variable (hmap : PARAMETERSET_DESERIALIZER_MAP type = some (deserializerOf x f))

include hmap

theorem readNext_of_read {body rest : List Byte} {a : α} {c : ReadBuffer}
    (htype : 0 ≤ type.toInt ∧ type.toInt ≤ 4)
    (hread : x ⟨before ++ [type], body ++ rest, []⟩ = .ok (a, c))
    (hlength : (body.length : ℤ) + 1 = (setPeerListType type (f a)).getTotalLength.toInt)
    (hrest : rest.length ≠ 1) (hshort : body.length + rest.length < 32768) :
    mkpdu.readNext ⟨before, type :: (body ++ rest), []⟩ =
      .ok ((⟨store mkpdu.parameterSets type (setPeerListType type (f a))⟩,
        ⟨type, setPeerListType type (f a), (setPeerListType type (f a)).getTotalLength.toInt⟩),
          ⟨before ++ [type] ++ body, rest, []⟩) := by
  have hdeserialized : deserializerOf x f (ReadBuffer.array ⟨before ++ [type], body ++ rest, []⟩)
      (ReadBuffer.position ⟨before ++ [type], body ++ rest, []⟩)
      (ReadBuffer.remaining ⟨before ++ [type], body ++ rest, []⟩) = .ok (some (f a)) := by
    rw [deserializerOf, wrap_self]
    change (x.run' _ >>= fun a => pure (some (f a))) = _
    rw [run'_of_ok hread]
    rfl
  have hadd : mkpdu.addOrThrow type ((some (f a)).map (setPeerListType type)) =
      .ok ⟨store mkpdu.parameterSets type (setPeerListType type (f a))⟩ := by
    rw [addOrThrow, Option.map_some, addParameterSet, if_pos (.inl htype)]
  have hremaining : (BitVec.ofNat 16 (ReadBuffer.remaining ⟨before ++ [type], body ++ rest, []⟩)).toInt =
      body.length + rest.length := by
    rw [remaining_mk, List.length_append, toInt_ofNat_of_lt (by omega)]
    omega
  have hmove : (if (setPeerListType type (f a)).getTotalLength.toInt <
      (BitVec.ofNat 16 (ReadBuffer.remaining ⟨before ++ [type], body ++ rest, []⟩)).toInt then
        (setPeerListType type (f a)).getTotalLength.toInt - 1
      else (BitVec.ofNat 16 (ReadBuffer.remaining ⟨before ++ [type], body ++ rest, []⟩)).toInt) =
        body.length := by
    rw [hremaining, ← hlength]
    split_ifs <;> omega
  have hset := setPosition_append (χ := DeserializationException) (before ++ [type]) body rest []
    (ReadBuffer.position ⟨before ++ [type], body ++ rest, []⟩ + body.length) rfl
  have hconsumed : (ReadBuffer.position ⟨before ++ [type] ++ body, rest, []⟩ : ℤ) -
      ReadBuffer.position ⟨before, type :: (body ++ rest), []⟩ =
        (setPeerListType type (f a)).getTotalLength.toInt := by
    simp only [ReadBuffer.position]
    rw [← hlength, List.length_append, List.length_append, List.length_singleton]
    omega
  rw [readNext, bind_of_ok (getPosition_apply _), bind_of_ok (getByte_cons _ _ _ _),
    bind_of_ok (get_state_apply _), hmap, bind_of_ok (lift_of_ok (nonNull_some _) _),
    bind_of_ok (lift_of_ok hdeserialized _)]
  dsimp only
  rw [bind_of_ok (lift_of_ok hadd _), Option.map_some, bind_of_ok (lift_of_ok (nonNull_some _) _)]
  rw [hmove, bind_of_ok hset, bind_of_ok (getPosition_apply _), hconsumed]
  rfl

theorem read_of_readNext {ys beyond : List Byte} {mkpdu' : EAPOLMkpdu} {e : Extracted} {b : ReadBuffer}
    (h : mkpdu.readNext ⟨before, type :: ys, beyond⟩ = .ok ((mkpdu', e), b)) :
    ∃ a c, x ⟨before ++ [type], ys, beyond⟩ = .ok (a, c) ∧ e.ps = setPeerListType type (f a) := by
  rw [readNext, bind_of_ok (getPosition_apply _), bind_of_ok (getByte_cons _ _ _ _),
    bind_of_ok (get_state_apply _), hmap, bind_of_ok (lift_of_ok (nonNull_some _) _)] at h
  obtain ⟨ps, b₁, hps, h⟩ := bind_apply_eq_ok h
  have hps := ok_of_lift hps
  obtain ⟨bb, hwrap, hps⟩ := bind_eq_ok.mp hps
  rw [wrap_self] at hwrap
  cases hwrap
  obtain ⟨a, ha, hps⟩ := bind_eq_ok.mp hps
  cases hps
  obtain ⟨added, b₂, -, h⟩ := bind_apply_eq_ok h
  rw [Option.map_some, bind_of_ok (lift_of_ok (nonNull_some _) _)] at h
  obtain ⟨_, b₃, -, h⟩ := bind_apply_eq_ok h
  obtain ⟨position, b₄, -, h⟩ := bind_apply_eq_ok h
  cases h
  obtain ⟨c, ha⟩ := run'_eq_ok ha
  exact ⟨a, c, ha, rfl⟩

end

theorem stored_of_readNext {b b' : ReadBuffer} {mkpdu' : EAPOLMkpdu} {e : Extracted}
    (h : mkpdu.readNext b = .ok ((mkpdu', e), b')) :
    b.rest.head? = some e.type ∧ mkpdu' = ⟨store mkpdu.parameterSets e.type e.ps⟩ := by
  obtain ⟨before, rest, beyond⟩ := b
  cases rest with
  | nil => cases h
  | cons y ys =>
    rw [readNext, bind_of_ok (getPosition_apply _), bind_of_ok (getByte_cons _ _ _ _)] at h
    obtain ⟨bb, b₁, -, h⟩ := bind_apply_eq_ok h
    obtain ⟨psDeserializer, b₂, -, h⟩ := bind_apply_eq_ok h
    obtain ⟨ps, b₃, -, h⟩ := bind_apply_eq_ok h
    obtain ⟨added, b₄, hadded, h⟩ := bind_apply_eq_ok h
    obtain ⟨ps', b₅, hps', h⟩ := bind_apply_eq_ok h
    obtain ⟨_, b₆, -, h⟩ := bind_apply_eq_ok h
    obtain ⟨position, b₇, -, h⟩ := bind_apply_eq_ok h
    cases h
    have hadded := ok_of_lift hadded
    have hps' := ok_of_lift hps'
    refine ⟨rfl, ?_⟩
    cases hps : ps.map (setPeerListType y) with
    | none =>
      rw [hps] at hps'
      cases hps'
    | some ps'' =>
      rw [hps] at hadded hps'
      cases hps'
      rw [addOrThrow, addParameterSet] at hadded
      split_ifs at hadded
      · cases hadded
        rfl
      · cases hadded

end Next

section Sets

open EAPOLMkpdu

namespace ParameterSet

def IsOf (type : Byte) : ParameterSet → Prop
  | basic ps => type = PARAMETERSET_TYPE_BASIC ∧ ps.IsActor
  | peerList ps => (type = PARAMETERSET_TYPE_LIVE_PEER_LIST ∨
      type = PARAMETERSET_TYPE_POTENTIAL_PEER_LIST) ∧ ps.peerListType = type ∧ ps.IsPeerList
  | macSecUse ps => type = PARAMETERSET_TYPE_MACSEC_SAK_USE ∧ ps.IsUse
  | _ => False

def IsPlain : ParameterSet → Prop
  | basic ps => ps.IsPlain
  | peerList ps => ps.members ≠ [] ∧ ps.members.length < 8
  | macSecUse ps => ps.IsPlain
  | _ => True

def erased : ParameterSet → ParameterSet
  | basic ps => basic ps.erased
  | peerList ps => peerList { ps with bodyLength := 0 }
  | macSecUse ps => macSecUse ps.erased
  | distributedSAK ps => distributedSAK { ps with bodyLength := 0 }
  | icvIndicator ps => icvIndicator { ps with bodyLength := 0 }

def bytes : ParameterSet → List Byte
  | basic ps => ps.encode
  | peerList ps => if ps.members = [] then [] else ps.peerListType :: ps.body
  | macSecUse ps => PARAMETERSET_TYPE_MACSEC_SAK_USE :: ps.body
  | _ => []

def unwritten : ParameterSet → ℕ
  | basic _ => 0
  | peerList ps => if ps.members = [] then 4 else 0
  | macSecUse _ => 0
  | distributedSAK _ => 0
  | icvIndicator _ => 0

variable {type : Byte} {ps : ParameterSet}

theorem serialize_eq (wrapper : List Byte → List Byte) (h : ps.IsOf type) :
    ∃ chunk, ps.serialize wrapper = .ok chunk ∧ chunk.getD [] = ps.bytes := by
  cases ps with
  | basic ps =>
    refine ⟨some ps.encode, ?_, rfl⟩
    rw [serialize, BasicParameterSet.serialize_eq h.2]
    rfl
  | peerList ps =>
    refine ⟨_, PeerListParameterSet.serialize_eq h.2.2, ?_⟩
    rw [bytes]
    split_ifs <;> rfl
  | macSecUse ps =>
    refine ⟨some (PARAMETERSET_TYPE_MACSEC_SAK_USE :: ps.body), ?_, rfl⟩
    rw [serialize, MACSecUseParameterSet.serialize_eq h.2]
    rfl
  | distributedSAK ps => cases h
  | icvIndicator ps => cases h

theorem length_bytes (h : ps.IsOf type) :
    (ps.bytes.length : ℤ) + ps.unwritten = ps.getTotalLength.toInt := by
  cases ps with
  | basic ps =>
    rw [getTotalLength, ← BasicParameterSet.length_encode h.2, bytes, unwritten]
    simp
  | peerList ps =>
    have hlength := PeerListParameterSet.length_body h.2.2
    rw [getTotalLength, ← hlength, bytes, unwritten]
    split_ifs with hnil
    · simp [PeerListParameterSet.body, hnil]
    · simp
  | macSecUse ps =>
    have hlength := MACSecUseParameterSet.length_body h.2
    have htotal : (ParameterSet.macSecUse ps).getTotalLength.toInt = 44 := rfl
    rw [htotal, bytes, unwritten, List.length_cons, hlength]
    rfl
  | distributedSAK ps => cases h
  | icvIndicator ps => cases h

theorem totalLength_le (h : ps.IsOf type) :
    0 ≤ ps.getTotalLength.toInt ∧ ps.getTotalLength.toInt ≤ 4084 := by
  cases ps with
  | basic ps =>
    have htotal := BasicParameterSet.getTotalLength_toInt h.2
    have hmax := h.2.2.2.2.2
    rw [getTotalLength, htotal]
    omega
  | peerList ps =>
    have hlength : ps.getTotalLength.toInt = 4 + 16 * ps.members.length :=
      toInt_peersLength (by have := h.2.2.2; omega)
    have hmax := h.2.2.2
    rw [getTotalLength, hlength]
    omega
  | macSecUse ps =>
    have htotal : (ParameterSet.macSecUse ps).getTotalLength.toInt = 44 := rfl
    rw [htotal]
    decide
  | distributedSAK ps => cases h
  | icvIndicator ps => cases h

end ParameterSet

open ParameterSet

variable {type : Byte} {ps : ParameterSet} {mkpdu : EAPOLMkpdu} {before rest : List Byte}

theorem readNext_of_plain (mkpdu : EAPOLMkpdu) (before : List Byte) (h : ps.IsOf type)
    (hnext : type ≠ PARAMETERSET_TYPE_BASIC)
    (hplain : ps.IsPlain) (hrest : rest.length ≠ 1) (hshort : ps.bytes.length + rest.length < 32768) :
    ∃ ps', ps'.erased = ps.erased ∧ mkpdu.readNext ⟨before, ps.bytes ++ rest, []⟩ =
      .ok ((⟨store mkpdu.parameterSets type ps'⟩, ⟨type, ps', ps.getTotalLength.toInt⟩),
        ⟨before ++ ps.bytes, rest, []⟩) := by
  cases ps with
  | basic ps => exact absurd h.1 hnext
  | peerList ps =>
    obtain ⟨htype, rfl, hpeers⟩ := h
    have hread := PeerListParameterSet.read_body hpeers hplain.2 (before ++ [ps.peerListType]) rest []
    have hlength := PeerListParameterSet.length_body hpeers
    have hbytes : bytes (.peerList ps) = ps.peerListType :: ps.body := if_neg hplain.1
    have hmap : PARAMETERSET_DESERIALIZER_MAP ps.peerListType =
        some (deserializerOf PeerListParameterSet.read .peerList) := by
      obtain htype | htype := htype <;> rw [htype] <;> rfl
    have hsmall : 0 ≤ ps.peerListType.toInt ∧ ps.peerListType.toInt ≤ 4 := by
      obtain htype | htype := htype <;> rw [htype] <;> decide
    rw [hbytes] at hshort ⊢
    rw [List.length_cons] at hshort
    refine ⟨.peerList ⟨ps.peerListType, bodyLengthOf 4 ps.msb ps.lsb, ps.members⟩, rfl, ?_⟩
    rw [List.cons_append, readNext_of_read hmap hsmall hread hlength hrest (by omega),
      List.append_assoc]
    rfl
  | macSecUse ps =>
    obtain ⟨rfl, huse⟩ := h
    have hread := MACSecUseParameterSet.read_body huse
      (before ++ [PARAMETERSET_TYPE_MACSEC_SAK_USE]) rest []
    have hlength := MACSecUseParameterSet.length_body huse
    have hbytes : bytes (.macSecUse ps) = PARAMETERSET_TYPE_MACSEC_SAK_USE :: ps.body := rfl
    rw [hbytes] at hshort ⊢
    rw [List.length_cons] at hshort
    refine ⟨.macSecUse ps.readBack, ?_, ?_⟩
    · rw [erased, erased, (MACSecUseParameterSet.erased_readBack_iff huse).mpr hplain]
    · rw [List.cons_append, readNext_of_read rfl (by decide) hread (by rw [hlength]; rfl) hrest (by omega),
        List.append_assoc]
      rfl
  | distributedSAK ps => cases h
  | icvIndicator ps => cases h

theorem plain_of_readNext {mkpdu' : EAPOLMkpdu} {e : Extracted} {b : ReadBuffer} (h : ps.IsOf type)
    (hnext : type ≠ PARAMETERSET_TYPE_BASIC) (hbytes : ps.bytes ≠ [])
    (hread : mkpdu.readNext ⟨before, ps.bytes ++ rest, []⟩ = .ok ((mkpdu', e), b))
    (hps : e.ps.erased = ps.erased) : ps.IsPlain := by
  cases ps with
  | basic ps => exact absurd h.1 hnext
  | peerList ps =>
    obtain ⟨htype, rfl, hpeers⟩ := h
    have hnil : ps.members ≠ [] := fun hnil => hbytes (if_pos hnil)
    have hwritten : bytes (.peerList ps) = ps.peerListType :: ps.body := if_neg hnil
    have hmap : PARAMETERSET_DESERIALIZER_MAP ps.peerListType =
        some (deserializerOf PeerListParameterSet.read .peerList) := by
      obtain htype | htype := htype <;> rw [htype] <;> rfl
    rw [hwritten, List.cons_append] at hread
    obtain ⟨list, c, hlist, he⟩ := read_of_readNext hmap hread
    rw [he] at hps
    have hmembers := congrArg PeerListParameterSet.members (ParameterSet.peerList.inj hps)
    exact ⟨hnil, PeerListParameterSet.few_of_read hpeers hlist hmembers⟩
  | macSecUse ps =>
    obtain ⟨rfl, huse⟩ := h
    have hwritten : bytes (.macSecUse ps) = PARAMETERSET_TYPE_MACSEC_SAK_USE :: ps.body := rfl
    rw [hwritten, List.cons_append] at hread
    obtain ⟨use, c, hu, he⟩ := read_of_readNext rfl hread
    rw [MACSecUseParameterSet.read_body huse] at hu
    cases hu
    rw [he] at hps
    exact (MACSecUseParameterSet.erased_readBack_iff huse).mp (ParameterSet.macSecUse.inj hps)
  | distributedSAK ps => cases h
  | icvIndicator ps => cases h

end Sets

section Runs

open EAPOLMkpdu ParameterSet

def EAPOLMkpdu.Extracted.view (e : Extracted) : Byte × ParameterSet × ℤ := (e.type, e.ps.erased, e.consumed)

def entry (e : Byte × ParameterSet) : Byte × ParameterSet × ℤ :=
  (e.1, e.2.erased, e.2.getTotalLength.toInt)

def bytesOfAll (entries : List (Byte × ParameterSet)) : List Byte :=
  (entries.map fun e => e.2.bytes).flatten

def unwrittenOfAll (entries : List (Byte × ParameterSet)) : ℕ :=
  (entries.map fun e => e.2.unwritten).sum

def writtenOfAll (entries : List (Byte × ParameterSet)) : List Byte :=
  bytesOfAll entries ++ List.replicate (unwrittenOfAll entries) 0

variable {type : Byte} {ps : ParameterSet} {entries : List (Byte × ParameterSet)}

theorem bytes_cases (h : ps.IsOf type) : (ps.bytes = [] ∧ ps.unwritten = 4 ∧ type ≠ 0) ∨
      (2 ≤ ps.bytes.length ∧ ps.unwritten = 0 ∧ (type ≠ 0 → ps.bytes.head? = some type)) := by
  cases ps with
  | basic ps =>
    refine .inr ⟨?_, rfl, fun hne => absurd h.1 hne⟩
    simp [bytes, BasicParameterSet.encode]
  | peerList ps =>
    obtain ⟨htype, rfl, -⟩ := h
    rw [bytes, unwritten]
    split_ifs with hnil
    · refine .inl ⟨rfl, rfl, ?_⟩
      obtain htype | htype := htype <;> rw [htype] <;> decide
    · refine .inr ⟨?_, rfl, fun _ => rfl⟩
      simp [PeerListParameterSet.body]
  | macSecUse ps =>
    obtain ⟨rfl, -⟩ := h
    refine .inr ⟨?_, rfl, fun _ => rfl⟩
    simp [bytes, MACSecUseParameterSet.body]
  | distributedSAK ps => cases h
  | icvIndicator ps => cases h

theorem unwritten_of_plain (h : ps.IsOf type) (hplain : ps.IsPlain) : ps.bytes ≠ [] := by
  cases ps with
  | basic ps => exact List.cons_ne_nil _ _
  | peerList ps =>
    rw [bytes, if_neg hplain.1]
    exact List.cons_ne_nil _ _
  | macSecUse ps => exact List.cons_ne_nil _ _
  | distributedSAK ps => cases h
  | icvIndicator ps => cases h

theorem written_cons (entries : List (Byte × ParameterSet)) {e : Byte × ParameterSet}
    (h : e.2.unwritten = 0) :
    writtenOfAll (e :: entries) = e.2.bytes ++ writtenOfAll entries := by
  have hall : unwrittenOfAll (e :: entries) = e.2.unwritten + unwrittenOfAll entries := rfl
  rw [writtenOfAll, hall, h, Nat.zero_add, writtenOfAll, ← List.append_assoc]
  rfl

theorem hasRemaining_append {before xs ys beyond : List Byte} (h : 2 ≤ xs.length) :
    ReadBuffer.hasRemaining ⟨before, xs ++ ys, beyond⟩ = true := by
  cases xs with
  | nil => simp at h
  | cons z zs => rfl

theorem written_cases (h : ∀ e ∈ entries, e.2.IsOf e.1) :
    4 ∣ unwrittenOfAll entries ∧ (bytesOfAll entries = [] ∨ 2 ≤ (bytesOfAll entries).length) := by
  induction entries with
  | nil => exact ⟨dvd_zero 4, .inl rfl⟩
  | cons e entries ih =>
    obtain ⟨hdvd, hbytes⟩ := ih fun e' he' => h e' (List.mem_cons_of_mem e he')
    have hunwritten : unwrittenOfAll (e :: entries) = e.2.unwritten + unwrittenOfAll entries := rfl
    have hall : bytesOfAll (e :: entries) = e.2.bytes ++ bytesOfAll entries := rfl
    rw [hunwritten, hall]
    obtain ⟨hnil, hfour, -⟩ | ⟨htwo, hzero, -⟩ := bytes_cases (h e List.mem_cons_self)
    · rw [hnil, hfour]
      exact ⟨(Nat.dvd_add_right (dvd_refl 4)).mpr hdvd, hbytes⟩
    · rw [hzero, Nat.zero_add, List.length_append]
      exact ⟨hdvd, .inr (by omega)⟩

theorem length_written_ne_one (h : ∀ e ∈ entries, e.2.IsOf e.1) :
    (writtenOfAll entries).length ≠ 1 := by
  obtain ⟨hdvd, hnil | htwo⟩ := written_cases h
  · rw [writtenOfAll, hnil, List.nil_append, List.length_replicate]
    omega
  · rw [writtenOfAll, List.length_append]
    omega

theorem head_written (h : ∀ e ∈ entries, e.2.IsOf e.1 ∧ e.1 ≠ 0) {y : Byte} {n : ℕ}
    (hy : (bytesOfAll entries ++ List.replicate n 0).head? = some y) :
    y = 0 ∨ ∃ e ∈ entries, y = e.1 := by
  induction entries with
  | nil =>
    cases n with
    | zero => cases hy
    | succ n =>
      cases hy
      exact .inl rfl
  | cons e entries ih =>
    have hall : bytesOfAll (e :: entries) = e.2.bytes ++ bytesOfAll entries := rfl
    obtain ⟨hof, hne⟩ := h e List.mem_cons_self
    rw [hall] at hy
    obtain ⟨hnil, -, -⟩ | ⟨htwo, -, htype⟩ := bytes_cases hof
    · rw [hnil, List.nil_append] at hy
      obtain hzero | ⟨e', he', rfl⟩ := ih (fun e' he' => h e' (List.mem_cons_of_mem e he')) hy
      · exact .inl hzero
      · exact .inr ⟨e', List.mem_cons_of_mem e he', rfl⟩
    · have hhead : e.2.bytes.head? = some y := by
        cases hb : e.2.bytes with
        | nil =>
          rw [hb] at htwo
          simp at htwo
        | cons z zs =>
          rw [hb] at hy
          exact hy
      rw [htype hne] at hhead
      exact .inr ⟨e, List.mem_cons_self, (Option.some.inj hhead).symm⟩

variable {fuel : ℕ} {mkpdu mkpdu' : EAPOLMkpdu} {sets : List Extracted}

theorem stored_of_readRest {b : ReadBuffer}
    (h : readRest fuel mkpdu b = some (.ok (mkpdu', sets))) :
    mkpdu' = ⟨sets.foldl (fun m e => store m e.type e.ps) mkpdu.parameterSets⟩ := by
  induction fuel generalizing mkpdu b sets with
  | zero => cases h
  | succ fuel ih =>
    rw [readRest] at h
    split_ifs at h
    · cases hnext : mkpdu.readNext b with
      | error e =>
        rw [hnext] at h
        cases h
      | ok r =>
        obtain ⟨⟨mkpdu₁, e⟩, b₁⟩ := r
        rw [hnext] at h
        obtain ⟨rest, hrest, hmap⟩ := Option.map_eq_some_iff.mp h
        obtain ⟨⟨mkpdu₂, sets'⟩, hok, hsets⟩ := map_eq_ok.mp hmap
        cases hsets
        rw [hok] at hrest
        rw [ih hrest, (stored_of_readNext hnext).2]
        rfl
    · cases h
      rfl

theorem readRest_of_plain (h : ∀ e ∈ entries, e.2.IsOf e.1 ∧ e.1 ≠ 0 ∧ e.2.IsPlain)
    (hshort : (writtenOfAll entries).length < 32768) (mkpdu : EAPOLMkpdu) (before : List Byte) :
    ∃ mkpdu' sets, readRest (entries.length + 1) mkpdu ⟨before, writtenOfAll entries, []⟩ =
      some (.ok (mkpdu', sets)) ∧ sets.map Extracted.view = entries.map entry := by
  induction entries generalizing mkpdu before with
  | nil => exact ⟨mkpdu, [], rfl, rfl⟩
  | cons e entries ih =>
    obtain ⟨hof, hne, hplain⟩ := h e List.mem_cons_self
    have hentries : ∀ e' ∈ entries, e'.2.IsOf e'.1 ∧ e'.1 ≠ 0 ∧ e'.2.IsPlain := by
      intro e' he'
      exact h e' (List.mem_cons_of_mem e he')
    obtain ⟨hnil, -, -⟩ | ⟨htwo, hunwritten, -⟩ := bytes_cases hof
    · exact absurd hnil (unwritten_of_plain hof hplain)
    · have hwritten := written_cons entries hunwritten
      rw [hwritten, List.length_append] at hshort
      obtain ⟨ps', hps', hread⟩ := readNext_of_plain mkpdu before hof hne hplain
        (length_written_ne_one fun e' he' => (hentries e' he').1) hshort
      obtain ⟨mkpdu', sets, hrest, hsets⟩ := ih hentries (by omega)
        ⟨store mkpdu.parameterSets e.1 ps'⟩ (before ++ e.2.bytes)
      refine ⟨mkpdu', ⟨e.1, ps', e.2.getTotalLength.toInt⟩ :: sets, ?_, ?_⟩
      · rw [hwritten, List.length_cons, readRest, if_pos (hasRemaining_append htwo), hread]
        dsimp only
        rw [hrest]
        rfl
      · rw [List.map_cons, List.map_cons, hsets, Extracted.view, hps', entry]

theorem readRest_cons {b : ReadBuffer} {e : Extracted}
    (h : readRest fuel mkpdu b = some (.ok (mkpdu', e :: sets))) :
    ∃ fuel' mkpdu₁ b₁, mkpdu.readNext b = .ok ((mkpdu₁, e), b₁) ∧
      readRest fuel' mkpdu₁ b₁ = some (.ok (mkpdu', sets)) := by
  cases fuel with
  | zero => cases h
  | succ fuel =>
    rw [readRest] at h
    split_ifs at h
    · cases hnext : mkpdu.readNext b with
      | error e =>
        rw [hnext] at h
        cases h
      | ok r =>
        obtain ⟨⟨mkpdu₁, e₁⟩, b₁⟩ := r
        rw [hnext] at h
        obtain ⟨rest, hrest, hmap⟩ := Option.map_eq_some_iff.mp h
        obtain ⟨⟨mkpdu₂, sets'⟩, hok, hsets⟩ := map_eq_ok.mp hmap
        cases hsets
        rw [hok] at hrest
        exact ⟨fuel, mkpdu₁, b₁, rfl, hrest⟩
    · cases h

/-- A run that takes every set as it is finds plain sets only: one that is not written is not taken,
and after one that is plain the next follows. -/
theorem plain_of_readRest (h : ∀ e ∈ entries, e.2.IsOf e.1 ∧ e.1 ≠ 0)
    (hnodup : (entries.map Prod.fst).Nodup) (hshort : (writtenOfAll entries).length < 32768)
    {before : List Byte}
    (hrun : readRest fuel mkpdu ⟨before, writtenOfAll entries, []⟩ = some (.ok (mkpdu', sets)))
    (hsets : sets.map Extracted.view = entries.map entry) : ∀ e ∈ entries, e.2.IsPlain := by
  induction entries generalizing fuel mkpdu before sets with
  | nil =>
    intro e he
    cases he
  | cons e entries ih =>
    obtain ⟨hof, hne⟩ := h e List.mem_cons_self
    have hentries : ∀ e' ∈ entries, e'.2.IsOf e'.1 ∧ e'.1 ≠ 0 := by
      intro e' he'
      exact h e' (List.mem_cons_of_mem e he')
    rw [List.map_cons, List.nodup_cons] at hnodup
    cases sets with
    | nil => cases hsets
    | cons s sets =>
      obtain ⟨hview, htail⟩ := List.cons.inj hsets
      obtain ⟨htype, hps⟩ := Prod.mk.inj hview
      have hps := (Prod.mk.inj hps).1
      obtain ⟨fuel', mkpdu₁, b₁, hread, hrun⟩ := readRest_cons hrun
      obtain ⟨hnil, hunwritten, -⟩ | ⟨htwo, hunwritten, -⟩ := bytes_cases hof
      · obtain ⟨hhead, -⟩ := stored_of_readNext hread
        have hwritten : writtenOfAll (e :: entries) = (e.2.bytes ++ bytesOfAll entries) ++
            List.replicate (e.2.unwritten + unwrittenOfAll entries) 0 := rfl
        have hfirst : s.type = e.1 := htype
        rw [hwritten, hnil, List.nil_append, hfirst] at hhead
        obtain hzero | ⟨e', he', hsame⟩ := head_written hentries hhead
        · exact absurd hzero hne
        · exact absurd (List.mem_map.mpr ⟨e', he', hsame.symm⟩) hnodup.1
      · have hwritten := written_cons entries hunwritten
        rw [hwritten] at hread
        rw [hwritten, List.length_append] at hshort
        have hplain : e.2.IsPlain := by
          apply plain_of_readNext hof hne ?_ hread hps
          intro hnil
          rw [hnil] at htwo
          simp at htwo
        obtain ⟨ps', hps', hread'⟩ := readNext_of_plain mkpdu before hof hne hplain
          (length_written_ne_one fun e' he' => (hentries e' he').1) hshort
        rw [hread'] at hread
        cases hread
        have hrest := ih hentries hnodup.2 (by omega) hrun htail
        intro e' he'
        obtain rfl | hmem := List.mem_cons.mp he'
        · exact hplain
        · exact hrest e' hmem

end Runs

section Front

open EAPOLMkpdu

variable {ps : BasicParameterSet} {rest : List Byte}

theorem getTotalLength_readBack (h : ps.IsActor) : ps.readBack.getTotalLength = ps.getTotalLength := by
  have hmax := h.2.2.2.2
  have hlength := length_paddedName ps
  have hround : ∀ n < 33, basicLength ((35 + n) / 4 * 4 - 32) = basicLength n := by decide
  change basicLength ps.paddedName.length = basicLength ps.ckn.length
  rw [hlength]
  exact hround _ (by omega)

theorem readBasic_encode (h : ps.IsActor) (mkpdu : EAPOLMkpdu) :
    mkpdu.readBasic ⟨[], ps.encode ++ rest, []⟩ =
      .ok ((⟨store mkpdu.parameterSets PARAMETERSET_TYPE_BASIC (.basic ps.readBack)⟩,
        ⟨PARAMETERSET_TYPE_BASIC, .basic ps.readBack, ps.getTotalLength.toInt⟩),
          ⟨ps.encode, rest, []⟩) := by
  have hlength := BasicParameterSet.length_encode h
  have htotal := BasicParameterSet.getTotalLength_toInt h
  have hread := BasicParameterSet.read_encode h [] rest []
  have hlong : ¬ ((ReadBuffer.remaining ⟨[], ps.encode ++ rest, []⟩ : ℤ) < 32) := by
    have hmin := h.2.2.2.1
    rw [remaining_mk, List.length_append]
    omega
  have hdeserialized : BasicParameterSet.deserializer (ReadBuffer.array ⟨[], ps.encode ++ rest, []⟩)
      (ReadBuffer.position ⟨[], ps.encode ++ rest, []⟩)
      (ReadBuffer.remaining ⟨[], ps.encode ++ rest, []⟩) = .ok (some ps.readBack) := by
    rw [BasicParameterSet.deserializer, if_neg hlong, wrap_self]
    change (BasicParameterSet.read.run' _ >>= fun ps => pure (some ps)) = _
    rw [run'_of_ok hread]
    rfl
  have hset := setPosition_append (χ := DeserializationException) [] ps.encode rest []
    (ReadBuffer.position ⟨[], ps.encode ++ rest, []⟩ +
      (ParameterSet.basic ps.readBack).getTotalLength.toInt) (by
        rw [ParameterSet.getTotalLength, getTotalLength_readBack h, ← hlength]
        rfl)
  have hadd : mkpdu.addOrThrow PARAMETERSET_TYPE_BASIC (some (.basic ps.readBack)) =
      .ok ⟨store mkpdu.parameterSets PARAMETERSET_TYPE_BASIC (.basic ps.readBack)⟩ := rfl
  have hmap : PARAMETERSET_DESERIALIZER_MAP PARAMETERSET_TYPE_BASIC = some fun data offset length =>
      (BasicParameterSet.deserializer data offset length).map (Option.map .basic) := rfl
  have hconsumed : (ReadBuffer.position ⟨[] ++ ps.encode, rest, []⟩ : ℤ) -
      ReadBuffer.position ⟨[], ps.encode ++ rest, []⟩ = ps.getTotalLength.toInt := by
    rw [← hlength]
    simp [ReadBuffer.position]
  have hget : (BasicParameterSet.deserializer (ReadBuffer.array ⟨[], ps.encode ++ rest, []⟩)
      (ReadBuffer.position ⟨[], ps.encode ++ rest, []⟩)
      (ReadBuffer.remaining ⟨[], ps.encode ++ rest, []⟩)).map (Option.map ParameterSet.basic) =
        .ok (some (.basic ps.readBack)) := by
    rw [hdeserialized]
    rfl
  rw [readBasic, bind_of_ok (get_state_apply _), hmap, bind_of_ok (lift_of_ok (nonNull_some _) _)]
  dsimp only
  rw [bind_of_ok (lift_of_ok hget _), bind_of_ok (lift_of_ok hadd _),
    bind_of_ok (lift_of_ok (nonNull_some _) _), bind_of_ok hset, bind_of_ok (getPosition_apply _),
    hconsumed]
  rfl

end Front

section Messages

open EAPOLMkpdu ParameterSet

def EAPOLMkpdu.entries (mkpdu : EAPOLMkpdu) : List (Byte × ParameterSet) :=
  parametersetSerializerKeyList.filterMap fun type =>
    (mkpdu.parameterSets.lookup type).map fun ps => (type, ps)

/-- A basic set, and at will lists of peers and the use of keys, each under its type. -/
structure EAPOLMkpdu.IsWellFormed (mkpdu : EAPOLMkpdu) : Prop where
  basic : ∃ ps, mkpdu.parameterSets.lookup PARAMETERSET_TYPE_BASIC = some (.basic ps)
  isOf : ∀ type ps, mkpdu.parameterSets.lookup type = some ps → ps.IsOf type

/-- The sets that are taken from the bytes are those that were written, in their order, with their
fields, and the position goes on by their lengths. -/
def EAPOLMkpdu.RoundTrips (wrapper : List Byte → List Byte) (mkpdu : EAPOLMkpdu) : Prop :=
  ∃ data fuel mkpdu' sets, mkpdu.serialize wrapper = .ok data ∧
    EAPOLMkpdu.deserializer fuel data 0 data.length = some (.ok (mkpdu', sets)) ∧
    (∀ type, (mkpdu'.parameterSets.lookup type).map erased =
      (mkpdu.parameterSets.lookup type).map erased) ∧
    sets.map Extracted.view = mkpdu.entries.map entry

def EAPOLMkpdu.IsPlain (mkpdu : EAPOLMkpdu) : Prop :=
  ∀ type ps, mkpdu.parameterSets.lookup type = some ps → ps.IsPlain

variable {mkpdu : EAPOLMkpdu}

theorem keys_sublist {κ α : Type} (f : κ → Option α) (keys : List κ) :
    ((keys.filterMap fun k => (f k).map fun a => (k, a)).map Prod.fst).Sublist keys := by
  induction keys with
  | nil => exact List.Sublist.refl []
  | cons k keys ih =>
    rw [List.filterMap_cons]
    cases f k with
    | none => exact ih.cons k
    | some a => exact ih.cons_cons k

theorem nodup_entries (mkpdu : EAPOLMkpdu) : (mkpdu.entries.map Prod.fst).Nodup := by
  have hkeys : parametersetSerializerKeyList.Nodup := by decide
  exact hkeys.sublist (keys_sublist _ _)

theorem mem_keyList {type : Byte} {ps : ParameterSet} (h : ps.IsOf type) :
    type ∈ parametersetSerializerKeyList := by
  cases ps with
  | basic ps =>
    rw [h.1]
    decide
  | peerList ps =>
    obtain ⟨htype | htype, -⟩ := h <;> rw [htype] <;> decide
  | macSecUse ps =>
    rw [h.1]
    decide
  | distributedSAK ps => cases h
  | icvIndicator ps => cases h

theorem mem_entries_iff (h : mkpdu.IsWellFormed) (type : Byte) (ps : ParameterSet) :
    (type, ps) ∈ mkpdu.entries ↔ mkpdu.parameterSets.lookup type = some ps := by
  simp only [EAPOLMkpdu.entries, List.mem_filterMap, Option.map_eq_some_iff, Prod.mk.injEq]
  constructor
  · rintro ⟨type', -, ps', hlookup, rfl, rfl⟩
    exact hlookup
  · intro hlookup
    exact ⟨type, mem_keyList (h.isOf type ps hlookup), ps, hlookup, rfl, rfl⟩

theorem isOf_entries (h : mkpdu.IsWellFormed) : ∀ e ∈ mkpdu.entries, e.2.IsOf e.1 := by
  rintro ⟨type, ps⟩ he
  exact h.isOf type ps ((mem_entries_iff h type ps).mp he)

theorem entries_eq (h : mkpdu.IsWellFormed) : ∃ ps tail, mkpdu.entries =
    (PARAMETERSET_TYPE_BASIC, .basic ps) :: tail ∧ ∀ e ∈ tail, e.1 ≠ 0 := by
  obtain ⟨ps, hps⟩ := h.basic
  have heq : ∃ tail, mkpdu.entries = (PARAMETERSET_TYPE_BASIC, .basic ps) :: tail := by
    rw [EAPOLMkpdu.entries, parametersetSerializerKeyList, List.filterMap_cons, hps]
    exact ⟨_, rfl⟩
  obtain ⟨tail, heq⟩ := heq
  refine ⟨ps, tail, heq, ?_⟩
  have hnodup := nodup_entries mkpdu
  rw [heq, List.map_cons, List.nodup_cons] at hnodup
  intro e he hzero
  exact hnodup.1 (List.mem_map.mpr ⟨e, he, hzero⟩)

section Lengths

theorem sum_perm {xs ys : List (BitVec 16)} (h : xs.Perm ys) :
    xs.foldr (· + ·) 0 = ys.foldr (· + ·) 0 := by
  induction h with
  | nil => rfl
  | cons x _ ih => rw [List.foldr_cons, List.foldr_cons, ih]
  | swap x y l =>
    rw [List.foldr_cons, List.foldr_cons, List.foldr_cons, List.foldr_cons, ← BitVec.add_assoc,
      ← BitVec.add_assoc, BitVec.add_comm x y]
  | trans _ _ ih₁ ih₂ => exact ih₁.trans ih₂

theorem length_entries_le (mkpdu : EAPOLMkpdu) : mkpdu.entries.length ≤ 6 := by
  have hlength := (keys_sublist mkpdu.parameterSets.lookup parametersetSerializerKeyList).length_le
  rwa [List.length_map] at hlength

def totalOfAll (entries : List (Byte × ParameterSet)) : BitVec 16 :=
  (entries.map fun e => e.2.getTotalLength).foldr (· + ·) 0

theorem toInt_sum_lengths {entries : List (Byte × ParameterSet)} (h : ∀ e ∈ entries, e.2.IsOf e.1)
    (hfew : entries.length ≤ 6) : (totalOfAll entries).toInt = (writtenOfAll entries).length ∧
      (writtenOfAll entries).length ≤ 4084 * entries.length := by
  induction entries with
  | nil => exact ⟨rfl, Nat.le_refl 0⟩
  | cons e entries ih =>
    rw [List.length_cons] at hfew
    obtain ⟨hsum, hle⟩ := ih (fun e' he' => h e' (List.mem_cons_of_mem e he')) (by omega)
    have hof := h e List.mem_cons_self
    have hbytes := length_bytes hof
    have htotal := totalLength_le hof
    have hwritten : (writtenOfAll (e :: entries)).length =
        e.2.bytes.length + e.2.unwritten + (writtenOfAll entries).length := by
      have hall : unwrittenOfAll (e :: entries) = e.2.unwritten + unwrittenOfAll entries := rfl
      have hbytes : bytesOfAll (e :: entries) = e.2.bytes ++ bytesOfAll entries := rfl
      simp only [writtenOfAll, hall, hbytes, List.length_append, List.length_replicate]
      omega
    have htotals : totalOfAll (e :: entries) = e.2.getTotalLength + totalOfAll entries := rfl
    rw [htotals, BitVec.toInt_add, hsum, hwritten, List.length_cons]
    refine ⟨?_, by omega⟩
    rw [Int.bmod_eq_of_le (by omega) (by omega)]
    omega

end Lengths

section Serializing

theorem entries_perm (h : mkpdu.IsWellFormed) :
    (mkpdu.parameterSets.entries.map fun e => (e.1, e.2)).Perm mkpdu.entries := by
  have hkeys : ((mkpdu.parameterSets.entries.map fun e => (e.1, e.2)).map Prod.fst).Nodup := by
    have hnodup := mkpdu.parameterSets.nodupKeys
    unfold List.NodupKeys List.keys at hnodup
    rwa [List.map_map]
  apply (List.perm_ext_iff_of_nodup hkeys.of_map (nodup_entries mkpdu).of_map).mpr
  rintro ⟨type, ps⟩
  rw [mem_entries_iff h, ← KeyedMap.mem_entries_iff, List.mem_map]
  constructor
  · rintro ⟨e, he, heq⟩
    cases heq
    exact he
  · intro he
    exact ⟨_, he, rfl⟩

theorem packetLength_eq (h : mkpdu.IsWellFormed) :
    mkpdu.packetLength.toInt = (writtenOfAll mkpdu.entries).length := by
  have hperm := (entries_perm h).map fun e => e.2.getTotalLength
  rw [List.map_map] at hperm
  rw [← (toInt_sum_lengths (isOf_entries h) (length_entries_le mkpdu)).1, totalOfAll, ← sum_perm hperm]
  rfl

theorem serialize_all (wrapper : List Byte → List Byte) {entries : List (Byte × ParameterSet)}
    (h : ∀ e ∈ entries, e.2.IsOf e.1) : ∃ chunks, (entries.map Prod.snd).mapM
      (ParameterSet.serialize wrapper) = .ok chunks ∧
        (chunks.filterMap id).flatten = bytesOfAll entries := by
  induction entries with
  | nil => exact ⟨[], rfl, rfl⟩
  | cons e entries ih =>
    obtain ⟨chunks, hchunks, hflatten⟩ := ih fun e' he' => h e' (List.mem_cons_of_mem e he')
    obtain ⟨chunk, hchunk, hbytes⟩ := ParameterSet.serialize_eq wrapper (h e List.mem_cons_self)
    have hall : bytesOfAll (e :: entries) = e.2.bytes ++ bytesOfAll entries := rfl
    refine ⟨chunk :: chunks, ?_, ?_⟩
    · rw [List.map_cons, List.mapM_cons, hchunk, hchunks]
      rfl
    · rw [hall, ← hbytes, List.filterMap_cons, ← hflatten]
      cases chunk <;> rfl

theorem serialize_written (wrapper : List Byte → List Byte) (h : mkpdu.IsWellFormed) :
    mkpdu.serialize wrapper = .ok (writtenOfAll mkpdu.entries) := by
  obtain ⟨chunks, hchunks, hflatten⟩ := serialize_all wrapper (isOf_entries h)
  have hsets : parametersetSerializerKeyList.filterMap mkpdu.parameterSets.lookup =
      mkpdu.entries.map Prod.snd := by
    rw [EAPOLMkpdu.entries, List.map_filterMap]
    congr 1
    funext type
    cases mkpdu.parameterSets.lookup type <;> rfl
  have hlength := packetLength_eq h
  have hle : ((chunks.filterMap id).flatten.length : ℤ) ≤ mkpdu.packetLength.toInt := by
    rw [hlength, hflatten, writtenOfAll, List.length_append]
    omega
  have hzeros : mkpdu.packetLength.toInt.toNat - (bytesOfAll mkpdu.entries).length =
      unwrittenOfAll mkpdu.entries := by
    rw [hlength, writtenOfAll, List.length_append, List.length_replicate]
    omega
  rw [EAPOLMkpdu.serialize, hsets, hchunks]
  change fillNew _ _ = _
  rw [fillNew_of_le hle, hflatten, hzeros, writtenOfAll]

end Serializing

section Maps

theorem lookup_stored {sets : List Extracted} (hnodup : (sets.map Extracted.type).Nodup)
    (m : Table Byte ParameterSet) (type : Byte) :
    (∀ e ∈ sets, e.type = type →
      (sets.foldl (fun m e => store m e.type e.ps) m).lookup type = some e.ps) ∧
    (type ∉ sets.map Extracted.type →
      (sets.foldl (fun m e => store m e.type e.ps) m).lookup type = m.lookup type) := by
  induction sets generalizing m with
  | nil => exact ⟨fun e he => absurd he List.not_mem_nil, fun _ => rfl⟩
  | cons s sets ih =>
    rw [List.map_cons, List.nodup_cons] at hnodup
    obtain ⟨hmem, hnot⟩ := ih hnodup.2 (store m s.type s.ps)
    rw [List.foldl_cons]
    constructor
    · intro e he htype
      obtain rfl | he := List.mem_cons.mp he
      · subst htype
        rw [hnot hnodup.1, lookup_store, if_pos rfl]
      · exact hmem e he htype
    · intro hnew
      rw [List.map_cons, List.mem_cons, not_or] at hnew
      rw [hnot hnew.2, lookup_store, if_neg hnew.1]

theorem lookup_of_view (h : mkpdu.IsWellFormed) {sets : List Extracted}
    (hsets : sets.map Extracted.view = mkpdu.entries.map entry) (type : Byte) :
    ((sets.foldl (fun m e => store m e.type e.ps) ∅).lookup type).map erased =
      (mkpdu.parameterSets.lookup type).map erased := by
  have htypes : sets.map Extracted.type = mkpdu.entries.map Prod.fst := by
    have hfst := congrArg (List.map Prod.fst) hsets
    rw [List.map_map, List.map_map] at hfst
    exact hfst
  have hnodup : (sets.map Extracted.type).Nodup := htypes ▸ nodup_entries mkpdu
  obtain ⟨hmem, hnot⟩ := lookup_stored hnodup ∅ type
  cases hps : mkpdu.parameterSets.lookup type with
  | none =>
    rw [hnot ?_]
    · rfl
    · rw [htypes]
      rintro hin
      obtain ⟨⟨type', ps⟩, he, rfl⟩ := List.mem_map.mp hin
      rw [(mem_entries_iff h type' ps).mp he] at hps
      cases hps
  | some ps =>
    have he := List.mem_map_of_mem (f := entry) ((mem_entries_iff h type ps).mpr hps)
    rw [← hsets] at he
    obtain ⟨e, he, hview⟩ := List.mem_map.mp he
    obtain ⟨htype, hview⟩ := Prod.mk.inj hview
    rw [hmem e he htype]
    exact congrArg some (Prod.mk.inj hview).1

end Maps

section Returning

variable {ps : BasicParameterSet} {tail : List (Byte × ParameterSet)}

def firstExtracted (ps : BasicParameterSet) : Extracted :=
  ⟨PARAMETERSET_TYPE_BASIC, .basic ps.readBack, ps.getTotalLength.toInt⟩

theorem deserializer_written (hof : ps.IsActor) (fuel : ℕ) {data : List Byte}
    (hdata : data = ps.encode ++ writtenOfAll tail) :
    EAPOLMkpdu.deserializer fuel data 0 data.length =
      (readRest fuel ⟨store ∅ PARAMETERSET_TYPE_BASIC (.basic ps.readBack)⟩
        ⟨ps.encode, writtenOfAll tail, []⟩).map
          (Except.map fun r => (r.1, firstExtracted ps :: r.2)) := by
  have hread : (wrap data 0 data.length).bind (EAPOLMkpdu.readBasic ⟨∅⟩) =
      .ok ((⟨store ∅ PARAMETERSET_TYPE_BASIC (.basic ps.readBack)⟩, firstExtracted ps),
        ⟨ps.encode, writtenOfAll tail, []⟩) := by
    rw [wrap_whole, hdata]
    exact readBasic_encode hof ⟨∅⟩
  rw [EAPOLMkpdu.deserializer, hread]

theorem view_firstExtracted (h : ps.IsActor) :
    (firstExtracted ps).view = entry (PARAMETERSET_TYPE_BASIC, .basic ps) ↔ ps.IsPlain := by
  rw [← BasicParameterSet.erased_readBack_iff h]
  constructor
  · intro hview
    have hps : erased (.basic ps.readBack) = erased (.basic ps) :=
      (Prod.mk.inj (Prod.mk.inj hview).2).1
    exact ParameterSet.basic.inj hps
  · intro hps
    have hset : erased (.basic ps.readBack) = erased (.basic ps) := congrArg ParameterSet.basic hps
    rw [Extracted.view, firstExtracted, hset]
    rfl

theorem roundTrips_iff (wrapper : List Byte → List Byte) (h : mkpdu.IsWellFormed) :
    mkpdu.RoundTrips wrapper ↔ ∀ e ∈ mkpdu.entries, e.2.IsPlain := by
  obtain ⟨ps, tail, heq, hne⟩ := entries_eq h
  have hall := isOf_entries h
  have hnodup := nodup_entries mkpdu
  obtain ⟨-, hlength⟩ := toInt_sum_lengths hall (length_entries_le mkpdu)
  have hlong := length_entries_le mkpdu
  have hserialize := serialize_written wrapper h
  have hview := @lookup_of_view mkpdu h
  rw [EAPOLMkpdu.RoundTrips]
  rw [heq] at hall hnodup hlength hserialize hview hlong ⊢
  have hactor : ps.IsActor := (hall _ List.mem_cons_self).2
  have htail : ∀ e ∈ tail, e.2.IsOf e.1 ∧ e.1 ≠ 0 := by
    intro e he
    exact ⟨hall e (List.mem_cons_of_mem _ he), hne e he⟩
  have hwritten : writtenOfAll ((PARAMETERSET_TYPE_BASIC, .basic ps) :: tail) =
      ps.encode ++ writtenOfAll tail := written_cons tail rfl
  have hshort : (writtenOfAll tail).length < 32768 := by
    rw [hwritten, List.length_append] at hlength
    omega
  rw [List.map_cons, List.nodup_cons] at hnodup
  rw [List.forall_mem_cons]
  constructor
  · rintro ⟨data, fuel, mkpdu', sets, hdata, hdeserialized, -, hsets⟩
    rw [hserialize] at hdata
    cases hdata
    rw [deserializer_written hactor fuel hwritten] at hdeserialized
    obtain ⟨r, hrest, hmap⟩ := Option.map_eq_some_iff.mp hdeserialized
    obtain ⟨⟨mkpdu₁, sets'⟩, hok, hcons⟩ := map_eq_ok.mp hmap
    cases hcons
    rw [hok] at hrest
    obtain ⟨hfirst, hsets⟩ := List.cons.inj hsets
    exact ⟨(view_firstExtracted hactor).mp hfirst,
      plain_of_readRest htail hnodup.2 hshort hrest hsets⟩
  · rintro ⟨hplain, hplains⟩
    obtain ⟨mkpdu', sets, hrest, hsets⟩ := readRest_of_plain
      (fun e he => ⟨(htail e he).1, (htail e he).2, hplains e he⟩) hshort
      ⟨store ∅ PARAMETERSET_TYPE_BASIC (.basic ps.readBack)⟩ ps.encode
    have hviews : (firstExtracted ps :: sets).map Extracted.view =
        ((PARAMETERSET_TYPE_BASIC, .basic ps) :: tail).map entry := by
      rw [List.map_cons, List.map_cons, (view_firstExtracted hactor).mpr hplain, hsets]
    refine ⟨_, tail.length + 1, mkpdu', firstExtracted ps :: sets, hserialize, ?_, ?_, hviews⟩
    · rw [deserializer_written hactor _ hwritten, hrest]
      rfl
    · intro type
      rw [← hview hviews type, stored_of_readRest hrest]
      rfl

end Returning

end Messages

/-- Exactly the messages whose sets are all plain are read back set by set. -/
theorem mkpdu_roundTrips_iff (wrapper : List Byte → List Byte) {mkpdu : EAPOLMkpdu}
    (h : mkpdu.IsWellFormed) : mkpdu.RoundTrips wrapper ↔ mkpdu.IsPlain := by
  rw [roundTrips_iff wrapper h]
  constructor
  · intro hplain type ps hlookup
    exact hplain (type, ps) ((mem_entries_iff h type ps).mpr hlookup)
  · rintro hplain ⟨type, ps⟩ he
    exact hplain type ps ((mem_entries_iff h type ps).mp he)

def basicMkpdu (keyServer : Bool) : EAPOLMkpdu where
  parameterSets := (∅ : Table Byte ParameterSet).insert PARAMETERSET_TYPE_BASIC (.basic
    { mkaVersion := 1
      keyServerPriority := 16
      keyServer
      macSecDesired := true
      capability := 2
      bodyLength := 0
      sci := ⟨[0, 1, 2, 3, 4, 5], 1⟩
      mi := [1, 2, 3, 4, 5, 6, 7, 8, 9, 10, 11, 12]
      mn := 1
      algAgility := [0, 0x80, 0xc2, 1]
      ckn := [1, 2, 3, 4] })

theorem isWellFormed_basicMkpdu (keyServer : Bool) : (basicMkpdu keyServer).IsWellFormed where
  basic := ⟨_, AList.lookup_insert _⟩
  isOf := by
    intro type ps hlookup
    rw [basicMkpdu, KeyedMap.lookup_insert] at hlookup
    split_ifs at hlookup with htype
    · cases hlookup
      exact ⟨htype, rfl, rfl, rfl, by simp, by simp⟩
    · cases hlookup

theorem mkpdu_roundTrips_iff_basicMkpdu : (basicMkpdu false).IsWellFormed ∧
    ((basicMkpdu false).RoundTrips id ↔ (basicMkpdu false).IsPlain) :=
  ⟨isWellFormed_basicMkpdu false, mkpdu_roundTrips_iff id (isWellFormed_basicMkpdu false)⟩

/-- The key server flag is lost. -/
theorem keyServer_lost : ¬ ∀ mkpdu : EAPOLMkpdu, mkpdu.IsWellFormed → mkpdu.RoundTrips id := by
  intro h
  have hwell := isWellFormed_basicMkpdu true
  have hplain := (roundTrips_iff id hwell).mp (h _ hwell) (PARAMETERSET_TYPE_BASIC, _)
    ((mem_entries_iff hwell _ _).mpr (AList.lookup_insert _))
  cases hplain.1

end KeyAgreement

import Mathlib.Data.Finset.Union
import Onos.JoinPruneMessages

/-! PIM join/prune messages that are written and read back: which of them come back with their
groups and sources. -/
namespace JoinPruneMessages

open BufferReaders ByteBuffer FallibleRun IpAddresses KeyedMap Packets WireBytes

section Members

def PIMJoinPrune.members (jp : PIMJoinPrune) (g : IpPrefix) :
    Option (Finset IpPrefix × Finset IpPrefix) :=
  (jp.joinPrunes.lookup g).map fun jpg => (jpg.joins.toFinset, jpg.prunes.toFinset)

def gained (sources : List IpPrefix) (join : Bool) (m : Option (Finset IpPrefix × Finset IpPrefix)) :
    Option (Finset IpPrefix × Finset IpPrefix) :=
  if sources = [] then m
  else
    let old := m.getD (∅, ∅)
    some (if join then (old.1 ∪ sources.toFinset, old.2) else (old.1, old.2 ∪ sources.toFinset))

variable (jp : PIMJoinPrune) (g g' spfx : IpPrefix) (join : Bool)

theorem members_add (jpg : PIMJoinPruneGroup) :
    ((jpg.add spfx join).joins.toFinset, (jpg.add spfx join).prunes.toFinset) =
      if join then (jpg.joins.toFinset ∪ {spfx}, jpg.prunes.toFinset)
      else (jpg.joins.toFinset, jpg.prunes.toFinset ∪ {spfx}) := by
  have hadd : ∀ members : List IpPrefix, (if spfx ∈ members then members else members ++ [spfx]).toFinset =
      members.toFinset ∪ {spfx} := by
    intro members
    split_ifs with hmem
    · exact (Finset.union_eq_left.mpr (by simpa using hmem)).symm
    · simp
  unfold PIMJoinPruneGroup.add
  cases join with
  | true =>
    rw [if_pos rfl, if_pos rfl, ← hadd]
    split_ifs <;> rfl
  | false =>
    rw [if_neg Bool.false_ne_true, if_neg Bool.false_ne_true, ← hadd]
    split_ifs <;> rfl

theorem members_addJoinPrune : (jp.addJoinPrune spfx g join).members g' =
    if g' = g then gained [spfx] join (jp.members g) else jp.members g' := by
  unfold PIMJoinPrune.addJoinPrune PIMJoinPrune.members
  rw [lookup_store]
  by_cases hg : g' = g
  · rw [if_pos hg, if_pos hg, Option.map_some, members_add, gained, if_neg (List.cons_ne_nil _ _)]
    cases jp.joinPrunes.lookup g <;> rfl
  · rw [if_neg hg, if_neg hg]

theorem gained_gained (sources : List IpPrefix) (m : Option (Finset IpPrefix × Finset IpPrefix)) :
    gained sources join (gained [spfx] join m) = gained (spfx :: sources) join m := by
  have hfirst : gained [spfx] join m =
      some (if join then ((m.getD (∅, ∅)).1 ∪ {spfx}, (m.getD (∅, ∅)).2)
        else ((m.getD (∅, ∅)).1, (m.getD (∅, ∅)).2 ∪ {spfx})) := if_neg (List.cons_ne_nil _ _)
  rw [hfirst, gained, gained, if_neg (List.cons_ne_nil _ _), List.toFinset_cons]
  by_cases hnil : sources = []
  · rw [if_pos hnil, hnil]
    rfl
  · rw [if_neg hnil, Finset.insert_eq]
    cases join <;> simp

def PIMJoinPrune.addAll (jp : PIMJoinPrune) (sources : List IpPrefix) (g : IpPrefix) (join : Bool) :
    PIMJoinPrune :=
  sources.foldl (fun jp spfx => jp.addJoinPrune spfx g join) jp

theorem members_addAll (sources : List IpPrefix) : (jp.addAll sources g join).members g' =
    if g' = g then gained sources join (jp.members g) else jp.members g' := by
  induction sources generalizing jp with
  | nil =>
    rw [PIMJoinPrune.addAll, List.foldl_nil, gained, if_pos rfl]
    split_ifs with hg
    · rw [hg]
    · rfl
  | cons spfx sources ih =>
    have hfold : jp.addAll (spfx :: sources) g join =
        (jp.addJoinPrune spfx g join).addAll sources g join := rfl
    rw [hfold, ih, members_addJoinPrune, if_pos rfl, gained_gained, members_addJoinPrune]
    split_ifs <;> rfl

end Members

section Addresses

variable {data before ys : List Byte}

theorem checkLeft_of_le {rest : List Byte} {n : ℤ} (hdata : data = before ++ rest)
    (hint : data.length < 2 ^ 31) (hne : rest ≠ []) (h : n ≤ rest.length) :
    checkLeft data n ⟨before, rest, []⟩ = .ok ((), ⟨before, rest, []⟩) := by
  have hpos := List.length_pos_iff.mpr hne
  have hlength : data.length = before.length + rest.length := by rw [hdata, List.length_append]
  have hsum : intOf (before.length + rest.length) = before.length + rest.length :=
    intOf_of_lt (by omega) (by omega)
  have hbuffer : checkBufferLength data.length before.length rest.length = .ok () := by
    rw [checkBufferLength, if_pos]
    rw [hsum]
    omega
  have hheader : checkHeaderLength rest.length n = .ok () := by
    rw [checkHeaderLength, if_neg]
    omega
  have hcheck : checkInput data before.length rest.length n = .ok () := by
    rw [checkInput, hbuffer]
    exact hheader
  exact lift_of_ok hcheck _

theorem readFamily_ip4 {ip4Length ip6Length : ℤ} {message : ℤ → String}
    (hdata : data = before ++ (ADDRESS_FAMILY_IP4 :: ys)) (hint : data.length < 2 ^ 31)
    (h : ip4Length ≤ ys.length + 1) :
    readFamily data ip4Length ip6Length message ⟨before, ADDRESS_FAMILY_IP4 :: ys, []⟩ =
      .ok (ADDRESS_FAMILY_IP4, ⟨before ++ [ADDRESS_FAMILY_IP4], ys, []⟩) := by
  have hsix : ADDRESS_FAMILY_IP4 ≠ ADDRESS_FAMILY_IP6 := by decide
  rw [readFamily, bind_of_ok (checkLeft_of_le hdata hint (List.cons_ne_nil _ _)
    (by rw [List.length_cons]; omega)), bind_of_ok (getByte_cons _ _ _ _), if_neg (fun hno => hno.1 rfl),
    if_neg hsix]
  rfl

theorem readAddr_ip4 {a : IpAddress} (h : a.isIp4 = true) :
    readAddr data ADDRESS_FAMILY_IP4 ⟨before, a.toOctets ++ ys, []⟩ =
      .ok (a, ⟨before ++ a.toOctets, ys, []⟩) := by
  cases a with
  | INET octets =>
    rw [readAddr, if_pos rfl]
    exact bind_of_ok (getInt_append before ys [] octets)
  | INET6 octets => cases h

def arrayAddress (data : List Byte) : IpAddress := .INET6 (ofBytes 128 ((data.drop 2).take 16))

theorem addr_of_readAddr {family : Byte} {b b' : ReadBuffer} {a : IpAddress}
    (h : readAddr data family b = .ok (a, b')) : a.isIp4 = true ∨ a = arrayAddress data := by
  unfold readAddr at h
  split_ifs at h
  · obtain ⟨octets, c, -, h⟩ := bind_apply_eq_ok h
    cases h
    exact .inl rfl
  · have hvalue := ok_of_lift h
    unfold valueOf6 at hvalue
    split_ifs at hvalue
    · cases hvalue
      exact .inr rfl

theorem group_of_deserialize {b b' : ReadBuffer} {grp : PIMAddrGroup}
    (h : PIMAddrGroup.deserialize data b = .ok (grp, b')) :
    grp.addr.isIp4 = true ∨ grp.addr = arrayAddress data := by
  obtain ⟨family, b₁, -, h⟩ := bind_apply_eq_ok h
  obtain ⟨encType, b₂, -, h⟩ := bind_apply_eq_ok h
  obtain ⟨reserved, b₃, -, h⟩ := bind_apply_eq_ok h
  obtain ⟨masklen, b₄, -, h⟩ := bind_apply_eq_ok h
  obtain ⟨addr, b₅, haddr, h⟩ := bind_apply_eq_ok h
  cases h
  exact addr_of_readAddr haddr

variable (hint : data.length < 2 ^ 31)

include hint

theorem source_deserialize {spfx : IpPrefix} (h : spfx.address.isIp4 = true)
    (hdata : data = before ++ ((PIMAddrSource.ofPrefix spfx).serialize ++ ys)) :
    ∃ src, PIMAddrSource.deserialize data
      ⟨before, (PIMAddrSource.ofPrefix spfx).serialize ++ ys, []⟩ =
        .ok (src, ⟨before ++ (PIMAddrSource.ofPrefix spfx).serialize, ys, []⟩) ∧
      src.addr = spfx.address := by
  have hlength := IpAddress.length_toOctets_of_isIp4 h
  have hbytes : (PIMAddrSource.ofPrefix spfx).serialize = ADDRESS_FAMILY_IP4 :: 0 :: 0x4 ::
      BitVec.ofNat 8 spfx.prefixLength :: spfx.address.toOctets := by
    simp [PIMAddrSource.serialize, PIMAddrSource.ofPrefix, familyOf, h]
  simp only [hbytes, List.cons_append] at hdata ⊢
  refine ⟨⟨0, 0x4 &&& 0xf8, true, (0x4 : Byte) &&& 0x2 ≠ 0, (0x4 : Byte) &&& 0x1 ≠ 0,
    BitVec.ofNat 8 spfx.prefixLength, spfx.address⟩, ?_, rfl⟩
  rw [PIMAddrSource.deserialize, bind_of_ok (readFamily_ip4 hdata hint (by simp [hlength]; omega)),
    bind_of_ok (getByte_cons _ _ _ _), bind_of_ok (getByte_cons _ _ _ _),
    bind_of_ok (getByte_cons _ _ _ _), bind_of_ok (readAddr_ip4 h)]
  simp only [pure_apply, List.append_assoc, List.cons_append, List.nil_append]

theorem group_deserialize {gpfx : IpPrefix} (h : gpfx.address.isIp4 = true)
    (hdata : data = before ++ ((PIMAddrGroup.ofPrefix gpfx).serialize ++ ys)) :
    ∃ grp, PIMAddrGroup.deserialize data
      ⟨before, (PIMAddrGroup.ofPrefix gpfx).serialize ++ ys, []⟩ =
        .ok (grp, ⟨before ++ (PIMAddrGroup.ofPrefix gpfx).serialize, ys, []⟩) ∧
      grp.addr = gpfx.address := by
  have hlength := IpAddress.length_toOctets_of_isIp4 h
  have hbytes : (PIMAddrGroup.ofPrefix gpfx).serialize = ADDRESS_FAMILY_IP4 :: 0 :: 0 ::
      BitVec.ofNat 8 gpfx.prefixLength :: gpfx.address.toOctets := by
    simp [PIMAddrGroup.serialize, PIMAddrGroup.ofPrefix, familyOf, h]
  simp only [hbytes, List.cons_append] at hdata ⊢
  refine ⟨⟨0, 0 ||| 0x7d, (0 : Byte) &&& 0x80 ≠ 0, (0 : Byte) &&& 0x1 ≠ 0,
    BitVec.ofNat 8 gpfx.prefixLength, gpfx.address⟩, ?_, rfl⟩
  rw [PIMAddrGroup.deserialize, bind_of_ok (readFamily_ip4 hdata hint (by simp [hlength]; omega)),
    bind_of_ok (getByte_cons _ _ _ _), bind_of_ok (getByte_cons _ _ _ _),
    bind_of_ok (getByte_cons _ _ _ _), bind_of_ok (readAddr_ip4 h)]
  simp only [pure_apply, List.append_assoc, List.cons_append, List.nil_append]

def IsHost (p : IpPrefix) : Prop := p.address.isIp4 = true ∧ p.prefixLength = p.address.bitLength

theorem readSources_append {sources : List IpPrefix} (h : ∀ s ∈ sources, IsHost s)
    (hdata : data = before ++ (serializeSources sources ++ ys)) (grp : PIMAddrGroup) (join : Bool)
    (jp : PIMJoinPrune) :
    readSources data grp join sources.length jp ⟨before, serializeSources sources ++ ys, []⟩ =
      .ok (jp.addAll sources grp.addr.toIpPrefix join, ⟨before ++ serializeSources sources, ys, []⟩) := by
  induction sources generalizing before jp with
  | nil => simp [readSources, serializeSources, PIMJoinPrune.addAll]
  | cons spfx sources ih =>
    have hspfx := h spfx List.mem_cons_self
    have hall : serializeSources (spfx :: sources) =
        (PIMAddrSource.ofPrefix spfx).serialize ++ serializeSources sources := rfl
    rw [hall, List.append_assoc] at hdata ⊢
    obtain ⟨src, hread, haddr⟩ := source_deserialize hint hspfx.1 hdata
    have hhost : src.addr.toIpPrefix = spfx := by
      rw [haddr]
      exact (IpPrefix.toIpPrefix_address spfx).mpr hspfx.2
    rw [← List.append_assoc] at hdata
    have hrest := ih (fun s hs => h s (List.mem_cons_of_mem spfx hs)) hdata
      (jp.addJoinPrune spfx grp.addr.toIpPrefix join)
    rw [List.length_cons, readSources, bind_of_ok hread, hhost, hrest, ← List.append_assoc]
    rfl

end Addresses

section Groups

variable {data before ys : List Byte}

theorem length_serializeSources {sources : List IpPrefix} (h : ∀ s ∈ sources, IsHost s) :
    (serializeSources sources).length = 8 * sources.length := by
  induction sources with
  | nil => rfl
  | cons spfx sources ih =>
    have hrest := ih fun s hs => h s (List.mem_cons_of_mem spfx hs)
    have hlength := IpAddress.length_toOctets_of_isIp4 (h spfx List.mem_cons_self).1
    have hall : serializeSources (spfx :: sources) =
        (PIMAddrSource.ofPrefix spfx).serialize ++ serializeSources sources := rfl
    have hsource : (PIMAddrSource.ofPrefix spfx).serialize.length = 8 := by
      simp [PIMAddrSource.serialize, PIMAddrSource.ofPrefix, hlength]
    rw [hall, List.length_append, hsource, hrest, List.length_cons]
    omega

structure PIMJoinPruneGroup.IsPlain (jpg : PIMJoinPruneGroup) : Prop where
  group : IsHost jpg.group
  joins : ∀ s ∈ jpg.joins, IsHost s
  prunes : ∀ s ∈ jpg.prunes, IsHost s
  notEmpty : jpg.joins ≠ [] ∨ jpg.prunes ≠ []

def PIMJoinPrune.addGroup (jp : PIMJoinPrune) (jpg : PIMJoinPruneGroup) : PIMJoinPrune :=
  (jp.addAll jpg.joins jpg.group true).addAll jpg.prunes jpg.group false

theorem readGroup_append (hint : data.length ≤ scratchLength) {jpg : PIMJoinPruneGroup}
    (h : jpg.IsPlain) (hdata : data = before ++ (jpg.serialize ++ ys)) (jp : PIMJoinPrune) :
    readGroup data true jp ⟨before, jpg.serialize ++ ys, []⟩ =
      .ok (jp.addGroup jpg, ⟨before ++ jpg.serialize, ys, []⟩) := by
  have hshort : data.length < 2 ^ 31 := by
    unfold scratchLength at hint
    omega
  have hjoins := length_serializeSources h.joins
  have hprunes := length_serializeSources h.prunes
  have hlength : jpg.serialize.length =
      (PIMAddrGroup.ofPrefix jpg.group).serialize.length + 4 + 8 * jpg.joins.length +
        8 * jpg.prunes.length := by
    simp only [PIMJoinPruneGroup.serialize, List.length_append, length_short, hjoins, hprunes]
    omega
  have hall : data.length = before.length + (jpg.serialize.length + ys.length) := by
    rw [hdata, List.length_append, List.length_append]
  have hcounts : jpg.joins.length < 32768 ∧ jpg.prunes.length < 32768 := by
    unfold scratchLength at hint
    omega
  have hnjoins : (BitVec.ofNat 16 jpg.joins.length).toInt = jpg.joins.length :=
    toInt_ofNat_of_lt (by omega)
  have hnprunes : (BitVec.ofNat 16 jpg.prunes.length).toInt = jpg.prunes.length :=
    toInt_ofNat_of_lt (by omega)
  have hsome : 0 < jpg.joins.length + jpg.prunes.length := by
    obtain hne | hne := h.notEmpty
    · have := List.length_pos_iff.mpr hne
      omega
    · have := List.length_pos_iff.mpr hne
      omega
  simp only [PIMJoinPruneGroup.serialize, List.append_assoc] at hdata ⊢
  obtain ⟨grp, hgrp, haddr⟩ := group_deserialize hshort h.group.1 hdata
  have hhost : grp.addr.toIpPrefix = jpg.group := by
    rw [haddr]
    exact (IpPrefix.toIpPrefix_address jpg.group).mpr h.group.2
  rw [← List.append_assoc] at hdata
  have hfour := checkLeft_of_le (n := 4) hdata hshort
    (by
      intro hnil
      have := congrArg List.length hnil
      simp at this)
    (by simp; omega)
  have hdata₂ := hdata
  rw [← List.append_assoc, ← List.append_assoc] at hdata₂
  have hrequired := checkLeft_of_le
    (n := ((jpg.joins.length : ℤ) + jpg.prunes.length) * (4 + 4)) hdata₂ hshort
    (by
      intro hnil
      have := congrArg List.length hnil
      simp only [List.length_append, hjoins, hprunes, List.length_nil] at this
      omega)
    (by
      simp only [List.length_append, hjoins, hprunes]
      push_cast
      omega)
  have hread := readSources_append hshort h.joins hdata₂ grp true jp
  rw [← List.append_assoc] at hdata₂
  have hread' := readSources_append hshort h.prunes hdata₂ grp false
    (jp.addAll jpg.joins grp.addr.toIpPrefix true)
  rw [readGroup, bind_of_ok hgrp, bind_of_ok hfour, bind_of_ok (getShort_append _ _ _ _),
    bind_of_ok (getShort_append _ _ _ _), hnjoins, hnprunes, if_pos rfl, bind_of_ok hrequired,
    Int.toNat_natCast, Int.toNat_natCast, bind_of_ok hread, hread', hhost]
  simp only [List.append_assoc]
  rfl

theorem readGroups_append (hint : data.length ≤ scratchLength) {groups : List PIMJoinPruneGroup}
    (h : ∀ jpg ∈ groups, jpg.IsPlain) (hdata : data = before ++ (serializeGroups groups ++ ys))
    (jp : PIMJoinPrune) :
    readGroups data true groups.length jp ⟨before, serializeGroups groups ++ ys, []⟩ =
      .ok (groups.foldl PIMJoinPrune.addGroup jp, ⟨before ++ serializeGroups groups, ys, []⟩) := by
  induction groups generalizing before jp with
  | nil => simp [readGroups, serializeGroups]
  | cons jpg groups ih =>
    have hall : serializeGroups (jpg :: groups) = jpg.serialize ++ serializeGroups groups := rfl
    rw [hall, List.append_assoc] at hdata ⊢
    have hread := readGroup_append hint (h jpg List.mem_cons_self) hdata jp
    rw [← List.append_assoc] at hdata
    have hrest := ih (fun jpg' hjpg' => h jpg' (List.mem_cons_of_mem jpg hjpg')) hdata (jp.addGroup jpg)
    rw [List.length_cons, readGroups, bind_of_ok hread, hrest, ← List.append_assoc]
    rfl

theorem members_addGroup {jpg : PIMJoinPruneGroup} (h : jpg.IsPlain) (jp : PIMJoinPrune)
    (hnew : jp.members jpg.group = none) (g : IpPrefix) :
    (jp.addGroup jpg).members g = if g = jpg.group then
      some (jpg.joins.toFinset, jpg.prunes.toFinset) else jp.members g := by
  rw [PIMJoinPrune.addGroup, members_addAll, members_addAll, members_addAll, if_pos rfl, hnew]
  by_cases hg : g = jpg.group
  · rw [if_pos hg, if_pos hg, gained, gained]
    by_cases hjoins : jpg.joins = []
    · have hprunes : jpg.prunes ≠ [] := h.notEmpty.resolve_left fun hne => hne hjoins
      rw [if_neg hprunes, if_pos hjoins, hjoins]
      simp
    · rw [if_neg hjoins]
      by_cases hprunes : jpg.prunes = []
      · rw [if_pos hprunes, hprunes]
        simp
      · rw [if_neg hprunes]
        simp
  · rw [if_neg hg, if_neg hg, if_neg hg]

theorem members_groups {groups : List PIMJoinPruneGroup} (h : ∀ jpg ∈ groups, jpg.IsPlain)
    (hnodup : (groups.map PIMJoinPruneGroup.group).Nodup) (jp : PIMJoinPrune)
    (hnew : ∀ jpg ∈ groups, jp.members jpg.group = none) (g : IpPrefix) :
    (∀ jpg ∈ groups, jpg.group = g → (groups.foldl PIMJoinPrune.addGroup jp).members g =
      some (jpg.joins.toFinset, jpg.prunes.toFinset)) ∧
    (g ∉ groups.map PIMJoinPruneGroup.group →
      (groups.foldl PIMJoinPrune.addGroup jp).members g = jp.members g) := by
  induction groups generalizing jp with
  | nil => exact ⟨fun jpg hjpg => absurd hjpg List.not_mem_nil, fun _ => rfl⟩
  | cons jpg groups ih =>
    rw [List.map_cons, List.nodup_cons] at hnodup
    have hadd := members_addGroup (h jpg List.mem_cons_self) jp (hnew jpg List.mem_cons_self)
    have hrest := ih (fun jpg' hjpg' => h jpg' (List.mem_cons_of_mem jpg hjpg')) hnodup.2
      (jp.addGroup jpg) (by
        intro jpg' hjpg'
        have hne : jpg'.group ≠ jpg.group := by
          intro hsame
          exact hnodup.1 (List.mem_map.mpr ⟨jpg', hjpg', hsame⟩)
        rw [hadd, if_neg hne]
        exact hnew jpg' (List.mem_cons_of_mem jpg hjpg'))
    obtain ⟨hmem, hnot⟩ := hrest
    rw [List.foldl_cons]
    constructor
    · intro jpg' hjpg' hg
      obtain rfl | hjpg' := List.mem_cons.mp hjpg'
      · subst hg
        rw [hnot hnodup.1, hadd, if_pos rfl]
      · exact hmem jpg' hjpg' hg
    · intro hg
      rw [List.map_cons, List.mem_cons, not_or] at hg
      rw [hnot hg.2, hadd, if_neg hg.1]

end Groups

section Invariant

variable {data : List Byte}

/-- What holds of all that is read: groups are prefixes of one address, which is an IPv4 one or the
one of the array, and they have a source, and sources are prefixes of one address. -/
structure PIMJoinPruneGroup.IsRead (data : List Byte) (g : IpPrefix) (jpg : PIMJoinPruneGroup) :
    Prop where
  group : g.prefixLength = g.address.bitLength
  address : g.address.isIp4 = true ∨ g.address = arrayAddress data
  notEmpty : jpg.joins ≠ [] ∨ jpg.prunes ≠ []
  joins : ∀ s ∈ jpg.joins, s.prefixLength = s.address.bitLength
  prunes : ∀ s ∈ jpg.prunes, s.prefixLength = s.address.bitLength

def PIMJoinPrune.IsRead (data : List Byte) (jp : PIMJoinPrune) : Prop :=
  ∀ g jpg, jp.joinPrunes.lookup g = some jpg → jpg.IsRead data g

theorem isRead_addJoinPrune {jp : PIMJoinPrune} (h : jp.IsRead data) (a : IpAddress)
    {grp : PIMAddrGroup} (hgrp : grp.addr.isIp4 = true ∨ grp.addr = arrayAddress data) (join : Bool) :
    (jp.addJoinPrune a.toIpPrefix grp.addr.toIpPrefix join).IsRead data := by
  have hadd : ∀ jpg : PIMJoinPruneGroup, (∀ s ∈ jpg.joins, s.prefixLength = s.address.bitLength) →
      (∀ s ∈ jpg.prunes, s.prefixLength = s.address.bitLength) →
      (jpg.add a.toIpPrefix join).IsRead data grp.addr.toIpPrefix := by
    intro jpg hjoins hprunes
    have hmore : ∀ s ∈ jpg.joins ++ [a.toIpPrefix], s.prefixLength = s.address.bitLength := by
      intro s hs
      obtain hs | hs := List.mem_append.mp hs
      · exact hjoins s hs
      · rw [List.mem_singleton.mp hs]
        rfl
    have hmore' : ∀ s ∈ jpg.prunes ++ [a.toIpPrefix], s.prefixLength = s.address.bitLength := by
      intro s hs
      obtain hs | hs := List.mem_append.mp hs
      · exact hprunes s hs
      · rw [List.mem_singleton.mp hs]
        rfl
    unfold PIMJoinPruneGroup.add
    split_ifs with hjoin hmem hmem
    · exact ⟨rfl, hgrp, .inl (List.ne_nil_of_mem hmem), hjoins, hprunes⟩
    · exact ⟨rfl, hgrp, .inl (by simp), hmore, hprunes⟩
    · exact ⟨rfl, hgrp, .inr (List.ne_nil_of_mem hmem), hjoins, hprunes⟩
    · exact ⟨rfl, hgrp, .inr (by simp), hjoins, hmore'⟩
  intro g jpg hlookup
  unfold PIMJoinPrune.addJoinPrune at hlookup
  rw [lookup_store] at hlookup
  split_ifs at hlookup with hg
  · cases hlookup
    rw [hg]
    cases hold : jp.joinPrunes.lookup grp.addr.toIpPrefix with
    | none => exact hadd _ (by simp) (by simp)
    | some jpg =>
      have hread := h _ _ hold
      exact hadd jpg hread.joins hread.prunes
  · exact h g jpg hlookup

theorem isRead_readSources {grp : PIMAddrGroup}
    (hgrp : grp.addr.isIp4 = true ∨ grp.addr = arrayAddress data) {join : Bool} {n : ℕ}
    {jp jp' : PIMJoinPrune} {b b' : ReadBuffer} (h : jp.IsRead data)
    (hread : readSources data grp join n jp b = .ok (jp', b')) : jp'.IsRead data := by
  induction n generalizing jp b with
  | zero =>
    cases hread
    exact h
  | succ n ih =>
    obtain ⟨src, c, -, hread⟩ := bind_apply_eq_ok hread
    exact ih (isRead_addJoinPrune h src.addr hgrp join) hread

theorem isRead_readGroups {ipv4 : Bool} {n : ℕ} {jp jp' : PIMJoinPrune} {b b' : ReadBuffer}
    (h : jp.IsRead data) (hread : readGroups data ipv4 n jp b = .ok (jp', b')) : jp'.IsRead data := by
  induction n generalizing jp b with
  | zero =>
    cases hread
    exact h
  | succ n ih =>
    obtain ⟨jp₁, c, hgroup, hread⟩ := bind_apply_eq_ok hread
    refine ih ?_ hread
    obtain ⟨grp, b₁, hgrp, hgroup⟩ := bind_apply_eq_ok hgroup
    obtain ⟨_, b₂, -, hgroup⟩ := bind_apply_eq_ok hgroup
    obtain ⟨njoins, b₃, -, hgroup⟩ := bind_apply_eq_ok hgroup
    obtain ⟨nprunes, b₄, -, hgroup⟩ := bind_apply_eq_ok hgroup
    obtain ⟨_, b₅, -, hgroup⟩ := bind_apply_eq_ok hgroup
    obtain ⟨jp₂, b₆, hjoins, hprunes⟩ := bind_apply_eq_ok hgroup
    have haddr := group_of_deserialize hgrp
    exact isRead_readSources haddr (isRead_readSources haddr h hjoins) hprunes

end Invariant

section OtherFamily

variable {data before ys : List Byte}

theorem eq_of_checkLeft {n : ℤ} {b b' : ReadBuffer} {u : Unit} (h : checkLeft data n b = .ok (u, b')) :
    b' = b := by
  obtain ⟨c, d, hget, h⟩ := bind_apply_eq_ok h
  cases hget
  exact eq_of_lift h

theorem readFamily_cons {ip4Length ip6Length : ℤ} {message : ℤ → String} {y family : Byte}
    {b' : ReadBuffer}
    (h : readFamily data ip4Length ip6Length message ⟨before, y :: ys, []⟩ = .ok (family, b')) :
    (y = ADDRESS_FAMILY_IP4 ∨ y = ADDRESS_FAMILY_IP6) ∧ family = y ∧ b' = ⟨before ++ [y], ys, []⟩ := by
  obtain ⟨u, c, hcheck, h⟩ := bind_apply_eq_ok h
  obtain rfl := eq_of_checkLeft hcheck
  rw [bind_of_ok (getByte_cons _ _ _ _)] at h
  split_ifs at h with hneither hsix
  · cases h
  · obtain ⟨v, d, hmore, h⟩ := bind_apply_eq_ok h
    obtain rfl := eq_of_checkLeft hmore
    cases h
    exact ⟨.inr hsix, rfl, rfl⟩
  · cases h
    refine ⟨?_, rfl, rfl⟩
    by_contra hno
    exact hneither (not_or.mp hno)

theorem readSources_illegal {grp : PIMAddrGroup} {join : Bool} {n : ℕ} {jp jp' : PIMJoinPrune}
    {b' : ReadBuffer} (h : readSources data grp join n jp ⟨before, 0 :: ys, []⟩ = .ok (jp', b')) :
    jp' = jp ∧ b' = ⟨before, 0 :: ys, []⟩ := by
  cases n with
  | zero =>
    cases h
    exact ⟨rfl, rfl⟩
  | succ n =>
    obtain ⟨src, c, hsrc, -⟩ := bind_apply_eq_ok h
    obtain ⟨family, d, hfamily, -⟩ := bind_apply_eq_ok hsrc
    obtain ⟨hlegal, -⟩ := readFamily_cons hfamily
    have hillegal : ¬ ((0 : Byte) = ADDRESS_FAMILY_IP4 ∨ (0 : Byte) = ADDRESS_FAMILY_IP6) := by decide
    exact absurd hlegal hillegal

/-- A group of the other family is read up to its address: four of its octets are the numbers of
joins and prunes. -/
theorem readGroup_ip6 {ipv4 : Bool} {gpfx : IpPrefix} (hg : gpfx.address.isIp4 = false) {a : BitVec 32}
    {more : List Byte} (hoctets : gpfx.address.toOctets = int a ++ (0 :: more))
    {jp jp' : PIMJoinPrune} {b' : ReadBuffer}
    (h : readGroup data ipv4 jp ⟨before, (PIMAddrGroup.ofPrefix gpfx).serialize ++ ys, []⟩ =
      .ok (jp', b')) : jp' = jp := by
  have hbytes : (PIMAddrGroup.ofPrefix gpfx).serialize ++ ys = ADDRESS_FAMILY_IP6 :: 0 :: 0 ::
      BitVec.ofNat 8 gpfx.prefixLength :: (short (ofBytes 16 ((int a).take 2)) ++
        (short (ofBytes 16 ((int a).drop 2)) ++ (0 :: (more ++ ys)))) := by
    have hint := length_int a
    have htake : short (ofBytes 16 ((int a).take 2)) = (int a).take 2 :=
      short_ofBytes (by rw [List.length_take, hint]; rfl)
    have hdrop : short (ofBytes 16 ((int a).drop 2)) = (int a).drop 2 :=
      short_ofBytes (by rw [List.length_drop, hint])
    rw [htake, hdrop, ← List.append_assoc, List.take_append_drop]
    simp [PIMAddrGroup.serialize, PIMAddrGroup.ofPrefix, familyOf, hg, hoctets]
  have hsix : ADDRESS_FAMILY_IP6 ≠ ADDRESS_FAMILY_IP4 := by decide
  rw [hbytes] at h
  obtain ⟨grp, b₁, hgrp, h⟩ := bind_apply_eq_ok h
  obtain ⟨family, c, hfamily, hgrp⟩ := bind_apply_eq_ok hgrp
  obtain ⟨-, rfl, rfl⟩ := readFamily_cons hfamily
  rw [bind_of_ok (getByte_cons _ _ _ _), bind_of_ok (getByte_cons _ _ _ _),
    bind_of_ok (getByte_cons _ _ _ _), readAddr, if_neg hsix] at hgrp
  obtain ⟨addr, c, haddr, hgrp⟩ := bind_apply_eq_ok hgrp
  obtain rfl := eq_of_lift haddr
  cases hgrp
  obtain ⟨u, b₂, hfour, h⟩ := bind_apply_eq_ok h
  obtain rfl := eq_of_checkLeft hfour
  rw [bind_of_ok (getShort_append _ _ _ _), bind_of_ok (getShort_append _ _ _ _)] at h
  obtain ⟨v, b₃, hrequired, h⟩ := bind_apply_eq_ok h
  obtain rfl := eq_of_checkLeft hrequired
  obtain ⟨jp₁, b₄, hjoins, hprunes⟩ := bind_apply_eq_ok h
  obtain ⟨rfl, rfl⟩ := readSources_illegal hjoins
  exact (readSources_illegal hprunes).1

end OtherFamily

section Messages

structure PIMJoinPrune.Same (jp jp' : PIMJoinPrune) : Prop where
  upstreamAddr : jp'.upstreamAddr.addr = jp.upstreamAddr.addr
  holdTime : jp'.holdTime = jp.holdTime
  members : ∀ g, jp'.members g = jp.members g

/-- Groups are stored under their prefixes, a byte can count them and all fits into the array. -/
structure PIMJoinPrune.IsMessage (jp : PIMJoinPrune) : Prop where
  group : ∀ g jpg, jp.joinPrunes.lookup g = some jpg → jpg.group = g
  length_groups : jp.groups.length ≤ 255
  length_bytes : jp.bytes.length ≤ scratchLength

def PIMJoinPrune.IsOfFamily (jp : PIMJoinPrune) (ip4 : Bool) : Prop :=
  ∀ jpg ∈ jp.groups, ∀ p ∈ jpg.group :: (jpg.joins ++ jpg.prunes), p.address.isIp4 = ip4

def PIMJoinPrune.RoundTrips (jp : PIMJoinPrune) : Prop :=
  ∃ data jp', jp.serialize = .ok data ∧ PIMJoinPrune.deserializer data 0 data.length = .ok jp' ∧
    jp.Same jp'

/-- At most 127 groups of IPv4 hosts, each with a source, for an IPv4 neighbour. -/
structure PIMJoinPrune.IsKept (jp : PIMJoinPrune) : Prop where
  upstreamAddr : jp.upstreamAddr.addr.isIp4 = true
  length_groups : jp.groups.length ≤ 127
  isPlain : ∀ jpg ∈ jp.groups, jpg.IsPlain

variable {jp : PIMJoinPrune}

section

variable (h : jp.IsMessage)

include h

theorem mem_groups (jpg : PIMJoinPruneGroup) :
    jpg ∈ jp.groups ↔ jp.joinPrunes.lookup jpg.group = some jpg := by
  constructor
  · intro hjpg
    obtain ⟨⟨g, jpg'⟩, he, rfl⟩ := List.mem_map.mp hjpg
    have hlookup := (KeyedMap.mem_entries_iff jp.joinPrunes g jpg').mp he
    rw [h.group g jpg' hlookup]
    exact hlookup
  · intro hlookup
    exact List.mem_map_of_mem
      ((KeyedMap.mem_entries_iff jp.joinPrunes jpg.group jpg).mpr hlookup)

theorem nodup_groups : (jp.groups.map PIMJoinPruneGroup.group).Nodup := by
  have hkeys : jp.groups.map PIMJoinPruneGroup.group = jp.joinPrunes.entries.map Sigma.fst := by
    rw [PIMJoinPrune.groups, List.map_map]
    apply List.map_congr_left
    rintro ⟨g, jpg⟩ he
    exact h.group g jpg ((KeyedMap.mem_entries_iff jp.joinPrunes g jpg).mp he)
  rw [hkeys]
  exact jp.joinPrunes.nodupKeys

theorem members_of_mem {jpg : PIMJoinPruneGroup} (hjpg : jpg ∈ jp.groups) :
    jp.members jpg.group = some (jpg.joins.toFinset, jpg.prunes.toFinset) := by
  rw [PIMJoinPrune.members, (mem_groups h jpg).mp hjpg]
  rfl

theorem members_of_not_mem {g : IpPrefix}
    (hg : g ∉ jp.groups.map PIMJoinPruneGroup.group) : jp.members g = none := by
  rw [PIMJoinPrune.members, Option.map_eq_none_iff]
  apply Option.eq_none_iff_forall_ne_some.mpr
  intro jpg hlookup
  have hkey := h.group g jpg hlookup
  subst hkey
  exact hg (List.mem_map_of_mem ((mem_groups h jpg).mpr hlookup))

end

theorem serialize_bytes (h : jp.bytes.length ≤ scratchLength) : jp.serialize = .ok jp.bytes := by
  have hfits : ([jp.bytes].flatten.length : ℤ) ≤ (scratchLength : ℤ) := by
    rw [List.flatten_singleton]
    exact_mod_cast h
  rw [PIMJoinPrune.serialize, fillNew_of_le hfits, List.flatten_singleton]
  exact congrArg Except.ok (List.take_left ..)

def PIMJoinPrune.front (jp : PIMJoinPrune) : List Byte :=
  jp.upstreamAddr.serialize ++ (0 :: BitVec.ofNat 8 jp.groups.length :: short jp.holdTime)

def PIMJoinPrune.withoutGroups (jp : PIMJoinPrune) : PIMJoinPrune := { jp with joinPrunes := ∅ }

theorem deserializer_bytes (h : jp.upstreamAddr.addr.isIp4 = true)
    (hlength : jp.bytes.length ≤ scratchLength) :
    PIMJoinPrune.deserializer jp.bytes 0 jp.bytes.length =
      (readGroups jp.bytes true (BitVec.ofNat 8 jp.groups.length).toInt.toNat jp.withoutGroups).run'
        ⟨jp.front, serializeGroups jp.groups, []⟩ := by
  have hint : jp.bytes.length < 2 ^ 31 := by
    unfold scratchLength at hlength
    omega
  have hoctets := IpAddress.length_toOctets_of_isIp4 h
  have hbytes : jp.bytes = [] ++ (ADDRESS_FAMILY_IP4 :: jp.upstreamAddr.encType ::
      (jp.upstreamAddr.addr.toOctets ++ (0 :: BitVec.ofNat 8 jp.groups.length ::
        (short jp.holdTime ++ serializeGroups jp.groups)))) := by
    simp [PIMJoinPrune.bytes, PIMAddrUnicast.serialize, familyOf, h]
  have hupstream : PIMAddrUnicast.deserialize jp.bytes ⟨[], jp.bytes, []⟩ =
      .ok (jp.upstreamAddr, ⟨jp.upstreamAddr.serialize, 0 :: BitVec.ofNat 8 jp.groups.length ::
        (short jp.holdTime ++ serializeGroups jp.groups), []⟩) := by
    have hrest : ReadBuffer.mk [] jp.bytes [] = ⟨[], ADDRESS_FAMILY_IP4 :: jp.upstreamAddr.encType ::
      (jp.upstreamAddr.addr.toOctets ++ (0 :: BitVec.ofNat 8 jp.groups.length ::
        (short jp.holdTime ++ serializeGroups jp.groups))), []⟩ := by
      rw [List.nil_append] at hbytes
      rw [← hbytes]
    rw [PIMAddrUnicast.deserialize, hrest,
      bind_of_ok (readFamily_ip4 hbytes hint (by simp [hoctets]; omega)),
      bind_of_ok (getByte_cons _ _ _ _), bind_of_ok (readAddr_ip4 h), PIMAddrUnicast.serialize,
      familyOf, if_pos h]
    rfl
  have hfour : checkLeft jp.bytes 4 ⟨jp.upstreamAddr.serialize, 0 :: BitVec.ofNat 8 jp.groups.length ::
      (short jp.holdTime ++ serializeGroups jp.groups), []⟩ = .ok ((), _) :=
    checkLeft_of_le rfl hint (List.cons_ne_nil _ _) (by simp; omega)
  rw [PIMJoinPrune.deserializer, wrap_whole]
  have hread : PIMJoinPrune.read jp.bytes ⟨[], jp.bytes, []⟩ =
      readGroups jp.bytes true (BitVec.ofNat 8 jp.groups.length).toInt.toNat jp.withoutGroups
        ⟨jp.front, serializeGroups jp.groups, []⟩ := by
    rw [PIMJoinPrune.read, bind_of_ok hupstream, bind_of_ok hfour, bind_of_ok (getByte_cons _ _ _ _),
      bind_of_ok (getByte_cons _ _ _ _), bind_of_ok (getShort_append _ _ _ _), h, PIMJoinPrune.front]
    simp only [List.append_assoc, List.cons_append, List.nil_append]
    rfl
  exact congrArg (fun r => Except.map (fun p : PIMJoinPrune × ReadBuffer => p.1) r) hread

section Keeping

theorem addAll_front (sources : List IpPrefix) (g : IpPrefix) (join : Bool) (jp : PIMJoinPrune) :
    (jp.addAll sources g join).upstreamAddr = jp.upstreamAddr ∧
      (jp.addAll sources g join).holdTime = jp.holdTime := by
  induction sources generalizing jp with
  | nil => exact ⟨rfl, rfl⟩
  | cons spfx sources ih => exact ih (jp.addJoinPrune spfx g join)

theorem addGroups_front (groups : List PIMJoinPruneGroup) (jp : PIMJoinPrune) :
    (groups.foldl PIMJoinPrune.addGroup jp).upstreamAddr = jp.upstreamAddr ∧
      (groups.foldl PIMJoinPrune.addGroup jp).holdTime = jp.holdTime := by
  induction groups generalizing jp with
  | nil => exact ⟨rfl, rfl⟩
  | cons jpg groups ih =>
    have hjoins := addAll_front jpg.joins jpg.group true jp
    have hprunes := addAll_front jpg.prunes jpg.group false (jp.addAll jpg.joins jpg.group true)
    have hrest := ih (jp.addGroup jpg)
    exact ⟨hrest.1.trans (hprunes.1.trans hjoins.1), hrest.2.trans (hprunes.2.trans hjoins.2)⟩

theorem bytes_eq_front (jp : PIMJoinPrune) :
    jp.bytes = jp.front ++ (serializeGroups jp.groups ++ []) := by
  simp [PIMJoinPrune.bytes, PIMJoinPrune.front]

theorem roundTrips_of_isKept (h : jp.IsMessage) (hkept : jp.IsKept) : jp.RoundTrips := by
  have hcount : (BitVec.ofNat 8 jp.groups.length).toInt.toNat = jp.groups.length := by
    have hlength := hkept.length_groups
    rw [toInt_ofNat_of_lt (by omega), Int.toNat_natCast]
  have hread := readGroups_append h.length_bytes hkept.isPlain (bytes_eq_front jp) jp.withoutGroups
  rw [List.append_nil] at hread
  refine ⟨jp.bytes, jp.groups.foldl PIMJoinPrune.addGroup jp.withoutGroups,
    serialize_bytes h.length_bytes, ?_, ?_, ?_, ?_⟩
  · rw [deserializer_bytes hkept.upstreamAddr h.length_bytes, hcount]
    exact run'_of_ok hread
  · rw [(addGroups_front _ _).1]
    rfl
  · rw [(addGroups_front _ _).2]
    rfl
  · intro g
    obtain ⟨hmem, hnot⟩ := members_groups hkept.isPlain (nodup_groups h) jp.withoutGroups
      (fun _ _ => rfl) g
    by_cases hg : g ∈ jp.groups.map PIMJoinPruneGroup.group
    · obtain ⟨jpg, hjpg, rfl⟩ := List.mem_map.mp hg
      rw [hmem jpg hjpg rfl, members_of_mem h hjpg]
    · rw [hnot hg, members_of_not_mem h hg]
      rfl

end Keeping

section Losing

variable (h : jp.IsMessage)

include h

theorem groups_eq_nil (hsame : jp.Same jp.withoutGroups) : jp.groups = [] := by
  apply List.eq_nil_iff_forall_not_mem.mpr
  intro jpg hjpg
  have hmembers := hsame.members jpg.group
  rw [members_of_mem h hjpg] at hmembers
  cases hmembers

theorem isRead_of_same {data : List Byte} {jp' : PIMJoinPrune} (hsame : jp.Same jp')
    (hread : jp'.IsRead data) {jpg : PIMJoinPruneGroup} (hjpg : jpg ∈ jp.groups) :
    jpg.IsRead data jpg.group := by
  have hmembers := hsame.members jpg.group
  rw [members_of_mem h hjpg] at hmembers
  obtain ⟨jpg', hlookup, hsets⟩ := Option.map_eq_some_iff.mp hmembers
  obtain ⟨hjoins, hprunes⟩ := Prod.mk.inj hsets
  have hof := hread _ _ hlookup
  have hmem : ∀ s, (s ∈ jpg'.joins ↔ s ∈ jpg.joins) ∧ (s ∈ jpg'.prunes ↔ s ∈ jpg.prunes) := by
    intro s
    rw [← List.mem_toFinset, hjoins, List.mem_toFinset, ← List.mem_toFinset (l := jpg'.prunes),
      hprunes, List.mem_toFinset]
    exact ⟨Iff.rfl, Iff.rfl⟩
  refine ⟨hof.group, hof.address, ?_, ?_, ?_⟩
  · obtain hne | hne := hof.notEmpty
    · obtain ⟨s, hs⟩ := List.exists_mem_of_ne_nil _ hne
      exact .inl (List.ne_nil_of_mem ((hmem s).1.mp hs))
    · obtain ⟨s, hs⟩ := List.exists_mem_of_ne_nil _ hne
      exact .inr (List.ne_nil_of_mem ((hmem s).2.mp hs))
  · intro s hs
    exact hof.joins s ((hmem s).1.mpr hs)
  · intro s hs
    exact hof.prunes s ((hmem s).2.mpr hs)

theorem read_of_roundTrips (hupstream : jp.upstreamAddr.addr.isIp4 = true) (hround : jp.RoundTrips) :
    ∃ jp' b', readGroups jp.bytes true (BitVec.ofNat 8 jp.groups.length).toInt.toNat
      jp.withoutGroups ⟨jp.front, serializeGroups jp.groups, []⟩ = .ok (jp', b') ∧ jp.Same jp' := by
  obtain ⟨data, jp', hdata, hread, hsame⟩ := hround
  rw [serialize_bytes h.length_bytes] at hdata
  cases hdata
  rw [deserializer_bytes hupstream h.length_bytes] at hread
  obtain ⟨b', hread⟩ := run'_eq_ok hread
  exact ⟨jp', b', hread, hsame⟩

omit h in
theorem isRead_withoutGroups (jp : PIMJoinPrune) (data : List Byte) : jp.withoutGroups.IsRead data := by
  intro g jpg hlookup
  cases hlookup

theorem groups_eq_singleton {data : List Byte} {jpg : PIMJoinPruneGroup} (hjpg : jpg ∈ jp.groups)
    (hread : ∀ jpg' ∈ jp.groups, jpg'.group = (arrayAddress data).toIpPrefix) : jp.groups = [jpg] := by
  have hnodup := nodup_groups h
  have hsame : jp.groups.map PIMJoinPruneGroup.group =
      List.replicate jp.groups.length (arrayAddress data).toIpPrefix := by
    apply List.eq_replicate_iff.mpr
    refine ⟨List.length_map _, ?_⟩
    intro g hg
    obtain ⟨jpg', hjpg', rfl⟩ := List.mem_map.mp hg
    exact hread jpg' hjpg'
  rw [hsame, List.nodup_replicate] at hnodup
  obtain ⟨jpg', hall⟩ : ∃ jpg', jp.groups = [jpg'] := by
    apply List.length_eq_one_iff.mp
    have hpos := List.length_pos_of_mem hjpg
    omega
  rw [hall] at hjpg ⊢
  rw [List.mem_singleton.mp hjpg]

omit h in
theorem octets_arrayAddress {a : BitVec 32} (ha : jp.upstreamAddr.addr = .INET a)
    (hlength : 18 ≤ jp.bytes.length) :
    ∃ more, (arrayAddress jp.bytes).toOctets = int a ++ (0 :: more) := by
  have hbytes : jp.bytes.drop 2 = int a ++ (0 :: BitVec.ofNat 8 jp.groups.length ::
      (short jp.holdTime ++ serializeGroups jp.groups)) := by
    rw [PIMJoinPrune.bytes, PIMAddrUnicast.serialize, ha]
    rfl
  have hsixteen : ((jp.bytes.drop 2).take 16).length = 16 := by
    rw [List.length_take, List.length_drop]
    omega
  have hoctets : (arrayAddress jp.bytes).toOctets = (jp.bytes.drop 2).take 16 :=
    address_ofBytes hsixteen
  rw [hoctets, hbytes, List.take_append, List.take_of_length_le (by rw [length_int]; omega), length_int]
  exact ⟨_, rfl⟩

theorem groups_eq_nil_of_ip6 (hupstream : jp.upstreamAddr.addr.isIp4 = true)
    (hfamily : jp.IsOfFamily false) (hround : jp.RoundTrips) : jp.groups = [] := by
  obtain ⟨jp', b', hread, hsame⟩ := read_of_roundTrips h hupstream hround
  have hisRead := isRead_readGroups (isRead_withoutGroups jp jp.bytes) hread
  by_contra hne
  obtain ⟨jpg, hjpg⟩ := List.exists_mem_of_ne_nil _ hne
  have hnot6 : ∀ jpg' ∈ jp.groups, jpg'.group.address.isIp4 = false := by
    intro jpg' hjpg'
    exact hfamily jpg' hjpg' _ List.mem_cons_self
  have haddress : ∀ jpg' ∈ jp.groups, jpg'.group.address = arrayAddress jp.bytes := by
    intro jpg' hjpg'
    refine (isRead_of_same h hsame hisRead hjpg').address.resolve_left ?_
    rw [hnot6 jpg' hjpg']
    exact Bool.false_ne_true
  have hone : jp.groups = [jpg] := by
    apply groups_eq_singleton h hjpg
    intro jpg' hjpg'
    rw [← haddress jpg' hjpg']
    exact ((IpPrefix.toIpPrefix_address _).mpr (isRead_of_same h hsame hisRead hjpg').group).symm
  obtain ⟨a, ha⟩ : ∃ a, jp.upstreamAddr.addr = .INET a := by
    cases hup : jp.upstreamAddr.addr with
    | INET a => exact ⟨a, rfl⟩
    | INET6 a =>
      rw [hup] at hupstream
      cases hupstream
  obtain ⟨octets, hoctets⟩ : ∃ octets, jpg.group.address = .INET6 octets := by
    cases hgroup : jpg.group.address with
    | INET a =>
      have hno := hnot6 jpg hjpg
      rw [hgroup] at hno
      cases hno
    | INET6 octets => exact ⟨octets, rfl⟩
  have hlength : 18 ≤ jp.bytes.length := by
    rw [PIMJoinPrune.bytes, hone, serializeGroups, List.map_singleton, List.flatten_singleton,
      PIMJoinPruneGroup.serialize, PIMAddrGroup.serialize, PIMAddrGroup.ofPrefix, hoctets]
    simp only [List.length_append, List.length_cons, IpAddress.toOctets, length_address, length_short]
    omega
  obtain ⟨more, hmore⟩ := octets_arrayAddress ha hlength
  rw [← haddress jpg hjpg] at hmore
  have hcount : (BitVec.ofNat 8 jp.groups.length).toInt.toNat = 1 := by
    rw [hone]
    rfl
  have hfirst : serializeGroups [jpg] = (PIMAddrGroup.ofPrefix jpg.group).serialize ++
      (short (BitVec.ofNat 16 jpg.joins.length) ++ (short (BitVec.ofNat 16 jpg.prunes.length) ++
        (serializeSources jpg.joins ++ serializeSources jpg.prunes))) := by
    rw [serializeGroups, List.map_singleton, List.flatten_singleton, PIMJoinPruneGroup.serialize]
  rw [hcount, hone, hfirst] at hread
  obtain ⟨jp₁, c, hgroup, hread⟩ := bind_apply_eq_ok hread
  cases hread
  have hnothing := readGroup_ip6 (hnot6 jpg hjpg) hmore hgroup
  rw [hnothing] at hsame
  exact hne (groups_eq_nil h hsame)

theorem isKept_of_roundTrips (hupstream : jp.upstreamAddr.addr.isIp4 = true) {ip4 : Bool}
    (hfamily : jp.IsOfFamily ip4) (hround : jp.RoundTrips) : jp.IsKept := by
  obtain ⟨jp', b', hread, hsame⟩ := read_of_roundTrips h hupstream hround
  have hisRead := isRead_readGroups (isRead_withoutGroups jp jp.bytes) hread
  refine ⟨hupstream, ?_, ?_⟩
  · by_contra hmany
    have hcount : (BitVec.ofNat 8 jp.groups.length).toInt.toNat = 0 := by
      have hlength := h.length_groups
      rw [BitVec.toInt_eq_toNat_bmod, BitVec.toNat_ofNat, Int.bmod_def]
      omega
    rw [hcount] at hread
    cases hread
    rw [groups_eq_nil h hsame] at hmany
    simp at hmany
  · intro jpg hjpg
    cases ip4 with
    | false =>
      rw [groups_eq_nil_of_ip6 h hupstream hfamily hround] at hjpg
      exact absurd hjpg List.not_mem_nil
    | true =>
      have hof := isRead_of_same h hsame hisRead hjpg
      have hall := hfamily jpg hjpg
      refine ⟨⟨hall _ List.mem_cons_self, hof.group⟩, ?_, ?_, hof.notEmpty⟩
      · intro s hs
        exact ⟨hall s (List.mem_cons_of_mem _ (List.mem_append_left _ hs)), hof.joins s hs⟩
      · intro s hs
        exact ⟨hall s (List.mem_cons_of_mem _ (List.mem_append_right _ hs)), hof.prunes s hs⟩

end Losing

end Messages

/-- Messages that are kept come back. For an IPv4 neighbour no others do of those whose prefixes are
of one family. -/
theorem joinPrune_roundTrips {jp : PIMJoinPrune} (h : jp.IsMessage) :
    (jp.IsKept → jp.RoundTrips) ∧ ∀ ip4, jp.upstreamAddr.addr.isIp4 = true → jp.IsOfFamily ip4 →
      (jp.RoundTrips ↔ jp.IsKept) := by
  refine ⟨roundTrips_of_isKept h, ?_⟩
  intro ip4 hupstream hfamily
  exact ⟨isKept_of_roundTrips h hupstream hfamily, roundTrips_of_isKept h⟩

def oneJoin (spfx : IpPrefix) : PIMJoinPrune :=
  PIMJoinPrune.addJoinPrune ⟨⟨0, .INET 0xc0a80001#32⟩, 210, ∅⟩ spfx
    (IpAddress.INET 0xe1000001#32).toIpPrefix true

theorem groups_oneJoin (spfx : IpPrefix) :
    (oneJoin spfx).groups = [⟨(IpAddress.INET 0xe1000001#32).toIpPrefix, [spfx], []⟩] := rfl

theorem isMessage_oneJoin (spfx : IpPrefix) : (oneJoin spfx).IsMessage where
  group := by
    intro g jpg hlookup
    rw [oneJoin, PIMJoinPrune.addJoinPrune, lookup_store] at hlookup
    split_ifs at hlookup with hg
    · cases hlookup
      exact hg.symm
    · cases hlookup
  length_groups := by
    rw [groups_oneJoin, List.length_singleton]
    decide
  length_bytes := by
    have hsource : (serializeSources [spfx]).length ≤ 20 := by
      rw [serializeSources, List.map_singleton, List.flatten_singleton, PIMAddrSource.serialize,
        PIMAddrSource.ofPrefix]
      cases spfx.address with
      | INET octets => exact Nat.le_of_ble_eq_true rfl
      | INET6 octets => exact Nat.le_refl 20
    have hlength : (oneJoin spfx).bytes.length = 22 + ((serializeSources [spfx]).length + 0) := by
      rw [PIMJoinPrune.bytes, groups_oneJoin]
      simp [serializeGroups, PIMJoinPruneGroup.serialize, PIMAddrGroup.serialize,
        PIMAddrGroup.ofPrefix, PIMAddrUnicast.serialize, oneJoin, PIMJoinPrune.addJoinPrune,
        IpAddress.toIpPrefix, IpAddress.toOctets, serializeSources]
      omega
    rw [hlength, scratchLength]
    omega

theorem joinPrune_roundTrips_host : (oneJoin (IpAddress.INET 0x0a000001#32).toIpPrefix).RoundTrips := by
  refine (joinPrune_roundTrips (isMessage_oneJoin _)).1 ⟨rfl, by decide, ?_⟩
  intro jpg hjpg
  rw [groups_oneJoin, List.mem_singleton] at hjpg
  subst hjpg
  refine ⟨⟨rfl, rfl⟩, ?_, by simp, by simp⟩
  intro s hs
  rw [List.mem_singleton.mp hs]
  exact ⟨rfl, rfl⟩

/-- The length of a prefix of 256 sources is lost. -/
theorem prefixLength_lost :
    ¬ ∀ jp : PIMJoinPrune, jp.IsMessage → jp.IsOfFamily true → jp.RoundTrips := by
  intro h
  have hfamily : (oneJoin ⟨.INET 0x0a000100#32, 24, by decide, by decide⟩).IsOfFamily true := by
    intro jpg hjpg p hp
    rw [groups_oneJoin, List.mem_singleton] at hjpg
    subst hjpg
    obtain rfl | rfl : p = _ ∨ p = _ := by simpa using hp
    · rfl
    · rfl
  have hmessage := isMessage_oneJoin ⟨.INET 0x0a000100#32, 24, by decide, by decide⟩
  have hkept := isKept_of_roundTrips hmessage rfl hfamily (h _ hmessage hfamily)
  have hplain := hkept.isPlain _ (by rw [groups_oneJoin]; exact List.mem_singleton_self _)
  have hlength := (hplain.joins _ (List.mem_singleton_self _)).2
  exact absurd hlength (by decide)

end JoinPruneMessages

import Onos.LsUpdates

/-! A pass of flooding over one of the lists of a neighbor: what it sends, and what it leaves of the
lists and of the ages of the advertisements. -/
namespace FloodingPasses

open KeyedMap LinkStateDatabase LinkStateHeaders
open LsRequests (OSPF_HEADER_LENGTH LSA_HEADER_LENGTH)
open LsUpdates Packing

/-- What tells an instance of an advertisement from another one, whatever their ages. -/
structure Instance where
  key : String
  lsSequenceNo : ℤ
  lsCheckSum : ℤ
  deriving DecidableEq

def instanceOf (h : LsaHeader) : Instance := ⟨getLsaKey h, h.lsSequenceNo, h.lsCheckSum⟩

@[simp] theorem instanceOf_setAge (h : LsaHeader) (age : ℤ) :
    instanceOf (h.setAge age) = instanceOf h := rfl

def grown (age : ℤ) : ℤ := min MAXAGE (age + INFTRA_NS_DELAY)

theorem grown_of_old {age : ℤ} (h : MAXAGE - 1 ≤ age) : grown age = MAXAGE := by
  unfold grown INFTRA_NS_DELAY
  omega

section Messages

variable (sameBody : Ref → Ref → Bool)

/-- An update as it is written, with the advertisements and their headers at that time. -/
structure Message where
  lsupdate : LsUpdate
  copies : List (Ref × LsaHeader)

/-- Build the updates for a list and write them. Equality of advertisements looks at their bodies,
not at their headers. An update that is written shows the headers as they are once all are built. -/
def transmit (i : OspfInterface) (txList : TxList) (destinationIp : Option Ip4Address)
    (t : Transmission) : Option (Transmission × List Message) :=
  if 0 < (t.list txList).entries.length then
    (buildLsUpdate (fun _ => sameBody) i (t.list txList).keys.length t txList).map fun out =>
      (out.1, out.2.map fun lsupdate =>
        ⟨{ lsupdate with destinationIp := destinationIp },
          lsupdate.lsas.map fun r => (r, out.1.headers r)⟩)
  else some (t, [])

/-- The lists when what waits for an acknowledgement was sent again: the first of them is moved if
the two lists look the same. -/
def mixed (t : Transmission) : Transmission :=
  match t.pendingReTxList.entries with
  | [] => t
  | e :: _ => t.flooded (fun _ => sameBody) .pending e.1 e.2

end Messages

def current (t : Transmission) (key : String) : Option Ref :=
  (t.get .reTx key).or (t.get .pending key)

def WellKeyed (t : Transmission) : Prop :=
  ∀ txList key v, (t.list txList).lookup key = some v →
    ∃ r, v = some r ∧ getLsaKey (t.headers r) = key

structure Passes (t t' : Transmission) : Prop where
  header : ∀ r, ∃ age, t'.headers r = (t.headers r).setAge age
  current : ∀ key, (current t' key).map (fun r => instanceOf (t.headers r)) =
    (current t key).map fun r => instanceOf (t.headers r)
  wellKeyed : WellKeyed t → WellKeyed t'

theorem Passes.refl (t : Transmission) : Passes t t :=
  ⟨fun r => ⟨(t.headers r).age, rfl⟩, fun _ => rfl, id⟩

theorem Passes.instanceOf_eq {t t' : Transmission} (h : Passes t t') (r : Ref) :
    instanceOf (t'.headers r) = instanceOf (t.headers r) := by
  obtain ⟨age, hr⟩ := h.header r
  rw [hr, instanceOf_setAge]

theorem Passes.trans {t t' t'' : Transmission} (h : Passes t t') (h' : Passes t' t'') :
    Passes t t'' := by
  refine ⟨?_, ?_, fun hk => h'.wellKeyed (h.wellKeyed hk)⟩
  · intro r
    obtain ⟨age, hr⟩ := h'.header r
    obtain ⟨age', hr'⟩ := h.header r
    exact ⟨age, by rw [hr, hr']; rfl⟩
  · intro key
    rw [← h.current key]
    have hkey := h'.current key
    simp only [h.instanceOf_eq] at hkey
    exact hkey

section Moves

variable {sameBody : Ref → Ref → Bool}

theorem headers_ageLsa (t : Transmission) (lsa r : Ref) : ((t.ageLsa lsa).headers r).age =
      if r = lsa then grown (t.headers r).age else (t.headers r).age := by
  unfold Transmission.ageLsa Transmission.setAge grown
  by_cases e : r = lsa
  · subst e
    dsimp only
    rw [Function.update_self, if_pos rfl]
    unfold LsaHeader.setAge INFTRA_NS_DELAY
    dsimp only
    split <;> omega
  · simp only [Function.update_of_ne e, if_neg e]

theorem get_ageLsa (t : Transmission) (lsa : Ref) (txList : TxList) (key : String) :
    (t.ageLsa lsa).get txList key = t.get txList key := by
  cases txList <;> rfl

theorem passes_ageLsa (t : Transmission) (lsa : Ref) : Passes t (t.ageLsa lsa) := by
  have hheader (r : Ref) : ∃ age, (t.ageLsa lsa).headers r = (t.headers r).setAge age := by
    unfold Transmission.ageLsa Transmission.setAge
    by_cases e : r = lsa
    · subst e
      simp only [Function.update_self]
      exact ⟨_, rfl⟩
    · simp only [Function.update_of_ne e]
      exact ⟨(t.headers r).age, rfl⟩
  refine ⟨hheader, fun _ => rfl, ?_⟩
  intro hk txList key v hv
  obtain ⟨r, hr, hkey⟩ := hk txList key v (by cases txList <;> exact hv)
  obtain ⟨age, hage⟩ := hheader r
  exact ⟨r, hr, by rw [hage, getLsaKey_setAge, hkey]⟩

@[simp] theorem headers_flooded (t : Transmission) (txList : TxList) (key : String)
    (lsa : Option Ref) : (t.flooded (fun _ => sameBody) txList key lsa).headers = t.headers := by
  unfold Transmission.flooded
  split <;> rfl

section Moved

variable {t : Transmission} {txList : TxList} (h : t.sameList (fun _ => sameBody) txList = true)
  (key : String) (lsa : Option Ref)

include h

theorem flooded_of_same : t.flooded (fun _ => sameBody) txList key lsa =
    ⟨t.headers, t.reTxList.erase key, t.pendingReTxList.insert key lsa⟩ := if_pos h

theorem get_reTx_flooded (j : String) : (t.flooded (fun _ => sameBody) txList key lsa).get .reTx j =
      if j = key then none else t.get .reTx j := by
  rw [flooded_of_same h]
  unfold Transmission.get Transmission.list
  dsimp only
  rw [lookup_erase]
  split <;> rfl

theorem get_pending_flooded (j : String) :
    (t.flooded (fun _ => sameBody) txList key lsa).get .pending j =
      if j = key then lsa else t.get .pending j := by
  rw [flooded_of_same h]
  unfold Transmission.get Transmission.list
  dsimp only
  rw [lookup_insert]
  split <;> rfl

end Moved

theorem lookup_of_get {t : Transmission} {txList : TxList} {key : String} {r : Ref}
    (h : t.get txList key = some r) : (t.list txList).lookup key = some (some r) := by
  unfold Transmission.get at h
  cases hlook : (t.list txList).lookup key with
  | none =>
    rw [hlook] at h
    cases h
  | some v =>
    rw [hlook] at h
    exact congrArg some h

theorem passes_flooded {t : Transmission} {txList : TxList} {key : String} {r : Ref}
    (hr : t.get txList key = some r)
    (hsame : t.sameList (fun _ => sameBody) txList = true → ∀ r', t.get .reTx key = some r' →
      instanceOf (t.headers r') = instanceOf (t.headers r)) :
    Passes t (t.flooded (fun _ => sameBody) txList key (some r)) := by
  by_cases hlist : t.sameList (fun _ => sameBody) txList = true
  · refine ⟨fun q => ⟨(t.headers q).age, by rw [headers_flooded]; rfl⟩, ?_, ?_⟩
    · intro j
      unfold FloodingPasses.current
      rw [get_reTx_flooded hlist, get_pending_flooded hlist]
      by_cases hj : j = key
      · subst hj
        rw [if_pos rfl, if_pos rfl, Option.none_or, Option.map_some]
        cases hq : t.get .reTx j with
        | none =>
          cases txList with
          | reTx =>
            rw [hq] at hr
            cases hr
          | pending => rw [Option.none_or, hr, Option.map_some]
        | some q =>
          rw [Option.some_or, Option.map_some]
          exact congrArg some (hsame hlist q hq).symm
      · rw [if_neg hj, if_neg hj]
    · intro hk l j v hv
      rw [headers_flooded]
      rw [flooded_of_same hlist] at hv
      cases l with
      | reTx =>
        have hv : (t.reTxList.erase key).lookup j = some v := hv
        rw [lookup_erase] at hv
        split at hv
        · cases hv
        · exact hk .reTx j v hv
      | pending =>
        have hv : (t.pendingReTxList.insert key (some r)).lookup j = some v := hv
        rw [lookup_insert] at hv
        split at hv
        · rename_i hj
          obtain ⟨q, hq, hkey⟩ := hk txList key (some r) (lookup_of_get hr)
          rw [Option.some.injEq] at hv hq
          exact ⟨r, hv.symm, by rw [hj, hq]; exact hkey⟩
        · exact hk .pending j v hv
  · rw [Transmission.flooded, if_neg hlist]
    exact Passes.refl t

end Moves

section Lists

variable {sameBody : Ref → Ref → Bool}

def SameLists (t t' : Transmission) : Prop :=
  t'.reTxList = t.reTxList ∧ t'.pendingReTxList = t.pendingReTxList

variable {t t' : Transmission}

section

variable (h : SameLists t t')

include h

theorem SameLists.list (txList : TxList) : t'.list txList = t.list txList := by
  cases txList with
  | reTx => exact h.1
  | pending => exact h.2

theorem SameLists.get (txList : TxList) : t'.get txList = t.get txList := by
  unfold Transmission.get
  rw [h.list]

theorem SameLists.sameList (txList : TxList) :
    t'.sameList (fun _ => sameBody) txList = t.sameList (fun _ => sameBody) txList := by
  unfold Transmission.sameList
  rw [h.list, h.1]

theorem SameLists.flooded (txList : TxList) (key : String)
    (lsa : Option Ref) : SameLists (t.flooded (fun _ => sameBody) txList key lsa)
      (t'.flooded (fun _ => sameBody) txList key lsa) := by
  unfold Transmission.flooded
  rw [h.sameList]
  split
  · exact ⟨by rw [h.1], by rw [h.2]⟩
  · exact h

end

theorem sameLists_ageLsa (t : Transmission) (lsa : Ref) : SameLists t (t.ageLsa lsa) := ⟨rfl, rfl⟩

variable {txList : TxList} {key : String}

theorem mem_keys_of_get {r : Ref} (h : t.get txList key = some r) : key ∈ (t.list txList).keys :=
  (mem_keys_iff _ key).mpr ⟨some r, lookup_of_get h⟩

theorem get_of_mem_keys (hk : WellKeyed t) (h : key ∈ (t.list txList).keys) :
    ∃ r, t.get txList key = some r ∧ getLsaKey (t.headers r) = key := by
  obtain ⟨v, hv⟩ := (mem_keys_iff _ key).mp h
  obtain ⟨r, rfl, hkey⟩ := hk txList key v hv
  exact ⟨r, by rw [Transmission.get, hv]; rfl, hkey⟩

theorem key_of_get (hk : WellKeyed t) {r : Ref}
    (h : t.get txList key = some r) : getLsaKey (t.headers r) = key := by
  obtain ⟨q, hq, hkey⟩ := get_of_mem_keys hk (mem_keys_of_get h)
  rw [h, Option.some.injEq] at hq
  rw [hq, hkey]

theorem length_keys (m : Table String (Option Ref)) : m.keys.length = m.entries.length :=
  List.length_map _

theorem length_of_sameList (h : t.sameList (fun _ => sameBody) .pending = true) :
    t.pendingReTxList.entries.length = t.reTxList.entries.length ∧
      ∀ e ∈ t.pendingReTxList.entries, e.1 ∈ t.reTxList.keys := by
  unfold Transmission.sameList at h
  simp only [reduceCtorEq, false_or, decide_eq_true_eq, List.all_eq_true] at h
  refine ⟨h.1, fun e he => ?_⟩
  have hmatch := h.2 e he
  cases hlook : t.reTxList.lookup e.1 with
  | none =>
    rw [hlook] at hmatch
    cases hv : e.2 with
    | none => simp [hv] at hmatch
    | some lsa => simp [hv] at hmatch
  | some v => exact (mem_keys_iff _ _).mpr ⟨v, hlook⟩

theorem sameList_mixed (sameBody : Ref → Ref → Bool) (hne : t.pendingReTxList.entries ≠ []) :
    (mixed sameBody t).sameList (fun _ => sameBody) .pending = false := by
  unfold mixed
  split
  · contradiction
  · rename_i e rest hentries
    by_cases hsame : t.sameList (fun _ => sameBody) .pending = true
    · obtain ⟨hlength, hkeys⟩ := length_of_sameList hsame
      have he : e ∈ t.pendingReTxList.entries := hentries ▸ List.mem_cons_self
      have hkey := hkeys e he
      have hkey' : e.1 ∈ t.pendingReTxList.keys := List.mem_map_of_mem he
      rw [Bool.eq_false_iff]
      intro h
      have hmoved := (length_of_sameList h).1
      rw [flooded_of_same hsame] at hmoved
      dsimp only at hmoved
      rw [← length_keys, ← length_keys, AList.keys_insert, AList.keys_erase, List.length_cons,
        List.length_erase_of_mem hkey, List.length_erase_of_mem hkey', length_keys, length_keys,
        hlength] at hmoved
      have hpos := List.length_pos_of_mem hkey
      rw [length_keys] at hpos
      omega
    · rw [Transmission.flooded, if_neg hsame]
      exact Bool.eq_false_iff.mpr hsame

end Lists

section Passes

variable {sameBody : Ref → Ref → Bool} {txList : TxList}

def lengthOf (t : Transmission) (r : Ref) : ℤ := (t.headers r).lsPacketLen

theorem load_invariant (Inv : Transmission → Prop)
    (hage : ∀ t key r, Inv t → t.get txList key = some r → Inv (t.ageLsa r))
    (hflood : ∀ t key r, Inv t → t.get txList key = some r →
      Inv (t.flooded (fun _ => sameBody) txList key (some r)))
    {t₀ t : Transmission} (maxSize currentLength : ℤ) {keys : List String}
    (h : Keeps txList t₀ t keys) (hnodup : keys.Nodup)
    (hfound : ∀ key ∈ keys, ∃ r, t₀.get txList key = some r) (hinv : Inv t) :
    Inv (loadLsUpdate (fun _ => sameBody) maxSize txList t currentLength keys).transmission := by
  induction keys generalizing t currentLength with
  | nil => exact hinv
  | cons key rest ih =>
    obtain ⟨hkey, hrest⟩ := List.nodup_cons.mp hnodup
    obtain ⟨r, hr⟩ := hfound key List.mem_cons_self
    have hget : t.get txList key = some r := (h.get key List.mem_cons_self).trans hr
    rw [loadLsUpdate, hget]
    dsimp only
    split
    · exact hage t key r hinv hget
    · apply ih _ ((h.ageLsa r).flooded _ hkey (some r)) hrest
      · exact fun j hj => hfound j (List.mem_cons_of_mem key hj)
      · exact hflood _ key r (hage t key r hinv hget) ((get_ageLsa t r txList key).trans hget)

theorem flood_invariant (Inv : Transmission → Prop)
    (hage : ∀ t key r, Inv t → t.get txList key = some r → Inv (t.ageLsa r))
    (hflood : ∀ t key r, Inv t → t.get txList key = some r →
      Inv (t.flooded (fun _ => sameBody) txList key (some r)))
    {t₀ t : Transmission} (i : OspfInterface) {fuel : ℕ} {keys : List String}
    (h : Keeps txList t₀ t keys) (hnodup : keys.Nodup)
    (hfound : ∀ key ∈ keys, ∃ r, t₀.get txList key = some r) (hinv : Inv t)
    {out : Transmission × List LsUpdate}
    (hout : floodUpdates (fun _ => sameBody) i txList fuel t keys = some out) : Inv out.1 := by
  induction fuel generalizing t keys out with
  | zero =>
    cases keys with
    | nil =>
      cases hout
      exact hinv
    | cons key rest => cases hout
  | succ fuel ih =>
    cases keys with
    | nil =>
      cases hout
      exact hinv
    | cons key rest =>
      obtain ⟨_, hleft, hkeeps⟩ := loadLsUpdate_eq (fun _ => sameBody) i.maxSize emptyLength h hnodup
      have hsuffix := fill_suffix (sizeOf (t₀.get txList) fun r => (t₀.headers r).lsPacketLen)
        i.maxSize emptyLength (key :: rest)
      obtain ⟨out', hout', rfl⟩ := Option.map_eq_some_iff.mp hout
      rw [hleft] at hout'
      have hdone : Inv out'.1 :=
        ih hkeeps (hnodup.sublist hsuffix.sublist) (fun j hj => hfound j (hsuffix.mem hj))
          (load_invariant Inv hage hflood _ _ h hnodup hfound hinv) hout'
      exact hdone

theorem flood_invariant_cons (Inv : Transmission → Prop)
    (hage : ∀ t key r, Inv t → t.get txList key = some r → Inv (t.ageLsa r))
    (hflood : ∀ t key r, Inv t → t.get txList key = some r →
      Inv (t.flooded (fun _ => sameBody) txList key (some r)))
    {t : Transmission} (i : OspfInterface) {fuel : ℕ} {key : String} {rest : List String}
    (h : Keeps txList t t (key :: rest)) (hnodup : (key :: rest).Nodup)
    (hfound : ∀ j ∈ key :: rest, ∃ r, t.get txList j = some r) {r : Ref}
    (hr : t.get txList key = some r) (hfits : emptyLength + (t.headers r).lsPacketLen < i.maxSize)
    (hinv : Inv ((t.ageLsa r).flooded (fun _ => sameBody) txList key (some r)))
    {out : Transmission × List LsUpdate}
    (hout : floodUpdates (fun _ => sameBody) i txList fuel t (key :: rest) = some out) :
    Inv out.1 := by
  cases fuel with
  | zero => cases hout
  | succ fuel =>
    obtain ⟨hkey, hrest⟩ := List.nodup_cons.mp hnodup
    obtain ⟨_, hleft, hkeeps⟩ := loadLsUpdate_eq (fun _ => sameBody) i.maxSize emptyLength h hnodup
    have hsuffix := fill_suffix (sizeOf (t.get txList) fun r => (t.headers r).lsPacketLen)
      i.maxSize emptyLength (key :: rest)
    obtain ⟨out', hout', rfl⟩ := Option.map_eq_some_iff.mp hout
    rw [hleft] at hout'
    have hload : Inv (loadLsUpdate (fun _ => sameBody) i.maxSize txList t emptyLength
        (key :: rest)).transmission := by
      rw [loadLsUpdate, hr]
      dsimp only
      rw [(h.ageLsa r).len r, if_neg (Int.not_le.mpr hfits)]
      exact load_invariant Inv hage hflood _ _ ((h.ageLsa r).flooded (fun _ => sameBody) hkey (some r))
        hrest (fun j hj => hfound j (List.mem_cons_of_mem key hj)) hinv
    have hdone : Inv out'.1 :=
      flood_invariant Inv hage hflood i hkeeps (hnodup.sublist hsuffix.sublist)
        (fun j hj => hfound j (hsuffix.mem hj)) hload hout'
    exact hdone

section Ages

variable {t₀ : Transmission} {r : Ref} {key₀ : String}

variable {t : Transmission} {keys : List String}

/-- While an update is filled, an advertisement that it takes is aged once, and one that it leaves
once at most. -/
theorem age_load (maxSize currentLength : ℤ) (h : Keeps txList t₀ t keys) (hnodup : keys.Nodup)
    (hr : ∀ key ∈ keys, t₀.get txList key = some r ↔ key = key₀) {loaded : Loaded}
    (hload : loadLsUpdate (fun _ => sameBody) maxSize txList t currentLength keys = loaded) :
    (key₀ ∉ keys → (loaded.transmission.headers r).age = (t.headers r).age) ∧
      (key₀ ∈ keys → key₀ ∉ loaded.rest →
        (loaded.transmission.headers r).age = grown (t.headers r).age) ∧
      (key₀ ∈ loaded.rest → (loaded.transmission.headers r).age = (t.headers r).age ∨
        (loaded.transmission.headers r).age = grown (t.headers r).age) := by
  subst hload
  induction keys generalizing t currentLength with
  | nil =>
    refine ⟨fun _ => rfl, ?_, ?_⟩
    · intro hmem
      cases hmem
    · intro hmem
      cases hmem
  | cons key rest ih =>
    obtain ⟨hkey, hrest⟩ := List.nodup_cons.mp hnodup
    have hget := h.get key List.mem_cons_self
    have hiff := hr key List.mem_cons_self
    have hr' := fun j hj => hr j (List.mem_cons_of_mem key hj)
    rw [loadLsUpdate, hget]
    cases hq : t₀.get txList key with
    | none =>
      have hne : key₀ ≠ key := by
        rintro rfl
        rw [hiff.mpr rfl] at hq
        cases hq
      obtain ⟨h1, h2, h3⟩ := ih currentLength (h.flooded (fun _ => sameBody) hkey none) hrest hr'
      simp only [headers_flooded] at h1 h2 h3
      refine ⟨fun hout => h1 fun hin => hout (List.mem_cons_of_mem key hin), ?_, h3⟩
      exact fun hin => h2 ((List.mem_cons.mp hin).resolve_left hne)
    | some q =>
      have haged := headers_ageLsa t q r
      have hcase : r = q ↔ key = key₀ := by
        rw [← hiff, hq, Option.some.injEq, eq_comm]
      dsimp only
      split
      · refine ⟨?_, fun hin hout => absurd hin hout, ?_⟩
        · intro hout
          rw [haged, if_neg fun e => hout (hcase.mp e ▸ List.mem_cons_self)]
        · intro _
          rw [haged]
          split
          · exact Or.inr rfl
          · exact Or.inl rfl
      · have hfilled := fill_suffix (sizeOf (t₀.get txList) fun r => (t₀.headers r).lsPacketLen)
          maxSize (currentLength + ((t.ageLsa q).headers q).lsPacketLen) rest
        have hkeeps := (h.ageLsa q).flooded (fun _ => sameBody) hkey (some q)
        obtain ⟨_, hleft, _⟩ := loadLsUpdate_eq (fun _ => sameBody) maxSize
          (currentLength + ((t.ageLsa q).headers q).lsPacketLen) hkeeps hrest
        obtain ⟨h1, h2, h3⟩ := ih (currentLength + ((t.ageLsa q).headers q).lsPacketLen) hkeeps hrest hr'
        simp only [headers_flooded, haged] at h1 h2 h3
        refine ⟨?_, ?_, ?_⟩
        · intro hout
          have hne : ¬ r = q := fun e => hout (hcase.mp e ▸ List.mem_cons_self)
          rw [h1 fun hin => hout (List.mem_cons_of_mem key hin), if_neg hne]
        · intro hin hout
          by_cases hk : key = key₀
          · rw [h1 (hk ▸ hkey), if_pos (hcase.mpr hk)]
          · have hin' := (List.mem_cons.mp hin).resolve_left fun e => hk e.symm
            rw [h2 hin' hout, if_neg fun e => hk (hcase.mp e)]
        · intro hin
          have hk : key ≠ key₀ := by
            rintro rfl
            exact hkey (hfilled.mem (hleft ▸ hin))
          have hcases := h3 hin
          rwa [if_neg fun e => hk (hcase.mp e)] at hcases

theorem age_flood (i : OspfInterface) {fuel : ℕ} (h : Keeps txList t₀ t keys) (hnodup : keys.Nodup)
    (hr : ∀ key ∈ keys, t₀.get txList key = some r ↔ key = key₀)
    {out : Transmission × List LsUpdate}
    (hout : floodUpdates (fun _ => sameBody) i txList fuel t keys = some out) :
    (key₀ ∉ keys → (out.1.headers r).age = (t.headers r).age) ∧
      (key₀ ∈ keys → MAXAGE - 1 ≤ (t.headers r).age → (out.1.headers r).age = MAXAGE) := by
  induction fuel generalizing t keys out with
  | zero =>
    cases keys with
    | nil =>
      cases hout
      exact ⟨fun _ => rfl, fun hmem => by cases hmem⟩
    | cons key rest => cases hout
  | succ fuel ih =>
    cases keys with
    | nil =>
      cases hout
      exact ⟨fun _ => rfl, fun hmem => by cases hmem⟩
    | cons key rest =>
      obtain ⟨_, hleft, hkeeps⟩ := loadLsUpdate_eq (fun _ => sameBody) i.maxSize emptyLength h hnodup
      have hsuffix := fill_suffix (sizeOf (t₀.get txList) fun r => (t₀.headers r).lsPacketLen)
        i.maxSize emptyLength (key :: rest)
      obtain ⟨h1, h2, h3⟩ := age_load i.maxSize emptyLength h hnodup hr rfl
      obtain ⟨out', hout', rfl⟩ := Option.map_eq_some_iff.mp hout
      rw [hleft] at hout' h2 h3
      obtain ⟨hout1, hout2⟩ := ih hkeeps (hnodup.sublist hsuffix.sublist)
        (fun j hj => hr j (hsuffix.mem hj)) hout'
      dsimp only
      constructor
      · intro hmem
        rw [hout1 fun hin => hmem (hsuffix.mem hin), h1 hmem]
      · intro hmem hold
        by_cases hin : key₀ ∈ (fill (sizeOf (t₀.get txList) fun r => (t₀.headers r).lsPacketLen)
            i.maxSize emptyLength (key :: rest)).2
        · apply hout2 hin
          obtain hage | hage := h3 hin
          · rwa [hage]
          · rw [hage, grown_of_old hold]
            omega
        · rw [hout1 hin, h2 hmem hin, grown_of_old hold]

theorem age_flood_whole (i : OspfInterface) {fuel : ℕ}
    (h : Keeps txList t₀ t keys) (hnodup : keys.Nodup)
    (hr : ∀ key ∈ keys, t₀.get txList key = some r ↔ key = key₀)
    (hwhole : (fill (sizeOf (t₀.get txList) fun r => (t₀.headers r).lsPacketLen) i.maxSize
      emptyLength keys).2 = [])
    {out : Transmission × List LsUpdate}
    (hout : floodUpdates (fun _ => sameBody) i txList fuel t keys = some out) (hmem : key₀ ∈ keys) :
    (out.1.headers r).age = grown (t.headers r).age := by
  cases keys with
  | nil => cases hmem
  | cons key rest =>
    cases fuel with
    | zero => cases hout
    | succ fuel =>
      obtain ⟨_, hleft, _⟩ := loadLsUpdate_eq (fun _ => sameBody) i.maxSize emptyLength h hnodup
      obtain ⟨_, h2, _⟩ := age_load i.maxSize emptyLength h hnodup hr rfl
      obtain ⟨out', hout', rfl⟩ := Option.map_eq_some_iff.mp hout
      rw [hleft, hwhole] at hout' h2
      have hend : some ((loadLsUpdate (fun _ => sameBody) i.maxSize txList t emptyLength
          (key :: rest)).transmission, []) = some out' := by
        rw [← hout']
        cases fuel <;> rfl
      rw [Option.some.injEq] at hend
      rw [← hend]
      exact h2 hmem (List.not_mem_nil)

end Ages

end Passes

section Transmitting

variable {sameBody : Ref → Ref → Bool} {i : OspfInterface} {txList : TxList}
  {destinationIp : Option Ip4Address} {t : Transmission}

def FitsAlone (i : OspfInterface) (t : Transmission) (txList : TxList) : Prop :=
  ∀ key r, t.get txList key = some r → lengthOf t r < i.mtu - 48

def IsWhole (i : OspfInterface) (t : Transmission) (txList : TxList) : Prop :=
  (fill (sizeOf (t.get txList) (lengthOf t)) i.maxSize emptyLength (t.list txList).keys).2 = []

def written (destinationIp : Option Ip4Address) (out : Transmission × List LsUpdate) :
    Transmission × List Message :=
  (out.1, out.2.map fun lsupdate =>
    ⟨{ lsupdate with destinationIp := destinationIp },
      lsupdate.lsas.map fun r => (r, out.1.headers r)⟩)

theorem transmit_eq : transmit sameBody i txList destinationIp t =
    (buildLsUpdate (fun _ => sameBody) i (t.list txList).keys.length t txList).map
      (written destinationIp) := by
  unfold transmit
  split
  · rfl
  · rename_i hempty
    have hkeys : (t.list txList).keys = [] := by
      apply List.length_eq_zero_iff.mp
      rw [length_keys]
      omega
    rw [buildLsUpdate, hkeys]
    rfl

theorem keeps_self (t : Transmission) (txList : TxList) :
    Keeps txList t t (t.list txList).keys := ⟨fun _ => rfl, fun _ _ => rfl⟩

theorem exists_transmit (sameBody : Ref → Ref → Bool) (destinationIp : Option Ip4Address)
    (hfits : FitsAlone i t txList) :
    ∃ out, transmit sameBody i txList destinationIp t = some out ∧
      (∀ key r, t.get txList key = some r → ∃ m ∈ out.2, (r, out.1.headers r) ∈ m.copies) ∧
      ∀ m ∈ out.2, ∀ c ∈ m.copies,
        (∃ key, t.get txList key = some c.1) ∧ c.2 = out.1.headers c.1 := by
  have heq := floodUpdates_eq (fun _ => sameBody) i (t.list txList).keys.length (keeps_self t txList)
    (t.list txList).keys_nodup
  obtain ⟨packets, hpack⟩ := pack_of_fits (sizeOf (t.get txList) fun r => (t.headers r).lsPacketLen)
    i.maxSize emptyLength (l := (t.list txList).keys) (fun key _ n hn => by
      obtain ⟨r, hr, rfl⟩ := Option.map_eq_some_iff.mp hn
      have hlt : (t.headers r).lsPacketLen < i.mtu - 48 := hfits key r hr
      unfold emptyLength OSPF_HEADER_LENGTH FOUR_BYTES OspfInterface.maxSize LSA_HEADER_LENGTH
      omega) (Nat.le_refl _)
  rw [hpack, Option.map_some, Option.map_eq_some_iff] at heq
  obtain ⟨out, hout, hlsas⟩ := heq
  have hflat : (out.2.map LsUpdate.lsas).flatten = (t.list txList).keys.filterMap (t.get txList) := by
    rw [hlsas, ← List.filterMap_flatten, flatten_pack _ _ _ hpack, filterMap_sized]
  have hmem (r : Ref) : (∃ lsupdate ∈ out.2, r ∈ lsupdate.lsas) ↔
      ∃ key, t.get txList key = some r := by
    have hiff : r ∈ (out.2.map LsUpdate.lsas).flatten ↔
        r ∈ (t.list txList).keys.filterMap (t.get txList) := by rw [hflat]
    simp only [List.mem_flatten, List.mem_map, exists_exists_and_eq_and, List.mem_filterMap] at hiff
    rw [hiff]
    exact ⟨fun ⟨key, _, hr⟩ => ⟨key, hr⟩, fun ⟨key, hr⟩ => ⟨key, mem_keys_of_get hr, hr⟩⟩
  refine ⟨written destinationIp out, ?_, ?_, ?_⟩
  · rw [transmit_eq, buildLsUpdate, hout, Option.map_some]
  · intro key r hr
    obtain ⟨lsupdate, hu, hin⟩ := (hmem r).mpr ⟨key, hr⟩
    exact ⟨_, List.mem_map_of_mem hu, List.mem_map_of_mem hin⟩
  · intro m hm c hc
    obtain ⟨lsupdate, hu, rfl⟩ := List.mem_map.mp hm
    obtain ⟨r, hr, rfl⟩ := List.mem_map.mp hc
    exact ⟨(hmem r).mp ⟨lsupdate, hu, hr⟩, rfl⟩

section Result

variable {out : Transmission × List Message}
  (hout : transmit sameBody i txList destinationIp t = some out)

include hout

theorem exists_updates : ∃ updates, floodUpdates (fun _ => sameBody) i txList
    (t.list txList).keys.length t (t.list txList).keys = some (out.1, updates) := by
  rw [transmit_eq] at hout
  obtain ⟨built, hbuilt, rfl⟩ := Option.map_eq_some_iff.mp hout
  exact ⟨built.2, hbuilt⟩

theorem age_transmit (hk : WellKeyed t) {key : String} {r : Ref} (hr : t.get txList key = some r)
    (hone : MAXAGE - 1 ≤ (t.headers r).age ∨ IsWhole i t txList) :
    (out.1.headers r).age = grown (t.headers r).age := by
  obtain ⟨updates, hupdates⟩ := exists_updates hout
  have hiff : ∀ j ∈ (t.list txList).keys, t.get txList j = some r ↔ j = key := by
    intro j _
    constructor
    · intro hj
      rw [← key_of_get hk hj, key_of_get hk hr]
    · rintro rfl
      exact hr
  have hnodup := (t.list txList).keys_nodup
  have hmem := mem_keys_of_get hr
  obtain hold | hwhole := hone
  · rw [(age_flood i (keeps_self t txList) hnodup hiff hupdates).2 hmem hold, grown_of_old hold]
  · exact age_flood_whole i (keeps_self t txList) hnodup hiff hwhole hupdates hmem

theorem age_transmit_of_not (hk : WellKeyed t) {r : Ref} (hr : ∀ key, t.get txList key ≠ some r) :
    (out.1.headers r).age = (t.headers r).age := by
  obtain ⟨updates, hupdates⟩ := exists_updates hout
  refine (flood_invariant (fun t' => (t'.headers r).age = (t.headers r).age ∧
      ∀ key, t'.get txList key ≠ some r) ?_ ?_ i (keeps_self t txList) (t.list txList).keys_nodup ?_
    ⟨rfl, hr⟩ hupdates).1
  · intro t' key q h hq
    have hne : r ≠ q := fun e => h.2 key (e ▸ hq)
    refine ⟨?_, fun j => ?_⟩
    · rw [headers_ageLsa, if_neg hne, h.1]
    · rw [get_ageLsa]
      exact h.2 j
  · intro t' key q h hq
    refine ⟨by rw [headers_flooded, h.1], fun j => ?_⟩
    by_cases hlist : t'.sameList (fun _ => sameBody) txList = true
    · cases txList with
      | reTx =>
        rw [get_reTx_flooded hlist]
        split
        · exact fun e => nomatch e
        · exact h.2 j
      | pending =>
        rw [get_pending_flooded hlist]
        split
        · exact hq ▸ h.2 key
        · exact h.2 j
    · rw [Transmission.flooded, if_neg hlist]
      exact h.2 j
  · intro key hkey
    obtain ⟨q, hq, _⟩ := get_of_mem_keys hk hkey
    exact ⟨q, hq⟩

end Result

theorem passes_reTx {out : Transmission × List Message}
    (hout : transmit sameBody i .reTx destinationIp t = some out) (hk : WellKeyed t) :
    Passes t out.1 := by
  obtain ⟨updates, hupdates⟩ := exists_updates hout
  refine flood_invariant (Passes t) ?_ ?_ i (keeps_self t .reTx) t.reTxList.keys_nodup ?_
    (Passes.refl t) hupdates
  · intro t' _ r h _
    exact h.trans (passes_ageLsa t' r)
  · intro t' key r h hr
    refine h.trans (passes_flooded hr fun _ r' hr' => ?_)
    rw [hr, Option.some.injEq] at hr'
    rw [hr']
  · intro key hkey
    have hkey : key ∈ (t.list .reTx).keys := hkey
    obtain ⟨r, hr, _⟩ := get_of_mem_keys hk hkey
    exact ⟨r, hr⟩

/-- The two lists are not taken for one another, or it does no harm: the first of what is sent again
is the instance that is to be flooded. -/
def FirstAlike (sameBody : Ref → Ref → Bool) (t : Transmission) : Prop :=
  t.sameList (fun _ => sameBody) .pending = true →
    ∀ e ∈ t.pendingReTxList.entries.head?, ∀ r r', e.2 = some r → t.get .reTx e.1 = some r' →
      instanceOf (t.headers r') = instanceOf (t.headers r)

theorem passes_pending {out : Transmission × List Message}
    (hout : transmit sameBody i .pending destinationIp t = some out) (hk : WellKeyed t)
    (hfits : FitsAlone i t .pending) (hfirst : FirstAlike sameBody t) :
    Passes t out.1 ∧ SameLists (mixed sameBody t) out.1 := by
  obtain ⟨updates, hupdates⟩ := exists_updates hout
  have hfound : ∀ key ∈ (t.list .pending).keys, ∃ r, t.get .pending key = some r := by
    intro key hkey
    obtain ⟨r, hr, _⟩ := get_of_mem_keys hk hkey
    exact ⟨r, hr⟩
  cases hentries : t.pendingReTxList.entries with
  | nil =>
    have hkeys : (t.list .pending).keys = [] := congrArg (List.map Sigma.fst) hentries
    rw [hkeys] at hupdates
    have hmixed : mixed sameBody t = t := by
      unfold mixed
      rw [hentries]
    rw [show out.1 = t from (Prod.mk.inj (Option.some.inj hupdates)).1.symm, hmixed]
    exact ⟨Passes.refl t, rfl, rfl⟩
  | cons e rest =>
    have hkeys : (t.list .pending).keys = e.1 :: rest.map Sigma.fst :=
      congrArg (List.map Sigma.fst) hentries
    have hmixed : mixed sameBody t = t.flooded (fun _ => sameBody) .pending e.1 e.2 := by
      unfold mixed
      rw [hentries]
    have hlook : t.pendingReTxList.lookup e.1 = some e.2 :=
      (mem_entries_iff _ _ _).mp (hentries ▸ List.mem_cons_self)
    obtain ⟨r, he, hkey⟩ := hk .pending e.1 e.2 hlook
    have hr : t.get .pending e.1 = some r := by
      rw [Transmission.get, Transmission.list, hlook, he]
      rfl
    have hdiffer := sameList_mixed sameBody (t := t) (by simp [hentries])
    have hroom := hfits e.1 r hr
    rw [hkeys] at hupdates hfound
    refine flood_invariant_cons (fun t' => Passes t t' ∧ SameLists (mixed sameBody t) t')
      ?_ ?_ i (hkeys ▸ keeps_self t .pending) (hkeys ▸ t.pendingReTxList.keys_nodup) hfound hr ?_
      ⟨?_, ?_⟩ hupdates
    · intro t' _ q h _
      exact ⟨h.1.trans (passes_ageLsa t' q), h.2.1, h.2.2⟩
    · intro t' key q h _
      have hlist : t'.sameList (fun _ => sameBody) .pending = false :=
        (h.2.sameList .pending).trans hdiffer
      rw [Transmission.flooded, if_neg (Bool.eq_false_iff.mp hlist)]
      exact h
    · unfold lengthOf at hroom
      unfold emptyLength OSPF_HEADER_LENGTH FOUR_BYTES OspfInterface.maxSize LSA_HEADER_LENGTH
      omega
    · apply (passes_ageLsa t r).trans
      apply passes_flooded ((get_ageLsa t r .pending e.1).trans hr)
      intro hsame r' hr'
      rw [get_ageLsa] at hr'
      rw [(passes_ageLsa t r).instanceOf_eq, (passes_ageLsa t r).instanceOf_eq]
      exact hfirst hsame e (by rw [hentries]; rfl) r r' he hr'
    · rw [hmixed, he]
      exact (sameLists_ageLsa t r).flooded .pending e.1 (some r)

end Transmitting

end FloodingPasses

import Onos.GroupStoreSteps

/-! The two indexes of the group store: whether keys and ids of the groups are one to one, and
whether the table of the node has what the key map has once its events have arrived. -/
namespace GroupStore.Store

open KeyedMap FedIndex InputMachine

variable {τ κ : Type} [DecidableEq κ]

section Statement

/-- Groups are compared without the count of failed attempts, which the key map does not see. -/
def content (g : StoredGroup τ κ) : StoredGroup τ κ := { g with failedRetryCount := 0 }

structure IsOneToOne (s : Store τ κ) : Prop where
  distinct : ∀ k k' g g', s.keyMap.lookup k = some g → s.keyMap.lookup k' = some g' →
    g.id = g'.id → k = k'
  held : ∀ k g, s.keyMap.lookup k = some g →
    ∃ h, s.idTable.lookup g.id = some h ∧ content h = content g
  only : ∀ i h, s.idTable.lookup i = some h →
    ∃ g, s.keyMap.lookup h.appCookie = some g ∧ g.id = i ∧ content g = content h

def IsNew (s : Store τ κ) (k : κ) (id : GroupId) : Prop :=
  s.idTable.lookup id = none ∧
    ∀ e ∈ s.events, e.subject StoredGroup.appCookie ≠ k ∧ e.value.map (fun g => g.id) ≠ some id

instance decidableIsNew (s : Store τ κ) (k : κ) (id : GroupId) : Decidable (IsNew s k id) :=
  inferInstanceAs (Decidable (s.idTable.lookup id = none ∧ _))

variable [DecidableEq τ]

def KeepsKeys (s : Store τ κ) : Call τ κ → Prop
  | .storeGroupDescription groupDesc =>
    s.keyMap.lookup groupDesc.appCookie = none → s.deviceAuditStatus ≠ none →
      ∀ id ∈ s.chosenId groupDesc, IsNew s groupDesc.appCookie id
  | .updateGroupDescription oldAppCookie type newBuckets newAppCookie =>
    ∀ old ∈ s.keyMap.lookup oldAppCookie, ∀ g ∈ updatedGroup old type newBuckets newAppCookie,
      g.appCookie = oldAppCookie
  | _ => True

instance decidableKeepsKeys (s : Store τ κ) : (x : Call τ κ) → Decidable (KeepsKeys s x)
  | .storeGroupDescription groupDesc =>
    -- not by going through all ids
    have : Decidable (∀ id ∈ s.chosenId groupDesc, IsNew s groupDesc.appCookie id) :=
      Option.decidableForallMem _
    inferInstanceAs (Decidable (s.keyMap.lookup groupDesc.appCookie = none →
      s.deviceAuditStatus ≠ none → _))
  | .updateGroupDescription oldAppCookie type newBuckets newAppCookie => inferInstanceAs (Decidable
      (∀ old ∈ s.keyMap.lookup oldAppCookie,
        ∀ g ∈ updatedGroup old type newBuckets newAppCookie, g.appCookie = oldAppCookie))
  | .deleteGroupDescription _ | .addOrUpdateGroupEntry _ | .removeGroupEntry _ | .purgeGroupEntry
  | .deviceInitialAuditCompleted _ | .groupOperationFailed _ | .addOrUpdateExtraneousGroupEntry _
  | .removeExtraneousGroupEntry _ | .pushGroupMetrics _ | .receive | .takeId _ => isTrue trivial

end Statement

section Tracking

/-- The index keeps up with the key map, and no pair of a key and an id is forgotten. -/
def Tracks (s s' : Store τ κ) : Prop :=
  Extends StoredGroup.appCookie (fun g => g.id) content s.indexed s'.indexed

abbrev IsConsistent (s : Store τ κ) : Prop :=
  Consistent StoredGroup.appCookie (fun g => g.id) content s.indexed

variable {g h : StoredGroup τ κ}

section

omit [DecidableEq κ]

theorem content_eq (hsame : content g = content h) : g.appCookie = h.appCookie ∧ g.id = h.id := by
  have hkey : (content g).appCookie = (content h).appCookie := by rw [hsame]
  have hid : (content g).id = (content h).id := by rw [hsame]
  exact ⟨hkey, hid⟩

theorem SameGroups.indexed_eq {s s' : Store τ κ} (h : SameGroups s s') : s'.indexed = s.indexed := by
  unfold indexed
  rw [h.keyMap, h.idTable, h.events]

end

theorem indexed_removeKey (s : Store τ κ) (k : κ) : (s.removeKey k).indexed = s.indexed.remove k := by
  unfold removeKey Indexed.remove
  split_ifs <;> first | rfl | contradiction

theorem tracks_of_sameGroups {s s' : Store τ κ} (h : SameGroups s s') : Tracks s s' := by
  rw [Tracks, h.indexed_eq]
  exact Extends.refl _

theorem respected_tracks : Respected (Tracks (τ := τ) (κ := κ)) where
  trans := Extends.trans
  same h _ := tracks_of_sameGroups h
  removal := by
    intro s k
    rw [Tracks, indexed_removeKey]
    exact extends_remove s.indexed k

variable {s : Store τ κ}

theorem tracks_record_of_held {i : GroupId}
    (hh : s.idTable.lookup i = some h) (hkey : g.appCookie = h.appCookie) (hid : g.id = h.id) :
    Tracks s (s.record g) := by
  intro hs
  have hown : s.indexed.index.lookup g.id = some h := by
    rw [hid, hs.own_id i h hh]
    exact hh
  exact extends_record (hs.fits_of_knows (Or.inl ⟨h, hown, hkey.symm⟩)) hs

theorem tracks_putKey_of_listed {k : κ}
    (hh : s.keyMap.lookup k = some h) (hkey : g.appCookie = h.appCookie) (hid : g.id = h.id) :
    Tracks s (s.putKey g) := by
  intro hs
  have hknows := hs.knows_of_lookup (fun _ _ => content_eq) (k := k) (a := h) hh
  rw [← hkey, ← hid] at hknows
  exact extends_put (hs.fits_of_knows hknows) hs

theorem tracks_deleteGroupDescriptionInternal (s : Store τ κ) (k : κ) :
    Tracks s (s.deleteGroupDescriptionInternal k) :=
  respected_tracks.deleteGroupDescriptionInternal fun _ hg => tracks_putKey_of_listed hg rfl rfl

variable [DecidableEq τ]

theorem tracks_addOrUpdateGroupEntry (s : Store τ κ) (group : Group τ) :
    Tracks s (s.addOrUpdateGroupEntry group) :=
  respected_tracks.addOrUpdateGroupEntry fun _ hg => tracks_record_of_held hg rfl rfl

theorem tracks_updateGroupEntryStats (s : Store τ κ) (group : Group τ) :
    Tracks s (s.updateGroupEntryStats group) :=
  respected_tracks.updateGroupEntryStats fun _ hg _ => tracks_record_of_held hg rfl rfl

theorem tracks_groupOperationFailed (s : Store τ κ) (operation : GroupOperation τ) :
    Tracks s (s.groupOperationFailed operation) := by
  refine respected_tracks.groupOperationFailed
    (fun g _ _ _ _ => tracks_addOrUpdateGroupEntry s g.toGroup) fun g hg hs => ?_
  have hown : s.indexed.index.lookup g.id = some g := by
    rw [hs.own_id _ g hg]
    exact hg
  exact extends_post (a := { g with failedRetryCount := g.failedRetryCount + 1 }) (b := g) hown rfl
    rfl hs

theorem tracks_updateGroupDescriptionInternal {k : κ} {type : UpdateType}
    {newBuckets : List (GroupBucket τ)} {newKey : Option κ}
    (h : KeepsKeys s (.updateGroupDescription k type newBuckets newKey)) :
    Tracks s (s.updateGroupDescriptionInternal k type newBuckets newKey) := by
  refine respected_tracks.updateGroupDescriptionInternal fun old g hold hg hs => ?_
  have hkey : g.appCookie = old.appCookie := (h old hold g hg).trans (hs.own_key k old hold).symm
  have hid : g.id = old.id := by
    unfold updatedGroup at hg
    cases hlist : getUpdatedBucketList old.buckets type newBuckets with
    | none =>
      rw [hlist] at hg
      cases hg
    | some buckets =>
      rw [hlist] at hg
      dsimp only at hg
      split_ifs at hg
      rw [← Option.some.inj hg]
      rfl
  exact tracks_putKey_of_listed hold hkey hid hs

omit [DecidableEq τ] in
theorem tracks_record_of_isNew
    (hnone : s.keyMap.lookup g.appCookie = none) (hnew : IsNew s g.appCookie g.id) :
    Tracks s (s.record g) :=
  fun hs => extends_record (hs.fits_of_quiet hnone hnew.1 hnew.2) hs

theorem tracks_storeGroupDescriptionInternal {groupDesc : GroupDescription τ κ}
    (h : KeepsKeys s (.storeGroupDescription groupDesc)) :
    Tracks s (s.storeGroupDescriptionInternal groupDesc) := by
  refine respected_tracks.storeGroupDescriptionInternal tracks_of_sameGroups
    (fun g hnone haudit hkey hid => ?_) fun g g' _ _ hkey hid => ?_
  · have hnew := h hnone haudit g.id hid
    rw [← hkey] at hnone hnew
    exact tracks_record_of_isNew hnone hnew
  · exact tracks_record_of_held (AList.lookup_insert s.idTable) hkey hid

/-- The relation that the loops of an audit respect: the pairs of the groups that the audit goes on
with stay known. -/
def TracksListed (stored : List (StoredGroup τ κ)) (s s' : Store τ κ) : Prop :=
  (∀ g ∈ stored, s.indexed.Knows StoredGroup.appCookie (fun g => g.id) g.appCookie g.id) →
    IsConsistent s → IsConsistent s' ∧ ∀ k i,
      s.indexed.Knows StoredGroup.appCookie (fun g => g.id) k i →
        s'.indexed.Knows StoredGroup.appCookie (fun g => g.id) k i

omit [DecidableEq τ] in
theorem respected_tracksListed (stored : List (StoredGroup τ κ)) :
    Respected (TracksListed stored) where
  trans := by
    intro s s' s'' h h' hstored hs
    obtain ⟨hs', hknows⟩ := h hstored hs
    obtain ⟨hs'', hknows'⟩ := h' (fun g hg => hknows _ _ (hstored g hg)) hs'
    exact ⟨hs'', fun k i hk => hknows' k i (hknows k i hk)⟩
  same h _ _ := tracks_of_sameGroups h
  removal s k _ := respected_tracks.removal s k

theorem tracks_reconcile (cfg : Config) (hashCode : Group τ → ℤ) (southbound : List (Group τ))
    (s : Store τ κ) {stored : List (StoredGroup τ κ)} (extraneousStored : List (Group τ))
    (hstored : ∀ g ∈ stored,
      s.indexed.Knows StoredGroup.appCookie (fun g => g.id) g.appCookie g.id) :
    Tracks s (reconcile cfg hashCode southbound (s, stored) extraneousStored) := by
  refine (respected_tracksListed stored).reconcile cfg hashCode (Q := fun g => g ∈ stored)
    (fun s group _ _ _ _ => tracks_updateGroupEntryStats s group) (fun s g hg _ hknown hs => ?_)
    southbound s stored extraneousStored (fun _ hg => hg) hstored
  have hfit : s.indexed.Fits StoredGroup.appCookie (fun g => g.id)
      { g with state := .pendingAddRetry } := hs.fits_of_knows (hknown g hg)
  exact extends_put hfit hs

theorem tracks_collected (cfg : Config) (hashCode : Group τ → ℤ) (m : Mastership) (s : Store τ κ)
    (groupEntries : List (Group τ)) : Tracks s (collected cfg hashCode m s groupEntries).1 :=
  respected_tracks.collected cfg hashCode m tracks_deleteGroupDescriptionInternal s groupEntries

theorem tracks_audited (cfg : Config) (hashCode : Group τ → ℤ) (isAvailable : Bool)
    (hwell : IsWellKeyed s) (groupEntries : List (Group τ)) :
    Tracks s (audited cfg hashCode isAvailable s groupEntries) := by
  intro hs
  obtain ⟨hs', hknows⟩ := tracks_collected cfg hashCode (localMaster isAvailable) s groupEntries hs
  have hstored : ∀ g ∈ (collected cfg hashCode (localMaster isAvailable) s groupEntries).2.2,
      (collected cfg hashCode (localMaster isAvailable) s groupEntries).1.indexed.Knows
        StoredGroup.appCookie (fun g => g.id) g.appCookie g.id := fun g hg =>
    hknows _ _ (hs.knows_of_lookup (fun _ _ => content_eq) (lookup_of_mem_collected hwell hg).1)
  obtain ⟨hs'', hknows'⟩ := tracks_reconcile cfg hashCode
    (collected cfg hashCode (localMaster isAvailable) s groupEntries).2.1 _
    (newHashSet (sameGroup hashCode) (values s.extraneous)) hstored hs'
  exact ⟨hs'', fun k i h => hknows' k i (hknows k i h)⟩

end Tracking

section Waiting

variable [DecidableEq τ]

/-- Requests about to be carried out, whose keys are new, in a state where the table of the node has
no id of a group of the switch. -/
structure IsReady (ds : List (GroupDescription τ κ)) (s : Store τ κ) : Prop where
  consistent : IsConsistent s
  audited : s.deviceAuditStatus ≠ none
  keys : ∀ d ∈ ds, s.keyMap.lookup d.appCookie = none ∧
    ∀ e ∈ s.events, e.subject StoredGroup.appCookie ≠ d.appCookie
  extraneous : ∀ i g, s.extraneous.lookup i = some g → g.id = i ∧ s.idTable.lookup i = none
  posted : ∀ e ∈ s.events, ∀ g ∈ e.value, (s.idTable.lookup g.id).isSome

variable {s : Store τ κ}

omit [DecidableEq κ] in
theorem of_mem_chosenId {groupDesc : GroupDescription τ κ} {id : GroupId}
    (h : s.chosenId groupDesc = some id) :
    (∃ group ∈ values s.extraneous, group.id = id) ∨ s.idTable.lookup id = none := by
  unfold chosenId at h
  cases hgiven : groupDesc.givenGroupId with
  | some given =>
    rw [hgiven] at h
    dsimp only at h
    cases hext : s.extraneous.lookup given with
    | some group =>
      rw [hext] at h
      exact Or.inl ⟨group, (mem_values_iff _ _).mpr ⟨given, hext⟩, Option.some.inj h⟩
    | none =>
      rw [hext] at h
      dsimp only at h
      split_ifs at h with hused
      rw [← Option.some.inj h]
      exact Or.inr (Option.not_isSome_iff_eq_none.mp hused)
  | none =>
    rw [hgiven] at h
    dsimp only at h
    cases hmatch : s.getMatchingExtraneousGroupbyBuckets groupDesc.buckets with
    | some group =>
      rw [hmatch] at h
      exact Or.inl ⟨group, List.mem_of_find?_eq_some hmatch, Option.some.inj h⟩
    | none =>
      rw [hmatch] at h
      have hused := isUsed_of_getFreeGroupIdValue h
      rw [isUsed, Bool.or_eq_false_iff] at hused
      refine Or.inr (Option.not_isSome_iff_eq_none.mp ?_)
      rw [hused.1]
      exact Bool.false_ne_true

variable {d : GroupDescription τ κ} {ds : List (GroupDescription τ κ)}

theorem IsReady.keepsKeys (h : IsReady (d :: ds) s) : KeepsKeys s (.storeGroupDescription d) := by
  intro _ _ id hid
  have hnone : s.idTable.lookup id = none := by
    rcases of_mem_chosenId hid with ⟨group, hgroup, rfl⟩ | hnone
    · obtain ⟨i, hi⟩ := (mem_values_iff _ _).mp hgroup
      obtain ⟨hown, hnone⟩ := h.extraneous i group hi
      rw [hown]
      exact hnone
    · exact hnone
  refine ⟨hnone, fun e he => ⟨(h.keys d List.mem_cons_self).2 e he, fun hvalue => ?_⟩⟩
  obtain ⟨g, hg, hgid⟩ := Option.map_eq_some_iff.mp hvalue
  have hposted := h.posted e he g hg
  rw [hgid, hnone] at hposted
  cases hposted

omit [DecidableEq τ] in
/-- A request has stored groups under its key and one id, which is not that of a group of the switch
any more. -/
theorem IsReady.of_stored
    {s s' : Store τ κ} (h : IsReady (d :: ds) s) (hne : ∀ d' ∈ ds, d.appCookie ≠ d'.appCookie)
    (hs' : IsConsistent s') (haudit : s'.deviceAuditStatus ≠ none) (id : GroupId)
    (hkeys : ∀ k, k ≠ d.appCookie → s'.keyMap.lookup k = s.keyMap.lookup k)
    (hids : ∀ i, i ≠ id → s'.idTable.lookup i = s.idTable.lookup i)
    (hid : (s'.idTable.lookup id).isSome)
    (hext : ∀ i g, s'.extraneous.lookup i = some g → i ≠ id ∧ s.extraneous.lookup i = some g)
    (hevents : ∃ new, s'.events = s.events ++ new ∧ ∀ e ∈ new,
      e.subject StoredGroup.appCookie = d.appCookie ∧ ∀ g ∈ e.value, g.id = id) :
    IsReady ds s' := by
  obtain ⟨new, hnew, hof⟩ := hevents
  refine ⟨hs', haudit, fun d' hd' => ⟨?_, ?_⟩, fun i g hi => ?_, ?_⟩
  · rw [hkeys _ (hne d' hd').symm]
    exact (h.keys d' (List.mem_cons_of_mem d hd')).1
  · rw [hnew]
    intro e he
    rcases List.mem_append.mp he with he | he
    · exact (h.keys d' (List.mem_cons_of_mem d hd')).2 e he
    · rw [(hof e he).1]
      exact hne d' hd'
  · obtain ⟨hne', hi⟩ := hext i g hi
    obtain ⟨hown, hnone⟩ := h.extraneous i g hi
    exact ⟨hown, (hids i hne').trans hnone⟩
  · rw [hnew]
    intro e he g hg
    by_cases hgid : g.id = id
    · rw [hgid]
      exact hid
    · rw [hids _ hgid]
      rcases List.mem_append.mp he with he | he
      · exact h.posted e he g hg
      · exact absurd ((hof e he).2 g hg) hgid

section

omit [DecidableEq κ] [DecidableEq τ]

theorem of_lookup_erase {α : Type} {m : Table GroupId α} {id i : GroupId} {g : α}
    (h : (m.erase id).lookup i = some g) : i ≠ id ∧ m.lookup i = some g := by
  rw [lookup_erase] at h
  split_ifs at h with hid
  exact ⟨hid, h⟩

theorem put_subject_id {id : GroupId} {g : StoredGroup τ κ}
    (hkey : g.appCookie = d.appCookie) (hid : g.id = id) :
    (Change.put g : Change κ (StoredGroup τ κ)).subject StoredGroup.appCookie = d.appCookie ∧
      ∀ g' ∈ (Change.put g : Change κ (StoredGroup τ κ)).value, g'.id = id := by
  refine ⟨hkey, fun g' hg' => ?_⟩
  rw [← Option.some.inj hg']
  exact hid

end

theorem adopt_eq (s : Store τ κ) (group : Group τ) (d : GroupDescription τ κ) :
    s.adopt group d = (((s.record (newGroup group.id d)).record
      (confirmed group (newGroup group.id d))).notify
        (.of .groupAdded (confirmed group (newGroup group.id d)))).removeExtraneousGroupEntry
          group := by
  have hlookup : (s.record (newGroup group.id d)).idTable.lookup group.id =
      some (newGroup group.id d) := AList.lookup_insert s.idTable
  rw [adopt, addOrUpdateGroupEntry, hlookup]
  rfl

theorem IsReady.execute (h : IsReady (d :: ds) s) (hne : ∀ d' ∈ ds, d.appCookie ≠ d'.appCookie) :
    IsReady ds (s.executePending d) := by
  have hnone := (h.keys d List.mem_cons_self).1
  have hconsistent : IsConsistent (s.executePending d) :=
    (tracks_storeGroupDescriptionInternal h.keepsKeys h.consistent).1
  have hinsert : ∀ (m : Table κ (StoredGroup τ κ)) g k, k ≠ d.appCookie →
      (m.insert d.appCookie g).lookup k = m.lookup k := fun m g k hk => AList.lookup_insert_ne hk
  unfold executePending at hconsistent ⊢
  have houtcome := s.storeGroupDescriptionInternal_outcome d
  generalize s.storeGroupDescriptionInternal d = s' at houtcome hconsistent ⊢
  cases houtcome with
  | known hknown =>
    rw [hnone] at hknown
    cases hknown
  | queued _ haudit => exact absurd haudit h.audited
  | refused =>
    exact ⟨hconsistent, h.audited, fun d' hd' => h.keys d' (List.mem_cons_of_mem d hd'),
      h.extraneous, h.posted⟩
  | adopted group =>
    rw [adopt_eq] at hconsistent ⊢
    refine h.of_stored hne hconsistent h.audited group.id (fun k hk => ?_) (fun i hi => ?_) ?_
      (fun i g hi => ?_) ⟨[.put (newGroup group.id d), .put (confirmed group (newGroup group.id d))],
        List.append_assoc _ _ _, ?_⟩
    · exact (hinsert _ _ k hk).trans (hinsert _ _ k hk)
    · exact (AList.lookup_insert_ne hi).trans (AList.lookup_insert_ne hi)
    · exact Option.isSome_of_eq_some (AList.lookup_insert (s.record (newGroup group.id d)).idTable)
    · exact of_lookup_erase hi
    · intro e he
      rcases List.mem_cons.mp he with rfl | he
      · exact put_subject_id rfl rfl
      · rw [List.mem_singleton.mp he]
        exact put_subject_id rfl rfl
  | updated group =>
    refine h.of_stored hne hconsistent h.audited group.id (fun k hk => hinsert _ _ k hk)
      (fun i hi => AList.lookup_insert_ne hi) ?_ (fun i g hi => of_lookup_erase hi)
      ⟨[.put { newGroup group.id d with state := .pendingUpdate }], rfl, fun e he => ?_⟩
    · exact Option.isSome_of_eq_some (AList.lookup_insert s.idTable)
    · rw [List.mem_singleton.mp he]
      exact put_subject_id rfl rfl
  | created gen id _ _ _ hfree =>
    rw [isUsed, Bool.or_eq_false_iff] at hfree
    refine h.of_stored hne hconsistent h.audited id (fun k hk => hinsert _ _ k hk)
      (fun i hi => AList.lookup_insert_ne hi) ?_ (fun i g hi => ⟨fun hid => ?_, hi⟩)
      ⟨[.put (newGroup id d)], rfl, fun e he => ?_⟩
    · exact Option.isSome_of_eq_some (AList.lookup_insert s.idTable)
    · have hsome : (s.extraneous.lookup i).isSome := Option.isSome_of_eq_some hi
      rw [hid, hfree.2] at hsome
      cases hsome
    · rw [List.mem_singleton.mp he]
      exact put_subject_id rfl rfl

theorem IsReady.foldl (hpair : ds.Pairwise fun d d' => d.appCookie ≠ d'.appCookie)
    (h : IsReady ds s) : IsConsistent (ds.foldl executePending s) := by
  induction ds generalizing s with
  | nil => exact h.consistent
  | cons d ds ih =>
    obtain ⟨hne, hpair⟩ := List.pairwise_cons.mp hpair
    exact ih hpair (h.execute hne)

end Waiting

section FirstAudit

structure IsBare (s : Store τ κ) : Prop where
  keyMap : s.keyMap = ∅
  idTable : s.idTable = ∅
  events : s.events = []

def HasOwnIds (m : Table GroupId (Group τ)) : Prop := ∀ i g, m.lookup i = some g → g.id = i

omit [DecidableEq κ] in
theorem SameGroups.isBare {s s' : Store τ κ} (h : SameGroups s s') (hs : IsBare s) : IsBare s' :=
  ⟨h.keyMap.trans hs.keyMap, h.idTable.trans hs.idTable, h.events.trans hs.events⟩

theorem HasOwnIds.insert {m : Table GroupId (Group τ)} (h : HasOwnIds m) (group : Group τ) :
    HasOwnIds (m.insert group.id group) := by
  intro i g hi
  rw [lookup_insert] at hi
  split_ifs at hi with hid
  · rw [← Option.some.inj hi, hid]
  · exact h i g hi

theorem HasOwnIds.erase {m : Table GroupId (Group τ)} (h : HasOwnIds m) (id : GroupId) :
    HasOwnIds (m.erase id) := fun i g hi => h i g (of_lookup_erase hi).2

variable [DecidableEq τ]

section

omit [DecidableEq κ] [DecidableEq τ]

theorem hasOwnIds_checkExtraneous (cfg : Config) (same : Group τ → Group τ → Bool)
    (group : Group τ) {r : Store τ κ × List (StoredGroup τ κ) × List (Group τ)}
    (h : HasOwnIds r.1.extraneous) : HasOwnIds (checkExtraneous cfg same group r).1.extraneous := by
  unfold checkExtraneous
  cases r.1.idTable.lookup group.id with
  | some g => exact h
  | none =>
    dsimp only
    split_ifs
    · exact h.insert group
    · exact h

theorem hasOwnIds_foldl_checkExtraneous (cfg : Config) (same : Group τ → Group τ → Bool)
    (groups : List (Group τ)) (r : Store τ κ × List (StoredGroup τ κ) × List (Group τ))
    (h : HasOwnIds r.1.extraneous) : HasOwnIds
      (groups.foldl (fun r group => checkExtraneous cfg same group r) r).1.extraneous := by
  induction groups generalizing r with
  | nil => exact h
  | cons group groups ih => exact ih _ (hasOwnIds_checkExtraneous cfg same group h)

end

theorem updateStats_nil (same : Group τ → Group τ → Bool) (southbound : List (Group τ))
    (s : Store τ κ) : updateStats same southbound (s, []) = (s, southbound, []) := by
  induction southbound with
  | nil => rfl
  | cons group groups ih =>
    rw [updateStats, List.any_nil, if_neg Bool.false_ne_true, ih]

theorem reconcile_nil (cfg : Config) (hashCode : Group τ → ℤ) (southbound : List (Group τ))
    (s : Store τ κ) (extraneousStored : List (Group τ)) (h : HasOwnIds s.extraneous) :
    SameGroups s (reconcile cfg hashCode southbound (s, []) extraneousStored) ∧
      HasOwnIds (reconcile cfg hashCode southbound (s, []) extraneousStored).extraneous := by
  unfold reconcile
  dsimp only
  rw [updateStats_nil]
  dsimp only
  obtain ⟨hsame, _, hsub⟩ := foldl_checkExtraneous_same cfg (sameGroup hashCode) southbound
    (s, [], extraneousStored)
  have hown := hasOwnIds_foldl_checkExtraneous cfg (sameGroup hashCode) southbound
    (s, [], extraneousStored) h
  generalize southbound.foldl (fun r group => checkExtraneous cfg (sameGroup hashCode) group r)
    (s, [], extraneousStored) = c at hsame hsub hown
  rw [List.sublist_nil.mp hsub]
  have hclear : ∀ (groups : List (Group τ)) (s₁ : Store τ κ), SameGroups s s₁ →
      HasOwnIds s₁.extraneous → SameGroups s (groups.foldl removeExtraneousGroupEntry s₁) ∧
        HasOwnIds (groups.foldl removeExtraneousGroupEntry s₁).extraneous := by
    intro groups
    induction groups with
    | nil => exact fun _ h h' => ⟨h, h'⟩
    | cons group groups ih => exact fun s₁ h h' => ih _ (h.trans ⟨rfl, rfl, rfl, List.prefix_rfl⟩) (h'.erase _)
  exact hclear c.2.2 c.1 hsame hown

theorem audited_of_isBare (cfg : Config) (hashCode : Group τ → ℤ) (isAvailable : Bool)
    {s : Store τ κ} (hs : IsBare s) (h : HasOwnIds s.extraneous) (groupEntries : List (Group τ)) :
    IsBare (audited cfg hashCode isAvailable s groupEntries) ∧
      HasOwnIds (audited cfg hashCode isAvailable s groupEntries).extraneous := by
  have hcollected : collected cfg hashCode (localMaster isAvailable) s groupEntries =
      (s, newHashSet (sameGroup hashCode) groupEntries, []) := by
    have hnone : getStoredGroups (localMaster isAvailable) s = [] := by
      unfold getStoredGroups
      rw [hs.keyMap]
      rfl
    unfold collected garbageCollect
    rw [hnone]
    split_ifs <;> rfl
  unfold audited
  rw [hcollected]
  exact (reconcile_nil cfg hashCode _ s _ h).imp_left fun hsame => hsame.isBare hs

end FirstAudit

section Requests

variable [DecidableEq τ]

theorem sameRequests_storeGroupDescriptionInternal {s : Store τ κ} (h : s.deviceAuditStatus ≠ none)
    (d : GroupDescription τ κ) : SameRequests s (s.storeGroupDescriptionInternal d) := by
  have houtcome := s.storeGroupDescriptionInternal_outcome d
  generalize s.storeGroupDescriptionInternal d = s' at houtcome
  cases houtcome with
  | known | refused => exact ⟨rfl, rfl⟩
  | queued _ haudit => exact absurd haudit h
  | adopted group =>
    rw [adopt_eq]
    exact ⟨rfl, rfl⟩
  | updated group => exact ⟨rfl, rfl⟩
  | created gen id => exact ⟨rfl, rfl⟩

theorem lookup_executePending {s : Store τ κ} (h : s.deviceAuditStatus ≠ none)
    (d : GroupDescription τ κ) (k : κ) : (s.executePending d).pendingKeyTable.lookup k =
      if k = d.appCookie then none else s.pendingKeyTable.lookup k := by
  rw [← (sameRequests_storeGroupDescriptionInternal h d).pendingKeyTable]
  exact lookup_erase _ _ _

theorem foldl_executePending (ds : List (GroupDescription τ κ)) {s : Store τ κ}
    (h : s.deviceAuditStatus ≠ none) :
    (ds.foldl executePending s).deviceAuditStatus = s.deviceAuditStatus ∧
      ∀ k, (ds.foldl executePending s).pendingKeyTable.lookup k =
        if ∃ d ∈ ds, k = d.appCookie then none else s.pendingKeyTable.lookup k := by
  induction ds generalizing s with
  | nil => exact ⟨rfl, fun k => by simp⟩
  | cons d ds ih =>
    have hstatus : (s.executePending d).deviceAuditStatus = s.deviceAuditStatus :=
      (sameRequests_storeGroupDescriptionInternal h d).deviceAuditStatus
    obtain ⟨hrest, hlookup⟩ := ih (s := s.executePending d) (by rw [hstatus]; exact h)
    refine ⟨hrest.trans hstatus, fun k => (hlookup k).trans ?_⟩
    rw [lookup_executePending h]
    by_cases hk : k = d.appCookie
    · simp [hk]
    · simp [hk]

theorem deviceInitialAuditCompleted_true {s : Store τ κ}
    (hown : ∀ k d, s.pendingKeyTable.lookup k = some d → d.appCookie = k) :
    (s.deviceInitialAuditCompleted true).deviceAuditStatus = some true ∧
      ∀ k, (s.deviceInitialAuditCompleted true).pendingKeyTable.lookup k = none := by
  rw [deviceInitialAuditCompleted, if_pos rfl]
  obtain ⟨hstatus, hlookup⟩ := foldl_executePending (values s.pendingKeyTable)
    (s := { s with deviceAuditStatus := some true }) (Option.some_ne_none true)
  refine ⟨hstatus, fun k => (hlookup k).trans ?_⟩
  split_ifs with hk
  · rfl
  · cases hd : s.pendingKeyTable.lookup k with
    | none => rfl
    | some d => exact absurd ⟨d, (mem_values_iff _ _).mpr ⟨k, hd⟩, (hown k d hd).symm⟩ hk

end Requests

section Runs

variable [DecidableEq τ]

/-- Requests wait only until the first audit, and until then there are no groups. -/
structure IsSound (s : Store τ κ) : Prop where
  wellKeyed : IsWellKeyed s
  consistent : IsConsistent s
  bare : s.deviceAuditStatus = none → IsBare s ∧ HasOwnIds s.extraneous
  ownKeys : ∀ k d, s.pendingKeyTable.lookup k = some d → d.appCookie = k
  idle : s.deviceAuditStatus ≠ none → ∀ k, s.pendingKeyTable.lookup k = none

omit [DecidableEq τ] in
theorem isSound_empty : IsSound (empty : Store τ κ) where
  wellKeyed := isWellKeyed_empty
  consistent := by
    refine ⟨fun k a h => ?_, fun i a h => ?_, ?_, fun k => rfl⟩
    · cases h
    · cases h
    · rintro k i k' i' (⟨a, h, _⟩ | ⟨a, h, _⟩)
      · cases h
      · cases h
  bare _ := by
    refine ⟨⟨rfl, rfl, rfl⟩, fun i g h => ?_⟩
    cases h
  ownKeys := by
    intro k d h
    cases h
  idle h := absurd rfl h

variable {s s' : Store τ κ}

omit [DecidableEq τ] in
theorem IsSound.of_sameRequests (hs : IsSound s) (hwell : IsWellKeyed s')
    (hconsistent : IsConsistent s') (hsame : SameRequests s s')
    (hbare : IsBare s → HasOwnIds s.extraneous → IsBare s' ∧ HasOwnIds s'.extraneous) :
    IsSound s' where
  wellKeyed := hwell
  consistent := hconsistent
  bare := by
    rw [hsame.deviceAuditStatus]
    exact fun h => hbare (hs.bare h).1 (hs.bare h).2
  ownKeys := by
    rw [hsame.pendingKeyTable]
    exact hs.ownKeys
  idle := by
    rw [hsame.deviceAuditStatus, hsame.pendingKeyTable]
    exact hs.idle

theorem isSound_of_completed (hown : ∀ k d, s.pendingKeyTable.lookup k = some d → d.appCookie = k)
    (hwell : IsWellKeyed (s.deviceInitialAuditCompleted true))
    (hconsistent : IsConsistent (s.deviceInitialAuditCompleted true)) :
    IsSound (s.deviceInitialAuditCompleted true) where
  wellKeyed := hwell
  consistent := hconsistent
  bare h := by
    rw [(deviceInitialAuditCompleted_true hown).1] at h
    cases h
  ownKeys k d h := by
    rw [(deviceInitialAuditCompleted_true hown).2 k] at h
    cases h
  idle _ := (deviceInitialAuditCompleted_true hown).2

theorem IsSound.stored (hs : IsSound s) {d : GroupDescription τ κ}
    (hwell : IsWellKeyed (s.storeGroupDescriptionInternal d))
    (hconsistent : IsConsistent (s.storeGroupDescriptionInternal d)) :
    IsSound (s.storeGroupDescriptionInternal d) := by
  by_cases hnone : s.deviceAuditStatus = none
  · have houtcome := s.storeGroupDescriptionInternal_outcome d
    generalize s.storeGroupDescriptionInternal d = s' at houtcome hwell hconsistent ⊢
    cases houtcome with
    | known | refused => exact hs
    | adopted _ _ haudit | updated _ _ haudit | created _ _ _ haudit => exact absurd hnone haudit
    | queued =>
      obtain ⟨hbare, hids⟩ := hs.bare hnone
      refine ⟨hwell, hconsistent, fun _ => ⟨⟨hbare.keyMap, hbare.idTable, hbare.events⟩, hids⟩,
        fun k d' hk => ?_, fun h => absurd hnone h⟩
      rw [addToPendingAudit, lookup_insert] at hk
      split_ifs at hk with hkey
      · rw [← Option.some.inj hk, hkey]
      · exact hs.ownKeys k d' hk
  · have hsame := sameRequests_storeGroupDescriptionInternal hnone d
    refine ⟨hwell, hconsistent, fun h => ?_, ?_, ?_⟩
    · rw [hsame.deviceAuditStatus] at h
      exact absurd h hnone
    · rw [hsame.pendingKeyTable]
      exact hs.ownKeys
    · rw [hsame.deviceAuditStatus, hsame.pendingKeyTable]
      exact hs.idle

theorem IsSound.invalidated (hs : IsSound s) : IsSound (s.deviceInitialAuditCompleted false) := by
  rw [deviceInitialAuditCompleted, if_neg Bool.false_ne_true]
  split_ifs with hstatus
  · have hidle : ∀ k, s.pendingKeyTable.lookup k = none :=
      hs.idle (by rw [hstatus]; exact Option.some_ne_none true)
    exact ⟨⟨hs.wellKeyed.keys, hs.wellKeyed.ids⟩, hs.consistent,
      fun h => absurd h (Option.some_ne_none false), hs.ownKeys, fun _ => hidle⟩
  · exact hs

theorem sameRequests_audited (cfg : Config) (hashCode : Group τ → ℤ) (isAvailable : Bool)
    (s : Store τ κ) (groupEntries : List (Group τ)) :
    SameRequests s (audited cfg hashCode isAvailable s groupEntries) :=
  (sameRequests_collected cfg hashCode _ s groupEntries).trans
    (sameRequests_reconcile cfg hashCode _ _ _ _)

/-- The completion of an audit. What waits, waits for the first one, before which there are no
groups. -/
theorem IsSound.completed (hs : IsSound s) (hconsistent : IsConsistent s')
    (hsame : SameRequests s s')
    (hbare : IsBare s → HasOwnIds s.extraneous → IsBare s' ∧ HasOwnIds s'.extraneous) :
    IsConsistent (s'.deviceInitialAuditCompleted true) := by
  have hown : ∀ k d, s'.pendingKeyTable.lookup k = some d → d.appCookie = k := by
    rw [hsame.pendingKeyTable]
    exact hs.ownKeys
  have hpair : (values s'.pendingKeyTable).Pairwise fun d d' => d.appCookie ≠ d'.appCookie :=
    pairwise_values hown
  rw [deviceInitialAuditCompleted, if_pos rfl]
  by_cases hnone : s.deviceAuditStatus = none
  · obtain ⟨hbare', hids⟩ := hbare (hs.bare hnone).1 (hs.bare hnone).2
    refine IsReady.foldl hpair ⟨hconsistent, Option.some_ne_none true, ?_, ?_, ?_⟩
    · intro d _
      rw [hbare'.keyMap, hbare'.events]
      exact ⟨rfl, fun e he => absurd he List.not_mem_nil⟩
    · intro i g hi
      rw [hbare'.idTable]
      exact ⟨hids i g hi, rfl⟩
    · rw [hbare'.events]
      exact fun e he => absurd he List.not_mem_nil
  · have hempty : values s'.pendingKeyTable = [] := by
      refine List.eq_nil_iff_forall_not_mem.mpr fun d hd => ?_
      obtain ⟨k, hk⟩ := (mem_values_iff _ _).mp hd
      rw [hsame.pendingKeyTable, hs.idle hnone k] at hk
      cases hk
    rw [hempty]
    exact hconsistent

omit [DecidableEq κ] [DecidableEq τ] in
theorem IsBare.of_eq (h : s' = s) (hs : IsBare s)
    (hids : HasOwnIds s.extraneous) : IsBare s' ∧ HasOwnIds s'.extraneous := by
  rw [h]
  exact ⟨hs, hids⟩

omit [DecidableEq τ] in
theorem IsBare.lookups (hs : IsBare s) :
    (∀ k, s.keyMap.lookup k = none) ∧ ∀ i, s.idTable.lookup i = none := by
  rw [hs.keyMap, hs.idTable]
  exact ⟨fun _ => rfl, fun _ => rfl⟩

theorem isConsistent_receiveEvent (hwell : IsWellKeyed s) (hs : IsConsistent s) :
    IsConsistent s.receiveEvent := by
  have hdeliver := hs.deliver
  unfold receiveEvent
  cases hevents : s.events with
  | nil => exact hs
  | cons e es =>
    have hpop : IsWellKeyed { s with events := es } := ⟨hwell.keys, hwell.ids⟩
    have hfeed : s.indexed.feed = e :: es := hevents
    rw [Indexed.deliver, hfeed] at hdeliver
    dsimp only
    unfold IsConsistent
    rw [indexed_handleEvent hpop]
    exact hdeliver

theorem sameRequests_receiveEvent (s : Store τ κ) : SameRequests s s.receiveEvent := by
  unfold receiveEvent
  cases s.events with
  | nil => exact ⟨rfl, rfl⟩
  | cons e es =>
    cases e with
    | put g =>
      dsimp only [handleEvent]
      split_ifs <;> exact ⟨rfl, rfl⟩
    | remove k =>
      dsimp only [handleEvent]
      cases (values s.idTable).find? fun stored => stored.appCookie = k with
      | none => exact ⟨rfl, rfl⟩
      | some g =>
        dsimp only
        split_ifs <;> exact ⟨rfl, rfl⟩

theorem isSound_perform (cfg : Config) (hashCode : Group τ → ℤ) (isAvailable : Bool)
    (hs : IsSound s) {x : Call τ κ} (hx : KeepsKeys s x) :
    IsSound (s.perform cfg hashCode isAvailable x) := by
  have hwell := isWellKeyed_perform cfg hashCode isAvailable hs.wellKeyed x
  have hR := respected_sameRequests (τ := τ) (κ := κ)
  cases x with
  | storeGroupDescription d =>
    exact hs.stored hwell (tracks_storeGroupDescriptionInternal hx hs.consistent).1
  | updateGroupDescription k type newBuckets newKey =>
    refine hs.of_sameRequests hwell (tracks_updateGroupDescriptionInternal hx hs.consistent).1
      (hR.updateGroupDescriptionInternal fun _ _ _ _ => ⟨rfl, rfl⟩) fun hbare => hbare.of_eq ?_
    rw [perform, updateGroupDescriptionInternal, hbare.lookups.1]
  | deleteGroupDescription k =>
    refine hs.of_sameRequests hwell (tracks_deleteGroupDescriptionInternal s k hs.consistent).1
      (hR.deleteGroupDescriptionInternal fun _ _ => ⟨rfl, rfl⟩) fun hbare => hbare.of_eq ?_
    rw [perform, deleteGroupDescriptionInternal, hbare.lookups.1]
  | addOrUpdateGroupEntry group =>
    refine hs.of_sameRequests hwell (tracks_addOrUpdateGroupEntry s group hs.consistent).1
      (hR.addOrUpdateGroupEntry fun _ _ => ⟨rfl, rfl⟩) fun hbare => hbare.of_eq ?_
    rw [perform, Store.addOrUpdateGroupEntry, hbare.lookups.2]
  | removeGroupEntry group =>
    refine hs.of_sameRequests hwell (respected_tracks.removeGroupEntry s group hs.consistent).1
      (hR.removeGroupEntry s group) fun hbare => hbare.of_eq ?_
    rw [perform, Store.removeGroupEntry, hbare.lookups.2]
  | purgeGroupEntry =>
    refine hs.of_sameRequests hwell (respected_tracks.purgeGroupEntry s hs.consistent).1
      (hR.purgeGroupEntry s) fun hbare => hbare.of_eq ?_
    rw [perform, Store.purgeGroupEntry, hbare.keyMap]
    rfl
  | deviceInitialAuditCompleted completed =>
    cases completed with
    | true =>
      exact isSound_of_completed hs.ownKeys hwell
        (hs.completed hs.consistent ⟨rfl, rfl⟩ fun hbare hids => ⟨hbare, hids⟩)
    | false => exact hs.invalidated
  | groupOperationFailed operation =>
    refine hs.of_sameRequests hwell (tracks_groupOperationFailed s operation hs.consistent).1
      (sameRequests_groupOperationFailed s operation) fun hbare => hbare.of_eq ?_
    rw [perform, Store.groupOperationFailed, hbare.lookups.2]
  | addOrUpdateExtraneousGroupEntry group =>
    exact hs.of_sameRequests hwell hs.consistent ⟨rfl, rfl⟩ fun hbare hids =>
      ⟨⟨hbare.keyMap, hbare.idTable, hbare.events⟩, hids.insert group⟩
  | removeExtraneousGroupEntry group =>
    exact hs.of_sameRequests hwell hs.consistent ⟨rfl, rfl⟩ fun hbare hids =>
      ⟨⟨hbare.keyMap, hbare.idTable, hbare.events⟩, hids.erase group.id⟩
  | takeId id =>
    exact hs.of_sameRequests hwell hs.consistent ⟨rfl, rfl⟩ fun hbare hids =>
      ⟨⟨hbare.keyMap, hbare.idTable, hbare.events⟩, hids⟩
  | pushGroupMetrics groupEntries =>
    have htracks := (tracks_audited cfg hashCode isAvailable hs.wellKeyed groupEntries hs.consistent).1
    have hsame := sameRequests_audited cfg hashCode isAvailable s groupEntries
    have hbare := fun (hbare : IsBare s) hids =>
      audited_of_isBare cfg hashCode isAvailable hbare hids groupEntries
    rw [perform, pushGroupMetrics_of_master] at hwell ⊢
    split_ifs at hwell ⊢ with hstatus
    · exact hs.of_sameRequests hwell htracks hsame hbare
    · refine isSound_of_completed (s := audited cfg hashCode isAvailable s groupEntries) ?_ hwell
        (hs.completed htracks hsame hbare)
      rw [hsame.pendingKeyTable]
      exact hs.ownKeys
  | receive =>
    refine hs.of_sameRequests hwell (isConsistent_receiveEvent hs.wellKeyed hs.consistent)
      (sameRequests_receiveEvent s) fun hbare => hbare.of_eq ?_
    rw [perform, receiveEvent, hbare.events]

def keeping (cfg : Config) (hashCode : Group τ → ℤ) (isAvailable : Bool) :
    Machine (Store τ κ) (Call τ κ) :=
  (machine cfg hashCode isAvailable).guarded KeepsKeys

theorem isSound_run (cfg : Config) (hashCode : Group τ → ℤ) (isAvailable : Bool)
    {xs : List (Call τ κ)} (hv : (keeping cfg hashCode isAvailable).Valid empty xs) :
    IsSound ((machine cfg hashCode isAvailable).run empty xs) :=
  invariant_run (M := keeping cfg hashCode isAvailable) IsSound
    (fun _ _ hs hx => isSound_perform cfg hashCode isAvailable hs hx.2) hv isSound_empty

/-- Keys and ids are one to one when no event is under way, in every run on the master whose
requests get new ids and whose updates keep the keys. -/
theorem one_to_one_of_keeping (cfg : Config) (hashCode : Group τ → ℤ) (isAvailable : Bool)
    (xs : List (Call τ κ)) (hv : (keeping cfg hashCode isAvailable).Valid empty xs)
    (hevents : ((machine cfg hashCode isAvailable).run empty xs).events = []) :
    IsOneToOne ((machine cfg hashCode isAvailable).run empty xs) := by
  have hs := (isSound_run cfg hashCode isAvailable hv).consistent
  obtain ⟨hdistinct, hheld, honly⟩ := hs.mirrored (fun _ _ => content_eq) hevents
  exact ⟨hdistinct, hheld, honly⟩

end Runs

section Example

def bareGroup : GroupDescription ℕ ℕ := ⟨.all, [], 1, none, hasConsistentBuckets_all_nil⟩

def bareConfig : Config := ⟨false, 0, false⟩

/-- A request that waits for the audit, a report of the switch, and the deletion. -/
def bareCalls : List (Call ℕ ℕ) :=
  [.storeGroupDescription bareGroup, .pushGroupMetrics [], .receive,
    .updateGroupDescription 1 .set [] none, .receive, .deleteGroupDescription 1, .receive,
    .pushGroupMetrics [], .receive, .storeGroupDescription bareGroup, .receive]

instance decidableKeepingEnabled (s : Store ℕ ℕ) (x : Call ℕ ℕ) :
    Decidable ((keeping bareConfig (fun _ => 0) true).enabled s x) :=
  inferInstanceAs (Decidable (True ∧ KeepsKeys s x))

theorem one_to_one_of_keeping_bare :
    IsOneToOne ((machine bareConfig (fun _ => 0) true).run empty bareCalls) :=
  one_to_one_of_keeping bareConfig (fun _ => 0) true bareCalls (by decide)
    (by decide)

def reassigned : Store ℕ ℕ :=
  (machine bareConfig (fun _ => 0) true).run empty
    [.deviceInitialAuditCompleted true, .storeGroupDescription bareGroup, .receive,
      .updateGroupDescription 1 .set [] (some 2), .receive]

theorem group_under_two_keys : reassigned.events = [] ∧ ¬ IsOneToOne reassigned := by
  refine ⟨by decide, fun h => ?_⟩
  have hsame : (reassigned.keyMap.lookup 1).map (fun g => g.id) =
      (reassigned.keyMap.lookup 2).map (fun g => g.id) := by decide
  have hsome : (reassigned.keyMap.lookup 2).isSome := by decide
  obtain ⟨g', hg'⟩ := Option.isSome_iff_exists.mp hsome
  rw [hg', Option.map_some] at hsame
  obtain ⟨g, hg, hid⟩ := Option.map_eq_some_iff.mp hsame
  exact absurd (h.distinct 1 2 g g' hg hg' hid) (by decide)

end Example

end GroupStore.Store

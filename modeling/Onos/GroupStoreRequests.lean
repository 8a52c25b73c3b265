import Onos.GroupStoreCluster
import Onos.GroupStoreDeletion
import Onos.GroupStoreIndexes

/-! What becomes of the requests for new groups: when the switch is asked for the group, and whether
the request is answered once the master has completed an audit. -/
namespace GroupStore

open KeyedMap FedIndex InputMachine

variable {ν τ κ : Type} [DecidableEq κ]

namespace Store

section Executions

def IsAddRequest : GroupEvent τ κ → Prop
  | .of .groupAddRequested g => g.state = .pendingAdd
  | _ => False

def IsStored (s : Store τ κ) (k : κ) : Prop := (s.keyMap.lookup k).isSome

def IsWaiting (s : Store τ κ) (k : κ) : Prop := (s.pendingKeyTable.lookup k).isSome

structure HasRealIds (s : Store τ κ) : Prop where
  keyMap : ∀ k g, s.keyMap.lookup k = some g → g.id ≠ dummyGroupId
  idTable : ∀ i g, s.idTable.lookup i = some g → g.id ≠ dummyGroupId
  events : ∀ e ∈ s.events, ∀ g ∈ e.value, g.id ≠ dummyGroupId

/-- No group that is being deleted has an id under which the table of the node has the key. -/
def SparesKey (s : Store τ κ) (k : κ) : Prop :=
  IsStored s k → ∀ g ∈ values s.keyMap, g.state = .pendingDelete →
    ∀ h ∈ s.idTable.lookup g.id, h.appCookie ≠ k

variable [DecidableEq τ]

/-- The requests that wait, each with the state in which it is carried out. -/
def executions : Store τ κ → List (GroupDescription τ κ) →
    List (Store τ κ × GroupDescription τ κ)
  | _, [] => []
  | s, d :: ds => (s, d) :: executions (s.executePending d) ds

def IsCarriedOut (p : Store τ κ × GroupDescription τ κ) : Prop :=
  p.1.keyMap.lookup p.2.appCookie = none ∧ p.1.deviceAuditStatus ≠ none

def completed (cfg : Config) (hashCode : Group τ → ℤ) (m : Mastership) (s : Store τ κ)
    (groupEntries : List (Group τ)) : Option (Store τ κ) :=
  let c := collected cfg hashCode m s groupEntries
  let extraneousStored := newHashSet (sameGroup hashCode) (values s.extraneous)
  if m.isLocalMaster ∨ (c.2.1 = [] ∧ c.2.2 = [] ∧ extraneousStored = []) then
    some (reconcile cfg hashCode c.2.1 (c.1, c.2.2) extraneousStored)
  else none

theorem pushGroupMetrics_eq (cfg : Config) (hashCode : Group τ → ℤ) (m : Mastership)
    (s : Store τ κ) (groupEntries : List (Group τ)) :
    s.pushGroupMetrics cfg hashCode m groupEntries =
      match completed cfg hashCode m s groupEntries with
      | none => s
      | some s' =>
        if s.deviceAuditStatus = some true then s' else s'.deviceInitialAuditCompleted true := by
  unfold Store.pushGroupMetrics completed
  dsimp only
  split_ifs <;> rfl

theorem completed_of_master (cfg : Config) (hashCode : Group τ → ℤ) (isAvailable : Bool)
    (s : Store τ κ) (groupEntries : List (Group τ)) :
    completed cfg hashCode (localMaster isAvailable) s groupEntries =
      some (audited cfg hashCode isAvailable s groupEntries) := by
  unfold completed
  exact if_pos (Or.inl rfl)

theorem completed_of_not_master {cfg : Config} {hashCode : Group τ → ℤ} {m : Mastership}
    (hm : m.isLocalMaster = false) {s s' : Store τ κ} {groupEntries : List (Group τ)}
    (h : completed cfg hashCode m s groupEntries = some s') : s' = s := by
  have hcollected : (collected cfg hashCode m s groupEntries).1 = s := by
    rw [collected, garbageCollect, hm, Bool.and_false, if_neg Bool.false_ne_true]
  unfold completed at h
  dsimp only at h
  split_ifs at h with hcond
  obtain ⟨hsouth, hstored, hextraneous⟩ := hcond.resolve_left (by rw [hm]; exact Bool.false_ne_true)
  rw [hsouth, hstored, hextraneous, hcollected] at h
  exact (Option.some.inj h).symm

end Executions

section Keys

variable {k : κ}

def KeepsStored (k : κ) (s s' : Store τ κ) : Prop := IsStored s k → IsStored s' k

theorem keepsStored_putKey (s : Store τ κ) (g : StoredGroup τ κ) : KeepsStored k s (s.putKey g) := by
  intro hk
  unfold IsStored
  rw [putKey, lookup_insert]
  split_ifs
  · rfl
  · exact hk

theorem keepsStored_record (s : Store τ κ) (g : StoredGroup τ κ) : KeepsStored k s (s.record g) :=
  keepsStored_putKey s g

theorem keepsStored_of_sameGroups {s s' : Store τ κ} (h : SameGroups s s') : KeepsStored k s s' := by
  intro hk
  unfold IsStored
  rw [h.keyMap]
  exact hk

theorem steady_keepsStored : Steady (KeepsStored (τ := τ) k) where
  trans h h' hk := h' (h hk)
  same h _ := keepsStored_of_sameGroups h

theorem keepsStored_removeKey {s : Store τ κ} {j : κ} (h : j ≠ k) : KeepsStored k s (s.removeKey j) := by
  intro hk
  unfold IsStored
  rw [lookup_removeKey, if_neg (Ne.symm h)]
  exact hk

variable [DecidableEq τ]

theorem keepsStored_storeGroupDescriptionInternal (s : Store τ κ) (d : GroupDescription τ κ) :
    KeepsStored k s (s.storeGroupDescriptionInternal d) :=
  steady_keepsStored.storeGroupDescriptionInternal keepsStored_of_sameGroups
    (fun g _ _ _ _ => keepsStored_record s g) fun g g' _ _ _ _ => keepsStored_record (s.record g) g'

theorem keepsStored_deviceInitialAuditCompleted (s : Store τ κ) (completed : Bool) :
    KeepsStored k s (s.deviceInitialAuditCompleted completed) :=
  steady_keepsStored.deviceInitialAuditCompleted keepsStored_of_sameGroups
    keepsStored_storeGroupDescriptionInternal s completed

def KeepsIndexed (k : κ) (s₀ s s' : Store τ κ) : Prop :=
  KeepsIndex s₀ s → KeepsIndex s₀ s' ∧ KeepsStored k s s'

omit [DecidableEq τ] in
theorem steady_keepsIndexed (s₀ : Store τ κ) : Steady (KeepsIndexed (τ := τ) k s₀) where
  trans := by
    intro s s' s'' h h' hkeep
    obtain ⟨hkeep', hstored⟩ := h hkeep
    obtain ⟨hkeep'', hstored'⟩ := h' hkeep'
    exact ⟨hkeep'', steady_keepsStored.trans hstored hstored'⟩
  same := by
    intro s s' h _ hkeep
    refine ⟨hkeep.of_same ?_ h.idTable, keepsStored_of_sameGroups h⟩
    exact closed_isWellKeyed.any h hkeep.wellKeyed

theorem keepsIndexed_updateGroupEntryStats (s₀ s : Store τ κ) (group : Group τ) :
    KeepsIndexed k s₀ s (s.updateGroupEntryStats group) := by
  refine (steady_keepsIndexed s₀).updateGroupEntryStats fun h hh hstate hkeep => ?_
  have hown : s.idTable.lookup (confirmed group h).id = some h := by
    change s.idTable.lookup h.id = some h
    rw [hkeep.wellKeyed.ids _ h hh]
    exact hh
  exact ⟨hkeep.record hown rfl hstate, keepsStored_record s _⟩

omit [DecidableEq τ] in
theorem keepsIndexed_removeGroupEntry {s₀ : Store τ κ} {g : StoredGroup τ κ}
    (hg : ∀ h ∈ s₀.idTable.lookup g.id, h.appCookie ≠ k) (s : Store τ κ) :
    KeepsIndexed k s₀ s (s.removeGroupEntry g.toGroup) := by
  intro hkeep
  unfold Store.removeGroupEntry
  cases hh : s.idTable.lookup g.id with
  | none => exact ⟨hkeep, id⟩
  | some h =>
    obtain ⟨h₀, hh₀, hkey, _⟩ := hkeep.backward _ h hh
    have hne : h.appCookie ≠ k := by
      rw [← hkey]
      exact hg h₀ hh₀
    refine (steady_keepsIndexed s₀).notify (fun hkeep => ?_) _ hkeep
    exact ⟨hkeep.of_same (hkeep.wellKeyed.removeKey _) (idTable_removeKey s _),
      keepsStored_removeKey hne⟩

theorem keepsStored_collected (cfg : Config) (hashCode : Group τ → ℤ) (m : Mastership)
    (s : Store τ κ) (groupEntries : List (Group τ)) :
    KeepsStored k s (collected cfg hashCode m s groupEntries).1 :=
  steady_keepsStored.collected cfg hashCode m
    (fun s _ => steady_keepsStored.deleteGroupDescriptionInternal fun _ _ => keepsStored_putKey s _)
    s groupEntries

theorem keepsStored_audited (cfg : Config) (hashCode : Group τ → ℤ) (isAvailable : Bool)
    {s : Store τ κ} (hs : IsWellKeyed s) (h : SparesKey s k) (groupEntries : List (Group τ)) :
    KeepsStored k s (audited cfg hashCode isAvailable s groupEntries) := by
  intro hk
  have hkeep : KeepsIndex s (collected cfg hashCode (localMaster isAvailable) s groupEntries).1 :=
    keepsIndex_of_eq (isWellKeyed_collected hashCode _ hs groupEntries)
      (idTable_collected hashCode _ s groupEntries)
  have hstored : ∀ g ∈ (collected cfg hashCode (localMaster isAvailable) s groupEntries).2.2,
      g ∈ values s.keyMap := fun g hg =>
    (mem_values_iff _ _).mpr ⟨_, (lookup_of_mem_collected hs hg).1⟩
  have hreconcile := (steady_keepsIndexed (k := k) s).reconcile cfg hashCode
    (Q := fun g => g ∈ values s.keyMap)
    (fun s' group _ _ _ => keepsIndexed_updateGroupEntryStats s s' group)
    (fun s' g hg hstate => keepsIndexed_removeGroupEntry (h hk g hg hstate) s')
    (fun s' g _ _ hkeep =>
      ⟨hkeep.of_same (hkeep.wellKeyed.putKey _) rfl, keepsStored_putKey s' _⟩)
    (collected cfg hashCode (localMaster isAvailable) s groupEntries).2.1 _ _
    (newHashSet (sameGroup hashCode) (values s.extraneous))
    hstored hkeep
  exact hreconcile.2 (keepsStored_collected cfg hashCode _ s groupEntries hk)

end Keys

section Waiting

variable [DecidableEq τ] {k : κ}

variable {s : Store τ κ}

theorem isWaiting_storeGroupDescriptionInternal (h : IsWaiting s k)
    (d : GroupDescription τ κ) : IsWaiting (s.storeGroupDescriptionInternal d) k := by
  by_cases hnone : s.deviceAuditStatus = none
  · have houtcome := s.storeGroupDescriptionInternal_outcome d
    generalize s.storeGroupDescriptionInternal d = s' at houtcome ⊢
    cases houtcome with
    | known | refused => exact h
    | adopted _ _ haudit | updated _ _ haudit | created _ _ _ haudit => exact absurd hnone haudit
    | queued =>
      unfold IsWaiting
      rw [addToPendingAudit, lookup_insert]
      split_ifs
      · rfl
      · exact h
  · unfold IsWaiting
    rw [(sameRequests_storeGroupDescriptionInternal hnone d).pendingKeyTable]
    exact h

omit [DecidableEq τ] in
theorem isStored_record (s : Store τ κ) (g : StoredGroup τ κ) : IsStored (s.record g) g.appCookie :=
  Option.isSome_of_eq_some (AList.lookup_insert s.keyMap)

theorem isStored_of_chosenId {d : GroupDescription τ κ} (haudit : s.deviceAuditStatus ≠ none)
    (hid : s.keyMap.lookup d.appCookie = none → (s.chosenId d).isSome) :
    IsStored (s.storeGroupDescriptionInternal d) d.appCookie := by
  have houtcome := s.storeGroupDescriptionInternal_outcome d
  generalize s.storeGroupDescriptionInternal d = s' at houtcome ⊢
  cases houtcome with
  | known hknown => exact hknown
  | queued _ hnone => exact absurd hnone haudit
  | refused hnone _ hrefused =>
    have hsome := hid hnone
    rw [hrefused] at hsome
    cases hsome
  | adopted group =>
    rw [adopt_eq]
    exact isStored_record (s.record (newGroup group.id d)) (confirmed group (newGroup group.id d))
  | updated group => exact isStored_record s { newGroup group.id d with state := .pendingUpdate }
  | created gen id => exact isStored_record s (newGroup id d)

theorem isWaiting_of_not_audited {d : GroupDescription τ κ} (haudit : s.deviceAuditStatus = none) :
    IsStored (s.storeGroupDescriptionInternal d) d.appCookie ∨
      IsWaiting (s.storeGroupDescriptionInternal d) d.appCookie := by
  have houtcome := s.storeGroupDescriptionInternal_outcome d
  generalize s.storeGroupDescriptionInternal d = s' at houtcome ⊢
  cases houtcome with
  | known hknown => exact Or.inl hknown
  | queued => exact Or.inr (Option.isSome_of_eq_some (AList.lookup_insert s.pendingKeyTable))
  | refused _ h | adopted _ _ h | updated _ _ h | created _ _ _ h => exact absurd haudit h

theorem deviceAuditStatus_executePending (h : s.deviceAuditStatus ≠ none)
    (d : GroupDescription τ κ) : (s.executePending d).deviceAuditStatus = s.deviceAuditStatus :=
  (sameRequests_storeGroupDescriptionInternal h d).deviceAuditStatus

theorem isStored_foldl_executePending (ds : List (GroupDescription τ κ))
    (haudit : s.deviceAuditStatus ≠ none)
    (hids : ∀ p ∈ executions s ds, p.2.appCookie = k → IsCarriedOut p → (p.1.chosenId p.2).isSome)
    (h : IsStored s k ∨ ∃ d ∈ ds, d.appCookie = k) : IsStored (ds.foldl executePending s) k := by
  induction ds generalizing s with
  | nil => exact h.resolve_right fun ⟨_, hd, _⟩ => List.not_mem_nil hd
  | cons d ds ih =>
    refine ih (by rw [deviceAuditStatus_executePending haudit]; exact haudit)
      (fun p hp => hids p (List.mem_cons_of_mem _ hp)) ?_
    rcases h with h | ⟨d', hd', hkey⟩
    · exact Or.inl (keepsStored_storeGroupDescriptionInternal s d h)
    · rcases List.mem_cons.mp hd' with rfl | hd'
      · refine Or.inl ?_
        rw [← hkey]
        exact isStored_of_chosenId haudit fun hnone =>
          hids _ List.mem_cons_self hkey ⟨hnone, haudit⟩
      · exact Or.inr ⟨d', hd', hkey⟩

theorem isStored_of_isWaiting (hown : ∀ k d, s.pendingKeyTable.lookup k = some d → d.appCookie = k)
    (hids : ∀ p ∈ executions { s with deviceAuditStatus := some true } (values s.pendingKeyTable),
      p.2.appCookie = k → IsCarriedOut p → (p.1.chosenId p.2).isSome) (h : IsWaiting s k) :
    IsStored (s.deviceInitialAuditCompleted true) k := by
  obtain ⟨d, hd⟩ := Option.isSome_iff_exists.mp h
  rw [deviceInitialAuditCompleted, if_pos rfl]
  exact isStored_foldl_executePending _ (Option.some_ne_none true) hids
    (Or.inr ⟨d, (mem_values_iff _ _).mpr ⟨k, hd⟩, hown k d hd⟩)

end Waiting

section RealIds

variable {s : Store τ κ} {g : StoredGroup τ κ}

section

variable (hs : HasRealIds s)

include hs

theorem HasRealIds.putKey (hg : g.id ≠ dummyGroupId) : HasRealIds (s.putKey g) where
  keyMap := by
    intro k h hk
    rw [Store.putKey, lookup_insert] at hk
    split_ifs at hk
    · rw [← Option.some.inj hk]
      exact hg
    · exact hs.keyMap k h hk
  idTable := hs.idTable
  events := by
    intro e he h hh
    rcases List.mem_append.mp he with he | he
    · exact hs.events e he h hh
    · rw [List.mem_singleton.mp he] at hh
      rw [← Option.some.inj hh]
      exact hg

theorem HasRealIds.putId (hg : g.id ≠ dummyGroupId) : HasRealIds (s.putId g) where
  keyMap := hs.keyMap
  idTable := by
    intro i h hi
    rw [Store.putId, lookup_insert] at hi
    split_ifs at hi
    · rw [← Option.some.inj hi]
      exact hg
    · exact hs.idTable i h hi
  events := hs.events

theorem HasRealIds.record
    (hg : g.id ≠ dummyGroupId) : HasRealIds (s.record g) := (hs.putKey hg).putId hg

theorem HasRealIds.removeKey (j : κ) : HasRealIds (s.removeKey j) := by
  unfold Store.removeKey
  split_ifs
  · refine ⟨fun k g hk => ?_, hs.idTable, fun e he g hg => ?_⟩
    · rw [lookup_erase] at hk
      split_ifs at hk
      exact hs.keyMap k g hk
    · rcases List.mem_append.mp he with he | he
      · exact hs.events e he g hg
      · rw [List.mem_singleton.mp he] at hg
        cases hg
  · exact hs

end

theorem SameGroups.hasRealIds {s s' : Store τ κ} (h : SameGroups s s') (hs : HasRealIds s) :
    HasRealIds s' :=
  ⟨h.keyMap ▸ hs.keyMap, h.idTable ▸ hs.idTable, h.events ▸ hs.events⟩

theorem respected_hasRealIds : Respected fun s s' : Store τ κ => HasRealIds s → HasRealIds s' where
  trans h h' hs := h' (h hs)
  same h _ := h.hasRealIds
  removal _ j hs := hs.removeKey j

variable [DecidableEq τ]

theorem HasRealIds.receiveEvent (h : HasRealIds s) : HasRealIds s.receiveEvent := by
  unfold Store.receiveEvent
  cases hevents : s.events with
  | nil => exact h
  | cons e es =>
    have hpop : HasRealIds { s with events := es } :=
      ⟨h.keyMap, h.idTable, fun e' he' => h.events e' (by rw [hevents]; exact List.mem_cons_of_mem e he')⟩
    have he := h.events e (by rw [hevents]; exact List.mem_cons_self)
    have hR := (respected_hasRealIds (τ := τ) (κ := κ)).toSteady
    cases e with
    | put g =>
      have hput := hpop.putId (he g rfl)
      dsimp only [handleEvent]
      split_ifs
      · exact hR.notify (fun hs => hs) _ hput
      · exact hR.notify (fun hs => hs) _ hput
      · exact hput
    | remove k =>
      dsimp only [handleEvent]
      cases (values s.idTable).find? fun stored => stored.appCookie = k with
      | none => exact hpop
      | some g =>
        refine hR.notify (fun hs => ?_) _ hpop
        split_ifs
        · exact ⟨hs.keyMap, fun i g hi => hs.idTable i g ((of_lookup_erase hi).2), hs.events⟩
        · exact hs

theorem HasRealIds.storeGroupDescriptionInternal (hs : HasRealIds s) {d : GroupDescription τ κ}
    (h : IsCarriedOut (s, d) → ∀ id ∈ s.chosenId d, id ≠ dummyGroupId) :
    HasRealIds (s.storeGroupDescriptionInternal d) := by
  refine respected_hasRealIds.storeGroupDescriptionInternal SameGroups.hasRealIds
    (fun g hnone haudit _ hid hs => ?_) (fun g g' _ _ _ hid hs => ?_) hs
  · exact hs.record (h ⟨hnone, haudit⟩ g.id hid)
  · refine hs.record ?_
    rw [hid]
    exact hs.idTable g.id g (AList.lookup_insert _)

theorem HasRealIds.foldl_executePending (ds : List (GroupDescription τ κ))
    (hs : HasRealIds s) (h : ∀ p ∈ executions s ds, IsCarriedOut p →
      ∀ id ∈ p.1.chosenId p.2, id ≠ dummyGroupId) : HasRealIds (ds.foldl executePending s) := by
  induction ds generalizing s with
  | nil => exact hs
  | cons d ds ih =>
    have hstore := hs.storeGroupDescriptionInternal (h (s, d) List.mem_cons_self)
    exact ih ⟨hstore.keyMap, hstore.idTable, hstore.events⟩
      fun p hp => h p (List.mem_cons_of_mem _ hp)

theorem HasRealIds.audited (cfg : Config) (hashCode : Group τ → ℤ) (isAvailable : Bool)
    (hs : HasRealIds s) (hwell : IsWellKeyed s) (groupEntries : List (Group τ)) :
    HasRealIds (audited cfg hashCode isAvailable s groupEntries) := by
  have hR := respected_hasRealIds (τ := τ) (κ := κ)
  have hstored : ∀ g ∈ (collected cfg hashCode (localMaster isAvailable) s groupEntries).2.2,
      g.id ≠ dummyGroupId := fun g hg => hs.keyMap _ g (lookup_of_mem_collected hwell hg).1
  refine hR.reconcile cfg hashCode (Q := fun g => g.id ≠ dummyGroupId)
    (fun s group _ _ _ => hR.updateGroupEntryStats fun g hg _ hs => hs.record (hs.idTable _ g hg))
    (fun s g hg _ hs => hs.putKey hg) _ _ _ _ hstored ?_
  exact hR.collected cfg hashCode _
    (fun s k => hR.deleteGroupDescriptionInternal fun g hg hs => hs.putKey (hs.keyMap k g hg))
    s groupEntries hs

end RealIds

section Soundness

structure Sound (s : Store τ κ) : Prop where
  wellKeyed : IsWellKeyed s
  real : HasRealIds s
  ownKeys : ∀ k d, s.pendingKeyTable.lookup k = some d → d.appCookie = k

variable [DecidableEq τ]

variable {s : Store τ κ}

omit [DecidableEq τ] in
theorem ownKeys_addToPendingAudit
    (h : ∀ k d, s.pendingKeyTable.lookup k = some d → d.appCookie = k) (d : GroupDescription τ κ) :
    ∀ k d', (s.addToPendingAudit d).pendingKeyTable.lookup k = some d' → d'.appCookie = k := by
  intro k d' hk
  rw [addToPendingAudit, lookup_insert] at hk
  split_ifs at hk with hkey
  · rw [← Option.some.inj hk, hkey]
  · exact h k d' hk

theorem Sound.storeGroupDescriptionInternal (hs : Sound s) {d : GroupDescription τ κ}
    (h : IsCarriedOut (s, d) → ∀ id ∈ s.chosenId d, id ≠ dummyGroupId) :
    Sound (s.storeGroupDescriptionInternal d) where
  wellKeyed := closed_isWellKeyed.storeGroupDescriptionInternal s d hs.wellKeyed
  real := hs.real.storeGroupDescriptionInternal h
  ownKeys := by
    by_cases hnone : s.deviceAuditStatus = none
    · have houtcome := s.storeGroupDescriptionInternal_outcome d
      generalize s.storeGroupDescriptionInternal d = s' at houtcome ⊢
      cases houtcome with
      | known | refused => exact hs.ownKeys
      | adopted _ _ haudit | updated _ _ haudit | created _ _ _ haudit => exact absurd hnone haudit
      | queued => exact ownKeys_addToPendingAudit hs.ownKeys d
    · rw [(sameRequests_storeGroupDescriptionInternal hnone d).pendingKeyTable]
      exact hs.ownKeys

theorem Sound.completed (hs : Sound s)
    (h : ∀ p ∈ executions { s with deviceAuditStatus := some true } (values s.pendingKeyTable),
      IsCarriedOut p → ∀ id ∈ p.1.chosenId p.2, id ≠ dummyGroupId) :
    Sound (s.deviceInitialAuditCompleted true) where
  wellKeyed := closed_isWellKeyed.deviceInitialAuditCompleted closed_isWellKeyed.any
    closed_isWellKeyed.storeGroupDescriptionInternal s true hs.wellKeyed
  real := by
    rw [deviceInitialAuditCompleted, if_pos rfl]
    have hreal : HasRealIds { s with deviceAuditStatus := some true } :=
      ⟨hs.real.keyMap, hs.real.idTable, hs.real.events⟩
    exact hreal.foldl_executePending _ h
  ownKeys := by
    intro k d hk
    rw [(deviceInitialAuditCompleted_true hs.ownKeys).2 k] at hk
    cases hk

theorem Sound.invalidated (hs : Sound s) : Sound (s.deviceInitialAuditCompleted false) := by
  rw [deviceInitialAuditCompleted, if_neg Bool.false_ne_true]
  split_ifs
  · exact ⟨⟨hs.wellKeyed.keys, hs.wellKeyed.ids⟩,
      ⟨hs.real.keyMap, hs.real.idTable, hs.real.events⟩, hs.ownKeys⟩
  · exact hs

theorem Sound.audited (cfg : Config) (hashCode : Group τ → ℤ) (isAvailable : Bool)
    (hs : Sound s) (groupEntries : List (Group τ)) :
    Sound (audited cfg hashCode isAvailable s groupEntries) where
  wellKeyed := by
    have hC := closed_isWellKeyed (τ := τ) (κ := κ)
    refine hC.reconcile cfg hashCode (Q := fun _ => True)
      (fun s _ _ _ _ => hC.updateGroupEntryStats fun _ _ _ => hC.record s _)
      (fun s _ _ _ => hC.putKey s _) _ _ _ _ (fun _ _ => trivial) ?_
    exact isWellKeyed_collected hashCode _ hs.wellKeyed groupEntries
  real := hs.real.audited cfg hashCode isAvailable hs.wellKeyed groupEntries
  ownKeys := by
    rw [(sameRequests_audited cfg hashCode isAvailable s groupEntries).pendingKeyTable]
    exact hs.ownKeys

theorem Sound.receiveEvent (hs : Sound s) : Sound s.receiveEvent where
  wellKeyed := by
    unfold Store.receiveEvent
    cases s.events with
    | nil => exact hs.wellKeyed
    | cons e es =>
      have hpop : IsWellKeyed { s with events := es } := ⟨hs.wellKeyed.keys, hs.wellKeyed.ids⟩
      exact hpop.handleEvent e
  real := hs.real.receiveEvent
  ownKeys := by
    rw [(sameRequests_receiveEvent s).pendingKeyTable]
    exact hs.ownKeys

theorem deviceAuditStatus_storeGroupDescriptionInternal (s : Store τ κ) (d : GroupDescription τ κ) :
    (s.storeGroupDescriptionInternal d).deviceAuditStatus = s.deviceAuditStatus := by
  have houtcome := s.storeGroupDescriptionInternal_outcome d
  generalize s.storeGroupDescriptionInternal d = s' at houtcome ⊢
  cases houtcome with
  | known | queued | refused | updated | created => rfl
  | adopted group =>
    rw [adopt_eq]
    rfl

theorem audited_of_deviceInitialAuditCompleted (hs : Sound s) (completed : Bool)
    (h : s.deviceAuditStatus ≠ none) :
    (s.deviceInitialAuditCompleted completed).deviceAuditStatus ≠ none := by
  cases completed with
  | true =>
    rw [(deviceInitialAuditCompleted_true hs.ownKeys).1]
    exact Option.some_ne_none true
  | false =>
    rw [deviceInitialAuditCompleted, if_neg Bool.false_ne_true]
    split_ifs
    · exact Option.some_ne_none false
    · exact h

end Soundness

section Asking

def AsksAudited (s s' : Store τ κ) : Prop :=
  ∃ new, s'.notified = s.notified ++ new ∧
    ((∃ e ∈ new, IsAddRequest e) → s'.deviceAuditStatus = some true)

variable {s s' : Store τ κ}

section

omit [DecidableEq κ]

theorem asksAudited_of_notified (h : s'.notified = s.notified) : AsksAudited s s' :=
  ⟨[], h.trans (List.append_nil _).symm, fun ⟨_, he, _⟩ => absurd he List.not_mem_nil⟩

theorem asksAudited_of_append {e : GroupEvent τ κ}
    (h : s'.notified = s.notified ++ [e]) (he : IsAddRequest e → s'.deviceAuditStatus = some true) :
    AsksAudited s s' := by
  refine ⟨[e], h, fun ⟨e', he', hadd⟩ => he ?_⟩
  rw [← List.mem_singleton.mp he']
  exact hadd

theorem asksAudited_of_status (h : s.notified <+: s'.notified)
    (hstatus : s'.deviceAuditStatus = some true) : AsksAudited s s' := by
  obtain ⟨new, hnew⟩ := h
  exact ⟨new, hnew.symm, fun _ => hstatus⟩

end

variable [DecidableEq τ]

theorem asksAudited_storeGroupDescriptionInternal {d : GroupDescription τ κ}
    (h : IsCarriedOut (s, d) → s.deviceAuditStatus = some false →
      ∀ id ∈ s.chosenId d, s.isUsed id = true) :
    AsksAudited s (s.storeGroupDescriptionInternal d) := by
  have houtcome := s.storeGroupDescriptionInternal_outcome d
  generalize s.storeGroupDescriptionInternal d = s' at houtcome ⊢
  cases houtcome with
  | known | queued | refused => exact asksAudited_of_notified rfl
  | adopted group =>
    rw [adopt_eq]
    exact asksAudited_of_append rfl False.elim
  | updated group => exact asksAudited_of_append rfl False.elim
  | created gen id hnone haudit hid hfree =>
    refine asksAudited_of_append rfl fun _ => ?_
    change s.deviceAuditStatus = some true
    cases hstatus : s.deviceAuditStatus with
    | none => exact absurd hstatus haudit
    | some status =>
      cases status with
      | true => rfl
      | false =>
        have hused := h ⟨hnone, haudit⟩ hstatus id hid
        rw [hfree] at hused
        cases hused

theorem asksAudited_deviceInitialAuditCompleted
    (hown : ∀ k d, s.pendingKeyTable.lookup k = some d → d.appCookie = k) (completed : Bool) :
    AsksAudited s (s.deviceInitialAuditCompleted completed) := by
  cases completed with
  | true =>
    refine asksAudited_of_status ?_ (deviceInitialAuditCompleted_true hown).1
    exact (closed_appends.toSteady.deviceInitialAuditCompleted closed_appends.any
      closed_appends.storeGroupDescriptionInternal s true).2
  | false =>
    rw [deviceInitialAuditCompleted, if_neg Bool.false_ne_true]
    split_ifs <;> exact asksAudited_of_notified rfl

theorem asksAudited_receiveEvent (s : Store τ κ) : AsksAudited s s.receiveEvent := by
  unfold Store.receiveEvent
  cases s.events with
  | nil => exact asksAudited_of_notified rfl
  | cons e es =>
    cases e with
    | put g =>
      dsimp only [handleEvent]
      split_ifs
      · exact asksAudited_of_append rfl False.elim
      · exact asksAudited_of_append rfl False.elim
      · exact asksAudited_of_notified rfl
    | remove k =>
      dsimp only [handleEvent]
      cases (values s.idTable).find? fun stored => stored.appCookie = k with
      | none => exact asksAudited_of_notified rfl
      | some g =>
        dsimp only
        split_ifs <;> exact asksAudited_of_append rfl False.elim

end Asking

end Store

namespace Cluster

variable [DecidableEq ν] [DecidableEq τ] (cfg : Config) (hashCode : Group τ → ℤ)

section Statement

/-- The requests that an action carries out, each with the state in which it does. -/
def carriedOut (c : Cluster ν τ κ) : Action ν τ κ → List (Store τ κ × GroupDescription τ κ)
  | .storeGroupDescription n groupDesc =>
    if c.master = some n then [(c.store n, groupDesc)] else []
  | .process i =>
    match c.messages[i]? with
    | none => []
    | some (n, groupDesc) => if c.master = some n then [(c.store n, groupDesc)] else []
  | .deviceInitialAuditCompleted n completed =>
    if completed then
      Store.executions { c.store n with deviceAuditStatus := some true } (values c.pendingKeyTable)
    else []
  | .pushGroupMetrics n isAvailable groupEntries =>
    if (c.nodes n).deviceAuditStatus = some true then []
    else
      match Store.completed cfg hashCode (c.mastership n isAvailable) (c.store n) groupEntries with
      | none => []
      | some s => Store.executions { s with deviceAuditStatus := some true } (values s.pendingKeyTable)
  | .mastershipChanged _ | .receive _ | .takeId _ _ => []

/-- No request is carried out while the audit is not valid if the switch has to be asked for its
group, and none is given the id that stands for none. -/
def AsksInTime (c : Cluster ν τ κ) (x : Action ν τ κ) : Prop :=
  ∀ p ∈ c.carriedOut cfg hashCode x, Store.IsCarriedOut p →
    (p.1.deviceAuditStatus = some false → ∀ id ∈ p.1.chosenId p.2, p.1.isUsed id = true) ∧
      ∀ id ∈ p.1.chosenId p.2, id ≠ dummyGroupId

/-- The state, with the masters that have completed an audit since some request. -/
structure Watched (ν τ κ : Type) where
  cluster : Cluster ν τ κ
  auditors : List ν

def auditor (c : Cluster ν τ κ) : Action ν τ κ → Option ν
  | .deviceInitialAuditCompleted n completed =>
    if completed ∧ c.master = some n then some n else none
  | .pushGroupMetrics n _ _ => if c.master = some n then some n else none
  | _ => none

def watched : Machine (Watched ν τ κ) (Action ν τ κ) where
  initial := ⟨empty, []⟩
  enabled _ _ := True
  next w x := ⟨w.cluster.step cfg hashCode x, (w.cluster.auditor x).toList ++ w.auditors⟩

def IsLeft (c : Cluster ν τ κ) (k : κ) : Prop :=
  c.keyMap.lookup k = none ∧ (c.pendingKeyTable.lookup k).isSome

/-- A request for the key gets to the master, waits for nothing but an audit that carries it out, is
given an id, and its group is not removed. -/
def Attends (k : κ) (w : Watched ν τ κ) : Action ν τ κ → Prop
  | .process i => ∀ p ∈ w.cluster.messages[i]?, p.2.appCookie = k →
    w.cluster.keyMap.lookup k = none → w.cluster.master = some p.1
  | .mastershipChanged master => w.cluster.IsLeft k → ∀ m ∈ master, m ∉ w.auditors
  | .pushGroupMetrics n _ _ => w.cluster.master = some n →
    (w.cluster.IsLeft k → (w.cluster.nodes n).deviceAuditStatus ≠ some true) ∧
    (w.cluster.store n).SparesKey k
  | _ => True

def IsIdentified (k : κ) (c : Cluster ν τ κ) (x : Action ν τ κ) : Prop :=
  ∀ p ∈ c.carriedOut cfg hashCode x, p.2.appCookie = k → Store.IsCarriedOut p →
    (p.1.chosenId p.2).isSome

end Statement

section Views

variable {c : Cluster ν τ κ} {n : ν} {s : Store τ κ} {k : κ}

section

omit [DecidableEq τ] [DecidableEq κ]

theorem nodes_setStore_of_ne {m : ν} (h : m ≠ n) : ((c.setStore n s).nodes m) =
    { c.nodes m with events := (c.nodes m).events ++ s.events.drop (c.nodes n).events.length } :=
  if_neg h

theorem store_setStore (c : Cluster ν τ κ) (n : ν) (s : Store τ κ) :
    (c.setStore n s).store n = s := by
  unfold store setStore
  dsimp only
  rw [if_pos rfl]

end

omit [DecidableEq τ] in
theorem sound_setStore (hc : ∀ m, (c.store m).Sound) (hs : s.Sound) (m : ν) :
    ((c.setStore n s).store m).Sound := by
  by_cases hm : m = n
  · rw [hm, store_setStore]
    exact hs
  · have hnode := nodes_setStore_of_ne (c := c) (s := s) hm
    have hids : ((c.setStore n s).store m).idTable = (c.nodes m).idTable := by
      change ((c.setStore n s).nodes m).idTable = _
      rw [hnode]
    refine ⟨⟨hs.wellKeyed.keys, ?_⟩, ⟨hs.real.keyMap, ?_, ?_⟩, hs.ownKeys⟩
    · rw [hids]
      exact (hc m).wellKeyed.ids
    · rw [hids]
      exact (hc m).real.idTable
    · intro e he
      have hevents : ((c.setStore n s).store m).events =
          (c.nodes m).events ++ s.events.drop (c.nodes n).events.length := by
        change ((c.setStore n s).nodes m).events = _
        rw [hnode]
      rw [hevents] at he
      rcases List.mem_append.mp he with he | he
      · exact (hc m).real.events e he
      · exact hs.real.events e (List.mem_of_mem_drop he)

section

omit [DecidableEq τ] [DecidableEq κ]

theorem mastership_of_master (h : c.master = some n) (isAvailable : Bool) :
    c.mastership n isAvailable = Store.localMaster isAvailable := by
  unfold mastership
  rw [h, decide_eq_true rfl]
  rfl

theorem mastership_of_not_master (h : c.master ≠ some n) (isAvailable : Bool) :
    (c.mastership n isAvailable).isLocalMaster = false := decide_eq_false h

end

variable {isAvailable : Bool} {groupEntries : List (Group τ)} {s' : Store τ κ}

section

variable (h : Store.completed cfg hashCode (c.mastership n isAvailable) s groupEntries = some s')

include h

theorem completed_cases :
    s' = s ∨ (c.master = some n ∧ s' = Store.audited cfg hashCode isAvailable s groupEntries) := by
  by_cases hmaster : c.master = some n
  · rw [mastership_of_master hmaster, Store.completed_of_master] at h
    exact Or.inr ⟨hmaster, (Option.some.inj h).symm⟩
  · exact Or.inl (Store.completed_of_not_master (mastership_of_not_master hmaster isAvailable) h)

theorem sameRequests_completed : Store.SameRequests s s' := by
  rcases completed_cases cfg hashCode h with rfl | ⟨_, rfl⟩
  · exact ⟨rfl, rfl⟩
  · exact Store.sameRequests_audited cfg hashCode isAvailable s groupEntries

theorem sound_completed (hs : s.Sound) : s'.Sound := by
  rcases completed_cases cfg hashCode h with rfl | ⟨_, rfl⟩
  · exact hs
  · exact hs.audited cfg hashCode isAvailable groupEntries

theorem keepsStored_completed (hs : s.IsWellKeyed) (hspares : c.master = some n → s.SparesKey k) :
    Store.KeepsStored k s s' := by
  rcases completed_cases cfg hashCode h with rfl | ⟨hmaster, rfl⟩
  · exact id
  · exact Store.keepsStored_audited cfg hashCode isAvailable hs (hspares hmaster) groupEntries

end

end Views

section Steps

variable {k : κ}

variable {c : Cluster ν τ κ} {n : ν}

theorem mem_carriedOut_of_master (h : c.master = some n) (d : GroupDescription τ κ) :
    (c.store n, d) ∈ c.carriedOut cfg hashCode (.storeGroupDescription n d) := by
  rw [carriedOut, if_pos h]
  exact List.mem_cons_self

theorem mem_carriedOut_of_message (h : c.master = some n)
    {d : GroupDescription τ κ} {i : ℕ} (hi : c.messages[i]? = some (n, d)) :
    (c.store n, d) ∈ c.carriedOut cfg hashCode (.process i) := by
  rw [carriedOut, hi]
  dsimp only
  rw [if_pos h]
  exact List.mem_cons_self

variable {s : Store τ κ}

theorem carriedOut_of_completed {isAvailable : Bool} {groupEntries : List (Group τ)}
    (h : Store.completed cfg hashCode (c.mastership n isAvailable) (c.store n) groupEntries = some s)
    (hstatus : (c.store n).deviceAuditStatus ≠ some true) :
    c.carriedOut cfg hashCode (.pushGroupMetrics n isAvailable groupEntries) =
      Store.executions { s with deviceAuditStatus := some true } (values s.pendingKeyTable) := by
  refine (if_neg hstatus).trans ?_
  rw [h]

theorem sound_step (hc : ∀ m, (c.store m).Sound) {x : Action ν τ κ}
    (hx : c.AsksInTime cfg hashCode x) (m : ν) : ((c.step cfg hashCode x).store m).Sound := by
  cases x with
  | storeGroupDescription n d =>
    unfold step storeGroupDescription
    dsimp only
    split_ifs with hknown hmaster
    · exact hc m
    · exact sound_setStore hc ((hc n).storeGroupDescriptionInternal fun h =>
        (hx _ (mem_carriedOut_of_master cfg hashCode hmaster d) h).2) m
    · cases c.master with
      | none =>
        refine sound_setStore hc ?_ m
        exact ⟨⟨(hc n).wellKeyed.keys, (hc n).wellKeyed.ids⟩,
          ⟨(hc n).real.keyMap, (hc n).real.idTable, (hc n).real.events⟩,
          Store.ownKeys_addToPendingAudit (hc n).ownKeys d⟩
      | some m' => exact hc m
  | process i =>
    unfold step process
    dsimp only
    cases hi : c.messages[i]? with
    | none => exact hc m
    | some p =>
      obtain ⟨n, d⟩ := p
      dsimp only
      split_ifs with hmaster
      · exact sound_setStore (c := { c with messages := c.messages.eraseIdx i }) hc
          ((hc n).storeGroupDescriptionInternal fun h =>
            (hx _ (mem_carriedOut_of_message cfg hashCode hmaster hi) h).2) m
      · exact hc m
  | mastershipChanged master => exact hc m
  | deviceInitialAuditCompleted n completed =>
    refine sound_setStore hc ?_ m
    cases completed with
    | true => exact (hc n).completed fun p hp h => (hx p hp h).2
    | false => exact (hc n).invalidated
  | pushGroupMetrics n isAvailable groupEntries =>
    refine sound_setStore hc ?_ m
    rw [Store.pushGroupMetrics_eq]
    cases hcompleted : Store.completed cfg hashCode (c.mastership n isAvailable) (c.store n)
        groupEntries with
    | none => exact hc n
    | some s' =>
      have hs' := sound_completed cfg hashCode hcompleted (hc n)
      dsimp only
      split_ifs with hstatus
      · exact hs'
      · refine hs'.completed fun p hp h => (hx p ?_ h).2
        rw [carriedOut_of_completed cfg hashCode hcompleted hstatus]
        exact hp
  | receive n => exact sound_setStore hc (hc n).receiveEvent m
  | takeId n id =>
    refine sound_setStore hc ?_ m
    exact ⟨⟨(hc n).wellKeyed.keys, (hc n).wellKeyed.ids⟩,
      ⟨(hc n).real.keyMap, (hc n).real.idTable, (hc n).real.events⟩, (hc n).ownKeys⟩

/-- In this step the switch is asked for new groups only on nodes whose audit is valid. -/
def AsksAudited (c c' : Cluster ν τ κ) : Prop := ∀ m, Store.AsksAudited (c.store m) (c'.store m)

omit [DecidableEq τ] [DecidableEq κ] in
theorem asksAudited_setStore
    (h : Store.AsksAudited (c.store n) s) : c.AsksAudited (c.setStore n s) := by
  intro m
  by_cases hm : m = n
  · rw [hm, store_setStore]
    exact h
  · refine Store.asksAudited_of_notified ?_
    change ((c.setStore n s).nodes m).notified = _
    rw [nodes_setStore_of_ne hm]
    rfl

omit [DecidableEq ν] [DecidableEq τ] [DecidableEq κ] in
theorem asksAudited_of_nodes {c c' : Cluster ν τ κ} (h : c'.nodes = c.nodes) :
    c.AsksAudited c' := fun m => Store.asksAudited_of_notified (by unfold store; rw [h])

theorem asksAudited_pushGroupMetrics (c : Cluster ν τ κ) (hc : ∀ m, (c.store m).Sound) (n : ν)
    (isAvailable : Bool) (groupEntries : List (Group τ)) :
    Store.AsksAudited (c.store n) ((c.store n).pushGroupMetrics cfg hashCode
      (c.mastership n isAvailable) groupEntries) := by
  have happend := (Store.closed_appends (τ := τ) (κ := κ)).pushGroupMetrics cfg hashCode
    (c.mastership n isAvailable) (c.store n) groupEntries
  rw [Store.pushGroupMetrics_eq] at happend ⊢
  cases hcompleted : Store.completed cfg hashCode (c.mastership n isAvailable) (c.store n)
      groupEntries with
  | none => exact Store.asksAudited_of_notified rfl
  | some s' =>
    rw [hcompleted] at happend
    dsimp only at happend ⊢
    split_ifs at happend ⊢ with hstatus
    · refine Store.asksAudited_of_status happend.2 ?_
      exact (sameRequests_completed cfg hashCode hcompleted).deviceAuditStatus.trans hstatus
    · refine Store.asksAudited_of_status happend.2 (Store.deviceInitialAuditCompleted_true ?_).1
      exact (sound_completed cfg hashCode hcompleted (hc n)).ownKeys

theorem asksAudited_step (hc : ∀ m, (c.store m).Sound) {x : Action ν τ κ}
    (hx : c.AsksInTime cfg hashCode x) : c.AsksAudited (c.step cfg hashCode x) := by
  cases x with
  | storeGroupDescription n d =>
    unfold step storeGroupDescription
    dsimp only
    split_ifs with hknown hmaster
    · exact asksAudited_of_nodes rfl
    · exact asksAudited_setStore (Store.asksAudited_storeGroupDescriptionInternal fun h =>
        (hx _ (mem_carriedOut_of_master cfg hashCode hmaster d) h).1)
    · cases c.master with
      | none => exact asksAudited_setStore (Store.asksAudited_of_notified rfl)
      | some m => exact asksAudited_of_nodes rfl
  | process i =>
    unfold step process
    dsimp only
    cases hi : c.messages[i]? with
    | none => exact asksAudited_of_nodes rfl
    | some p =>
      obtain ⟨n, d⟩ := p
      dsimp only
      split_ifs with hmaster
      · exact asksAudited_setStore (c := { c with messages := c.messages.eraseIdx i })
          (Store.asksAudited_storeGroupDescriptionInternal fun h =>
            (hx _ (mem_carriedOut_of_message cfg hashCode hmaster hi) h).1)
      · exact asksAudited_of_nodes rfl
  | mastershipChanged master => exact asksAudited_of_nodes rfl
  | deviceInitialAuditCompleted n completed =>
    exact asksAudited_setStore
      (Store.asksAudited_deviceInitialAuditCompleted (hc n).ownKeys completed)
  | pushGroupMetrics n isAvailable groupEntries =>
    exact asksAudited_setStore (asksAudited_pushGroupMetrics cfg hashCode c hc n isAvailable groupEntries)
  | receive n => exact asksAudited_setStore (Store.asksAudited_receiveEvent (c.store n))
  | takeId n id => exact asksAudited_setStore (Store.asksAudited_of_notified rfl)

def StaysAudited (c c' : Cluster ν τ κ) : Prop :=
  ∀ m, (c.nodes m).deviceAuditStatus ≠ none → (c'.nodes m).deviceAuditStatus ≠ none

omit [DecidableEq τ] [DecidableEq κ] in
theorem staysAudited_setStore
    (h : (c.nodes n).deviceAuditStatus ≠ none → s.deviceAuditStatus ≠ none) :
    c.StaysAudited (c.setStore n s) := by
  intro m hm
  by_cases hmn : m = n
  · subst hmn
    have hself : ((c.setStore m s).nodes m).deviceAuditStatus = s.deviceAuditStatus :=
      congrArg Store.deviceAuditStatus (store_setStore c m s)
    rw [hself]
    exact h hm
  · rw [nodes_setStore_of_ne hmn]
    exact hm

theorem audited_pushGroupMetrics (hc : ∀ m, (c.store m).Sound)
    (isAvailable : Bool) (groupEntries : List (Group τ))
    (h : c.master = some n ∨ (c.nodes n).deviceAuditStatus ≠ none) :
    ((c.store n).pushGroupMetrics cfg hashCode
      (c.mastership n isAvailable) groupEntries).deviceAuditStatus ≠ none := by
  rw [Store.pushGroupMetrics_eq]
  cases hcompleted : Store.completed cfg hashCode (c.mastership n isAvailable) (c.store n)
      groupEntries with
  | none =>
    refine h.resolve_left fun hmaster => ?_
    rw [mastership_of_master hmaster, Store.completed_of_master] at hcompleted
    cases hcompleted
  | some s' =>
    dsimp only
    split_ifs with hstatus
    · rw [(sameRequests_completed cfg hashCode hcompleted).deviceAuditStatus, hstatus]
      exact Option.some_ne_none true
    · have hs' := sound_completed cfg hashCode hcompleted (hc n)
      rw [(Store.deviceInitialAuditCompleted_true hs'.ownKeys).1]
      exact Option.some_ne_none true

theorem staysAudited_step (hc : ∀ m, (c.store m).Sound) (x : Action ν τ κ) :
    c.StaysAudited (c.step cfg hashCode x) := by
  cases x with
  | storeGroupDescription n d =>
    unfold step storeGroupDescription
    dsimp only
    split_ifs
    · exact fun _ h => h
    · refine staysAudited_setStore fun h => ?_
      rw [Store.deviceAuditStatus_storeGroupDescriptionInternal]
      exact h
    · cases c.master with
      | none => exact staysAudited_setStore id
      | some m => exact fun _ h => h
  | process i =>
    unfold step process
    dsimp only
    cases c.messages[i]? with
    | none => exact fun _ h => h
    | some p =>
      dsimp only
      split_ifs
      · refine staysAudited_setStore (c := { c with messages := c.messages.eraseIdx i }) fun h => ?_
        rw [Store.deviceAuditStatus_storeGroupDescriptionInternal]
        exact h
      · exact fun _ h => h
  | mastershipChanged master => exact fun _ h => h
  | deviceInitialAuditCompleted n completed =>
    exact staysAudited_setStore (Store.audited_of_deviceInitialAuditCompleted (hc n) completed)
  | pushGroupMetrics n isAvailable groupEntries =>
    exact staysAudited_setStore fun h =>
      audited_pushGroupMetrics cfg hashCode hc isAvailable groupEntries (Or.inr h)
  | receive n =>
    refine staysAudited_setStore fun h => ?_
    rw [(Store.sameRequests_receiveEvent (c.store n)).deviceAuditStatus]
    exact h
  | takeId n id => exact staysAudited_setStore fun h => h

end Steps

section Watching

variable {k : κ}

/-- The key has a group, or a message with a request for it is under way, or a request for it waits
and the master has completed no audit since. -/
def IsKept (k : κ) (w : Watched ν τ κ) : Prop :=
  (w.cluster.keyMap.lookup k).isSome ∨ (∃ p ∈ w.cluster.messages, p.2.appCookie = k) ∨
    ((w.cluster.pendingKeyTable.lookup k).isSome ∧ ∀ m ∈ w.cluster.master, m ∉ w.auditors)

structure IsAttended (k : κ) (w : Watched ν τ κ) : Prop where
  sound : ∀ m, (w.cluster.store m).Sound
  audited : ∀ m ∈ w.auditors, (w.cluster.nodes m).deviceAuditStatus ≠ none
  kept : IsKept k w

variable {c : Cluster ν τ κ} {n : ν}

omit [DecidableEq τ] in
theorem IsKept.setStore {auditors auditors' : List ν} {s : Store τ κ}
    (h : IsKept k ⟨c, auditors⟩) (hstored : Store.KeepsStored k (c.store n) s)
    (hwaiting : c.IsLeft k → s.IsStored k ∨
      s.IsWaiting k ∧ ∀ m ∈ c.master, m ∉ auditors → m ∉ auditors') :
    IsKept k ⟨c.setStore n s, auditors'⟩ := by
  rcases h with h | h | ⟨h, hmaster⟩
  · exact Or.inl (hstored h)
  · exact Or.inr (Or.inl h)
  · cases hk : c.keyMap.lookup k with
    | some g => exact Or.inl (hstored (Option.isSome_of_eq_some hk))
    | none =>
      rcases hwaiting ⟨hk, h⟩ with h | ⟨h, hauditors⟩
      · exact Or.inl h
      · exact Or.inr (Or.inr ⟨h, fun m hm => hauditors m hm (hmaster m hm)⟩)

variable {auditors : List ν}

theorem isKept_of_master {d : GroupDescription τ κ}
    (haudited : ∀ m ∈ auditors, (c.nodes m).deviceAuditStatus ≠ none) (hmaster : c.master = some n)
    (hid : Store.IsCarriedOut (c.store n, d) → ((c.store n).chosenId d).isSome) :
    IsKept d.appCookie
      ⟨c.setStore n ((c.store n).storeGroupDescriptionInternal d), auditors⟩ := by
  by_cases hnone : (c.store n).deviceAuditStatus = none
  · rcases Store.isWaiting_of_not_audited (d := d) hnone with h | h
    · exact Or.inl h
    · refine Or.inr (Or.inr ⟨h, fun m hm hmem => haudited m hmem ?_⟩)
      obtain rfl := Option.some.inj (hmaster.symm.trans hm)
      exact hnone
  · exact Or.inl (Store.isStored_of_chosenId hnone fun hnew => hid ⟨hnew, hnone⟩)

omit [DecidableEq ν] [DecidableEq τ] in
theorem IsLeft.isWaiting (h : c.IsLeft k) (n : ν) : (c.store n).IsWaiting k := h.2

theorem isKept_storeGroupDescription (n : ν)
    (d : GroupDescription τ κ) (h : IsKept k ⟨c, auditors⟩) :
    IsKept k ⟨c.storeGroupDescription n d, auditors⟩ := by
  unfold storeGroupDescription
  split_ifs
  · exact h
  · exact h.setStore (Store.keepsStored_storeGroupDescriptionInternal _ d) fun hleft =>
      Or.inr ⟨Store.isWaiting_storeGroupDescriptionInternal (hleft.isWaiting n) d, fun _ _ hm => hm⟩
  · split
    · refine h.setStore (fun hk => hk) fun hleft => Or.inr ⟨?_, fun _ _ hm => hm⟩
      unfold Store.IsWaiting
      rw [Store.addToPendingAudit, lookup_insert]
      split_ifs
      · rfl
      · exact hleft.2
    · refine h.imp id (Or.imp ?_ id)
      rintro ⟨p, hp, hkey⟩
      exact ⟨p, List.mem_append_left _ hp, hkey⟩

theorem isKept_process {i : ℕ} (haudited : ∀ m ∈ auditors, (c.nodes m).deviceAuditStatus ≠ none)
    (hattends : Attends k ⟨c, auditors⟩ (.process i))
    (hid : IsIdentified cfg hashCode k c (.process i)) (h : IsKept k ⟨c, auditors⟩) :
    IsKept k ⟨c.process i, auditors⟩ := by
  unfold process
  cases hi : c.messages[i]? with
  | none => exact h
  | some p =>
    obtain ⟨n, d⟩ := p
    dsimp only
    -- the message was the only one with the key, or another one is left
    have hrest : IsKept k ⟨{ c with messages := c.messages.eraseIdx i }, auditors⟩ ∨
        (d.appCookie = k ∧ c.keyMap.lookup k = none) := by
      rcases h with h | ⟨p, hp, hkey⟩ | h
      · exact Or.inl (Or.inl h)
      · obtain ⟨j, hj⟩ := List.mem_iff_getElem?.mp hp
        by_cases hij : j = i
        · rw [hij, hi] at hj
          obtain rfl := Option.some.inj hj
          cases hk : c.keyMap.lookup k with
          | some g => exact Or.inl (Or.inl (Option.isSome_of_eq_some hk))
          | none => exact Or.inr ⟨hkey, rfl⟩
        · exact Or.inl (Or.inr (Or.inl
            ⟨p, List.mem_eraseIdx_iff_getElem?.mpr ⟨j, hij, hj⟩, hkey⟩))
      · exact Or.inl (Or.inr (Or.inr h))
    rcases hrest with hrest | ⟨rfl, hnone⟩
    · split_ifs
      · exact hrest.setStore (Store.keepsStored_storeGroupDescriptionInternal _ d) fun hleft =>
          Or.inr ⟨Store.isWaiting_storeGroupDescriptionInternal (hleft.isWaiting n) d,
            fun _ _ hm => hm⟩
      · exact hrest
    · have hmaster : c.master = some n := hattends (n, d) hi rfl hnone
      rw [if_pos hmaster]
      exact isKept_of_master (c := { c with messages := c.messages.eraseIdx i }) haudited hmaster
        (hid _ (mem_carriedOut_of_message cfg hashCode hmaster hi) rfl)

variable {w : Watched ν τ κ}

theorem isKept_deviceInitialAuditCompleted
    (hsound : ∀ m, (w.cluster.store m).Sound) {completed : Bool}
    (hid : IsIdentified cfg hashCode k w.cluster (.deviceInitialAuditCompleted n completed))
    (h : IsKept k w) :
    IsKept k ((watched cfg hashCode).next w (.deviceInitialAuditCompleted n completed)) := by
  refine IsKept.setStore h (Store.keepsStored_deviceInitialAuditCompleted _ completed)
    fun hleft => ?_
  cases completed with
  | true => exact Or.inl (Store.isStored_of_isWaiting (hsound n).ownKeys hid hleft.2)
  | false =>
    refine Or.inr ⟨?_, fun m _ hm => hm⟩
    rw [Store.deviceInitialAuditCompleted, if_neg Bool.false_ne_true]
    split_ifs <;> exact hleft.2

theorem isKept_pushGroupMetrics (hsound : ∀ m, (w.cluster.store m).Sound)
    {isAvailable : Bool} {groupEntries : List (Group τ)}
    (hattends : Attends k w (.pushGroupMetrics n isAvailable groupEntries))
    (hid : IsIdentified cfg hashCode k w.cluster (.pushGroupMetrics n isAvailable groupEntries))
    (h : IsKept k w) :
    IsKept k ((watched cfg hashCode).next w (.pushGroupMetrics n isAvailable groupEntries)) := by
  have hauditors : w.cluster.master ≠ some n →
      w.cluster.auditor (.pushGroupMetrics n isAvailable groupEntries) = none :=
    fun hne => if_neg hne
  refine IsKept.setStore h ?_ fun hleft => ?_
  · intro hk
    rw [Store.pushGroupMetrics_eq]
    cases hcompleted : Store.completed cfg hashCode (w.cluster.mastership n isAvailable)
        (w.cluster.store n) groupEntries with
    | none => exact hk
    | some s =>
      have hk' := keepsStored_completed cfg hashCode hcompleted (hsound n).wellKeyed
        (fun hmaster => (hattends hmaster).2) hk
      dsimp only
      split_ifs
      · exact hk'
      · exact Store.keepsStored_deviceInitialAuditCompleted s true hk'
  · rw [Store.pushGroupMetrics_eq]
    cases hcompleted : Store.completed cfg hashCode (w.cluster.mastership n isAvailable)
        (w.cluster.store n) groupEntries with
    | none =>
      refine Or.inr ⟨hleft.2, fun m _ hm => ?_⟩
      rw [hauditors fun hmaster => ?_]
      · exact hm
      · rw [mastership_of_master hmaster, Store.completed_of_master] at hcompleted
        cases hcompleted
    | some s =>
      have hrequests := sameRequests_completed cfg hashCode hcompleted
      have hwaiting : s.IsWaiting k := by
        unfold Store.IsWaiting
        rw [hrequests.pendingKeyTable]
        exact hleft.2
      dsimp only
      split_ifs with hstatus
      · refine Or.inr ⟨hwaiting, fun m _ hm => ?_⟩
        rw [hauditors fun hmaster => (hattends hmaster).1 hleft hstatus]
        exact hm
      · refine Or.inl (Store.isStored_of_isWaiting
          (sound_completed cfg hashCode hcompleted (hsound n)).ownKeys (fun p hp => hid p ?_) hwaiting)
        rw [carriedOut_of_completed cfg hashCode hcompleted hstatus]
        exact hp

theorem isKept_step (hw : IsAttended k w) {x : Action ν τ κ}
    (hattends : Attends k w x) (hid : IsIdentified cfg hashCode k w.cluster x) :
    IsKept k ((watched cfg hashCode).next w x) := by
  cases x with
  | storeGroupDescription n d => exact isKept_storeGroupDescription n d hw.kept
  | process i => exact isKept_process cfg hashCode hw.audited hattends hid hw.kept
  | mastershipChanged master =>
    rcases hw.kept with h | h | ⟨h, hmaster⟩
    · exact Or.inl h
    · exact Or.inr (Or.inl h)
    · cases hk : w.cluster.keyMap.lookup k with
      | some g => exact Or.inl (Option.isSome_of_eq_some hk)
      | none => exact Or.inr (Or.inr ⟨h, hattends ⟨hk, h⟩⟩)
  | deviceInitialAuditCompleted n completed =>
    exact isKept_deviceInitialAuditCompleted cfg hashCode hw.sound hid hw.kept
  | pushGroupMetrics n isAvailable groupEntries =>
    exact isKept_pushGroupMetrics cfg hashCode hw.sound hattends hid hw.kept
  | receive n =>
    refine IsKept.setStore hw.kept (fun hk => ?_) fun hleft => Or.inr ⟨?_, fun _ _ hm => hm⟩
    · unfold Store.IsStored
      rw [Store.keyMap_receiveEvent (hw.sound n).wellKeyed]
      exact hk
    · unfold Store.IsWaiting
      rw [(Store.sameRequests_receiveEvent _).pendingKeyTable]
      exact hleft.2
  | takeId n id =>
    exact IsKept.setStore hw.kept (fun hk => hk) fun hleft => Or.inr ⟨hleft.2, fun _ _ hm => hm⟩

theorem audited_of_auditor (hc : ∀ m, (c.store m).Sound) {x : Action ν τ κ} {m : ν}
    (h : c.auditor x = some m) : ((c.step cfg hashCode x).nodes m).deviceAuditStatus ≠ none := by
  have hself : ∀ s : Store τ κ, ((c.setStore m s).nodes m).deviceAuditStatus = s.deviceAuditStatus :=
    fun s => congrArg Store.deviceAuditStatus (store_setStore c m s)
  cases x with
  | deviceInitialAuditCompleted n completed =>
    unfold auditor at h
    dsimp only at h
    split_ifs at h with hcompleted
    obtain rfl := Option.some.inj h
    unfold step
    dsimp only
    rw [hself, hcompleted.1, (Store.deviceInitialAuditCompleted_true (hc n).ownKeys).1]
    exact Option.some_ne_none true
  | pushGroupMetrics n isAvailable groupEntries =>
    unfold auditor at h
    dsimp only at h
    split_ifs at h with hmaster
    obtain rfl := Option.some.inj h
    unfold step
    dsimp only
    rw [hself]
    exact audited_pushGroupMetrics cfg hashCode hc isAvailable groupEntries (Or.inl hmaster)
  | storeGroupDescription | process | mastershipChanged | receive | takeId => cases h

theorem audited_step (hsound : ∀ m, (w.cluster.store m).Sound)
    (haudited : ∀ m ∈ w.auditors, (w.cluster.nodes m).deviceAuditStatus ≠ none) (x : Action ν τ κ) :
    ∀ m ∈ ((watched cfg hashCode).next w x).auditors,
      (((watched cfg hashCode).next w x).cluster.nodes m).deviceAuditStatus ≠ none := by
  intro m hm
  rcases List.mem_append.mp hm with hm | hm
  · exact audited_of_auditor cfg hashCode hsound (Option.mem_toList.mp hm)
  · exact staysAudited_step cfg hashCode hsound x m (haudited m hm)

theorem isKept_of_request (n : ν) (d : GroupDescription τ κ)
    (hid : IsIdentified cfg hashCode d.appCookie c (.storeGroupDescription n d)) :
    IsKept d.appCookie ⟨c.storeGroupDescription n d, []⟩ := by
  unfold storeGroupDescription
  split_ifs with hknown hmaster
  · exact Or.inl hknown
  · exact isKept_of_master (fun _ hm => absurd hm List.not_mem_nil) hmaster
      (hid _ (mem_carriedOut_of_master cfg hashCode hmaster d) rfl)
  · split
    · refine Or.inr (Or.inr ⟨?_, fun _ _ => List.not_mem_nil⟩)
      exact Option.isSome_of_eq_some (AList.lookup_insert c.pendingKeyTable)
    · exact Or.inr (Or.inl ⟨_, List.mem_append_right _ List.mem_cons_self, rfl⟩)

end Watching

section Runs

def asking : Machine (Cluster ν τ κ) (Action ν τ κ) :=
  (machine cfg hashCode).guarded (AsksInTime cfg hashCode)

def attending (k : κ) : Machine (Watched ν τ κ) (Action ν τ κ) :=
  (watched cfg hashCode).guarded fun w x => Attends k w x ∧ IsIdentified cfg hashCode k w.cluster x

/-- In every step of the run the switch is asked for new groups only where the audit is valid. -/
def AsksAuditedThroughout (c : Cluster ν τ κ) (xs : List (Action ν τ κ)) : Prop :=
  ∀ ys x zs, xs = ys ++ x :: zs →
    ((machine cfg hashCode).run c ys).AsksAudited ((machine cfg hashCode).run c (ys ++ [x]))

def IsAnswered (k : κ) (w : Watched ν τ κ) : Prop :=
  w.cluster.messages = [] → (∃ m ∈ w.cluster.master, m ∈ w.auditors) →
    ∃ g ∈ w.cluster.keyMap.lookup k, g.id ≠ dummyGroupId

omit [DecidableEq ν] [DecidableEq τ] in
theorem sound_empty (m : ν) : ((empty : Cluster ν τ κ).store m).Sound := by
  refine ⟨⟨?_, ?_⟩, ⟨?_, ?_, ?_⟩, ?_⟩
  · intro k g h
    cases h
  · intro i g h
    cases h
  · intro k g h
    cases h
  · intro i g h
    cases h
  · intro e he
    exact absurd he List.not_mem_nil
  · intro k d h
    cases h

theorem sound_run {xs : List (Action ν τ κ)} {c : Cluster ν τ κ} (hc : ∀ m, (c.store m).Sound)
    (hv : (asking cfg hashCode).Valid c xs) (m : ν) :
    (((machine cfg hashCode).run c xs).store m).Sound :=
  invariant_run (M := asking cfg hashCode) (fun c => ∀ m, (c.store m).Sound)
    (fun _ _ hc hx => sound_step cfg hashCode hc hx.2) hv hc m

theorem asksAuditedThroughout_run {xs : List (Action ν τ κ)} {c : Cluster ν τ κ}
    (hc : ∀ m, (c.store m).Sound) (hv : (asking cfg hashCode).Valid c xs) :
    AsksAuditedThroughout cfg hashCode c xs := by
  rintro ys x zs rfl
  obtain ⟨hys, hrest⟩ := (valid_append _ c ys _).mp hv
  rw [run_append]
  exact asksAudited_step cfg hashCode (sound_run cfg hashCode hc hys) hrest.1.2

theorem isAttended_run {k : κ} {w : Watched ν τ κ} (hw : IsAttended k w) {xs : List (Action ν τ κ)}
    (hasking : (asking cfg hashCode).Valid w.cluster xs)
    (hv : (attending cfg hashCode k).Valid w xs) :
    IsAttended k ((watched cfg hashCode).run w xs) := by
  induction xs generalizing w with
  | nil => exact hw
  | cons x xs ih =>
    have hnext : IsAttended k ((watched cfg hashCode).next w x) :=
      ⟨sound_step cfg hashCode hw.sound hasking.1.2, audited_step cfg hashCode hw.sound hw.audited x,
        isKept_step cfg hashCode hw hv.1.2.1 hv.1.2.2⟩
    exact ih hnext hasking.2 hv.2

omit [DecidableEq ν] [DecidableEq τ] in
theorem IsAttended.isAnswered {k : κ} {w : Watched ν τ κ} (hw : IsAttended k w) :
    IsAnswered k w := by
  rintro hmessages ⟨m, hmaster, hm⟩
  rcases hw.kept with h | ⟨p, hp, _⟩ | ⟨_, h⟩
  · obtain ⟨g, hg⟩ := Option.isSome_iff_exists.mp h
    exact ⟨g, hg, (hw.sound m).real.keyMap k g hg⟩
  · rw [hmessages] at hp
    exact absurd hp List.not_mem_nil
  · exact absurd hm (h m hmaster)

/-- The switch is asked for groups in time, and a request is answered, in every run whose requests are carried out in time and in which this one is attended to. -/
theorem requests_answered (xs : List (Action ν τ κ)) (n : ν) (d : GroupDescription τ κ)
    (ys : List (Action ν τ κ))
    (hasking : (asking cfg hashCode).Valid empty (xs ++ .storeGroupDescription n d :: ys))
    (hattending : (attending cfg hashCode d.appCookie).Valid
      ⟨(machine cfg hashCode).run empty xs, []⟩ (.storeGroupDescription n d :: ys)) :
    AsksAuditedThroughout cfg hashCode (empty : Cluster ν τ κ)
        (xs ++ .storeGroupDescription n d :: ys) ∧
      IsAnswered d.appCookie ((watched cfg hashCode).run
        ⟨(machine cfg hashCode).run empty xs, []⟩ (.storeGroupDescription n d :: ys)) := by
  refine ⟨asksAuditedThroughout_run cfg hashCode sound_empty hasking, ?_⟩
  obtain ⟨hxs, ⟨_, hask⟩, hys⟩ := (valid_append _ empty xs _).mp hasking
  obtain ⟨⟨_, _, hid⟩, hrest⟩ := hattending
  have hsound := sound_run cfg hashCode sound_empty hxs
  have hfirst : IsAttended d.appCookie ((watched cfg hashCode).next
      ⟨(machine cfg hashCode).run empty xs, []⟩ (.storeGroupDescription n d)) :=
    ⟨sound_step cfg hashCode hsound hask, fun m hm => absurd hm List.not_mem_nil,
      isKept_of_request cfg hashCode n d hid⟩
  exact (isAttended_run cfg hashCode hfirst hys hrest).isAnswered

end Runs

section Example

instance decidableAsksInTime (c : Cluster ν τ κ) (x : Action ν τ κ) :
    Decidable (c.AsksInTime cfg hashCode x) :=
  -- not by going through all ids
  have : ∀ p : Store τ κ × GroupDescription τ κ, Decidable (Store.IsCarriedOut p →
      (p.1.deviceAuditStatus = some false → ∀ id ∈ p.1.chosenId p.2, p.1.isUsed id = true) ∧
        ∀ id ∈ p.1.chosenId p.2, id ≠ dummyGroupId) := fun p =>
    have : Decidable (∀ id ∈ p.1.chosenId p.2, p.1.isUsed id = true) := Option.decidableForallMem _
    have : Decidable (∀ id ∈ p.1.chosenId p.2, id ≠ dummyGroupId) := Option.decidableForallMem _
    inferInstanceAs (Decidable (_ ∧ _ → _))
  inferInstanceAs (Decidable (∀ p ∈ c.carriedOut cfg hashCode x, _))

instance decidableAskingEnabled (c : Cluster ν τ κ) (x : Action ν τ κ) :
    Decidable ((asking cfg hashCode).enabled c x) :=
  inferInstanceAs (Decidable (True ∧ AsksInTime cfg hashCode c x))

instance decidableIsLeft (c : Cluster ν τ κ) (k : κ) : Decidable (c.IsLeft k) :=
  inferInstanceAs (Decidable (_ ∧ _))

instance decidableSparesKey (s : Store τ κ) (k : κ) : Decidable (s.SparesKey k) :=
  inferInstanceAs (Decidable ((s.keyMap.lookup k).isSome → _))

instance decidableAttends (k : κ) (w : Watched ν τ κ) :
    (x : Action ν τ κ) → Decidable (Attends k w x)
  | .process i => inferInstanceAs (Decidable (∀ p ∈ w.cluster.messages[i]?, _))
  | .mastershipChanged master =>
    inferInstanceAs (Decidable (w.cluster.IsLeft k → ∀ m ∈ master, m ∉ w.auditors))
  | .pushGroupMetrics n _ _ => inferInstanceAs (Decidable (w.cluster.master = some n → _ ∧ _))
  | .storeGroupDescription _ _ | .deviceInitialAuditCompleted _ _ | .receive _ | .takeId _ _ =>
    isTrue trivial

instance decidableIsIdentified (k : κ) (c : Cluster ν τ κ) (x : Action ν τ κ) :
    Decidable (IsIdentified cfg hashCode k c x) :=
  inferInstanceAs (Decidable (∀ p ∈ c.carriedOut cfg hashCode x,
    p.2.appCookie = k → _ ∧ _ → (p.1.chosenId p.2).isSome = true))

instance decidableAttendingEnabled (k : κ) (w : Watched ν τ κ) (x : Action ν τ κ) :
    Decidable ((attending cfg hashCode k).enabled w x) :=
  inferInstanceAs (Decidable (True ∧ Attends k w x ∧ IsIdentified cfg hashCode k w.cluster x))

def emptyGroup : GroupDescription ℕ ℕ := ⟨.all, [], 1, none, hasConsistentBuckets_all_nil⟩

def emptyConfig : Config := ⟨false, 0, false⟩

/-- The request goes from one node to the other, waits there, and is carried out after an audit. -/
theorem requests_answered_remote :
    AsksAuditedThroughout emptyConfig (fun _ => 0) (empty : Cluster Bool ℕ ℕ)
        [.mastershipChanged (some true), .storeGroupDescription false emptyGroup, .process 0,
          .pushGroupMetrics true true []] ∧
      IsAnswered 1 ((watched emptyConfig fun _ => 0).run
        ⟨(machine emptyConfig fun _ => 0).run empty [.mastershipChanged (some true)], []⟩
        [.storeGroupDescription false emptyGroup, .process 0, .pushGroupMetrics true true []]) :=
  requests_answered emptyConfig (fun _ => 0) [.mastershipChanged (some true)] false emptyGroup
    [.process 0, .pushGroupMetrics true true []] (by decide) (by decide)

/-- The first node is not the master any more when it gets the request. -/
theorem request_dropped : ¬ IsAnswered 1 ((watched emptyConfig fun _ => 0).run
      ⟨(machine emptyConfig fun _ => 0).run (empty : Cluster Bool ℕ ℕ)
        [.mastershipChanged (some true)], []⟩
      [.storeGroupDescription false emptyGroup, .mastershipChanged (some false), .process 0,
        .pushGroupMetrics false true []]) := by
  intro h
  obtain ⟨g, hg, _⟩ := h (by decide) ⟨false, by decide, by decide⟩
  have hsome := Option.isSome_of_mem hg
  revert hsome
  decide

end Example

end Cluster

end GroupStore

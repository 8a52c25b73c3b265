import Onos.GroupStore

/-! What the calls of the group store are made of. A relation between states that is reflexive and
transitive, and that holds for removals and for what leaves the groups alone, holds for a call as
soon as it does for the groups that the call stores. -/
namespace GroupStore.Store

open KeyedMap FedIndex InputMachine

variable {τ κ : Type} [DecidableEq κ]

section Tables

@[simp] theorem keyMap_record (s : Store τ κ) (g : StoredGroup τ κ) :
    (s.record g).keyMap = s.keyMap.insert g.appCookie g := rfl

@[simp] theorem idTable_record (s : Store τ κ) (g : StoredGroup τ κ) :
    (s.record g).idTable = s.idTable.insert g.id g := rfl

@[simp] theorem idTable_removeKey (s : Store τ κ) (k : κ) : (s.removeKey k).idTable = s.idTable := by
  unfold removeKey
  split_ifs <;> rfl

theorem lookup_removeKey (s : Store τ κ) (k j : κ) :
    (s.removeKey k).keyMap.lookup j = if j = k then none else s.keyMap.lookup j := by
  unfold removeKey
  split_ifs with hk hj hj
  · exact (lookup_erase s.keyMap k j).trans (if_pos hj)
  · exact (lookup_erase s.keyMap k j).trans (if_neg hj)
  · rw [hj]
    exact AList.lookup_eq_none.mpr hk
  · rfl

end Tables

/-- The groups and the events are as before. There may be more notifications. -/
structure SameGroups (s s' : Store τ κ) : Prop where
  keyMap : s'.keyMap = s.keyMap
  idTable : s'.idTable = s.idTable
  events : s'.events = s.events
  notified : s.notified <+: s'.notified

/-- The requests that wait, and the status they wait for, are as before. -/
structure SameRequests (s s' : Store τ κ) : Prop where
  pendingKeyTable : s'.pendingKeyTable = s.pendingKeyTable
  deviceAuditStatus : s'.deviceAuditStatus = s.deviceAuditStatus

section

omit [DecidableEq κ]

theorem SameGroups.trans {s s' s'' : Store τ κ} (h : SameGroups s s') (h' : SameGroups s' s'') :
    SameGroups s s'' :=
  ⟨h'.keyMap.trans h.keyMap, h'.idTable.trans h.idTable, h'.events.trans h.events,
    h.notified.trans h'.notified⟩

theorem SameRequests.trans {s s' s'' : Store τ κ} (h : SameRequests s s')
    (h' : SameRequests s' s'') : SameRequests s s'' :=
  ⟨h'.pendingKeyTable.trans h.pendingKeyTable, h'.deviceAuditStatus.trans h.deviceAuditStatus⟩

end

structure Steady (R : Store τ κ → Store τ κ → Prop) : Prop where
  trans : ∀ {s s' s''}, R s s' → R s' s'' → R s s''
  same : ∀ {s s'}, SameGroups s s' → SameRequests s s' → R s s'

structure Respected (R : Store τ κ → Store τ κ → Prop) : Prop extends Steady R where
  removal : ∀ s k, R s (s.removeKey k)

variable {R : Store τ κ → Store τ κ → Prop} (hR : Steady R)
include hR

section

omit [DecidableEq κ]

theorem Steady.refl (s : Store τ κ) : R s s := hR.same ⟨rfl, rfl, rfl, List.prefix_rfl⟩ ⟨rfl, rfl⟩

theorem Steady.notify {s s' : Store τ κ} (h : R s s') (e : GroupEvent τ κ) :
    R s (s'.notify e) := hR.trans h (hR.same ⟨rfl, rfl, rfl, List.prefix_append _ _⟩ ⟨rfl, rfl⟩)

theorem Steady.foldl {γ : Type} {f : Store τ κ → γ → Store τ κ} (hf : ∀ s c, R s (f s c))
    (cs : List γ) (s : Store τ κ) : R s (cs.foldl f s) := by
  induction cs generalizing s with
  | nil => exact hR.refl s
  | cons c cs ih => exact hR.trans (hf s c) (ih (f s c))

end

section Entries

omit hR in
theorem Respected.removeGroupEntry (hR : Respected R) (s : Store τ κ) (group : Group τ) :
    R s (s.removeGroupEntry group) := by
  unfold Store.removeGroupEntry
  cases s.idTable.lookup group.id with
  | none => exact hR.refl s
  | some g => exact hR.notify (hR.removal s _) _

omit hR in
theorem Respected.purgeGroupEntry (hR : Respected R) (s : Store τ κ) : R s s.purgeGroupEntry :=
  hR.foldl hR.removal _ s

variable {s : Store τ κ}

theorem Steady.deleteGroupDescriptionInternal {k : κ}
    (h : ∀ g, s.keyMap.lookup k = some g → R s (s.putKey { g with state := .pendingDelete })) :
    R s (s.deleteGroupDescriptionInternal k) := by
  unfold Store.deleteGroupDescriptionInternal
  cases hg : s.keyMap.lookup k with
  | none => exact hR.refl s
  | some g => exact hR.notify (h g hg) _

omit hR in
theorem Respected.operationFailed (hR : Respected R) (s : Store τ κ) (operation : GroupOperation τ)
    (g : StoredGroup τ κ) : R s (s.operationFailed operation g) := by
  unfold Store.operationFailed
  cases operation.opType with
  | add =>
    dsimp only
    split_ifs
    · have hnotify : R s (s.notify (.of .groupAddFailed g)) := hR.notify (hR.refl s) _
      exact hR.trans hnotify (hR.removal _ _)
    · exact hR.refl s
  | modify => exact hR.notify (hR.refl s) _
  | delete => exact hR.notify (hR.refl s) _

theorem Steady.groupMissing {g : StoredGroup τ κ}
    (hremove : g.state = .pendingDelete → R s (s.removeGroupEntry g.toGroup))
    (h : g.state ≠ .pendingDelete → R s (s.putKey { g with state := .pendingAddRetry })) :
    R s (s.groupMissing g) := by
  unfold Store.groupMissing
  cases hstate : g.state with
  | pendingDelete => exact hremove hstate
  | waitingAuditComplete => exact hR.refl s
  | added | pendingAdd | pendingAddRetry | pendingUpdate =>
    exact hR.notify (h (by rw [hstate]; exact fun h => GroupState.noConfusion h)) _

omit hR in
theorem Respected.groupMissing (hR : Respected R) {g : StoredGroup τ κ}
    (h : g.state ≠ .pendingDelete → R s (s.putKey { g with state := .pendingAddRetry })) :
    R s (s.groupMissing g) :=
  hR.toSteady.groupMissing (fun _ => hR.removeGroupEntry s _) h

variable [DecidableEq τ]

theorem Steady.addOrUpdateGroupEntry {group : Group τ}
    (h : ∀ g, s.idTable.lookup group.id = some g → R s (s.record (confirmed group g))) :
    R s (s.addOrUpdateGroupEntry group) := by
  unfold Store.addOrUpdateGroupEntry
  cases hg : s.idTable.lookup group.id with
  | none => exact hR.refl s
  | some g => exact hR.notify (h g hg) _

theorem Steady.updateGroupEntryStats {group : Group τ}
    (h : ∀ g, s.idTable.lookup group.id = some g → g.state ≠ .pendingDelete →
      R s (s.record (confirmed group g))) : R s (s.updateGroupEntryStats group) := by
  unfold Store.updateGroupEntryStats
  cases hg : s.idTable.lookup group.id with
  | none => exact hR.refl s
  | some g =>
    dsimp only
    split_ifs with hstate
    · exact hR.refl s
    · exact h g hg hstate

theorem Steady.updateGroupDescriptionInternal {k : κ} {type : UpdateType}
    {newBuckets : List (GroupBucket τ)} {newKey : Option κ}
    (h : ∀ old g, s.keyMap.lookup k = some old → updatedGroup old type newBuckets newKey = some g →
      R s (s.putKey g)) : R s (s.updateGroupDescriptionInternal k type newBuckets newKey) := by
  unfold Store.updateGroupDescriptionInternal
  cases hold : s.keyMap.lookup k with
  | none => exact hR.refl s
  | some old =>
    dsimp only
    cases hg : updatedGroup old type newBuckets newKey with
    | none => exact hR.refl s
    | some g => exact hR.notify (h old g hold hg) _

omit hR in
theorem Respected.groupOperationFailed (hR : Respected R) {operation : GroupOperation τ}
    (hexists : ∀ g, s.idTable.lookup operation.groupId = some g →
      operation.failureCode = some .groupExists → bucketsEqual operation.buckets g.buckets →
      isPendingAdd g → R s (s.addOrUpdateGroupEntry g.toGroup))
    (hcount : ∀ g, s.idTable.lookup operation.groupId = some g →
      R s (s.putId { g with failedRetryCount := g.failedRetryCount + 1 })) :
    R s (s.groupOperationFailed operation) := by
  unfold Store.groupOperationFailed
  cases hg : s.idTable.lookup operation.groupId with
  | none => exact hR.refl s
  | some g =>
    dsimp only
    split_ifs with h hinvalid hretry
    · exact hexists g hg h.1 h.2.1 h.2.2
    · exact hcount g hg
    · exact hR.trans (hcount g hg) (hR.operationFailed _ _ _)
    · exact hR.operationFailed _ _ _

end Entries

section Requests

variable [DecidableEq τ]

omit hR

omit [DecidableEq κ] [DecidableEq τ] in
theorem isUsed_of_getFreeGroupIdValue {s : Store τ κ} {n : ℕ} {gen id : GroupId}
    (h : s.getFreeGroupIdValue n gen = some id) : s.isUsed id = false := by
  induction n generalizing gen with
  | zero => cases h
  | succ n ih =>
    rw [getFreeGroupIdValue] at h
    split_ifs at h with hused
    · exact ih h
    · rw [← Option.some.inj h]
      exact Bool.not_eq_true _ ▸ hused

def chosenId (s : Store τ κ) (groupDesc : GroupDescription τ κ) : Option GroupId :=
  match groupDesc.givenGroupId with
  | some id =>
    match s.extraneous.lookup id with
    | some group => some group.id
    | none => if (s.idTable.lookup id).isSome then none else some id
  | none =>
    match s.getMatchingExtraneousGroupbyBuckets groupDesc.buckets with
    | some group => some group.id
    | none => s.getFreeGroupIdValue (2 ^ 32) s.groupIdGen

/-- What a request does: nothing, it waits for the audit, a group of the switch becomes a group of
the store, or there is a group with a new id. -/
inductive Outcome (s : Store τ κ) (groupDesc : GroupDescription τ κ) : Store τ κ → Prop
  | known (h : (s.keyMap.lookup groupDesc.appCookie).isSome) : Outcome s groupDesc s
  | queued (h : s.keyMap.lookup groupDesc.appCookie = none) (haudit : s.deviceAuditStatus = none) :
      Outcome s groupDesc (s.addToPendingAudit groupDesc)
  | refused (h : s.keyMap.lookup groupDesc.appCookie = none) (haudit : s.deviceAuditStatus ≠ none)
      (hid : s.chosenId groupDesc = none) : Outcome s groupDesc s
  | adopted (group : Group τ) (h : s.keyMap.lookup groupDesc.appCookie = none)
      (haudit : s.deviceAuditStatus ≠ none) (hid : s.chosenId groupDesc = some group.id)
      (hgroup : group ∈ values s.extraneous) :
      Outcome s groupDesc (s.adopt group groupDesc)
  | updated (group : Group τ) (h : s.keyMap.lookup groupDesc.appCookie = none)
      (haudit : s.deviceAuditStatus ≠ none) (hid : s.chosenId groupDesc = some group.id)
      (hgroup : group ∈ values s.extraneous) :
      Outcome s groupDesc (s.adoptAndUpdate group groupDesc)
  | created (gen id : GroupId) (h : s.keyMap.lookup groupDesc.appCookie = none)
      (haudit : s.deviceAuditStatus ≠ none) (hid : s.chosenId groupDesc = some id)
      (hfree : s.isUsed id = false) :
      Outcome s groupDesc ({ s with groupIdGen := gen }.createGroup id groupDesc)

theorem storeGroupDescriptionInternal_outcome (s : Store τ κ) (groupDesc : GroupDescription τ κ) :
    Outcome s groupDesc (s.storeGroupDescriptionInternal groupDesc) := by
  unfold storeGroupDescriptionInternal
  split_ifs with hknown haudit
  · exact .known hknown
  · exact .queued (Option.not_isSome_iff_eq_none.mp hknown) haudit
  · have hnone := Option.not_isSome_iff_eq_none.mp hknown
    cases hgiven : groupDesc.givenGroupId with
    | some id =>
      dsimp only
      cases hext : s.extraneous.lookup id with
      | some group =>
        have hid : s.chosenId groupDesc = some group.id := by
          rw [chosenId, hgiven]
          dsimp only
          rw [hext]
        dsimp only
        split_ifs
        · exact .adopted group hnone haudit hid ((mem_values_iff _ _).mpr ⟨id, hext⟩)
        · exact .updated group hnone haudit hid ((mem_values_iff _ _).mpr ⟨id, hext⟩)
      | none =>
        have hid : s.chosenId groupDesc =
            if (s.idTable.lookup id).isSome then none else some id := by
          rw [chosenId, hgiven]
          dsimp only
          rw [hext]
        dsimp only
        split_ifs at hid ⊢ with hused
        · exact .refused hnone haudit hid
        · refine .created s.groupIdGen id hnone haudit hid ?_
          have hnot : (s.idTable.lookup id).isSome = false := Bool.eq_false_iff.mpr hused
          rw [isUsed, hext, hnot]
          rfl
    | none =>
      dsimp only
      cases hmatch : s.getMatchingExtraneousGroupbyBuckets groupDesc.buckets with
      | some group =>
        refine .adopted group hnone haudit ?_ (List.mem_of_find?_eq_some hmatch)
        rw [chosenId, hgiven]
        dsimp only
        rw [hmatch]
      | none =>
        have hid : s.chosenId groupDesc = s.getFreeGroupIdValue (2 ^ 32) s.groupIdGen := by
          rw [chosenId, hgiven]
          dsimp only
          rw [hmatch]
        dsimp only
        cases hfree : s.getFreeGroupIdValue (2 ^ 32) s.groupIdGen with
        | none => exact .refused hnone haudit (hid.trans hfree)
        | some id =>
          exact .created id id hnone haudit (hid.trans hfree) (isUsed_of_getFreeGroupIdValue hfree)

include hR

theorem Steady.storeGroupDescriptionInternal {s : Store τ κ} {groupDesc : GroupDescription τ κ}
    (hany : ∀ {s s' : Store τ κ}, SameGroups s s' → R s s')
    (h : ∀ g, s.keyMap.lookup groupDesc.appCookie = none → s.deviceAuditStatus ≠ none →
      g.appCookie = groupDesc.appCookie → s.chosenId groupDesc = some g.id → R s (s.record g))
    (hagain : ∀ g g', g.appCookie = groupDesc.appCookie → g.state = .pendingAdd →
      g'.appCookie = g.appCookie → g'.id = g.id → R (s.record g) ((s.record g).record g')) :
    R s (s.storeGroupDescriptionInternal groupDesc) := by
  have houtcome := s.storeGroupDescriptionInternal_outcome groupDesc
  generalize s.storeGroupDescriptionInternal groupDesc = s' at houtcome
  cases houtcome with
  | known | refused => exact hR.refl s
  | queued => exact hany ⟨rfl, rfl, rfl, List.prefix_rfl⟩
  | adopted group hnone haudit hid _ =>
    have hrecord : R s (s.record (newGroup group.id groupDesc)) :=
      h _ hnone haudit rfl hid
    have hconfirm : R (s.record (newGroup group.id groupDesc))
        ((s.record (newGroup group.id groupDesc)).addOrUpdateGroupEntry group) := by
      refine hR.addOrUpdateGroupEntry fun g hg => ?_
      obtain rfl := Option.some.inj ((AList.lookup_insert s.idTable).symm.trans hg)
      exact hagain _ _ rfl rfl rfl rfl
    exact hR.trans (hR.trans hrecord hconfirm) (hR.same ⟨rfl, rfl, rfl, List.prefix_rfl⟩ ⟨rfl, rfl⟩)
  | updated group hnone haudit hid _ =>
    have hrecord : R s (s.record { newGroup group.id groupDesc with state := .pendingUpdate }) :=
      h _ hnone haudit rfl hid
    exact hR.trans hrecord (hR.same ⟨rfl, rfl, rfl, List.prefix_append _ _⟩ ⟨rfl, rfl⟩)
  | created gen id hnone haudit hid hfree =>
    have hrecord : R s (s.record (newGroup id groupDesc)) :=
      h _ hnone haudit rfl hid
    exact hR.trans hrecord (hR.same ⟨rfl, rfl, rfl, List.prefix_append _ _⟩ ⟨rfl, rfl⟩)

theorem Steady.deviceInitialAuditCompleted (hany : ∀ {s s' : Store τ κ}, SameGroups s s' → R s s')
    (h : ∀ s groupDesc, R s (s.storeGroupDescriptionInternal groupDesc)) (s : Store τ κ)
    (completed : Bool) : R s (s.deviceInitialAuditCompleted completed) := by
  unfold Store.deviceInitialAuditCompleted
  split_ifs
  · have hexecute : ∀ (s : Store τ κ) groupDesc, R s (s.executePending groupDesc) :=
      fun s groupDesc => hR.trans (h s groupDesc) (hany ⟨rfl, rfl, rfl, List.prefix_rfl⟩)
    have hstatus : R s { s with deviceAuditStatus := some true } := hany ⟨rfl, rfl, rfl, List.prefix_rfl⟩
    exact hR.trans hstatus (hR.foldl hexecute _ _)
  · exact hany ⟨rfl, rfl, rfl, List.prefix_rfl⟩
  · exact hR.refl s

end Requests

section Audit

omit [DecidableEq κ] hR in
theorem newHashSet_sublist {γ : Type} (same : γ → γ → Bool) (gs : List γ) :
    (newHashSet same gs).Sublist gs := by
  induction gs with
  | nil => exact List.Sublist.refl []
  | cons g gs ih => exact (List.filter_sublist.trans ih).cons_cons g

omit [DecidableEq κ] hR in
theorem mem_newHashSet {γ : Type} {same : γ → γ → Bool} {g : γ} {gs : List γ} (hg : g ∈ gs)
    (halone : ∀ h ∈ gs, same h g = true → h = g) : g ∈ newHashSet same gs := by
  induction gs with
  | nil => exact absurd hg List.not_mem_nil
  | cons h gs ih =>
    rcases List.mem_cons.mp hg with rfl | hmem
    · exact List.mem_cons_self
    · by_cases hsame : same h g = true
      · rw [halone h List.mem_cons_self hsame]
        exact List.mem_cons_self
      · refine List.mem_cons_of_mem h (List.mem_filter.mpr ⟨ih hmem fun i hi => ?_, ?_⟩)
        · exact halone i (List.mem_cons_of_mem h hi)
        · rw [Bool.not_eq_true] at hsame
          rw [hsame]
          rfl

theorem Steady.collect {cfg : Config} {same : Group τ → Group τ → Bool}
    (hdelete : ∀ s k, R s (s.deleteGroupDescriptionInternal k)) (stored : List (StoredGroup τ κ))
    (s : Store τ κ) (southbound : List (Group τ)) :
    R s (Store.collect cfg same stored (s, southbound)).1 := by
  induction stored generalizing s southbound with
  | nil => exact hR.refl s
  | cons g stored ih =>
    rw [Store.collect]
    split_ifs
    · exact hR.trans (hdelete s _) (ih _ _)
    · exact ih s southbound

omit hR in
theorem collect_sublist (cfg : Config) (same : Group τ → Group τ → Bool)
    (stored : List (StoredGroup τ κ)) (s : Store τ κ) (southbound : List (Group τ)) :
    (Store.collect cfg same stored (s, southbound)).2.1.Sublist southbound ∧
      (Store.collect cfg same stored (s, southbound)).2.2.Sublist stored := by
  induction stored generalizing s southbound with
  | nil => exact ⟨List.Sublist.refl _, List.Sublist.refl _⟩
  | cons g stored ih =>
    rw [Store.collect]
    split_ifs
    · obtain ⟨hsouth, hstored⟩ := ih (s.deleteGroupDescriptionInternal g.appCookie)
        (southbound.eraseP (same g.toGroup))
      exact ⟨hsouth.trans List.eraseP_sublist, hstored.cons g⟩
    · obtain ⟨hsouth, hstored⟩ := ih s southbound
      exact ⟨hsouth, hstored.cons_cons g⟩

theorem Steady.missing {Q : StoredGroup τ κ → Prop}
    (hremove : ∀ s g, Q g → g.state = .pendingDelete → R s (s.removeGroupEntry g.toGroup))
    (hmissing : ∀ s g, Q g → g.state ≠ .pendingDelete →
      R s (s.putKey { g with state := .pendingAddRetry }))
    (stored : List (StoredGroup τ κ)) (s : Store τ κ) (hQ : ∀ g ∈ stored, Q g) :
    R s (stored.foldl Store.groupMissing s) := by
  induction stored generalizing s with
  | nil => exact hR.refl s
  | cons g stored ih =>
    have hg := hQ g List.mem_cons_self
    have hstep : R s (s.groupMissing g) := hR.groupMissing (hremove s g hg) (hmissing s g hg)
    exact hR.trans hstep (ih _ fun e he => hQ e (List.mem_cons_of_mem g he))

omit hR in
theorem Respected.missing (hR : Respected R) {Q : StoredGroup τ κ → Prop}
    (hmissing : ∀ s g, Q g → g.state ≠ .pendingDelete →
      R s (s.putKey { g with state := .pendingAddRetry }))
    (stored : List (StoredGroup τ κ)) (s : Store τ κ) (hQ : ∀ g ∈ stored, Q g) :
    R s (stored.foldl Store.groupMissing s) :=
  hR.toSteady.missing (fun s _ _ _ => hR.removeGroupEntry s _) hmissing stored s hQ

variable [DecidableEq τ]

omit [DecidableEq κ] [DecidableEq τ] hR in
theorem checkExtraneous_same (cfg : Config) (same : Group τ → Group τ → Bool) (group : Group τ)
    (r : Store τ κ × List (StoredGroup τ κ) × List (Group τ)) :
    SameGroups r.1 (checkExtraneous cfg same group r).1 ∧
      SameRequests r.1 (checkExtraneous cfg same group r).1 ∧
      (checkExtraneous cfg same group r).2.1.Sublist r.2.1 := by
  unfold checkExtraneous
  cases r.1.idTable.lookup group.id with
  | some g => exact ⟨⟨rfl, rfl, rfl, List.prefix_rfl⟩, ⟨rfl, rfl⟩, List.eraseP_sublist⟩
  | none =>
    dsimp only
    split_ifs
    · exact ⟨⟨rfl, rfl, rfl, List.prefix_rfl⟩, ⟨rfl, rfl⟩, List.Sublist.refl _⟩
    · exact ⟨⟨rfl, rfl, rfl, List.prefix_append _ _⟩, ⟨rfl, rfl⟩, List.Sublist.refl _⟩

omit [DecidableEq κ] hR in
theorem id_eq_of_sameGroup {hashCode : Group τ → ℤ} {g h : Group τ}
    (hsame : sameGroup hashCode g h = true) : g.id = h.id := by
  simp only [sameGroup, Group.equals, Bool.and_eq_true, decide_eq_true_eq] at hsame
  exact hsame.2.2

theorem Steady.updateStats (hashCode : Group τ → ℤ) {Q : StoredGroup τ κ → Prop}
    (hstats : ∀ s group g, Q g → g.id = group.id → R s (s.updateGroupEntryStats group))
    (southbound : List (Group τ)) (s : Store τ κ) (stored : List (StoredGroup τ κ))
    (hQ : ∀ g ∈ stored, Q g) :
    R s (Store.updateStats (sameGroup hashCode) southbound (s, stored)).1 := by
  induction southbound generalizing s stored with
  | nil => exact hR.refl s
  | cons group groups ih =>
    rw [Store.updateStats]
    split_ifs with hany
    · obtain ⟨g, hg, hsame⟩ := List.any_eq_true.mp hany
      have hstep := hstats s group g (hQ g hg) (id_eq_of_sameGroup hsame).symm
      exact hR.trans hstep (ih _ _ fun e he => hQ e (List.mem_of_mem_eraseP he))
    · exact ih s stored hQ

omit hR in
theorem updateStats_sublist (same : Group τ → Group τ → Bool) (southbound : List (Group τ))
    (s : Store τ κ) (stored : List (StoredGroup τ κ)) :
    (Store.updateStats same southbound (s, stored)).2.1.Sublist southbound ∧
      (Store.updateStats same southbound (s, stored)).2.2.Sublist stored := by
  induction southbound generalizing s stored with
  | nil => exact ⟨List.Sublist.refl _, List.Sublist.refl _⟩
  | cons group groups ih =>
    rw [Store.updateStats]
    split_ifs
    · obtain ⟨hsouth, hstored⟩ := ih (s.updateGroupEntryStats group)
        (stored.eraseP fun g => same group g.toGroup)
      exact ⟨hsouth.cons group, hstored.trans List.eraseP_sublist⟩
    · obtain ⟨hsouth, hstored⟩ := ih s stored
      exact ⟨hsouth.cons_cons group, hstored⟩

omit [DecidableEq κ] [DecidableEq τ] hR in
theorem foldl_checkExtraneous_same (cfg : Config) (same : Group τ → Group τ → Bool)
    (groups : List (Group τ)) (r : Store τ κ × List (StoredGroup τ κ) × List (Group τ)) :
    SameGroups r.1 (groups.foldl (fun r group => checkExtraneous cfg same group r) r).1 ∧
      SameRequests r.1 (groups.foldl (fun r group => checkExtraneous cfg same group r) r).1 ∧
      (groups.foldl (fun r group => checkExtraneous cfg same group r) r).2.1.Sublist r.2.1 := by
  induction groups generalizing r with
  | nil => exact ⟨⟨rfl, rfl, rfl, List.prefix_rfl⟩, ⟨rfl, rfl⟩, List.Sublist.refl _⟩
  | cons group groups ih =>
    obtain ⟨hgroups, hrequests, hstored⟩ := checkExtraneous_same cfg same group r
    obtain ⟨hgroups', hrequests', hstored'⟩ := ih (checkExtraneous cfg same group r)
    exact ⟨hgroups.trans hgroups', hrequests.trans hrequests', hstored'.trans hstored⟩

theorem Steady.reconcile (cfg : Config) (hashCode : Group τ → ℤ) {Q : StoredGroup τ κ → Prop}
    (hstats : ∀ s group g, Q g → g.id = group.id → R s (s.updateGroupEntryStats group))
    (hremove : ∀ s g, Q g → g.state = .pendingDelete → R s (s.removeGroupEntry g.toGroup))
    (hmissing : ∀ s g, Q g → g.state ≠ .pendingDelete →
      R s (s.putKey { g with state := .pendingAddRetry }))
    (southbound : List (Group τ)) (s : Store τ κ) (stored : List (StoredGroup τ κ))
    (extraneousStored : List (Group τ)) (hQ : ∀ g ∈ stored, Q g) :
    R s (Store.reconcile cfg hashCode southbound (s, stored) extraneousStored) := by
  unfold Store.reconcile
  dsimp only
  have hupdated := hR.updateStats hashCode hstats southbound s stored hQ
  have hleft := (updateStats_sublist (sameGroup hashCode) southbound s stored).2
  generalize Store.updateStats (sameGroup hashCode) southbound (s, stored) = u at hupdated hleft
  obtain ⟨hsame, hrequests, hsub⟩ := foldl_checkExtraneous_same cfg (sameGroup hashCode) u.2.1
    (u.1, u.2.2, extraneousStored)
  generalize u.2.1.foldl (fun r group => checkExtraneous cfg (sameGroup hashCode) group r)
    (u.1, u.2.2, extraneousStored) = c at hsame hrequests hsub
  have hmiss := hR.missing hremove hmissing c.2.1 c.1 fun g hg => hQ g (hleft.subset (hsub.subset hg))
  have hclear : R (c.2.1.foldl Store.groupMissing c.1)
      (c.2.2.foldl removeExtraneousGroupEntry (c.2.1.foldl Store.groupMissing c.1)) := by
    have hremove : ∀ (s : Store τ κ) group, R s (s.removeExtraneousGroupEntry group) :=
      fun s group => hR.same ⟨rfl, rfl, rfl, List.prefix_rfl⟩ ⟨rfl, rfl⟩
    exact hR.foldl hremove _ _
  exact hR.trans (hR.trans hupdated (hR.same hsame hrequests)) (hR.trans hmiss hclear)

omit hR in
theorem Respected.reconcile (hR : Respected R) (cfg : Config) (hashCode : Group τ → ℤ)
    {Q : StoredGroup τ κ → Prop}
    (hstats : ∀ s group g, Q g → g.id = group.id → R s (s.updateGroupEntryStats group))
    (hmissing : ∀ s g, Q g → g.state ≠ .pendingDelete →
      R s (s.putKey { g with state := .pendingAddRetry }))
    (southbound : List (Group τ)) (s : Store τ κ) (stored : List (StoredGroup τ κ))
    (extraneousStored : List (Group τ)) (hQ : ∀ g ∈ stored, Q g) :
    R s (Store.reconcile cfg hashCode southbound (s, stored) extraneousStored) :=
  hR.toSteady.reconcile cfg hashCode hstats (fun s _ _ _ => hR.removeGroupEntry s _) hmissing
    southbound s stored extraneousStored hQ

def audited (cfg : Config) (hashCode : Group τ → ℤ) (isAvailable : Bool) (s : Store τ κ)
    (groupEntries : List (Group τ)) : Store τ κ :=
  Store.reconcile cfg hashCode
    (Store.collected cfg hashCode (localMaster isAvailable) s groupEntries).2.1
    ((Store.collected cfg hashCode (localMaster isAvailable) s groupEntries).1,
      (Store.collected cfg hashCode (localMaster isAvailable) s groupEntries).2.2)
    (newHashSet (sameGroup hashCode) (values s.extraneous))

omit hR in
theorem pushGroupMetrics_of_master (cfg : Config) (hashCode : Group τ → ℤ) (isAvailable : Bool)
    (s : Store τ κ) (groupEntries : List (Group τ)) :
    s.pushGroupMetrics cfg hashCode (localMaster isAvailable) groupEntries =
      if s.deviceAuditStatus = some true then audited cfg hashCode isAvailable s groupEntries
      else (audited cfg hashCode isAvailable s groupEntries).deviceInitialAuditCompleted true := by
  have hmaster : (localMaster isAvailable).isLocalMaster = true := rfl
  rw [Store.pushGroupMetrics, if_pos (Or.inl hmaster)]
  rfl

theorem Steady.collected (cfg : Config) (hashCode : Group τ → ℤ) (m : Mastership)
    (hdelete : ∀ s k, R s (s.deleteGroupDescriptionInternal k)) (s : Store τ κ)
    (groupEntries : List (Group τ)) : R s (Store.collected cfg hashCode m s groupEntries).1 := by
  rw [Store.collected, garbageCollect]
  split_ifs
  · exact hR.collect hdelete _ s _
  · exact hR.refl s

theorem Steady.pushGroupMetrics {cfg : Config} {hashCode : Group τ → ℤ} {m : Mastership}
    {s : Store τ κ} {groupEntries : List (Group τ)}
    (hdelete : ∀ s k, R s (s.deleteGroupDescriptionInternal k))
    (hreconcile : R (Store.collected cfg hashCode m s groupEntries).1
      (Store.reconcile cfg hashCode (Store.collected cfg hashCode m s groupEntries).2.1
        ((Store.collected cfg hashCode m s groupEntries).1,
          (Store.collected cfg hashCode m s groupEntries).2.2)
        (newHashSet (sameGroup hashCode) (values s.extraneous))))
    (hpending : ∀ s : Store τ κ, R s (s.deviceInitialAuditCompleted true)) :
    R s (s.pushGroupMetrics cfg hashCode m groupEntries) := by
  have hcollected := hR.collected cfg hashCode m hdelete s groupEntries
  rw [Store.pushGroupMetrics]
  split_ifs
  · exact hR.trans hcollected hreconcile
  · exact hR.trans (hR.trans hcollected hreconcile) (hpending _)
  · exact hR.refl s

end Audit

section Closed

variable [DecidableEq τ]

omit hR

structure Closed (R : Store τ κ → Store τ κ → Prop) : Prop extends Respected R where
  any : ∀ {s s'}, SameGroups s s' → R s s'
  record : ∀ s g, R s (s.record g)
  putKey : ∀ s g, R s (s.putKey g)
  putId : ∀ s g, R s (s.putId g)

variable {R : Store τ κ → Store τ κ → Prop} (hC : Closed R)
include hC

theorem Closed.storeGroupDescriptionInternal (s : Store τ κ) (groupDesc : GroupDescription τ κ) :
    R s (s.storeGroupDescriptionInternal groupDesc) :=
  hC.toRespected.storeGroupDescriptionInternal hC.any (fun g _ _ _ _ => hC.record s g)
    fun g g' _ _ _ _ => hC.record (s.record g) g'

theorem Closed.pushGroupMetrics (cfg : Config) (hashCode : Group τ → ℤ) (m : Mastership)
    (s : Store τ κ) (groupEntries : List (Group τ)) :
    R s (s.pushGroupMetrics cfg hashCode m groupEntries) := by
  have hR := hC.toRespected
  refine hR.pushGroupMetrics ?_ ?_ fun s => ?_
  · exact fun s k => hR.deleteGroupDescriptionInternal fun g _ => hC.putKey s _
  · exact hR.reconcile cfg hashCode (Q := fun _ => True)
      (fun s _ _ _ _ => hR.updateGroupEntryStats fun _ _ _ => hC.record s _)
      (fun s _ _ _ => hC.putKey s _) _ _ _ _ fun _ _ => trivial
  · exact hR.deviceInitialAuditCompleted hC.any hC.storeGroupDescriptionInternal s true

theorem Closed.groupOperationFailed (s : Store τ κ) (operation : GroupOperation τ) :
    R s (s.groupOperationFailed operation) :=
  hC.toRespected.groupOperationFailed
    (fun _ _ _ _ _ => hC.toRespected.addOrUpdateGroupEntry fun _ _ => hC.record s _)
    fun _ _ => hC.putId s _

theorem Closed.perform (cfg : Config) (hashCode : Group τ → ℤ) (isAvailable : Bool)
    (hreceive : ∀ s : Store τ κ, R s s.receiveEvent) (s : Store τ κ) (x : Call τ κ) :
    R s (s.perform cfg hashCode isAvailable x) := by
  have hR := hC.toRespected
  cases x with
  | storeGroupDescription groupDesc => exact hC.storeGroupDescriptionInternal s groupDesc
  | updateGroupDescription k type newBuckets newKey =>
    exact hR.updateGroupDescriptionInternal fun _ g _ _ => hC.putKey s g
  | deleteGroupDescription k => exact hR.deleteGroupDescriptionInternal fun g _ => hC.putKey s _
  | addOrUpdateGroupEntry group => exact hR.addOrUpdateGroupEntry fun g _ => hC.record s _
  | removeGroupEntry group => exact hR.removeGroupEntry s group
  | purgeGroupEntry => exact hR.purgeGroupEntry s
  | deviceInitialAuditCompleted completed =>
    exact hR.deviceInitialAuditCompleted hC.any hC.storeGroupDescriptionInternal s completed
  | groupOperationFailed operation => exact hC.groupOperationFailed s operation
  | addOrUpdateExtraneousGroupEntry | removeExtraneousGroupEntry | takeId =>
    exact hC.any ⟨rfl, rfl, rfl, List.prefix_rfl⟩
  | pushGroupMetrics groupEntries => exact hC.pushGroupMetrics cfg hashCode (localMaster isAvailable) s groupEntries
  | receive => exact hreceive s

end Closed

section Waiting

omit hR

theorem respected_sameRequests : Respected (SameRequests (τ := τ) (κ := κ)) where
  trans := SameRequests.trans
  same _ h := h
  removal := by
    intro s k
    unfold removeKey
    split_ifs <;> exact ⟨rfl, rfl⟩

variable [DecidableEq τ]

theorem sameRequests_collected (cfg : Config) (hashCode : Group τ → ℤ) (m : Mastership)
    (s : Store τ κ) (groupEntries : List (Group τ)) :
    SameRequests s (collected cfg hashCode m s groupEntries).1 :=
  respected_sameRequests.collected cfg hashCode m
    (fun _ _ => respected_sameRequests.deleteGroupDescriptionInternal fun _ _ => ⟨rfl, rfl⟩)
    s groupEntries

theorem sameRequests_reconcile (cfg : Config) (hashCode : Group τ → ℤ) (southbound : List (Group τ))
    (s : Store τ κ) (stored : List (StoredGroup τ κ)) (extraneousStored : List (Group τ)) :
    SameRequests s (reconcile cfg hashCode southbound (s, stored) extraneousStored) :=
  respected_sameRequests.reconcile cfg hashCode (Q := fun _ => True)
    (fun _ _ _ _ _ => respected_sameRequests.updateGroupEntryStats fun _ _ _ => ⟨rfl, rfl⟩)
    (fun _ _ _ _ => ⟨rfl, rfl⟩) southbound s stored extraneousStored fun _ _ => trivial

theorem sameRequests_groupOperationFailed (s : Store τ κ) (operation : GroupOperation τ) :
    SameRequests s (s.groupOperationFailed operation) :=
  respected_sameRequests.groupOperationFailed
    (fun _ _ _ _ _ => respected_sameRequests.addOrUpdateGroupEntry fun _ _ => ⟨rfl, rfl⟩)
    fun _ _ => ⟨rfl, rfl⟩

end Waiting

section Ownership

omit hR

structure IsWellKeyed (s : Store τ κ) : Prop where
  keys : ∀ k g, s.keyMap.lookup k = some g → g.appCookie = k
  ids : ∀ i g, s.idTable.lookup i = some g → g.id = i

theorem isWellKeyed_empty : IsWellKeyed (empty : Store τ κ) where
  keys := by
    intro k g h
    cases h
  ids := by
    intro i g h
    cases h

variable {s : Store τ κ}

theorem IsWellKeyed.putKey (hs : IsWellKeyed s) (g : StoredGroup τ κ) :
    IsWellKeyed (s.putKey g) where
  keys := by
    intro k h hk
    change (s.keyMap.insert g.appCookie g).lookup k = some h at hk
    rw [lookup_insert] at hk
    split_ifs at hk with hkey
    · rw [← Option.some.inj hk, hkey]
    · exact hs.keys k h hk
  ids := hs.ids

theorem IsWellKeyed.putId (hs : IsWellKeyed s) (g : StoredGroup τ κ) : IsWellKeyed (s.putId g) where
  keys := hs.keys
  ids := by
    intro i h hi
    change (s.idTable.insert g.id g).lookup i = some h at hi
    rw [lookup_insert] at hi
    split_ifs at hi with hid
    · rw [← Option.some.inj hi, hid]
    · exact hs.ids i h hi

theorem IsWellKeyed.removeKey (hs : IsWellKeyed s) (k : κ) : IsWellKeyed (s.removeKey k) where
  keys := by
    intro j h hj
    rw [lookup_removeKey] at hj
    split_ifs at hj
    exact hs.keys j h hj
  ids := by
    rw [idTable_removeKey]
    exact hs.ids

theorem closed_isWellKeyed : Closed fun s s' : Store τ κ => IsWellKeyed s → IsWellKeyed s' where
  trans h h' hs := h' (h hs)
  same h _ hs := ⟨h.keyMap ▸ hs.keys, h.idTable ▸ hs.ids⟩
  any h hs := ⟨h.keyMap ▸ hs.keys, h.idTable ▸ hs.ids⟩
  removal _ k hs := hs.removeKey k
  record _ g hs := (hs.putKey g).putId g
  putKey _ g hs := hs.putKey g
  putId _ g hs := hs.putId g

variable [DecidableEq τ]

section

omit [DecidableEq κ]

theorem GroupBucket.equals_self (b : GroupBucket τ) : b.equals b = true := by
  simp [GroupBucket.equals]

theorem Group.equals_self (g : Group τ) : g.equals g = true := by
  have hall : containsAll g.buckets g.buckets = true := by
    simp only [containsAll, contains, List.all_eq_true, List.any_eq_true]
    exact fun b hb => ⟨b, hb, GroupBucket.equals_self b⟩
  simp [Group.equals, bucketsEqual, hall]

end

def indexed (s : Store τ κ) : Indexed κ GroupId (StoredGroup τ κ) :=
  ⟨s.keyMap, s.idTable, s.events⟩

theorem indexed_handleEvent (hs : IsWellKeyed s)
    (e : Change κ (StoredGroup τ κ)) : (s.handleEvent e).indexed =
      ⟨s.keyMap, s.indexed.applied StoredGroup.appCookie (fun g => g.id) e, s.events⟩ := by
  cases e with
  | put g =>
    rw [handleEvent]
    split_ifs <;> rfl
  | remove k =>
    cases hg : (values s.idTable).find? fun stored => stored.appCookie = k with
    | none =>
      have hheld : s.indexed.held StoredGroup.appCookie k = none := hg
      rw [Indexed.applied, hheld, handleEvent, hg]
      rfl
    | some g =>
      obtain ⟨i, hi⟩ := (mem_values_iff _ _).mp (List.mem_of_find?_eq_some hg)
      have hown : s.idTable.lookup g.id = some g := by
        rw [hs.ids i g hi]
        exact hi
      have hheld : s.indexed.held StoredGroup.appCookie k = some g := hg
      rw [Indexed.applied, hheld, handleEvent, hg]
      dsimp only
      rw [hown, Option.any_some, if_pos (Group.equals_self g.toGroup)]
      rfl

theorem IsWellKeyed.handleEvent (hs : IsWellKeyed s)
    (e : Change κ (StoredGroup τ κ)) : IsWellKeyed (s.handleEvent e) where
  keys := by
    have hkey : (s.handleEvent e).keyMap = s.keyMap :=
      congrArg Indexed.table (indexed_handleEvent hs e)
    rw [hkey]
    exact hs.keys
  ids := by
    intro i g hi
    have hindex := congrArg Indexed.index (indexed_handleEvent hs e)
    change (s.handleEvent e).indexed.index.lookup i = some g at hi
    rw [hindex] at hi
    rcases lookup_applied hi with ⟨_, hid⟩ | hi
    · exact hid.symm
    · exact hs.ids i g hi

theorem isWellKeyed_perform (cfg : Config) (hashCode : Group τ → ℤ) (isAvailable : Bool)
    (hs : IsWellKeyed s) (x : Call τ κ) :
    IsWellKeyed (s.perform cfg hashCode isAvailable x) := by
  refine closed_isWellKeyed.perform cfg hashCode isAvailable (fun s hs => ?_) s x hs
  unfold receiveEvent
  cases s.events with
  | nil => exact hs
  | cons e es =>
    have hpop : IsWellKeyed { s with events := es } := ⟨hs.keys, hs.ids⟩
    exact hpop.handleEvent e

end Ownership

section Collection

omit hR

variable {cfg : Config} {same : Group τ → Group τ → Bool}

variable {s : Store τ κ}

theorem lookup_deleteGroupDescriptionInternal (hs : IsWellKeyed s) {i j : κ}
    (h : i ≠ j) : (s.deleteGroupDescriptionInternal j).keyMap.lookup i = s.keyMap.lookup i := by
  unfold deleteGroupDescriptionInternal
  cases hg : s.keyMap.lookup j with
  | none => rfl
  | some g =>
    have hkey : i ≠ g.appCookie := by
      rw [hs.keys j g hg]
      exact h
    exact AList.lookup_insert_ne hkey

theorem isWellKeyed_deleteGroupDescriptionInternal (hs : IsWellKeyed s) (j : κ) :
    IsWellKeyed (s.deleteGroupDescriptionInternal j) :=
  closed_isWellKeyed.toRespected.deleteGroupDescriptionInternal
    (fun _ _ hs => hs.putKey _) hs

theorem lookup_collect_of_ne (stored : List (StoredGroup τ κ)) (hs : IsWellKeyed s)
    (southbound : List (Group τ)) {j : κ} (hj : ∀ g ∈ stored, j ≠ g.appCookie) :
    (collect cfg same stored (s, southbound)).1.keyMap.lookup j = s.keyMap.lookup j := by
  induction stored generalizing s southbound with
  | nil => rfl
  | cons g stored ih =>
    have hrest := fun h hh => hj h (List.mem_cons_of_mem g hh)
    rw [collect]
    split_ifs
    · refine (ih (isWellKeyed_deleteGroupDescriptionInternal hs _) _ hrest).trans ?_
      exact lookup_deleteGroupDescriptionInternal hs (hj g List.mem_cons_self)
    · exact ih hs southbound hrest

variable {g : StoredGroup τ κ}

theorem lookup_collect {stored : List (StoredGroup τ κ)}
    (hpair : stored.Pairwise fun g h => g.appCookie ≠ h.appCookie)
    (hs : IsWellKeyed s) (southbound : List (Group τ))
    (hg : g ∈ (collect cfg same stored (s, southbound)).2.2) :
    (collect cfg same stored (s, southbound)).1.keyMap.lookup g.appCookie =
      s.keyMap.lookup g.appCookie := by
  induction stored generalizing s southbound with
  | nil => exact absurd hg List.not_mem_nil
  | cons h stored ih =>
    obtain ⟨hne, hpair⟩ := List.pairwise_cons.mp hpair
    rw [collect] at hg ⊢
    split_ifs at hg ⊢
    · have hmem := (collect_sublist cfg same stored _ _).2.subset hg
      refine (ih hpair (isWellKeyed_deleteGroupDescriptionInternal hs _) _ hg).trans ?_
      exact lookup_deleteGroupDescriptionInternal hs (hne g hmem).symm
    · rcases List.mem_cons.mp hg with rfl | hg
      · exact lookup_collect_of_ne stored hs southbound hne
      · exact ih hpair hs southbound hg

theorem mem_collect {stored : List (StoredGroup τ κ)} (hg : g ∈ stored)
    (hstate : g.state = .pendingDelete) (s : Store τ κ) (southbound : List (Group τ)) :
    g ∈ (collect cfg same stored (s, southbound)).2.2 := by
  induction stored generalizing s southbound with
  | nil => exact absurd hg List.not_mem_nil
  | cons h stored ih =>
    rw [collect]
    split_ifs with hcond
    · rcases List.mem_cons.mp hg with rfl | hg
      · exact absurd hstate hcond.1
      · exact ih hg _ _
    · rcases List.mem_cons.mp hg with rfl | hg
      · exact List.mem_cons_self
      · exact List.mem_cons_of_mem h (ih hg s southbound)

theorem idTable_collected [DecidableEq τ] (hashCode : Group τ → ℤ) (m : Mastership) (s : Store τ κ)
    (groupEntries : List (Group τ)) :
    (collected cfg hashCode m s groupEntries).1.idTable = s.idTable := by
  have hR : Steady fun s s' : Store τ κ => s'.idTable = s.idTable :=
    ⟨fun h h' => h'.trans h, fun h _ => h.idTable⟩
  exact hR.collected _ hashCode m (fun s j => hR.deleteGroupDescriptionInternal fun _ _ => rfl) s groupEntries

theorem isWellKeyed_collected [DecidableEq τ] (hashCode : Group τ → ℤ) (m : Mastership)
    (hs : IsWellKeyed s) (groupEntries : List (Group τ)) :
    IsWellKeyed (collected cfg hashCode m s groupEntries).1 :=
  closed_isWellKeyed.toRespected.collected cfg hashCode m
    (fun _ j hs => isWellKeyed_deleteGroupDescriptionInternal hs j) s groupEntries hs

theorem lookup_of_mem_collected [DecidableEq τ] {hashCode : Group τ → ℤ} {isAvailable : Bool}
    (hs : IsWellKeyed s) {groupEntries : List (Group τ)}
    (hg : g ∈ (collected cfg hashCode (localMaster isAvailable) s groupEntries).2.2) :
    s.keyMap.lookup g.appCookie = some g ∧
      (collected cfg hashCode (localMaster isAvailable) s groupEntries).1.keyMap.lookup
        g.appCookie = some g := by
  have hown : ∀ h ∈ values s.keyMap, s.keyMap.lookup h.appCookie = some h := by
    intro h hh
    obtain ⟨j, hj⟩ := (mem_values_iff _ _).mp hh
    rw [hs.keys j h hj]
    exact hj
  have hsub := newHashSet_sublist (fun g h : StoredGroup τ κ =>
    sameGroup hashCode g.toGroup h.toGroup) (getStoredGroups (localMaster isAvailable) s)
  have hpair := (pairwise_values hs.keys).sublist hsub
  unfold collected garbageCollect at hg ⊢
  split_ifs at hg ⊢
  · have hmem := (collect_sublist _ _ _ _ _).2.subset hg
    have hlookup := hown g (hsub.subset hmem)
    exact ⟨hlookup, (lookup_collect hpair hs _ hg).trans hlookup⟩
  · have hlookup := hown g (hsub.subset hg)
    exact ⟨hlookup, hlookup⟩

theorem southbound_collected [DecidableEq τ] (cfg : Config) (hashCode : Group τ → ℤ) (m : Mastership)
    (s : Store τ κ) (groupEntries : List (Group τ)) :
    (collected cfg hashCode m s groupEntries).2.1 ⊆ groupEntries := by
  have hsub := (newHashSet_sublist (sameGroup hashCode) groupEntries).subset
  unfold collected garbageCollect
  split_ifs
  · exact fun group hgroup => hsub ((collect_sublist _ _ _ _ _).1.subset hgroup)
  · exact hsub

end Collection

end GroupStore.Store

import Onos.GroupStoreSteps

/-! Whether a group that is being deleted comes back before the switch confirms that it is gone. -/
namespace GroupStore.Store

open KeyedMap FedIndex InputMachine

variable {τ κ : Type} [DecidableEq κ]

section Statement

def IsDeleting (s : Store τ κ) (k : κ) : Prop :=
  ∃ g ∈ s.keyMap.lookup k, g.state = .pendingDelete

def IsRemoved (s s' : Store τ κ) (k : κ) : Prop :=
  ∃ new, s'.events = s.events ++ new ∧ .remove k ∈ new

def IsRemovalNotified (s s' : Store τ κ) (k : κ) : Prop :=
  ∃ new g, s'.notified = s.notified ++ new ∧ .of .groupRemoved g ∈ new ∧ g.appCookie = k

instance decidableIsDeleting (s : Store τ κ) (k : κ) : Decidable (IsDeleting s k) :=
  inferInstanceAs (Decidable (∃ g ∈ s.keyMap.lookup k, g.state = .pendingDelete))

/-- The table of the node has caught up with the group, and no other group of the store has an id
under which the table has it. -/
structure IsFollowed (s : Store τ κ) (k : κ) : Prop where
  found : ∀ g ∈ s.keyMap.lookup k, ∃ h ∈ s.idTable.lookup g.id, h.appCookie = k
  deleting : IsDeleting s k → ∀ h ∈ values s.idTable, h.appCookie = k → h.state = .pendingDelete
  alone : ∀ g ∈ values s.keyMap, ∀ h ∈ s.idTable.lookup g.id, h.appCookie = k → g.appCookie = k

instance decidableIsFollowed (s : Store τ κ) (k : κ) : Decidable (IsFollowed s k) :=
  decidable_of_iff
    ((∀ g ∈ s.keyMap.lookup k, ∃ h ∈ s.idTable.lookup g.id, h.appCookie = k) ∧
      (IsDeleting s k → ∀ h ∈ values s.idTable, h.appCookie = k → h.state = .pendingDelete) ∧
      ∀ g ∈ values s.keyMap, ∀ h ∈ s.idTable.lookup g.id, h.appCookie = k → g.appCookie = k)
    ⟨fun h => ⟨h.1, h.2.1, h.2.2⟩, fun h => ⟨h.found, h.deleting, h.alone⟩⟩

variable [DecidableEq τ]

/-- The call does not move the group out of the state of a group that is being deleted. -/
def Spares (s : Store τ κ) (k : κ) : Call τ κ → Prop
  | .updateGroupDescription oldAppCookie type newBuckets newAppCookie =>
    ∀ old ∈ s.keyMap.lookup oldAppCookie, ∀ g ∈ updatedGroup old type newBuckets newAppCookie,
      g.appCookie ≠ k
  | .addOrUpdateGroupEntry group => ∀ g ∈ s.idTable.lookup group.id, g.appCookie ≠ k
  | .groupOperationFailed operation => operation.failureCode = some .groupExists →
    ∀ g ∈ s.idTable.lookup operation.groupId, g.appCookie = k →
      bucketsEqual operation.buckets g.buckets = true → isPendingAdd g = false
  | .pushGroupMetrics _ => IsFollowed s k
  | _ => True

instance decidableSpares (s : Store τ κ) (k : κ) (x : Call τ κ) : Decidable (Spares s k x) := by
  cases x <;> unfold Spares <;> infer_instance

/-- The state once the call has deleted what it deletes: an audit collects garbage first. -/
def afterDeletions (cfg : Config) (hashCode : Group τ → ℤ) (isAvailable : Bool) (s : Store τ κ) :
    Call τ κ → Store τ κ
  | .deleteGroupDescription appCookie => s.deleteGroupDescriptionInternal appCookie
  | .pushGroupMetrics groupEntries =>
    (collected cfg hashCode (localMaster isAvailable) s groupEntries).1
  | _ => s

end Statement

section Retention

def Retains (k : κ) (s s' : Store τ κ) : Prop :=
  ∃ new, s'.events = s.events ++ new ∧ (IsDeleting s k → .remove k ∈ new ∨ IsDeleting s' k)

variable {k : κ}

variable {s : Store τ κ} {g : StoredGroup τ κ}

section

variable (h : IsDeleting s k → g.appCookie = k → g.state = .pendingDelete)

include h

theorem isDeleting_putKey (hs : IsDeleting s k) : IsDeleting (s.putKey g) k := by
  obtain ⟨old, hold, hstate⟩ := hs
  by_cases hk : k = g.appCookie
  · refine ⟨g, ?_, h ⟨old, hold, hstate⟩ hk.symm⟩
    rw [hk]
    exact AList.lookup_insert s.keyMap
  · exact ⟨old, (AList.lookup_insert_ne hk).trans hold, hstate⟩

theorem retains_putKey : Retains k s (s.putKey g) :=
  ⟨[.put g], rfl, fun hs => Or.inr (isDeleting_putKey h hs)⟩

theorem retains_record : Retains k s (s.record g) :=
  ⟨[.put g], rfl, fun hs => Or.inr (isDeleting_putKey h hs)⟩

end

theorem retains_removeKey (s : Store τ κ) (j : κ) : Retains k s (s.removeKey j) := by
  unfold removeKey
  split_ifs with hj
  · refine ⟨[.remove j], rfl, fun hs => ?_⟩
    by_cases hk : k = j
    · rw [hk]
      exact Or.inl List.mem_cons_self
    · obtain ⟨g, hg, hstate⟩ := hs
      exact Or.inr ⟨g, (AList.lookup_erase_ne hk).trans hg, hstate⟩
  · exact ⟨[], (List.append_nil _).symm, Or.inr⟩

theorem retains_putId (s : Store τ κ) (g : StoredGroup τ κ) : Retains k s (s.putId g) :=
  ⟨[], (List.append_nil _).symm, Or.inr⟩

theorem retains_of_sameGroups {s s' : Store τ κ} (h : SameGroups s s') : Retains k s s' := by
  refine ⟨[], by rw [h.events, List.append_nil], fun hs => Or.inr ?_⟩
  unfold IsDeleting
  rw [h.keyMap]
  exact hs

theorem respected_retains : Respected (Retains (τ := τ) k) where
  trans := by
    rintro s s' s'' ⟨new, hnew, h⟩ ⟨new', hnew', h'⟩
    refine ⟨new ++ new', by rw [hnew', hnew, List.append_assoc], fun hs => ?_⟩
    rcases h hs with h | h
    · exact Or.inl (List.mem_append_left new' h)
    · rcases h' h with h | h
      · exact Or.inl (List.mem_append_right new h)
      · exact Or.inr h
  same h _ := retains_of_sameGroups h
  removal := retains_removeKey

variable [DecidableEq τ]

theorem retains_storeGroupDescriptionInternal (s : Store τ κ) (groupDesc : GroupDescription τ κ) :
    Retains k s (s.storeGroupDescriptionInternal groupDesc) := by
  refine respected_retains.storeGroupDescriptionInternal retains_of_sameGroups
    (fun g hnone _ hkey _ => ?_) fun g g' _ hstate hkey _ => ?_
  · refine retains_record fun hs hk => ?_
    obtain ⟨old, hold, _⟩ := hs
    rw [← hk, hkey] at hold
    rw [Option.mem_def, hnone] at hold
    cases hold
  · refine retains_record fun hs hk => ?_
    obtain ⟨old, hold, hdeleting⟩ := hs
    rw [← hk, hkey, Option.mem_def, keyMap_record, AList.lookup_insert] at hold
    rw [← Option.some.inj hold, hstate] at hdeleting
    cases hdeleting

theorem retains_deviceInitialAuditCompleted (s : Store τ κ) (completed : Bool) :
    Retains k s (s.deviceInitialAuditCompleted completed) :=
  respected_retains.deviceInitialAuditCompleted retains_of_sameGroups
    retains_storeGroupDescriptionInternal s completed

theorem retains_groupOperationFailed (hs : IsWellKeyed s)
    {operation : GroupOperation τ} (h : IsDeleting s k → Spares s k (.groupOperationFailed operation)) :
    Retains k s (s.groupOperationFailed operation) := by
  refine respected_retains.groupOperationFailed (fun g hg hcode hbuckets hpending => ?_)
    fun g _ => retains_putId s _
  refine respected_retains.addOrUpdateGroupEntry fun g' hg' => retains_record fun hdel hk => ?_
  rw [hs.ids _ g hg, hg] at hg'
  obtain rfl := Option.some.inj hg'
  rw [h hdel hcode g hg hk hbuckets] at hpending
  cases hpending

end Retention

section Audit

variable [DecidableEq τ] {k : κ}

/-- The table of the node has the groups of the other state, under the same keys. Those that are
being deleted are untouched. -/
structure KeepsIndex (s₀ s : Store τ κ) : Prop where
  wellKeyed : IsWellKeyed s
  backward : ∀ i g, s.idTable.lookup i = some g → ∃ g₀, s₀.idTable.lookup i = some g₀ ∧
    g₀.appCookie = g.appCookie ∧ (g₀.state = .pendingDelete → g.state = .pendingDelete)
  forward : ∀ i g₀, s₀.idTable.lookup i = some g₀ →
    ∃ g, s.idTable.lookup i = some g ∧ g.appCookie = g₀.appCookie

variable {s₀ s : Store τ κ}

section

omit [DecidableEq τ]

theorem keepsIndex_of_eq (hs : IsWellKeyed s) (h : s.idTable = s₀.idTable) : KeepsIndex s₀ s where
  wellKeyed := hs
  backward := by
    rw [h]
    exact fun i g hg => ⟨g, hg, rfl, fun hstate => hstate⟩
  forward := by
    rw [h]
    exact fun i g hg => ⟨g, hg, rfl⟩

theorem KeepsIndex.of_same {s₀ s s' : Store τ κ} (h : KeepsIndex s₀ s) (hs : IsWellKeyed s')
    (hsame : s'.idTable = s.idTable) : KeepsIndex s₀ s' := by
  refine ⟨hs, ?_, ?_⟩
  · rw [hsame]
    exact h.backward
  · rw [hsame]
    exact h.forward

theorem KeepsIndex.record (h : KeepsIndex s₀ s) {g g' : StoredGroup τ κ}
    (hg : s.idTable.lookup g'.id = some g) (hkey : g'.appCookie = g.appCookie)
    (hstate : g.state ≠ .pendingDelete) : KeepsIndex s₀ (s.record g') where
  wellKeyed := (h.wellKeyed.putKey g').putId g'
  backward := by
    intro i x hx
    rw [idTable_record, lookup_insert] at hx
    split_ifs at hx with hi
    · obtain rfl := Option.some.inj hx
      obtain ⟨g₀, hg₀, hkey₀, hdel⟩ := h.backward _ g hg
      rw [hi]
      exact ⟨g₀, hg₀, hkey₀.trans hkey.symm, fun hstate₀ => absurd (hdel hstate₀) hstate⟩
    · exact h.backward i x hx
  forward := by
    intro i g₀ hg₀
    rw [idTable_record]
    by_cases hi : i = g'.id
    · obtain ⟨x, hx, hkey₀⟩ := h.forward i g₀ hg₀
      rw [hi, hg] at hx
      obtain rfl := Option.some.inj hx
      exact ⟨g', by rw [hi]; exact AList.lookup_insert s.idTable, hkey.trans hkey₀⟩
    · obtain ⟨x, hx, hkey₀⟩ := h.forward i g₀ hg₀
      exact ⟨x, (AList.lookup_insert_ne hi).trans hx, hkey₀⟩

end

def RetainsIndexed (k : κ) (s₀ s s' : Store τ κ) : Prop :=
  KeepsIndex s₀ s → KeepsIndex s₀ s' ∧ Retains k s s'

omit [DecidableEq τ] in
theorem respected_retainsIndexed (s₀ : Store τ κ) : Respected (RetainsIndexed k s₀) where
  trans := by
    intro s s' s'' h h' hkeep
    obtain ⟨hkeep', hretains⟩ := h hkeep
    obtain ⟨hkeep'', hretains'⟩ := h' hkeep'
    exact ⟨hkeep'', respected_retains.trans hretains hretains'⟩
  same := by
    intro s s' h _ hkeep
    refine ⟨hkeep.of_same ?_ h.idTable, retains_of_sameGroups h⟩
    exact closed_isWellKeyed.any h hkeep.wellKeyed
  removal := by
    intro s j hkeep
    exact ⟨hkeep.of_same (hkeep.wellKeyed.removeKey j) (idTable_removeKey s j), retains_removeKey s j⟩

def IsAudited (s₀ : Store τ κ) (k : κ) (g : StoredGroup τ κ) : Prop :=
  s₀.keyMap.lookup g.appCookie = some g ∧ (g.appCookie = k → g.state = .pendingDelete)

theorem retainsIndexed_updateGroupEntryStats (hfollow : IsFollowed s₀ k)
    (s : Store τ κ) (group : Group τ) (g : StoredGroup τ κ) (hg : IsAudited s₀ k g)
    (hid : g.id = group.id) : RetainsIndexed k s₀ s (s.updateGroupEntryStats group) := by
  intro hkeep
  refine (respected_retainsIndexed s₀).updateGroupEntryStats (fun h hh hstate hkeep => ?_) hkeep
  have hown : s.idTable.lookup (confirmed group h).id = some h := by
    change s.idTable.lookup h.id = some h
    rw [hkeep.wellKeyed.ids _ h hh]
    exact hh
  refine ⟨hkeep.record hown rfl hstate, retains_record fun _ hk => absurd ?_ hstate⟩
  obtain ⟨h₀, hh₀, hkey₀, hdel⟩ := hkeep.backward _ h hh
  rw [← hid] at hh₀
  have hk₀ : h₀.appCookie = k := hkey₀.trans hk
  have hgk : g.appCookie = k :=
    hfollow.alone g ((mem_values_iff _ _).mpr ⟨_, hg.1⟩) h₀ hh₀ hk₀
  have hdeleting : IsDeleting s₀ k := ⟨g, hgk ▸ hg.1, hg.2 hgk⟩
  exact hdel (hfollow.deleting hdeleting h₀ ((mem_values_iff _ _).mpr ⟨_, hh₀⟩) hk₀)

omit [DecidableEq τ] in
theorem retainsIndexed_missing (s : Store τ κ) (g : StoredGroup τ κ)
    (hg : IsAudited s₀ k g) (hstate : g.state ≠ .pendingDelete) :
    RetainsIndexed k s₀ s (s.putKey { g with state := .pendingAddRetry }) := by
  intro hkeep
  refine ⟨hkeep.of_same (hkeep.wellKeyed.putKey _) rfl, retains_putKey fun _ hk => ?_⟩
  exact absurd (hg.2 hk) hstate

variable {cfg : Config} {hashCode : Group τ → ℤ} {isAvailable : Bool}

theorem isAudited_of_mem_collected (hs : IsWellKeyed s) {groupEntries : List (Group τ)}
    (hdel : IsDeleting (collected cfg hashCode (localMaster isAvailable) s groupEntries).1 k)
    {g : StoredGroup τ κ}
    (hg : g ∈ (collected cfg hashCode (localMaster isAvailable) s groupEntries).2.2) :
    IsAudited s k g := by
  obtain ⟨hlookup, hlookup'⟩ := lookup_of_mem_collected hs hg
  refine ⟨hlookup, ?_⟩
  rintro rfl
  obtain ⟨x, hx, hstate⟩ := hdel
  rw [Option.mem_def, hlookup'] at hx
  rw [Option.some.inj hx]
  exact hstate

theorem retains_pushGroupMetrics (hs : IsWellKeyed s) {groupEntries : List (Group τ)}
    (hdel : IsDeleting (collected cfg hashCode (localMaster isAvailable) s groupEntries).1 k)
    (hfollow : IsFollowed s k) :
    Retains k (collected cfg hashCode (localMaster isAvailable) s groupEntries).1
      (s.pushGroupMetrics cfg hashCode (localMaster isAvailable) groupEntries) := by
  have hkeep : KeepsIndex s (collected cfg hashCode (localMaster isAvailable) s groupEntries).1 :=
    keepsIndex_of_eq (isWellKeyed_collected hashCode _ hs groupEntries)
      (idTable_collected hashCode _ s groupEntries)
  have hreconcile := (respected_retainsIndexed s).reconcile cfg hashCode
    (retainsIndexed_updateGroupEntryStats hfollow) retainsIndexed_missing
    (collected cfg hashCode (localMaster isAvailable) s groupEntries).2.1 _ _
    (newHashSet (sameGroup hashCode) (values s.extraneous))
    (fun g hg => isAudited_of_mem_collected hs hdel hg) hkeep
  rw [pushGroupMetrics_of_master]
  split_ifs
  · exact hreconcile.2
  · exact respected_retains.trans hreconcile.2 (retains_deviceInitialAuditCompleted _ true)

end Audit

section Confirmation

variable {k : κ}

def Appends (s s' : Store τ κ) : Prop := s.events <+: s'.events ∧ s.notified <+: s'.notified

theorem appends_putKey (s : Store τ κ) (g : StoredGroup τ κ) : Appends s (s.putKey g) :=
  ⟨List.prefix_append _ _, List.prefix_rfl⟩

theorem appends_removeKey (s : Store τ κ) (j : κ) : Appends s (s.removeKey j) := by
  unfold removeKey
  split_ifs
  · exact ⟨List.prefix_append _ _, List.prefix_rfl⟩
  · exact ⟨List.prefix_rfl, List.prefix_rfl⟩

theorem closed_appends : Closed (Appends (τ := τ) (κ := κ)) where
  trans h h' := ⟨h.1.trans h'.1, h.2.trans h'.2⟩
  same h _ := ⟨h.events ▸ List.prefix_rfl, h.notified⟩
  any h := ⟨h.events ▸ List.prefix_rfl, h.notified⟩
  removal := appends_removeKey
  record := appends_putKey
  putKey := appends_putKey
  putId _ _ := ⟨List.prefix_rfl, List.prefix_rfl⟩

/-- The removal of the key, and the notification of it, happen between the two states. -/
def IsConfirmed (k : κ) (s s' : Store τ κ) : Prop := IsRemoved s s' k ∧ IsRemovalNotified s s' k

omit [DecidableEq κ] in
theorem IsConfirmed.extend {s₀ s s' s'' : Store τ κ} (h : IsConfirmed k s s')
    (hbefore : Appends s₀ s) (hafter : Appends s' s'') : IsConfirmed k s₀ s'' := by
  obtain ⟨⟨new, hnew, hmem⟩, ⟨told, g, htold, hg, hkey⟩⟩ := h
  obtain ⟨⟨e₀, he₀⟩, ⟨n₀, hn₀⟩⟩ := hbefore
  obtain ⟨⟨e, he⟩, ⟨n, hn⟩⟩ := hafter
  constructor
  · refine ⟨e₀ ++ new ++ e, ?_, List.mem_append_left e (List.mem_append_right e₀ hmem)⟩
    rw [← he, hnew, ← he₀]
    simp only [List.append_assoc]
  · refine ⟨n₀ ++ told ++ n, g, ?_, List.mem_append_left n (List.mem_append_right n₀ hg), hkey⟩
    rw [← hn, htold, ← hn₀]
    simp only [List.append_assoc]

theorem appends_missing (stored : List (StoredGroup τ κ)) (s : Store τ κ) :
    Appends s (stored.foldl groupMissing s) :=
  closed_appends.toRespected.foldl
    (fun s _ => closed_appends.toRespected.groupMissing fun _ => appends_putKey s _) stored s

theorem isConfirmed_removeKey {s s₁ : Store τ κ} (happend : Appends s s₁) (hretains : Retains k s s₁)
    (hdel : IsDeleting s k) {h : StoredGroup τ κ} (hk : h.appCookie = k) :
    IsConfirmed k s ((s₁.removeKey k).notify (.of .groupRemoved h)) := by
  obtain ⟨told, htold⟩ := happend.2
  obtain ⟨new, hnew, hretains⟩ := hretains
  have hnotified : (s₁.removeKey k).notified = s₁.notified := by
    unfold removeKey
    split_ifs <;> rfl
  refine ⟨?_, told ++ [.of .groupRemoved h], h, ?_, ?_, hk⟩
  · rcases hretains hdel with hmem | ⟨g, hg, _⟩
    · obtain ⟨more, hmore⟩ := (appends_removeKey s₁ k).1
      refine ⟨new ++ more, ?_, List.mem_append_left more hmem⟩
      exact hmore.symm.trans (by rw [hnew, List.append_assoc])
    · have hmem : k ∈ s₁.keyMap := AList.lookup_isSome.mp (Option.isSome_of_mem hg)
      refine ⟨new ++ [.remove k], ?_, by simp⟩
      rw [notify, removeKey, if_pos hmem, ← List.append_assoc, ← hnew]
  · rw [← List.append_assoc, htold, ← hnotified]
    rfl
  · exact List.mem_append_right told List.mem_cons_self

variable {stored : List (StoredGroup τ κ)}

theorem isConfirmed_missing {s₀ b s : Store τ κ} (hkeep : KeepsIndex s₀ s) (hbase : Appends b s)
    (hbase' : Retains k b s) (hdel : IsDeleting b k)
    (haudited : ∀ g ∈ stored, IsAudited s₀ k g) {g h : StoredGroup τ κ} (hg : g ∈ stored)
    (hstate : g.state = .pendingDelete) (hh : s₀.idTable.lookup g.id = some h)
    (hk : h.appCookie = k) : IsConfirmed k b (stored.foldl groupMissing s) := by
  obtain ⟨before, after, rfl⟩ := List.append_of_mem hg
  have happend := closed_appends.trans hbase (appends_missing before s)
  obtain ⟨hkeep', hretains⟩ := (respected_retainsIndexed (k := k) s₀).missing
    retainsIndexed_missing before s
    (fun x hx => haudited x (List.mem_append_left _ hx)) hkeep
  have hretains := respected_retains.trans hbase' hretains
  rw [List.foldl_append, List.foldl_cons]
  generalize before.foldl groupMissing s = s₁ at happend hkeep' hretains ⊢
  obtain ⟨h', hh', hkey⟩ := hkeep'.forward _ h hh
  have hmissing : s₁.groupMissing g = (s₁.removeKey h'.appCookie).notify (.of .groupRemoved h') := by
    unfold groupMissing removeGroupEntry
    rw [hstate]
    dsimp only
    rw [hh']
  have hremoved := isConfirmed_removeKey happend hretains hdel (hkey.trans hk)
  rw [hmissing, hkey, hk]
  exact hremoved.extend ⟨List.prefix_rfl, List.prefix_rfl⟩ (appends_missing after _)

variable [DecidableEq τ] (cfg : Config) (hashCode : Group τ → ℤ) (isAvailable : Bool)

variable {g : StoredGroup τ κ}

omit [DecidableEq κ] in
theorem mem_eraseP_same {group : Group τ} (hid : group.id ≠ g.id) (hg : g ∈ stored) :
    g ∈ stored.eraseP fun h => sameGroup hashCode group h.toGroup := by
  refine (List.mem_eraseP_of_neg fun hsame => hid ?_).mpr hg
  exact id_eq_of_sameGroup hsame

theorem mem_updateStats {southbound : List (Group τ)}
    (hid : ∀ group ∈ southbound, group.id ≠ g.id) (s : Store τ κ)
    (hg : g ∈ stored) : g ∈ (updateStats (sameGroup hashCode) southbound (s, stored)).2.2 := by
  induction southbound generalizing s stored with
  | nil => exact hg
  | cons group groups ih =>
    have hrest := fun x hx => hid x (List.mem_cons_of_mem group hx)
    rw [updateStats]
    split_ifs
    · exact ih hrest _ (mem_eraseP_same hashCode (hid group List.mem_cons_self) hg)
    · exact ih hrest s hg

section

omit [DecidableEq κ]

theorem mem_checkExtraneous {group : Group τ} (hid : group.id ≠ g.id)
    {r : Store τ κ × List (StoredGroup τ κ) × List (Group τ)}
    (hown : ∀ i x, r.1.idTable.lookup i = some x → x.id = i) (hg : g ∈ r.2.1) :
    g ∈ (checkExtraneous cfg (sameGroup hashCode) group r).2.1 := by
  unfold checkExtraneous
  cases hx : r.1.idTable.lookup group.id with
  | none => exact hg
  | some x => exact mem_eraseP_same hashCode (by rw [hown _ x hx]; exact hid) hg

theorem mem_foldl_checkExtraneous {groups : List (Group τ)}
    (hid : ∀ group ∈ groups, group.id ≠ g.id)
    (r : Store τ κ × List (StoredGroup τ κ) × List (Group τ))
    (hown : ∀ i x, r.1.idTable.lookup i = some x → x.id = i) (hg : g ∈ r.2.1) :
    g ∈ (groups.foldl (fun r group => checkExtraneous cfg (sameGroup hashCode) group r) r).2.1 := by
  induction groups generalizing r with
  | nil => exact hg
  | cons group groups ih =>
    have hsame := (checkExtraneous_same cfg (sameGroup hashCode) group r).1
    refine ih (fun x hx => hid x (List.mem_cons_of_mem group hx)) _ ?_ ?_
    · rw [hsame.idTable]
      exact hown
    · exact mem_checkExtraneous cfg hashCode (hid group List.mem_cons_self) hown hg

end

theorem mem_collected {s : Store τ κ} (hs : IsWellKeyed s) (hfollow : IsFollowed s k)
    (hg : s.keyMap.lookup k = some g) (hstate : g.state = .pendingDelete)
    (groupEntries : List (Group τ)) :
    g ∈ (collected cfg hashCode (localMaster isAvailable) s groupEntries).2.2 := by
  have hmem : g ∈ newHashSet (fun g h => sameGroup hashCode g.toGroup h.toGroup)
      (getStoredGroups (localMaster isAvailable) s) := by
    refine mem_newHashSet ((mem_values_iff _ _).mpr ⟨k, hg⟩) fun h hh hsame => ?_
    obtain ⟨j, hj⟩ := (mem_values_iff _ _).mp hh
    obtain ⟨x, hx, hxk⟩ := hfollow.found g hg
    have hid : h.id = g.id := id_eq_of_sameGroup hsame
    have hhk : h.appCookie = k := hfollow.alone h hh x (by rw [hid]; exact hx) hxk
    rw [← hs.keys j h hj, hhk, hg] at hj
    exact (Option.some.inj hj).symm
  unfold collected garbageCollect
  split_ifs
  · exact mem_collect hmem hstate _ _
  · exact hmem

theorem isConfirmed_reconcile {s₀ s : Store τ κ} (hfollow : IsFollowed s₀ k)
    (hkeep : KeepsIndex s₀ s) (hdel : IsDeleting s k)
    (haudited : ∀ g ∈ stored, IsAudited s₀ k g) (hg : g ∈ stored)
    (hlookup : s₀.keyMap.lookup k = some g) (hstate : g.state = .pendingDelete)
    {southbound : List (Group τ)} (hmissing : ∀ group ∈ southbound, group.id ≠ g.id)
    (extraneousStored : List (Group τ)) :
    IsConfirmed k s (reconcile cfg hashCode southbound (s, stored) extraneousStored) := by
  obtain ⟨h, hh, hk⟩ := hfollow.found g hlookup
  unfold reconcile
  dsimp only
  obtain ⟨hkeep', hretains⟩ := (respected_retainsIndexed s₀).updateStats hashCode
    (retainsIndexed_updateGroupEntryStats hfollow) southbound s stored haudited hkeep
  have happend := closed_appends.toRespected.updateStats hashCode (Q := fun _ => True)
    (fun s _ _ _ _ => closed_appends.toRespected.updateGroupEntryStats
      fun _ _ _ => closed_appends.record s _) southbound s stored fun _ _ => trivial
  have hleft := mem_updateStats hashCode hmissing s hg
  obtain ⟨hsouth, hsub⟩ := updateStats_sublist (sameGroup hashCode) southbound s stored
  generalize updateStats (sameGroup hashCode) southbound (s, stored) = u at *
  obtain ⟨hsame, _, hsub'⟩ := foldl_checkExtraneous_same cfg (sameGroup hashCode) u.2.1
    (u.1, u.2.2, extraneousStored)
  have hleft' := mem_foldl_checkExtraneous cfg hashCode
    (fun group hgroup => hmissing group (hsouth.subset hgroup)) (u.1, u.2.2, extraneousStored)
    hkeep'.wellKeyed.ids hleft
  generalize u.2.1.foldl (fun r group => checkExtraneous cfg (sameGroup hashCode) group r)
    (u.1, u.2.2, extraneousStored) = c at hsame hsub' hleft' ⊢
  have hconfirmed : IsConfirmed k s (c.2.1.foldl groupMissing c.1) :=
    isConfirmed_missing (hkeep'.of_same (closed_isWellKeyed.any hsame hkeep'.wellKeyed) hsame.idTable)
      (closed_appends.trans happend (closed_appends.any hsame))
      (respected_retains.trans hretains (retains_of_sameGroups hsame)) hdel
      (fun x hx => haudited x (hsub.subset (hsub'.subset hx))) hleft' hstate hh hk
  refine hconfirmed.extend ⟨List.prefix_rfl, List.prefix_rfl⟩ ?_
  have hremove : ∀ (s : Store τ κ) group, Appends s (s.removeExtraneousGroupEntry group) :=
    fun _ _ => ⟨List.prefix_rfl, List.prefix_rfl⟩
  exact closed_appends.toRespected.foldl hremove _ _

theorem isConfirmed_pushGroupMetrics {s : Store τ κ} (hs : IsWellKeyed s) (hfollow : IsFollowed s k)
    (hg : s.keyMap.lookup k = some g) (hstate : g.state = .pendingDelete)
    {groupEntries : List (Group τ)} (hmissing : ∀ group ∈ groupEntries, group.id ≠ g.id) :
    IsConfirmed k s (s.pushGroupMetrics cfg hashCode (localMaster isAvailable) groupEntries) := by
  have hmem := mem_collected cfg hashCode isAvailable hs hfollow hg hstate groupEntries
  have hdel : IsDeleting (collected cfg hashCode (localMaster isAvailable) s groupEntries).1 k :=
    ⟨g, hs.keys k g hg ▸ (lookup_of_mem_collected hs hmem).2, hstate⟩
  have hcollected := closed_appends.toRespected.collected cfg hashCode
    (localMaster isAvailable) (fun s j => closed_appends.toRespected.deleteGroupDescriptionInternal
      fun _ _ => appends_putKey s _) s groupEntries
  have hreconcile := isConfirmed_reconcile cfg hashCode hfollow
    (keepsIndex_of_eq (isWellKeyed_collected hashCode _ hs groupEntries)
      (idTable_collected hashCode _ s groupEntries)) hdel
    (fun x hx => isAudited_of_mem_collected hs hdel hx) hmem hg hstate
    (fun group hgroup => hmissing group
      (southbound_collected cfg hashCode (localMaster isAvailable) s groupEntries hgroup))
    (newHashSet (sameGroup hashCode) (values s.extraneous))
  rw [pushGroupMetrics_of_master]
  split_ifs
  · exact hreconcile.extend hcollected ⟨List.prefix_rfl, List.prefix_rfl⟩
  · refine hreconcile.extend hcollected ?_
    exact closed_appends.toRespected.deviceInitialAuditCompleted closed_appends.any
      closed_appends.storeGroupDescriptionInternal _ true

end Confirmation

section Runs

variable [DecidableEq τ] {cfg : Config} {hashCode : Group τ → ℤ} {isAvailable : Bool} {k : κ}

omit [DecidableEq τ] in
theorem Retains.isRemoved {s₀ s s' : Store τ κ} (h : Retains k s s') (hdel : IsDeleting s k)
    (happend : s₀.events <+: s.events) : IsDeleting s' k ∨ IsRemoved s₀ s' k := by
  obtain ⟨new, hnew, hretains⟩ := h
  obtain ⟨more, hmore⟩ := happend
  refine (hretains hdel).symm.imp_right fun hmem => ⟨more ++ new, ?_, List.mem_append_right more hmem⟩
  rw [hnew, ← hmore, List.append_assoc]

variable {s : Store τ κ}

theorem keyMap_receiveEvent (hs : IsWellKeyed s) : s.receiveEvent.keyMap = s.keyMap := by
  unfold receiveEvent
  cases s.events with
  | nil => rfl
  | cons e es =>
    have hpop : IsWellKeyed { s with events := es } := ⟨hs.keys, hs.ids⟩
    exact congrArg Indexed.table (indexed_handleEvent hpop e)

theorem deleting_step (hs : IsWellKeyed s) (x : Call τ κ)
    (hdel : IsDeleting (afterDeletions cfg hashCode isAvailable s x) k) (h : Spares s k x) :
    IsDeleting (s.perform cfg hashCode isAvailable x) k ∨
      IsRemoved s (s.perform cfg hashCode isAvailable x) k := by
  have hR := respected_retains (τ := τ) (k := k)
  have hof : ∀ {s'}, IsDeleting s k → Retains k s s' → IsDeleting s' k ∨ IsRemoved s s' k :=
    fun hdel hretains => hretains.isRemoved hdel List.prefix_rfl
  cases x with
  | storeGroupDescription groupDesc => exact hof hdel (retains_storeGroupDescriptionInternal s groupDesc)
  | updateGroupDescription old type newBuckets newKey =>
    refine hof hdel (hR.updateGroupDescriptionInternal fun x g hx hg => ?_)
    exact retains_putKey fun _ hk => absurd hk (h x hx g hg)
  | deleteGroupDescription j => exact Or.inl hdel
  | addOrUpdateGroupEntry group =>
    refine hof hdel (hR.addOrUpdateGroupEntry fun g hg => ?_)
    exact retains_record fun _ hk => absurd hk (h g hg)
  | removeGroupEntry group => exact hof hdel (hR.removeGroupEntry s group)
  | purgeGroupEntry => exact hof hdel (hR.purgeGroupEntry s)
  | deviceInitialAuditCompleted completed =>
    exact hof hdel (retains_deviceInitialAuditCompleted s completed)
  | groupOperationFailed operation =>
    exact hof hdel (retains_groupOperationFailed hs fun _ => h)
  | addOrUpdateExtraneousGroupEntry | removeExtraneousGroupEntry | takeId => exact Or.inl hdel
  | pushGroupMetrics groupEntries =>
    refine (retains_pushGroupMetrics hs hdel h).isRemoved hdel ?_
    exact (closed_appends.toRespected.collected cfg hashCode (localMaster isAvailable)
      (fun s j => closed_appends.toRespected.deleteGroupDescriptionInternal
        fun _ _ => appends_putKey s _) s groupEntries).1
  | receive =>
    refine Or.inl ?_
    unfold IsDeleting
    rw [perform, keyMap_receiveEvent hs]
    exact hdel

omit [DecidableEq τ] in
theorem isDeleting_deleteGroupDescriptionInternal (hdel : IsDeleting s k) (j : κ) :
    IsDeleting (s.deleteGroupDescriptionInternal j) k := by
  unfold deleteGroupDescriptionInternal
  cases s.keyMap.lookup j with
  | none => exact hdel
  | some g =>
    exact isDeleting_putKey (g := { g with state := .pendingDelete }) (fun _ _ => rfl) hdel

theorem deleting_collected (hs : IsWellKeyed s) (hdel : IsDeleting s k)
    (groupEntries : List (Group τ)) :
    IsDeleting (collected cfg hashCode (localMaster isAvailable) s groupEntries).1 k := by
  obtain ⟨g, hg, hstate⟩ := hdel
  refine ⟨g, ?_, hstate⟩
  unfold collected garbageCollect
  split_ifs
  · have hkey := hs.keys k g hg
    have hsub := newHashSet_sublist (fun g h : StoredGroup τ κ =>
      sameGroup hashCode g.toGroup h.toGroup) (getStoredGroups (localMaster isAvailable) s)
    by_cases hmem : ∃ h ∈ newHashSet (fun g h : StoredGroup τ κ =>
        sameGroup hashCode g.toGroup h.toGroup) (getStoredGroups (localMaster isAvailable) s),
        h.appCookie = k
    · obtain ⟨h, hh, hhk⟩ := hmem
      obtain ⟨j, hj⟩ := (mem_values_iff _ _).mp (hsub.subset hh)
      have hgh : g = h := by
        rw [← hs.keys j h hj, hhk, Option.mem_def.mp hg] at hj
        exact Option.some.inj hj
      subst hgh
      refine Option.mem_def.mpr (Eq.trans ?_ hg)
      rw [← hkey]
      exact lookup_collect ((pairwise_values hs.keys).sublist hsub) hs _ (mem_collect hh hstate _ _)
    · refine Option.mem_def.mpr (Eq.trans (lookup_collect_of_ne _ hs _ ?_) hg)
      exact fun h hh heq => hmem ⟨h, hh, heq.symm⟩
  · exact hg

theorem deleting_afterDeletions (cfg : Config) (hashCode : Group τ → ℤ) (isAvailable : Bool)
    (hs : IsWellKeyed s) (hdel : IsDeleting s k) (x : Call τ κ) : IsDeleting (afterDeletions cfg hashCode isAvailable s x) k := by
  cases x with
  | deleteGroupDescription j => exact isDeleting_deleteGroupDescriptionInternal hdel j
  | pushGroupMetrics groupEntries => exact deleting_collected hs hdel groupEntries
  | storeGroupDescription | updateGroupDescription | addOrUpdateGroupEntry | removeGroupEntry
  | purgeGroupEntry | deviceInitialAuditCompleted | groupOperationFailed
  | addOrUpdateExtraneousGroupEntry | removeExtraneousGroupEntry | takeId | receive => exact hdel

/-- The group is being deleted at the end of the run, unless a step of the run has removed it. -/
def StaysUntilRemoved (M : Machine (Store τ κ) (Call τ κ)) (s : Store τ κ) (k : κ)
    (xs : List (Call τ κ)) : Prop :=
  IsDeleting (M.run s xs) k ∨
    ∃ ys x zs, xs = ys ++ x :: zs ∧ IsRemoved (M.run s ys) (M.run s (ys ++ [x])) k

/-- The steps of the run spare the group for as long as it is being deleted. -/
def sparing (cfg : Config) (hashCode : Group τ → ℤ) (isAvailable : Bool) (k : κ) :
    Machine (Store τ κ) (Call τ κ) :=
  (machine cfg hashCode isAvailable).guarded fun s x =>
    IsDeleting (afterDeletions cfg hashCode isAvailable s x) k → Spares s k x

theorem staysUntilRemoved_run (hs : IsWellKeyed s) {xs : List (Call τ κ)}
    (hv : (sparing cfg hashCode isAvailable k).Valid s xs) (hdel : IsDeleting s k) :
    StaysUntilRemoved (machine cfg hashCode isAvailable) s k xs := by
  induction xs generalizing s with
  | nil => exact Or.inl hdel
  | cons x xs ih =>
    obtain ⟨⟨_, hspares⟩, hrest⟩ := hv
    have hdel' := deleting_afterDeletions cfg hashCode isAvailable hs hdel x
    rcases deleting_step hs x hdel' (hspares hdel') with h | h
    · rcases ih (isWellKeyed_perform cfg hashCode isAvailable hs x) hrest h with h | ⟨ys, y, zs, rfl, h⟩
      · exact Or.inl h
      · exact Or.inr ⟨x :: ys, y, zs, rfl, h⟩
    · exact Or.inr ⟨[], x, xs, rfl, h⟩

/-- Deleted before the audit, and no longer on the switch: removed, and the delegate told. -/
def IsConfirmedByReport (M : Machine (Store τ κ) (Call τ κ)) (s : Store τ κ) (k : κ)
    (xs : List (Call τ κ)) : Prop :=
  ∀ ys groupEntries zs, xs = ys ++ .pushGroupMetrics groupEntries :: zs →
    ∀ g ∈ (M.run s ys).keyMap.lookup k, g.state = .pendingDelete →
      (∀ group ∈ groupEntries, group.id ≠ g.id) →
      IsConfirmed k (M.run s ys) (M.run s (ys ++ [.pushGroupMetrics groupEntries]))

theorem isWellKeyed_run (cfg : Config) (hashCode : Group τ → ℤ) (isAvailable : Bool)
    (hs : IsWellKeyed s) (xs : List (Call τ κ)) :
    IsWellKeyed ((machine cfg hashCode isAvailable).run s xs) :=
  invariant_run IsWellKeyed (fun _ x hs _ => isWellKeyed_perform cfg hashCode isAvailable hs x)
    (valid_of_enabled (M := machine cfg hashCode isAvailable) (fun _ _ => trivial) s xs) hs

theorem isConfirmedByReport_run (hs : IsWellKeyed s) {xs : List (Call τ κ)}
    (hv : (sparing cfg hashCode isAvailable k).Valid s xs) :
    IsConfirmedByReport (machine cfg hashCode isAvailable) s k xs := by
  rintro ys groupEntries zs rfl g hg hstate hmissing
  have hwell := isWellKeyed_run cfg hashCode isAvailable hs ys
  obtain ⟨⟨_, hspares⟩, _⟩ := ((valid_append _ s ys _).mp hv).2
  have hdel := deleting_afterDeletions cfg hashCode isAvailable hwell ⟨g, hg, hstate⟩ (.pushGroupMetrics groupEntries)
  rw [run_append]
  exact isConfirmed_pushGroupMetrics cfg hashCode isAvailable hwell (hspares hdel) hg hstate hmissing

/-- A deletion lasts until the group is removed, and a report without the group removes it, in every
run on the master whose steps spare the group. -/
theorem deletion_lasts (cfg : Config) (hashCode : Group τ → ℤ) (isAvailable : Bool) (k : κ)
    (xs : List (Call τ κ)) (x : Call τ κ) (ys : List (Call τ κ))
    (hdel : IsDeleting (afterDeletions cfg hashCode isAvailable
      ((machine cfg hashCode isAvailable).run empty xs) x) k)
    (hv : (sparing cfg hashCode isAvailable k).Valid
      ((machine cfg hashCode isAvailable).run empty xs) (x :: ys)) :
    StaysUntilRemoved (machine cfg hashCode isAvailable)
        ((machine cfg hashCode isAvailable).run empty xs) k (x :: ys) ∧
      IsConfirmedByReport (machine cfg hashCode isAvailable)
        ((machine cfg hashCode isAvailable).run empty xs) k (x :: ys) := by
  have hs := isWellKeyed_run cfg hashCode isAvailable isWellKeyed_empty xs
  refine ⟨?_, isConfirmedByReport_run hs hv⟩
  obtain ⟨⟨_, hspares⟩, hrest⟩ := hv
  rcases deleting_step hs x hdel (hspares hdel) with h | h
  · rcases staysUntilRemoved_run (isWellKeyed_perform cfg hashCode isAvailable hs x) hrest h with h | ⟨zs, y, rest, rfl, h⟩
    · exact Or.inl h
    · exact Or.inr ⟨x :: zs, y, rest, rfl, h⟩
  · exact Or.inr ⟨[], x, ys, rfl, h⟩

end Runs

section Example

instance decidableSparingEnabled {τ κ : Type} [DecidableEq τ] [DecidableEq κ] (cfg : Config)
    (hashCode : Group τ → ℤ) (isAvailable : Bool) (k : κ) (s : Store τ κ) (x : Call τ κ) :
    Decidable ((sparing cfg hashCode isAvailable k).enabled s x) :=
  inferInstanceAs (Decidable (True ∧ (_ → _)))

def plainGroup : GroupDescription ℕ ℕ := ⟨.all, [], 1, none, by decide⟩

def plainConfig : Config := ⟨false, 0, false⟩

def plainCalls : List (Call ℕ ℕ) :=
  [.deviceInitialAuditCompleted true, .storeGroupDescription plainGroup, .receive]

theorem deletion_lasts_plain : StaysUntilRemoved (machine plainConfig (fun _ => 0) true)
        ((machine plainConfig (fun _ => 0) true).run empty plainCalls) 1
        [.deleteGroupDescription 1, .receive, .pushGroupMetrics []] ∧
      IsConfirmedByReport (machine plainConfig (fun _ => 0) true)
        ((machine plainConfig (fun _ => 0) true).run empty plainCalls) 1
        [.deleteGroupDescription 1, .receive, .pushGroupMetrics []] :=
  deletion_lasts plainConfig (fun _ => 0) true 1 plainCalls (.deleteGroupDescription 1)
    [.receive, .pushGroupMetrics []] (by decide) (by decide)

/-- An update of a group that is being deleted: the next report without the group adds it again. -/
theorem deleted_group_added_again : IsDeleting ((machine plainConfig (fun _ => 0) true).run empty
        (plainCalls ++ [.deleteGroupDescription 1, .receive])) 1 ∧
      ¬ StaysUntilRemoved (machine plainConfig (fun _ => 0) true)
        ((machine plainConfig (fun _ => 0) true).run empty
          (plainCalls ++ [.deleteGroupDescription 1, .receive])) 1
        [.updateGroupDescription 1 .set [] none, .receive, .pushGroupMetrics []] := by
  refine ⟨by decide, ?_⟩
  rintro (h | ⟨ys, x, zs, hsplit, new, hnew, hmem⟩)
  · exact absurd h (by decide)
  · have hnone : ∀ p ∈ ([.updateGroupDescription 1 .set [] none, .receive, .pushGroupMetrics []] :
        List (Call ℕ ℕ)).inits, Change.remove 1 ∉ ((machine plainConfig (fun _ => 0) true).run
          ((machine plainConfig (fun _ => 0) true).run empty
            (plainCalls ++ [.deleteGroupDescription 1, .receive])) p).events := by
      decide
    refine hnone (ys ++ [x]) ((List.mem_inits _ _).mpr ⟨zs, ?_⟩) ?_
    · rw [hsplit, List.append_assoc]
      rfl
    · rw [hnew]
      exact List.mem_append_right _ hmem

end Example

end GroupStore.Store

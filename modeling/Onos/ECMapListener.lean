import Onos.ECMapAntiEntropy

/-! What a listener can tell from its events. Replayed into an empty map, they give the live
entries of the replica after every operation. -/
namespace ECMapListener

open KeyedMap ECMapReplica ECMapReplica.Replica ECMapWrites

inductive MapOperation (K V T N : Type*) where
  | put (key : K) (value : V) (timestamp : Option T) (now : ℕ) (peers : List N)
  | remove (key : K) (value : Option V) (timestamp : Option T) (now : ℕ) (peers : List N)
  | compute (key : K) (recomputeFunction : Option V → Option V) (timestamp : Option T) (now : ℕ)
    (peers : List N)
  | clear (timestamp : K → Option T) (now : ℕ) (peers : K → List N)
  | processUpdates (now : ℕ) (updates : List (UpdateEntry K V T))
  | handleAntiEntropyAdvertisement (ad : AntiEntropyAdvertisement K T N) (now : ℕ)
    (underHighLoad : Bool)
  | handleUpdateRequests (request : UpdateRequest K N)
  | advertisementAnswered (peer : N) (adCreationTime : ℕ) (response : AntiEntropyResponse)
  | purgeTombstones (peers : List N)

variable {K V T N : Type*} [DecidableEq K]

def applyEvent (m : Table K V) (event : Event K V) : Table K V :=
  match event.type with
  | .PUT => KeyedMap.put m event.key (some event.value)
  | .REMOVE => KeyedMap.put m event.key none

def replay (events : List (Event K V)) : Table K V := events.foldl applyEvent ∅

def Describes (events : List (Event K V)) (items : Table K (MapValue V T)) : Prop :=
  ∀ key, (replay events).lookup key = (items.lookup key).bind MapValue.value

theorem replay_append (events : List (Event K V)) (event : Event K V) :
    replay (events ++ [event]) = applyEvent (replay events) event := by
  rw [replay, List.foldl_append]
  rfl

theorem describes_write {events : List (Event K V)} {items : Table K (MapValue V T)}
    (h : Describes events items) (key : K) (item : Option (MapValue V T)) :
    Describes (events ++ (announced key item (items.lookup key)).toList)
      (KeyedMap.put items key item) := by
  intro j
  rw [lookup_put]
  unfold announced removed
  cases hitem : item.bind MapValue.value with
  | some value =>
    dsimp only
    rw [Option.toList_some, replay_append, applyEvent, lookup_put]
    split_ifs with hj
    · exact hitem.symm
    · exact h j
  | none =>
    cases hexisting : (items.lookup key).bind MapValue.value with
    | none =>
      dsimp only
      rw [Option.map_none, Option.toList_none, List.append_nil, h j]
      split_ifs with hj
      · rw [hj, hexisting, hitem]
      · rfl
    | some value =>
      dsimp only
      rw [Option.map_some, Option.toList_some, replay_append, applyEvent, lookup_put]
      split_ifs with hj
      · exact hitem.symm
      · exact h j

def Informed (r : Replica K V T N) : Prop := Describes r.events r.items

theorem informed_wrote [DecidableEq N] {r r' : Replica K V T N} (h : Informed r) {key : K}
    {item : Option (MapValue V T)} (hw : Wrote r r' key item) : Informed r' := by
  rw [Informed]
  rw [hw.items, hw.events]
  exact describes_write h key item

theorem lookup_told (es : List (Sigma fun _ : K => MapValue V T)) (hes : es.NodupKeys)
    (m : Table K V) (key : K) :
    ((es.filterMap fun e => e.2.value.map fun v => (⟨.PUT, e.1, v⟩ : Event K V)).foldl
      applyEvent m).lookup key = ((es.dlookup key).bind MapValue.value).or (m.lookup key) := by
  induction es generalizing m with
  | nil => rfl
  | cons e es ih =>
    obtain ⟨hnot, hnodup⟩ := List.nodupKeys_cons.mp hes
    obtain ⟨j, v⟩ := e
    have hother : key = j → es.dlookup key = none :=
      fun hj => List.dlookup_eq_none.mpr (hj ▸ hnot)
    cases hv : v.value with
    | none =>
      rw [List.filterMap_cons_none (by simp [hv]), ih hnodup]
      by_cases hj : key = j
      · rw [hother hj]
        subst hj
        rw [List.dlookup_cons_eq, Option.bind_some, hv]
        rfl
      · rw [List.dlookup_cons_ne _ _ hj]
    | some value =>
      have htold : (v.value.map fun v => (⟨.PUT, j, v⟩ : Event K V)) =
          some ⟨.PUT, j, value⟩ := by rw [hv, Option.map_some]
      simp only [List.filterMap_cons, htold, List.foldl_cons]
      rw [ih hnodup, applyEvent, lookup_put]
      by_cases hj : key = j
      · rw [hother hj]
        subst hj
        rw [List.dlookup_cons_eq, Option.bind_some, hv, if_pos rfl]
        rfl
      · rw [List.dlookup_cons_ne _ _ hj, if_neg hj]

theorem informed_addListener (r : Replica K V T N) : Informed r.addListener := by
  intro key
  refine (lookup_told r.items.entries r.items.nodupKeys ∅ key).trans ?_
  exact Option.or_none

section Operations
variable [LinearOrder T] [DecidableEq V] [DecidableEq N]

variable {r : Replica K V T N}

theorem informed_clear (h : Informed r) (timestamp : K → Option T)
    (now : ℕ) (peers : K → List N) : Informed (r.clear timestamp now peers) := by
  rw [clear]
  generalize r.keySet = keys
  induction keys generalizing r with
  | nil => exact h
  | cons key keys ih =>
    rw [List.foldl_cons]
    apply ih
    rcases removeAndNotify_cases r key none (timestamp key) now (peers key) with he | ⟨_, hw⟩
    · rw [he]
      exact h
    · exact informed_wrote h hw

theorem informed_processUpdates (h : Informed r) (now : ℕ)
    (updates : List (UpdateEntry K V T)) : Informed (r.processUpdates now updates) := by
  rw [processUpdates]
  induction updates generalizing r with
  | nil => exact h
  | cons u updates ih =>
    rw [List.foldl_cons]
    apply ih
    rcases processUpdate_cases r now u with he | ⟨_, hw⟩
    · rw [he]
      exact h
    · exact informed_wrote h hw

theorem describes_checkLocalItem {c : LocalCheck K V T N}
    (h : Describes (c.replica.events ++ c.externalEvents) c.replica.items)
    (ad : AntiEntropyAdvertisement K T N) (now : ℕ) (key : K) (localValue : MapValue V T) :
    Describes ((checkLocalItem ad now c key localValue).replica.events ++
        (checkLocalItem ad now c key localValue).externalEvents)
      (checkLocalItem ad now c key localValue).replica.items := by
  rw [checkLocalItem]
  cases ad.digest.lookup key with
  | none => exact h
  | some remote =>
    dsimp only
    split_ifs
    · exact h
    · rcases removeInternal_cases c.replica key none
        (some (.tombstone remote.timestamp now)) with he | ⟨_, he⟩
      · rw [he]
        simpa [removed] using h
      · rw [he]
        have hwrite := describes_write h key (some (.tombstone remote.timestamp now))
        rw [List.append_assoc] at hwrite
        exact hwrite
    · exact h
    · exact h

theorem informed_handled (h : Informed r)
    (ad : AntiEntropyAdvertisement K T N) (now : ℕ) (underHighLoad : Bool) :
    Informed (r.handleAntiEntropyAdvertisement ad now underHighLoad).1 := by
  cases underHighLoad with
  | true => exact h
  | false =>
    have hfold : ∀ (es : List (Sigma fun _ : K => MapValue V T)) (c : LocalCheck K V T N),
        Describes (c.replica.events ++ c.externalEvents) c.replica.items →
        Describes
          ((es.foldl (fun c e => checkLocalItem ad now c e.1 e.2) c).replica.events ++
            (es.foldl (fun c e => checkLocalItem ad now c e.1 e.2) c).externalEvents)
          (es.foldl (fun c e => checkLocalItem ad now c e.1 e.2) c).replica.items := by
      intro es
      induction es with
      | nil => exact fun _ hc => hc
      | cons e es ih => exact fun c hc => ih _ (describes_checkLocalItem hc ad now e.1 e.2)
    have hstart : Describes (r.events ++ []) r.items := by
      rw [List.append_nil]
      exact h
    have hcheck := hfold r.items.entries ⟨r, [], []⟩ hstart
    have hnotify : ∀ (events : List (Event K V)) (r : Replica K V T N),
        (events.foldl notifyListeners r).events = r.events ++ events := by
      intro events
      induction events with
      | nil => exact fun r => (List.append_nil _).symm
      | cons event events ih => exact fun r => (ih _).trans (List.append_assoc _ _ _)
    rw [Informed]
    unfold handleAntiEntropyAdvertisement antiEntropyCheckLocalItems
    simp only [Bool.false_eq_true, if_false]
    rw [hnotify, (ECMapAntiEntropy.notified _ _).1]
    exact hcheck

section

omit [LinearOrder T] [DecidableEq V]

theorem get_purgeTombstones (r : Replica K V T N) (peers : List N) (key : K) :
    (r.purgeTombstones peers).get key = r.get key := by
  have hfold : ∀ (keys : List K) (items : Table K (MapValue V T)),
      (∀ k ∈ keys, (items.lookup k).bind MapValue.value = none) →
      ((keys.foldl (fun items k => items.erase k) items).lookup key).bind MapValue.value =
        (items.lookup key).bind MapValue.value := by
    intro keys
    induction keys with
    | nil => exact fun _ _ => rfl
    | cons k keys ih =>
      intro items hdead
      obtain ⟨hk, hkeys⟩ := List.forall_mem_cons.mp hdead
      have herase : ∀ j, ((items.erase k).lookup j).bind MapValue.value =
          (items.lookup j).bind MapValue.value := by
        intro j
        by_cases hj : j = k
        · rw [hj, AList.lookup_erase, hk]
          rfl
        · rw [AList.lookup_erase_ne hj]
      rw [List.foldl_cons, ih _ fun j hj => (herase j).trans (hkeys j hj), herase]
  unfold purgeTombstones
  dsimp only
  split_ifs
  · rfl
  · refine hfold _ r.items fun k hk => ?_
    obtain ⟨⟨_, v⟩, he, rfl⟩ := List.mem_map.mp hk
    obtain ⟨he, hdead⟩ := List.mem_filter.mp he
    rw [(mem_entries_iff _ _ _).mp he]
    exact Option.isNone_iff_eq_none.mp (Bool.and_eq_true_iff.mp hdead).1

theorem informed_purgeTombstones (h : Informed r) (peers : List N) :
    Informed (r.purgeTombstones peers) := by
  intro key
  rw [(purgeTombstones_frame r peers).2.2, h key]
  exact (get_purgeTombstones r peers key).symm

end

def perform (r : Replica K V T N) : MapOperation K V T N → Replica K V T N
  | .put key value timestamp now peers => (r.put key value timestamp now peers).getD r
  | .remove key value timestamp now peers => r.removeAndNotify key value timestamp now peers
  | .compute key recomputeFunction timestamp now peers =>
    (r.compute key recomputeFunction timestamp now peers).getD r
  | .clear timestamp now peers => r.clear timestamp now peers
  | .processUpdates now updates => r.processUpdates now updates
  | .handleAntiEntropyAdvertisement ad now underHighLoad =>
    (r.handleAntiEntropyAdvertisement ad now underHighLoad).1
  | .handleUpdateRequests request => r.handleUpdateRequests request
  | .advertisementAnswered peer adCreationTime response =>
    r.advertisementAnswered peer adCreationTime response
  | .purgeTombstones peers => r.purgeTombstones peers

theorem informed_perform (h : Informed r) (x : MapOperation K V T N) : Informed (perform r x) := by
  cases x with
  | put key value timestamp now peers =>
    simp only [perform]
    cases hp : r.put key value timestamp now peers with
    | none => exact h
    | some r' =>
      rcases put_cases hp with rfl | ⟨_, _, _, hw⟩
      · exact h
      · exact informed_wrote h hw
  | remove key value timestamp now peers =>
    simp only [perform]
    rcases removeAndNotify_cases r key value timestamp now peers with he | ⟨_, hw⟩
    · rw [he]
      exact h
    · exact informed_wrote h hw
  | compute key recomputeFunction timestamp now peers =>
    simp only [perform]
    cases hp : r.compute key recomputeFunction timestamp now peers with
    | none => exact h
    | some r' =>
      rcases compute_cases hp with rfl | ⟨_, _, _, hw⟩
      · exact h
      · exact informed_wrote h hw
  | clear timestamp now peers => exact informed_clear h timestamp now peers
  | processUpdates now updates => exact informed_processUpdates h now updates
  | handleAntiEntropyAdvertisement ad now underHighLoad =>
    exact informed_handled h ad now underHighLoad
  | handleUpdateRequests request =>
    intro key
    simp only [perform]
    rw [(handleUpdateRequests_frame r request).1, (handleUpdateRequests_frame r request).2.2]
    exact h key
  | advertisementAnswered peer adCreationTime response =>
    intro key
    have hframe := advertisementAnswered_frame r peer adCreationTime response
    simp only [perform]
    rw [hframe.1, hframe.2.2.2]
    exact h key
  | purgeTombstones peers => exact informed_purgeTombstones h peers

theorem informed_run (h : Informed r) (xs : List (MapOperation K V T N)) :
    Informed (xs.foldl perform r) := by
  induction xs generalizing r with
  | nil => exact h
  | cons x xs ih => exact ih (informed_perform h x)

/-- Whatever happens after a listener is added, the replay of its events has the live entries
and the keys of the map. -/
theorem replay_is_live_view (r : Replica K V T N) (xs : List (MapOperation K V T N)) (key : K) :
    (replay (xs.foldl perform r.addListener).events).lookup key =
        (xs.foldl perform r.addListener).get key ∧
      (key ∈ (replay (xs.foldl perform r.addListener).events).keys ↔
        key ∈ (xs.foldl perform r.addListener).keySet) := by
  have hrun := informed_run (informed_addListener r) xs key
  refine ⟨hrun, ?_⟩
  rw [mem_keys_iff, mem_keySet, Option.ne_none_iff_exists', hrun]
  rfl

end Operations

end ECMapListener

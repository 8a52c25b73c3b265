import Onos.ECMapReplica

/-! What the operations of a replica do to it. Each of them writes at most one item, or queues
updates, or does one such thing key after key; every write announces the event that tells it. -/
namespace ECMapWrites

open KeyedMap ECMapReplica ECMapReplica.Replica

variable {K V T N : Type*} [LinearOrder T] [DecidableEq K] [DecidableEq V] [DecidableEq N]

def QueuesOnly (P : N → UpdateEntry K V T → Prop) (r : Replica K V T N) : Prop :=
  ∀ peer, ∀ u ∈ r.senderPending peer, P peer u

omit [LinearOrder T] [DecidableEq K] [DecidableEq V] [DecidableEq N] in
@[simp] theorem notifyRemoved_config (r : Replica K V T N) (key : K)
    (previousValue : Option (MapValue V T)) :
    (r.notifyRemoved key previousValue).config = r.config := by
  rw [notifyRemoved]
  cases removed key previousValue <;> rfl

variable {r : Replica K V T N} {peers : List N}

omit [LinearOrder T] [DecidableEq K] [DecidableEq V] in
theorem queuesOnly_queueUpdate {P : N → UpdateEntry K V T → Prop}
    (h : QueuesOnly P r) {event : UpdateEntry K V T}
    (he : ∀ peer ∈ peers, P peer event) : QueuesOnly P (r.queueUpdate event peers) := by
  intro peer u hu
  rcases (mem_queueUpdate r event u peers peer).mp hu with hu | ⟨rfl, hpeer⟩
  · exact h peer u hu
  · exact he peer hpeer

/-- The event of a write: a live value is put, and otherwise the live entry that was there is
removed. -/
def announced (key : K) (item existing : Option (MapValue V T)) : Option (Event K V) :=
  match item.bind MapValue.value with
  | some value => some ⟨.PUT, key, value⟩
  | none => removed key existing

structure Wrote (r r' : Replica K V T N) (key : K) (item : Option (MapValue V T)) : Prop where
  items : r'.items = KeyedMap.put r.items key item
  events : r'.events = r.events ++ (announced key item (r.items.lookup key)).toList
  config : r'.config = r.config
  senderPending : r'.senderPending = r.senderPending ∨
    ∃ peers, r'.senderPending = (r.queueUpdate ⟨key, item⟩ peers).senderPending

def Newer (timestamp : T) (existing : Option (MapValue V T)) : Prop :=
  ∀ e, existing = some e → e.timestamp < timestamp

omit [LinearOrder T] [DecidableEq K] [DecidableEq V] [DecidableEq N] in
theorem notifyRemoved_events (r : Replica K V T N) (key : K)
    (previousValue : Option (MapValue V T)) :
    (r.notifyRemoved key previousValue).events =
      r.events ++ (removed key previousValue).toList := by
  rw [notifyRemoved]
  cases removed key previousValue with
  | none => simp
  | some event => rfl

omit [DecidableEq N] in
theorem removeInternal_cases (r : Replica K V T N) (key : K) (value : Option V)
    (tombstone : Option (MapValue V T)) :
    r.removeInternal key value tombstone = (r, none) ∨
      (removes value tombstone (r.items.lookup key) = true ∧
        r.removeInternal key value tombstone =
          ({ r with items := KeyedMap.put r.items key tombstone }, r.items.lookup key)) := by
  unfold removeInternal
  dsimp only
  split_ifs with h
  · exact Or.inr ⟨h, rfl⟩
  · exact Or.inl rfl

omit [DecidableEq V] [DecidableEq N] in
theorem putInternal_cases (r : Replica K V T N) (key : K) (newValue : MapValue V T) :
    r.putInternal key newValue = (r, false) ∨
      (Newer newValue.timestamp (r.items.lookup key) ∧
        r.putInternal key newValue =
          ({ r with items := KeyedMap.put r.items key (some newValue) }, true)) := by
  unfold putInternal Newer
  cases r.items.lookup key with
  | none => exact Or.inr ⟨fun e he => absurd he (by simp), rfl⟩
  | some existing =>
    by_cases h : existing.timestamp < newValue.timestamp
    · exact Or.inr ⟨fun e he => Option.some.inj he ▸ h, by simp [MapValue.isNewerThan, h]⟩
    · exact Or.inl (by simp [MapValue.isNewerThan, h])

variable {r' : Replica K V T N} {key : K}

omit [DecidableEq V] in
theorem put_cases {value : V} {timestamp : Option T}
    {now : ℕ} (h : r.put key value timestamp now peers = some r') :
    r' = r ∨ ∃ t, timestamp = some t ∧ Newer t (r.items.lookup key) ∧
      Wrote r r' key (some ⟨some value, t, now⟩) := by
  cases timestamp with
  | none => cases h
  | some t =>
    rw [Replica.put] at h
    rw [Option.map_some] at h
    dsimp only at h
    rcases putInternal_cases r key ⟨some value, t, now⟩ with hp | ⟨hnewer, hp⟩
    · rw [hp] at h
      exact Or.inl (Option.some.inj h).symm
    · rw [hp] at h
      obtain rfl := Option.some.inj h
      exact Or.inr ⟨t, rfl, hnewer, rfl, rfl, rfl, Or.inr ⟨peers, rfl⟩⟩

theorem removeAndNotify_cases (r : Replica K V T N) (key : K) (value : Option V)
    (timestamp : Option T) (now : ℕ) (peers : List N) :
    r.removeAndNotify key value timestamp now peers = r ∨
      removes value (r.removalTombstone timestamp now) (r.items.lookup key) = true ∧
        Wrote r (r.removeAndNotify key value timestamp now peers) key
          (r.removalTombstone timestamp now) := by
  have htomb : (r.removalTombstone timestamp now).bind MapValue.value = none := by
    rw [removalTombstone]
    split_ifs
    · rfl
    · cases timestamp <;> rfl
  have hannounced : ∀ existing, announced key (r.removalTombstone timestamp now) existing =
      removed key existing := by
    intro existing
    rw [announced, htomb]
  rw [removeAndNotify]
  dsimp only
  rcases removeInternal_cases r key value (r.removalTombstone timestamp now) with h | ⟨hr, h⟩
  · rw [h]
    exact Or.inl rfl
  · rw [h]
    right
    refine ⟨hr, ?_⟩
    cases hl : r.items.lookup key with
    | none =>
      refine ⟨rfl, ?_, rfl, Or.inl rfl⟩
      rw [hl, hannounced]
      exact (List.append_nil _).symm
    | some previous =>
      refine ⟨notifyRemoved_items _ _ _, ?_, notifyRemoved_config _ _ _,
        Or.inr ⟨peers, notifyRemoved_senderPending _ _ _⟩⟩
      rw [hl, hannounced]
      exact notifyRemoved_events _ _ _

omit [LinearOrder T] [DecidableEq V] in
theorem wrote_updateComputed (r : Replica K V T N) (key : K) (newValue : MapValue V T)
    (peers : List N) : Wrote r (r.updateComputed key newValue peers) key (some newValue) := by
  obtain ⟨value, timestamp, creationTime⟩ := newValue
  cases value with
  | some value => exact ⟨rfl, rfl, rfl, Or.inr ⟨peers, rfl⟩⟩
  | none =>
    exact ⟨notifyRemoved_items _ _ _, notifyRemoved_events _ _ _, notifyRemoved_config _ _ _,
      Or.inr ⟨peers, notifyRemoved_senderPending _ _ _⟩⟩

theorem compute_cases {recomputeFunction : Option V → Option V} {timestamp : Option T} {now : ℕ}
    (h : r.compute key recomputeFunction timestamp now peers = some r') :
    r' = r ∨ ∃ t, timestamp = some t ∧ Newer t (r.items.lookup key) ∧
      Wrote r r' key (some ⟨recomputeFunction (r.get key), t, now⟩) := by
  rw [compute] at h
  rw [Replica.get]
  cases hl : r.items.lookup key with
  | none =>
    simp only [hl] at h
    obtain ⟨t, rfl, rfl⟩ := Option.map_eq_some_iff.mp h
    exact Or.inr ⟨t, rfl, fun e he => absurd he (by simp), wrote_updateComputed _ _ _ _⟩
  | some existing =>
    simp only [hl] at h
    split_ifs at h with hsame
    · exact Or.inl (Option.some.inj h).symm
    · obtain ⟨t, rfl, rfl⟩ := Option.map_eq_some_iff.mp h
      by_cases hlt : existing.timestamp < t
      · right
        refine ⟨t, rfl, fun e he => Option.some.inj he ▸ hlt, ?_⟩
        simp only [MapValue.isNewerThan, hlt, decide_true, if_true]
        exact wrote_updateComputed _ _ _ _
      · left
        simp only [MapValue.isNewerThan, hlt, decide_false, Bool.false_eq_true, if_false]

theorem processUpdate_cases (r : Replica K V T N) (now : ℕ) (u : UpdateEntry K V T) :
    r.processUpdate now u = r ∨
      (∀ v, u.value = some v → Newer v.timestamp (r.items.lookup u.key)) ∧
        Wrote r (r.processUpdate now u) u.key (u.value.map fun v => v.copy now) := by
  have hremove : ∀ tombstone : Option (MapValue V T), tombstone.bind MapValue.value = none →
      ((r.removeInternal u.key none tombstone).1.notifyRemoved u.key
          (r.removeInternal u.key none tombstone).2 = r ∨
        removes none tombstone (r.items.lookup u.key) = true ∧
          Wrote r ((r.removeInternal u.key none tombstone).1.notifyRemoved u.key
            (r.removeInternal u.key none tombstone).2) u.key tombstone) := by
    intro tombstone hdead
    rcases removeInternal_cases r u.key none tombstone with h | ⟨hr, h⟩
    · rw [h]
      exact Or.inl rfl
    · rw [h]
      refine Or.inr ⟨hr, notifyRemoved_items _ _ _, ?_, notifyRemoved_config _ _ _,
        Or.inl (notifyRemoved_senderPending _ _ _)⟩
      rw [announced, hdead]
      exact notifyRemoved_events _ _ _
  obtain ⟨key, value⟩ := u
  cases value with
  | none =>
    rcases hremove none rfl with h | ⟨_, h⟩
    · exact Or.inl h
    · exact Or.inr ⟨fun v hv => absurd hv (by simp), h⟩
  | some v =>
    obtain ⟨value, timestamp, creationTime⟩ := v
    cases value with
    | none =>
      rcases hremove (some ⟨none, timestamp, now⟩) rfl with h | ⟨hr, h⟩
      · exact Or.inl h
      · refine Or.inr ⟨fun v hv => ?_, h⟩
        obtain rfl := Option.some.inj hv
        exact (removes_none_some _ _).mp hr
    | some value =>
      rw [processUpdate]
      simp only [Option.map_some, MapValue.copy]
      rcases putInternal_cases r key ⟨some value, timestamp, now⟩ with h | ⟨hnewer, h⟩
      · rw [h]
        exact Or.inl rfl
      · rw [h]
        refine Or.inr ⟨fun v hv => ?_, rfl, rfl, rfl, Or.inl rfl⟩
        obtain rfl := Option.some.inj hv
        exact hnewer

omit [LinearOrder T] [DecidableEq V] in
theorem queuesOnly_wrote {P : N → UpdateEntry K V T → Prop}
    {item : Option (MapValue V T)} (h : QueuesOnly P r) (hw : Wrote r r' key item)
    (hP : ∀ peer, P peer ⟨key, item⟩) : QueuesOnly P r' := by
  rw [QueuesOnly]
  rcases hw.senderPending with hs | ⟨peers, hs⟩
  · rw [hs]
    exact h
  · rw [hs]
    exact queuesOnly_queueUpdate h fun peer _ => hP peer

omit [DecidableEq N] in
theorem processUpdates_senderPending (r : Replica K V T N) (now : ℕ)
    (updates : List (UpdateEntry K V T)) :
    (r.processUpdates now updates).senderPending = r.senderPending := by
  have hone : ∀ (r : Replica K V T N) (u : UpdateEntry K V T),
      (r.processUpdate now u).senderPending = r.senderPending := by
    intro r u
    have hremove : ∀ tombstone : Option (MapValue V T),
        ((r.removeInternal u.key none tombstone).1.notifyRemoved u.key
          (r.removeInternal u.key none tombstone).2).senderPending = r.senderPending := by
      intro tombstone
      rw [notifyRemoved_senderPending, removeInternal_senderPending]
    obtain ⟨key, value⟩ := u
    rcases value with _ | ⟨_ | value, timestamp, creationTime⟩
    · exact hremove none
    · exact hremove (some ⟨none, timestamp, now⟩)
    · rw [processUpdate]
      simp only [Option.map_some, MapValue.copy]
      rcases putInternal_cases r key ⟨some value, timestamp, now⟩ with h | ⟨_, h⟩
      · rw [h]
        rfl
      · rw [h]
        rfl
  induction updates generalizing r with
  | nil => rfl
  | cons u updates ih => exact (ih (r.processUpdate now u)).trans (hone r u)

theorem processUpdates_config (r : Replica K V T N) (now : ℕ)
    (updates : List (UpdateEntry K V T)) : (r.processUpdates now updates).config = r.config := by
  induction updates generalizing r with
  | nil => rfl
  | cons u updates ih =>
    refine (ih (r.processUpdate now u)).trans ?_
    rcases processUpdate_cases r now u with h | ⟨_, h⟩
    · rw [h]
    · exact h.config

theorem clear_frame {P : N → UpdateEntry K V T → Prop} (h : QueuesOnly P r)
    (timestamp : K → Option T) (now : ℕ) (peers : K → List N)
    (hP : ∀ key, r.get key ≠ none →
      ∀ peer, P peer ⟨key, r.removalTombstone (timestamp key) now⟩) :
    QueuesOnly P (r.clear timestamp now peers) ∧
      (r.clear timestamp now peers).config = r.config := by
  have hlive : ∀ key ∈ r.keySet,
      ∀ peer, P peer ⟨key, r.removalTombstone (timestamp key) now⟩ :=
    fun key hkey => hP key ((mem_keySet r key).mp hkey)
  rw [clear]
  generalize r.keySet = keys at hlive
  have hfold : ∀ s : Replica K V T N, QueuesOnly P s → s.config = r.config →
      QueuesOnly P (keys.foldl
        (fun r key => r.removeAndNotify key none (timestamp key) now (peers key)) s) ∧
      (keys.foldl (fun r key => r.removeAndNotify key none (timestamp key) now (peers key))
        s).config = r.config := by
    induction keys with
    | nil => exact fun s hs hc => ⟨hs, hc⟩
    | cons key keys ih =>
      intro s hs hc
      obtain ⟨hkey, hkeys⟩ := List.forall_mem_cons.mp hlive
      have htomb : s.removalTombstone (timestamp key) now =
          r.removalTombstone (timestamp key) now := by
        unfold removalTombstone
        rw [show s.tombstonesDisabled = r.tombstonesDisabled from congrArg Prod.snd hc]
      rw [List.foldl_cons]
      rcases removeAndNotify_cases s key none (timestamp key) now (peers key) with he | ⟨_, hw⟩
      · rw [he]
        exact ih hkeys s hs hc
      · rw [htomb] at hw
        exact ih hkeys _ (queuesOnly_wrote hs hw hkey) (hw.config.trans hc)
  exact hfold r h rfl

section

omit [LinearOrder T] [DecidableEq V]

theorem mem_handleUpdateRequests (r : Replica K V T N) (request : UpdateRequest K N)
    (u : UpdateEntry K V T) (n : N) : u ∈ (r.handleUpdateRequests request).senderPending n ↔
      u ∈ r.senderPending n ∨
        (n = request.sender ∧ ∃ key ∈ request.keys, u = ⟨key, r.items.lookup key⟩) := by
  rw [handleUpdateRequests]
  generalize request.keys = keys
  have hfold : ∀ s : Replica K V T N, s.items = r.items →
      (u ∈ (keys.foldl (fun r key => r.queueUpdate ⟨key, r.items.lookup key⟩ [request.sender])
        s).senderPending n ↔ u ∈ s.senderPending n ∨
          (n = request.sender ∧ ∃ key ∈ keys, u = ⟨key, r.items.lookup key⟩)) := by
    induction keys with
    | nil => simp
    | cons key keys ih =>
      intro s hs
      have hone := mem_queueUpdate s ⟨key, s.items.lookup key⟩ u [request.sender] n
      rw [hs, List.mem_singleton] at hone
      have hrest := ih (s.queueUpdate ⟨key, r.items.lookup key⟩ [request.sender]) hs
      rw [List.foldl_cons, hs, hrest, hone, or_assoc]
      simp only [List.mem_cons, exists_eq_or_imp, and_or_left]
      rw [and_comm]
  exact hfold r rfl

theorem handleUpdateRequests_frame (r : Replica K V T N) (request : UpdateRequest K N) :
    (r.handleUpdateRequests request).items = r.items ∧
      (r.handleUpdateRequests request).config = r.config ∧
      (r.handleUpdateRequests request).events = r.events := by
  rw [handleUpdateRequests]
  generalize request.keys = keys
  have hfold : ∀ s : Replica K V T N,
      (keys.foldl (fun r key => r.queueUpdate ⟨key, r.items.lookup key⟩ [request.sender])
        s).items = s.items ∧
      (keys.foldl (fun r key => r.queueUpdate ⟨key, r.items.lookup key⟩ [request.sender])
        s).config = s.config ∧
      (keys.foldl (fun r key => r.queueUpdate ⟨key, r.items.lookup key⟩ [request.sender])
        s).events = s.events := by
    induction keys with
    | nil => exact fun s => ⟨rfl, rfl, rfl⟩
    | cons key keys ih => exact fun s => ih _
  exact hfold r

theorem queuesOnly_handleUpdateRequests {P : N → UpdateEntry K V T → Prop}
    (h : QueuesOnly P r) (request : UpdateRequest K N)
    (hP : ∀ key ∈ request.keys, P request.sender ⟨key, r.items.lookup key⟩) :
    QueuesOnly P (r.handleUpdateRequests request) := by
  intro peer u hu
  rcases (mem_handleUpdateRequests r request u peer).mp hu with hu | ⟨rfl, key, hkey, rfl⟩
  · exact h peer u hu
  · exact hP key hkey

theorem purgeTombstones_frame (r : Replica K V T N) (peers : List N) :
    (r.purgeTombstones peers).senderPending = r.senderPending ∧
      (r.purgeTombstones peers).config = r.config ∧
      (r.purgeTombstones peers).events = r.events := by
  unfold purgeTombstones
  dsimp only
  split_ifs <;> exact ⟨rfl, rfl, rfl⟩

end

omit [LinearOrder T] [DecidableEq K] [DecidableEq V] in
theorem advertisementAnswered_frame (r : Replica K V T N) (peer : N) (adCreationTime : ℕ)
    (response : AntiEntropyResponse) :
    (r.advertisementAnswered peer adCreationTime response).items = r.items ∧
      (r.advertisementAnswered peer adCreationTime response).senderPending = r.senderPending ∧
      (r.advertisementAnswered peer adCreationTime response).config = r.config ∧
      (r.advertisementAnswered peer adCreationTime response).events = r.events := by
  cases response <;> exact ⟨rfl, rfl, rfl, rfl⟩

end ECMapWrites

import Onos.DeviceStoreReplica

/-! Is a device known that updates and removals were gossiped about? A removal of an unknown
device leaves no trace, so an older update that arrives later brings the device back. -/
namespace DeviceStorePresence

open KeyedMap InputMachine DeviceStoreReplica

variable {T N : Type*} [LinearOrder T] [DecidableEq N] (hash : HashOrder)

section Handlers

structure SameRecords (s s' : Replica T N) : Prop where
  deviceDescs : s'.deviceDescs = s.deviceDescs
  devices : s'.devices = s.devices
  removalRequest : s'.removalRequest = s.removalRequest

section

omit [DecidableEq N]

theorem markOnline_same (s : Replica T N) (timestamp : T) :
    SameRecords s (s.markOnlineInternal timestamp) := by
  rw [Replica.markOnlineInternal]
  split_ifs <;> exact ⟨rfl, rfl, rfl⟩

theorem markOffline_same (s : Replica T N) (timestamp : T) :
    SameRecords s (s.markOfflineInternal hash timestamp) := by
  unfold Replica.markOfflineInternal
  dsimp only
  split_ifs <;> exact ⟨rfl, rfl, rfl⟩

end

omit [LinearOrder T] [DecidableEq N] in
theorem composeDevice_isSome {s : Replica T N} (h : s.deviceDescs.keys ≠ []) :
    ∃ device, s.composeDevice hash = some device := by
  rcases s.pickPrimaryPid_cases hash with ⟨hnil, _⟩ | ⟨p, hp, hpick⟩
  · exact absurd hnil h
  · obtain ⟨d, hd⟩ := (mem_keys_iff _ p).mp hp
    rw [Replica.composeDevice]
    rw [hpick, Option.bind_some, hd]
    exact ⟨_, rfl⟩

structure Updates (s s' : Replica T N) (p : ProviderId) (t : T) : Prop where
  known : s'.devices.isSome
  removalRequest : s'.removalRequest = s.removalRequest
  described : ∃ d, s'.deviceDescs = store s.deviceDescs p d ∧ d.deviceDesc.timestamp = t ∧
    d.portDescs = ((s.deviceDescs.lookup p).map DeviceDescriptions.portDescs).getD ∅

omit [LinearOrder T] [DecidableEq N] in
theorem updates_of_same {s s' s'' : Replica T N} {p : ProviderId} {t : T}
    (h : Updates s s' p t) (hsame : SameRecords s' s'') : Updates s s'' p t := by
  refine ⟨?_, hsame.removalRequest.trans h.removalRequest, ?_⟩
  · rw [hsame.devices]
    exact h.known
  · rw [hsame.deviceDescs]
    exact h.described

omit [DecidableEq N]

theorem createDevice_same (s : Replica T N) (p : ProviderId) (device : Device) (t : T) :
    SameRecords { s with devices := some device } (s.createDevice p device t) := by
  unfold Replica.createDevice
  dsimp only
  split_ifs
  · exact ⟨rfl, rfl, rfl⟩
  · exact markOnline_same _ t

theorem registerDevice_same (s : Replica T N) (p : ProviderId) (device : Device) (t : T) :
    SameRecords { s with devices := some device } (s.registerDevice hash p device t) := by
  unfold Replica.registerDevice
  dsimp only
  split_ifs
  · exact ⟨rfl, rfl, rfl⟩
  · exact markOffline_same hash _ t

theorem updateDevice_same {s : Replica T N} (p : ProviderId) {oldDevice : Device}
    (hold : s.devices = some oldDevice) (newDevice : Device) (t : T) (forceAvailable : Bool) :
    ∃ device, SameRecords { s with devices := some device }
      (s.updateDevice p oldDevice newDevice t forceAvailable) := by
  unfold Replica.updateDevice
  dsimp only
  split_ifs
  · exact ⟨newDevice, markOnline_same _ t⟩
  · have hsame := markOnline_same s t
    exact ⟨oldDevice, hsame.deviceDescs, hsame.devices.trans hold, hsame.removalRequest⟩
  · exact ⟨newDevice, rfl, rfl, rfl⟩
  · exact ⟨oldDevice, rfl, hold, rfl⟩

theorem createOrUpdate_cases (s : Replica T N) (p : ProviderId)
    (deltaDesc : Timestamped T DeviceDescription) :
    (s.isDeviceRemoved deltaDesc.timestamp ∧
      s.createOrUpdateDeviceInternal hash p deltaDesc = s) ∨
    (∃ d, s.deviceDescs.lookup p = some d ∧ deltaDesc.timestamp ≤ d.deviceDesc.timestamp ∧
      s.createOrUpdateDeviceInternal hash p deltaDesc = s) ∨
    (¬ s.isDeviceRemoved deltaDesc.timestamp ∧
      Updates s (s.createOrUpdateDeviceInternal hash p deltaDesc) p deltaDesc.timestamp) := by
  rw [Replica.createOrUpdateDeviceInternal]
  by_cases hremoved : s.isDeviceRemoved deltaDesc.timestamp
  · rw [if_pos hremoved]
    exact Or.inl ⟨hremoved, rfl⟩
  · rw [if_neg hremoved]
    dsimp only
    by_cases hnew : (s.deviceDescs.lookup p).all fun d =>
        d.deviceDesc.timestamp < deltaDesc.timestamp
    · rw [if_pos hnew]
      refine Or.inr (Or.inr ⟨hremoved, ?_⟩)
      generalize hdescs :
        ((s.deviceDescs.lookup p).getD ⟨deltaDesc, ∅⟩).putDeviceDesc deltaDesc = d
      have hdescribed : d.deviceDesc.timestamp = deltaDesc.timestamp ∧
          d.portDescs = ((s.deviceDescs.lookup p).map DeviceDescriptions.portDescs).getD ∅ := by
        rw [← hdescs]
        refine ⟨rfl, ?_⟩
        cases s.deviceDescs.lookup p <;> rfl
      have hkeys : (store s.deviceDescs p d).keys ≠ [] := by
        rw [keys_store]
        split_ifs with hp
        · exact List.ne_nil_of_mem (AList.mem_keys.mp hp)
        · exact List.cons_ne_nil _ _
      obtain ⟨newDevice, hcompose⟩ := composeDevice_isSome hash
        (s := { s with deviceDescs := store s.deviceDescs p d }) hkeys
      rw [hcompose]
      have hstored : ∀ device, Updates s
          { s with deviceDescs := store s.deviceDescs p d, devices := some device } p
          deltaDesc.timestamp := fun device => ⟨rfl, rfl, d, rfl, hdescribed⟩
      cases hdevices : s.devices with
      | none =>
        dsimp only
        split_ifs
        · refine updates_of_same ?_ (createDevice_same _ p newDevice _)
          exact hstored newDevice
        · refine updates_of_same ?_ (registerDevice_same hash _ p newDevice _)
          exact hstored newDevice
      | some oldDevice =>
        obtain ⟨device, hsame⟩ := updateDevice_same p
          (s := { s with deviceDescs := store s.deviceDescs p d }) hdevices newDevice
          deltaDesc.timestamp deltaDesc.value.isDefaultAvailable
        rw [hdevices] at hsame
        exact updates_of_same (hstored device) hsame
    · rw [if_neg hnew]
      right
      left
      cases hlookup : s.deviceDescs.lookup p with
      | none =>
        rw [hlookup] at hnew
        exact absurd rfl hnew
      | some d =>
        rw [hlookup] at hnew
        refine ⟨d, rfl, not_lt.mp fun hlt => hnew ?_, rfl⟩
        exact decide_eq_true hlt

theorem removeDevice_cases (s : Replica T N) (timestamp : T) :
    (s.deviceDescs.keys = [] ∧ s.removeDeviceInternal hash timestamp = s) ∨
    ∃ p d, s.deviceDescs.lookup p = some d ∧ s.getPrimaryDescriptions hash = some d ∧
      ((timestamp ≤ d.getLatestTimestamp ∧ s.removeDeviceInternal hash timestamp = s) ∨
        (d.getLatestTimestamp < timestamp ∧
          (s.removeDeviceInternal hash timestamp).devices = none ∧
          (s.removeDeviceInternal hash timestamp).deviceDescs = ∅ ∧
          (s.removeDeviceInternal hash timestamp).removalRequest = some timestamp)) := by
  rw [Replica.removeDeviceInternal]
  rcases s.getPrimaryDescriptions_cases hash with ⟨hkeys, hnone⟩ | ⟨p, d, hlookup, hsome⟩
  · rw [hnone]
    exact Or.inl ⟨hkeys, rfl⟩
  · rw [hsome]
    refine Or.inr ⟨p, d, hlookup, rfl, ?_⟩
    dsimp only
    split_ifs with hle
    · exact Or.inl ⟨hle, rfl⟩
    · right
      have hsame := markOffline_same hash (N := N) { s with
        removalRequest := some timestamp, devices := none, deviceDescs := ∅, devicePorts := ∅ }
        timestamp
      exact ⟨not_le.mp hle, hsame.devices, hsame.deviceDescs, hsame.removalRequest⟩

end Handlers

section Newest

def IsUpdate : Message T N → Prop
  | .deviceEvent _ _ => True
  | _ => False

instance : (m : Message T N) → Decidable (IsUpdate m)
  | .deviceEvent _ _ => isTrue trivial
  | .deviceRemovedEvent _ => isFalse id
  | .deviceStatusChangeEvent _ _ => isFalse id
  | .portEvent _ _ => isFalse id

def Newest (delivered : List (Message T N)) (m : Message T N) : Prop :=
  m ∈ delivered ∧ ∀ m' ∈ delivered, m'.timestamp ≤ m.timestamp

def NewestIsUpdate (delivered : List (Message T N)) : Prop :=
  ∃ m, Newest delivered m ∧ IsUpdate m

omit [DecidableEq N]

theorem newestIsUpdate_append {delivered : List (Message T N)} {m : Message T N}
    (hdistinct : ∀ m' ∈ delivered, m'.timestamp ≠ m.timestamp) :
    NewestIsUpdate (delivered ++ [m]) ↔
      ((∀ m' ∈ delivered, m'.timestamp < m.timestamp) ∧ IsUpdate m) ∨
        ∃ m', Newest delivered m' ∧ IsUpdate m' ∧ m.timestamp < m'.timestamp := by
  constructor
  · rintro ⟨n, ⟨hn, hmax⟩, hupdate⟩
    rcases List.mem_append.mp hn with hn | hn
    · have hle := hmax m (List.mem_append_right _ (List.mem_singleton_self m))
      refine Or.inr ⟨n, ⟨hn, fun m' hm' => hmax m' (List.mem_append_left _ hm')⟩, hupdate, ?_⟩
      exact lt_of_le_of_ne hle fun heq => hdistinct n hn heq.symm
    · obtain rfl := List.mem_singleton.mp hn
      refine Or.inl ⟨fun m' hm' => ?_, hupdate⟩
      exact lt_of_le_of_ne (hmax m' (List.mem_append_left _ hm')) (hdistinct m' hm')
  · rintro (⟨hmax, hupdate⟩ | ⟨n, ⟨hn, hmax⟩, hupdate, hlt⟩)
    · refine ⟨m, ⟨List.mem_append_right _ (List.mem_singleton_self m), fun m' hm' => ?_⟩,
        hupdate⟩
      rcases List.mem_append.mp hm' with hm' | hm'
      · exact (hmax m' hm').le
      · rw [List.mem_singleton.mp hm']
    · refine ⟨n, ⟨List.mem_append_left _ hn, fun m' hm' => ?_⟩, hupdate⟩
      rcases List.mem_append.mp hm' with hm' | hm'
      · exact hmax m' hm'
      · rw [List.mem_singleton.mp hm']
        exact hlt.le

theorem newestIsUpdate_old {delivered : List (Message T N)} {m : Message T N}
    (hdistinct : ∀ m' ∈ delivered, m'.timestamp ≠ m.timestamp)
    (hold : ∃ m' ∈ delivered, m.timestamp ≤ m'.timestamp) :
    NewestIsUpdate (delivered ++ [m]) ↔ NewestIsUpdate delivered := by
  obtain ⟨m', hm', hle⟩ := hold
  have hlt := lt_of_le_of_ne hle (hdistinct m' hm').symm
  rw [newestIsUpdate_append hdistinct]
  constructor
  · rintro (⟨hmax, _⟩ | ⟨n, hn, hupdate, _⟩)
    · exact absurd (hmax m' hm') (lt_asymm hlt)
    · exact ⟨n, hn, hupdate⟩
  · rintro ⟨n, hn, hupdate⟩
    exact Or.inr ⟨n, hn, hupdate, hlt.trans_le (hn.2 m' hm')⟩

end Newest

section Runs

structure Observed (T N : Type*) where
  replica : Replica T N
  delivered : List (Message T N)

def IsRemoval : Message T N → Prop
  | .deviceRemovedEvent _ => True
  | _ => False

def presenceMachine (hash : HashOrder) : Machine (Observed T N) (Message T N) where
  initial := ⟨unknownDevice, []⟩
  enabled s m := (IsUpdate m ∨ IsRemoval m) ∧ ∀ m' ∈ s.delivered, m'.timestamp ≠ m.timestamp
  next s m := ⟨s.replica.handle hash m, s.delivered ++ [m]⟩

def PresenceRight (s : Observed T N) : Prop :=
  s.replica.devices.isSome ↔ NewestIsUpdate s.delivered

/-- An update older than the newest message, a removal, finds a removal request newer than itself.
A removal older than the newest message, an update, is not newer than what the primary provider
has said. -/
def Timely (hash : HashOrder) (s : Observed T N) : Message T N → Prop
  | .deviceEvent _ deviceDescription => ∀ m, Newest s.delivered m → IsRemoval m →
    deviceDescription.timestamp < m.timestamp →
      s.replica.isDeviceRemoved deviceDescription.timestamp
  | .deviceRemovedEvent timestamp => ∀ m, Newest s.delivered m → IsUpdate m →
    timestamp < m.timestamp →
      ∀ d, s.replica.getPrimaryDescriptions hash = some d → timestamp ≤ d.getLatestTimestamp
  | _ => True

structure Recorded (s : Observed T N) : Prop where
  known : s.replica.devices.isSome ↔ s.replica.deviceDescs.keys ≠ []
  described : ∀ p d, s.replica.deviceDescs.lookup p = some d →
    d.portDescs = ∅ ∧ ∃ m ∈ s.delivered, m.timestamp = d.deviceDesc.timestamp
  removed : ∀ t, s.replica.removalRequest = some t → ∃ m ∈ s.delivered, m.timestamp = t
  kinds : ∀ m ∈ s.delivered, IsUpdate m ∨ IsRemoval m
  distinct : ∀ m ∈ s.delivered, ∀ m' ∈ s.delivered, m.timestamp = m'.timestamp → m = m'

variable {s : Observed T N} {m : Message T N}

theorem recorded_unchanged (h : Recorded s) (hm : (presenceMachine hash).enabled s m) :
    Recorded ⟨s.replica, s.delivered ++ [m]⟩ := by
  refine ⟨h.known, fun p d hd => ?_, fun t ht => ?_, fun m' hm' => ?_, fun n hn n' hn' heq => ?_⟩
  · obtain ⟨hports, m', hm', htime⟩ := h.described p d hd
    exact ⟨hports, m', List.mem_append_left _ hm', htime⟩
  · obtain ⟨m', hm', htime⟩ := h.removed t ht
    exact ⟨m', List.mem_append_left _ hm', htime⟩
  · rcases List.mem_append.mp hm' with hm' | hm'
    · exact h.kinds m' hm'
    · rw [List.mem_singleton.mp hm']
      exact hm.1
  · rcases List.mem_append.mp hn with hn | hn <;> rcases List.mem_append.mp hn' with hn' | hn'
    · exact h.distinct n hn n' hn' heq
    · rw [List.mem_singleton.mp hn'] at heq
      exact absurd heq (hm.2 n hn)
    · rw [List.mem_singleton.mp hn] at heq
      exact absurd heq.symm (hm.2 n' hn')
    · rw [List.mem_singleton.mp hn, List.mem_singleton.mp hn']

theorem recorded_updates (h : Recorded s) {s' : Replica T N}
    {p : ProviderId} (hs' : Updates s.replica s' p m.timestamp)
    (hm : (presenceMachine hash).enabled s m) : Recorded ⟨s', s.delivered ++ [m]⟩ := by
  have hold := recorded_unchanged hash h hm
  obtain ⟨d, hstore, htime, hports⟩ := hs'.described
  refine ⟨⟨fun _ => ?_, fun _ => hs'.known⟩, fun q e he => ?_, fun t ht => ?_, hold.kinds,
    hold.distinct⟩
  · change s'.deviceDescs.keys ≠ []
    rw [hstore, keys_store]
    split_ifs with hp
    · exact List.ne_nil_of_mem (AList.mem_keys.mp hp)
    · exact List.cons_ne_nil _ _
  · change s'.deviceDescs.lookup q = some e at he
    rw [hstore, lookup_store] at he
    split_ifs at he with hq
    · obtain rfl := Option.some.inj he
      refine ⟨?_, m, List.mem_append_right _ (List.mem_singleton_self m), htime.symm⟩
      rw [hports]
      cases hlookup : s.replica.deviceDescs.lookup p with
      | none => rfl
      | some e => exact (h.described p e hlookup).1
    · exact hold.described q e he
  · change s'.removalRequest = some t at ht
    rw [hs'.removalRequest] at ht
    exact hold.removed t ht

theorem recorded_next (h : Recorded s)
    (hm : (presenceMachine hash).enabled s m) : Recorded ((presenceMachine hash).next s m) := by
  change Recorded ⟨s.replica.handle hash m, s.delivered ++ [m]⟩
  cases m with
  | deviceEvent p d =>
    change Recorded ⟨s.replica.createOrUpdateDeviceInternal hash p d, _⟩
    rcases createOrUpdate_cases hash s.replica p d with
      ⟨_, hsame⟩ | ⟨_, _, _, hsame⟩ | ⟨_, hupdates⟩
    · rw [hsame]
      exact recorded_unchanged hash h hm
    · rw [hsame]
      exact recorded_unchanged hash h hm
    · exact recorded_updates hash h hupdates hm
  | deviceRemovedEvent t =>
    change Recorded ⟨s.replica.removeDeviceInternal hash t, _⟩
    have hold := recorded_unchanged hash h hm
    rcases removeDevice_cases hash s.replica t with
      ⟨_, hsame⟩ | ⟨_, _, _, _, ⟨_, hsame⟩ | ⟨_, hdevices, hdescs, hremoval⟩⟩
    · rw [hsame]
      exact hold
    · rw [hsame]
      exact hold
    · refine ⟨?_, fun p d hd => ?_, fun t' ht' => ?_, hold.kinds, hold.distinct⟩
      · rw [hdevices, hdescs]
        simp
      · rw [hdescs] at hd
        cases hd
      · rw [hremoval] at ht'
        obtain rfl := Option.some.inj ht'
        exact ⟨_, List.mem_append_right _ (List.mem_singleton_self _), rfl⟩
  | deviceStatusChangeEvent t available => exact absurd hm.1 (by simp [IsUpdate, IsRemoval])
  | portEvent p ports => exact absurd hm.1 (by simp [IsUpdate, IsRemoval])

omit [DecidableEq N] in
theorem newest_unique (h : Recorded s) {m m' : Message T N}
    (hm : Newest s.delivered m) (hm' : Newest s.delivered m') : m = m' :=
  h.distinct m hm.1 m' hm'.1 (le_antisymm (hm'.2 m hm.1) (hm.2 m' hm'.1))

omit [LinearOrder T] [DecidableEq N] in
theorem not_both (hupdate : IsUpdate m) (hremoval : IsRemoval m) : False := by
  cases m with
  | deviceEvent => exact hremoval
  | deviceRemovedEvent => exact hupdate
  | deviceStatusChangeEvent => exact hupdate
  | portEvent => exact hupdate

theorem newestIsUpdate_append_update (h : Recorded s)
    (hm : (presenceMachine hash).enabled s m) (hupdate : IsUpdate m) :
    NewestIsUpdate (s.delivered ++ [m]) ↔
      ∀ n, Newest s.delivered n → IsRemoval n → ¬ m.timestamp < n.timestamp := by
  rw [newestIsUpdate_append hm.2]
  constructor
  · rintro (⟨hmax, _⟩ | ⟨n', hn', hupdate', _⟩) n hn hremoval hlt
    · exact lt_asymm hlt (hmax n hn.1)
    · rw [newest_unique h hn hn'] at hremoval
      exact not_both hupdate' hremoval
  · intro hnone
    by_cases hnil : s.delivered = []
    · refine Or.inl ⟨fun m' hm' => ?_, hupdate⟩
      rw [hnil] at hm'
      exact absurd hm' List.not_mem_nil
    · obtain ⟨n, hn⟩ : ∃ n, Newest s.delivered n := exists_latest Message.timestamp hnil
      rcases lt_or_gt_of_ne (hm.2 n hn.1) with hlt | hgt
      · exact Or.inl ⟨fun m' hm' => (hn.2 m' hm').trans_lt hlt, hupdate⟩
      · refine Or.inr ⟨n, hn, ?_, hgt⟩
        by_contra hnot
        exact hnone n hn ((h.kinds n hn.1).resolve_left hnot) hgt

theorem presence_next (h : Recorded s) (hright : PresenceRight s)
    (hm : (presenceMachine hash).enabled s m) :
    PresenceRight ((presenceMachine hash).next s m) ↔ Timely hash s m := by
  change ((s.replica.handle hash m).devices.isSome ↔ NewestIsUpdate (s.delivered ++ [m])) ↔ _
  have hunchanged : (∃ m' ∈ s.delivered, m.timestamp ≤ m'.timestamp) →
      (s.replica.devices.isSome ↔ NewestIsUpdate (s.delivered ++ [m])) := by
    intro hold
    rw [newestIsUpdate_old hm.2 hold]
    exact hright
  have hpresent : ∀ p d, s.replica.deviceDescs.lookup p = some d →
      NewestIsUpdate s.delivered := by
    intro p d hd
    refine hright.mp (h.known.mpr (List.ne_nil_of_mem (a := p) ?_))
    exact (mem_keys_iff _ p).mpr ⟨d, hd⟩
  cases m with
  | deviceEvent p d =>
    change ((s.replica.createOrUpdateDeviceInternal hash p d).devices.isSome ↔ _) ↔ _
    rcases createOrUpdate_cases hash s.replica p d with
      ⟨hremoved, hsame⟩ | ⟨e, he, hle, hsame⟩ | ⟨hnot, hupdates⟩
    · rw [hsame]
      obtain ⟨r, hr, hlt⟩ := Replica.isDeviceRemoved_iff.mp hremoved
      obtain ⟨m', hm', htime⟩ := h.removed r hr
      exact ⟨fun _ _ _ _ _ => hremoved, fun _ => hunchanged ⟨m', hm', by rw [htime]; exact hlt.le⟩⟩
    · rw [hsame]
      obtain ⟨_, m', hm', htime⟩ := h.described p e he
      refine ⟨fun _ n hn hremoval _ => ?_, fun _ => hunchanged ⟨m', hm', by rw [htime]; exact hle⟩⟩
      obtain ⟨n', hn', hupdate⟩ := hpresent p e he
      rw [newest_unique h hn hn'] at hremoval
      exact absurd hremoval (not_both hupdate)
    · rw [iff_true_left hupdates.known, newestIsUpdate_append_update hash h hm trivial]
      exact ⟨fun hnone n hn hr hlt => absurd hlt (hnone n hn hr),
        fun htimely n hn hr hlt => hnot (htimely n hn hr hlt)⟩
  | deviceRemovedEvent t =>
    change ((s.replica.removeDeviceInternal hash t).devices.isSome ↔ _) ↔ _
    have hremoval : ∀ hmax : Prop, ¬ (hmax ∧ IsUpdate (.deviceRemovedEvent t : Message T N)) :=
      fun _ hupdate => hupdate.2
    rcases removeDevice_cases hash s.replica t with
      ⟨hkeys, hsame⟩ | ⟨p, d, hd, hprimary, ⟨hle, hsame⟩ | ⟨hlt, hdevices, _, _⟩⟩
    · rw [hsame]
      have habsent : ¬ s.replica.devices.isSome := fun hsome => h.known.mp hsome hkeys
      have hnot : ¬ NewestIsUpdate s.delivered := fun hnewest => habsent (hright.mpr hnewest)
      rw [newestIsUpdate_append hm.2]
      refine ⟨fun _ n hn hupdate _ => absurd ⟨n, hn, hupdate⟩ hnot, fun _ => ?_⟩
      refine ⟨fun hsome => absurd hsome habsent, ?_⟩
      rintro (hmax | ⟨n, hn, hupdate, _⟩)
      · exact absurd hmax (hremoval _)
      · exact absurd ⟨n, hn, hupdate⟩ hnot
    · rw [hsame]
      obtain ⟨hports, m', hm', htime⟩ := h.described p d hd
      have hlatest : d.getLatestTimestamp = d.deviceDesc.timestamp := by
        rw [DeviceDescriptions.getLatestTimestamp]
        rw [hports]
        rfl
      refine ⟨fun _ _ _ _ _ e he => ?_, fun _ => hunchanged ⟨m', hm', ?_⟩⟩
      · obtain rfl := Option.some.inj (hprimary.symm.trans he)
        exact hle
      · rw [htime, ← hlatest]
        exact hle
    · rw [hdevices, newestIsUpdate_append hm.2]
      constructor
      · intro hiff n hn hupdate htn
        exact absurd (hiff.mpr (Or.inr ⟨n, hn, hupdate, htn⟩)) Bool.false_ne_true
      · intro htimely
        refine ⟨fun hsome => absurd hsome Bool.false_ne_true, ?_⟩
        rintro (hmax | ⟨n, hn, hupdate, htn⟩)
        · exact absurd hmax (hremoval _)
        · exact absurd (htimely n hn hupdate htn d hprimary) (not_le.mpr hlt)
  | deviceStatusChangeEvent t available => exact absurd hm.1 (by simp [IsUpdate, IsRemoval])
  | portEvent p ports => exact absurd hm.1 (by simp [IsUpdate, IsRemoval])

/-- Throughout a delivery of updates and removals the device is present exactly when the newest
message so far is an update, if and only if every message is timely. -/
theorem presence_iff {ms : List (Message T N)}
    (hv : (presenceMachine hash).Valid (presenceMachine hash).initial ms) :
    (∀ ys, ys <+: ms →
      PresenceRight ((presenceMachine hash).run (presenceMachine hash).initial ys)) ↔
      ((presenceMachine hash).guarded (Timely hash)).Valid (presenceMachine hash).initial ms := by
  have hinit : Recorded (presenceMachine hash : Machine (Observed T N) _).initial := by
    refine ⟨by simp [presenceMachine, unknownDevice], fun p d hd => ?_, fun t ht => ?_,
      fun m hm => ?_, fun m hm => ?_⟩
    · cases hd
    · cases ht
    · exact absurd hm List.not_mem_nil
    · exact absurd hm List.not_mem_nil
  have hright : PresenceRight (presenceMachine hash : Machine (Observed T N) _).initial := by
    refine ⟨fun hsome => absurd hsome Bool.false_ne_true, ?_⟩
    rintro ⟨m, hm, _⟩
    exact absurd hm.1 List.not_mem_nil
  exact invariant_iff_of Recorded PresenceRight (fun _ _ hs hm => recorded_next hash hs hm)
    (fun _ _ hs hp hm => presence_next hash hs hp hm) hv hinit hright

end Runs

section Regression

/-- The removal comes first and is forgotten. -/
theorem removed_device_is_back : let ms : List (Message ℕ ℕ) := [.deviceRemovedEvent 2, update 1]
    (presenceMachine insertionOrder).Valid (presenceMachine insertionOrder).initial ms ∧
      ¬ PresenceRight
        ((presenceMachine insertionOrder).run (presenceMachine insertionOrder).initial ms) := by
  intro ms
  refine ⟨⟨⟨Or.inr trivial, fun m hm => absurd hm List.not_mem_nil⟩,
    ⟨Or.inl trivial, fun m hm => ?_⟩, trivial⟩, fun hright => ?_⟩
  · rw [List.mem_singleton.mp hm]
    exact fun heq => absurd heq (by decide)
  · obtain ⟨m, ⟨hm, hmax⟩, hupdate⟩ := hright.mp (by decide)
    have hlast := hmax (.deviceRemovedEvent 2) List.mem_cons_self
    rcases List.mem_cons.mp hm with rfl | hm
    · exact hupdate
    · rw [List.mem_singleton.mp hm] at hlast
      exact absurd hlast (by decide)

theorem presence_iff_once : let ms : List (Message ℕ ℕ) := [update 1, .deviceRemovedEvent 2]
    (∀ ys, ys <+: ms → PresenceRight
      ((presenceMachine insertionOrder).run (presenceMachine insertionOrder).initial ys)) ↔
      ((presenceMachine insertionOrder).guarded (Timely insertionOrder)).Valid
        (presenceMachine insertionOrder).initial ms := by
  have hv : (presenceMachine insertionOrder).Valid (presenceMachine insertionOrder).initial
      [update 1, .deviceRemovedEvent 2] := by
    refine ⟨⟨Or.inl trivial, fun m hm => absurd hm List.not_mem_nil⟩,
      ⟨Or.inr trivial, fun m hm => ?_⟩, trivial⟩
    rw [List.mem_singleton.mp hm]
    exact fun heq => absurd heq (by decide)
  exact presence_iff insertionOrder hv

end Regression

end DeviceStorePresence

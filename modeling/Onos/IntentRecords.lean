import Onos.IntentStore

/-! The current records of the intent store over sequences of writes. -/
namespace IntentRecords

open ECMapReplica ECMapGossip ECMapWrites GossipIntentStore InputMachine IntentBatch Intents
open KeyedMap

variable {C K V N P : Type*} [DecidableEq C] [DecidableEq K] [LinearOrder V] [DecidableEq N]
  [LinearOrder P]

section Order

def recordVersion (timestamp : RecordTimestamp V) : V ×ₗ ℕ :=
  toLex ((ofLex timestamp).1, (ofLex (ofLex timestamp).2).1)

def sequence (timestamp : RecordTimestamp V) : ℕ := (ofLex (ofLex timestamp).2).2

theorem lt_iff_of_sequence_lt {t u : RecordTimestamp V} (h : sequence t < sequence u) :
    t < u ↔ recordVersion t ≤ recordVersion u := by
  obtain ⟨v, i, n⟩ := t
  obtain ⟨w, j, n'⟩ := u
  change n < n' at h
  change toLex (v, toLex (i, n)) < toLex (w, toLex (j, n')) ↔ toLex (v, i) ≤ toLex (w, j)
  rw [Prod.Lex.toLex_lt_toLex, Prod.Lex.toLex_lt_toLex, Prod.Lex.toLex_le_toLex]
  simp only [h, and_true, le_iff_lt_or_eq]

end Order

section Model

inductive StoreInput (C K V N P : Type*) where
  | write (newData : IntentData C K V N) (m : Moment V N P)
  | pending (pendingMap : Replica K (IntentData C K V N) P N)

def Store.handle (s : Store C K V N P) : StoreInput C K V N P → Store C K V N P
  | .write newData m => s.write newData m
  | .pending pendingMap => { s with pendingMap := pendingMap }

def Versioned : StoreInput C K V N P → Prop
  | .write newData _ => ∃ v, newData.version = some v
  | .pending _ => True

def writeMachine (n : N) : Machine (Store C K V N P) (StoreInput C K V N P) where
  initial := ⟨emptyReplica n, emptyReplica n, 0⟩
  enabled _ := Versioned
  next := Store.handle

end Model

section Step

/-- Timestamps in the current map are those of its records, and their sequence numbers were given
before. -/
structure Stamped (s : Store C K V N P) : Prop where
  sequenced : ∀ key item, s.currentMap.items.lookup key = some item →
    sequence item.timestamp ≤ s.sequenceNumber
  record : ∀ key item data, s.currentMap.items.lookup key = some item → item.value = some data →
    ∃ v, data.version = some v ∧
      recordVersion item.timestamp = toLex (v, data.internalStateVersion)

def Accepts (s : Store C K V N P) (newData : IntentData C K V N) : Prop :=
  isUpdateAcceptable (s.getIntentData newData.key) newData = .ok true

structure Forward (s : Store C K V N P) (newData : IntentData C K V N) (m : Moment V N P) :
    Prop where
  precedes : ∀ key data data', s.getIntentData key = some data →
    (s.write newData m).getIntentData key = some data' → data' ≠ data → Precedes data data'
  purged : ∀ key data, s.getIntentData key = some data →
    (s.write newData m).getIntentData key = none → key = newData.key ∧ newData.state = .PURGE_REQ
  withdrawn : ∀ key data data', s.getIntentData key = some data →
    (s.write newData m).getIntentData key = some data' → data'.version = data.version →
      data.state ∈ [.WITHDRAWING, .WITHDRAWN] →
        data'.state ∉ [.INSTALLING, .INSTALLED, .REALLOCATING]
  installed : ∀ key data data', s.getIntentData key = some data →
    (s.write newData m).getIntentData key = some data' → data'.version = data.version →
      data.state ∈ [.INSTALLING, .INSTALLED] → data'.state ∉ [.WITHDRAWING, .WITHDRAWN]
  newer : Accepts s newData → newData.state ≠ .PURGE_REQ →
    Newer (currentTimestampProvider newData s.sequenceNumber m.wallClockTimestamp)
      (s.currentMap.items.lookup newData.key)
  arrives : Accepts s newData → (s.write newData m).getIntentData newData.key =
    if newData.state = .PURGE_REQ then none else some newData

def Unpurged (s : Store C K V N P) (newData : IntentData C K V N) : Prop :=
  newData.state ≠ .PURGE_REQ → ∀ item v, s.currentMap.items.lookup newData.key = some item →
    item.value = none → newData.version = some v →
      recordVersion item.timestamp ≤ toLex (v, newData.internalStateVersion)

end Step

section Effect

variable {s : Store C K V N P} {newData : IntentData C K V N} {m : Moment V N P} {v : V}

omit [DecidableEq C] [LinearOrder V] [DecidableEq N] [LinearOrder P] in
theorem getIntentData_eq_some {key : K} {data : IntentData C K V N} :
    s.getIntentData key = some data ↔
      ∃ item, s.currentMap.items.lookup key = some item ∧ item.value = some data :=
  Option.bind_eq_some_iff

section

omit [DecidableEq C] [DecidableEq N] [LinearOrder P]

theorem precedes_of_accepts (hs : Stamped s) (hv : newData.version = some v)
    (haccepts : Accepts s newData) {data : IntentData C K V N}
    (hdata : s.getIntentData newData.key = some data) :
    Precedes data newData ∧ (newData.version = data.version →
      isTransitionAcceptable data.state newData.state = true) := by
  obtain ⟨item, hlookup, hvalue⟩ := getIntentData_eq_some.mp hdata
  obtain ⟨u, hu, -⟩ := hs.record newData.key item data hlookup hvalue
  rw [Accepts, hdata, isUpdateAcceptable_some hu hv] at haccepts
  have hcases := of_decide_eq_true (Except.ok.inj haccepts)
  refine ⟨⟨u, v, hu, hv, ?_⟩, fun hsame => ?_⟩
  · rw [Prod.Lex.toLex_lt_toLex]
    exact hcases.imp id fun h => ⟨h.1, h.2.1⟩
  · rw [hu, hv] at hsame
    cases hsame
    exact (hcases.resolve_left (lt_irrefl _)).2.2

theorem newer_iff (hs : Stamped s) (hv : newData.version = some v) (haccepts : Accepts s newData)
    (hstate : newData.state ≠ .PURGE_REQ) :
    Newer (currentTimestampProvider newData s.sequenceNumber m.wallClockTimestamp)
      (s.currentMap.items.lookup newData.key) ↔ Unpurged s newData := by
  have hlt : ∀ item, s.currentMap.items.lookup newData.key = some item →
      (item.timestamp < currentTimestampProvider newData s.sequenceNumber m.wallClockTimestamp ↔
        recordVersion item.timestamp ≤ toLex (v, newData.internalStateVersion)) := by
    intro item hitem
    have hsequence := hs.sequenced newData.key item hitem
    rw [lt_iff_of_sequence_lt (Nat.lt_succ_of_le hsequence), currentTimestampProvider, hv]
    rfl
  constructor
  · intro hnewer _ item w hitem _ hw
    rw [hv] at hw
    cases hw
    exact (hlt item hitem).mp (hnewer item hitem)
  · intro hunpurged item hitem
    rw [hlt item hitem]
    cases hvalue : item.value with
    | none => exact hunpurged hstate item v hitem hvalue hv
    | some data =>
      have hdata := getIntentData_eq_some.mpr ⟨item, hitem, hvalue⟩
      obtain ⟨u, hu, hversion⟩ := hs.record newData.key item data hitem hvalue
      obtain ⟨⟨u', w, hu', hw, hprecedes⟩, -⟩ := precedes_of_accepts hs hv haccepts hdata
      rw [hu] at hu'
      rw [hv] at hw
      cases hu'
      cases hw
      rw [hversion]
      exact hprecedes.le

theorem accepts_of_none (h : s.getIntentData newData.key = none) : Accepts s newData := by
  rw [Accepts, h]
  rfl

end

theorem write_kept (h : ¬ Accepts s newData ∨
    newData.state = .PURGE_REQ ∧ s.getIntentData newData.key = none) :
    (s.write newData m).currentMap = s.currentMap ∧
      (s.write newData m).sequenceNumber = s.sequenceNumber := by
  rcases h with hrejects | ⟨hstate, hnone⟩
  · cases hacceptable : isUpdateAcceptable (s.getIntentData newData.key) newData with
    | ok acceptable =>
      cases acceptable with
      | true => exact absurd hacceptable hrejects
      | false => exact Store.write_currentMap (Store.writeCurrent_of_rejected hacceptable)
    | error e =>
      have herror : s.writeCurrent newData m = .error e := by
        rw [Store.writeCurrent, hacceptable]
        rfl
      rw [Store.write, herror]
      exact ⟨rfl, rfl⟩
  · exact Store.write_currentMap (Store.writeCurrent_of_gratuitous hstate hnone)

theorem write_put (haccepts : Accepts s newData) (hstate : newData.state ≠ .PURGE_REQ)
    (hnewer : Newer (currentTimestampProvider newData s.sequenceNumber m.wallClockTimestamp)
      (s.currentMap.items.lookup newData.key)) (j : K) :
    (s.write newData m).currentMap.items.lookup j = if j = newData.key then
      some ⟨some newData, currentTimestampProvider newData s.sequenceNumber m.wallClockTimestamp,
        m.now⟩ else s.currentMap.items.lookup j := by
  rw [(Store.write_currentMap (Store.writeCurrent_of_put haccepts hstate)).1]
  exact put_of_newer hnewer newData m.now m.currentPeers j

theorem write_dropped (haccepts : Accepts s newData) (hstate : newData.state ≠ .PURGE_REQ)
    (hnewer : ¬ Newer (currentTimestampProvider newData s.sequenceNumber m.wallClockTimestamp)
      (s.currentMap.items.lookup newData.key)) :
    (s.write newData m).currentMap = s.currentMap := by
  rw [(Store.write_currentMap (Store.writeCurrent_of_put haccepts hstate)).1]
  exact put_of_not_newer hnewer newData m.now m.currentPeers

theorem write_purge (hs : Stamped s) (haccepts : Accepts s newData)
    (hstate : newData.state = .PURGE_REQ) {data : IntentData C K V N}
    (hdata : s.getIntentData newData.key = some data) (j : K) :
    (s.write newData m).currentMap.items.lookup j = if j = newData.key then
      s.currentMap.removalTombstone
        (some (currentTimestampProvider data s.sequenceNumber m.wallClockTimestamp)) m.now
      else s.currentMap.items.lookup j := by
  rw [(Store.write_currentMap (Store.writeCurrent_of_purge haccepts hstate hdata)).1]
  refine removeAndNotify_of_newer hdata (.inr ?_) m.now m.currentPeers j
  intro item hitem
  obtain ⟨item', hitem', hvalue⟩ := getIntentData_eq_some.mp hdata
  rw [hitem] at hitem'
  cases hitem'
  obtain ⟨u, hu, hversion⟩ := hs.record newData.key item data hitem hvalue
  have hsequence := hs.sequenced newData.key item hitem
  rw [lt_iff_of_sequence_lt (Nat.lt_succ_of_le hsequence), hversion, currentTimestampProvider, hu]
  exact le_rfl

theorem write_cases (s : Store C K V N P) (hs : Stamped s) (newData : IntentData C K V N)
    (m : Moment V N P) :
    ((s.write newData m).currentMap = s.currentMap ∧
      s.sequenceNumber ≤ (s.write newData m).sequenceNumber) ∨
    (Accepts s newData ∧ (s.write newData m).sequenceNumber = s.sequenceNumber + 1 ∧
      ∃ item, (item = some ⟨some newData,
          currentTimestampProvider newData s.sequenceNumber m.wallClockTimestamp, m.now⟩ ∨
        newData.state = .PURGE_REQ ∧ ∃ data, s.getIntentData newData.key = some data ∧
          item = s.currentMap.removalTombstone
            (some (currentTimestampProvider data s.sequenceNumber m.wallClockTimestamp)) m.now) ∧
        ∀ j, (s.write newData m).currentMap.items.lookup j =
          if j = newData.key then item else s.currentMap.items.lookup j) := by
  by_cases haccepts : Accepts s newData
  · by_cases hstate : newData.state = .PURGE_REQ
    · cases hdata : s.getIntentData newData.key with
      | none =>
        obtain ⟨hmap, hsequence⟩ := write_kept (m := m) (.inr ⟨hstate, hdata⟩)
        exact .inl ⟨hmap, hsequence.ge⟩
      | some data =>
        refine .inr ⟨haccepts, ?_, _, .inr ⟨hstate, data, rfl, rfl⟩,
          write_purge hs haccepts hstate hdata⟩
        exact (Store.write_currentMap (Store.writeCurrent_of_purge haccepts hstate hdata)).2
    · have hsequence := (Store.write_currentMap (Store.writeCurrent_of_put (m := m) haccepts hstate)).2
      by_cases hnewer : Newer (currentTimestampProvider newData s.sequenceNumber
        m.wallClockTimestamp) (s.currentMap.items.lookup newData.key)
      · exact .inr ⟨haccepts, hsequence, _, .inl rfl, write_put haccepts hstate hnewer⟩
      · refine .inl ⟨write_dropped haccepts hstate hnewer, ?_⟩
        rw [hsequence]
        exact Nat.le_succ s.sequenceNumber
  · obtain ⟨hmap, hsequence⟩ := write_kept (m := m) (.inl haccepts)
    exact .inl ⟨hmap, hsequence.ge⟩

omit [DecidableEq C] [DecidableEq K] [LinearOrder V] [DecidableEq N] [LinearOrder P] in
theorem removalTombstone_value (r : Replica K (IntentData C K V N) (RecordTimestamp V) N)
    {timestamp : RecordTimestamp V} {now : ℕ}
    {item : MapValue (IntentData C K V N) (RecordTimestamp V)}
    (h : r.removalTombstone (some timestamp) now = some item) :
    item.value = none ∧ item.timestamp = timestamp := by
  rw [Replica.removalTombstone] at h
  split_ifs at h
  cases h
  exact ⟨rfl, rfl⟩

section

variable (hs : Stamped s)

include hs

theorem stamped_write (hv : newData.version = some v) : Stamped (s.write newData m) := by
  rcases write_cases s hs newData m with ⟨hmap, hsequence⟩ | ⟨-, hsequence, item, hitem, hlookup⟩
  · refine ⟨fun key item hitem => ?_, fun key item data hitem hvalue => ?_⟩
    · rw [hmap] at hitem
      exact (hs.sequenced key item hitem).trans hsequence
    · rw [hmap] at hitem
      exact hs.record key item data hitem hvalue
  · have hwritten : ∀ i, item = some i →
        sequence i.timestamp ≤ s.sequenceNumber + 1 ∧ ∀ data, i.value = some data →
          ∃ v, data.version = some v ∧
            recordVersion i.timestamp = toLex (v, data.internalStateVersion) := by
      intro i hi
      subst hi
      rcases hitem with hput | ⟨-, data, -, hpurge⟩
      · cases hput
        refine ⟨le_rfl, fun data hdata => ?_⟩
        cases hdata
        refine ⟨v, hv, ?_⟩
        rw [currentTimestampProvider, hv]
        rfl
      · obtain ⟨hvalue, htimestamp⟩ := removalTombstone_value s.currentMap hpurge.symm
        rw [hvalue, htimestamp]
        exact ⟨le_rfl, fun data hdata => nomatch hdata⟩
    refine ⟨fun key i hi => ?_, fun key i data hi hvalue => ?_⟩
    · rw [hlookup] at hi
      rw [hsequence]
      split_ifs at hi with hkey
      · exact (hwritten i hi).1
      · exact (hs.sequenced key i hi).trans (Nat.le_succ s.sequenceNumber)
    · rw [hlookup] at hi
      split_ifs at hi with hkey
      · exact (hwritten i hi).2 data hvalue
      · exact hs.record key i data hi hvalue

theorem write_getIntentData (newData : IntentData C K V N) (m : Moment V N P) (j : K) :
    (s.write newData m).getIntentData j = s.getIntentData j ∨
      j = newData.key ∧ Accepts s newData ∧
        (newData.state = .PURGE_REQ ∧ (s.write newData m).getIntentData j = none ∨
          (s.write newData m).getIntentData j = some newData) := by
  rcases write_cases s hs newData m with ⟨hmap, -⟩ | ⟨haccepts, -, item, hitem, hlookup⟩
  · left
    rw [Store.getIntentData, Store.getIntentData, hmap]
  · rw [Store.getIntentData, Replica.get, hlookup]
    split_ifs with hj
    · refine .inr ⟨hj, haccepts, ?_⟩
      rcases hitem with rfl | ⟨hstate, data, -, rfl⟩
      · exact .inr rfl
      · refine .inl ⟨hstate, ?_⟩
        rw [Replica.removalTombstone]
        split_ifs <;> rfl
    · exact .inl rfl

theorem held_write (hheld : Held s.getIntentData) (hv : newData.version = some v) :
    Held (s.write newData m).getIntentData := by
  refine ⟨fun j data hdata => ?_, fun j data hdata => ?_⟩
  · rcases write_getIntentData hs newData m j with hsame | ⟨hj, -, ⟨-, hnone⟩ | hput⟩
    · exact hheld.key j data (hsame ▸ hdata)
    · rw [hnone] at hdata
      cases hdata
    · rw [hput] at hdata
      cases hdata
      exact hj.symm
  · rcases write_getIntentData hs newData m j with hsame | ⟨-, -, ⟨-, hnone⟩ | hput⟩
    · exact hheld.version j data (hsame ▸ hdata)
    · rw [hnone] at hdata
      cases hdata
    · rw [hput] at hdata
      cases hdata
      exact ⟨v, hv⟩

theorem write_record (hv : newData.version = some v) {key : K}
    {data data' : IntentData C K V N} (hdata : s.getIntentData key = some data)
    (hdata' : (s.write newData m).getIntentData key = some data') : data' = data ∨
      Precedes data data' ∧ (data'.version = data.version →
        isTransitionAcceptable data.state data'.state = true) := by
  rcases write_getIntentData hs newData m key with hsame | ⟨rfl, haccepts, ⟨-, hnone⟩ | hput⟩
  · left
    rw [hsame, hdata] at hdata'
    exact (Option.some.inj hdata').symm
  · rw [hnone] at hdata'
    cases hdata'
  · right
    rw [hput] at hdata'
    cases hdata'
    exact precedes_of_accepts hs hv haccepts hdata

theorem forward_iff (hv : newData.version = some v) : Forward s newData m ↔ Unpurged s newData := by
  constructor
  · intro hforward hstate
    have hunpurged : Accepts s newData → Unpurged s newData := fun haccepts =>
      (newer_iff hs hv haccepts hstate).mp (hforward.newer haccepts hstate)
    intro item w hitem hvalue
    have hnone : s.getIntentData newData.key = none := by
      rw [Store.getIntentData, Replica.get, hitem]
      exact hvalue
    exact hunpurged (accepts_of_none hnone) hstate item w hitem hvalue
  · intro hunpurged
    refine ⟨fun key data data' hdata hdata' hne => ?_, fun key data hdata hnone => ?_,
      fun key data data' hdata hdata' hversion hstate => ?_,
      fun key data data' hdata hdata' hversion hstate => ?_,
      fun haccepts hstate => (newer_iff hs hv haccepts hstate).mpr hunpurged, fun haccepts => ?_⟩
    · exact ((write_record hs hv hdata hdata').resolve_left hne).1
    · rcases write_getIntentData hs newData m key with hsame | ⟨hkey, -, ⟨hstate, -⟩ | hput⟩
      · rw [hsame, hdata] at hnone
        cases hnone
      · exact ⟨hkey, hstate⟩
      · rw [hput] at hnone
        cases hnone
    · rcases write_record hs hv hdata hdata' with rfl | ⟨-, htransition⟩
      · revert hstate
        cases data'.state <;> decide
      · exact transition_of_withdrawn hstate (htransition hversion)
    · rcases write_record hs hv hdata hdata' with rfl | ⟨-, htransition⟩
      · revert hstate
        cases data'.state <;> decide
      · exact transition_of_installed hstate (htransition hversion)
    · split_ifs with hstate
      · cases hdata : s.getIntentData newData.key with
        | none =>
          rw [← hdata, Store.getIntentData, Store.getIntentData,
            (write_kept (.inr ⟨hstate, hdata⟩)).1]
        | some data =>
          rw [Store.getIntentData, Replica.get, write_purge hs haccepts hstate hdata, if_pos rfl,
            Replica.removalTombstone]
          split_ifs <;> rfl
      · have hnewer := (newer_iff (m := m) hs hv haccepts hstate).mpr hunpurged
        rw [Store.getIntentData, Replica.get, write_put haccepts hstate hnewer, if_pos rfl]
        rfl

end

end Effect

section Runs

def ForwardStep (s : Store C K V N P) : StoreInput C K V N P → Prop
  | .write newData m => Forward s newData m
  | .pending _ => True

def UnpurgedStep (s : Store C K V N P) : StoreInput C K V N P → Prop
  | .write newData _ => Unpurged s newData
  | .pending _ => True

theorem stamped_initial (n : N) : Stamped (writeMachine n : Machine (Store C K V N P) _).initial :=
  ⟨fun _ _ h => (by cases h), fun _ _ _ h => (by cases h)⟩

theorem stamped_handle {s : Store C K V N P} (hs : Stamped s) {x : StoreInput C K V N P}
    (hx : Versioned x) : Stamped (Store.handle s x) := by
  cases x with
  | write newData m =>
    obtain ⟨v, hv⟩ := hx
    exact stamped_write hs hv
  | pending pendingMap => exact ⟨hs.sequenced, hs.record⟩

/-- Every write of a run moves the records forward, and the map drops none that is accepted, if and
only if no write is older than what was purged under its key. -/
theorem forward_runs_iff (n : N) (xs : List (StoreInput C K V N P))
    (hv : (writeMachine n).Valid (writeMachine n).initial xs) :
    ((writeMachine n).guarded ForwardStep).Valid (writeMachine n).initial xs ↔
      ((writeMachine n).guarded UnpurgedStep).Valid (writeMachine n).initial xs := by
  refine guarded_iff Stamped (fun s x hs hx => stamped_handle hs hx) (fun s x hs hx => ?_) hv
    (stamped_initial n)
  cases x with
  | write newData m =>
    obtain ⟨v, hv⟩ := hx
    exact forward_iff hs hv
  | pending pendingMap => exact Iff.rfl

def recorded (state : IntentState) (version internalStateVersion : ℕ) : StoreInput ℕ ℕ ℕ ℕ ℕ :=
  .write ⟨⟨0, 0, 0⟩, state, state, some version, internalStateVersion, some 0, 0, []⟩
    ⟨0, 0, 0, [], []⟩

theorem forward_runs_iff_installed :
    ((writeMachine 0).guarded ForwardStep).Valid (writeMachine 0).initial
        [recorded .INSTALLING 1 2, recorded .INSTALLED 1 3] ↔
      ((writeMachine 0).guarded UnpurgedStep).Valid (writeMachine 0).initial
        [recorded .INSTALLING 1 2, recorded .INSTALLED 1 3] :=
  forward_runs_iff 0 _ ⟨⟨1, rfl⟩, ⟨1, rfl⟩, trivial⟩

/-- A request that is older than what was purged is accepted, and the map drops it. -/
theorem dropped_after_purge : ∃ xs : List (StoreInput ℕ ℕ ℕ ℕ ℕ),
    (writeMachine 0).Valid (writeMachine 0).initial xs ∧
      ¬ ((writeMachine 0).guarded ForwardStep).Valid (writeMachine 0).initial xs := by
  refine ⟨[recorded .WITHDRAWN 2 2, recorded .PURGE_REQ 3 1, recorded .INSTALLING 1 2],
    ⟨⟨2, rfl⟩, ⟨3, rfl⟩, ⟨1, rfl⟩, trivial⟩, fun h => ?_⟩
  have harrives := h.2.2.1.2.arrives rfl
  revert harrives
  decide

end Runs

end IntentRecords

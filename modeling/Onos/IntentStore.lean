import Mathlib.Data.Prod.Lex
import Onos.ECMapGossip
import Onos.IntentBatch

/-! The intent store: a map of current records and a map of pending requests. Timestamps of the
current map are made of the record, those of the pending map are read from a clock. -/
namespace GossipIntentStore

open ECMapReplica ECMapReplica.Replica ECMapWrites Intents IntentBatch

abbrev MultiValuedTimestamp (T U : Type*) := T ×ₗ U

/-- The version of the request, the internal version of the state, and a sequence number. -/
abbrev RecordTimestamp (V : Type*) := MultiValuedTimestamp V (MultiValuedTimestamp ℕ ℕ)

variable {C K V N P : Type*} [DecidableEq C] [DecidableEq K] [LinearOrder V] [DecidableEq N]
  [LinearOrder P]

section Model

structure Store (C K V N P : Type*) where
  currentMap : Replica K (IntentData C K V N) (RecordTimestamp V) N
  pendingMap : Replica K (IntentData C K V N) P N
  sequenceNumber : ℕ

/-- What one operation reads outside of the store: the clocks, and the peers of each map. -/
structure Moment (V N P : Type*) where
  wallClockTimestamp : V
  pendingTimestamp : P
  now : ℕ
  currentPeers : List N
  pendingPeers : List N

def isOlderThan (version other : Option V) : Except Failure Bool := isNewerThan other version

/-- The three cases of the switch that share their last checks, from the last one on. -/
def installedCase (currentState : IntentState) : Bool :=
  if currentState = .INSTALLED then false
  else if currentState = .WITHDRAWING || currentState = .WITHDRAWN || currentState = .PURGE_REQ then
    false
  else true

def reallocatingCase (currentState : IntentState) : Bool :=
  if currentState = .REALLOCATING then false
  else if currentState = .INSTALLED then true
  else installedCase currentState

def installingCase (currentState : IntentState) : Bool :=
  if currentState = .INSTALLING then false else reallocatingCase currentState

def withdrawnCase (currentState : IntentState) : Bool :=
  if currentState = .WITHDRAWN then false
  else if currentState = .INSTALLING || currentState = .INSTALLED || currentState = .PURGE_REQ then
    false
  else true

def withdrawingCase (currentState : IntentState) : Bool :=
  if currentState = .WITHDRAWING then false else withdrawnCase currentState

def isTransitionAcceptable (currentState : IntentState) : IntentState → Bool
  | .INSTALLING => installingCase currentState
  | .REALLOCATING => reallocatingCase currentState
  | .INSTALLED => installedCase currentState
  | .WITHDRAWING => withdrawingCase currentState
  | .WITHDRAWN => withdrawnCase currentState
  | .FAILED => currentState ≠ .FAILED
  | .CORRUPT => currentState ≠ .CORRUPT
  | .PURGE_REQ => true
  | .COMPILING | .RECOMPILING | .INSTALL_REQ | .WITHDRAW_REQ => false

def isUpdateAcceptable (currentData : Option (IntentData C K V N)) (newData : IntentData C K V N) :
    Except Failure Bool :=
  match currentData with
  | none => .ok true
  | some currentData => do
    if ← isOlderThan currentData.version newData.version then return true
    if ← isNewerThan currentData.version newData.version then return false
    if newData.internalStateVersion ≤ currentData.internalStateVersion then return false
    return isTransitionAcceptable currentData.state newData.state

def currentTimestampProvider (data : IntentData C K V N) (sequenceNumber : ℕ)
    (wallClockTimestamp : V) : RecordTimestamp V :=
  toLex (data.version.getD wallClockTimestamp,
    toLex (data.internalStateVersion, sequenceNumber + 1))

namespace Store

def getIntentData (s : Store C K V N P) (key : K) : Option (IntentData C K V N) :=
  s.currentMap.get key

def getPendingData (s : Store C K V N P) (key : K) : Option (IntentData C K V N) :=
  s.pendingMap.get key

def putCurrent (s : Store C K V N P) (newData : IntentData C K V N) (m : Moment V N P) :
    Store C K V N P :=
  let timestamp := currentTimestampProvider newData s.sequenceNumber m.wallClockTimestamp
  { s with
    currentMap :=
      (s.currentMap.put newData.key newData (some timestamp) m.now m.currentPeers).getD s.currentMap
    sequenceNumber := s.sequenceNumber + 1 }

def removeCurrent (s : Store C K V N P) (key : K) (currentData : IntentData C K V N)
    (m : Moment V N P) : Store C K V N P :=
  let timestamp := currentTimestampProvider currentData s.sequenceNumber m.wallClockTimestamp
  { s with
    currentMap :=
      s.currentMap.removeAndNotify key (some currentData) (some timestamp) m.now m.currentPeers
    sequenceNumber := s.sequenceNumber + 1 }

def removePending (s : Store C K V N P) (key : K) (existingValue : IntentData C K V N)
    (m : Moment V N P) : Store C K V N P :=
  { s with
    pendingMap := s.pendingMap.removeAndNotify key (some existingValue) (some m.pendingTimestamp)
      m.now m.pendingPeers }

def writeCurrent (s : Store C K V N P) (newData : IntentData C K V N) (m : Moment V N P) :
    Except Failure (Store C K V N P) :=
  (isUpdateAcceptable (s.getIntentData newData.key) newData).map fun acceptable =>
    if acceptable then
      if newData.state = .PURGE_REQ then
        match s.getIntentData newData.key with
        | some currentData => s.removeCurrent newData.key currentData m
        | none => s
      else s.putCurrent newData m
    else s

def writePending (s : Store C K V N P) (newData : IntentData C K V N) (m : Moment V N P) :
    Except Failure (Store C K V N P) :=
  match s.getPendingData newData.key with
  | none => .ok s
  | some existingValue => (isNewerThan existingValue.version newData.version).map fun newer =>
    if newer then s else s.removePending newData.key existingValue m

def write (s : Store C K V N P) (newData : IntentData C K V N) (m : Moment V N P) :
    Store C K V N P :=
  match s.writeCurrent newData m with
  | .error _ => s
  | .ok s' => (s'.writePending newData m).toOption.getD s'

end Store

end Model

section Switch

theorem transition_of_withdrawn {currentState newState : IntentState}
    (hcurrent : currentState ∈ [.WITHDRAWING, .WITHDRAWN])
    (h : isTransitionAcceptable currentState newState = true) :
    newState ∉ [.INSTALLING, .INSTALLED, .REALLOCATING] := by
  revert hcurrent h
  cases currentState <;> cases newState <;> decide

theorem transition_of_installed {currentState newState : IntentState}
    (hcurrent : currentState ∈ [.INSTALLING, .INSTALLED])
    (h : isTransitionAcceptable currentState newState = true) :
    newState ∉ [.WITHDRAWING, .WITHDRAWN] := by
  revert hcurrent h
  cases currentState <;> cases newState <;> decide

/-- The record is older than the other one in its version, or in its state. -/
def Precedes (data newData : IntentData C K V N) : Prop :=
  ∃ v w, data.version = some v ∧ newData.version = some w ∧
    toLex (v, data.internalStateVersion) < toLex (w, newData.internalStateVersion)

omit [DecidableEq C] [DecidableEq K] [DecidableEq N] in
theorem isUpdateAcceptable_some {currentData newData : IntentData C K V N} {v w : V}
    (hv : currentData.version = some v) (hw : newData.version = some w) :
    isUpdateAcceptable (some currentData) newData = .ok (decide (v < w ∨ v = w ∧
      currentData.internalStateVersion < newData.internalStateVersion ∧
        isTransitionAcceptable currentData.state newData.state = true)) := by
  have holder : isOlderThan currentData.version newData.version = .ok (decide (v < w)) := by
    rw [hv, hw]
    rfl
  have hnewer : isNewerThan currentData.version newData.version = .ok (decide (w < v)) := by
    rw [hv, hw]
    rfl
  rw [isUpdateAcceptable, holder, hnewer]
  rcases lt_trichotomy v w with h | rfl | h
  · simp [h, Pure.pure, Except.pure, Bind.bind, Except.bind]
  · by_cases hinternal : newData.internalStateVersion ≤ currentData.internalStateVersion
    · simp [hinternal, Pure.pure, Except.pure, Bind.bind, Except.bind]
    · have hlt : currentData.internalStateVersion < newData.internalStateVersion := by omega
      simp [hinternal, hlt, Pure.pure, Except.pure, Bind.bind, Except.bind]
  · simp [h, h.not_gt, h.ne', Pure.pure, Except.pure, Bind.bind, Except.bind]

structure Held (map : K → Option (IntentData C K V N)) : Prop where
  key : ∀ key data, map key = some data → data.key = key
  version : ∀ key data, map key = some data → ∃ v, data.version = some v

end Switch

section Maps

open KeyedMap

variable {D T : Type*} [DecidableEq D] [LinearOrder T] {r : Replica K D T N}

variable {key : K} {timestamp : T}

section

omit [DecidableEq D]

theorem put_of_newer (h : Newer timestamp (r.items.lookup key))
    (value : D) (now : ℕ) (peers : List N) (j : K) :
    ((r.put key value (some timestamp) now peers).getD r).items.lookup j =
      if j = key then some ⟨some value, timestamp, now⟩ else r.items.lookup j := by
  have hput : r.putInternal key ⟨some value, timestamp, now⟩ =
      ({ r with items := KeyedMap.put r.items key (some ⟨some value, timestamp, now⟩) }, true) := by
    rw [putInternal]
    cases hl : r.items.lookup key with
    | none => rfl
    | some existing =>
      have hlt : existing.timestamp < timestamp := h existing hl
      simp [MapValue.isNewerThan, hlt]
  rw [Replica.put]
  simp only [Option.map_some, Option.getD_some, hput]
  apply lookup_put

theorem put_of_not_newer (h : ¬ Newer timestamp (r.items.lookup key))
    (value : D) (now : ℕ) (peers : List N) :
    (r.put key value (some timestamp) now peers).getD r = r := by
  cases hput : r.put key value (some timestamp) now peers with
  | none => rfl
  | some r' =>
    rcases put_cases hput with rfl | ⟨t, ht, hnewer, -⟩
    · rfl
    · cases ht
      exact absurd hnewer h

end

theorem removeAndNotify_of_newer {value : D} (hvalue : r.get key = some value)
    (h : r.tombstonesDisabled = true ∨ Newer timestamp (r.items.lookup key))
    (now : ℕ) (peers : List N) (j : K) :
    (r.removeAndNotify key (some value) (some timestamp) now peers).items.lookup j =
      if j = key then r.removalTombstone (some timestamp) now else r.items.lookup j := by
  obtain ⟨existing, hl, hexisting⟩ := Option.bind_eq_some_iff.mp hvalue
  have hremoves : removes (some value) (r.removalTombstone (some timestamp) now)
      (some existing) = true := by
    simp only [removes, valueMatches, removalTombstone]
    rcases h with h | h
    · simp [h, hexisting]
    · split_ifs
      · simp [hexisting]
      · have hlt : existing.timestamp < timestamp := h existing hl
        simp [hexisting, MapValue.isNewerThan, MapValue.tombstone, hlt]
  rw [removeAndNotify, removeInternal]
  simp only [hl, hremoves, if_true, notifyRemoved_items]
  apply lookup_put

theorem removeAndNotify_of_not_newer {value : D} (hvalue : r.get key = some value)
    (hdisabled : r.tombstonesDisabled = false)
    (h : ¬ Newer timestamp (r.items.lookup key)) (now : ℕ) (peers : List N) :
    r.removeAndNotify key (some value) (some timestamp) now peers = r := by
  obtain ⟨existing, hl, hexisting⟩ := Option.bind_eq_some_iff.mp hvalue
  have hlt : ¬ existing.timestamp < timestamp := by
    intro hlt
    apply h
    intro e he
    rw [hl] at he
    rwa [← Option.some.inj he]
  have hremoves : removes (some value) (r.removalTombstone (some timestamp) now)
      (some existing) = false := by
    simp [removes, removalTombstone, hdisabled, MapValue.isNewerThan, MapValue.tombstone, hlt]
  rw [removeAndNotify, removeInternal]
  simp only [hl, hremoves, Bool.false_eq_true, if_false]

end Maps

namespace Store

variable {s : Store C K V N P} {newData : IntentData C K V N} {m : Moment V N P}

theorem writePending_currentMap (s : Store C K V N P) (newData : IntentData C K V N)
    (m : Moment V N P) :
    ((s.writePending newData m).toOption.getD s).currentMap = s.currentMap ∧
      ((s.writePending newData m).toOption.getD s).sequenceNumber = s.sequenceNumber := by
  rw [writePending]
  cases s.getPendingData newData.key with
  | none => exact ⟨rfl, rfl⟩
  | some existingValue =>
    dsimp only
    cases isNewerThan existingValue.version newData.version with
    | error e => exact ⟨rfl, rfl⟩
    | ok newer => cases newer <;> exact ⟨rfl, rfl⟩

theorem write_currentMap {s' : Store C K V N P} (h : s.writeCurrent newData m = .ok s') :
    (s.write newData m).currentMap = s'.currentMap ∧
      (s.write newData m).sequenceNumber = s'.sequenceNumber := by
  rw [write, h]
  apply writePending_currentMap

omit [LinearOrder P]

theorem writeCurrent_of_rejected
    (h : isUpdateAcceptable (s.getIntentData newData.key) newData = .ok false) :
    s.writeCurrent newData m = .ok s := by
  rw [writeCurrent, h]
  rfl

section

variable (h : isUpdateAcceptable (s.getIntentData newData.key) newData = .ok true)

include h

theorem writeCurrent_of_put (hstate : newData.state ≠ .PURGE_REQ) :
    s.writeCurrent newData m = .ok (s.putCurrent newData m) := by
  rw [writeCurrent, h]
  simp [Except.map, hstate]

theorem writeCurrent_of_purge {currentData : IntentData C K V N}
    (hstate : newData.state = .PURGE_REQ)
    (hcurrent : s.getIntentData newData.key = some currentData) :
    s.writeCurrent newData m = .ok (s.removeCurrent newData.key currentData m) := by
  rw [writeCurrent, h]
  simp [Except.map, hstate, hcurrent]

end

theorem writeCurrent_of_gratuitous (hstate : newData.state = .PURGE_REQ)
    (hcurrent : s.getIntentData newData.key = none) : s.writeCurrent newData m = .ok s := by
  rw [writeCurrent, hcurrent]
  simp [Except.map, hstate, isUpdateAcceptable]

end Store

end GossipIntentStore

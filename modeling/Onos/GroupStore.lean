import Onos.Lib.FedIndex
import Onos.Lib.InputMachine
import Mathlib.Data.BitVec

/-! The groups of one device in the distributed group store, as one node has them: the key map,
which all nodes share, the node's own table of groups by id, which the events of the key map bring
up to date, and the groups of the switch that the store does not know. -/
namespace GroupStore

open KeyedMap FedIndex InputMachine

abbrev GroupId := BitVec 32

def dummyGroupId : GroupId := 0xffffffff#32

def maxFailedAttempts : ℕ := 3

inductive GroupType where
  | select
  | indirect
  | all
  | clone
  | failover
  deriving DecidableEq, Repr

inductive GroupState where
  | waitingAuditComplete
  | pendingAdd
  | pendingAddRetry
  | added
  | pendingUpdate
  | pendingDelete
  deriving DecidableEq, Repr

section Groups

structure GroupBucket (τ : Type) where
  type : GroupType
  treatment : List τ
  weight : ℤ
  watchPort : Option ℕ
  watchGroup : Option GroupId
  packets : ℤ
  bytes : ℤ
  deriving DecidableEq, Repr

structure Group (τ : Type) where
  id : GroupId
  type : GroupType
  buckets : List (GroupBucket τ)
  life : ℤ
  packets : ℤ
  bytes : ℤ
  referenceCount : ℤ
  deriving DecidableEq, Repr

structure StoredGroup (τ κ : Type) extends Group τ where
  appCookie : κ
  givenGroupId : Option GroupId
  state : GroupState
  isGroupStateAddedFirstTime : Bool
  age : ℕ
  failedRetryCount : ℕ
  deriving DecidableEq, Repr

variable {τ κ : Type} [DecidableEq τ]

def HasConsistentBuckets (type : GroupType) (buckets : List (GroupBucket τ)) : Prop :=
  (type = .indirect → buckets.length = 1) ∧ ∀ b ∈ buckets, b.type = type

instance decidableHasConsistentBuckets (type : GroupType) (buckets : List (GroupBucket τ)) :
    Decidable (HasConsistentBuckets type buckets) :=
  inferInstanceAs (Decidable (_ ∧ _))

omit [DecidableEq τ] in
theorem hasConsistentBuckets_all_nil : HasConsistentBuckets (τ := τ) .all [] := by
  refine ⟨fun h => ?_, fun b hb => ?_⟩
  · cases h
  · exact absurd hb List.not_mem_nil

structure GroupDescription (τ κ : Type) where
  type : GroupType
  buckets : List (GroupBucket τ)
  appCookie : κ
  givenGroupId : Option GroupId
  checked : HasConsistentBuckets type buckets

/-- The order of the instructions, the weight and the counts do not matter. -/
def GroupBucket.equals (b c : GroupBucket τ) : Bool :=
  b.type = c.type && (∀ i ∈ c.treatment, i ∈ b.treatment) && (∀ i ∈ b.treatment, i ∈ c.treatment)

def GroupBucket.hasSameParameters (b c : GroupBucket τ) : Bool :=
  b.weight = c.weight && b.watchPort = c.watchPort && b.watchGroup = c.watchGroup

def contains (buckets : List (GroupBucket τ)) (b : GroupBucket τ) : Bool := buckets.any b.equals

def containsAll (buckets others : List (GroupBucket τ)) : Bool := others.all (contains buckets)

def bucketsEqual (buckets others : List (GroupBucket τ)) : Bool :=
  containsAll buckets others && containsAll others buckets

def Group.equals (g h : Group τ) : Bool :=
  g.type = h.type && bucketsEqual g.buckets h.buckets && g.id = h.id

/-- A new group of the store, with the state and the counts of the constructor. -/
def newGroup (id : GroupId) (desc : GroupDescription τ κ) : StoredGroup τ κ where
  id := id
  type := desc.type
  buckets := desc.buckets
  life := 0
  packets := 0
  bytes := 0
  referenceCount := 0
  appCookie := desc.appCookie
  givenGroupId := desc.givenGroupId
  state := .pendingAdd
  isGroupStateAddedFirstTime := false
  age := 0
  failedRetryCount := 0

inductive UpdateType where
  | add
  | remove
  | set
  deriving DecidableEq, Repr

def getUpdatedBucketList (oldBuckets : List (GroupBucket τ)) (type : UpdateType)
    (buckets : List (GroupBucket τ)) : Option (List (GroupBucket τ)) :=
  match type with
  | .set => some buckets
  | .add =>
    if oldBuckets.any (fun b => (buckets.find? b.equals).any fun c => !c.hasSameParameters b) ||
        !containsAll oldBuckets buckets then
      some (oldBuckets.filter (fun b => !contains buckets b) ++ buckets)
    else none
  | .remove =>
    if oldBuckets.any (contains buckets) then
      some (oldBuckets.filter fun b => !contains buckets b)
    else none

end Groups

section Events

inductive GroupEventType where
  | groupAdded
  | groupRemoved
  | groupUpdated
  | groupAddFailed
  | groupRemoveFailed
  | groupUpdateFailed
  | groupAddRequested
  | groupUpdateRequested
  | groupRemoveRequested
  deriving DecidableEq, Repr

/-- The delegate is notified of groups of the store, and asked to remove groups of the switch. -/
inductive GroupEvent (τ κ : Type) where
  | of (type : GroupEventType) (group : StoredGroup τ κ)
  | removeExtraneous (group : Group τ)
  deriving DecidableEq, Repr

inductive OperationType where
  | add
  | modify
  | delete
  deriving DecidableEq, Repr

inductive GroupMsgErrorCode where
  | groupExists
  | invalidGroup
  | weightUnsupported
  | outOfGroups
  | outOfBuckets
  | chainingUnsupported
  | watchUnsupported
  | loop
  | unknownGroup
  | chainedGroup
  | badType
  | badCommand
  | badBucket
  | badWatch
  | eperm
  deriving DecidableEq, Repr

structure GroupOperation (τ : Type) where
  opType : OperationType
  groupId : GroupId
  buckets : List (GroupBucket τ)
  failureCode : Option GroupMsgErrorCode
  deriving DecidableEq, Repr

end Events

/-- A group is stored in the key map under its key. The events of the key map that the node has not
received yet are in the order of the changes. Requests that wait for the audit have their
descriptions. -/
structure Store (τ κ : Type) where
  keyMap : Table κ (StoredGroup τ κ)
  pendingKeyTable : Table κ (GroupDescription τ κ)
  idTable : Table GroupId (StoredGroup τ κ)
  events : List (Change κ (StoredGroup τ κ))
  extraneous : Table GroupId (Group τ)
  deviceAuditStatus : Option Bool
  groupIdGen : GroupId
  notified : List (GroupEvent τ κ)

structure Config where
  garbageCollect : Bool
  gcThresh : ℤ
  allowExtraneousGroups : Bool
  deriving DecidableEq, Repr

/-- Who is master of the device, as the node sees it, and whether the device is there. A call is one
step, so that it gets one answer to all its questions. -/
structure Mastership where
  isLocalMaster : Bool
  hasMaster : Bool
  isAvailable : Bool
  deriving DecidableEq, Repr

namespace Store

variable {τ κ : Type} [DecidableEq τ] [DecidableEq κ]

def empty : Store τ κ := ⟨∅, ∅, ∅, [], ∅, none, 0, []⟩

section Tables

def notify (s : Store τ κ) (e : GroupEvent τ κ) : Store τ κ := { s with notified := s.notified ++ [e] }

def putKey (s : Store τ κ) (g : StoredGroup τ κ) : Store τ κ :=
  { s with keyMap := s.keyMap.insert g.appCookie g, events := s.events ++ [.put g] }

def removeKey (s : Store τ κ) (k : κ) : Store τ κ :=
  if k ∈ s.keyMap then
    { s with keyMap := s.keyMap.erase k, events := s.events ++ [.remove k] }
  else s

def putId (s : Store τ κ) (g : StoredGroup τ κ) : Store τ κ :=
  { s with idTable := s.idTable.insert g.id g }

def record (s : Store τ κ) (g : StoredGroup τ κ) : Store τ κ := (s.putKey g).putId g

def addOrUpdateExtraneousGroupEntry (s : Store τ κ) (group : Group τ) : Store τ κ :=
  { s with extraneous := s.extraneous.insert group.id group }

def removeExtraneousGroupEntry (s : Store τ κ) (group : Group τ) : Store τ κ :=
  { s with extraneous := s.extraneous.erase group.id }

/-- The listener of the key map. The event of a removal has no group: it is looked for in the table
of the node. -/
def handleEvent (s : Store τ κ) : Change κ (StoredGroup τ κ) → Store τ κ
  | .put group =>
    let s' := s.putId group
    if group.state = .added then
      if group.isGroupStateAddedFirstTime then s'.notify (.of .groupAdded group)
      else s'.notify (.of .groupUpdated group)
    else s'
  | .remove key =>
    match (values s.idTable).find? fun stored => stored.appCookie = key with
    | none => s
    | some group =>
      let s' := if (s.idTable.lookup group.id).any (fun g => g.toGroup.equals group.toGroup) then
        { s with idTable := s.idTable.erase group.id } else s
      s'.notify (.of .groupRemoved group)

end Tables

section Entries

def setCounts (b : GroupBucket τ) : List (GroupBucket τ) → List (GroupBucket τ)
  | [] => []
  | c :: cs =>
    if c.equals b then { c with packets := b.packets, bytes := b.bytes } :: cs
    else c :: setCounts b cs

def updateGroupEntryStatsInternal (group : Group τ) (existing : StoredGroup τ κ) :
    StoredGroup τ κ :=
  { existing with
    buckets := group.buckets.foldl (fun cs b => setCounts b cs) existing.buckets
    life := group.life
    packets := group.packets
    bytes := group.bytes
    referenceCount := group.referenceCount
    age := if group.referenceCount = 0 then existing.age + 1 else 0
    failedRetryCount := 0 }

def isPendingAdd (group : StoredGroup τ κ) : Bool :=
  group.state = .pendingAdd || group.state = .pendingAddRetry

def confirmed (group : Group τ) (existing : StoredGroup τ κ) : StoredGroup τ κ :=
  { updateGroupEntryStatsInternal group existing with
    state := .added
    isGroupStateAddedFirstTime := isPendingAdd existing }

def addOrUpdateGroupEntry (s : Store τ κ) (group : Group τ) : Store τ κ :=
  match s.idTable.lookup group.id with
  | none => s
  | some existing =>
    (s.record (confirmed group existing)).notify
      (.of (if isPendingAdd existing then .groupAdded else .groupUpdated) (confirmed group existing))

def updateGroupEntryStats (s : Store τ κ) (group : Group τ) : Store τ κ :=
  match s.idTable.lookup group.id with
  | none => s
  | some existing =>
    if existing.state = .pendingDelete then s
    else s.record (confirmed group existing)

def removeGroupEntry (s : Store τ κ) (group : Group τ) : Store τ κ :=
  match s.idTable.lookup group.id with
  | none => s
  | some existing => (s.removeKey existing.appCookie).notify (.of .groupRemoved existing)

def purgeGroupEntry (s : Store τ κ) : Store τ κ := s.keyMap.keys.foldl removeKey s

def deleteGroupDescriptionInternal (s : Store τ κ) (appCookie : κ) : Store τ κ :=
  match s.keyMap.lookup appCookie with
  | none => s
  | some existing =>
    (s.putKey { existing with state := .pendingDelete }).notify
      (.of .groupRemoveRequested { existing with state := .pendingDelete })

/-- The group after an update, with the key that it is stored under. There is none if the buckets do
not change, or if the constructor of the description refuses them. -/
def updatedGroup (oldGroup : StoredGroup τ κ) (type : UpdateType) (newBuckets : List (GroupBucket τ))
    (newAppCookie : Option κ) : Option (StoredGroup τ κ) :=
  match getUpdatedBucketList oldGroup.buckets type newBuckets with
  | none => none
  | some newBucketList =>
    if h : HasConsistentBuckets oldGroup.type newBucketList then
      some { newGroup oldGroup.id ⟨oldGroup.type, newBucketList,
          newAppCookie.getD oldGroup.appCookie, oldGroup.givenGroupId, h⟩ with
        state := .pendingUpdate
        life := oldGroup.life
        packets := oldGroup.packets
        bytes := oldGroup.bytes }
    else none

def updateGroupDescriptionInternal (s : Store τ κ) (oldAppCookie : κ) (type : UpdateType)
    (newBuckets : List (GroupBucket τ)) (newAppCookie : Option κ) : Store τ κ :=
  match s.keyMap.lookup oldAppCookie with
  | none => s
  | some oldGroup =>
    match updatedGroup oldGroup type newBuckets newAppCookie with
    | none => s
    | some group => (s.putKey group).notify (.of .groupUpdateRequested group)

/-- How a failure ends that is neither a group that exists nor one to retry. -/
def operationFailed (s : Store τ κ) (operation : GroupOperation τ) (existing : StoredGroup τ κ) :
    Store τ κ :=
  match operation.opType with
  | .add =>
    if isPendingAdd existing then
      (s.notify (.of .groupAddFailed existing)).removeKey existing.appCookie
    else s
  | .modify => s.notify (.of .groupUpdateFailed existing)
  | .delete => s.notify (.of .groupRemoveFailed existing)

/-- A failed attempt is counted in the group of the table, which the key map does not see. -/
def groupOperationFailed (s : Store τ κ) (operation : GroupOperation τ) : Store τ κ :=
  match s.idTable.lookup operation.groupId with
  | none => s
  | some existing =>
    if operation.failureCode = some .groupExists ∧ bucketsEqual operation.buckets existing.buckets ∧
        isPendingAdd existing then
      s.addOrUpdateGroupEntry existing.toGroup
    else if operation.failureCode = some .invalidGroup then
      let counted := { existing with failedRetryCount := existing.failedRetryCount + 1 }
      if counted.failedRetryCount < maxFailedAttempts then s.putId counted
      else (s.putId counted).operationFailed operation counted
    else s.operationFailed operation existing

end Entries

section Requests

def isUsed (s : Store τ κ) (id : GroupId) : Bool :=
  (s.idTable.lookup id).isSome || (s.extraneous.lookup id).isSome

/-- The next id that no group has. After as many steps as there are ids there is none, and the
search goes on for ever. -/
def getFreeGroupIdValue (s : Store τ κ) : ℕ → GroupId → Option GroupId
  | 0, _ => none
  | n + 1, gen => if s.isUsed (gen + 1) then s.getFreeGroupIdValue n (gen + 1) else some (gen + 1)

def getMatchingExtraneousGroupbyBuckets (s : Store τ κ) (buckets : List (GroupBucket τ)) :
    Option (Group τ) :=
  (values s.extraneous).find? fun group => bucketsEqual group.buckets buckets

def adopt (s : Store τ κ) (group : Group τ) (groupDesc : GroupDescription τ κ) : Store τ κ :=
  ((s.record (newGroup group.id groupDesc)).addOrUpdateGroupEntry group).removeExtraneousGroupEntry
    group

/-- A group of the switch with the id that was asked for, to which the buckets are given. -/
def adoptAndUpdate (s : Store τ κ) (group : Group τ) (groupDesc : GroupDescription τ κ) :
    Store τ κ :=
  let modified := { newGroup group.id groupDesc with state := .pendingUpdate }
  ((s.record modified).removeExtraneousGroupEntry group).notify
    (.of .groupUpdateRequested modified)

def createGroup (s : Store τ κ) (id : GroupId) (groupDesc : GroupDescription τ κ) : Store τ κ :=
  (s.record (newGroup id groupDesc)).notify (.of .groupAddRequested (newGroup id groupDesc))

def addToPendingAudit (s : Store τ κ) (groupDesc : GroupDescription τ κ) : Store τ κ :=
  { s with pendingKeyTable := s.pendingKeyTable.insert groupDesc.appCookie groupDesc }

def storeGroupDescriptionInternal (s : Store τ κ) (groupDesc : GroupDescription τ κ) : Store τ κ :=
  if (s.keyMap.lookup groupDesc.appCookie).isSome then s
  else if s.deviceAuditStatus = none then s.addToPendingAudit groupDesc
  else
    match groupDesc.givenGroupId with
    | some id =>
      match s.extraneous.lookup id with
      | some group =>
        if bucketsEqual group.buckets groupDesc.buckets then s.adopt group groupDesc
        else s.adoptAndUpdate group groupDesc
      | none => if (s.idTable.lookup id).isSome then s else s.createGroup id groupDesc
    | none =>
      match s.getMatchingExtraneousGroupbyBuckets groupDesc.buckets with
      | some group => s.adopt group groupDesc
      | none =>
        match s.getFreeGroupIdValue (2 ^ 32) s.groupIdGen with
        | none => s
        | some id => { s with groupIdGen := id }.createGroup id groupDesc

def executePending (s : Store τ κ) (groupDesc : GroupDescription τ κ) : Store τ κ :=
  let s' := s.storeGroupDescriptionInternal groupDesc
  { s' with pendingKeyTable := s'.pendingKeyTable.erase groupDesc.appCookie }

def deviceInitialAuditCompleted (s : Store τ κ) (completed : Bool) : Store τ κ :=
  if completed then
    (values s.pendingKeyTable).foldl executePending { s with deviceAuditStatus := some true }
  else if s.deviceAuditStatus = some true then { s with deviceAuditStatus := some false }
  else s

end Requests

section Audit

/-- The master collects the groups that nothing refers to. They leave the sets of the audit. -/
def collect (cfg : Config) (same : Group τ → Group τ → Bool) :
    List (StoredGroup τ κ) → Store τ κ × List (Group τ) →
      Store τ κ × List (Group τ) × List (StoredGroup τ κ)
  | [], (s, southbound) => (s, southbound, [])
  | group :: groups, (s, southbound) =>
    if group.state ≠ .pendingDelete ∧ group.referenceCount = 0 ∧ cfg.gcThresh ≤ group.age then
      collect cfg same groups
        (s.deleteGroupDescriptionInternal group.appCookie, southbound.eraseP (same group.toGroup))
    else
      let r := collect cfg same groups (s, southbound)
      (r.1, r.2.1, group :: r.2.2)

def garbageCollect (cfg : Config) (same : Group τ → Group τ → Bool) (m : Mastership) (s : Store τ κ)
    (southbound : List (Group τ)) (stored : List (StoredGroup τ κ)) :
    Store τ κ × List (Group τ) × List (StoredGroup τ κ) :=
  if cfg.garbageCollect && m.isLocalMaster then collect cfg same stored (s, southbound)
  else (s, southbound, stored)

def updateStats (same : Group τ → Group τ → Bool) :
    List (Group τ) → Store τ κ × List (StoredGroup τ κ) →
      Store τ κ × List (Group τ) × List (StoredGroup τ κ)
  | [], (s, stored) => (s, [], stored)
  | group :: groups, (s, stored) =>
    if stored.any fun g => same group g.toGroup then
      updateStats same groups
        (s.updateGroupEntryStats group, stored.eraseP fun g => same group g.toGroup)
    else
      let r := updateStats same groups (s, stored)
      (r.1, group :: r.2.1, r.2.2)

/-- Groups of the switch that the store does not have, unless the node knows their ids. -/
def checkExtraneous (cfg : Config) (same : Group τ → Group τ → Bool) (group : Group τ)
    (r : Store τ κ × List (StoredGroup τ κ) × List (Group τ)) :
    Store τ κ × List (StoredGroup τ κ) × List (Group τ) :=
  match r.1.idTable.lookup group.id with
  | some existing =>
    (r.1, r.2.1.eraseP fun g => same existing.toGroup g.toGroup, r.2.2)
  | none =>
    (if cfg.allowExtraneousGroups then r.1.addOrUpdateExtraneousGroupEntry group
      else r.1.notify (.removeExtraneous group),
    r.2.1, r.2.2.eraseP (same group))

def groupMissing (s : Store τ κ) (group : StoredGroup τ κ) : Store τ κ :=
  match group.state with
  | .pendingDelete => s.removeGroupEntry group.toGroup
  | .waitingAuditComplete => s
  | .added | .pendingAdd | .pendingAddRetry | .pendingUpdate =>
    (s.putKey { group with state := .pendingAddRetry }).notify
      (.of .groupAddRequested { group with state := .pendingAddRetry })

def newHashSet {γ : Type} (same : γ → γ → Bool) : List γ → List γ
  | [] => []
  | g :: gs => g :: (newHashSet same gs).filter fun h => !same g h

def sameGroup (hashCode : Group τ → ℤ) (g h : Group τ) : Bool :=
  hashCode g = hashCode h && g.equals h

def getStoredGroups (m : Mastership) (s : Store τ κ) : List (StoredGroup τ κ) :=
  if !m.hasMaster && m.isAvailable then [] else values s.keyMap

def collected (cfg : Config) (hashCode : Group τ → ℤ) (m : Mastership) (s : Store τ κ)
    (groupEntries : List (Group τ)) : Store τ κ × List (Group τ) × List (StoredGroup τ κ) :=
  garbageCollect cfg (sameGroup hashCode) m s (newHashSet (sameGroup hashCode) groupEntries)
    (newHashSet (fun g h => sameGroup hashCode g.toGroup h.toGroup) (getStoredGroups m s))

def reconcile (cfg : Config) (hashCode : Group τ → ℤ) (southbound : List (Group τ))
    (r : Store τ κ × List (StoredGroup τ κ)) (extraneousStored : List (Group τ)) : Store τ κ :=
  let updated := updateStats (sameGroup hashCode) southbound r
  let checked := updated.2.1.foldl
    (fun r group => checkExtraneous cfg (sameGroup hashCode) group r)
    (updated.1, updated.2.2, extraneousStored)
  checked.2.2.foldl removeExtraneousGroupEntry (checked.2.1.foldl groupMissing checked.1)

/-- Each loop ends the audit when it has a group to deal with on a node that is not the master. -/
def pushGroupMetrics (cfg : Config) (hashCode : Group τ → ℤ) (m : Mastership) (s : Store τ κ)
    (groupEntries : List (Group τ)) : Store τ κ :=
  let c := collected cfg hashCode m s groupEntries
  let extraneousStored := newHashSet (sameGroup hashCode) (values s.extraneous)
  if m.isLocalMaster ∨ (c.2.1 = [] ∧ c.2.2 = [] ∧ extraneousStored = []) then
    let s' := reconcile cfg hashCode c.2.1 (c.1, c.2.2) extraneousStored
    if s.deviceAuditStatus = some true then s' else s'.deviceInitialAuditCompleted true
  else s

end Audit

section Calls

/-- The calls on the master of the device. An event of the key map arrives, or an id goes to a group
of another device. -/
inductive Call (τ κ : Type) where
  | storeGroupDescription (groupDesc : GroupDescription τ κ)
  | updateGroupDescription (oldAppCookie : κ) (type : UpdateType)
      (newBuckets : List (GroupBucket τ)) (newAppCookie : Option κ)
  | deleteGroupDescription (appCookie : κ)
  | addOrUpdateGroupEntry (group : Group τ)
  | removeGroupEntry (group : Group τ)
  | purgeGroupEntry
  | deviceInitialAuditCompleted (completed : Bool)
  | groupOperationFailed (operation : GroupOperation τ)
  | addOrUpdateExtraneousGroupEntry (group : Group τ)
  | removeExtraneousGroupEntry (group : Group τ)
  | pushGroupMetrics (groupEntries : List (Group τ))
  | receive
  | takeId (id : GroupId)

def receiveEvent (s : Store τ κ) : Store τ κ :=
  match s.events with
  | [] => s
  | e :: es => { s with events := es }.handleEvent e

def localMaster (isAvailable : Bool) : Mastership := ⟨true, true, isAvailable⟩

def perform (cfg : Config) (hashCode : Group τ → ℤ) (isAvailable : Bool) (s : Store τ κ) :
    Call τ κ → Store τ κ
  | .storeGroupDescription groupDesc => s.storeGroupDescriptionInternal groupDesc
  | .updateGroupDescription oldAppCookie type newBuckets newAppCookie =>
    s.updateGroupDescriptionInternal oldAppCookie type newBuckets newAppCookie
  | .deleteGroupDescription appCookie => s.deleteGroupDescriptionInternal appCookie
  | .addOrUpdateGroupEntry group => s.addOrUpdateGroupEntry group
  | .removeGroupEntry group => s.removeGroupEntry group
  | .purgeGroupEntry => s.purgeGroupEntry
  | .deviceInitialAuditCompleted completed => s.deviceInitialAuditCompleted completed
  | .groupOperationFailed operation => s.groupOperationFailed operation
  | .addOrUpdateExtraneousGroupEntry group => s.addOrUpdateExtraneousGroupEntry group
  | .removeExtraneousGroupEntry group => s.removeExtraneousGroupEntry group
  | .pushGroupMetrics groupEntries =>
    s.pushGroupMetrics cfg hashCode (localMaster isAvailable) groupEntries
  | .receive => s.receiveEvent
  | .takeId id => { s with groupIdGen := id }

def machine (cfg : Config) (hashCode : Group τ → ℤ) (isAvailable : Bool) :
    Machine (Store τ κ) (Call τ κ) where
  initial := empty
  enabled _ _ := True
  next := perform cfg hashCode isAvailable

end Calls

end Store

end GroupStore

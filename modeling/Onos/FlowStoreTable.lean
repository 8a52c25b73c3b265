import Onos.FlowStoreBucket
import Onos.Lib.InputMachine
import Onos.Lib.ObjectHeap

/-! The flow table of one device on one node. Every handler is one transition; the contents
of received messages and the order of events are inputs. Buckets are objects: a task that
waits in `flowTasks` has captured the object held when it was submitted, and `onBackup` and
`syncBucketOn` put another object in the map. -/
namespace FlowStoreTable

open InputMachine ObjectHeap FlowStoreBucket

abbrev NodeId := ℕ

structure DeviceReplicaInfo where
  term : ℕ
  master : Option NodeId
  backups : List NodeId
  deriving DecidableEq, Repr

def DeviceReplicaInfo.isMaster (r : DeviceReplicaInfo) (nodeId : NodeId) : Bool :=
  r.master = some nodeId

def DeviceReplicaInfo.isBackup (r : DeviceReplicaInfo) (nodeId : NodeId) : Bool :=
  r.backups.contains nodeId

structure FlowTask (ρ δ : Type*) where
  op : FlowOp ρ δ
  bucket : Ref
  term : ℕ

/-- A synchronisation under way: its completion activates `newReplicaInfo`. -/
structure SyncSession where
  prevReplicaInfo : DeviceReplicaInfo
  newReplicaInfo : DeviceReplicaInfo
  deriving DecidableEq, Repr

/-- The nodes that `syncFlows` may ask: the previous master, or the previous backups when
there was no other master or when the previous master failed. -/
def SyncSession.peers (s : SyncSession) (localNodeId : NodeId) : List NodeId :=
  (s.prevReplicaInfo.master.toList ++ s.prevReplicaInfo.backups).filter (· ≠ localNodeId)

/-- `lifecycle` is what the lifecycle manager returns now, `replicaInfo` what the table
learned from lifecycle events. -/
structure DeviceFlowTable (ρ δ : Type*) where
  localNodeId : NodeId
  lifecycle : DeviceReplicaInfo
  replicaInfo : DeviceReplicaInfo
  activeTerm : ℕ
  clock : LogicalClock
  flowTasks : BucketNo → List (FlowTask ρ δ)
  flowBuckets : ObjectMap BucketNo (FlowBucket ρ δ) FlowBucket.bucketId
  lastBackupTimes : NodeId → BucketNo → Option LogicalTimestamp
  inFlightUpdates : NodeId → BucketNo → Bool
  syncing : List SyncSession

variable {ρ δ : Type*}

def emptyBuckets : ObjectMap BucketNo (FlowBucket ρ δ) FlowBucket.bucketId where
  heap r := if h : r < NUM_BUCKETS then .empty ⟨r, h⟩ else .empty ⟨0, by decide⟩
  ref i := i
  next := NUM_BUCKETS
  allocated i := i.isLt
  named i := by simp [FlowBucket.empty]

def DeviceFlowTable.getBucket (t : DeviceFlowTable ρ δ) (i : BucketNo) : FlowBucket ρ δ :=
  t.flowBuckets.get i

def DeviceFlowTable.getDigests (t : DeviceFlowTable ρ δ) : List FlowBucketDigest :=
  (List.finRange NUM_BUCKETS).map fun i => (t.getBucket i).getDigest

section Operations

variable [DecidableEq ρ]

def DeviceFlowTable.apply (t : DeviceFlowTable ρ δ) (op : FlowOp ρ δ) (ref : Ref) (term : ℕ) :
    DeviceFlowTable ρ δ :=
  { t with
    flowBuckets := t.flowBuckets.mutate ref (fun b => (op.run b term t.clock).1)
      (fun b => run_bucketId op b term t.clock)
    clock := (op.run (t.flowBuckets.heap ref) term t.clock).2 }

def DeviceFlowTable.enqueue (t : DeviceFlowTable ρ δ) (task : FlowTask ρ δ) :
    DeviceFlowTable ρ δ :=
  let i := (t.flowBuckets.heap task.bucket).bucketId
  { t with flowTasks := Function.update t.flowTasks i (t.flowTasks i ++ [task]) }

/-- Fails without effect when the local node is not the master; otherwise queues the
operation until the term is active, or runs it at once. -/
def DeviceFlowTable.runInTerm (t : DeviceFlowTable ρ δ) (op : FlowOp ρ δ) :
    DeviceFlowTable ρ δ :=
  if t.lifecycle.isMaster t.localNodeId then
    let ref := t.flowBuckets.ref (bucket op.flowId)
    let term := t.lifecycle.term
    if t.activeTerm < term then t.enqueue ⟨op, ref, term⟩ else t.apply op ref term
  else t

def DeviceFlowTable.runTask (t : DeviceFlowTable ρ δ) (task : FlowTask ρ δ) :
    DeviceFlowTable ρ δ := t.apply task.op task.bucket task.term

def DeviceFlowTable.activateBucket (t : DeviceFlowTable ρ δ) (i : BucketNo) :
    DeviceFlowTable ρ δ :=
  (t.flowTasks i).foldl DeviceFlowTable.runTask
    { t with flowTasks := Function.update t.flowTasks i [] }

@[irreducible] def DeviceFlowTable.activateBuckets (t : DeviceFlowTable ρ δ) : DeviceFlowTable ρ δ :=
  (List.finRange NUM_BUCKETS).foldl DeviceFlowTable.activateBucket t

def DeviceFlowTable.activateMaster (t : DeviceFlowTable ρ δ) (replicaInfo : DeviceReplicaInfo) :
    DeviceFlowTable ρ δ :=
  if replicaInfo.isMaster t.localNodeId then
    { t.activateBuckets with activeTerm := replicaInfo.term }
  else t

end Operations

def DeviceFlowTable.putIfNewer (t : DeviceFlowTable ρ δ) (b : FlowBucket ρ δ) :
    DeviceFlowTable ρ δ :=
  if b.getDigest.isNewerThan (some (t.getBucket b.bucketId).getDigest) then
    { t with flowBuckets := t.flowBuckets.replace b }
  else t

/-- A backup of another term is rejected until this node learns about that term. -/
def DeviceFlowTable.onBackup (t : DeviceFlowTable ρ δ) (b : FlowBucket ρ δ) :
    DeviceFlowTable ρ δ × Bool :=
  if b.term = t.lifecycle.term then (t.putIfNewer b, true) else (t, false)

def DeviceFlowTable.syncBucketOn (t : DeviceFlowTable ρ δ) (b : FlowBucket ρ δ) :
    DeviceFlowTable ρ δ := t.putIfNewer b

def DeviceFlowTable.clearBuckets (t : DeviceFlowTable ρ δ) : DeviceFlowTable ρ δ :=
  { t with flowBuckets := t.flowBuckets.mutateHeld FlowBucket.clear (fun _ => rfl) }

def DeviceFlowTable.startTerm (t : DeviceFlowTable ρ δ) (replicaInfo : DeviceReplicaInfo) :
    DeviceFlowTable ρ δ :=
  { t with
    replicaInfo := replicaInfo
    syncing := if replicaInfo.isMaster t.localNodeId then
      ⟨t.replicaInfo, replicaInfo⟩ :: t.syncing else t.syncing }

/-- The size of the cluster and the configured backup count, read when an event is handled. -/
structure ClusterSize where
  nodes : ℕ
  backupCount : ℕ
  deriving DecidableEq, Repr

def DeviceFlowTable.isOutsider (t : DeviceFlowTable ρ δ) (replicaInfo : DeviceReplicaInfo)
    (size : ClusterSize) : Bool :=
  !replicaInfo.isMaster t.localNodeId && !replicaInfo.isBackup t.localNodeId &&
    1 + size.backupCount < size.nodes

def DeviceFlowTable.activateTerm (t : DeviceFlowTable ρ δ) (replicaInfo : DeviceReplicaInfo)
    (size : ClusterSize) : DeviceFlowTable ρ δ :=
  if replicaInfo.term < t.replicaInfo.term then t
  else
    let u := if t.isOutsider replicaInfo size then t.clearBuckets else t
    { u with
      replicaInfo := if t.replicaInfo.term < replicaInfo.term then replicaInfo else t.replicaInfo
      activeTerm := replicaInfo.term }

def DeviceFlowTable.updateTerm (t : DeviceFlowTable ρ δ) (replicaInfo : DeviceReplicaInfo)
    (size : ClusterSize) : DeviceFlowTable ρ δ :=
  if replicaInfo.term = t.replicaInfo.term then
    let u := if t.activeTerm = replicaInfo.term ∧ t.isOutsider replicaInfo size then
      t.clearBuckets else t
    { u with replicaInfo := replicaInfo }
  else t

def DeviceFlowTable.changesPending (t : DeviceFlowTable ρ δ) (nodeId : NodeId) (i : BucketNo)
    (timestamp : LogicalTimestamp) : Bool :=
  match t.lastBackupTimes nodeId i with
  | none => true
  | some lastBackupTime => lastBackupTime.isOlderThan timestamp

def DeviceFlowTable.startBackup (t : DeviceFlowTable ρ δ) (nodeId : NodeId) (i : BucketNo)
    (timestamp : LogicalTimestamp) : DeviceFlowTable ρ δ × Bool :=
  if t.changesPending nodeId i timestamp && !t.inFlightUpdates nodeId i then
    ({ t with
      inFlightUpdates := Function.update t.inFlightUpdates nodeId
        (Function.update (t.inFlightUpdates nodeId) i true) }, true)
  else (t, false)

def DeviceFlowTable.failBackup (t : DeviceFlowTable ρ δ) (nodeId : NodeId) (i : BucketNo) :
    DeviceFlowTable ρ δ :=
  { t with
    inFlightUpdates := Function.update t.inFlightUpdates nodeId
      (Function.update (t.inFlightUpdates nodeId) i false) }

def DeviceFlowTable.succeedBackup (t : DeviceFlowTable ρ δ) (nodeId : NodeId) (i : BucketNo)
    (timestamp : LogicalTimestamp) : DeviceFlowTable ρ δ :=
  { t.failBackup nodeId i with
    lastBackupTimes := Function.update t.lastBackupTimes nodeId
      (Function.update (t.lastBackupTimes nodeId) i (some timestamp)) }

def DeviceFlowTable.resetBackup (t : DeviceFlowTable ρ δ) (nodeId : NodeId) (i : BucketNo) :
    DeviceFlowTable ρ δ :=
  { t with
    lastBackupTimes := Function.update t.lastBackupTimes nodeId
      (Function.update (t.lastBackupTimes nodeId) i none) }

def DeviceFlowTable.tick (t : DeviceFlowTable ρ δ) (timestamp : LogicalTimestamp) :
    DeviceFlowTable ρ δ := { t with clock := t.clock.tick timestamp }

def DeviceFlowTable.stamp (t : DeviceFlowTable ρ δ) : DeviceFlowTable ρ δ × LogicalTimestamp :=
  ({ t with clock := t.clock.getTimestamp.2 }, t.clock.getTimestamp.1)

def DeviceFlowTable.purge (t : DeviceFlowTable ρ δ) : DeviceFlowTable ρ δ :=
  { t with
    flowTasks := fun _ => []
    flowBuckets := t.flowBuckets.mutateHeld FlowBucket.purge (fun _ => rfl)
    lastBackupTimes := fun _ _ => none
    inFlightUpdates := fun _ _ => false }

def DeviceFlowTable.learn (t : DeviceFlowTable ρ δ) (replicaInfo : DeviceReplicaInfo) :
    DeviceFlowTable ρ δ := { t with lifecycle := replicaInfo }

variable [DecidableEq ρ]

def DeviceFlowTable.finishSync (t : DeviceFlowTable ρ δ) (session : SyncSession) :
    DeviceFlowTable ρ δ :=
  { t with syncing := t.syncing.erase session }.activateMaster session.newReplicaInfo

def create (localNodeId : NodeId) (replicaInfo : DeviceReplicaInfo) : DeviceFlowTable ρ δ :=
  DeviceFlowTable.activateMaster
    { localNodeId := localNodeId
      lifecycle := replicaInfo
      replicaInfo := replicaInfo
      activeTerm := 0
      clock := ⟨0⟩
      flowTasks := fun _ => []
      flowBuckets := emptyBuckets
      lastBackupTimes := fun _ _ => none
      inFlightUpdates := fun _ _ => false
      syncing := [] } replicaInfo

inductive TableInput (ρ δ : Type*) where
  | learn (replicaInfo : DeviceReplicaInfo)
  | startTerm (replicaInfo : DeviceReplicaInfo)
  | activateTerm (replicaInfo : DeviceReplicaInfo) (size : ClusterSize)
  | updateTerm (replicaInfo : DeviceReplicaInfo) (size : ClusterSize)
  | runInTerm (op : FlowOp ρ δ)
  | syncBucketOn (b : FlowBucket ρ δ)
  | finishSync (session : SyncSession)
  | onBackup (b : FlowBucket ρ δ)
  | startBackup (nodeId : NodeId) (i : BucketNo) (timestamp : LogicalTimestamp)
  | failBackup (nodeId : NodeId) (i : BucketNo)
  | succeedBackup (nodeId : NodeId) (i : BucketNo) (timestamp : LogicalTimestamp)
  | resetBackup (nodeId : NodeId) (i : BucketNo)
  | tick (timestamp : LogicalTimestamp)
  | stamp
  | purge

def DeviceFlowTable.handle (t : DeviceFlowTable ρ δ) : TableInput ρ δ → DeviceFlowTable ρ δ
  | .learn replicaInfo => t.learn replicaInfo
  | .startTerm replicaInfo => t.startTerm replicaInfo
  | .activateTerm replicaInfo size => t.activateTerm replicaInfo size
  | .updateTerm replicaInfo size => t.updateTerm replicaInfo size
  | .runInTerm op => t.runInTerm op
  | .syncBucketOn b => t.syncBucketOn b
  | .finishSync session => t.finishSync session
  | .onBackup b => (t.onBackup b).1
  | .startBackup nodeId i timestamp => (t.startBackup nodeId i timestamp).1
  | .failBackup nodeId i => t.failBackup nodeId i
  | .succeedBackup nodeId i timestamp => t.succeedBackup nodeId i timestamp
  | .resetBackup nodeId i => t.resetBackup nodeId i
  | .tick timestamp => t.tick timestamp
  | .stamp => t.stamp.1
  | .purge => t.purge

/-- A synchronisation completes once; every other input can arrive in any state. -/
def DeviceFlowTable.Accepts (t : DeviceFlowTable ρ δ) : TableInput ρ δ → Prop
  | .finishSync session => session ∈ t.syncing
  | _ => True

instance (t : DeviceFlowTable ρ δ) : (x : TableInput ρ δ) → Decidable (t.Accepts x)
  | .finishSync session => inferInstanceAs (Decidable (session ∈ t.syncing))
  | .learn _ | .startTerm _ | .activateTerm _ _ | .updateTerm _ _ | .runInTerm _
  | .syncBucketOn _ | .onBackup _ | .startBackup _ _ _ | .failBackup _ _
  | .succeedBackup _ _ _ | .resetBackup _ _ | .tick _ | .stamp | .purge => isTrue trivial

def tableMachine (localNodeId : NodeId) (replicaInfo : DeviceReplicaInfo) :
    Machine (DeviceFlowTable ρ δ) (TableInput ρ δ) where
  initial := create localNodeId replicaInfo
  enabled := DeviceFlowTable.Accepts
  next := DeviceFlowTable.handle

instance (localNodeId : NodeId) (replicaInfo : DeviceReplicaInfo) (t : DeviceFlowTable ρ δ)
    (x : TableInput ρ δ) : Decidable ((tableMachine localNodeId replicaInfo).enabled t x) :=
  inferInstanceAs (Decidable (t.Accepts x))

end FlowStoreTable

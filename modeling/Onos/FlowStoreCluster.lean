import Onos.FlowStoreTerms
import Onos.Lib.InFlight

/-! The flow tables of one device on all nodes. Messages are delayed, reordered or lost at
will; a lost request or reply fails the sender's future. Every message carries a timestamp of
the sender's logical clock, which the receiver's clock is advanced past. -/
namespace FlowStoreCluster

open InputMachine ObjectHeap InFlight FlowStoreBucket FlowStoreTable

inductive Purpose where
  | antiEntropy
  | sync
  deriving DecidableEq, Repr

/-- Requests and replies. The reply to a backup carries the operation and the timestamp that
the sender's completion has captured. -/
inductive Body (ρ δ : Type*) where
  | backup (b : FlowBucket ρ δ)
  | backupDone (i : BucketNo) (timestamp : LogicalTimestamp) (succeeded : Bool)
  | getDigests (purpose : Purpose)
  | digests (purpose : Purpose) (digests : List FlowBucketDigest)
  | getBucket (i : BucketNo)
  | bucket (b : FlowBucket ρ δ)

structure Message (ρ δ : Type*) where
  src : NodeId
  dst : NodeId
  timestamp : LogicalTimestamp
  body : Body ρ δ

structure Cluster (ρ δ : Type*) where
  tables : NodeId → DeviceFlowTable ρ δ
  network : List (Message ρ δ)

variable {ρ δ : Type*}

def Cluster.set (c : Cluster ρ δ) (n : NodeId) (t : DeviceFlowTable ρ δ) : Cluster ρ δ :=
  { c with tables := Function.update c.tables n t }

def Cluster.post (c : Cluster ρ δ) (src dst : NodeId) (body : Body ρ δ) : Cluster ρ δ where
  tables := Function.update c.tables src (c.tables src).stamp.1
  network := c.network ++ [⟨src, dst, (c.tables src).stamp.2, body⟩]

def resetStale (t : DeviceFlowTable ρ δ) (peer : NodeId) (digests : List FlowBucketDigest) :
    DeviceFlowTable ρ δ :=
  digests.foldl (fun t remoteDigest =>
    if (t.getBucket remoteDigest.bucket).getDigest.isNewerThan (some remoteDigest) then
      t.resetBackup peer remoteDigest.bucket else t) t

def Cluster.backupBucketToNode (c : Cluster ρ δ) (n : NodeId) (r : Ref) (peer : NodeId) :
    Cluster ρ δ :=
  let b := (c.tables n).flowBuckets.heap r
  let started := (c.tables n).startBackup peer b.bucketId b.timestamp
  if started.2 then (c.set n started.1).post n peer (.backup b) else c

def Cluster.backupBucket (c : Cluster ρ δ) (n : NodeId) (r : Ref) : Cluster ρ δ :=
  let replicaInfo := (c.tables n).lifecycle
  if ((c.tables n).flowBuckets.heap r).term = replicaInfo.term ∧
      replicaInfo.isMaster (c.tables n).localNodeId then
    replicaInfo.backups.foldl (fun c peer => c.backupBucketToNode n r peer) c
  else c

def Cluster.requestDigests (c : Cluster ρ δ) (n peer : NodeId) (purpose : Purpose) :
    Cluster ρ δ := c.post n peer (.getDigests purpose)

def Cluster.syncFlowsOn (c : Cluster ρ δ) (n peer : NodeId) (digests : List FlowBucketDigest) :
    Cluster ρ δ :=
  (digests.filter fun digest =>
      digest.isNewerThan (some ((c.tables n).getBucket digest.bucket).getDigest)).foldl
    (fun c digest => c.post n peer (.getBucket digest.bucket)) c

/-- A message arrives: the clock is advanced and the handler or the completion runs. -/
def Cluster.receive (c : Cluster ρ δ) (msg : Message ρ δ) : Cluster ρ δ :=
  let t := (c.tables msg.dst).tick msg.timestamp
  let c := c.set msg.dst t
  match msg.body with
  | .backup b => (c.set msg.dst (t.onBackup b).1).post msg.dst msg.src
      (.backupDone b.bucketId b.timestamp (t.onBackup b).2)
  | .backupDone i timestamp succeeded => c.set msg.dst
      (if succeeded then t.succeedBackup msg.src i timestamp else t.failBackup msg.src i)
  | .getDigests purpose => c.post msg.dst msg.src (.digests purpose t.getDigests)
  | .digests .antiEntropy digests => c.set msg.dst (resetStale t msg.src digests)
  | .digests .sync digests => c.syncFlowsOn msg.dst msg.src digests
  | .getBucket i => c.post msg.dst msg.src (.bucket (t.getBucket i))
  | .bucket b => c.set msg.dst (t.syncBucketOn b)

def Cluster.fail (c : Cluster ρ δ) (msg : Message ρ δ) : Cluster ρ δ :=
  match msg.body with
  | .backup b => c.set msg.src ((c.tables msg.src).failBackup msg.dst b.bucketId)
  | .backupDone i _ _ => c.set msg.dst ((c.tables msg.dst).failBackup msg.src i)
  | _ => c

/-- The inputs of a table that do not come with a message of another table. -/
def Local : TableInput ρ δ → Bool
  | .learn _ | .startTerm _ | .activateTerm _ _ | .updateTerm _ _ | .runInTerm _
  | .finishSync _ | .purge => true
  | .syncBucketOn _ | .onBackup _ | .startBackup _ _ _ | .failBackup _ _
  | .succeedBackup _ _ _ | .resetBackup _ _ | .tick _ | .stamp => false

/-- The periodic backup of a bucket has captured its object, held or not. -/
inductive ClusterInput (ρ δ : Type*) where
  | table (n : NodeId) (x : TableInput ρ δ)
  | backupBucket (n : NodeId) (r : Ref)
  | requestDigests (n peer : NodeId) (purpose : Purpose)
  | deliver (k : ℕ)
  | lose (k : ℕ)

variable [DecidableEq ρ]

def Cluster.handle (c : Cluster ρ δ) : ClusterInput ρ δ → Cluster ρ δ
  | .table n x => c.set n ((c.tables n).handle x)
  | .backupBucket n r => c.backupBucket n r
  | .requestDigests n peer purpose => c.requestDigests n peer purpose
  | .deliver k => match takeAt k c.network with
    | none => c
    | some (msg, rest) => { c with network := rest }.receive msg
  | .lose k => match takeAt k c.network with
    | none => c
    | some (msg, rest) => { c with network := rest }.fail msg

def Cluster.Accepts (c : Cluster ρ δ) : ClusterInput ρ δ → Prop
  | .table n x => Local x = true ∧ (c.tables n).Accepts x
  | .backupBucket n r => r < (c.tables n).flowBuckets.next
  | .requestDigests n peer purpose => match purpose with
    | .antiEntropy => True
    | .sync => ∃ session ∈ (c.tables n).syncing, peer ∈ session.peers n
  | .deliver k | .lose k => k < c.network.length

instance (c : Cluster ρ δ) : (x : ClusterInput ρ δ) → Decidable (c.Accepts x)
  | .table n x => inferInstanceAs (Decidable (Local x = true ∧ (c.tables n).Accepts x))
  | .backupBucket n r => inferInstanceAs (Decidable (r < (c.tables n).flowBuckets.next))
  | .requestDigests _ _ .antiEntropy => isTrue trivial
  | .requestDigests n peer .sync =>
    inferInstanceAs (Decidable (∃ session ∈ (c.tables n).syncing, peer ∈ session.peers n))
  | .deliver k | .lose k => inferInstanceAs (Decidable (k < c.network.length))

def clusterMachine (replicaInfo : DeviceReplicaInfo) :
    Machine (Cluster ρ δ) (ClusterInput ρ δ) where
  initial := ⟨fun n => create n replicaInfo, []⟩
  enabled := Cluster.Accepts
  next := Cluster.handle

instance (replicaInfo : DeviceReplicaInfo) (c : Cluster ρ δ) (x : ClusterInput ρ δ) :
    Decidable ((clusterMachine replicaInfo).enabled c x) :=
  inferInstanceAs (Decidable (c.Accepts x))

section Frames

omit [DecidableEq ρ]

theorem tables_set (c : Cluster ρ δ) (n k : NodeId) (t : DeviceFlowTable ρ δ) :
    (c.set n t).tables k = if k = n then t else c.tables k := by
  simp [Cluster.set, Function.update_apply]

theorem network_post (c : Cluster ρ δ) (src dst : NodeId) (body : Body ρ δ) :
    (c.post src dst body).network =
      c.network ++ [⟨src, dst, (c.tables src).stamp.2, body⟩] := rfl

theorem field_post {α : Type*} (f : DeviceFlowTable ρ δ → α) (hf : ∀ t, f t.stamp.1 = f t)
    (c : Cluster ρ δ) (src dst k : NodeId) (body : Body ρ δ) :
    f ((c.post src dst body).tables k) = f (c.tables k) := by
  simp only [Cluster.post, Function.update_apply]
  split_ifs with hk
  · rw [hf, hk]
  · rfl

theorem field_syncFlowsOn {α : Type*} (f : DeviceFlowTable ρ δ → α)
    (hf : ∀ t, f t.stamp.1 = f t) (c : Cluster ρ δ) (n peer k : NodeId)
    (digests : List FlowBucketDigest) :
    f ((c.syncFlowsOn n peer digests).tables k) = f (c.tables k) := by
  rw [Cluster.syncFlowsOn]
  generalize digests.filter _ = wanted
  induction wanted generalizing c with
  | nil => rfl
  | cons digest wanted ih => exact (ih _).trans (field_post f hf c n peer k _)

theorem mem_syncFlowsOn (c : Cluster ρ δ) (n peer : NodeId) (digests : List FlowBucketDigest)
    {msg : Message ρ δ} (h : msg ∈ c.network) : msg ∈ (c.syncFlowsOn n peer digests).network := by
  rw [Cluster.syncFlowsOn]
  generalize digests.filter _ = wanted
  induction wanted generalizing c with
  | nil => exact h
  | cons digest wanted ih => exact ih _ (List.mem_append_left _ h)

/-- `resetStale` drops last backup times of the peer and touches nothing else. -/
structure Forgets (peer : NodeId) (t u : DeviceFlowTable ρ δ) : Prop where
  lifecycle : u.lifecycle = t.lifecycle
  localNodeId : u.localNodeId = t.localNodeId
  flowBuckets : u.flowBuckets = t.flowBuckets
  inFlightUpdates : u.inFlightUpdates = t.inFlightUpdates
  lastBackupTimes : ∀ n i, u.lastBackupTimes n i = t.lastBackupTimes n i ∨
    u.lastBackupTimes n i = none

theorem forgets_resetStale (t : DeviceFlowTable ρ δ) (peer : NodeId)
    (digests : List FlowBucketDigest) : Forgets peer t (resetStale t peer digests) := by
  rw [resetStale]
  induction digests generalizing t with
  | nil => exact ⟨rfl, rfl, rfl, rfl, fun _ _ => Or.inl rfl⟩
  | cons digest digests ih =>
    rw [List.foldl_cons]
    split_ifs
    · have hrest := ih (t.resetBackup peer digest.bucket)
      refine ⟨hrest.lifecycle, hrest.localNodeId, hrest.flowBuckets, hrest.inFlightUpdates,
        fun n i => ?_⟩
      rcases hrest.lastBackupTimes n i with h | h
      · rw [h]
        by_cases hn : n = peer
        · by_cases hi : i = digest.bucket
          · right; simp [DeviceFlowTable.resetBackup, hn, hi]
          · left; simp [DeviceFlowTable.resetBackup, hn, hi]
        · left; simp [DeviceFlowTable.resetBackup, hn]
      · exact Or.inr h
    · exact ih t

theorem resetStale_of_newer (t : DeviceFlowTable ρ δ) (peer : NodeId)
    {digests : List FlowBucketDigest} {d : FlowBucketDigest} (hd : d ∈ digests)
    (hn : (t.getBucket d.bucket).getDigest.isNewerThan (some d)) :
    (resetStale t peer digests).lastBackupTimes peer d.bucket = none := by
  induction digests generalizing t with
  | nil => exact absurd hd List.not_mem_nil
  | cons first digests ih =>
    rw [resetStale]
    rw [List.foldl_cons]
    rcases List.mem_cons.mp hd with rfl | hd
    · rw [if_pos hn]
      have hrest := forgets_resetStale (t.resetBackup peer d.bucket) peer digests
      rcases hrest.lastBackupTimes peer d.bucket with h | h
      · exact h.trans (by simp [DeviceFlowTable.resetBackup])
      · exact h
    · split_ifs
      · exact ih (t.resetBackup peer first.bucket) hd hn
      · exact ih t hd hn

end Frames

section InFlight

def Concerns (n peer : NodeId) (i : BucketNo) (msg : Message ρ δ) : Prop :=
  match msg.body with
  | .backup b => msg.src = n ∧ msg.dst = peer ∧ b.bucketId = i
  | .backupDone j _ _ => msg.dst = n ∧ msg.src = peer ∧ j = i
  | _ => False

/-- A backup is marked as in flight only while its request or its reply is. -/
def InFlightSent (c : Cluster ρ δ) : Prop :=
  ∀ n peer i, (c.tables n).inFlightUpdates peer i = true →
    ∃ msg ∈ c.network, Concerns n peer i msg

theorem inFlightUpdates_activateMaster (t : DeviceFlowTable ρ δ) (replicaInfo : DeviceReplicaInfo) :
    (t.activateMaster replicaInfo).inFlightUpdates = t.inFlightUpdates := by
  have htasks : ∀ (tasks : List (FlowTask ρ δ)) (u : DeviceFlowTable ρ δ),
      (tasks.foldl DeviceFlowTable.runTask u).inFlightUpdates = u.inFlightUpdates := by
    intro tasks
    induction tasks with
    | nil => exact fun _ => rfl
    | cons task tasks ih => exact fun u => ih (u.runTask task)
  have hbuckets : t.activateBuckets.inFlightUpdates = t.inFlightUpdates := by
    unfold DeviceFlowTable.activateBuckets
    induction List.finRange NUM_BUCKETS generalizing t with
    | nil => rfl
    | cons i is ih => exact (ih (t.activateBucket i)).trans (htasks (t.flowTasks i) _)
  rw [DeviceFlowTable.activateMaster]
  split_ifs
  · exact hbuckets
  · rfl

theorem inFlight_of_local (t : DeviceFlowTable ρ δ) (x : TableInput ρ δ) (hx : Local x = true)
    (peer : NodeId) (i : BucketNo) (h : (t.handle x).inFlightUpdates peer i = true) :
    t.inFlightUpdates peer i = true := by
  cases x with
  | runInTerm op =>
    simp only [DeviceFlowTable.handle, DeviceFlowTable.runInTerm] at h
    split_ifs at h <;> exact h
  | finishSync session =>
    have hsame := inFlightUpdates_activateMaster { t with syncing := t.syncing.erase session }
      session.newReplicaInfo
    exact (congrFun (congrFun hsame peer) i) ▸ h
  | activateTerm replicaInfo size =>
    simp only [DeviceFlowTable.handle, DeviceFlowTable.activateTerm] at h
    split_ifs at h <;> exact h
  | updateTerm replicaInfo size =>
    simp only [DeviceFlowTable.handle, DeviceFlowTable.updateTerm] at h
    split_ifs at h <;> exact h
  | purge => exact absurd h Bool.false_ne_true
  | learn | startTerm => exact h
  | _ => exact absurd hx Bool.false_ne_true

section

omit [DecidableEq ρ]

theorem startBackup_cases (t : DeviceFlowTable ρ δ) (peer : NodeId) (i : BucketNo)
    (timestamp : LogicalTimestamp) :
    (t.startBackup peer i timestamp = (t, false) ∧
      (t.changesPending peer i timestamp = false ∨ t.inFlightUpdates peer i = true)) ∨
    t.startBackup peer i timestamp =
      ({ t with
        inFlightUpdates := Function.update t.inFlightUpdates peer
          (Function.update (t.inFlightUpdates peer) i true) }, true) := by
  rw [DeviceFlowTable.startBackup]
  split_ifs with h
  · exact Or.inr rfl
  · refine Or.inl ⟨rfl, ?_⟩
    cases hp : t.changesPending peer i timestamp with
    | false => exact Or.inl rfl
    | true => exact Or.inr (by simpa [hp] using h)

theorem backupBucketToNode_cases (c : Cluster ρ δ) (n : NodeId) (r : Ref) (peer : NodeId) :
    let b := (c.tables n).flowBuckets.heap r
    (c.backupBucketToNode n r peer = c ∧
      ((c.tables n).changesPending peer b.bucketId b.timestamp = false ∨
        (c.tables n).inFlightUpdates peer b.bucketId = true)) ∨
    ∃ u : DeviceFlowTable ρ δ, u = { c.tables n with
        inFlightUpdates := Function.update (c.tables n).inFlightUpdates peer
          (Function.update ((c.tables n).inFlightUpdates peer) b.bucketId true) } ∧
      c.backupBucketToNode n r peer = (c.set n u).post n peer (.backup b) := by
  intro b
  rcases startBackup_cases (c.tables n) peer b.bucketId b.timestamp with ⟨he, hwhy⟩ | he
  · refine Or.inl ⟨?_, hwhy⟩
    simp only [Cluster.backupBucketToNode]
    rw [he]
    rfl
  · refine Or.inr ⟨_, rfl, ?_⟩
    simp only [Cluster.backupBucketToNode]
    rw [he]
    rfl

theorem inFlightSent_backupBucketToNode (c : Cluster ρ δ) (n : NodeId) (r : Ref) (peer : NodeId)
    (h : InFlightSent c) : InFlightSent (c.backupBucketToNode n r peer) := by
  rcases backupBucketToNode_cases c n r peer with ⟨he, -⟩ | ⟨u, hu, he⟩
  · rw [he]; exact h
  · rw [he]
    intro k p i hf
    rw [field_post (fun t => t.inFlightUpdates) (fun _ => rfl), tables_set] at hf
    rw [network_post]
    have hold : (c.tables k).inFlightUpdates p i = true → ∃ msg ∈ (c.set n u).network ++
        [⟨n, peer, ((c.set n u).tables n).stamp.2,
          .backup ((c.tables n).flowBuckets.heap r)⟩], Concerns k p i msg := fun ho => by
      obtain ⟨msg, hm, hc⟩ := h k p i ho
      exact ⟨msg, List.mem_append_left _ hm, hc⟩
    by_cases hk : k = n
    · subst hk
      rw [if_pos rfl, hu] at hf
      by_cases hp : p = peer ∧ i = ((c.tables k).flowBuckets.heap r).bucketId
      · obtain ⟨rfl, rfl⟩ := hp
        exact ⟨_, List.mem_append_right _ (List.mem_singleton_self _), rfl, rfl, rfl⟩
      · refine hold ?_
        by_cases hpeer : p = peer
        · have hi : i ≠ ((c.tables k).flowBuckets.heap r).bucketId := fun hi => hp ⟨hpeer, hi⟩
          simpa [hpeer, hi] using hf
        · simpa [hpeer] using hf
    · rw [if_neg hk] at hf
      exact hold hf

theorem inFlightSent_backupBucket (c : Cluster ρ δ) (n : NodeId) (r : Ref)
    (h : InFlightSent c) : InFlightSent (c.backupBucket n r) := by
  unfold Cluster.backupBucket
  dsimp only
  split_ifs
  · exact List.foldlRecOn _ _ h fun d hd peer _ => inFlightSent_backupBucketToNode d n r peer hd
  · exact h

theorem mem_receive (c : Cluster ρ δ) (msg : Message ρ δ) {other : Message ρ δ}
    (h : other ∈ c.network) : other ∈ (c.receive msg).network := by
  obtain ⟨src, dst, timestamp, body⟩ := msg
  cases body with
  | backup b => exact List.mem_append_left _ h
  | backupDone => exact h
  | getDigests => exact List.mem_append_left _ h
  | digests purpose digests =>
    cases purpose with
    | antiEntropy => exact h
    | sync => exact mem_syncFlowsOn _ _ _ _ h
  | getBucket => exact List.mem_append_left _ h
  | bucket => exact h

theorem inFlight_failBackup {t : DeviceFlowTable ρ δ} {p q : NodeId} {i j : BucketNo}
    (h : (t.failBackup p i).inFlightUpdates q j = true) :
    t.inFlightUpdates q j = true ∧ ¬ (p = q ∧ i = j) := by
  by_cases hq : q = p
  · by_cases hj : j = i
    · simp [DeviceFlowTable.failBackup, hq, hj] at h
    · exact ⟨by simpa [DeviceFlowTable.failBackup, hq, hj] using h, fun he => hj he.2.symm⟩
  · exact ⟨by simpa [DeviceFlowTable.failBackup, hq] using h, fun he => hq he.1.symm⟩

theorem field_onBackup {α : Type*} (f : DeviceFlowTable ρ δ → α)
    (hf : ∀ t buckets, f { t with flowBuckets := buckets } = f t) (t : DeviceFlowTable ρ δ)
    (b : FlowBucket ρ δ) : f (t.putIfNewer b) = f t ∧ f (t.onBackup b).1 = f t := by
  have hput : f (t.putIfNewer b) = f t := by
    rw [DeviceFlowTable.putIfNewer]
    split_ifs
    · exact hf t _
    · rfl
  refine ⟨hput, ?_⟩
  rw [DeviceFlowTable.onBackup]
  split_ifs
  · exact hput
  · rfl

theorem inFlightUpdates_receive (c : Cluster ρ δ) (msg : Message ρ δ) (k : NodeId) :
    ((c.receive msg).tables k).inFlightUpdates = (c.tables k).inFlightUpdates ∨
    ∃ i timestamp succeeded, msg.body = .backupDone i timestamp succeeded ∧ k = msg.dst ∧
      ((c.receive msg).tables k).inFlightUpdates =
        ((c.tables k).failBackup msg.src i).inFlightUpdates := by
  obtain ⟨src, dst, timestamp, body⟩ := msg
  have hstamp : ∀ t : DeviceFlowTable ρ δ, t.stamp.1.inFlightUpdates = t.inFlightUpdates :=
    fun _ => rfl
  have htick : ((c.set dst ((c.tables dst).tick timestamp)).tables k).inFlightUpdates =
      (c.tables k).inFlightUpdates := by
    rw [tables_set]
    split_ifs with hk
    · rw [hk]; rfl
    · rfl
  cases body with
  | backup b =>
    left
    simp only [Cluster.receive]
    rw [field_post (fun t => t.inFlightUpdates) hstamp, tables_set]
    split_ifs with hk
    · rw [(field_onBackup (fun t => t.inFlightUpdates) (fun _ _ => rfl) _ b).2, hk]; rfl
    · exact htick
  | backupDone i ts succeeded =>
    by_cases hk : k = dst
    · refine Or.inr ⟨i, ts, succeeded, rfl, hk, ?_⟩
      simp only [Cluster.receive, tables_set, if_pos hk]
      rw [hk]
      cases succeeded <;> rfl
    · left
      simp only [Cluster.receive]
      rw [tables_set, if_neg hk]
      exact htick
  | getDigests purpose =>
    left
    simp only [Cluster.receive]
    rw [field_post (fun t => t.inFlightUpdates) hstamp]
    exact htick
  | digests purpose digests =>
    left
    cases purpose with
    | antiEntropy =>
      simp only [Cluster.receive]
      rw [tables_set]
      split_ifs with hk
      · rw [(forgets_resetStale _ src digests).inFlightUpdates, hk]; rfl
      · exact htick
    | sync =>
      simp only [Cluster.receive]
      rw [field_syncFlowsOn (fun t => t.inFlightUpdates) hstamp]
      exact htick
  | getBucket i =>
    left
    simp only [Cluster.receive]
    rw [field_post (fun t => t.inFlightUpdates) hstamp]
    exact htick
  | bucket b =>
    left
    simp only [Cluster.receive]
    rw [tables_set]
    split_ifs with hk
    · rw [DeviceFlowTable.syncBucketOn,
        (field_onBackup (fun t => t.inFlightUpdates) (fun _ _ => rfl) _ b).1, hk]; rfl
    · exact htick

/-- What a received message leaves marked was marked before, and is still concerned by a
message when the received one concerned it. -/
theorem inFlight_receive (c : Cluster ρ δ) (msg : Message ρ δ) (n peer : NodeId) (i : BucketNo)
    (h : ((c.receive msg).tables n).inFlightUpdates peer i = true) :
    (c.tables n).inFlightUpdates peer i = true ∧
      (Concerns n peer i msg → ∃ reply ∈ (c.receive msg).network, Concerns n peer i reply) := by
  have hmsg := inFlightUpdates_receive c msg n
  obtain ⟨src, dst, timestamp, body⟩ := msg
  constructor
  · rcases hmsg with he | ⟨j, ts, succeeded, -, -, he⟩
    · rw [← he]; exact h
    · rw [he] at h
      exact (inFlight_failBackup h).1
  · intro hc
    cases body with
    | backup b =>
      obtain ⟨rfl, rfl, rfl⟩ := hc
      exact ⟨_, List.mem_append_right _ (List.mem_singleton_self _), rfl, rfl, rfl⟩
    | backupDone j ts succeeded =>
      obtain ⟨rfl, rfl, rfl⟩ := hc
      have hcleared : ((c.tables dst).failBackup src j).inFlightUpdates src j = true := by
        rw [← h]
        simp only [Cluster.receive, tables_set, if_true]
        cases succeeded <;> rfl
      exact absurd ⟨rfl, rfl⟩ (inFlight_failBackup hcleared).2
    | getDigests | digests | getBucket | bucket => exact absurd hc id

theorem inFlight_fail (c : Cluster ρ δ) (msg : Message ρ δ) (n peer : NodeId) (i : BucketNo)
    (h : ((c.fail msg).tables n).inFlightUpdates peer i = true) :
    (c.tables n).inFlightUpdates peer i = true ∧ ¬ Concerns n peer i msg := by
  obtain ⟨src, dst, timestamp, body⟩ := msg
  cases body with
  | backup b =>
    simp only [Cluster.fail, tables_set] at h
    split_ifs at h with hn
    · subst hn
      have hf := inFlight_failBackup h
      exact ⟨hf.1, fun hc => hf.2 ⟨hc.2.1, hc.2.2⟩⟩
    · exact ⟨h, fun hc => hn hc.1.symm⟩
  | backupDone j ts ok =>
    simp only [Cluster.fail, tables_set] at h
    split_ifs at h with hn
    · subst hn
      have hf := inFlight_failBackup h
      exact ⟨hf.1, fun hc => hf.2 ⟨hc.2.1, hc.2.2⟩⟩
    · exact ⟨h, fun hc => hn hc.1.symm⟩
  | getDigests | digests | getBucket | bucket => exact ⟨h, id⟩

end

theorem inFlightSent_handle (c : Cluster ρ δ) (x : ClusterInput ρ δ) (h : InFlightSent c)
    (hx : c.Accepts x) : InFlightSent (c.handle x) := by
  cases x with
  | table n x =>
    intro k p i hf
    simp only [Cluster.handle, tables_set] at hf
    split_ifs at hf with hk
    · subst hk
      exact h k p i (inFlight_of_local _ x hx.1 p i hf)
    · exact h k p i hf
  | backupBucket n r => exact inFlightSent_backupBucket c n r h
  | requestDigests n peer purpose =>
    intro k p i hf
    simp only [Cluster.handle, Cluster.requestDigests] at hf ⊢
    rw [field_post (fun t => t.inFlightUpdates) (fun _ => rfl)] at hf
    obtain ⟨msg, hm, hc⟩ := h k p i hf
    exact ⟨msg, List.mem_append_left _ hm, hc⟩
  | deliver k =>
    intro n p i hf
    obtain ⟨msg, rest, htake⟩ := takeAt_isSome hx
    simp only [Cluster.handle, htake] at hf ⊢
    obtain ⟨hold, hreply⟩ := inFlight_receive _ msg n p i hf
    obtain ⟨other, hm, hc⟩ := h n p i hold
    rcases (mem_takeAt htake other).mp hm with rfl | hrest
    · exact hreply hc
    · exact ⟨other, mem_receive _ msg hrest, hc⟩
  | lose k =>
    intro n p i hf
    obtain ⟨msg, rest, htake⟩ := takeAt_isSome hx
    simp only [Cluster.handle, htake] at hf ⊢
    obtain ⟨hold, hnot⟩ := inFlight_fail _ msg n p i hf
    obtain ⟨other, hm, hc⟩ := h n p i hold
    rcases (mem_takeAt htake other).mp hm with rfl | hrest
    · exact absurd hc hnot
    · refine ⟨other, ?_, hc⟩
      rw [Cluster.fail]
      split <;> exact hrest

theorem inFlightUpdates_create (n : NodeId) (replicaInfo : DeviceReplicaInfo) (peer : NodeId)
    (i : BucketNo) :
    (create n replicaInfo : DeviceFlowTable ρ δ).inFlightUpdates peer i = false := by
  rw [create]
  rw [inFlightUpdates_activateMaster]

theorem inFlightSent_reachable (replicaInfo : DeviceReplicaInfo) {c : Cluster ρ δ}
    (h : (clusterMachine replicaInfo).Reachable c) : InFlightSent c := by
  refine invariant_reachable InFlightSent ?_ (fun c x hc hx => inFlightSent_handle c x hc hx) h
  intro n peer i hf
  have hclear := inFlightUpdates_create (ρ := ρ) (δ := δ) n replicaInfo peer i
  exact absurd (hclear.symm.trans hf) Bool.false_ne_true

end InFlight

end FlowStoreCluster

import Onos.FlowStoreTerms
import Onos.Lib.CoordinateFold

/-! Operations submitted while a term is synchronised. They wait in `flowTasks` with the object
that was held when they were submitted, and the activation of a master runs them on that
object, whether or not it is still held. -/
namespace FlowStoreQueue

open InputMachine ObjectHeap CoordinateFold FlowStoreBucket FlowStoreTable FlowStoreTerms

variable {ρ δ : Type*} [DecidableEq ρ]

def applyAll (ops : List (FlowOp ρ δ)) (m : FlowEntries ρ δ) : FlowEntries ρ δ :=
  ops.foldl (fun m op => op.applyTo m) m

def queued (t : DeviceFlowTable ρ δ) (i : BucketNo) : List (FlowOp ρ δ) :=
  (t.flowTasks i).map FlowTask.op

def reaching (t : DeviceFlowTable ρ δ) (i : BucketNo) : List (FlowOp ρ δ) :=
  ((t.flowTasks i).filter fun task => task.bucket = t.flowBuckets.ref i).map FlowTask.op

structure TasksNamed (t : DeviceFlowTable ρ δ) : Prop where
  allocated : ∀ i, ∀ task ∈ t.flowTasks i, task.bucket < t.flowBuckets.next
  named : ∀ i, ∀ task ∈ t.flowTasks i, (t.flowBuckets.heap task.bucket).bucketId = i

section Activation

structure Ran (i : BucketNo) (ops : List (FlowOp ρ δ)) (t u : DeviceFlowTable ρ δ) : Prop where
  ref : u.flowBuckets.ref = t.flowBuckets.ref
  next : u.flowBuckets.next = t.flowBuckets.next
  name : ∀ r, (u.flowBuckets.heap r).bucketId = (t.flowBuckets.heap r).bucketId
  flowTasks : u.flowTasks = t.flowTasks
  entries : (u.getBucket i).flowBucket = applyAll ops (t.getBucket i).flowBucket
  others : ∀ j, j ≠ i → u.getBucket j = t.getBucket j

theorem ran_task (i : BucketNo) (t : DeviceFlowTable ρ δ) (task : FlowTask ρ δ)
    (h : (t.flowBuckets.heap task.bucket).bucketId = i) :
    Ran i (if task.bucket = t.flowBuckets.ref i then [task.op] else []) t (t.runTask task) := by
  refine ⟨rfl, rfl, fun r => ?_, rfl, ?_, fun j hj => ?_⟩
  · simp only [DeviceFlowTable.runTask, heap_apply]
    split_ifs with hr
    · rw [run_bucketId, hr]
    · rfl
  · simp only [DeviceFlowTable.runTask, getBucket_apply, @eq_comm _ task.bucket]
    split_ifs with hr
    · simp [applyAll]
    · rfl
  · -- the object of another number is another object
    have hne : t.flowBuckets.ref j ≠ task.bucket := by
      intro hr
      rw [← hr, t.flowBuckets.named j] at h
      exact hj h
    simp only [DeviceFlowTable.runTask, getBucket_apply, if_neg hne]

theorem Ran.trans {i : BucketNo} {ops ops' : List (FlowOp ρ δ)} {t u v : DeviceFlowTable ρ δ}
    (h : Ran i ops t u) (k : Ran i ops' u v) : Ran i (ops ++ ops') t v := by
  refine ⟨k.ref.trans h.ref, k.next.trans h.next, fun r => (k.name r).trans (h.name r),
    k.flowTasks.trans h.flowTasks, ?_, fun j hj => (k.others j hj).trans (h.others j hj)⟩
  rw [k.entries, h.entries]
  simp [applyAll]

theorem ran_tasks (i : BucketNo) (tasks : List (FlowTask ρ δ)) (t : DeviceFlowTable ρ δ)
    (h : ∀ task ∈ tasks, (t.flowBuckets.heap task.bucket).bucketId = i) :
    Ran i ((tasks.filter fun task => task.bucket = t.flowBuckets.ref i).map FlowTask.op) t
      (tasks.foldl DeviceFlowTable.runTask t) := by
  induction tasks generalizing t with
  | nil => exact ⟨rfl, rfl, fun _ => rfl, rfl, rfl, fun _ _ => rfl⟩
  | cons task tasks ih =>
    have hfirst := ran_task i t task (h task List.mem_cons_self)
    have hrest := ih (t.runTask task) fun other hm =>
      (hfirst.name other.bucket).trans (h other (List.mem_cons_of_mem _ hm))
    rw [hfirst.ref] at hrest
    have hboth := hfirst.trans hrest
    rw [List.foldl_cons]
    by_cases hr : task.bucket = t.flowBuckets.ref i
    · simpa [hr] using hboth
    · simpa [hr] using hboth

/-- The tasks of a bucket number, which of them reach the held object, and its entries. -/
def waiting (t : DeviceFlowTable ρ δ) (i : BucketNo) :
    List (FlowTask ρ δ) × Ref × FlowEntries ρ δ :=
  (t.flowTasks i, t.flowBuckets.ref i, (t.getBucket i).flowBucket)

def settled (w : List (FlowTask ρ δ) × Ref × FlowEntries ρ δ) :
    List (FlowTask ρ δ) × Ref × FlowEntries ρ δ :=
  ([], w.2.1, applyAll ((w.1.filter fun task => task.bucket = w.2.1).map FlowTask.op) w.2.2)

theorem ran_activateBucket (t : DeviceFlowTable ρ δ) (h : TasksNamed t) (i : BucketNo) :
    Ran i (reaching t i) { t with flowTasks := Function.update t.flowTasks i [] }
      (t.activateBucket i) :=
  ran_tasks i (t.flowTasks i) { t with flowTasks := Function.update t.flowTasks i [] } (h.named i)

theorem activateBucket_actsOn : ActsOn TasksNamed waiting DeviceFlowTable.activateBucket
      (fun _ => settled (ρ := ρ) (δ := δ)) := by
  constructor
  · intro t i h
    have hran := ran_activateBucket t h i
    have hmem : ∀ j, ∀ task ∈ (t.activateBucket i).flowTasks j, task ∈ t.flowTasks j := by
      intro j task hm
      rw [hran.flowTasks] at hm
      by_cases hj : j = i
      · subst hj; simp at hm
      · simpa [hj] using hm
    constructor
    · intro j task hm
      rw [hran.next]
      exact h.allocated j task (hmem j task hm)
    · intro j task hm
      rw [hran.name]
      exact h.named j task (hmem j task hm)
  · intro t i h
    have hran := ran_activateBucket t h i
    simp only [waiting, settled, hran.flowTasks, hran.ref, hran.entries, Function.update_self]
    rfl
  · intro t i j h hj
    have hran := ran_activateBucket t h i
    have hother : (t.activateBucket i).getBucket j = t.getBucket j := hran.others j hj
    simp only [waiting, hran.flowTasks, hran.ref, hother, Function.update_of_ne hj]

section

variable (t : DeviceFlowTable ρ δ)

include t

theorem waiting_activateBuckets (h : TasksNamed t) (i : BucketNo) :
    waiting t.activateBuckets i = settled (waiting t i) := by
  unfold DeviceFlowTable.activateBuckets
  exact view_foldl_of_mem activateBucket_actsOn (List.nodup_finRange NUM_BUCKETS)
    (List.mem_finRange i) h

theorem flowTasks_activateMaster (replicaInfo : DeviceReplicaInfo) :
    (t.activateMaster replicaInfo).flowTasks =
      if replicaInfo.isMaster t.localNodeId then t.activateBuckets.flowTasks
      else t.flowTasks := by
  rw [DeviceFlowTable.activateMaster]
  split_ifs <;> rfl

theorem entries_finishSync (h : TasksNamed t) (session : SyncSession)
    (hm : session.newReplicaInfo.isMaster t.localNodeId) (i : BucketNo) :
    ((t.finishSync session).getBucket i).flowBucket =
      applyAll (reaching t i) (t.getBucket i).flowBucket := by
  have hloop := waiting_activateBuckets { t with syncing := t.syncing.erase session }
    ⟨h.allocated, h.named⟩ i
  have hentries := congrArg (fun w => w.2.2) hloop
  rw [DeviceFlowTable.finishSync]
  rw [DeviceFlowTable.getBucket, flowBuckets_activateMaster, if_pos hm]
  exact hentries

theorem flowTasks_finishSync (h : TasksNamed t) (session : SyncSession) (i : BucketNo) :
    (t.finishSync session).flowTasks i =
      if session.newReplicaInfo.isMaster t.localNodeId then [] else t.flowTasks i := by
  have hloop := waiting_activateBuckets { t with syncing := t.syncing.erase session }
    ⟨h.allocated, h.named⟩ i
  have htasks := congrArg Prod.fst hloop
  rw [DeviceFlowTable.finishSync]
  rw [flowTasks_activateMaster]
  dsimp only
  split_ifs
  · exact htasks
  · rfl

end

end Activation

section Steps

structure Quiet (t u : DeviceFlowTable ρ δ) : Prop where
  flowTasks : u.flowTasks = t.flowTasks
  ref : u.flowBuckets.ref = t.flowBuckets.ref
  next : u.flowBuckets.next = t.flowBuckets.next
  name : ∀ r, (u.flowBuckets.heap r).bucketId = (t.flowBuckets.heap r).bucketId

section

omit [DecidableEq ρ]

theorem Quiet.refl (t : DeviceFlowTable ρ δ) : Quiet t t := ⟨rfl, rfl, rfl, fun _ => rfl⟩

theorem quiet_of_objects {t u : DeviceFlowTable ρ δ} (ht : u.flowTasks = t.flowTasks)
    (hb : u.flowBuckets = t.flowBuckets ∨ u.flowBuckets = t.clearBuckets.flowBuckets) :
    Quiet t u := by
  rcases hb with hb | hb
  · exact ⟨ht, by rw [hb], by rw [hb], fun r => by rw [hb]⟩
  · refine ⟨ht, by rw [hb]; rfl, by rw [hb]; rfl, fun r => ?_⟩
    rw [hb]
    simp only [DeviceFlowTable.clearBuckets, ObjectMap.mutateHeld]
    split_ifs <;> rfl

end

theorem quiet_apply (t : DeviceFlowTable ρ δ) (op : FlowOp ρ δ) (ref : Ref) (term : ℕ) :
    Quiet t (t.apply op ref term) := by
  refine ⟨rfl, rfl, rfl, fun r => ?_⟩
  rw [heap_apply]
  split_ifs with hr
  · rw [run_bucketId, hr]
  · rfl

def Activates (t : DeviceFlowTable ρ δ) : TableInput ρ δ → Prop
  | .finishSync session => session.newReplicaInfo.isMaster t.localNodeId
  | _ => False

instance (t : DeviceFlowTable ρ δ) : (x : TableInput ρ δ) → Decidable (Activates t x)
  | .finishSync session => inferInstanceAs (Decidable (session.newReplicaInfo.isMaster _ = true))
  | .learn _ | .startTerm _ | .activateTerm _ _ | .updateTerm _ _ | .runInTerm _
  | .syncBucketOn _ | .onBackup _ | .startBackup _ _ _ | .failBackup _ _
  | .succeedBackup _ _ _ | .resetBackup _ _ | .tick _ | .stamp | .purge => isFalse id

def Queues (t : DeviceFlowTable ρ δ) (op : FlowOp ρ δ) (x : TableInput ρ δ) : Prop :=
  x = .runInTerm op ∧ t.lifecycle.isMaster t.localNodeId ∧ t.activeTerm < t.lifecycle.term

variable {t : DeviceFlowTable ρ δ}

omit [DecidableEq ρ] in
theorem not_queues {x : TableInput ρ δ}
    (h : ∀ op, x ≠ .runInTerm op) (op : FlowOp ρ δ) : ¬ Queues t op x := fun hq => h op hq.1

def Replaces (t : DeviceFlowTable ρ δ) (b : FlowBucket ρ δ) (x : TableInput ρ δ) : Prop :=
  (x = .syncBucketOn b ∨ x = .onBackup b ∧ b.term = t.lifecycle.term) ∧
    b.getDigest.isNewerThan (some (t.getBucket b.bucketId).getDigest)

theorem handle_cases (t : DeviceFlowTable ρ δ) (x : TableInput ρ δ) :
    (Quiet t (t.handle x) ∧ (∀ op, ¬ Queues t op x) ∧ ¬ Activates t x) ∨
    (∃ op, Queues t op x ∧ t.handle x =
      t.enqueue ⟨op, t.flowBuckets.ref (bucket op.flowId), t.lifecycle.term⟩) ∨
    (∃ b, Replaces t b x ∧ t.handle x = { t with flowBuckets := t.flowBuckets.replace b }) ∨
    Activates t x ∨ x = .purge := by
  cases x with
  | runInTerm op =>
    simp only [DeviceFlowTable.handle, DeviceFlowTable.runInTerm]
    split_ifs with hm ha
    · exact Or.inr (Or.inl ⟨op, ⟨rfl, hm, ha⟩, rfl⟩)
    · refine Or.inl ⟨quiet_apply t op _ _, ?_, id⟩
      rintro _ ⟨_, _, hlt⟩
      exact ha hlt
    · refine Or.inl ⟨Quiet.refl t, ?_, id⟩
      rintro _ ⟨_, hm', _⟩
      exact hm hm'
  | syncBucketOn b =>
    by_cases hn : b.getDigest.isNewerThan (some (t.getBucket b.bucketId).getDigest)
    · refine Or.inr (Or.inr (Or.inl ⟨b, ⟨Or.inl rfl, hn⟩, ?_⟩))
      simp only [DeviceFlowTable.handle, DeviceFlowTable.syncBucketOn,
        DeviceFlowTable.putIfNewer, if_pos hn]
    · refine Or.inl ⟨?_, not_queues (by simp), id⟩
      simp only [DeviceFlowTable.handle, DeviceFlowTable.syncBucketOn,
        DeviceFlowTable.putIfNewer, if_neg hn]
      exact Quiet.refl t
  | onBackup b =>
    by_cases hb : b.term = t.lifecycle.term
    · by_cases hn : b.getDigest.isNewerThan (some (t.getBucket b.bucketId).getDigest)
      · refine Or.inr (Or.inr (Or.inl ⟨b, ⟨Or.inr ⟨rfl, hb⟩, hn⟩, ?_⟩))
        simp only [DeviceFlowTable.handle, DeviceFlowTable.onBackup,
          DeviceFlowTable.putIfNewer, if_pos hb, if_pos hn]
      · refine Or.inl ⟨?_, not_queues (by simp), id⟩
        simp only [DeviceFlowTable.handle, DeviceFlowTable.onBackup,
          DeviceFlowTable.putIfNewer, if_pos hb, if_neg hn]
        exact Quiet.refl t
    · refine Or.inl ⟨?_, not_queues (by simp), id⟩
      simp only [DeviceFlowTable.handle, DeviceFlowTable.onBackup, if_neg hb]
      exact Quiet.refl t
  | finishSync session =>
    by_cases hm : session.newReplicaInfo.isMaster t.localNodeId
    · exact Or.inr (Or.inr (Or.inr (Or.inl hm)))
    · refine Or.inl ⟨?_, not_queues (by simp), hm⟩
      simp only [DeviceFlowTable.handle, DeviceFlowTable.finishSync,
        DeviceFlowTable.activateMaster, if_neg hm]
      exact ⟨rfl, rfl, rfl, fun _ => rfl⟩
  | activateTerm replicaInfo size =>
    refine Or.inl ⟨?_, not_queues (by simp), id⟩
    simp only [DeviceFlowTable.handle, DeviceFlowTable.activateTerm]
    split_ifs
    · exact Quiet.refl t
    all_goals exact quiet_of_objects rfl (by first | exact Or.inl rfl | exact Or.inr rfl)
  | updateTerm replicaInfo size =>
    refine Or.inl ⟨?_, not_queues (by simp), id⟩
    simp only [DeviceFlowTable.handle, DeviceFlowTable.updateTerm]
    split_ifs
    · exact quiet_of_objects rfl (Or.inr rfl)
    · exact quiet_of_objects rfl (Or.inl rfl)
    · exact Quiet.refl t
  | startBackup nodeId i timestamp =>
    refine Or.inl ⟨?_, not_queues (by simp), id⟩
    simp only [DeviceFlowTable.handle, DeviceFlowTable.startBackup]
    split_ifs <;> exact ⟨rfl, rfl, rfl, fun _ => rfl⟩
  | purge => exact Or.inr (Or.inr (Or.inr (Or.inr rfl)))
  | learn | startTerm | failBackup | succeedBackup | resetBackup | tick | stamp =>
    exact Or.inl ⟨⟨rfl, rfl, rfl, fun _ => rfl⟩, not_queues (by simp), id⟩

omit [DecidableEq ρ] in
theorem mem_flowTasks_enqueue (t : DeviceFlowTable ρ δ) (op : FlowOp ρ δ) (term : ℕ)
    (i : BucketNo) (task : FlowTask ρ δ) :
    task ∈ (t.enqueue ⟨op, t.flowBuckets.ref (bucket op.flowId), term⟩).flowTasks i ↔
      task ∈ t.flowTasks i ∨ i = bucket op.flowId ∧
        task = ⟨op, t.flowBuckets.ref (bucket op.flowId), term⟩ := by
  have hname := t.flowBuckets.named (bucket op.flowId)
  simp only [DeviceFlowTable.enqueue, hname]
  by_cases hi : i = bucket op.flowId
  · subst hi; simp
  · simp [hi]

theorem tasksNamed_handle (t : DeviceFlowTable ρ δ) (x : TableInput ρ δ) (h : TasksNamed t) :
    TasksNamed (t.handle x) := by
  rcases handle_cases t x with ⟨hq, -, -⟩ | ⟨op, -, hu⟩ | ⟨b, -, hu⟩ | ha | rfl
  · constructor
    · intro i task hm
      rw [hq.next]
      exact h.allocated i task (hq.flowTasks ▸ hm)
    · intro i task hm
      rw [hq.name]
      exact h.named i task (hq.flowTasks ▸ hm)
  · rw [hu]
    constructor
    · intro i task hm
      rcases (mem_flowTasks_enqueue t op _ i task).mp hm with hold | ⟨_, rfl⟩
      · exact h.allocated i task hold
      · exact t.flowBuckets.allocated _
    · intro i task hm
      rcases (mem_flowTasks_enqueue t op _ i task).mp hm with hold | ⟨rfl, rfl⟩
      · exact h.named i task hold
      · exact t.flowBuckets.named _
  · rw [hu]
    constructor
    · intro i task hm
      exact Nat.lt_succ_of_lt (h.allocated i task hm)
    · intro i task hm
      have hlt := h.allocated i task hm
      rw [heap_replace _ _ _ (Nat.ne_of_lt hlt)]
      exact h.named i task hm
  · cases x with
    | finishSync session =>
      have hempty : ∀ i, (t.finishSync session).flowTasks i = [] := fun i =>
        (flowTasks_finishSync t h session i).trans (if_pos ha)
      refine ⟨fun i task hm => ?_, fun i task hm => ?_⟩
      all_goals
        change task ∈ (t.finishSync session).flowTasks i at hm
        rw [hempty i] at hm
        exact absurd hm List.not_mem_nil
    | _ => exact absurd ha id
  · exact ⟨fun _ _ hm => absurd hm List.not_mem_nil, fun _ _ hm => absurd hm List.not_mem_nil⟩

/-- The condition on the state before a step under which a queued operation is not stranded: a
held object is exchanged, and the table purged, only while no operation waits for it. -/
def QueueStable (t : DeviceFlowTable ρ δ) : TableInput ρ δ → Prop
  | .onBackup b => b.term = t.lifecycle.term →
      b.getDigest.isNewerThan (some (t.getBucket b.bucketId).getDigest) →
      t.flowTasks b.bucketId = []
  | .syncBucketOn b => b.getDigest.isNewerThan (some (t.getBucket b.bucketId).getDigest) →
      t.flowTasks b.bucketId = []
  | .purge => ∀ i, t.flowTasks i = []
  | _ => True

instance (t : DeviceFlowTable ρ δ) : (x : TableInput ρ δ) → Decidable (QueueStable t x)
  | .onBackup b => inferInstanceAs (Decidable (b.term = _ → _ → t.flowTasks b.bucketId = []))
  | .syncBucketOn b => inferInstanceAs (Decidable (_ → t.flowTasks b.bucketId = []))
  | .purge => inferInstanceAs (Decidable (∀ i : BucketNo, t.flowTasks i = []))
  | .learn _ | .startTerm _ | .activateTerm _ _ | .updateTerm _ _ | .runInTerm _
  | .finishSync _ | .startBackup _ _ _ | .failBackup _ _ | .succeedBackup _ _ _
  | .resetBackup _ _ | .tick _ | .stamp => isTrue trivial

omit [DecidableEq ρ] in
theorem flowTasks_of_replaces {b : FlowBucket ρ δ}
    {x : TableInput ρ δ} (h : Replaces t b x) (hx : QueueStable t x) :
    t.flowTasks b.bucketId = [] := by
  obtain ⟨rfl | ⟨rfl, hb⟩, hn⟩ := h
  · exact hx hn
  · exact hx hb hn

def TasksHeld (t : DeviceFlowTable ρ δ) : Prop :=
  ∀ i, ∀ task ∈ t.flowTasks i, task.bucket = t.flowBuckets.ref i

section

omit [DecidableEq ρ]

theorem TasksHeld.tasksNamed (h : TasksHeld t) : TasksNamed t := by
  constructor
  · intro i task hm
    rw [h i task hm]
    exact t.flowBuckets.allocated i
  · intro i task hm
    rw [h i task hm]
    exact t.flowBuckets.named i

theorem TasksHeld.reaching (h : TasksHeld t) (i : BucketNo) : reaching t i = queued t i := by
  unfold FlowStoreQueue.reaching queued
  rw [List.filter_eq_self.mpr]
  intro task hm
  exact decide_eq_true (h i task hm)

end

theorem tasksHeld_handle (t : DeviceFlowTable ρ δ) (x : TableInput ρ δ) (h : TasksHeld t)
    (hx : QueueStable t x) : TasksHeld (t.handle x) := by
  rcases handle_cases t x with ⟨hq, -, -⟩ | ⟨op, -, hu⟩ | ⟨b, hr, hu⟩ | ha | rfl
  · intro i task hm
    rw [hq.ref]
    exact h i task (hq.flowTasks ▸ hm)
  · rw [hu]
    intro i task hm
    rcases (mem_flowTasks_enqueue t op _ i task).mp hm with hold | ⟨rfl, rfl⟩
    · exact h i task hold
    · rfl
  · rw [hu]
    intro i task hm
    rw [ref_replace]
    split_ifs with hi
    · -- nothing waits for the object that is exchanged
      have hempty := flowTasks_of_replaces hr hx
      rw [← hi] at hempty
      change task ∈ t.flowTasks i at hm
      rw [hempty] at hm
      exact absurd hm List.not_mem_nil
    · exact h i task hm
  · cases x with
    | finishSync session =>
      intro i task hm
      have hempty := (flowTasks_finishSync t h.tasksNamed session i).trans (if_pos ha)
      change task ∈ (t.finishSync session).flowTasks i at hm
      rw [hempty] at hm
      exact absurd hm List.not_mem_nil
    | _ => exact absurd ha id
  · exact fun _ _ hm => absurd hm List.not_mem_nil

end Steps

section Runs

def awaits (t : DeviceFlowTable ρ δ) (i : BucketNo) : TableInput ρ δ → List (FlowOp ρ δ)
  | .runInTerm op =>
    if t.lifecycle.isMaster t.localNodeId ∧ t.activeTerm < t.lifecycle.term ∧
      bucket op.flowId = i then [op] else []
  | _ => []

/-- The operations for a bucket number submitted along a run before their term is active. -/
def submitted (i : BucketNo) : DeviceFlowTable ρ δ → List (TableInput ρ δ) → List (FlowOp ρ δ)
  | _, [] => []
  | t, x :: xs => awaits t i x ++ submitted i (t.handle x) xs

omit [DecidableEq ρ] in
theorem awaits_eq_nil {t : DeviceFlowTable ρ δ} {x : TableInput ρ δ}
    (h : ∀ op, ¬ Queues t op x) (i : BucketNo) : awaits t i x = [] := by
  cases x with
  | runInTerm op => exact if_neg fun ⟨hm, ha, _⟩ => h op ⟨rfl, hm, ha⟩
  | _ => rfl

theorem queued_handle (t : DeviceFlowTable ρ δ) (x : TableInput ρ δ) (hx : QueueStable t x)
    (ha : ¬ Activates t x) (i : BucketNo) :
    queued (t.handle x) i = queued t i ++ awaits t i x := by
  rcases handle_cases t x with ⟨hq, hno, -⟩ | ⟨op, ⟨rfl, hm, hlt⟩, hu⟩ | ⟨b, hr, hu⟩ | ha' | rfl
  · rw [awaits_eq_nil hno, List.append_nil, queued, hq.flowTasks, queued]
  · rw [hu]
    have hname := t.flowBuckets.named (bucket op.flowId)
    by_cases hi : bucket op.flowId = i
    · subst hi
      simp [queued, awaits, DeviceFlowTable.enqueue, hname, hm, hlt]
    · simp [queued, awaits, DeviceFlowTable.enqueue, hname, hi, Ne.symm hi]
  · have hno : ∀ op, ¬ Queues t op x := by
      rintro op ⟨rfl, _⟩
      obtain ⟨h | ⟨h, _⟩, _⟩ := hr <;> exact nomatch h
    rw [hu, awaits_eq_nil hno, List.append_nil]
    rfl
  · exact absurd ha' ha
  · have hempty : t.flowTasks i = [] := hx i
    simp [queued, hempty, awaits, DeviceFlowTable.handle, DeviceFlowTable.purge]

theorem queued_run (node : NodeId) (replicaInfo : DeviceReplicaInfo) (i : BucketNo)
    (xs : List (TableInput ρ δ)) {t : DeviceFlowTable ρ δ}
    (hv : (((tableMachine node replicaInfo).guarded QueueStable).guarded
      fun t x => ¬ Activates t x).Valid t xs) :
    queued ((tableMachine node replicaInfo).run t xs) i = queued t i ++ submitted i t xs := by
  induction xs generalizing t with
  | nil => simp [submitted]
  | cons x xs ih =>
    have hstep := queued_handle t x hv.1.1.2 hv.1.2 i
    have hrest := ih hv.2
    calc queued ((tableMachine node replicaInfo).run (t.handle x) xs) i
        = queued (t.handle x) i ++ submitted i (t.handle x) xs := hrest
      _ = queued t i ++ (awaits t i x ++ submitted i (t.handle x) xs) := by
          rw [hstep, List.append_assoc]

theorem flowTasks_create (node : NodeId) (replicaInfo : DeviceReplicaInfo) (i : BucketNo) :
    (create node replicaInfo : DeviceFlowTable ρ δ).flowTasks i = [] := by
  rw [create]
  rw [flowTasks_activateMaster]
  split_ifs
  · have hnone : ∀ j, ∀ task ∈ (fun _ => [] : BucketNo → List (FlowTask ρ δ)) j, False :=
      fun _ _ hm => List.not_mem_nil hm
    exact congrArg Prod.fst (waiting_activateBuckets _
      ⟨fun j task hm => (hnone j task hm).elim, fun j task hm => (hnone j task hm).elim⟩ i)
  · rfl

theorem tasksHeld_create (node : NodeId) (replicaInfo : DeviceReplicaInfo) :
    TasksHeld (create node replicaInfo : DeviceFlowTable ρ δ) := by
  intro i task hm
  rw [flowTasks_create] at hm
  exact absurd hm List.not_mem_nil

/-- Exactly the queued operations that captured the held object are in the bucket after a term
is activated, in the order of their submission. -/
theorem activation_runs_reaching (node : NodeId) (replicaInfo : DeviceReplicaInfo)
    {t : DeviceFlowTable ρ δ} (ht : (tableMachine node replicaInfo).Reachable t)
    (session : SyncSession) (hm : session.newReplicaInfo.isMaster t.localNodeId) (i : BucketNo) :
    ((t.handle (.finishSync session)).getBucket i).flowBucket =
      applyAll (reaching t i) (t.getBucket i).flowBucket := by
  have hnamed : TasksNamed t := invariant_reachable TasksNamed
    (tasksHeld_create node replicaInfo).tasksNamed (fun s x h _ => tasksNamed_handle s x h) ht
  exact entries_finishSync t hnamed session hm i

theorem queued_operations_reach_the_bucket (node : NodeId) (prior replicaInfo : DeviceReplicaInfo)
    (pre mid : List (TableInput ρ δ)) (session : SyncSession)
    (hv : ((tableMachine node prior).guarded QueueStable).Valid (create node prior)
      (pre ++ .startTerm replicaInfo :: mid ++ [.finishSync session])) :
    let s := (tableMachine node prior).run (create node prior) (pre ++ [.startTerm replicaInfo])
    let t := (tableMachine node prior).run s mid
    ((tableMachine node prior).guarded fun t x => ¬ Activates t x).Valid s mid →
    session.newReplicaInfo.isMaster t.localNodeId → ∀ i,
      ((t.handle (.finishSync session)).getBucket i).flowBucket =
        applyAll (queued s i ++ submitted i s mid) (t.getBucket i).flowBucket := by
  intro s t hmid hm i
  have hv' : ((tableMachine node prior).guarded QueueStable).Valid (create node prior)
      ((pre ++ [.startTerm replicaInfo]) ++ mid ++ [.finishSync session]) := by
    simpa using hv
  obtain ⟨hbefore, -⟩ := (valid_append _ _ _ _).mp hv'
  obtain ⟨hpre, hduring⟩ := (valid_append _ _ _ _).mp hbefore
  have hkeeps : ∀ (u : DeviceFlowTable ρ δ) x, TasksHeld u →
      ((tableMachine node prior).guarded QueueStable).enabled u x → TasksHeld (u.handle x) :=
    fun u x h hx => tasksHeld_handle u x h hx.2
  have hs : TasksHeld s := invariant_run TasksHeld hkeeps hpre (tasksHeld_create node prior)
  have ht : TasksHeld t := invariant_run TasksHeld hkeeps hduring hs
  have hqueue : queued t i = queued s i ++ submitted i s mid :=
    queued_run node prior i mid (hduring.guarded_and hmid)
  calc ((t.finishSync session).getBucket i).flowBucket
      = applyAll (reaching t i) (t.getBucket i).flowBucket :=
        entries_finishSync t ht.tasksNamed session hm i
    _ = applyAll (queued s i ++ submitted i s mid) (t.getBucket i).flowBucket := by
        rw [ht.reaching i, hqueue]

end Runs

section Regression

def formerMaster : DeviceReplicaInfo := ⟨1, some 1, [0]⟩
def newMaster : DeviceReplicaInfo := ⟨2, some 0, [1]⟩

def formerBucket : FlowBucket Unit Unit := ⟨bucket 0, 1, ⟨7⟩, fun _ _ => none⟩

def submittedBeforeReply : List (TableInput Unit Unit) :=
  [.runInTerm (.add someRule), .syncBucketOn formerBucket]

theorem queued_operation_lost :
    let M : Machine (DeviceFlowTable Unit Unit) (TableInput Unit Unit) :=
      tableMachine 0 formerMaster
    let x := TableInput.finishSync ⟨formerMaster, newMaster⟩
    let s := M.run M.initial [.learn newMaster, .startTerm newMaster]
    let t := M.run s submittedBeforeReply
    M.Valid M.initial (.learn newMaster :: .startTerm newMaster :: submittedBeforeReply ++ [x]) ∧
    applyAll (submitted (bucket 0) s submittedBeforeReply) (t.getBucket (bucket 0)).flowBucket 0 ()
      = some someRule ∧
    ((M.next t x).getBucket (bucket 0)).flowBucket 0 () = none := by
  refine ⟨by decide +kernel, by decide +kernel, by decide +kernel⟩

theorem activation_runs_submitted :
    let t := (tableMachine 0 formerMaster).run (create 0 formerMaster)
      (.learn newMaster :: .startTerm newMaster :: submittedBeforeReply)
    ((t.handle (.finishSync ⟨formerMaster, newMaster⟩)).getBucket (bucket 0)).flowBucket =
      applyAll (reaching t (bucket 0)) (t.getBucket (bucket 0)).flowBucket :=
  activation_runs_reaching 0 formerMaster ⟨_, by decide, rfl⟩ _ (by decide) _

def submittedAfterReply : List (TableInput Unit Unit) :=
  [.syncBucketOn formerBucket, .runInTerm (.add someRule)]

theorem queued_operation_kept :
    let M : Machine (DeviceFlowTable Unit Unit) (TableInput Unit Unit) :=
      tableMachine 0 formerMaster
    let s := M.run M.initial [.learn newMaster, .startTerm newMaster]
    let t := M.run s submittedAfterReply
    ∀ i, ((t.handle (.finishSync ⟨formerMaster, newMaster⟩)).getBucket i).flowBucket =
      applyAll (queued s i ++ submitted i s submittedAfterReply) (t.getBucket i).flowBucket :=
  queued_operations_reach_the_bucket 0 formerMaster newMaster [.learn newMaster]
    submittedAfterReply ⟨formerMaster, newMaster⟩ (by decide) (by decide) rfl

end Regression

end FlowStoreQueue

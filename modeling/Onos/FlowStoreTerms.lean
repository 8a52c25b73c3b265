import Onos.FlowStoreTable

/-! Terms and timestamps of the buckets a table holds: when the digest order is an order,
when a received bucket cannot take the table back in time, and when no step of a run can. -/
namespace FlowStoreTerms

open InputMachine ObjectHeap FlowStoreBucket FlowStoreTable

variable {ρ δ : Type*}

theorem getBucket_putIfNewer (t : DeviceFlowTable ρ δ) (b : FlowBucket ρ δ) (i : BucketNo) :
    (t.putIfNewer b).getBucket i =
      if b.getDigest.isNewerThan (some (t.getBucket b.bucketId).getDigest) ∧ i = b.bucketId
      then b else t.getBucket i := by
  unfold DeviceFlowTable.putIfNewer
  split_ifs with hn hi hi
  · simp [DeviceFlowTable.getBucket, get_replace, hi.2]
  · have hne : i ≠ b.bucketId := fun h => hi ⟨hn, h⟩
    simp [DeviceFlowTable.getBucket, get_replace, hne]
  · exact absurd hi.1 hn
  · rfl

/-- A received bucket replaces the held one in the wrong direction exactly when it is of an
earlier term and carries a newer timestamp. -/
theorem putIfNewer_term_mono_iff (t : DeviceFlowTable ρ δ) (b : FlowBucket ρ δ) :
    (t.getBucket b.bucketId).term ≤ ((t.putIfNewer b).getBucket b.bucketId).term ↔
      ¬ (b.term < (t.getBucket b.bucketId).term ∧
        (t.getBucket b.bucketId).timestamp.value < b.timestamp.value) := by
  rw [getBucket_putIfNewer]
  have hnewer := newer_iff b.getDigest (t.getBucket b.bucketId).getDigest
  simp only [FlowBucket.getDigest] at hnewer ⊢
  split_ifs with h
  · have := hnewer.mp h.1
    omega
  · have hn : ¬ ((t.getBucket b.bucketId).term < b.term ∨
        (t.getBucket b.bucketId).timestamp.value < b.timestamp.value) :=
      fun hd => h ⟨hnewer.mpr hd, trivial⟩
    omega

/-- Neither replacement site exchanges a held bucket of `S` for an earlier term of `S`. -/
def NeverBackInTime (S : Set (FlowBucket ρ δ)) : Prop :=
  ∀ t : DeviceFlowTable ρ δ, ∀ b ∈ S, t.getBucket b.bucketId ∈ S →
    (t.getBucket b.bucketId).term ≤ ((t.onBackup b).1.getBucket b.bucketId).term ∧
    (t.getBucket b.bucketId).term ≤ ((t.syncBucketOn b).getBucket b.bucketId).term

theorem neverBackInTime_of_concordant {S : Set (FlowBucket ρ δ)}
    (h : Concordant (FlowBucket.getDigest '' S)) : NeverBackInTime S := by
  intro t b hb ht
  have hts := h _ (Set.mem_image_of_mem _ hb) _ (Set.mem_image_of_mem _ ht)
  have hput : (t.getBucket b.bucketId).term ≤ ((t.putIfNewer b).getBucket b.bucketId).term := by
    rw [putIfNewer_term_mono_iff]
    rintro ⟨hlt, hnew⟩
    have := hts hlt
    simp only [FlowBucket.getDigest] at this
    omega
  refine ⟨?_, hput⟩
  unfold DeviceFlowTable.onBackup
  split_ifs
  · exact hput
  · exact le_rfl

/-- The digests of a set of buckets are strictly ordered by `isNewerThan`, and no bucket of the
set is replaced by one of an earlier term, exactly when terms and timestamps agree. -/
theorem newer_is_order_iff_concordant (S : Set (FlowBucket ρ δ)) :
    (StrictOrderOn (FlowBucket.getDigest '' S) ∧ NeverBackInTime S) ↔
      Concordant (FlowBucket.getDigest '' S) := by
  constructor
  · intro h
    exact (strictOrder_iff_concordant _).mp h.1
  · intro h
    exact ⟨(strictOrder_iff_concordant _).mpr h, neverBackInTime_of_concordant h⟩

def laterTerm : FlowBucket Unit Unit := ⟨bucket 0, 2, ⟨1⟩, fun _ _ => none⟩
def newerTimestamp : FlowBucket Unit Unit := ⟨bucket 0, 1, ⟨5⟩, fun _ _ => none⟩

/-- A partitioned master of term 1 kept stamping while the master of term 2 had a slow clock. -/
def holdsLaterTerm : DeviceFlowTable Unit Unit :=
  (create 0 ⟨1, some 1, [0]⟩ : DeviceFlowTable Unit Unit).syncBucketOn laterTerm

theorem newer_in_both_directions :
    laterTerm.getDigest.isNewerThan (some newerTimestamp.getDigest) = true ∧
    newerTimestamp.getDigest.isNewerThan (some laterTerm.getDigest) = true ∧
    (holdsLaterTerm.getBucket ⟨0, by decide⟩).term = 2 ∧
    ((holdsLaterTerm.onBackup newerTimestamp).1.getBucket ⟨0, by decide⟩).term = 1 ∧
    ((holdsLaterTerm.syncBucketOn newerTimestamp).getBucket ⟨0, by decide⟩).term = 1 := by
  decide

section Runs

variable [DecidableEq ρ]

theorem heap_apply (t : DeviceFlowTable ρ δ) (op : FlowOp ρ δ) (ref r : Ref) (term : ℕ) :
    (t.apply op ref term).flowBuckets.heap r =
      if r = ref then (op.run (t.flowBuckets.heap ref) term t.clock).1
      else t.flowBuckets.heap r := by
  simp only [DeviceFlowTable.apply, heap_mutate]

theorem getBucket_apply (t : DeviceFlowTable ρ δ) (op : FlowOp ρ δ) (ref : Ref) (term : ℕ)
    (i : BucketNo) : (t.apply op ref term).getBucket i =
      if t.flowBuckets.ref i = ref then (op.run (t.getBucket i) term t.clock).1
      else t.getBucket i := by
  simp only [DeviceFlowTable.getBucket, DeviceFlowTable.apply, get_mutate]

/-- Every object keeps its term or is stamped with `τ`, which is not an earlier one. -/
structure Stamped (τ : ℕ) (t u : DeviceFlowTable ρ δ) : Prop where
  ref : u.flowBuckets.ref = t.flowBuckets.ref
  heap : ∀ r, (u.flowBuckets.heap r).term = (t.flowBuckets.heap r).term ∨
    ((u.flowBuckets.heap r).term = τ ∧ (t.flowBuckets.heap r).term ≤ τ)

section

omit [DecidableEq ρ]

theorem Stamped.refl (τ : ℕ) (t : DeviceFlowTable ρ δ) : Stamped τ t t :=
  ⟨rfl, fun _ => Or.inl rfl⟩

theorem Stamped.trans {τ : ℕ} {t u v : DeviceFlowTable ρ δ} (h : Stamped τ t u)
    (k : Stamped τ u v) : Stamped τ t v := by
  refine ⟨k.ref.trans h.ref, fun r => ?_⟩
  have hr := h.heap r
  have kr := k.heap r
  omega

theorem Stamped.le_of_le {τ : ℕ} {t u : DeviceFlowTable ρ δ} (h : Stamped τ t u) {r : Ref}
    (hr : (t.flowBuckets.heap r).term ≤ τ) : (u.flowBuckets.heap r).term ≤ τ := by
  have := h.heap r
  omega

theorem Stamped.held {τ : ℕ} {t u : DeviceFlowTable ρ δ} (h : Stamped τ t u) (i : BucketNo) :
    (t.getBucket i).term ≤ (u.getBucket i).term := by
  have hi := h.heap (t.flowBuckets.ref i)
  have he : u.getBucket i = u.flowBuckets.heap (t.flowBuckets.ref i) := by
    rw [← h.ref]; rfl
  rw [he]
  change (t.flowBuckets.heap (t.flowBuckets.ref i)).term ≤ _
  omega

theorem Stamped.of_eq {τ : ℕ} {t t' u u' : DeviceFlowTable ρ δ} (h : Stamped τ t u)
    (ht : t'.flowBuckets = t.flowBuckets) (hu : u'.flowBuckets = u.flowBuckets) :
    Stamped τ t' u' := ⟨by rw [ht, hu]; exact h.ref, by rw [ht, hu]; exact h.heap⟩

end

theorem stamped_apply (t : DeviceFlowTable ρ δ) (op : FlowOp ρ δ) (ref : Ref) (term : ℕ)
    (h : (t.flowBuckets.heap ref).term ≤ term) : Stamped term t (t.apply op ref term) := by
  refine ⟨rfl, fun r => ?_⟩
  rw [heap_apply]
  split_ifs with hr
  · subst hr
    rw [run_term]
    split_ifs
    · exact Or.inr ⟨rfl, h⟩
    · exact Or.inl rfl
  · exact Or.inl rfl

/-- A task submitted in term `τ` on an object that no later term has stamped. -/
def TaskOf (τ : ℕ) (t : DeviceFlowTable ρ δ) (task : FlowTask ρ δ) : Prop :=
  task.term = τ ∧ (t.flowBuckets.heap task.bucket).term ≤ τ

theorem stamped_runTasks (τ : ℕ) (tasks : List (FlowTask ρ δ)) (t : DeviceFlowTable ρ δ)
    (h : ∀ task ∈ tasks, TaskOf τ t task) :
    Stamped τ t (tasks.foldl DeviceFlowTable.runTask t) ∧
      (tasks.foldl DeviceFlowTable.runTask t).flowTasks = t.flowTasks := by
  induction tasks generalizing t with
  | nil => exact ⟨Stamped.refl τ t, rfl⟩
  | cons task tasks ih =>
    obtain ⟨hterm, hle⟩ := h task List.mem_cons_self
    have hfirst : Stamped τ t (t.runTask task) := by
      rw [← hterm] at hle ⊢
      exact stamped_apply t task.op task.bucket task.term hle
    have hrest := ih (t.runTask task) fun other hm =>
      have ho := h other (List.mem_cons_of_mem _ hm)
      ⟨ho.1, hfirst.le_of_le ho.2⟩
    exact ⟨hfirst.trans hrest.1, hrest.2⟩

theorem stamped_activateBucket (τ : ℕ) (t : DeviceFlowTable ρ δ) (i : BucketNo)
    (h : ∀ task ∈ t.flowTasks i, TaskOf τ t task) :
    Stamped τ t (t.activateBucket i) ∧
      (t.activateBucket i).flowTasks = Function.update t.flowTasks i [] := by
  have hrun := stamped_runTasks τ (t.flowTasks i)
    { t with flowTasks := Function.update t.flowTasks i [] } h
  exact ⟨hrun.1.of_eq rfl rfl, hrun.2⟩

theorem stamped_activateBuckets (τ : ℕ) (t : DeviceFlowTable ρ δ)
    (h : ∀ i, ∀ task ∈ t.flowTasks i, TaskOf τ t task) : Stamped τ t t.activateBuckets := by
  unfold DeviceFlowTable.activateBuckets
  induction List.finRange NUM_BUCKETS generalizing t with
  | nil => exact Stamped.refl τ t
  | cons i is ih =>
    obtain ⟨hfirst, hempty⟩ := stamped_activateBucket τ t i (h i)
    refine hfirst.trans (ih _ fun j task hm => ?_)
    rw [hempty] at hm
    by_cases hj : j = i
    · subst hj; simp at hm
    · rw [Function.update_of_ne hj] at hm
      have ho := h j task hm
      exact ⟨ho.1, hfirst.le_of_le ho.2⟩

/-- The condition on the state before a step under which no term goes back: an operation that
runs at once finds no later term in its bucket, the operations queued when a term is activated
are of that term and so are at most the objects they captured, and a received bucket that
counts as newer is not of an earlier term than the held one. -/
def TermOrdered (t : DeviceFlowTable ρ δ) : TableInput ρ δ → Prop
  | .runInTerm op => t.lifecycle.isMaster t.localNodeId → t.lifecycle.term ≤ t.activeTerm →
      (t.getBucket (bucket op.flowId)).term ≤ t.lifecycle.term
  | .finishSync session => session.newReplicaInfo.isMaster t.localNodeId →
      ∀ i, ∀ task ∈ t.flowTasks i, TaskOf session.newReplicaInfo.term t task
  | .onBackup b => b.term = t.lifecycle.term →
      b.getDigest.isNewerThan (some (t.getBucket b.bucketId).getDigest) →
      (t.getBucket b.bucketId).term ≤ b.term
  | .syncBucketOn b => b.getDigest.isNewerThan (some (t.getBucket b.bucketId).getDigest) →
      (t.getBucket b.bucketId).term ≤ b.term
  | _ => True

instance (τ : ℕ) (t : DeviceFlowTable ρ δ) (task : FlowTask ρ δ) : Decidable (TaskOf τ t task) :=
  inferInstanceAs (Decidable (_ ∧ _))

instance (t : DeviceFlowTable ρ δ) : (x : TableInput ρ δ) → Decidable (TermOrdered t x)
  | .runInTerm _ => inferInstanceAs (Decidable (_ → _ → _))
  | .finishSync _ => inferInstanceAs (Decidable (_ → ∀ _ : BucketNo, _))
  | .onBackup _ => inferInstanceAs (Decidable (_ → _ → _))
  | .syncBucketOn _ => inferInstanceAs (Decidable (_ → _))
  | .learn _ | .startTerm _ | .activateTerm _ _ | .updateTerm _ _ | .startBackup _ _ _
  | .failBackup _ _ | .succeedBackup _ _ _ | .resetBackup _ _ | .tick _ | .stamp
  | .purge => isTrue trivial

def Clears (t : DeviceFlowTable ρ δ) : TableInput ρ δ → Prop
  | .activateTerm replicaInfo size =>
      t.replicaInfo.term ≤ replicaInfo.term ∧ t.isOutsider replicaInfo size
  | .updateTerm replicaInfo size => replicaInfo.term = t.replicaInfo.term ∧
      t.activeTerm = replicaInfo.term ∧ t.isOutsider replicaInfo size
  | _ => False

omit [DecidableEq ρ] in
theorem putIfNewer_mono (t : DeviceFlowTable ρ δ) (b : FlowBucket ρ δ)
    (h : b.getDigest.isNewerThan (some (t.getBucket b.bucketId).getDigest) →
      (t.getBucket b.bucketId).term ≤ b.term) (i : BucketNo) :
    (t.getBucket i).term ≤ ((t.putIfNewer b).getBucket i).term := by
  rw [getBucket_putIfNewer]
  split_ifs with hn
  · rw [hn.2]; exact h hn.1
  · exact le_rfl

section

variable (t : DeviceFlowTable ρ δ)

include t

theorem flowBuckets_activateMaster (replicaInfo : DeviceReplicaInfo) :
    (t.activateMaster replicaInfo).flowBuckets =
      if replicaInfo.isMaster t.localNodeId then t.activateBuckets.flowBuckets
      else t.flowBuckets := by
  unfold DeviceFlowTable.activateMaster
  split_ifs <;> rfl

theorem stamped_finishSync (session : SyncSession)
    (h : session.newReplicaInfo.isMaster t.localNodeId →
      ∀ i, ∀ task ∈ t.flowTasks i, TaskOf session.newReplicaInfo.term t task) :
    Stamped session.newReplicaInfo.term t (t.finishSync session) := by
  have hbuckets := flowBuckets_activateMaster { t with syncing := t.syncing.erase session }
    session.newReplicaInfo
  by_cases hm : session.newReplicaInfo.isMaster t.localNodeId
  · have hrun := stamped_activateBuckets session.newReplicaInfo.term
      { t with syncing := t.syncing.erase session } (h hm)
    exact hrun.of_eq rfl (hbuckets.trans (if_pos hm))
  · exact (Stamped.refl _ t).of_eq rfl (hbuckets.trans (if_neg hm))

theorem handle_keeps_buckets (x : TableInput ρ δ)
    (hx : (∃ replicaInfo size, x = .activateTerm replicaInfo size) ∨
      (∃ replicaInfo size, x = .updateTerm replicaInfo size)) (hc : ¬ Clears t x) :
    (t.handle x).getBucket = t.getBucket := by
  rcases hx with ⟨replicaInfo, size, rfl⟩ | ⟨replicaInfo, size, rfl⟩
  · by_cases hlt : replicaInfo.term < t.replicaInfo.term
    · simp [DeviceFlowTable.handle, DeviceFlowTable.activateTerm, hlt]
    · have ho : ¬ t.isOutsider replicaInfo size := fun ho => hc ⟨Nat.le_of_not_lt hlt, ho⟩
      funext i
      simp [DeviceFlowTable.handle, DeviceFlowTable.activateTerm, hlt, ho,
        DeviceFlowTable.getBucket]
  · by_cases ht : replicaInfo.term = t.replicaInfo.term
    · have ho : ¬ (t.activeTerm = replicaInfo.term ∧ t.isOutsider replicaInfo size) :=
        fun ho => hc ⟨ht, ho.1, ho.2⟩
      funext i
      simp only [DeviceFlowTable.handle, DeviceFlowTable.updateTerm, if_pos ht, if_neg ho]
      rfl
    · simp [DeviceFlowTable.handle, DeviceFlowTable.updateTerm, ht]

theorem handle_term_mono (x : TableInput ρ δ)
    (hx : TermOrdered t x) (hc : ¬ Clears t x) (i : BucketNo) :
    (t.getBucket i).term ≤ ((t.handle x).getBucket i).term := by
  cases x with
  | runInTerm op =>
    simp only [DeviceFlowTable.handle, DeviceFlowTable.runInTerm]
    split_ifs with hm ha
    · exact le_rfl
    · have hle := hx hm (Nat.le_of_not_lt ha)
      exact (stamped_apply t op _ _ hle).held i
    · exact le_rfl
  | syncBucketOn b => exact putIfNewer_mono t b hx i
  | onBackup b =>
    simp only [DeviceFlowTable.handle, DeviceFlowTable.onBackup]
    split_ifs with hb
    · exact putIfNewer_mono t b (hx hb) i
    · exact le_rfl
  | finishSync session => exact (stamped_finishSync t session hx).held i
  | activateTerm replicaInfo size =>
    rw [handle_keeps_buckets t _ (Or.inl ⟨replicaInfo, size, rfl⟩) hc]
  | updateTerm replicaInfo size =>
    rw [handle_keeps_buckets t _ (Or.inr ⟨replicaInfo, size, rfl⟩) hc]
  | startBackup nodeId i timestamp =>
    simp only [DeviceFlowTable.handle, DeviceFlowTable.startBackup]
    split_ifs <;> exact le_rfl
  | purge =>
    have hget := get_mutateHeld t.flowBuckets FlowBucket.purge (fun _ => rfl) i
    have hterm := congrArg FlowBucket.term hget
    exact hterm.ge
  | learn => exact le_rfl
  | startTerm => exact le_rfl
  | failBackup => exact le_rfl
  | succeedBackup => exact le_rfl
  | resetBackup => exact le_rfl
  | tick => exact le_rfl
  | stamp => exact le_rfl

end

/-- In a run whose steps all meet `TermOrdered`, the term recorded in a held bucket goes back
only by clearing, and an activation stamps objects with the activated term alone. -/
theorem held_terms_never_decrease (node : NodeId) (replicaInfo : DeviceReplicaInfo)
    (pre xs : List (TableInput ρ δ))
    (hv : ((tableMachine node replicaInfo).guarded TermOrdered).Valid
      (create node replicaInfo) (pre ++ xs)) :
    let t := (tableMachine node replicaInfo).run (create node replicaInfo) pre
    let u := (tableMachine node replicaInfo).run t xs
    (((tableMachine node replicaInfo).guarded fun t x => ¬ Clears t x).Valid t xs →
      ∀ i, (t.getBucket i).term ≤ (u.getBucket i).term) ∧
    (∀ session, xs = [.finishSync session] → ∀ r,
      (u.flowBuckets.heap r).term = (t.flowBuckets.heap r).term ∨
      (u.flowBuckets.heap r).term = session.newReplicaInfo.term) := by
  intro t u
  have hxs := ((valid_append _ _ _ _).mp hv).2
  constructor
  · intro hc i
    have hguarded := hxs.guarded_and hc
    refine relation_run (fun _ => True) (fun a b => (a.getBucket i).term ≤ (b.getBucket i).term)
      (fun _ => le_rfl) (fun _ _ _ => le_trans) (fun _ _ _ _ => trivial) ?_ hguarded trivial
    intro s x _ hx
    exact handle_term_mono s x hx.1.2 hx.2 i
  · rintro session rfl r
    have hstamped := stamped_finishSync t session hxs.1.2
    rcases hstamped.heap r with h | h
    · exact Or.inl h
    · exact Or.inr h.1

end Runs

section Regression

def firstTerm : DeviceReplicaInfo := ⟨1, some 0, [1]⟩
def secondTerm : DeviceReplicaInfo := ⟨2, some 1, [0]⟩
def thirdTerm : DeviceReplicaInfo := ⟨3, some 0, [1]⟩

def someRule : FlowEntry Unit Unit := ⟨0, (), 0, ()⟩

/-- Node 0 is told of term 1 and synchronises from node 1, which already writes in term 2. The
operation submitted then captures the object of term 2 and waits through terms 2 and 3. -/
def queuedInFirstTerm : List (TableInput Unit Unit) :=
  [.learn firstTerm, .startTerm firstTerm, .syncBucketOn ⟨bucket 0, 2, ⟨7⟩, fun _ _ => none⟩,
    .runInTerm (.add someRule), .learn secondTerm, .startTerm secondTerm, .learn thirdTerm,
    .startTerm thirdTerm]

def noMaster : DeviceReplicaInfo := ⟨0, some 1, []⟩

theorem earlier_term_stamped_by_later_activation :
    let M : Machine (DeviceFlowTable Unit Unit) (TableInput Unit Unit) := tableMachine 0 noMaster
    let t := M.run M.initial queuedInFirstTerm
    let x := TableInput.finishSync ⟨secondTerm, thirdTerm⟩
    M.Valid M.initial (queuedInFirstTerm ++ [x]) ∧ ¬ Clears t x ∧
      (t.getBucket ⟨0, by decide⟩).term = 2 ∧ ((M.next t x).getBucket ⟨0, by decide⟩).term = 1 := by
  refine ⟨by decide +kernel, id, by decide +kernel, by decide +kernel⟩

theorem held_terms_never_decrease_once :
    let M : Machine (DeviceFlowTable Unit Unit) (TableInput Unit Unit) := tableMachine 0 noMaster
    let t := M.run M.initial [.learn firstTerm, .startTerm firstTerm, .runInTerm (.add someRule)]
    let u := M.next t (.finishSync ⟨noMaster, firstTerm⟩)
    ∀ r, (u.flowBuckets.heap r).term = (t.flowBuckets.heap r).term ∨
      (u.flowBuckets.heap r).term = 1 :=
  (held_terms_never_decrease 0 noMaster
    [.learn firstTerm, .startTerm firstTerm, .runInTerm (.add someRule)]
    [.finishSync ⟨noMaster, firstTerm⟩] (by decide)).2 _ rfl

end Regression

end FlowStoreTerms

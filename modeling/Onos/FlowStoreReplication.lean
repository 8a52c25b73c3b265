import Onos.FlowStoreCluster

/-! One anti-entropy pass followed by one backup of all buckets, from a quiet state. The pass is
any run of the master's backups and digest requests in which every message arrives: what it
leaves on the backups does not depend on the order. -/
namespace FlowStoreReplication

open InputMachine ObjectHeap InFlight FlowStoreBucket FlowStoreTable FlowStoreTerms FlowStoreCluster

variable {ρ δ : Type*}

def bucketAt (c : Cluster ρ δ) (n : NodeId) (i : BucketNo) : FlowBucket ρ δ :=
  (c.tables n).getBucket i

structure Quiescent (c : Cluster ρ δ) (m : NodeId) (t : ℕ) : Prop where
  master : (c.tables m).lifecycle.isMaster (c.tables m).localNodeId
  term : (c.tables m).lifecycle.term = t
  active : (c.tables m).activeTerm = t
  learned : ∀ n ∈ (c.tables m).lifecycle.backups, (c.tables n).lifecycle.term = t
  silent : c.network = []
  idle : ∀ i, (c.tables m).flowTasks i = []

section Progress

-- `c₀` is the state in which the pass begins, `m` the master
variable (c₀ : Cluster ρ δ) (m : NodeId)

def Sends (n : NodeId) (i : BucketNo) : Prop :=
  (bucketAt c₀ m i).term = (c₀.tables m).lifecycle.term ∧ n ∈ (c₀.tables m).lifecycle.backups

def Behind (c : Cluster ρ δ) (n : NodeId) (i : BucketNo) : Prop :=
  (bucketAt c₀ m i).getDigest.isNewerThan (some (bucketAt c n i).getDigest) = true

instance (c : Cluster ρ δ) (n : NodeId) (i : BucketNo) : Decidable (Behind c₀ m c n i) :=
  inferInstanceAs (Decidable (_ = true))

def Requested (c : Cluster ρ δ) (n : NodeId) (i : BucketNo) : Prop :=
  ∃ msg ∈ c.network, msg.dst = n ∧ msg.body = .backup (bucketAt c₀ m i)

/-- The next backup of all buckets brings node `n` up to date in bucket `i`. -/
def Serving (c : Cluster ρ δ) (n : NodeId) (i : BucketNo) : Prop :=
  ¬ Behind c₀ m c n i ∨
    (c.tables m).changesPending n i (bucketAt c₀ m i).timestamp = true ∨ Requested c₀ m c n i

def Served (c : Cluster ρ δ) (n : NodeId) (i : BucketNo) : Prop :=
  ¬ Behind c₀ m c n i ∨ Requested c₀ m c n i

def Asks (n : NodeId) (msg : Message ρ δ) : Prop :=
  match msg.body with
  | .getDigests .antiEntropy => msg.src = m ∧ msg.dst = n
  | .digests .antiEntropy _ => msg.src = n ∧ msg.dst = m
  | _ => False

def Asked (c : Cluster ρ δ) (n : NodeId) : Prop :=
  (∃ msg ∈ c.network, Asks m n msg) ∨ ∀ i, Sends c₀ m n i → Serving c₀ m c n i

def Sound (c : Cluster ρ δ) (msg : Message ρ δ) : Prop :=
  match msg.body with
  | .backup b => msg.src = m ∧ Sends c₀ m msg.dst b.bucketId ∧ b = bucketAt c₀ m b.bucketId
  | .backupDone i _ succeeded => msg.dst = m ∧ succeeded = true ∧ ¬ Behind c₀ m c msg.src i
  | .getDigests purpose => purpose = .antiEntropy ∧ msg.src = m
  | .digests purpose digests => purpose = .antiEntropy ∧ msg.dst = m ∧
      ∀ i, ¬ Behind c₀ m c msg.src i ∨ (bucketAt c₀ msg.src i).getDigest ∈ digests
  | .getBucket _ | .bucket _ => False

def Handled (c : Cluster ρ δ) (msg : Message ρ δ) : Prop :=
  match msg.body with
  | .backup b => ¬ Behind c₀ m c msg.dst b.bucketId
  | .backupDone i _ _ => ¬ Behind c₀ m c msg.src i
  | .getDigests _ => ∃ reply ∈ c.network, Asks m msg.dst reply
  | .digests _ _ => ∀ i, Sends c₀ m msg.src i → Serving c₀ m c msg.src i
  | .getBucket _ | .bucket _ => False

structure PassInvariant (c : Cluster ρ δ) : Prop where
  lifecycle : ∀ n, (c.tables n).lifecycle = (c₀.tables n).lifecycle
  localNodeId : ∀ n, (c.tables n).localNodeId = (c₀.tables n).localNodeId
  master : (c.tables m).flowBuckets = (c₀.tables m).flowBuckets
  buckets : ∀ n i, bucketAt c n i = bucketAt c₀ n i ∨
    Sends c₀ m n i ∧ Behind c₀ m c₀ n i ∧ bucketAt c n i = bucketAt c₀ m i
  sound : ∀ msg ∈ c.network, Sound c₀ m c msg

structure Moves (c d : Cluster ρ δ) : Prop where
  lifecycle : ∀ n, (d.tables n).lifecycle = (c.tables n).lifecycle
  localNodeId : ∀ n, (d.tables n).localNodeId = (c.tables n).localNodeId
  master : (d.tables m).flowBuckets = (c.tables m).flowBuckets
  buckets : ∀ n i, bucketAt d n i = bucketAt c n i ∨
    Sends c₀ m n i ∧ Behind c₀ m c n i ∧ bucketAt d n i = bucketAt c₀ m i
  times : ∀ n i, (d.tables m).lastBackupTimes n i = (c.tables m).lastBackupTimes n i ∨
    (d.tables m).lastBackupTimes n i = none ∨ ¬ Behind c₀ m d n i
  sent : ∀ msg ∈ d.network, msg ∈ c.network ∨ Sound c₀ m d msg
  kept : ∀ msg ∈ c.network, msg ∈ d.network ∨ Handled c₀ m d msg

structure Advances (c d : Cluster ρ δ) : Prop where
  caught : ∀ n i, ¬ Behind c₀ m c n i → ¬ Behind c₀ m d n i
  serving : ∀ n i, Serving c₀ m c n i → Serving c₀ m d n i
  served : ∀ n i, Served c₀ m c n i → Served c₀ m d n i
  asked : ∀ n, Asked c₀ m c n → Asked c₀ m d n

variable {c₀ m} {c d e : Cluster ρ δ}

theorem Advances.refl (c : Cluster ρ δ) : Advances c₀ m c c :=
  ⟨fun _ _ h => h, fun _ _ h => h, fun _ _ h => h, fun _ h => h⟩

theorem Advances.trans (h : Advances c₀ m c d) (k : Advances c₀ m d e) : Advances c₀ m c e :=
  ⟨fun n i hc => k.caught n i (h.caught n i hc), fun n i hs => k.serving n i (h.serving n i hs),
    fun n i hs => k.served n i (h.served n i hs), fun n ha => k.asked n (h.asked n ha)⟩

theorem not_behind_of_eq {n : NodeId} {i : BucketNo} (h : bucketAt d n i = bucketAt c₀ m i) :
    ¬ Behind c₀ m d n i := by
  unfold Behind
  rw [h, newer_irrefl]
  exact Bool.false_ne_true

theorem bucketId_bucketAt (c : Cluster ρ δ) (n : NodeId) (i : BucketNo) :
    (bucketAt c n i).bucketId = i := (c.tables n).flowBuckets.named i

theorem Moves.advances (h : Moves c₀ m c d) : Advances c₀ m c d := by
  have hcaught : ∀ n i, ¬ Behind c₀ m c n i → ¬ Behind c₀ m d n i := by
    intro n i hc
    rcases h.buckets n i with he | ⟨-, -, he⟩
    · unfold Behind at hc ⊢
      rwa [he]
    · exact not_behind_of_eq he
  have hrequested : ∀ n i, Requested c₀ m c n i → Served c₀ m d n i := by
    rintro n i ⟨msg, hm, rfl, hb⟩
    rcases h.kept msg hm with hkept | hdone
    · exact Or.inr ⟨msg, hkept, rfl, hb⟩
    · simp only [Handled, hb, bucketId_bucketAt] at hdone
      exact Or.inl hdone
  have hserving : ∀ n i, Serving c₀ m c n i → Serving c₀ m d n i := by
    rintro n i (hc | hp | hr)
    · exact Or.inl (hcaught n i hc)
    · rcases h.times n i with ht | ht | ht
      · refine Or.inr (Or.inl ?_)
        unfold DeviceFlowTable.changesPending at hp ⊢
        rwa [ht]
      · refine Or.inr (Or.inl ?_)
        simp [DeviceFlowTable.changesPending, ht]
      · exact Or.inl ht
    · rcases hrequested n i hr with hc | hr
      · exact Or.inl hc
      · exact Or.inr (Or.inr hr)
  refine ⟨hcaught, hserving, ?_, ?_⟩
  · rintro n i (hc | hr)
    · exact Or.inl (hcaught n i hc)
    · exact hrequested n i hr
  · rintro n (⟨msg, hm, ha⟩ | hall)
    · rcases h.kept msg hm with hkept | hdone
      · exact Or.inl ⟨msg, hkept, ha⟩
      · obtain ⟨src, dst, timestamp, body⟩ := msg
        cases body with
        | getDigests purpose =>
          cases purpose with
          | antiEntropy => obtain ⟨rfl, rfl⟩ := ha; exact Or.inl hdone
          | sync => exact absurd ha id
        | digests purpose digests =>
          cases purpose with
          | antiEntropy => obtain ⟨rfl, rfl⟩ := ha; exact Or.inr hdone
          | sync => exact absurd ha id
        | _ => exact absurd ha id
    · exact Or.inr fun i hs => hserving n i (hall i hs)

theorem Moves.sound (h : Moves c₀ m c d) {msg : Message ρ δ} (hs : Sound c₀ m c msg) :
    Sound c₀ m d msg := by
  have hcaught := h.advances.caught
  obtain ⟨src, dst, timestamp, body⟩ := msg
  cases body with
  | backup b => exact hs
  | backupDone i ts succeeded => exact ⟨hs.1, hs.2.1, hcaught src i hs.2.2⟩
  | getDigests purpose => exact hs
  | digests purpose digests =>
    exact ⟨hs.1, hs.2.1, fun i => (hs.2.2 i).imp (hcaught src i) id⟩
  | getBucket i => exact hs
  | bucket b => exact hs

theorem PassInvariant.moves (hc : PassInvariant c₀ m c) (h : Moves c₀ m c d) :
    PassInvariant c₀ m d := by
  refine ⟨fun n => (h.lifecycle n).trans (hc.lifecycle n),
    fun n => (h.localNodeId n).trans (hc.localNodeId n), h.master.trans hc.master, ?_, ?_⟩
  · intro n i
    rcases h.buckets n i with he | ⟨hs, hb, he⟩
    · rw [he]; exact hc.buckets n i
    · rcases hc.buckets n i with hold | ⟨-, -, hnew⟩
      · unfold Behind at hb
        rw [hold] at hb
        exact Or.inr ⟨hs, hb, he⟩
      · exact absurd hb (not_behind_of_eq hnew)
  · intro msg hm
    rcases h.sent msg hm with hold | hnew
    · exact h.sound (hc.sound msg hold)
    · exact hnew

end Progress

section Events

variable {c₀ c d : Cluster ρ δ} {m : NodeId} {t : ℕ}

def core (u : DeviceFlowTable ρ δ) := (u.lifecycle, u.localNodeId, u.flowBuckets, u.lastBackupTimes)

theorem bucketAt_of_core {n : NodeId} (h : core (d.tables n) = core (c.tables n)) (i : BucketNo) :
    bucketAt d n i = bucketAt c n i := by
  have hbuckets := congrArg (fun u => u.2.2.1) h
  exact congrArg (fun buckets => ObjectMap.get buckets i) hbuckets

theorem moves_of_core (hcore : ∀ n, core (d.tables n) = core (c.tables n))
    (hsent : ∀ msg ∈ d.network, msg ∈ c.network ∨ Sound c₀ m d msg)
    (hkept : ∀ msg ∈ c.network, msg ∈ d.network ∨ Handled c₀ m d msg) : Moves c₀ m c d where
  lifecycle n := congrArg (fun u => u.1) (hcore n)
  localNodeId n := congrArg (fun u => u.2.1) (hcore n)
  master := congrArg (fun u => u.2.2.1) (hcore m)
  buckets n i := Or.inl (bucketAt_of_core (hcore n) i)
  times n i := Or.inl (congrFun (congrFun (congrArg (fun u => u.2.2.2) (hcore m)) n) i)
  sent := hsent
  kept := hkept

theorem moves_requestDigests (peer : NodeId) :
    Moves c₀ m c (c.requestDigests m peer .antiEntropy) := by
  refine moves_of_core (fun n => field_post core (fun _ => rfl) c m peer n _) ?_ ?_
  · intro msg hm
    rcases List.mem_append.mp hm with hold | hnew
    · exact Or.inl hold
    · rw [List.mem_singleton.mp hnew]
      exact Or.inr ⟨rfl, rfl⟩
  · exact fun msg hm => Or.inl (List.mem_append_left _ hm)

theorem asked_requestDigests (peer : NodeId) :
    Asked c₀ m (c.requestDigests m peer .antiEntropy) peer :=
  Or.inl ⟨_, List.mem_append_right _ (List.mem_singleton_self _), rfl, rfl⟩

variable {i : BucketNo}

/-- Backing up bucket `i` to one node: the request is sound, and unless one is sent the node is
served already. -/
theorem moves_backupBucketToNode (hc : PassInvariant c₀ m c) (hf : InFlightSent c) {peer : NodeId}
    (hs : Sends c₀ m peer i) :
    Moves c₀ m c (c.backupBucketToNode m ((c.tables m).flowBuckets.ref i) peer) ∧
      (Serving c₀ m c peer i →
        Served c₀ m (c.backupBucketToNode m ((c.tables m).flowBuckets.ref i) peer) peer i) := by
  have hobject : (c.tables m).flowBuckets.heap ((c.tables m).flowBuckets.ref i) =
      bucketAt c₀ m i := by
    rw [heap_ref, hc.master]
    rfl
  have hname := bucketId_bucketAt c₀ m i
  have hcases := backupBucketToNode_cases c m ((c.tables m).flowBuckets.ref i) peer
  simp only [hobject, hname] at hcases
  rcases hcases with ⟨he, hwhy⟩ | ⟨u, hu, he⟩
  · rw [he]
    refine ⟨moves_of_core (fun _ => rfl) (fun _ h => Or.inl h) (fun _ h => Or.inl h), ?_⟩
    rintro (hcaught | hp | hr)
    · exact Or.inl hcaught
    · rcases hwhy with hwhy | hwhy
      · exact absurd (hwhy.symm.trans hp) Bool.false_ne_true
      · -- a backup of the bucket is under way, either way up to date
        obtain ⟨msg, hm, hcon⟩ := hf m peer i hwhy
        have hsound := hc.sound msg hm
        obtain ⟨src, dst, timestamp, body⟩ := msg
        cases body with
        | backup b =>
          obtain ⟨rfl, rfl, rfl⟩ := hcon
          refine Or.inr ⟨_, hm, rfl, ?_⟩
          exact congrArg Body.backup hsound.2.2
        | backupDone j ts succeeded =>
          obtain ⟨rfl, rfl, rfl⟩ := hcon
          exact Or.inl hsound.2.2
        | _ => exact absurd hcon id
    · exact Or.inr hr
  · rw [he]
    refine ⟨moves_of_core (fun n => ?_) ?_ fun msg hm => Or.inl (List.mem_append_left _ hm), ?_⟩
    · rw [field_post core (fun _ => rfl), tables_set]
      split_ifs with hn
      · rw [hu, hn]; rfl
      · rfl
    · intro msg hm
      rcases List.mem_append.mp hm with hold | hnew
      · exact Or.inl hold
      · rw [List.mem_singleton.mp hnew]
        refine Or.inr ⟨rfl, ?_, ?_⟩
        · rw [hname]; exact hs
        · rw [hname]
    · exact fun _ => Or.inr ⟨_, List.mem_append_right _ (List.mem_singleton_self _), rfl, rfl⟩

theorem tables_tick (c : Cluster ρ δ) (dst k : NodeId) (timestamp : LogicalTimestamp) :
    core ((c.set dst ((c.tables dst).tick timestamp)).tables k) = core (c.tables k) := by
  rw [tables_set]
  split_ifs with hk
  · rw [hk]; rfl
  · rfl

variable {k : ℕ} {msg : Message ρ δ} {rest : List (Message ρ δ)}

theorem kept_of_takeAt (htake : takeAt k c.network = some (msg, rest))
    (hrest : ∀ other ∈ rest, other ∈ d.network) (hdone : Handled c₀ m d msg) :
    ∀ other ∈ c.network, other ∈ d.network ∨ Handled c₀ m d other := by
  intro other hm
  rcases (mem_takeAt htake other).mp hm with rfl | hr
  · exact Or.inr hdone
  · exact Or.inl (hrest other hr)

variable {src dst : NodeId} {timestamp : LogicalTimestamp}

section

variable (hc : PassInvariant c₀ m c)

include hc

theorem moves_receive_getDigests {purpose : Purpose}
    (htake : takeAt k c.network = some (⟨src, dst, timestamp, .getDigests purpose⟩, rest)) :
    Moves c₀ m c
      (Cluster.receive { c with network := rest } ⟨src, dst, timestamp, .getDigests purpose⟩) := by
  obtain ⟨hpurpose, hsrc⟩ := hc.sound _ ((mem_takeAt htake _).mpr (Or.inl rfl))
  have hpurpose : purpose = .antiEntropy := hpurpose
  have hsrc : src = m := hsrc
  subst hpurpose hsrc
  have hcore : ∀ n, core ((Cluster.receive { c with network := rest }
      ⟨src, dst, timestamp, .getDigests .antiEntropy⟩).tables n) = core (c.tables n) := fun n =>
    (field_post core (fun _ => rfl) _ dst src n _).trans
      (tables_tick { c with network := rest } dst n timestamp)
  refine moves_of_core hcore ?_ ?_
  · intro other hm
    rcases List.mem_append.mp hm with hold | hnew
    · exact Or.inl ((mem_takeAt htake other).mpr (Or.inr hold))
    · rw [List.mem_singleton.mp hnew]
      refine Or.inr ⟨rfl, rfl, fun i => ?_⟩
      rcases hc.buckets dst i with he | ⟨-, -, he⟩
      · refine Or.inr (List.mem_map.mpr ⟨i, List.mem_finRange i, ?_⟩)
        exact congrArg FlowBucket.getDigest he
      · exact Or.inl (not_behind_of_eq ((bucketAt_of_core (hcore dst) i).trans he))
  · exact kept_of_takeAt htake (fun other hr => List.mem_append_left _ hr)
      ⟨_, List.mem_append_right _ (List.mem_singleton_self _), rfl, rfl⟩

theorem moves_receive_backupDone {timestamp ts : LogicalTimestamp} {succeeded : Bool}
    (htake : takeAt k c.network =
      some (⟨src, dst, timestamp, .backupDone i ts succeeded⟩, rest)) :
    Moves c₀ m c (Cluster.receive { c with network := rest }
      ⟨src, dst, timestamp, .backupDone i ts succeeded⟩) := by
  obtain ⟨hdst, hsucceeded, hcaught⟩ := hc.sound _ ((mem_takeAt htake _).mpr (Or.inl rfl))
  have hdst : dst = m := hdst
  have hsucceeded : succeeded = true := hsucceeded
  subst hdst hsucceeded
  have htables : ∀ n, (Cluster.receive { c with network := rest }
      ⟨src, dst, timestamp, .backupDone i ts true⟩).tables n =
      if n = dst then ((c.tables dst).tick timestamp).succeedBackup src i ts
      else c.tables n := by
    intro n
    simp only [Cluster.receive, tables_set, if_true]
    split_ifs <;> rfl
  have hbuckets : ∀ n j, bucketAt (Cluster.receive { c with network := rest }
      ⟨src, dst, timestamp, .backupDone i ts true⟩) n j = bucketAt c n j := by
    intro n j
    unfold bucketAt
    rw [htables]
    split_ifs with hn
    · rw [hn]; rfl
    · rfl
  have hdone : ¬ Behind c₀ dst (Cluster.receive { c with network := rest }
      ⟨src, dst, timestamp, .backupDone i ts true⟩) src i := by
    unfold Behind
    rw [hbuckets]
    exact hcaught
  constructor
  · intro n
    rw [htables]
    split_ifs with hn
    · rw [hn]; rfl
    · rfl
  · intro n
    rw [htables]
    split_ifs with hn
    · rw [hn]; rfl
    · rfl
  · rw [htables, if_pos rfl]; rfl
  · exact fun n j => Or.inl (hbuckets n j)
  · intro n j
    by_cases hop : n = src ∧ j = i
    · obtain ⟨rfl, rfl⟩ := hop
      exact Or.inr (Or.inr hdone)
    · left
      rw [htables, if_pos rfl]
      by_cases hn : n = src
      · have hj : j ≠ i := fun hj => hop ⟨hn, hj⟩
        simp [DeviceFlowTable.succeedBackup, DeviceFlowTable.failBackup, DeviceFlowTable.tick,
          hn, hj]
      · simp [DeviceFlowTable.succeedBackup, DeviceFlowTable.failBackup, DeviceFlowTable.tick, hn]
  · exact fun other hm => Or.inl ((mem_takeAt htake other).mpr (Or.inr hm))
  · exact kept_of_takeAt htake (fun other hr => hr) hdone

theorem moves_receive_digests {purpose : Purpose} {digests : List FlowBucketDigest}
    (htake : takeAt k c.network =
      some (⟨src, dst, timestamp, .digests purpose digests⟩, rest)) :
    Moves c₀ m c (Cluster.receive { c with network := rest }
      ⟨src, dst, timestamp, .digests purpose digests⟩) := by
  obtain ⟨hpurpose, hdst, hdigests⟩ := hc.sound _ ((mem_takeAt htake _).mpr (Or.inl rfl))
  have hpurpose : purpose = .antiEntropy := hpurpose
  have hdst : dst = m := hdst
  subst hpurpose hdst
  have hforgets := forgets_resetStale ((c.tables dst).tick timestamp) src digests
  have htables : ∀ n, (Cluster.receive { c with network := rest }
      ⟨src, dst, timestamp, .digests .antiEntropy digests⟩).tables n =
      if n = dst then resetStale ((c.tables dst).tick timestamp) src digests
      else c.tables n := by
    intro n
    simp only [Cluster.receive, tables_set]
    split_ifs <;> rfl
  have hbuckets : ∀ n j, bucketAt (Cluster.receive { c with network := rest }
      ⟨src, dst, timestamp, .digests .antiEntropy digests⟩) n j = bucketAt c n j := by
    intro n j
    unfold bucketAt DeviceFlowTable.getBucket
    rw [htables]
    split_ifs with hn
    · rw [hforgets.flowBuckets, hn]; rfl
    · rfl
  constructor
  · intro n
    rw [htables]
    split_ifs with hn
    · rw [hforgets.lifecycle, hn]; rfl
    · rfl
  · intro n
    rw [htables]
    split_ifs with hn
    · rw [hforgets.localNodeId, hn]; rfl
    · rfl
  · rw [htables, if_pos rfl, hforgets.flowBuckets]; rfl
  · exact fun n j => Or.inl (hbuckets n j)
  · intro n j
    rw [htables, if_pos rfl]
    exact (hforgets.lastBackupTimes n j).imp id Or.inl
  · exact fun other hm => Or.inl ((mem_takeAt htake other).mpr (Or.inr hm))
  · refine kept_of_takeAt htake (fun other hr => hr) ?_
    intro i hs
    by_cases hbehind : Behind c₀ dst c src i
    · -- a node that is behind has answered with the digest of the first state
      have hd := (hdigests i).resolve_left (not_not_intro hbehind)
      have hfirst : bucketAt c src i = bucketAt c₀ src i := by
        rcases hc.buckets src i with he | ⟨-, -, he⟩
        · exact he
        · exact absurd hbehind (not_behind_of_eq he)
      have hname : ((bucketAt c₀ src i).getDigest).bucket = i := bucketId_bucketAt c₀ src i
      have hlocal : ((c.tables dst).tick timestamp).getBucket i = bucketAt c₀ dst i :=
        congrArg (fun buckets => ObjectMap.get buckets i) hc.master
      have hreset := resetStale_of_newer ((c.tables dst).tick timestamp) src hd (by
        rw [hname, hlocal, ← hfirst]
        exact hbehind)
      rw [hname] at hreset
      refine Or.inr (Or.inl ?_)
      rw [htables, if_pos rfl]
      simp only [DeviceFlowTable.changesPending, hreset]
    · refine Or.inl ?_
      unfold Behind at hbehind ⊢
      rwa [hbuckets]

theorem moves_of_put
    (u : DeviceFlowTable ρ δ) (hs : Sends c₀ m dst i) (hu : core u = core (c.tables dst))
    (hput : core (d.tables dst) = core (u.putIfNewer (bucketAt c₀ m i)))
    (hother : ∀ n, n ≠ dst → core (d.tables n) = core (c.tables n))
    (htake : takeAt k c.network = some (⟨m, dst, timestamp, .backup (bucketAt c₀ m i)⟩, rest))
    (hsent : ∀ other ∈ d.network, other ∈ rest ∨
      ∃ stamp ts, other = ⟨dst, m, stamp, .backupDone i ts true⟩)
    (hrest : ∀ other ∈ rest, other ∈ d.network) :
    Moves c₀ m c d := by
  have hname := bucketId_bucketAt c₀ m i
  have hheld : ∀ j, u.getBucket j = bucketAt c dst j := fun j =>
    congrArg (fun buckets => ObjectMap.get buckets j) (congrArg (fun v => v.2.2.1) hu)
  have hdst : ∀ j, bucketAt d dst j =
      if Behind c₀ m c dst i ∧ j = i then bucketAt c₀ m i else bucketAt c dst j := by
    intro j
    have hget : bucketAt d dst j = (u.putIfNewer (bucketAt c₀ m i)).getBucket j :=
      congrArg (fun buckets => ObjectMap.get buckets j) (congrArg (fun v => v.2.2.1) hput)
    rw [hget, getBucket_putIfNewer, hname, hheld, hheld]
    rfl
  have hdone : ¬ Behind c₀ m d dst i := by
    by_cases hb : Behind c₀ m c dst i
    · exact not_behind_of_eq ((hdst i).trans (if_pos ⟨hb, rfl⟩))
    · unfold Behind at hb ⊢
      rwa [(hdst i).trans (if_neg fun h => hb h.1)]
  have hkeep := field_onBackup (fun v => (v.lifecycle, v.localNodeId, v.lastBackupTimes))
    (fun _ _ => rfl) u (bucketAt c₀ m i)
  have hsame : ∀ n, (d.tables n).lifecycle = (c.tables n).lifecycle ∧
      (d.tables n).localNodeId = (c.tables n).localNodeId ∧
      (d.tables n).lastBackupTimes = (c.tables n).lastBackupTimes := by
    intro n
    by_cases hn : n = dst
    · subst hn
      have h₁ := congrArg (fun v => (v.1, v.2.1, v.2.2.2)) hput
      have h₂ := congrArg (fun v => (v.1, v.2.1, v.2.2.2)) hu
      have h₃ := h₁.trans (hkeep.1.trans h₂)
      exact ⟨congrArg Prod.fst h₃, congrArg (fun v => v.2.1) h₃, congrArg (fun v => v.2.2) h₃⟩
    · have h := hother n hn
      exact ⟨congrArg Prod.fst h, congrArg (fun v => v.2.1) h, congrArg (fun v => v.2.2.2) h⟩
  constructor
  · exact fun n => (hsame n).1
  · exact fun n => (hsame n).2.1
  · by_cases hm : m = dst
    · -- the master's own bucket is not newer than itself
      subst hm
      have hself : (bucketAt c₀ m i).getDigest.isNewerThan (some (u.getBucket i).getDigest) ≠
          true := by
        have hown : bucketAt c m i = bucketAt c₀ m i :=
          congrArg (fun buckets => ObjectMap.get buckets i) hc.master
        rw [hheld, hown, newer_irrefl]
        exact Bool.false_ne_true
      have hunchanged : u.putIfNewer (bucketAt c₀ m i) = u := by
        unfold DeviceFlowTable.putIfNewer
        rw [hname, if_neg hself]
      rw [hunchanged] at hput
      exact congrArg (fun v => v.2.2.1) (hput.trans hu)
    · exact congrArg (fun v => v.2.2.1) (hother m hm)
  · intro n j
    by_cases hn : n = dst
    · subst hn
      rw [hdst]
      split_ifs with hb
      · obtain ⟨hb, rfl⟩ := hb
        exact Or.inr ⟨hs, hb, rfl⟩
      · exact Or.inl rfl
    · exact Or.inl (bucketAt_of_core (hother n hn) j)
  · exact fun n j => Or.inl (by rw [(hsame m).2.2])
  · intro msg hm
    rcases hsent msg hm with hr | ⟨stamp, ts, rfl⟩
    · exact Or.inl ((mem_takeAt htake msg).mpr (Or.inr hr))
    · exact Or.inr ⟨rfl, rfl, hdone⟩
  · refine kept_of_takeAt htake hrest ?_
    change ¬ Behind c₀ m d dst (bucketAt c₀ m i).bucketId
    rwa [hname]

theorem moves_receive_backup (hlearned : ∀ n ∈ (c₀.tables m).lifecycle.backups,
      (c₀.tables n).lifecycle.term = (c₀.tables m).lifecycle.term)
    {b : FlowBucket ρ δ}
    (htake : takeAt k c.network = some (⟨src, dst, timestamp, .backup b⟩, rest)) :
    Moves c₀ m c
      (Cluster.receive { c with network := rest } ⟨src, dst, timestamp, .backup b⟩) := by
  obtain ⟨hsrc, hs, hb⟩ := hc.sound _ ((mem_takeAt htake _).mpr (Or.inl rfl))
  have hsrc : src = m := hsrc
  subst hsrc
  have hs : Sends c₀ src dst b.bucketId := hs
  have hterm : b.term = ((c.tables dst).tick timestamp).lifecycle.term := by
    have hsame : ((c.tables dst).tick timestamp).lifecycle = (c₀.tables dst).lifecycle :=
      hc.lifecycle dst
    rw [hsame, hlearned dst hs.2, ← hs.1, ← hb]
  have haccept : ((c.tables dst).tick timestamp).onBackup b =
      (((c.tables dst).tick timestamp).putIfNewer b, true) := if_pos hterm
  have hcore : ∀ n, core ((Cluster.receive { c with network := rest }
      ⟨src, dst, timestamp, .backup b⟩).tables n) =
      if n = dst then core (((c.tables dst).tick timestamp).putIfNewer b)
      else core (c.tables n) := by
    intro n
    simp only [Cluster.receive]
    rw [field_post core (fun _ => rfl), tables_set, tables_set, haccept]
    split_ifs <;> rfl
  rw [hb] at htake
  refine moves_of_put hc ((c.tables dst).tick timestamp) hs rfl ?_
    (fun n hn => (hcore n).trans (if_neg hn)) htake ?_ ?_
  · rw [hcore, if_pos rfl, ← hb]
  · intro other hm
    rcases List.mem_append.mp hm with hr | hnew
    · exact Or.inl hr
    · have heq := List.mem_singleton.mp hnew
      dsimp only at heq
      rw [haccept] at heq
      exact Or.inr ⟨_, _, heq⟩
  · exact fun other hr => List.mem_append_left _ hr

end

theorem backupBucket_loop (i : BucketNo) (peers : List NodeId)
    (hpeers : ∀ peer ∈ peers, Sends c₀ m peer i) (hc : PassInvariant c₀ m c)
    (hf : InFlightSent c) :
    let e := peers.foldl (fun c peer =>
      c.backupBucketToNode m ((c₀.tables m).flowBuckets.ref i) peer) c
    (PassInvariant c₀ m e ∧ InFlightSent e) ∧ Advances c₀ m c e ∧
      ∀ peer ∈ peers, Serving c₀ m c peer i → Served c₀ m e peer i := by
  induction peers generalizing c with
  | nil => exact ⟨⟨hc, hf⟩, Advances.refl c, fun _ h => absurd h List.not_mem_nil⟩
  | cons peer peers ih =>
    have hfirst := moves_backupBucketToNode hc hf (hpeers peer List.mem_cons_self)
    rw [hc.master] at hfirst
    obtain ⟨hmoves, hserved⟩ := hfirst
    have hsent := inFlightSent_backupBucketToNode c m ((c₀.tables m).flowBuckets.ref i) peer hf
    obtain ⟨hinv, hrest, hall⟩ := ih (fun p hp => hpeers p (List.mem_cons_of_mem _ hp))
      (hc.moves hmoves) hsent
    refine ⟨hinv, hmoves.advances.trans hrest, fun p hp hs => ?_⟩
    rcases List.mem_cons.mp hp with rfl | hp
    · exact hrest.served p i (hserved hs)
    · exact hall p hp (hmoves.advances.serving p i hs)

theorem backupBucket_advances (i : BucketNo)
    (hmaster : (c₀.tables m).lifecycle.isMaster (c₀.tables m).localNodeId)
    (hc : PassInvariant c₀ m c) (hf : InFlightSent c) :
    let e := c.backupBucket m ((c₀.tables m).flowBuckets.ref i)
    (PassInvariant c₀ m e ∧ InFlightSent e) ∧ Advances c₀ m c e ∧
      ∀ n, Sends c₀ m n i → Serving c₀ m c n i → Served c₀ m e n i := by
  have hobject : (c.tables m).flowBuckets.heap ((c₀.tables m).flowBuckets.ref i) =
      bucketAt c₀ m i := by
    rw [hc.master]; rfl
  unfold Cluster.backupBucket
  dsimp only
  rw [hobject, hc.lifecycle m, hc.localNodeId m]
  split_ifs with hterm
  · have hloop := backupBucket_loop i (c₀.tables m).lifecycle.backups
      (fun peer hp => ⟨hterm.1, hp⟩) hc hf
    exact ⟨hloop.1, hloop.2.1, fun n hs => hloop.2.2 n hs.2⟩
  · exact ⟨⟨hc, hf⟩, Advances.refl c, fun n hs => absurd ⟨hs.1, hmaster⟩ hterm⟩

end Events

section Pass

variable [DecidableEq ρ] {c₀ c : Cluster ρ δ} {m : NodeId} {t : ℕ}

def InPass (m : NodeId) (c : Cluster ρ δ) : ClusterInput ρ δ → Prop
  | .backupBucket n r => n = m ∧ ∃ i, (c.tables m).flowBuckets.ref i = r
  | .requestDigests n peer purpose =>
    n = m ∧ purpose = .antiEntropy ∧ peer ∈ (c.tables m).lifecycle.backups
  | .deliver _ => True
  | .table _ _ | .lose _ => False

def InBackup (m : NodeId) (c : Cluster ρ δ) : ClusterInput ρ δ → Prop
  | .requestDigests _ _ _ => False
  | x => InPass m c x

instance (m : NodeId) (c : Cluster ρ δ) : (x : ClusterInput ρ δ) → Decidable (InPass m c x)
  | .backupBucket n r =>
    inferInstanceAs (Decidable (n = m ∧ ∃ i : BucketNo, (c.tables m).flowBuckets.ref i = r))
  | .requestDigests n peer purpose => inferInstanceAs
      (Decidable (n = m ∧ purpose = .antiEntropy ∧ peer ∈ (c.tables m).lifecycle.backups))
  | .deliver _ => isTrue trivial
  | .table _ _ | .lose _ => isFalse id

instance (m : NodeId) (c : Cluster ρ δ) : (x : ClusterInput ρ δ) → Decidable (InBackup m c x)
  | .requestDigests _ _ _ | .table _ _ | .lose _ => isFalse id
  | .backupBucket n r => inferInstanceAs (Decidable (InPass m c (.backupBucket n r)))
  | .deliver _ => isTrue trivial

/-- A run that asks every backup for its digests and ends with all messages arrived. -/
structure AntiEntropyPass (replicaInfo : DeviceReplicaInfo) (c : Cluster ρ δ) (m : NodeId)
    (xs : List (ClusterInput ρ δ)) : Prop where
  steps : ((clusterMachine replicaInfo).guarded (InPass m)).Valid c xs
  asks : ∀ n ∈ (c.tables m).lifecycle.backups, .requestDigests m n .antiEntropy ∈ xs
  settled : ((clusterMachine replicaInfo).run c xs).network = []

/-- A run that backs up every bucket and ends with all messages arrived. -/
structure BackupAll (replicaInfo : DeviceReplicaInfo) (c : Cluster ρ δ) (m : NodeId)
    (xs : List (ClusterInput ρ δ)) : Prop where
  steps : ((clusterMachine replicaInfo).guarded (InBackup m)).Valid c xs
  backs : ∀ i, .backupBucket m ((c.tables m).flowBuckets.ref i) ∈ xs
  settled : ((clusterMachine replicaInfo).run c xs).network = []

omit [DecidableEq ρ] in
theorem passInvariant_refl (hq : Quiescent c₀ m t) : PassInvariant c₀ m c₀ := by
  refine ⟨fun _ => rfl, fun _ => rfl, rfl, fun _ _ => Or.inl rfl, fun msg hm => ?_⟩
  rw [hq.silent] at hm
  exact absurd hm List.not_mem_nil

theorem inPass_step (hq : Quiescent c₀ m t) (hc : PassInvariant c₀ m c) (hf : InFlightSent c)
    {x : ClusterInput ρ δ} (hx : c.Accepts x) (hp : InPass m c x) :
    (PassInvariant c₀ m (c.handle x) ∧ InFlightSent (c.handle x)) ∧
      Advances c₀ m c (c.handle x) := by
  have hlearned : ∀ n ∈ (c₀.tables m).lifecycle.backups,
      (c₀.tables n).lifecycle.term = (c₀.tables m).lifecycle.term :=
    fun n hn => (hq.learned n hn).trans hq.term.symm
  have hmoves : ∀ {d}, c.handle x = d → Moves c₀ m c d →
      (PassInvariant c₀ m (c.handle x) ∧ InFlightSent (c.handle x)) ∧
        Advances c₀ m c (c.handle x) := by
    rintro d rfl h
    exact ⟨⟨hc.moves h, inFlightSent_handle c x hf hx⟩, h.advances⟩
  cases x with
  | backupBucket n r =>
    obtain ⟨rfl, i, rfl⟩ := hp
    have hadv := backupBucket_advances i hq.master hc hf
    rw [← hc.master] at hadv
    exact ⟨hadv.1, hadv.2.1⟩
  | requestDigests n peer purpose =>
    obtain ⟨rfl, rfl, hpeer⟩ := hp
    exact hmoves rfl (moves_requestDigests peer)
  | deliver k =>
    obtain ⟨msg, rest, htake⟩ := takeAt_isSome hx
    have hnext : c.handle (.deliver k) = Cluster.receive { c with network := rest } msg := by
      simp only [Cluster.handle, htake]
    have hsound := hc.sound msg ((mem_takeAt htake msg).mpr (Or.inl rfl))
    obtain ⟨src, dst, timestamp, body⟩ := msg
    cases body with
    | backup b => exact hmoves hnext (moves_receive_backup hc hlearned htake)
    | backupDone i ts succeeded => exact hmoves hnext (moves_receive_backupDone hc htake)
    | getDigests purpose => exact hmoves hnext (moves_receive_getDigests hc htake)
    | digests purpose digests => exact hmoves hnext (moves_receive_digests hc htake)
    | getBucket i => exact absurd hsound id
    | bucket b => exact absurd hsound id
  | table n x => exact absurd hp id
  | lose k => exact absurd hp id

theorem serving_of_pass (replicaInfo : DeviceReplicaInfo) (hf : InFlightSent c)
    (hq : Quiescent c m t) {xs : List (ClusterInput ρ δ)}
    (hpass : AntiEntropyPass replicaInfo c m xs) :
    let d := (clusterMachine replicaInfo).run c xs
    (PassInvariant c m d ∧ InFlightSent d) ∧ ∀ n i, Sends c m n i → Serving c m d n i := by
  intro d
  have hstart : PassInvariant c m c ∧ InFlightSent c := ⟨passInvariant_refl hq, hf⟩
  have hstep : ∀ e x, (PassInvariant c m e ∧ InFlightSent e) →
      ((clusterMachine replicaInfo).guarded (InPass m)).enabled e x →
      (PassInvariant c m (e.handle x) ∧ InFlightSent (e.handle x)) ∧
        Advances c m e (e.handle x) :=
    fun e x h hx => inPass_step hq h.1 h.2 hx.1 hx.2
  refine ⟨invariant_run _ (fun e x h hx => (hstep e x h hx).1) hpass.steps hstart, ?_⟩
  intro n i hs
  have hasked : Asked c m d n := by
    refine established_run (fun e => PassInvariant c m e ∧ InFlightSent e) (fun e => Asked c m e n)
      (fun e x h hx => (hstep e x h hx).1) (fun e x h hx ha => (hstep e x h hx).2.asked n ha)
      (fun e _ _ => asked_requestDigests n) hpass.steps hstart (hpass.asks n hs.2)
  rcases hasked with ⟨msg, hm, -⟩ | hserving
  · rw [hpass.settled] at hm
    exact absurd hm List.not_mem_nil
  · exact hserving i hs

theorem not_behind_of_backupAll (replicaInfo : DeviceReplicaInfo) (hq : Quiescent c₀ m t)
    (hc : PassInvariant c₀ m c) (hf : InFlightSent c)
    (hserving : ∀ n i, Sends c₀ m n i → Serving c₀ m c n i) {ys : List (ClusterInput ρ δ)}
    (hall : BackupAll replicaInfo c m ys) :
    let d := (clusterMachine replicaInfo).run c ys
    PassInvariant c₀ m d ∧ ∀ n i, Sends c₀ m n i → ¬ Behind c₀ m d n i := by
  intro d
  have hvalid : ((clusterMachine replicaInfo).guarded (InPass m)).Valid c ys := by
    refine Machine.Valid.guarded_mono (fun e x hx => ?_) hall.steps
    cases x with
    | requestDigests => exact absurd hx id
    | _ => exact hx
  have hstep : ∀ e x, ((PassInvariant c₀ m e ∧ InFlightSent e) ∧
        ∀ n i, Sends c₀ m n i → Serving c₀ m e n i) →
      ((clusterMachine replicaInfo).guarded (InPass m)).enabled e x →
      ((PassInvariant c₀ m (e.handle x) ∧ InFlightSent (e.handle x)) ∧
        ∀ n i, Sends c₀ m n i → Serving c₀ m (e.handle x) n i) ∧
        Advances c₀ m e (e.handle x) := by
    intro e x h hx
    have hboth := inPass_step hq h.1.1 h.1.2 hx.1 hx.2
    exact ⟨⟨hboth.1, fun n i hs => hboth.2.serving n i (h.2 n i hs)⟩, hboth.2⟩
  have hend := invariant_run _ (fun e x h hx => (hstep e x h hx).1) hvalid ⟨⟨hc, hf⟩, hserving⟩
  refine ⟨hend.1.1, fun n i hs => ?_⟩
  have hback := hall.backs i
  rw [hc.master] at hback
  have hserved : Served c₀ m d n i := by
    refine established_run _ (fun e => Served c₀ m e n i) (fun e x h hx => (hstep e x h hx).1)
      (fun e x h hx hd => (hstep e x h hx).2.served n i hd) (fun e h _ => ?_) hvalid
      ⟨⟨hc, hf⟩, hserving⟩ hback
    exact (backupBucket_advances i hq.master h.1.1 h.1.2).2.2 n hs (h.2 n i hs)
  rcases hserved with hcaught | ⟨msg, hm, -⟩
  · exact hcaught
  · rw [hall.settled] at hm
    exact absurd hm List.not_mem_nil

/-- The pass makes the backups agree with the master exactly when every bucket in which they
differ was last written in the current term and is newer than the backup's. -/
theorem pass_replicates_iff (replicaInfo : DeviceReplicaInfo)
    (hr : (clusterMachine replicaInfo).Reachable c) (hq : Quiescent c m t)
    {xs ys : List (ClusterInput ρ δ)} (hpass : AntiEntropyPass replicaInfo c m xs)
    (hall : BackupAll replicaInfo ((clusterMachine replicaInfo).run c xs) m ys) :
    let d := (clusterMachine replicaInfo).run c (xs ++ ys)
    (∀ n ∈ (c.tables m).lifecycle.backups, ∀ i,
      (bucketAt d n i).flowBucket = (bucketAt d m i).flowBucket) ↔
    ∀ n ∈ (c.tables m).lifecycle.backups, ∀ i,
      (bucketAt c n i).flowBucket = (bucketAt c m i).flowBucket ∨
      (bucketAt c m i).term = t ∧
        (bucketAt c m i).getDigest.isNewerThan (some (bucketAt c n i).getDigest) = true := by
  intro d
  obtain ⟨⟨hc₁, hf₁⟩, hserving⟩ :=
    serving_of_pass replicaInfo (inFlightSent_reachable replicaInfo hr) hq hpass
  have hend := not_behind_of_backupAll replicaInfo hq hc₁ hf₁ hserving hall
  rw [← run_append] at hend
  obtain ⟨hc₂, hcaught⟩ := hend
  have hown : ∀ i, bucketAt d m i = bucketAt c m i := fun i =>
    congrArg (fun buckets => ObjectMap.get buckets i) hc₂.master
  constructor
  · intro h n hn i
    rcases hc₂.buckets n i with hsame | ⟨hs, hbehind, -⟩
    · have heq := h n hn i
      rw [hown] at heq
      rw [← hsame]
      exact Or.inl heq
    · exact Or.inr ⟨hs.1.trans hq.term, hbehind⟩
  · intro h n hn i
    rw [hown]
    rcases hc₂.buckets n i with hsame | ⟨-, -, hnew⟩
    · rcases h n hn i with heq | ⟨hterm, hbehind⟩
      · rw [← heq]
        exact congrArg FlowBucket.flowBucket hsame
      · -- such a bucket has been replaced
        have hnot := hcaught n i ⟨hterm.trans hq.term.symm, hn⟩
        unfold Behind at hnot
        rw [hsame] at hnot
        exact absurd hbehind hnot
    · rw [hnew]

end Pass

section Regression

def aloneInFirstTerm : DeviceReplicaInfo := ⟨1, some 0, []⟩
def otherMaster : DeviceReplicaInfo := ⟨2, some 1, [0]⟩
def masterAgain : DeviceReplicaInfo := ⟨3, some 0, [2]⟩

/-- Node 0 writes a rule in term 1, node 1 is master in term 2, and node 0 again in term 3, now
with node 2 as its backup. -/
def masterOfThirdTerm : List (ClusterInput Unit Unit) :=
  [.table 0 (.runInTerm (.add someRule)),
    .table 0 (.learn otherMaster), .table 1 (.learn otherMaster),
    .table 0 (.startTerm otherMaster), .table 1 (.startTerm otherMaster),
    .requestDigests 1 0 .sync, .deliver 0, .deliver 0, .deliver 0, .deliver 0,
    .table 1 (.finishSync ⟨aloneInFirstTerm, otherMaster⟩),
    .table 0 (.learn masterAgain), .table 1 (.learn masterAgain), .table 2 (.learn masterAgain),
    .table 0 (.startTerm masterAgain), .table 2 (.startTerm masterAgain),
    .requestDigests 0 1 .sync, .deliver 0, .deliver 0,
    .table 0 (.finishSync ⟨otherMaster, masterAgain⟩)]

def backupEvents : List (ClusterInput Unit Unit) :=
  (List.finRange NUM_BUCKETS).map fun i : BucketNo => .backupBucket 0 i.val

def passEvents : List (ClusterInput Unit Unit) :=
  backupEvents ++ [.requestDigests 0 2 .antiEntropy, .deliver 0, .deliver 0]

abbrev threeNodes : Machine (Cluster Unit Unit) (ClusterInput Unit Unit) :=
  clusterMachine aloneInFirstTerm

theorem rule_of_first_term_not_replicated :
    let c := threeNodes.run threeNodes.initial masterOfThirdTerm
    let d := threeNodes.run c (passEvents ++ backupEvents)
    threeNodes.Reachable c ∧ Quiescent c 0 3 ∧ (c.tables 0).lifecycle.backups = [2] ∧
    AntiEntropyPass aloneInFirstTerm c 0 passEvents ∧
    BackupAll aloneInFirstTerm (threeNodes.run c passEvents) 0 backupEvents ∧
    (bucketAt d 0 (bucket 0)).flowBucket 0 () = some someRule ∧
    (bucketAt d 2 (bucket 0)).flowBucket 0 () = none := by
  intro c d
  have hbefore : threeNodes.Valid threeNodes.initial masterOfThirdTerm ∧
      (c.tables 0).lifecycle = masterAgain ∧ (c.tables 2).lifecycle = masterAgain ∧
      (c.tables 0).localNodeId = 0 ∧ (c.tables 0).activeTerm = 3 ∧ c.network = [] ∧
      ∀ i, (c.tables 0).flowTasks i = [] := by decide +kernel
  have hpass : (threeNodes.guarded (InPass 0)).Valid c passEvents ∧
      (threeNodes.run c passEvents).network = [] ∧
      (∀ i : BucketNo, ((threeNodes.run c passEvents).tables 0).flowBuckets.ref i = i.val) ∧
      (threeNodes.guarded (InBackup 0)).Valid (threeNodes.run c passEvents)
        backupEvents ∧
      (threeNodes.run (threeNodes.run c passEvents) backupEvents).network = [] ∧
      (bucketAt d 0 (bucket 0)).flowBucket 0 () = some someRule ∧
      (bucketAt d 2 (bucket 0)).flowBucket 0 () = none := by decide +kernel
  obtain ⟨hvalid, hmaster, hbackup, hnode, hactive, hsilent, hidle⟩ := hbefore
  obtain ⟨hsteps, hsettled, hrefs, hsteps', hsettled', hown, hother⟩ := hpass
  have hbackups : (c.tables 0).lifecycle.backups = [2] := by rw [hmaster]; rfl
  refine ⟨⟨_, hvalid, rfl⟩, ⟨?_, ?_, hactive, ?_, hsilent, hidle⟩, hbackups,
    ⟨hsteps, ?_, hsettled⟩, ⟨hsteps', fun i => ?_, hsettled'⟩, hown, hother⟩
  · rw [hmaster, hnode]; rfl
  · rw [hmaster]; rfl
  · intro n hn
    rw [hbackups] at hn
    rw [List.mem_singleton.mp hn, hbackup]; rfl
  · intro n hn
    rw [hbackups] at hn
    rw [List.mem_singleton.mp hn]
    exact List.mem_append_right _ List.mem_cons_self
  · rw [hrefs]
    exact List.mem_map.mpr ⟨i, List.mem_finRange i, rfl⟩

def withBackup : DeviceReplicaInfo := ⟨1, some 0, [2]⟩

def wroteInFirstTerm : List (ClusterInput Unit Unit) := [.table 0 (.runInTerm (.add someRule))]

def deliveringPass : List (ClusterInput Unit Unit) :=
  backupEvents ++ [.deliver 0, .deliver 0, .requestDigests 0 2 .antiEntropy, .deliver 0, .deliver 0]

theorem rule_of_current_term_replicated :
    let M : Machine (Cluster Unit Unit) (ClusterInput Unit Unit) := clusterMachine withBackup
    let c := M.run M.initial wroteInFirstTerm
    let d := M.run c (deliveringPass ++ backupEvents)
    (∀ n ∈ (c.tables 0).lifecycle.backups, ∀ i,
      (bucketAt d n i).flowBucket = (bucketAt d 0 i).flowBucket) ↔
    ∀ n ∈ (c.tables 0).lifecycle.backups, ∀ i,
      (bucketAt c n i).flowBucket = (bucketAt c 0 i).flowBucket ∨
      (bucketAt c 0 i).term = 1 ∧
        (bucketAt c 0 i).getDigest.isNewerThan (some (bucketAt c n i).getDigest) = true := by
  intro M c
  have hbefore : M.Valid M.initial wroteInFirstTerm ∧
      (c.tables 0).lifecycle = withBackup ∧ (c.tables 2).lifecycle = withBackup ∧
      (c.tables 0).localNodeId = 0 ∧ (c.tables 0).activeTerm = 1 ∧ c.network = [] ∧
      ∀ i, (c.tables 0).flowTasks i = [] := by decide +kernel
  have hpass : (M.guarded (InPass 0)).Valid c deliveringPass ∧
      (M.run c deliveringPass).network = [] ∧
      (∀ i : BucketNo, ((M.run c deliveringPass).tables 0).flowBuckets.ref i = i.val) ∧
      (M.guarded (InBackup 0)).Valid (M.run c deliveringPass) backupEvents ∧
      (M.run (M.run c deliveringPass) backupEvents).network = [] := by decide +kernel
  obtain ⟨hvalid, hmaster, hbackup, hnode, hactive, hsilent, hidle⟩ := hbefore
  obtain ⟨hsteps, hsettled, hrefs, hsteps', hsettled'⟩ := hpass
  have hbackups : (c.tables 0).lifecycle.backups = [2] := by rw [hmaster]; rfl
  refine pass_replicates_iff withBackup ⟨_, hvalid, rfl⟩ ⟨?_, ?_, hactive, ?_, hsilent, hidle⟩
    ⟨hsteps, ?_, hsettled⟩ ⟨hsteps', fun i => ?_, hsettled'⟩
  · rw [hmaster, hnode]; rfl
  · rw [hmaster]; rfl
  · intro n hn
    rw [hbackups] at hn
    rw [List.mem_singleton.mp hn, hbackup]; rfl
  · intro n hn
    rw [hbackups] at hn
    rw [List.mem_singleton.mp hn]
    exact List.mem_append_right _ (by simp)
  · rw [hrefs]
    exact List.mem_map.mpr ⟨i, List.mem_finRange i, rfl⟩

end Regression

end FlowStoreReplication

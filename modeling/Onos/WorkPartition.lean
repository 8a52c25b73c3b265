import Mathlib.Data.List.Nodup
import Mathlib.Algebra.Group.Nat.Defs

/-! The partitions of the work between the nodes. A key belongs to the leader of one of the topics that
every node runs for; the topic comes from a hash of the key. -/
namespace WorkPartition

def NUM_PARTITIONS : ℕ := 14

def ELECTION_PREFIX : String := "work-partition-"

def getPartitionPath (i : ℤ) : String := ELECTION_PREFIX ++ toString i

structure Leadership (N : Type*) where
  leaderNodeId : Option N
  candidates : List N

/-- The leadership of a topic, when there is such a topic, and what a node can do about it. -/
structure LeadershipService (σ N : Type*) where
  getLeadership : σ → String → Option (Leadership N)
  runForLeadership : N → σ → String → σ
  withdraw : N → σ → String → σ
  isCandidate_run : ∀ n s topic, ∃ leadership,
    getLeadership (runForLeadership n s topic) topic = some leadership ∧ n ∈ leadership.candidates
  getLeadership_run : ∀ n s topic topic', topic' ≠ topic →
    getLeadership (runForLeadership n s topic) topic' = getLeadership s topic'

inductive NullPointerException where
  | mk

variable {K N σ : Type*}

def intValue (x : BitVec 64) : BitVec 32 := x.setWidth 32

def partitionOf (hash : BitVec 64) : ℤ :=
  ((intValue hash).abs.srem (BitVec.ofNat 32 NUM_PARTITIONS)).toInt

def getLeader (getLeadership : String → Option (Leadership N)) (hasher : K → BitVec 64) (id : K) :
    Except NullPointerException (Option N) :=
  match getLeadership (getPartitionPath (partitionOf (hasher id))) with
  | none => .error .mk
  | some leadership => .ok leadership.leaderNodeId

def partitionPaths : List String := (List.range NUM_PARTITIONS).map fun i : ℕ => getPartitionPath i

variable [DecidableEq N]

def isMine (getLeadership : String → Option (Leadership N)) (localNodeId : N)
    (hasher : K → BitVec 64) (id : K) : Except NullPointerException Bool :=
  match getLeader getLeadership hasher id with
  | .error e => .error e
  | .ok leader => .ok (some localNodeId = leader)

section Rebalance

variable (service : LeadershipService σ N) (localNodeId : N)

def runIfNotCandidate (s : σ) (topic : String) : Option σ :=
  (service.getLeadership s topic).map fun leadership =>
    if localNodeId ∈ leadership.candidates then s else service.runForLeadership localNodeId s topic

/-- The node becomes a candidate for all partitions; a topic that is not there throws. -/
def contend (s : σ) : Option σ := partitionPaths.foldlM (runIfNotCandidate service localNodeId) s

def myPartitions (s : σ) : List String :=
  partitionPaths.filter fun topic =>
    (service.getLeadership s topic).any fun leadership => leadership.leaderNodeId = some localNodeId

def myShare (activeNodes : ℕ) : ℕ :=
  if activeNodes = 0 then 2 ^ 31 - 1 else (NUM_PARTITIONS + activeNodes - 1) / activeNodes

def getCandidates (s : σ) (topic : String) : List N :=
  ((service.getLeadership s topic).map Leadership.candidates).getD []

def relinquish (activeNodes : ℕ) (s : σ × List String) (topic : String) : σ × List String :=
  if (getCandidates service s.1 topic).length = activeNodes then
    (service.withdraw localNodeId s.1 topic, s.2 ++ [topic])
  else s

def rebalance (activeNodes : ℕ) (s : σ) : Option (σ × List String) :=
  (contend service localNodeId s).map fun s =>
    let mine := myPartitions service localNodeId s
    (mine.take (mine.length - myShare activeNodes)).foldl (relinquish service localNodeId activeNodes)
      (s, [])

def IsCandidate (s : σ) (topic : String) : Prop :=
  ∃ leadership, service.getLeadership s topic = some leadership ∧ localNodeId ∈ leadership.candidates

variable {service localNodeId} {s s' : σ}

theorem runIfNotCandidate_cases {topic : String}
    (h : runIfNotCandidate service localNodeId s topic = some s') :
    IsCandidate service localNodeId s' topic ∧
      ∀ topic' ≠ topic, service.getLeadership s' topic' = service.getLeadership s topic' := by
  obtain ⟨leadership, hleadership, rfl⟩ := Option.map_eq_some_iff.mp h
  split_ifs with hcandidate
  · exact ⟨⟨leadership, hleadership, hcandidate⟩, fun _ _ => rfl⟩
  · exact ⟨service.isCandidate_run localNodeId s topic,
      service.getLeadership_run localNodeId s topic⟩

theorem contend_candidate (h : contend service localNodeId s = some s') :
    (∀ topic ∈ partitionPaths, IsCandidate service localNodeId s' topic) ∧
      ∀ topic ∉ partitionPaths, service.getLeadership s' topic = service.getLeadership s topic := by
  have hloop : ∀ (topics : List String) (s : σ),
      topics.foldlM (runIfNotCandidate service localNodeId) s = some s' →
      (∀ topic ∈ topics, IsCandidate service localNodeId s' topic) ∧
        ∀ topic ∉ topics, service.getLeadership s' topic = service.getLeadership s topic := by
    intro topics
    induction topics with
    | nil =>
      intro s h
      obtain rfl := Option.some.inj h
      exact ⟨fun _ h => absurd h List.not_mem_nil, fun _ _ => rfl⟩
    | cons topic topics ih =>
      intro s h
      rw [List.foldlM_cons] at h
      obtain ⟨t, hstep, hrest⟩ := Option.bind_eq_some_iff.mp h
      obtain ⟨hcandidate, hother⟩ := runIfNotCandidate_cases hstep
      obtain ⟨hin, hout⟩ := ih t hrest
      refine ⟨fun topic' hmem => ?_, fun topic' hnot => ?_⟩
      · by_cases htopics : topic' ∈ topics
        · exact hin topic' htopics
        · obtain rfl := (List.mem_cons.mp hmem).resolve_right htopics
          obtain ⟨leadership, hleadership, hmember⟩ := hcandidate
          exact ⟨leadership, (hout topic' htopics).trans hleadership, hmember⟩
      · rw [List.mem_cons, not_or] at hnot
        exact (hout topic' hnot.2).trans (hother topic' hnot.1)
  exact hloop partitionPaths s h

variable (service localNodeId) in
omit [DecidableEq N] in
theorem relinquished (activeNodes : ℕ) (topics again : List String) (s : σ) :
    ∃ more, more.Sublist topics ∧
      (topics.foldl (relinquish service localNodeId activeNodes) (s, again)).2 = again ++ more := by
  induction topics generalizing s again with
  | nil => exact ⟨[], List.Sublist.refl _, (List.append_nil _).symm⟩
  | cons topic topics ih =>
    rw [List.foldl_cons, relinquish]
    split_ifs
    · obtain ⟨more, hsub, hmore⟩ := ih (again ++ [topic]) (service.withdraw localNodeId s topic)
      exact ⟨topic :: more, hsub.cons_cons topic, by rw [hmore, List.append_assoc]; rfl⟩
    · obtain ⟨more, hsub, hmore⟩ := ih again s
      exact ⟨more, hsub.cons topic, hmore⟩

def tables : LeadershipService (String → Leadership ℕ) ℕ where
  getLeadership s topic := some (s topic)
  runForLeadership n s topic :=
    Function.update s topic { s topic with candidates := n :: (s topic).candidates }
  withdraw n s topic :=
    Function.update s topic { s topic with candidates := (s topic).candidates.erase n }
  isCandidate_run n s topic := by simp
  getLeadership_run n s topic topic' h := by simp [h]

end Rebalance

section Partitions

omit [DecidableEq N]

theorem nodup_partitionPaths : partitionPaths.Nodup := by decide

theorem getPartitionPath_inj {i j : ℕ} (hi : i < NUM_PARTITIONS) (hj : j < NUM_PARTITIONS)
    (h : getPartitionPath i = getPartitionPath j) : i = j :=
  List.inj_on_of_nodup_map nodup_partitionPaths (List.mem_range.mpr hi) (List.mem_range.mpr hj) h

theorem mem_partitionPaths {i : ℕ} (hi : i < NUM_PARTITIONS) : getPartitionPath i ∈ partitionPaths :=
  List.mem_map_of_mem (List.mem_range.mpr hi)

theorem partitionOf_eq {hash : BitVec 64} (h : intValue hash ≠ BitVec.intMin 32) :
    partitionOf hash = ((intValue hash).toInt.natAbs % NUM_PARTITIONS : ℕ) := by
  rw [partitionOf, BitVec.toInt_srem, BitVec.toInt_abs_eq_natAbs_of_ne_intMin h]
  rfl

theorem notMem_partitionPaths {hash : BitVec 64} (h : intValue hash = BitVec.intMin 32) :
    getPartitionPath (partitionOf hash) ∉ partitionPaths := by
  rw [partitionOf, h]
  decide

end Partitions

/-- A key has one of the partitions, and one node when all partitions have a leader, as long as the low
half of the hash is not the least int, which is its own absolute value. -/
theorem hasPartition_iff (hasher : K → BitVec 64) (id : K) : ((∃! i : ℕ, i < NUM_PARTITIONS ∧
        getPartitionPath (partitionOf (hasher id)) = getPartitionPath i) ∧
      ∀ getLeadership : String → Option (Leadership N),
        (∀ topic ∈ partitionPaths, ∃ leadership leader, getLeadership topic = some leadership ∧
          leadership.leaderNodeId = some leader) →
        ∃! node, isMine getLeadership node hasher id = .ok true) ↔
    intValue (hasher id) ≠ BitVec.intMin 32 := by
  constructor
  · rintro ⟨⟨i, ⟨hi, hpath⟩, _⟩, _⟩ hmin
    exact notMem_partitionPaths hmin (hpath ▸ mem_partitionPaths hi)
  · intro h
    have hlt := Nat.mod_lt (intValue (hasher id)).toInt.natAbs (show 0 < NUM_PARTITIONS by decide)
    refine ⟨⟨_, ⟨hlt, congrArg getPartitionPath (partitionOf_eq h)⟩, ?_⟩, fun getLeadership hled => ?_⟩
    · rintro i ⟨hi, hpath⟩
      rw [partitionOf_eq h] at hpath
      exact getPartitionPath_inj hi hlt hpath.symm
    · obtain ⟨leadership, leader, hleadership, hleader⟩ := hled _ (mem_partitionPaths hlt)
      have hmine : ∀ node, isMine getLeadership node hasher id = .ok (some node = some leader) := by
        intro node
        rw [isMine, getLeader, partitionOf_eq h, hleadership, ← hleader]
      refine ⟨leader, (hmine leader).trans (by simp), fun node hnode => ?_⟩
      have heq := Except.ok.inj ((hmine node).symm.trans hnode)
      exact Option.some.inj (of_decide_eq_true heq)

/-- The topic of this hash is none of those that a node runs for. -/
theorem hasPartition_intMin : ¬∃ i : ℕ, i < NUM_PARTITIONS ∧
      getPartitionPath (partitionOf 0x80000000) = getPartitionPath i := by
  rintro ⟨i, hi, hpath⟩
  exact notMem_partitionPaths (by decide) (hpath ▸ mem_partitionPaths hi)

end WorkPartition

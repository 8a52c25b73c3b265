import Onos.IntentStore

/-! Pending requests: what the write of a processed request leaves of them, and the recompilation
that passes over the intents that have some. -/
namespace IntentPending

open ECMapReplica ECMapWrites FallibleRun GossipIntentStore IntentBatch Intents

variable {C K V N P : Type*} [DecidableEq C] [DecidableEq K] [LinearOrder V] [DecidableEq N]
  [LinearOrder P]

section Model

def submit (intent : Intent C K) : IntentData C K V N :=
  ⟨intent, .INSTALL_REQ, .INSTALL_REQ, none, 0, none, 0, []⟩

def assign (data : IntentData C K V N) (timestamp : V) (node : N) : IntentData C K V N :=
  { data with
    version := some timestamp
    origin := some node
    internalStateVersion := data.internalStateVersion + 1 }

def recomputed (assigned : IntentData C K V N) :
    Option (IntentData C K V N) → Except Failure (IntentData C K V N)
  | none => .ok assigned
  | some existingValue => (isOlderThan existingValue.version assigned.version).map fun older =>
    if older then assigned else existingValue

def addPending (s : Store C K V N P) (data : IntentData C K V N) (m : Moment V N P) (localNode : N) :
    Except Failure (Store C K V N P) :=
  match data.version with
  | none => .ok { s with
      pendingMap := (s.pendingMap.put data.key (assign data m.wallClockTimestamp localNode)
        (some m.pendingTimestamp) m.now m.pendingPeers).getD s.pendingMap }
  | some version =>
    (recomputed (assign data version localNode) (s.getPendingData data.key)).map fun computed =>
      { s with
        pendingMap := (s.pendingMap.compute data.key (fun _ => some computed)
          (some m.pendingTimestamp) m.now m.pendingPeers).getD s.pendingMap }

/-- One key of the loop of `buildAndSubmitBatches` that attempts recompilation. -/
def recompile (isMaster : K → Bool) (m : Moment V N P) (localNode : N) (s : Store C K V N P)
    (key : K) : Except Failure (Store C K V N P) :=
  if !isMaster key then .ok s
  else match s.getIntentData key with
    | none => .ok s
    | some data =>
      if (s.getPendingData key).isSome then .ok s
      else addPending s (submit data.intent) m localNode

end Model

section Processed

variable {op : Operation C K V N}

def Concerns (key : K) (version : Option V) : IntentProcessPhase C K V N → Prop
  | .InstallRequest data _ | .Compiling data _ | .WithdrawRequest data _
  | .final (.Installing data _) | .final (.Withdrawing data) | .final (.Withdrawn data)
  | .final (.Failed data) => data.key = key ∧ data.version = version
  | .final (.PurgeRequest _ _) => False
  | .final .Skipped => True

omit [DecidableEq K] [LinearOrder V] [DecidableEq N] in
theorem transferErrorCount_key (data : IntentData C K V N) (stored : Option (IntentData C K V N)) :
    (transferErrorCount data stored).key = data.key ∧
      (transferErrorCount data stored).version = data.version := by
  cases stored with
  | none => exact ⟨rfl, rfl⟩
  | some storedData =>
    rw [transferErrorCount]
    split_ifs <;> exact ⟨rfl, rfl⟩

variable {key : K} {version : Option V}

section

omit [DecidableEq K] [LinearOrder V] [DecidableEq N]

theorem execute_concerns {processor : IntentProcessor C K V N}
    {phase next : IntentProcessPhase C K V N} (h : phase.execute processor = .ok (some next))
    (hphase : Concerns key version phase) : Concerns key version next := by
  cases phase with
  | InstallRequest data stored =>
    cases h
    obtain ⟨hkey, hversion⟩ := transferErrorCount_key data stored
    exact ⟨hkey.trans hphase.1, hversion.trans hphase.2⟩
  | Compiling data stored =>
    simp only [IntentProcessPhase.execute] at h
    split at h
    · cases h
      exact hphase
    · split at h <;> cases h <;> exact hphase
    · cases h
  | WithdrawRequest data stored =>
    obtain ⟨hkey, hversion⟩ := transferErrorCount_key data stored
    have hdata := And.intro (hkey.trans hphase.1) (hversion.trans hphase.2)
    simp only [IntentProcessPhase.execute] at h
    split at h
    · split at h <;> cases h <;> exact hdata
    · cases h
      exact hdata
  | final phase =>
    simp only [IntentProcessPhase.execute] at h
    cases hpre : phase.preExecute processor <;> rw [hpre] at h <;> cases h

theorem process_concerns {processor : IntentProcessor C K V N}
    {phase : IntentProcessPhase C K V N} {last : FinalIntentProcessPhase C K V N}
    (h : phase.process processor = .ok last) (hphase : Concerns key version phase) :
    Concerns key version (.final last) := by
  fun_induction IntentProcessPhase.process processor phase with
  | case1 phase next hnext ih => exact ih h (execute_concerns hnext hphase)
  | case2 phase hnone =>
    cases phase with
    | final phase =>
      cases h
      exact hphase
    | _ => cases h
  | case3 phase e herror => cases h

end

variable {w : IntentData C K V N}

omit [DecidableEq C] [DecidableEq K] [LinearOrder V] [DecidableEq N] in
theorem data_of_concerns {last : FinalIntentProcessPhase C K V N}
    (h : Concerns key version (.final last)) (hw : last.data = some w) :
    w.key = key ∧ w.version = version := by
  cases last with
  | PurgeRequest data stored => exact h.elim
  | Skipped => cases hw
  | _ =>
    cases hw
    exact h

/-- A record of the store is written in place of the request: the one that a purge is refused for, or
the one that a failure is recorded in. -/
def AnsweredBy (op : Operation C K V N) (stored : IntentData C K V N) : Prop :=
  op.Throws ∧ op.currentMapAtFailure op.data.key = some stored ∨
    ¬ op.Throws ∧ op.data.request = .PURGE_REQ ∧ op.currentMap op.data.key = some stored ∧
      FinalIntentProcessPhase.shouldAcceptPurge (some stored) = false

omit [DecidableEq K] [DecidableEq N] in
theorem answeredBy_unique {stored stored' : IntentData C K V N} (h : AnsweredBy op stored)
    (h' : AnsweredBy op stored') : stored = stored' := by
  rcases h with ⟨hthrows, h⟩ | ⟨hthrows, -, h, -⟩
  · rcases h' with ⟨-, h'⟩ | ⟨hno, -⟩
    · exact Option.some.inj (h.symm.trans h')
    · exact absurd hthrows hno
  · rcases h' with ⟨hyes, -⟩ | ⟨-, -, h', -⟩
    · exact absurd hyes hthrows
    · exact Option.some.inj (h.symm.trans h')

/-- What is written has the key and the version of the request, or of the record in its place. -/
def WrittenFor (op : Operation C K V N) (w : IntentData C K V N) : Prop :=
  (∀ stored, ¬ AnsweredBy op stored) ∧ w.key = op.data.key ∧ w.version = op.data.version ∨
    ∃ stored, AnsweredBy op stored ∧ w.key = stored.key ∧ w.version = stored.version

omit [DecidableEq K] [DecidableEq N]

theorem writtenFor_of_purge (hthrows : ¬ op.Throws) (hpurge : op.data.request = .PURGE_REQ)

    (hw : FinalIntentProcessPhase.data (.PurgeRequest op.data (op.currentMap op.data.key)) = some w) :
    WrittenFor op w := by
  by_cases haccept :
    FinalIntentProcessPhase.shouldAcceptPurge (op.currentMap op.data.key) = true
  · rw [FinalIntentProcessPhase.data, if_pos haccept] at hw
    cases hw
    refine .inl ⟨fun stored hanswered => ?_, rfl, rfl⟩
    rcases hanswered with ⟨hyes, -⟩ | ⟨-, -, hstored, hno⟩
    · exact hthrows hyes
    · rw [← hstored, haccept] at hno
      cases hno
  · rw [FinalIntentProcessPhase.data, if_neg haccept] at hw
    rw [Bool.not_eq_true, hw] at haccept
    exact .inr ⟨w, .inr ⟨hthrows, hpurge, hw, haccept⟩, rfl, rfl⟩

theorem writtenFor_of_processed (hw : op.processed = .ok (some w)) : WrittenFor op w := by
  have hthrows : ¬ op.Throws := by
    rintro ⟨e, he⟩
    rw [hw] at he
    cases he
  have hskips : ¬ op.Skips := by
    rw [← op.processed_eq_none_iff, hw]
    intro h
    cases h
  obtain ⟨last, hlast, hdata⟩ := map_eq_ok.mp hw
  obtain ⟨phase, hphase, hprocess⟩ := bind_eq_ok.mp hlast
  have hinitial := Operation.createInitialPhase_of_not_skips hskips hphase
  by_cases hpurge : op.data.request = .PURGE_REQ
  · rw [hinitial, newInitialPhase, hpurge, IntentProcessPhase.process_final] at hprocess
    cases hprocess
    exact writtenFor_of_purge hthrows hpurge hdata
  · have hconcerns : Concerns op.data.key op.data.version phase := by
      rw [hinitial, newInitialPhase]
      split
      · exact ⟨rfl, rfl⟩
      · exact ⟨rfl, rfl⟩
      · contradiction
      · exact ⟨rfl, rfl⟩
    refine .inl ⟨fun stored hanswered => ?_,
      data_of_concerns (process_concerns hprocess hconcerns) hdata⟩
    rcases hanswered with ⟨hyes, -⟩ | ⟨-, hyes, -⟩
    · exact hthrows hyes
    · exact hpurge hyes

theorem writtenFor_of_future (hw : op.future = .ok (some w)) : WrittenFor op w := by
  rw [Operation.future] at hw
  cases hprocessed : op.processed with
  | ok data =>
    rw [hprocessed] at hw
    cases hw
    exact writtenFor_of_processed hprocessed
  | error e =>
    rw [hprocessed] at hw
    dsimp only at hw
    rw [Operation.exceptionally] at hw
    cases hcurrent : op.currentMapAtFailure op.data.key with
    | none =>
      rw [hcurrent] at hw
      split at hw <;> cases hw
    | some current =>
      rw [hcurrent] at hw
      right
      refine ⟨current, .inl ⟨⟨e, hprocessed⟩, hcurrent⟩, ?_⟩
      split at hw <;> cases hw <;> exact ⟨rfl, rfl⟩

end Processed

section Written

variable {s : Store C K V N P} {m : Moment V N P}

theorem held_addPending {s' : Store C K V N P} {data : IntentData C K V N} {localNode : N}
    (hs : Held s.getPendingData) (h : addPending s data m localNode = .ok s') :
    Held s'.getPendingData := by
  have hwrote : ∀ {r' : Replica K (IntentData C K V N) P N} {computed : IntentData C K V N} {t : P},
      Wrote s.pendingMap r' data.key (some ⟨some computed, t, m.now⟩) → computed.key = data.key →
        (∃ v, computed.version = some v) → Held r'.get := by
    intro r' computed t hwrote hkey hversion
    have hget : ∀ j, r'.get j = if j = data.key then some computed else s.getPendingData j := by
      intro j
      rw [Replica.get, hwrote.items, KeyedMap.lookup_put]
      split_ifs <;> rfl
    refine ⟨fun j e he => ?_, fun j e he => ?_⟩
    · rw [hget] at he
      split_ifs at he with hj
      · cases he
        rw [hkey, hj]
      · exact hs.key j e he
    · rw [hget] at he
      split_ifs at he with hj
      · cases he
        exact hversion
      · exact hs.version j e he
  rw [addPending] at h
  cases hversion : data.version with
  | none =>
    rw [hversion] at h
    cases h
    cases hput : s.pendingMap.put data.key (assign data m.wallClockTimestamp localNode)
      (some m.pendingTimestamp) m.now m.pendingPeers with
    | none => exact ⟨hs.key, hs.version⟩
    | some r' =>
      rcases put_cases hput with rfl | ⟨t, -, -, hput⟩
      · exact ⟨hs.key, hs.version⟩
      · have hheld := hwrote hput rfl ⟨_, rfl⟩
        exact ⟨hheld.key, hheld.version⟩
  | some version =>
    rw [hversion] at h
    obtain ⟨computed, hcomputed, hs'⟩ := map_eq_ok.mp h
    cases hs'
    have hdata : computed.key = data.key ∧ ∃ v, computed.version = some v := by
      cases hexisting : s.getPendingData data.key with
      | none =>
        rw [hexisting, recomputed] at hcomputed
        cases hcomputed
        exact ⟨rfl, version, rfl⟩
      | some existingValue =>
        rw [hexisting, recomputed] at hcomputed
        obtain ⟨older, -, hif⟩ := map_eq_ok.mp hcomputed
        cases older with
        | true =>
          cases hif
          exact ⟨rfl, version, rfl⟩
        | false =>
          cases hif
          exact ⟨hs.key _ existingValue hexisting, hs.version _ existingValue hexisting⟩
    cases hput : s.pendingMap.compute data.key (fun _ => some computed)
      (some m.pendingTimestamp) m.now m.pendingPeers with
    | none => exact ⟨hs.key, hs.version⟩
    | some r' =>
      rcases compute_cases hput with rfl | ⟨t, -, -, hcompute⟩
      · exact ⟨hs.key, hs.version⟩
      · have hheld := hwrote hcompute hdata.1 hdata.2
        exact ⟨hheld.key, hheld.version⟩

omit [LinearOrder P] in
theorem writeCurrent_pendingMap (hs : Held s.getIntentData) {w : IntentData C K V N} {t : V}
    (ht : w.version = some t) :
    ∃ s', s.writeCurrent w m = .ok s' ∧ s'.pendingMap = s.pendingMap := by
  have hacceptable : ∃ acceptable, isUpdateAcceptable (s.getIntentData w.key) w = .ok acceptable := by
    cases hdata : s.getIntentData w.key with
    | none => exact ⟨true, rfl⟩
    | some data =>
      obtain ⟨v, hv⟩ := hs.version w.key data hdata
      exact ⟨_, isUpdateAcceptable_some hv ht⟩
  obtain ⟨acceptable, hacceptable⟩ := hacceptable
  rw [Store.writeCurrent, hacceptable]
  refine ⟨_, rfl, ?_⟩
  dsimp only
  split_ifs
  · cases s.getIntentData w.key <;> rfl
  · rfl
  · rfl

theorem getPendingData_removePending {key : K} {existingValue : IntentData C K V N}
    (h : s.getPendingData key = some existingValue) (e : IntentData C K V N) :
    (s.removePending key existingValue m).getPendingData key = some e ↔
      e = existingValue ∧ s.pendingMap.tombstonesDisabled = false ∧
        ¬ Newer m.pendingTimestamp (s.pendingMap.items.lookup key) := by
  by_cases hremoves : s.pendingMap.tombstonesDisabled = true ∨
    Newer m.pendingTimestamp (s.pendingMap.items.lookup key)
  · have hnone : (s.removePending key existingValue m).getPendingData key = none := by
      rw [Store.getPendingData, Replica.get, Store.removePending,
        removeAndNotify_of_newer h hremoves, if_pos rfl, Replica.removalTombstone]
      split_ifs <;> rfl
    rw [hnone]
    constructor
    · intro h
      cases h
    · rintro ⟨-, henabled, hnewer⟩
      rcases hremoves with hdisabled | hyes
      · rw [henabled] at hdisabled
        cases hdisabled
      · exact absurd hyes hnewer
  · rw [not_or, Bool.not_eq_true] at hremoves
    obtain ⟨henabled, hnewer⟩ := hremoves
    have hsame : (s.removePending key existingValue m).getPendingData key = some existingValue := by
      rw [Store.getPendingData, Store.removePending,
        removeAndNotify_of_not_newer h henabled hnewer]
      exact h
    rw [hsame]
    exact ⟨fun he => ⟨(Option.some.inj he).symm, henabled, hnewer⟩, fun he => by rw [he.1]⟩

theorem write_getPendingData (hs : Held s.getIntentData) (hpending : Held s.getPendingData)
    {w : IntentData C K V N} {t : V} (ht : w.version = some t) (e : IntentData C K V N) :
    (s.write w m).getPendingData w.key = some e ↔ s.getPendingData w.key = some e ∧
      ∀ u, e.version = some u → u ≤ t → s.pendingMap.tombstonesDisabled = false ∧
        ¬ Newer m.pendingTimestamp (s.pendingMap.items.lookup w.key) := by
  obtain ⟨s', hcurrent, hmap⟩ := writeCurrent_pendingMap (m := m) hs ht
  have hget : s'.getPendingData w.key = s.getPendingData w.key := by
    rw [Store.getPendingData, Store.getPendingData, hmap]
  rw [Store.write, hcurrent]
  dsimp only
  rw [Store.writePending, hget]
  cases hexisting : s.getPendingData w.key with
  | none =>
    dsimp only [Except.toOption, Option.getD]
    rw [hget, hexisting]
    exact ⟨fun h => (by cases h), fun h => (by cases h.1)⟩
  | some existingValue =>
    obtain ⟨u, hu⟩ := hpending.version w.key existingValue hexisting
    have hnewer : isNewerThan existingValue.version w.version = .ok (decide (t < u)) := by
      rw [hu, ht]
      rfl
    dsimp only
    rw [hnewer]
    by_cases hlt : t < u
    · have hstays : ((Except.ok (decide (t < u)) : Except Failure Bool).map fun newer =>
          if newer then s' else s'.removePending w.key existingValue m) = .ok s' := by
        simp [Except.map, hlt]
      rw [hstays]
      dsimp only [Except.toOption, Option.getD]
      rw [hget, hexisting]
      refine ⟨fun he => ⟨he, fun u' hu' hle => ?_⟩, And.left⟩
      cases he
      rw [hu] at hu'
      cases hu'
      exact absurd hlt hle.not_gt
    · have hgoes : ((Except.ok (decide (t < u)) : Except Failure Bool).map fun newer =>
          if newer then s' else s'.removePending w.key existingValue m) =
            .ok (s'.removePending w.key existingValue m) := by
        simp [Except.map, hlt]
      rw [hgoes]
      dsimp only [Except.toOption, Option.getD]
      rw [getPendingData_removePending (hget.trans hexisting), hmap]
      constructor
      · rintro ⟨rfl, hfails⟩
        exact ⟨rfl, fun _ _ _ => hfails⟩
      · rintro ⟨he, hfails⟩
        cases he
        exact ⟨rfl, hfails u hu (not_lt.mp hlt)⟩

def Cleared (s : Store C K V N P) (key : K) (v : V) : Prop :=
  ∀ e, s.getPendingData key = some e → ∃ u, e.version = some u ∧ v < u

/-- The pending requests that are not newer than the processed one are not newer than a record that is
written in its place either, and the clock is ahead of them. -/
def Clears (op : Operation C K V N) (s : Store C K V N P) (m : Moment V N P) (v : V) : Prop :=
  ∀ e u, s.getPendingData op.data.key = some e → e.version = some u → u ≤ v →
    (∀ stored t, AnsweredBy op stored → stored.version = some t → u ≤ t) ∧
      (s.pendingMap.tombstonesDisabled = true ∨
        Newer m.pendingTimestamp (s.pendingMap.items.lookup op.data.key))

/-- A processed request leaves the pending map if and only if no older record is written in its place,
and the removal is later than the request by the clock. -/
theorem cleared_iff (op : Operation C K V N) (s : Store C K V N P) (m : Moment V N P)
    {w : IntentData C K V N} {v : V} (hcurrent : Held op.currentMap)
    (hfailure : Held op.currentMapAtFailure) (hs : Held s.getIntentData)
    (hpending : Held s.getPendingData) (hv : op.data.version = some v)
    (hw : op.future = .ok (some w)) :
    Cleared (s.write w m) op.data.key v ↔ Clears op s m v := by
  have hheld : ∀ stored, AnsweredBy op stored →
      stored.key = op.data.key ∧ ∃ t, stored.version = some t := by
    rintro stored (⟨-, h⟩ | ⟨-, -, h, -⟩)
    · exact ⟨hfailure.key _ stored h, hfailure.version _ stored h⟩
    · exact ⟨hcurrent.key _ stored h, hcurrent.version _ stored h⟩
  have hwritten : w.key = op.data.key ∧ ∃ t, w.version = some t ∧ ∀ u, u ≤ v →
      (u ≤ t ↔ ∀ stored t', AnsweredBy op stored → stored.version = some t' → u ≤ t') := by
    rcases writtenFor_of_future hw with ⟨hnone, hkey, hversion⟩ | ⟨stored, hstored, hkey, hversion⟩
    · refine ⟨hkey, v, hversion.trans hv, fun u hu => ⟨fun _ stored t' hstored => ?_, fun _ => hu⟩⟩
      exact absurd hstored (hnone stored)
    · obtain ⟨hkey', t, ht⟩ := hheld stored hstored
      refine ⟨hkey.trans hkey', t, hversion.trans ht, fun u hu => ⟨fun hle stored' t' h' ht' => ?_,
        fun hall => hall stored t hstored ht⟩⟩
      rw [answeredBy_unique h' hstored, ht] at ht'
      cases ht'
      exact hle
  obtain ⟨hkey, t, ht, hanswered⟩ := hwritten
  rw [Cleared, ← hkey]
  simp only [write_getPendingData hs hpending ht]
  rw [Clears, ← hkey]
  constructor
  · intro hcleared e u he hu hle
    by_contra hno
    have hstays : u ≤ t → s.pendingMap.tombstonesDisabled = false ∧
        ¬ Newer m.pendingTimestamp (s.pendingMap.items.lookup w.key) := by
      intro hut
      rw [← Bool.not_eq_true, ← not_or]
      exact fun hremoves => hno ⟨(hanswered u hle).mp hut, hremoves⟩
    obtain ⟨u', hu', hlt⟩ := hcleared e ⟨he, fun u' hu' hle' => by
      rw [hu] at hu'
      cases hu'
      exact hstays hle'⟩
    rw [hu] at hu'
    cases hu'
    exact absurd hlt hle.not_gt
  · intro hclears e ⟨he, hstays⟩
    obtain ⟨u, hu⟩ := hpending.version w.key e he
    refine ⟨u, hu, not_le.mp fun hle => ?_⟩
    obtain ⟨holder, hremoves⟩ := hclears e u he hu hle
    obtain ⟨henabled, hnewer⟩ := hstays u hu ((hanswered u hle).mpr holder)
    rcases hremoves with hdisabled | hyes
    · rw [henabled] at hdisabled
      cases hdisabled
    · exact hnewer hyes

theorem recompile_of_cleared {key : K} {v : V} (hcleared : Cleared s key v)
    (hnewer : ∀ e u, s.getPendingData key = some e → e.version = some u → u ≤ v)
    {data : IntentData C K V N} (hdata : s.getIntentData key = some data) {isMaster : K → Bool}
    (hmaster : isMaster key = true) (localNode : N) :
    recompile isMaster m localNode s key = addPending s (submit data.intent) m localNode := by
  have hnone : s.getPendingData key = none := by
    cases he : s.getPendingData key with
    | none => rfl
    | some e =>
      obtain ⟨u, hu, hlt⟩ := hcleared e he
      exact absurd hlt (hnewer e u he hu).not_gt
  simp [recompile, hmaster, hdata, hnone]

end Written

section Requests

def installed : IntentData ℕ ℕ ℕ ℕ :=
  ⟨⟨0, 0, 0⟩, .INSTALL_REQ, .INSTALLED, some 1, 3, some 0, 0, []⟩

def purge : IntentData ℕ ℕ ℕ ℕ := ⟨⟨0, 0, 0⟩, .PURGE_REQ, .PURGE_REQ, some 2, 1, some 0, 0, []⟩

def mapOf (data : IntentData ℕ ℕ ℕ ℕ) (key : ℕ) : Option (IntentData ℕ ℕ ℕ ℕ) :=
  if key = data.key then some data else none

def working : IntentProcessor ℕ ℕ ℕ ℕ := ⟨fun _ _ => .ok [], fun _ _ => .ok ()⟩

def purgeOf (stored : IntentData ℕ ℕ ℕ ℕ) : Operation ℕ ℕ ℕ ℕ :=
  ⟨purge, working, mapOf purge, mapOf stored, mapOf stored⟩

/-- The store with the record and the pending request of a purge, at its first moments. -/
def purgedStore (stored : IntentData ℕ ℕ ℕ ℕ) : Store ℕ ℕ ℕ ℕ ℕ :=
  { currentMap := (((ECMapGossip.emptyReplica 0).put 0 stored
      (some (currentTimestampProvider stored 0 0)) 0 []).getD (ECMapGossip.emptyReplica 0))
    pendingMap := (((ECMapGossip.emptyReplica 0).put 0 purge (some 0) 0 []).getD
      (ECMapGossip.emptyReplica 0))
    sequenceNumber := 1 }

theorem purgeOf_processed (stored : IntentData ℕ ℕ ℕ ℕ) :
    (purgeOf stored).future = .ok (FinalIntentProcessPhase.PurgeRequest purge (mapOf stored 0)).data := by
  have hinitial : (purgeOf stored).createInitialPhase =
      .ok (.final (.PurgeRequest purge (mapOf stored 0))) := rfl
  rw [Operation.future, Operation.processed, hinitial, Except.bind, IntentProcessPhase.process_final]
  rfl

theorem held_mapOf {data : IntentData ℕ ℕ ℕ ℕ} {v : ℕ} (hv : data.version = some v) :
    Held (mapOf data) := by
  refine ⟨fun key e he => ?_, fun key e he => ?_⟩
  · rw [mapOf] at he
    split_ifs at he with hkey
    cases he
    exact hkey.symm
  · rw [mapOf] at he
    split_ifs at he
    cases he
    exact ⟨v, hv⟩

theorem get_put_empty {T : Type*} [LinearOrder T] (data : IntentData ℕ ℕ ℕ ℕ) (timestamp : T)
    (key : ℕ) :
    (((ECMapGossip.emptyReplica 0 : Replica ℕ (IntentData ℕ ℕ ℕ ℕ) T ℕ).put data.key data
      (some timestamp) 0 []).getD (ECMapGossip.emptyReplica 0)).get key = mapOf data key := by
  have hnewer : Newer timestamp
      ((ECMapGossip.emptyReplica 0 : Replica ℕ (IntentData ℕ ℕ ℕ ℕ) T ℕ).items.lookup data.key) := by
    intro e he
    cases he
  rw [Replica.get, put_of_newer hnewer, mapOf]
  split_ifs <;> rfl

/-- The purge of a withdrawn intent clears its request, by the next reading of the clock. -/
theorem cleared_iff_withdrawn :
    Cleared ((purgedStore { installed with state := .WITHDRAWN }).write purge ⟨0, 1, 0, [], []⟩)
        0 2 ↔
      Clears (purgeOf { installed with state := .WITHDRAWN })
        (purgedStore { installed with state := .WITHDRAWN }) ⟨0, 1, 0, [], []⟩ 2 := by
  have hcurrent : Held (purgedStore { installed with state := .WITHDRAWN }).getIntentData := by
    rw [show (purgedStore { installed with state := .WITHDRAWN }).getIntentData =
      mapOf { installed with state := .WITHDRAWN } from
        funext (get_put_empty { installed with state := .WITHDRAWN } _)]
    exact held_mapOf rfl
  have hpending : Held (purgedStore { installed with state := .WITHDRAWN }).getPendingData := by
    rw [show (purgedStore { installed with state := .WITHDRAWN }).getPendingData = mapOf purge from
      funext (get_put_empty purge _)]
    exact held_mapOf rfl
  exact cleared_iff (purgeOf { installed with state := .WITHDRAWN }) _ _ (held_mapOf rfl)
    (held_mapOf rfl) hcurrent hpending rfl (purgeOf_processed { installed with state := .WITHDRAWN })

/-- The purge of an installed intent is refused, and stays pending. -/
theorem refused_purge_stays : ∃ w, (purgeOf installed).future = .ok (some w) ∧
    ¬ Cleared ((purgedStore installed).write w ⟨0, 1, 0, [], []⟩) (purgeOf installed).data.key 2 := by
  refine ⟨installed, purgeOf_processed installed, fun h => ?_⟩
  obtain ⟨u, hu, hlt⟩ := h purge rfl
  cases hu
  exact absurd hlt (lt_irrefl 2)

end Requests

end IntentPending

import Mathlib.Algebra.GroupWithZero.Nat
import Mathlib.Algebra.Ring.Int.Defs
import Onos.FlowStoreBucket
import Onos.Lib.CoordinateFold
import Onos.Lib.KeyedMap

/-! The statistics of a device and the rules of the store. Each report is compared with the stored
entries, with this node the master throughout; the switch is told to remove what it should not have
and to apply what it lacks. -/
namespace FlowRulePush

open CoordinateFold FlowStoreBucket KeyedMap

inductive FlowEntryState where
  | PENDING_ADD
  | ADDED
  | PENDING_REMOVE
  | REMOVED
  | FAILED
  deriving DecidableEq

inductive FlowLiveType where
  | IMMEDIATE
  | SHORT
  | MID
  | LONG
  | UNKNOWN
  deriving DecidableEq

structure FlowData (T : Type*) where
  treatment : T
  state : FlowEntryState
  life : ℕ
  liveType : FlowLiveType
  packets : ℕ
  bytes : ℕ
  lastSeen : ℕ
  isPermanent : Bool
  timeout : ℕ
  hardTimeout : ℕ
  deriving DecidableEq

/-- `M` is what two equal rules share: device, priority, selector and table. -/
abbrev Entry (M T : Type*) := FlowEntry M (FlowData T)

inductive FlowRuleEventType where
  | RULE_ADDED
  | RULE_UPDATED
  | RULE_REMOVED
  | RULE_ADD_REQUESTED
  deriving DecidableEq

structure FlowRuleEvent (M T : Type*) where
  type : FlowRuleEventType
  subject : Entry M T

inductive Command (M T : Type*) where
  | applyFlowRule (rule : Entry M T)
  | removeFlowRule (rule : Entry M T)

variable {M T : Type*}

structure FlowTable (M T : Type*) where
  entries : List (Entry M T)
  distinct : (entries.map fun e => (e.id, e.rule)).Nodup

variable [DecidableEq M] [DecidableEq T]

def exactMatch (e rule : Entry M T) : Bool :=
  e.rule = rule.rule && e.id = rule.id && e.data.treatment = rule.data.treatment

omit [DecidableEq T] in
def isEntryOf (rule e : Entry M T) : Bool := e.id = rule.id && e.rule = rule.rule

def toSets : List (Entry M T) → List (Entry M T)
  | [] => []
  | e :: es => e :: (toSets es).filter fun e' => !(bucket e'.id = bucket e.id && e'.rule = e.rule)

def updated (rule : Entry M T) (currentTime : ℕ) (stored : Entry M T) : Entry M T :=
  { stored with data := { stored.data with
    bytes := rule.data.bytes
    life := rule.data.life
    liveType := rule.data.liveType
    packets := rule.data.packets
    lastSeen := currentTime
    state := if stored.data.state = .PENDING_ADD then .ADDED else stored.data.state } }

def updateEntries (rule : Entry M T) (currentTime : ℕ) (es : List (Entry M T)) : List (Entry M T) :=
  es.map fun e => if isEntryOf rule e then updated rule currentTime e else e

def removeEntries (rule : Entry M T) (es : List (Entry M T)) : List (Entry M T) :=
  es.filter fun e => !(isEntryOf rule e && e.created ≤ rule.created)

section Entries

omit [DecidableEq T]

variable {rule e : Entry M T} {es : List (Entry M T)}

theorem isEntryOf_iff : isEntryOf rule e = true ↔ e.id = rule.id ∧ e.rule = rule.rule := by
  simp [isEntryOf]

theorem mem_removeEntries : e ∈ removeEntries rule es ↔
    e ∈ es ∧ ¬ (isEntryOf rule e = true ∧ e.created ≤ rule.created) := by
  rw [removeEntries, List.mem_filter, Bool.not_eq_true', ← Bool.not_eq_true, Bool.and_eq_true,
    decide_eq_true_iff]

theorem keys_updateEntries (rule : Entry M T) (currentTime : ℕ) (es : List (Entry M T)) :
    (updateEntries rule currentTime es).map (fun e => (e.id, e.rule)) =
      es.map fun e => (e.id, e.rule) := by
  rw [updateEntries, List.map_map]
  apply List.map_congr_left
  intro e _
  rw [Function.comp_apply]
  split_ifs <;> rfl

end Entries

namespace FlowTable

omit [DecidableEq T] in
def getFlowEntry (t : FlowTable M T) (rule : Entry M T) : Option (Entry M T) :=
  t.entries.find? (isEntryOf rule)

omit [DecidableEq T] in
def getFlowEntries (t : FlowTable M T) : List (Entry M T) := toSets t.entries

def add (t : FlowTable M T) (rule : Entry M T) (h : t.getFlowEntry rule = none) :
    FlowTable M T where
  entries := t.entries ++ [rule]
  distinct := by
    rw [List.map_append]
    refine List.nodup_append.mpr ⟨t.distinct, List.nodup_singleton _, ?_⟩
    rintro key hkey _ hsame rfl
    obtain ⟨e, he, hkey⟩ := List.mem_map.mp hkey
    have hother := List.find?_eq_none.mp h e he
    rw [List.mem_singleton.mp hsame, Prod.mk.injEq] at hkey
    simp [isEntryOf, hkey] at hother

def addOrUpdateFlowRule (t : FlowTable M T) (rule : Entry M T) (currentTime : ℕ) :
    FlowTable M T × Option (FlowRuleEvent M T) :=
  match h : t.getFlowEntry rule with
  | some stored =>
    (⟨updateEntries rule currentTime t.entries, by rw [keys_updateEntries]; exact t.distinct⟩,
      some ⟨if stored.data.state = .PENDING_ADD then .RULE_ADDED else .RULE_UPDATED, rule⟩)
  | none => (t.add rule h, none)

def removeFlowRule (t : FlowTable M T) (rule : Entry M T) :
    FlowTable M T × Option (FlowRuleEvent M T) :=
  (⟨removeEntries rule t.entries, t.distinct.sublist (List.filter_sublist.map _)⟩,
    (t.entries.find? fun e => isEntryOf rule e && e.created ≤ rule.created).map (⟨.RULE_REMOVED, ·⟩))

def pendingFlowRule (t : FlowTable M T) (rule : Entry M T) : Option (FlowRuleEvent M T) :=
  (t.getFlowEntry rule).bind fun stored =>
    if stored.data.state = .PENDING_ADD then some ⟨.RULE_UPDATED, rule⟩ else none

section Buckets

def buckets (t : FlowTable M T) : FlowEntries M (FlowData T) :=
  fun id rule => t.entries.find? fun e => e.id = id && e.rule = rule

variable {t : FlowTable M T} {id : FlowId} {rule e : Entry M T} {m : M}

omit [DecidableEq T]

theorem buckets_eq_some : t.buckets id m = some e ↔ e ∈ t.entries ∧ e.id = id ∧ e.rule = m := by
  constructor
  · intro h
    have hkey := List.find?_some h
    simp only [Bool.and_eq_true, decide_eq_true_iff] at hkey
    exact ⟨List.mem_of_find?_eq_some h, hkey⟩
  · rintro ⟨he, rfl, rfl⟩
    cases hfound : t.buckets e.id e.rule with
    | none =>
      have hother := List.find?_eq_none.mp hfound e he
      simp at hother
    | some e' =>
      have hkey := List.find?_some hfound
      simp only [Bool.and_eq_true, decide_eq_true_iff] at hkey
      have hmem := List.mem_of_find?_eq_some hfound
      rw [List.inj_on_of_nodup_map t.distinct hmem he (Prod.ext hkey.1 hkey.2)]

theorem set_apply (entries : FlowEntries M (FlowData T)) (stored : Option (Entry M T)) :
    entries.set rule.id rule.rule stored id m =
      if id = rule.id ∧ m = rule.rule then stored else entries id m := by
  rw [FlowEntries.set, Function.update_apply]
  by_cases hid : id = rule.id
  · rw [if_pos hid, Function.update_apply, hid]
    simp only [true_and]
  · rw [if_neg hid, if_neg fun hboth => hid hboth.1]

theorem buckets_removeFlowRule (t : FlowTable M T) (rule : Entry M T) :
    (t.removeFlowRule rule).1.buckets = (FlowOp.remove rule).applyTo t.buckets := by
  have hkept : ∀ id m e, (t.removeFlowRule rule).1.buckets id m = some e ↔
      t.buckets id m = some e ∧ ¬ ((e.id = rule.id ∧ e.rule = rule.rule) ∧ e.created ≤ rule.created) := by
    intro id m e
    rw [buckets_eq_some, buckets_eq_some, removeFlowRule, mem_removeEntries, isEntryOf_iff]
    exact and_right_comm
  funext id m
  apply Option.ext
  intro e
  rw [hkept, FlowOp.applyTo, FlowOp.effect]
  cases hstored : t.buckets rule.id rule.rule with
  | none =>
    simp only [Option.bind_none, Option.getD_none, and_iff_left_iff_imp]
    rintro he ⟨⟨hid, hm⟩, _⟩
    rw [buckets_eq_some] at he
    rw [← hid, ← hm, he.2.1, he.2.2, buckets_eq_some.mpr he] at hstored
    cases hstored
  | some stored =>
    have hkey := buckets_eq_some.mp hstored
    rw [Option.bind_some]
    by_cases hnewer : rule.created < stored.created
    · rw [if_pos hnewer, Option.getD_none, and_iff_left_iff_imp]
      rintro he ⟨⟨hid, hm⟩, hle⟩
      obtain ⟨hmem, rfl, rfl⟩ := buckets_eq_some.mp he
      rw [hid, hm, hstored] at he
      obtain rfl := Option.some.inj he
      omega
    · rw [if_neg hnewer, Option.getD_some, set_apply]
      split_ifs with hboth
      · rw [hboth.1, hboth.2, hstored]
        refine iff_of_false ?_ (by simp)
        rintro ⟨hsame, hkept⟩
        obtain rfl := Option.some.inj hsame
        exact hkept ⟨hkey.2, by omega⟩
      · rw [and_iff_left_iff_imp]
        rintro he ⟨hsame, _⟩
        obtain ⟨_, rfl, rfl⟩ := buckets_eq_some.mp he
        exact hboth hsame

theorem entries_update {stored : Entry M T} (h : t.getFlowEntry rule = some stored)
    (currentTime : ℕ) :
    (t.addOrUpdateFlowRule rule currentTime).1.entries = updateEntries rule currentTime t.entries := by
  rw [addOrUpdateFlowRule]
  split
  · rfl
  · rename_i hnone
    rw [h] at hnone
    cases hnone

theorem entries_add (h : t.getFlowEntry rule = none) (currentTime : ℕ) :
    (t.addOrUpdateFlowRule rule currentTime).1.entries = t.entries ++ [rule] := by
  rw [addOrUpdateFlowRule]
  split
  · rename_i hsome
    rw [h] at hsome
    cases hsome
  · rfl

theorem buckets_update {stored : Entry M T} (h : t.getFlowEntry rule = some stored)
    (currentTime : ℕ) : (t.addOrUpdateFlowRule rule currentTime).1.buckets =
      (FlowOp.updateWith rule.id rule.rule fun stored =>
        some (updated rule currentTime stored).data).applyTo t.buckets := by
  have hstored : t.buckets rule.id rule.rule = some stored := h
  have hkey := isEntryOf_iff.mp (List.find?_some h)
  funext id m
  have hkeys : ((fun e : Entry M T => decide (e.id = id) && decide (e.rule = m)) ∘ fun e =>
      if isEntryOf rule e then updated rule currentTime e else e) =
      fun e : Entry M T => decide (e.id = id) && decide (e.rule = m) := by
    funext e
    rw [Function.comp_apply]
    split_ifs <;> rfl
  have hmap : (t.addOrUpdateFlowRule rule currentTime).1.buckets id m =
      (t.buckets id m).map fun e => if isEntryOf rule e then updated rule currentTime e else e := by
    rw [buckets, entries_update h, updateEntries.eq_def, List.find?_map, hkeys, buckets]
  rw [hmap, FlowOp.applyTo, FlowOp.effect, hstored, Option.bind_some, Option.map_some,
    Option.getD_some, set_apply]
  split_ifs with hboth
  · rw [hboth.1, hboth.2, hstored, Option.map_some, if_pos (isEntryOf_iff.mpr hkey)]
    rfl
  · cases hother : t.buckets id m with
    | none => rfl
    | some e =>
      obtain ⟨_, rfl, rfl⟩ := buckets_eq_some.mp hother
      rw [Option.map_some, if_neg fun hentry => hboth (isEntryOf_iff.mp hentry)]

theorem buckets_add (h : t.getFlowEntry rule = none) (currentTime : ℕ) :
    (t.addOrUpdateFlowRule rule currentTime).1.buckets =
      (FlowOp.add rule).applyTo t.buckets := by
  have hstored : t.buckets rule.id rule.rule = none := h
  funext id m
  have hor : (t.addOrUpdateFlowRule rule currentTime).1.buckets id m =
      (t.buckets id m).or ([rule].find? fun e => decide (e.id = id) && decide (e.rule = m)) := by
    rw [buckets, entries_add h, List.find?_append, buckets]
  rw [hor, FlowOp.applyTo, FlowOp.effect, Option.getD_some, set_apply]
  split_ifs with hboth
  · rw [hboth.1, hboth.2, hstored]
    simp
  · have hother : ([rule].find? fun e => decide (e.id = id) && decide (e.rule = m)) = none := by
      apply List.find?_eq_none.mpr
      intro e he
      rw [List.mem_singleton.mp he, Bool.and_eq_true, decide_eq_true_iff, decide_eq_true_iff]
      exact fun hsame => hboth ⟨hsame.1.symm, hsame.2.symm⟩
    rw [hother, Option.or_none]

inductive Call (M T : Type*) where
  | addOrUpdateFlowRule (rule : Entry M T) (currentTime : ℕ)
  | removeFlowRule (rule : Entry M T)

def call (t : FlowTable M T) : Call M T → FlowTable M T
  | .addOrUpdateFlowRule rule currentTime => (t.addOrUpdateFlowRule rule currentTime).1
  | .removeFlowRule rule => (t.removeFlowRule rule).1

/-- The calls, as operations on the entries of the buckets. -/
def callBuckets (m : FlowEntries M (FlowData T)) : Call M T → FlowEntries M (FlowData T)
  | .addOrUpdateFlowRule rule currentTime =>
    if (m rule.id rule.rule).isSome then
      (FlowOp.updateWith rule.id rule.rule fun stored =>
        some (updated rule currentTime stored).data).applyTo m
    else (FlowOp.add rule).applyTo m
  | .removeFlowRule rule => (FlowOp.remove rule).applyTo m

/-- After any calls the table has the entries that the operations on buckets give. -/
theorem buckets_calls (t : FlowTable M T) (calls : List (Call M T)) :
    (calls.foldl call t).buckets = calls.foldl callBuckets t.buckets := by
  induction calls generalizing t with
  | nil => rfl
  | cons c calls ih =>
    rw [List.foldl_cons, List.foldl_cons, ih]
    congr 1
    cases c with
    | removeFlowRule rule => exact buckets_removeFlowRule t rule
    | addOrUpdateFlowRule rule currentTime =>
      rw [callBuckets]
      cases hstored : t.getFlowEntry rule with
      | none =>
        rw [show t.buckets rule.id rule.rule = none from hstored]
        exact buckets_add hstored currentTime
      | some stored =>
        rw [show t.buckets rule.id rule.rule = some stored from hstored]
        exact buckets_update hstored currentTime

end Buckets

end FlowTable

/-- The provider service while it works on a report: `storedRules` holds for each rule the entry that
is its key and the entry that is its value. -/
structure Push (M T : Type*) where
  store : FlowTable M T
  storedRules : Table M (Entry M T × Entry M T)
  firstSeen : M → Option ℕ
  lastSeen : M → Option ℕ
  commands : List (Command M T)
  removeFlowRules : List (Entry M T)
  posted : List (FlowRuleEvent M T)

namespace Push

def putStoredRule (m : Table M (Entry M T × Entry M T)) (f : Entry M T) :
    Table M (Entry M T × Entry M T) :=
  KeyedMap.store m f.rule (((m.lookup f.rule).map Prod.fst).getD f, f)

def storedRulesOf (t : FlowTable M T) : Table M (Entry M T × Entry M T) :=
  t.getFlowEntries.foldl putStoredRule ∅

def post (s : Push M T) (event : Option (FlowRuleEvent M T)) : Push M T :=
  { s with posted := s.posted ++ event.toList }

def applyFlowRule (s : Push M T) (rule : Entry M T) : Push M T :=
  { s with commands := s.commands ++ [.applyFlowRule rule] }

def flowMissing (s : Push M T) (flowRule : Entry M T) (isFlowOnlyInStore : Bool) : Push M T :=
  match flowRule.data.state with
  | .PENDING_REMOVE | .REMOVED =>
    { s with store := (s.store.removeFlowRule flowRule).1 }.post (s.store.removeFlowRule flowRule).2
  | .ADDED | .PENDING_ADD =>
    (s.applyFlowRule flowRule).post <|
      match s.store.pendingFlowRule flowRule with
      | some event => some event
      | none => if isFlowOnlyInStore then some ⟨.RULE_ADD_REQUESTED, flowRule⟩ else none
  | .FAILED => s

def extraneousFlow (s : Push M T) (flowRule : Entry M T) : Push M T :=
  { s with commands := s.commands ++ [.removeFlowRule flowRule] }

def checkRuleLiveness (s : Push M T) (swRule : Entry M T) (storedRule : Option (Entry M T))
    (currentTime : ℕ) : Push M T × Bool :=
  match storedRule with
  | none => (s, false)
  | some storedRule =>
    if storedRule.data.isPermanent then (s, true) else
    let first := (s.firstSeen storedRule.rule).getD currentTime
    let s := if storedRule.data.hardTimeout = 0 then s else
      { s with firstSeen := Function.update s.firstSeen storedRule.rule (some first) }
    if storedRule.data.hardTimeout ≠ 0 ∧ storedRule.data.hardTimeout * 1000 < currentTime - first then
      (s, false)
    else if storedRule.data.packets ≠ swRule.data.packets ∨ storedRule.data.bytes ≠ swRule.data.bytes then
      ({ s with lastSeen := Function.update s.lastSeen storedRule.rule (some currentTime) }, true)
    else
      let last := (s.lastSeen storedRule.rule).getD storedRule.data.lastSeen
      ({ s with lastSeen := Function.update s.lastSeen storedRule.rule (some last) },
        currentTime - last ≤ storedRule.data.timeout * 1000)

def flowAdded (s : Push M T) (flowEntry : Entry M T) (currentTime : ℕ) : Push M T :=
  let (s, live) := s.checkRuleLiveness flowEntry (s.store.getFlowEntry flowEntry) currentTime
  if live then
    let (store, event) := s.store.addOrUpdateFlowRule flowEntry currentTime
    { s with store := store }.post event
  else { s with removeFlowRules := s.removeFlowRules ++ [flowEntry] }

structure Config where
  allowExtraneousRules : Bool
  importExtraneousRules : Bool

def pushRule (config : Config) (now : Entry M T → ℕ) (s : Push M T) (rule : Entry M T) : Push M T :=
  let storedRule := (s.storedRules.lookup rule.rule).map Prod.snd
  let s := { s with storedRules := s.storedRules.erase rule.rule }
  match storedRule with
  | some storedRule =>
    if exactMatch storedRule rule then s.flowAdded rule (now rule)
    else (s.extraneousFlow rule).flowMissing storedRule false
  | none =>
    if !config.allowExtraneousRules then s.extraneousFlow rule
    else if config.importExtraneousRules then
      { s with store := (s.store.addOrUpdateFlowRule rule (now rule)).1 }
    else s

def pushFlowMetricsInternal (config : Config) (now : Entry M T → ℕ) (store : FlowTable M T)
    (firstSeen lastSeen : M → Option ℕ) (flowEntries : List (Entry M T)) (useMissingFlow : Bool) :
    Push M T :=
  let s := flowEntries.foldl (pushRule config now)
    ⟨store, storedRulesOf store, firstSeen, lastSeen, [], [], []⟩
  if useMissingFlow then
    (s.storedRules.entries.map fun pair => pair.2.1).foldl (fun s rule => s.flowMissing rule true) s
  else s

def pushFlowMetrics (config : Config) (now : Entry M T → ℕ) (store : FlowTable M T)
    (firstSeen lastSeen : M → Option ℕ) (flowEntries : List (Entry M T)) : Push M T :=
  pushFlowMetricsInternal config now store firstSeen lastSeen flowEntries true

def pushFlowMetricsWithoutFlowMissing (config : Config) (now : Entry M T → ℕ)
    (store : FlowTable M T) (firstSeen lastSeen : M → Option ℕ) (flowEntries : List (Entry M T)) :
    Push M T :=
  pushFlowMetricsInternal config now store firstSeen lastSeen flowEntries false

end Push

abbrev SwitchTable (M T : Type*) := M → Option (FlowId × T)

def reported : List (Entry M T) → SwitchTable M T
  | [] => fun _ => none
  | rule :: rules => Function.update (reported rules) rule.rule (some (rule.id, rule.data.treatment))

def execute (table : SwitchTable M T) : Command M T → SwitchTable M T
  | .applyFlowRule rule => Function.update table rule.rule (some (rule.id, rule.data.treatment))
  | .removeFlowRule rule => Function.update table rule.rule none

def executeAll (table : SwitchTable M T) (commands : List (Command M T)) : SwitchTable M T :=
  commands.foldl execute table

end FlowRulePush

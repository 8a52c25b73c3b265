import Onos.Lib.InFlight
import Onos.Lib.InputMachine
import Mathlib.Data.Finset.Basic

/-! A request for flow operations, stage by stage. A stage is sent as one batch for each device; the
next one is taken up when none of its devices is pending. The batches of a stage wait in an executor,
are handed to the store, and complete in any order. -/
namespace FlowOperationsProcessor

open InFlight InputMachine

structure FlowRule (D R : Type*) where
  deviceId : D
  content : R
  deriving DecidableEq

inductive OperationType where
  | ADD
  | MODIFY
  | REMOVE
  deriving DecidableEq

structure FlowRuleOperation (D R : Type*) where
  object : ℕ
  rule : FlowRule D R
  type : OperationType
  deriving DecidableEq

structure FlowRuleOperations (D R : Type*) where
  stages : List (List (FlowRuleOperation D R))
  nonempty : ∀ stage ∈ stages, stage ≠ []

structure Builder (D R : Type*) where
  listBuilder : List (List (FlowRuleOperation D R))
  currentStage : List (FlowRuleOperation D R)
  nonempty : ∀ stage ∈ listBuilder, stage ≠ []

structure FlowRuleBatchEntry (D R : Type*) where
  operator : OperationType
  target : FlowRule D R
  deriving DecidableEq

structure FlowRuleBatchOperation (D R : Type*) where
  ops : List (FlowRuleBatchEntry D R)
  deviceId : D
  id : ℕ
  deriving DecidableEq

structure CompletedBatchOperation (D R : Type*) where
  isSuccess : Bool
  failedItems : List (FlowRule D R)
  deriving DecidableEq

inductive Callback (D R : Type*) where
  | onSuccess (ops : FlowRuleOperations D R)
  | onError (ops : FlowRuleOperations D R)

/-- The processor, how often it waits to be run, its batches on their way, and what has become of
all batches, each with the number of its stage. -/
structure Request (D R : Type*) where
  fops : FlowRuleOperations D R
  stages : List (List (FlowRuleOperation D R))
  pendingDevices : Finset D
  hasFailed : Bool
  scheduled : ℕ
  pendingFlowOperations : List ℕ
  deviceInstallers : List (FlowRuleBatchOperation D R)
  store : List (FlowRuleBatchOperation D R)
  issued : List (ℕ × FlowRuleBatchOperation D R)
  completed : List (FlowRuleBatchOperation D R × CompletedBatchOperation D R)
  callbacks : List (Callback D R)

variable {D R : Type*}

namespace Builder

def new : Builder D R := ⟨[], [], fun _ h => absurd h List.not_mem_nil⟩

def operation [DecidableEq D] [DecidableEq R] (b : Builder D R) (op : FlowRuleOperation D R) :
    Builder D R :=
  if op ∈ b.currentStage then b else { b with currentStage := b.currentStage ++ [op] }

variable [DecidableEq D] [DecidableEq R]

def add (b : Builder D R) (object : ℕ) (rule : FlowRule D R) : Builder D R :=
  b.operation ⟨object, rule, .ADD⟩

def modify (b : Builder D R) (object : ℕ) (rule : FlowRule D R) : Builder D R :=
  b.operation ⟨object, rule, .MODIFY⟩

def remove (b : Builder D R) (object : ℕ) (rule : FlowRule D R) : Builder D R :=
  b.operation ⟨object, rule, .REMOVE⟩

omit [DecidableEq D] [DecidableEq R] in
def closeStage (b : Builder D R) : FlowRuleOperations D R :=
  if h : b.currentStage = [] then ⟨b.listBuilder, b.nonempty⟩
  else ⟨b.listBuilder ++ [b.currentStage], by
    intro stage hstage
    rcases List.mem_append.mp hstage with hstage | hstage
    · exact b.nonempty stage hstage
    · rwa [List.mem_singleton.mp hstage]⟩

def newStage (b : Builder D R) : Builder D R := ⟨b.closeStage.stages, [], b.closeStage.nonempty⟩

def build (b : Builder D R) : FlowRuleOperations D R := b.closeStage

def operations (b : Builder D R) : List (FlowRuleOperation D R) :=
  b.listBuilder.flatten ++ b.currentStage

section

omit [DecidableEq D] [DecidableEq R]

theorem flatten_build (b : Builder D R) : b.build.stages.flatten = b.operations := by
  unfold build closeStage operations
  split_ifs with hstage
  · rw [hstage, List.append_nil]
  · rw [List.flatten_append, List.flatten_singleton]

theorem operations_newStage (b : Builder D R) : b.newStage.operations = b.operations :=
  (List.append_nil _).trans b.flatten_build

end

theorem foldl_operation (type : OperationType) (rules : List (FlowRule D R)) {object : ℕ}
    {b : Builder D R} (hb : ∀ op ∈ b.currentStage, op.object < object) :
    (rules.zipIdx object).foldl (fun b rule => b.operation ⟨rule.2, rule.1, type⟩) b =
      { b with currentStage := b.currentStage ++
        (rules.zipIdx object).map fun rule => ⟨rule.2, rule.1, type⟩ } := by
  induction rules generalizing object b with
  | nil => simp
  | cons rule rules ih =>
    have hadd : b.operation ⟨object, rule, type⟩ =
        { b with currentStage := b.currentStage ++ [⟨object, rule, type⟩] } := by
      apply if_neg
      intro hmem
      have hlt := hb _ hmem
      exact absurd hlt (lt_irrefl object)
    have hnext : ∀ op ∈ (b.operation ⟨object, rule, type⟩).currentStage, op.object < object + 1 := by
      rw [hadd]
      intro op hop
      rcases List.mem_append.mp hop with hop | hop
      · have hlt := hb op hop
        omega
      · rw [List.mem_singleton.mp hop]
        exact Nat.lt_succ_self object
    rw [List.zipIdx_cons, List.foldl_cons, ih hnext, hadd, List.map_cons, List.append_assoc]
    rfl

def instructions (b : Builder D R) : List (OperationType × FlowRule D R) :=
  b.operations.map fun op => (op.type, op.rule)

theorem instructions_foldl (type : OperationType) (rules : List (FlowRule D R)) {object : ℕ}
    {b : Builder D R} (hb : ∀ op ∈ b.currentStage, op.object < object) :
    ((rules.zipIdx object).foldl (fun b rule => b.operation ⟨rule.2, rule.1, type⟩) b).instructions =
      b.instructions ++ rules.map (type, ·) := by
  have hmap : ((rules.zipIdx object).map fun rule : FlowRule D R × ℕ =>
      (⟨rule.2, rule.1, type⟩ : FlowRuleOperation D R)).map (fun op => (op.type, op.rule)) =
      rules.map (type, ·) := by
    conv_rhs => rw [← List.zipIdx_map_fst object rules]
    rw [List.map_map, List.map_map]
    rfl
  rw [foldl_operation type rules hb, instructions, operations, ← List.append_assoc, List.map_append,
    hmap]
  rfl

end Builder

namespace Request

def entry (op : FlowRuleOperation D R) : FlowRuleBatchEntry D R := ⟨op.type, op.rule⟩

variable [DecidableEq D]

/-- The devices of a stage; the order in which they are gone through does not matter. -/
def devices (ops : List (FlowRuleOperation D R)) : List D :=
  (ops.map fun op => op.rule.deviceId).dedup

def batchEntries (ops : List (FlowRuleOperation D R)) (deviceId : D) :
    List (FlowRuleBatchEntry D R) :=
  (ops.filter fun op => op.rule.deviceId = deviceId).map entry

def perDeviceBatches (ops : List (FlowRuleOperation D R)) (ids : List ℕ) :
    List (FlowRuleBatchOperation D R) :=
  (devices ops).zipWith (fun deviceId id => ⟨batchEntries ops deviceId, deviceId, id⟩) ids

def process (s : Request D R) (number : ℕ) (ops : List (FlowRuleOperation D R)) (ids : List ℕ) :
    Request D R :=
  { s with
    pendingDevices := s.pendingDevices ∪ (devices ops).toFinset
    pendingFlowOperations := s.pendingFlowOperations ++ (perDeviceBatches ops ids).map (·.id)
    deviceInstallers := s.deviceInstallers ++ perDeviceBatches ops ids
    issued := s.issued ++ (perDeviceBatches ops ids).map (number, ·) }

def started (s : Request D R) : ℕ := s.fops.stages.length - s.stages.length

def run (s : Request D R) (ids : List ℕ) : Request D R :=
  match s.stages with
  | [] => if s.hasFailed then s else { s with callbacks := s.callbacks ++ [.onSuccess s.fops] }
  | ops :: stages => process { s with stages := stages } s.started ops ids

def satisfy (s : Request D R) (devId : D) : Request D R :=
  let s := { s with pendingDevices := s.pendingDevices.erase devId }
  if s.pendingDevices = ∅ then { s with scheduled := s.scheduled + 1 } else s

variable [DecidableEq R]

def failedOps (failures : List (FlowRule D R)) : FlowRuleOperations D R :=
  (failures.zipIdx.foldl (fun b (rule, object) => b.add object rule) Builder.new).build

def fail (s : Request D R) (devId : D) (failures : List (FlowRule D R)) : Request D R :=
  let s := { s with hasFailed := true, pendingDevices := s.pendingDevices.erase devId }
  let s := if s.pendingDevices = ∅ then { s with scheduled := s.scheduled + 1 } else s
  { s with callbacks := s.callbacks ++ [.onError (failedOps failures)] }

/-- `BATCH_OPERATION_COMPLETED`; a batch that is not known any more is only logged. -/
def notify (s : Request D R) (b : FlowRuleBatchOperation D R)
    (result : CompletedBatchOperation D R) : Request D R :=
  if b.id ∈ s.pendingFlowOperations then
    let s := { s with pendingFlowOperations := s.pendingFlowOperations.erase b.id }
    if result.isSuccess then s.satisfy b.deviceId else s.fail b.deviceId result.failedItems
  else s

/-- What may happen next; positions are those of the batch in the executor or the store. -/
inductive Input (D R : Type*) where
  | run (ids : List ℕ)
  | storeBatch (k : ℕ)
  | complete (k : ℕ) (result : CompletedBatchOperation D R)

def Accepts (s : Request D R) : Input D R → Prop
  | .run ids => 0 < s.scheduled ∧ ids.Nodup ∧ (∀ i ∈ s.issued, i.2.id ∉ ids) ∧
    ids.length = (devices (s.stages.headD [])).length
  | .storeBatch k => k < s.deviceInstallers.length
  | .complete k _ => k < s.store.length

def handle (s : Request D R) : Input D R → Request D R
  | .run ids => { s with scheduled := s.scheduled - 1 }.run ids
  | .storeBatch k => match takeAt k s.deviceInstallers with
    | none => s
    | some (b, rest) => { s with deviceInstallers := rest, store := s.store ++ [b] }
  | .complete k result => match takeAt k s.store with
    | none => s
    | some (b, rest) =>
      { s with store := rest, completed := s.completed ++ [(b, result)] }.notify b result

def applied (fops : FlowRuleOperations D R) : Request D R where
  fops := fops
  stages := fops.stages
  pendingDevices := ∅
  hasFailed := false
  scheduled := 1
  pendingFlowOperations := []
  deviceInstallers := []
  store := []
  issued := []
  completed := []
  callbacks := []

def requestMachine (fops : FlowRuleOperations D R) : Machine (Request D R) (Input D R) where
  initial := applied fops
  enabled := Accepts
  next := handle

instance (s : Request D R) : (x : Input D R) → Decidable (s.Accepts x)
  | .run ids => inferInstanceAs (Decidable (0 < s.scheduled ∧ ids.Nodup ∧
    (∀ i ∈ s.issued, i.2.id ∉ ids) ∧ ids.length = (devices (s.stages.headD [])).length))
  | .storeBatch k => inferInstanceAs (Decidable (k < s.deviceInstallers.length))
  | .complete k _ => inferInstanceAs (Decidable (k < s.store.length))

instance (fops : FlowRuleOperations D R) (s : Request D R) (x : Input D R) :
    Decidable ((requestMachine fops).enabled s x) := inferInstanceAs (Decidable (s.Accepts x))

omit [DecidableEq D] [DecidableEq R] in
def inFlight (s : Request D R) : List (FlowRuleBatchOperation D R) := s.deviceInstallers ++ s.store

def Finished (s : Request D R) : Prop := s.scheduled = 0 ∧ s.inFlight = []

instance (s : Request D R) : Decidable s.Finished := inferInstanceAs (Decidable (_ ∧ _))

def issuedFor (s : Request D R) (number : ℕ) : List (FlowRuleBatchOperation D R) :=
  (s.issued.filter fun i => i.1 = number).map Prod.snd

def errors (s : Request D R) : List (Callback D R) :=
  (s.completed.filter fun c => !c.2.isSuccess).map fun c => .onError (failedOps c.2.failedItems)

section Stages

omit [DecidableEq R]

variable {ops : List (FlowRuleOperation D R)} {ids : List ℕ}

section

variable (h : ids.length = (devices ops).length)

include h

theorem map_perDeviceBatches : (perDeviceBatches ops ids).map (fun b => (b.deviceId, b.ops)) =
      (devices ops).map fun d => (d, batchEntries ops d) := by
  rw [perDeviceBatches]
  rw [List.map_zipWith]
  generalize devices ops = ds at h
  induction ds generalizing ids with
  | nil => rfl
  | cons d ds ih =>
    cases ids with
    | nil => cases h
    | cons id ids =>
      rw [List.zipWith_cons_cons, List.map_cons, ih (by simpa using h)]

theorem map_deviceId_perDeviceBatches :
    (perDeviceBatches ops ids).map (·.deviceId) = devices ops := by
  have hfst := congrArg (List.map Prod.fst) (map_perDeviceBatches h)
  rw [List.map_map, List.map_map] at hfst
  exact hfst.trans (List.map_id _)

theorem map_id_perDeviceBatches : (perDeviceBatches ops ids).map (·.id) = ids := by
  rw [perDeviceBatches]
  rw [List.map_zipWith]
  generalize devices ops = ds at h
  induction ds generalizing ids with
  | nil => exact (List.length_eq_zero_iff.mp h).symm
  | cons d ds ih =>
    cases ids with
    | nil => cases h
    | cons id ids => rw [List.zipWith_cons_cons, ih (by simpa using h)]

end

theorem flatMap_filter_perm {α : Type*} (f : α → D) {ds : List D} (hds : ds.Nodup) {l : List α}
    (hl : ∀ x ∈ l, f x ∈ ds) : (ds.flatMap fun d => l.filter fun x => f x = d).Perm l := by
  induction ds generalizing l with
  | nil =>
    rw [List.eq_nil_iff_forall_not_mem.mpr fun x hx => List.not_mem_nil (hl x hx)]
    exact .refl _
  | cons d ds ih =>
    obtain ⟨hd, hds⟩ := List.nodup_cons.mp hds
    have hrest := ih hds (l := l.filter fun x => !decide (f x = d)) fun x hx => by
      obtain ⟨hx, hne⟩ := List.mem_filter.mp hx
      exact (List.mem_cons.mp (hl x hx)).resolve_left (by simpa using hne)
    have hsame : (ds.flatMap fun d' => (l.filter fun x => !decide (f x = d)).filter fun x => f x = d') =
        ds.flatMap fun d' => l.filter fun x => f x = d' := by
      apply List.flatMap_congr
      intro d' hd'
      rw [List.filter_filter]
      apply List.filter_congr
      intro x _
      have hne : d' ≠ d := fun h => hd (h ▸ hd')
      by_cases hx : f x = d' <;> simp [hx, hne]
    rw [hsame] at hrest
    rw [List.flatMap_cons]
    exact (hrest.append_left _).trans (List.filter_append_perm (fun x => decide (f x = d)) l)

theorem entries_perm (ops : List (FlowRuleOperation D R)) :
    ((devices ops).flatMap fun d => (batchEntries ops d).map (d, ·)).Perm
      (ops.map fun op => (op.rule.deviceId, entry op)) := by
  have hparts : ((devices ops).flatMap fun d => ops.filter fun op => op.rule.deviceId = d).Perm ops :=
    flatMap_filter_perm _ (List.nodup_dedup _)
      fun op hop => List.mem_dedup.mpr (List.mem_map_of_mem hop)
  have hparts := hparts.map fun op => (op.rule.deviceId, entry op)
  rw [List.map_flatMap] at hparts
  refine (List.Perm.of_eq ?_).trans hparts
  apply List.flatMap_congr
  intro d _
  rw [batchEntries]
  rw [List.map_map]
  apply List.map_congr_left
  intro op hop
  have hd := of_decide_eq_true (List.mem_filter.mp hop).2
  rw [Function.comp_apply, hd]

end Stages

end Request

end FlowOperationsProcessor

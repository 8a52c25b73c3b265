import Onos.FlowOperationsProcessor

/-! Non-disruptive reallocation: how the stages from the rules of old intents to those of new ones are
prepared, and what they do to the tables when every operation succeeds. -/
namespace FlowRuleReallocation

open FlowOperationsProcessor

inductive TableId where
  | INDEX (id : ℕ)
  | PIPELINE_INDEPENDENT (id : String)
  deriving DecidableEq

def DEFAULT_TABLE : TableId := .INDEX 0

structure Content (S T : Type*) where
  selector : S
  priority : ℕ
  tableId : TableId
  id : ℕ
  appId : ℕ
  treatment : T
  deriving DecidableEq

abbrev Rule (D S T : Type*) := FlowRule D (Content S T)

abbrev Key (D S : Type*) := D × S × ℕ × TableId

variable {D S T : Type*}

def key (rule : Rule D S T) : Key D S :=
  (rule.deviceId, rule.content.selector, rule.content.priority, rule.content.tableId)

structure Link (D : Type*) where
  src : D
  dst : D
  isEdge : Bool

inductive NetworkResource (D : Type*) where
  | link (link : Link D)
  | other

structure FlowRuleIntent (D S T : Type*) where
  flowRules : List (Rule D S T)
  resources : List (NetworkResource D)

/-- What is taken from outside: the id of a rule that the builder computes from the application and
the key, and the sorting of links, whose comparator is not an order. -/
structure Environment (D S : Type*) where
  computeFlowId : ℕ → Key D S → ℕ
  sort : List (Link D) → List (Link D)

/-- The lists that the rules of one old and one new intent are sorted into. -/
structure Work (D S T : Type*) where
  uninstallFlowRules : List (Rule D S T)
  installFlowRules : List (Rule D S T)
  secondStageRules : List (Rule D S T)
  thirdStageRules : List (Rule D S T)

structure Stages (D S T : Type*) where
  first : Builder D (Content S T)
  second : List (Rule D S T)
  third : Builder D (Content S T)
  final : Builder D (Content S T)

def nonEdgeLinks (resources : List (NetworkResource D)) : List (Link D) :=
  resources.filterMap fun
    | .link link => if link.isEdge then none else some link
    | .other => none

/-- The last link adds its destination when the resources have no others than links. -/
def createIngressToEgressDeviceList (env : Environment D S) (resources : List (NetworkResource D)) :
    List D :=
  (env.sort (nonEdgeLinks resources)).zipIdx.flatMap fun (link, i) =>
    if i = resources.length - 1 then [link.src, link.dst] else [link.src]

variable [DecidableEq D] [DecidableEq S] [DecidableEq T]

def exactMatch (rule other : Rule D S T) : Bool :=
  key rule = key other && rule.content.id = other.content.id &&
    rule.content.treatment = other.content.treatment

omit [DecidableEq T] in
def remove (rule : Rule D S T) (rules : List (Rule D S T)) : List (Rule D S T) :=
  rules.eraseP fun other => key other = key rule

omit [DecidableEq D] [DecidableEq S] [DecidableEq T] in
def lowered (env : Environment D S) (rule : Rule D S T) : Rule D S T :=
  let lower : Key D S :=
    (rule.deviceId, rule.content.selector, rule.content.priority - 1, DEFAULT_TABLE)
  ⟨rule.deviceId, ⟨rule.content.selector, rule.content.priority - 1, DEFAULT_TABLE,
    env.computeFlowId rule.content.appId lower, rule.content.appId, rule.content.treatment⟩⟩

omit [DecidableEq D] [DecidableEq S] [DecidableEq T] in
def flowRuleWithLowerPriority (env : Environment D S) (rule : Rule D S T) : Option (Rule D S T) :=
  if rule.content.priority = 0 then none else some (lowered env rule)

def compareRules (env : Environment D S) (w : Work D S T) (pair : Rule D S T × Rule D S T) :
    Option (Work D S T) :=
  let (flowRuleToUninstall, flowRuleToInstall) := pair
  if exactMatch flowRuleToInstall flowRuleToUninstall then
    some { w with
      uninstallFlowRules := remove flowRuleToInstall w.uninstallFlowRules
      installFlowRules := remove flowRuleToInstall w.installFlowRules }
  else if flowRuleToInstall.deviceId = flowRuleToUninstall.deviceId then
    (flowRuleWithLowerPriority env flowRuleToInstall).map fun lower =>
      { installFlowRules := remove flowRuleToInstall w.installFlowRules ++ [lower]
        secondStageRules := w.secondStageRules ++ [flowRuleToUninstall]
        uninstallFlowRules := remove flowRuleToUninstall w.uninstallFlowRules ++ [lower]
        thirdStageRules := w.thirdStageRules ++ [flowRuleToInstall] }
  else some w

omit [DecidableEq D] [DecidableEq S] [DecidableEq T] in
def pairs {α β : Type*} (outer : List α) (inner : List β) : List (α × β) :=
  outer.flatMap fun a => inner.map (a, ·)

def compareIntents (env : Environment D S) (installIntent uninstallIntent : FlowRuleIntent D S T) :
    Option (Work D S T) :=
  (pairs uninstallIntent.flowRules installIntent.flowRules).foldlM (compareRules env)
    ⟨uninstallIntent.flowRules, installIntent.flowRules, [], []⟩

def deviceIndex (deviceIds : List D) (deviceId : D) : ℕ :=
  if deviceId ∈ deviceIds then deviceIds.idxOf deviceId + 1 else 0

def addAll (b : Builder D (Content S T)) (rules : List (Rule D S T)) : Builder D (Content S T) :=
  rules.zipIdx.foldl (fun b (rule, object) => b.add object rule) b

def removeAll (b : Builder D (Content S T)) (rules : List (Rule D S T)) : Builder D (Content S T) :=
  rules.zipIdx.foldl (fun b (rule, object) => b.remove object rule) b

def prepareIntents (env : Environment D S) (s : Stages D S T)
    (intents : FlowRuleIntent D S T × FlowRuleIntent D S T) : Option (Stages D S T) :=
  let (installIntent, uninstallIntent) := intents
  let orderedDeviceList := createIngressToEgressDeviceList env installIntent.resources
  (compareIntents env installIntent uninstallIntent).map fun w =>
    { first := addAll s.first.newStage w.installFlowRules
      second := s.second ++ w.secondStageRules.mergeSort fun rule other =>
        deviceIndex orderedDeviceList rule.deviceId ≤ deviceIndex orderedDeviceList other.deviceId
      third := addAll s.third.newStage w.thirdStageRules
      final := removeAll s.final.newStage w.uninstallFlowRules }

def prepareReallocation (env : Environment D S)
    (uninstallIntents installIntents : List (FlowRuleIntent D S T)) : Option (Stages D S T) :=
  (pairs installIntents uninstallIntents).foldlM (prepareIntents env)
    ⟨Builder.new, [], Builder.new, Builder.new⟩

/-- The tables of the network: under each key the id and the treatment of a rule. -/
abbrev Tables (D S T : Type*) := Key D S → Option (ℕ × T)

omit [DecidableEq D] [DecidableEq S] [DecidableEq T] in
def value (rule : Rule D S T) : ℕ × T := (rule.content.id, rule.content.treatment)

omit [DecidableEq T] in
def holding (rules : List (Rule D S T)) : Tables D S T :=
  fun k => (rules.find? fun rule => key rule = k).map value

omit [DecidableEq T] in
def execute (tables : Tables D S T) (op : FlowRuleOperation D (Content S T)) : Tables D S T :=
  match op.type with
  | .ADD | .MODIFY => Function.update tables (key op.rule) (some (value op.rule))
  | .REMOVE => Function.update tables (key op.rule) none

omit [DecidableEq T] in
def applyAll (tables : Tables D S T) (operations : FlowRuleOperations D (Content S T)) :
    Tables D S T :=
  operations.stages.flatten.foldl execute tables

def reallocate (tables : Tables D S T) (s : Stages D S T) : Tables D S T :=
  let first := applyAll tables s.first.build
  let second := s.second.foldl
    (fun tables flowRule => applyAll tables (Builder.new.newStage.remove 0 flowRule).build) first
  let third := applyAll second s.third.build
  applyAll third s.final.build

end FlowRuleReallocation

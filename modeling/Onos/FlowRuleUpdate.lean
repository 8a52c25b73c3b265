import Onos.FlowRuleTables
import Onos.IntentData
import Onos.Lib.TablePatch

/-! The installer of flow rule intents, when no reallocation is asked for: one request leads from the
rules of the old intents to those of the new ones. -/
namespace FlowRuleUpdate

open FlowOperationsProcessor FlowRuleReallocation
open Intents (IntentState)
open TablePatch

variable {D S T K : Type*}

inductive Constraint where
  | nonDisruptive
  | other
  deriving DecidableEq

inductive IntentType where
  | connectivity (constraints : List Constraint)
  | other

structure Intent (D K : Type*) where
  key : K
  resources : List (NetworkResource D)
  type : IntentType

structure IntentData (D K : Type*) where
  intent : Intent D K
  state : IntentState

structure IntentOperationContext (D S T K : Type*) where
  toUninstall : Option (IntentData D K)
  toInstall : Option (IntentData D K)
  intentsToUninstall : List (FlowRuleIntent D S T)
  intentsToInstall : List (FlowRuleIntent D S T)
  uninstall_none : toUninstall = none → intentsToUninstall = []
  install_none : toInstall = none → intentsToInstall = []

inductive TrackerCall (D K : Type*) where
  | addTrackedResources (key : K) (resources : List (NetworkResource D))
  | removeTrackedResources (key : K) (resources : List (NetworkResource D))

inductive Direction where
  | ADD
  | REMOVE

inductive Outcome (D S T : Type*) where
  | reallocate
  | intentInstallSuccess
  | apply (operations : FlowRuleOperations D (Content S T))

structure Changes (D S T : Type*) where
  flowRulesToUninstall : List (Rule D S T)
  flowRulesToInstall : List (Rule D S T)
  flowRuleToModify : List (Rule D S T)

def requireNonDisruptive (intent : Intent D K) : Bool :=
  match intent.type with
  | .connectivity constraints => constraints.any (· = .nonDisruptive)
  | .other => false

def trackIntentResources (intentData : IntentData D K) (intentsToApply : List (FlowRuleIntent D S T)) :
    Direction → List (TrackerCall D K)
  | .ADD => .addTrackedResources intentData.intent.key intentData.intent.resources ::
    intentsToApply.map fun installable =>
      .addTrackedResources intentData.intent.key installable.resources
  | .REMOVE => .removeTrackedResources intentData.intent.key intentData.intent.resources ::
    intentsToApply.map fun installable =>
      .removeTrackedResources intentData.intent.key installable.resources

def IntentOperationContext.isReallocation (context : IntentOperationContext D S T K) : Bool :=
  match context.toInstall, context.toUninstall with
  | some toInstall, some toUninstall =>
    requireNonDisruptive toInstall.intent && toUninstall.state = .INSTALLED
  | _, _ => false

def flowRules (intents : List (FlowRuleIntent D S T)) : List (Rule D S T) :=
  intents.flatMap FlowRuleIntent.flowRules

def forEach (operation : Builder D (Content S T) → ℕ → Rule D S T → Builder D (Content S T))
    (b : Builder D (Content S T)) (rules : List (Rule D S T)) : Builder D (Content S T) :=
  (rules.zipIdx b.currentStage.length).foldl (fun b (rule, object) => operation b object rule) b

variable [DecidableEq D] [DecidableEq S] [DecidableEq T]

omit [DecidableEq T] in
def equals (rule obj : Rule D S T) : Bool := key rule = key obj

omit [DecidableEq T] in
def without (rules others : List (Rule D S T)) : List (Rule D S T) :=
  rules.filter fun rule => !others.any (equals rule)

def compare (flowRulesToUninstall flowRulesToInstall : List (Rule D S T)) : Changes D S T :=
  let flowRuleToModify :=
    flowRulesToInstall.filter fun flowRule => flowRulesToUninstall.any (equals flowRule)
  let dontTouch :=
    flowRulesToInstall.filter fun flowRule => flowRulesToUninstall.any (exactMatch flowRule)
  { flowRulesToUninstall := without (without flowRulesToUninstall flowRuleToModify) dontTouch
    flowRulesToInstall := without (without flowRulesToInstall flowRuleToModify) dontTouch
    flowRuleToModify := without flowRuleToModify dontTouch }

def Changes.operations (c : Changes D S T) : FlowRuleOperations D (Content S T) :=
  let builder := forEach Builder.add Builder.new c.flowRulesToInstall
  let builder := forEach Builder.modify builder c.flowRuleToModify
  let builder := forEach Builder.remove builder c.flowRulesToUninstall
  builder.build

def apply (context : IntentOperationContext D S T K) : List (TrackerCall D K) × Outcome D S T :=
  if context.isReallocation then ([], .reallocate)
  else if context.toInstall.isNone && context.toUninstall.isNone then ([], .intentInstallSuccess)
  else
    let uninstallIntents := context.intentsToUninstall
    let installIntents := context.intentsToInstall
    let (untracked, flowRulesToUninstall) := match context.toUninstall with
      | some toUninstall =>
        (trackIntentResources toUninstall uninstallIntents .REMOVE, flowRules uninstallIntents)
      | none => ([], [])
    let (tracked, flowRulesToInstall) := match context.toInstall with
      | some toInstall =>
        (trackIntentResources toInstall installIntents .ADD, flowRules installIntents)
      | none => ([], [])
    let c := compare flowRulesToUninstall flowRulesToInstall
    if c.flowRulesToInstall.isEmpty && c.flowRulesToUninstall.isEmpty &&
        c.flowRuleToModify.isEmpty then
      (untracked ++ tracked, .intentInstallSuccess)
    else (untracked ++ tracked, .apply c.operations)

omit [DecidableEq D] [DecidableEq S] [DecidableEq T] in
def Outcome.submitted : Outcome D S T → List (FlowRuleOperation D (Content S T))
  | .apply operations => operations.stages.flatten
  | .reallocate | .intentInstallSuccess => []

section Compare

variable {uninstall install rules others : List (Rule D S T)} {r : Rule D S T}

omit [DecidableEq T] in
theorem mem_without : r ∈ without rules others ↔ r ∈ rules ∧ ∀ o ∈ others, key r ≠ key o := by
  simp [without, equals]

theorem mem_flowRulesToInstall : r ∈ (compare uninstall install).flowRulesToInstall ↔
    r ∈ install ∧ ∀ o ∈ uninstall, key r ≠ key o := by
  simp only [compare, mem_without, List.mem_filter, List.any_eq_true, equals, exactMatch,
    decide_eq_true_eq, Bool.and_eq_true, and_assoc]
  constructor
  · rintro ⟨hr, hmodify, _⟩
    exact ⟨hr, fun o ho hkey => hmodify r ⟨hr, o, ho, hkey⟩ rfl⟩
  · rintro ⟨hr, hnew⟩
    refine ⟨hr, ?_, ?_⟩
    · rintro o ⟨_, o', ho', hkey⟩ hro
      exact hnew o' ho' (hro.trans hkey)
    · rintro o ⟨_, o', ho', hkey, _⟩ hro
      exact hnew o' ho' (hro.trans hkey)

theorem mem_flowRulesToUninstall : r ∈ (compare uninstall install).flowRulesToUninstall ↔
    r ∈ uninstall ∧ ∀ n ∈ install, key r ≠ key n := by
  simp only [compare, mem_without, List.mem_filter, List.any_eq_true, equals, exactMatch,
    decide_eq_true_eq, Bool.and_eq_true, and_assoc]
  constructor
  · rintro ⟨hr, hmodify, _⟩
    exact ⟨hr, fun n hn hkey => hmodify n ⟨hn, r, hr, hkey.symm⟩ hkey⟩
  · rintro ⟨hr, hgone⟩
    exact ⟨hr, fun n hn => hgone n hn.1, fun n hn => hgone n hn.1⟩

theorem mem_flowRuleToModify (hinstall : (install.map key).Nodup) :
    r ∈ (compare uninstall install).flowRuleToModify ↔ r ∈ install ∧
      (∃ o ∈ uninstall, key r = key o) ∧ ∀ o ∈ uninstall, exactMatch r o = false := by
  simp only [compare, mem_without, List.mem_filter, List.any_eq_true, equals, decide_eq_true_eq,
    and_assoc]
  refine and_congr_right fun hr => and_congr_right fun _ => ⟨fun hkept o ho => ?_, ?_⟩
  · by_contra hexact
    exact hkept r ⟨hr, o, ho, Bool.eq_true_of_not_eq_false hexact⟩ rfl
  · rintro hdiffers n ⟨hn, o, ho, hexact⟩ hkey
    rw [← List.inj_on_of_nodup_map hinstall hr hn hkey, hdiffers o ho] at hexact
    exact Bool.false_ne_true hexact

end Compare

section Submitted

def Changes.instructions (c : Changes D S T) : List (OperationType × Rule D S T) :=
  c.flowRulesToInstall.map (OperationType.ADD, ·) ++ c.flowRuleToModify.map (OperationType.MODIFY, ·) ++
    c.flowRulesToUninstall.map (OperationType.REMOVE, ·)

def IsNumbered (b : Builder D (Content S T)) : Prop :=
  ∀ op ∈ b.currentStage, op.object < b.currentStage.length

theorem isNumbered_forEach {b : Builder D (Content S T)} (type : OperationType) (hb : IsNumbered b)
    (rules : List (Rule D S T)) :
    IsNumbered (forEach (fun b object rule => b.operation ⟨object, rule, type⟩) b rules) := by
  rw [forEach, Builder.foldl_operation type rules hb]
  intro op hop
  rw [List.length_append, List.length_map, List.length_zipIdx]
  rcases List.mem_append.mp hop with hop | hop
  · have hlt := hb op hop
    omega
  · obtain ⟨⟨rule, object⟩, hmem, rfl⟩ := List.mem_map.mp hop
    exact List.snd_lt_add_of_mem_zipIdx hmem

theorem instructions_forEach {b : Builder D (Content S T)} (type : OperationType) (hb : IsNumbered b)
    (rules : List (Rule D S T)) :
    (forEach (fun b object rule => b.operation ⟨object, rule, type⟩) b rules).instructions =
      b.instructions ++ rules.map (type, ·) :=
  Builder.instructions_foldl type rules hb

theorem Changes.map_operations (c : Changes D S T) :
    c.operations.stages.flatten.map (fun op => (op.type, op.rule)) = c.instructions := by
  have hnew : IsNumbered (Builder.new : Builder D (Content S T)) :=
    fun _ hop => absurd hop List.not_mem_nil
  have hadd := isNumbered_forEach .ADD hnew c.flowRulesToInstall
  have hmodify := isNumbered_forEach .MODIFY hadd c.flowRuleToModify
  rw [Changes.operations, Builder.flatten_build]
  refine (instructions_forEach .REMOVE hmodify c.flowRulesToUninstall).trans (congrArg (· ++ _) ?_)
  refine (instructions_forEach .MODIFY hadd c.flowRuleToModify).trans (congrArg (· ++ _) ?_)
  exact instructions_forEach .ADD hnew c.flowRulesToInstall

theorem map_submitted {context : IntentOperationContext D S T K} (h : context.isReallocation = false) :
    (apply context).2.submitted.map (fun op => (op.type, op.rule)) =
      (compare (flowRules context.intentsToUninstall)
        (flowRules context.intentsToInstall)).instructions := by
  have hends : ∀ (calls : List (TrackerCall D K)) (c : Changes D S T),
      (if c.flowRulesToInstall.isEmpty && c.flowRulesToUninstall.isEmpty &&
          c.flowRuleToModify.isEmpty then (calls, Outcome.intentInstallSuccess)
        else (calls, .apply c.operations)).2.submitted.map (fun op => (op.type, op.rule)) =
        c.instructions := by
    intro calls c
    split_ifs with hempty
    · simp only [Bool.and_eq_true, List.isEmpty_iff] at hempty
      obtain ⟨⟨hinstall, huninstall⟩, hmodify⟩ := hempty
      rw [Changes.instructions, hinstall, huninstall, hmodify]
      rfl
    · exact c.map_operations
  obtain ⟨toUninstall, toInstall, intentsToUninstall, intentsToInstall, huninstall, hinstall⟩ := context
  rw [apply, h]
  cases toUninstall with
  | none =>
    obtain rfl : intentsToUninstall = [] := huninstall rfl
    cases toInstall with
    | none =>
      obtain rfl : intentsToInstall = [] := hinstall rfl
      rfl
    | some toInstall => exact hends _ _
  | some toUninstall =>
    cases toInstall with
    | none =>
      obtain rfl : intentsToInstall = [] := hinstall rfl
      exact hends _ _
    | some toInstall => exact hends _ _

end Submitted

section Tables

omit [DecidableEq T] in
def effect (instruction : OperationType × Rule D S T) : Key D S × Option (ℕ × T) :=
  match instruction.1 with
  | .ADD | .MODIFY => (key instruction.2, some (value instruction.2))
  | .REMOVE => (key instruction.2, none)

omit [DecidableEq D] [DecidableEq S] [DecidableEq T] in
theorem effect_fst (instruction : OperationType × Rule D S T) :
    (effect instruction).1 = key instruction.2 := by
  obtain ⟨type, rule⟩ := instruction
  cases type <;> rfl

section

omit [DecidableEq T]

theorem execute_eq (tables : Tables D S T) (op : FlowRuleOperation D (Content S T)) :
    execute tables op = write tables (effect (op.type, op.rule)) := by
  obtain ⟨object, rule, type⟩ := op
  cases type <;> rfl

theorem foldl_execute (tables : Tables D S T) (ops : List (FlowRuleOperation D (Content S T))) :
    ops.foldl execute tables =
      ((ops.map fun op => (op.type, op.rule)).map effect).foldl write tables := by
  rw [List.map_map, List.foldl_map]
  exact congrArg (fun step => ops.foldl step tables) (funext₂ execute_eq)

end

variable {old new : List (Rule D S T)}

omit [DecidableEq D] [DecidableEq S] [DecidableEq T] in
theorem map_key_instructions (c : Changes D S T) :
    c.instructions.map (fun instruction => key instruction.2) =
      c.flowRulesToInstall.map key ++ c.flowRuleToModify.map key ++
        c.flowRulesToUninstall.map key := by
  simp only [Changes.instructions, List.map_append, List.map_map]
  rfl

theorem nodup_instructions (hold : (old.map key).Nodup) (hnew : (new.map key).Nodup) :
    ((compare old new).instructions.map fun instruction => key instruction.2).Nodup := by
  have hinstall : (compare old new).flowRulesToInstall.Sublist new :=
    List.filter_sublist.trans List.filter_sublist
  have hmodify : (compare old new).flowRuleToModify.Sublist new :=
    List.filter_sublist.trans List.filter_sublist
  have huninstall : (compare old new).flowRulesToUninstall.Sublist old :=
    List.filter_sublist.trans List.filter_sublist
  rw [map_key_instructions, List.nodup_append, List.nodup_append]
  refine ⟨⟨hnew.sublist (hinstall.map key), hnew.sublist (hmodify.map key), ?_⟩,
    hold.sublist (huninstall.map key), ?_⟩
  · intro k hadded k' hmodified hk
    obtain ⟨r, hr, rfl⟩ := List.mem_map.mp hadded
    obtain ⟨r', hr', rfl⟩ := List.mem_map.mp hmodified
    obtain ⟨o, ho, hkey⟩ := ((mem_flowRuleToModify hnew).mp hr').2.1
    exact (mem_flowRulesToInstall.mp hr).2 o ho (hk.trans hkey)
  · intro k hwritten k' hremoved hk
    obtain ⟨o, ho, rfl⟩ := List.mem_map.mp hremoved
    rw [← List.map_append] at hwritten
    obtain ⟨r, hr, rfl⟩ := List.mem_map.mp hwritten
    have hmem : r ∈ new := by
      rcases List.mem_append.mp hr with hr | hr
      · exact hinstall.subset hr
      · exact hmodify.subset hr
    exact (mem_flowRulesToUninstall.mp ho).2 r hmem hk.symm

theorem isPatch_instructions (hold : (old.map key).Nodup) (hnew : (new.map key).Nodup) :
    IsPatch (holding old) (holding new) ((compare old new).instructions.map effect) := by
  have hfst : ((compare old new).instructions.map effect).map Prod.fst =
      (compare old new).instructions.map fun instruction => key instruction.2 := by
    rw [List.map_map]
    exact List.map_congr_left fun instruction _ => effect_fst instruction
  refine ⟨hfst ▸ nodup_instructions hold hnew, ?_, ?_⟩
  · intro entry hentry
    obtain ⟨⟨type, r⟩, hmem, rfl⟩ := List.mem_map.mp hentry
    simp only [Changes.instructions, List.mem_append, List.mem_map] at hmem
    rcases hmem with (⟨r', hr, heq⟩ | ⟨r', hr, heq⟩) | ⟨r', hr, heq⟩
    · cases heq
      exact holding_of_mem hnew (mem_flowRulesToInstall.mp hr).1
    · cases heq
      exact holding_of_mem hnew ((mem_flowRuleToModify hnew).mp hr).1
    · cases heq
      exact holding_of_notMem fun n hn hkey => (mem_flowRulesToUninstall.mp hr).2 n hn hkey.symm
  · intro k hk
    simp only [hfst, map_key_instructions, List.mem_append, not_or] at hk
    obtain ⟨⟨hinstall, hmodify⟩, huninstall⟩ := hk
    by_cases hn : ∃ n ∈ new, key n = k
    · obtain ⟨n, hn, rfl⟩ := hn
      -- a new rule that nothing is done for is exactly an old one
      obtain ⟨o, ho, hkey⟩ : ∃ o ∈ old, key n = key o := by
        by_contra hfresh
        exact hinstall (List.mem_map_of_mem (mem_flowRulesToInstall.mpr
          ⟨hn, fun o ho hkey => hfresh ⟨o, ho, hkey⟩⟩))
      have hvalue : value n = value o := by
        by_contra hdiffers
        refine hmodify (List.mem_map_of_mem ((mem_flowRuleToModify hnew).mpr
          ⟨hn, ⟨o, ho, hkey⟩, fun o' ho' => Bool.eq_false_of_not_eq_true fun hexact => ?_⟩))
        obtain ⟨hkey', hvalue⟩ := exactMatch_iff.mp hexact
        rw [List.inj_on_of_nodup_map hold ho ho' (hkey.symm.trans hkey')] at hdiffers
        exact hdiffers hvalue
      rw [holding_of_mem hnew hn, hvalue, hkey, holding_of_mem hold ho]
    · rw [holding_of_notMem fun n hmem hkey => hn ⟨n, hmem, hkey⟩]
      refine (holding_of_notMem fun o ho hkey => huninstall ?_).symm
      rw [← hkey]
      exact List.mem_map_of_mem (mem_flowRulesToUninstall.mpr
        ⟨ho, fun n hmem hsame => hn ⟨n, hmem, hsame.symm.trans hkey⟩⟩)

theorem key_ne_of_exactMatch (hnew : (new.map key).Nodup) {n o : Rule D S T} (hn : n ∈ new)
    (ho : o ∈ old) (hexact : exactMatch n o = true) :
    ∀ instruction ∈ (compare old new).instructions, key instruction.2 ≠ key n := by
  have hkey := (exactMatch_iff.mp hexact).1
  rintro ⟨type, r⟩ hmem hr
  simp only [Changes.instructions, List.mem_append, List.mem_map] at hmem
  rcases hmem with (⟨r', hr', heq⟩ | ⟨r', hr', heq⟩) | ⟨r', hr', heq⟩
  · cases heq
    exact (mem_flowRulesToInstall.mp hr').2 o ho (hr.trans hkey)
  · cases heq
    obtain ⟨hmem, _, hdiffers⟩ := (mem_flowRuleToModify hnew).mp hr'
    rw [List.inj_on_of_nodup_map hnew hmem hn hr] at hdiffers
    exact Bool.false_ne_true ((hdiffers o ho).symm.trans hexact)
  · cases heq
    exact (mem_flowRulesToUninstall.mp hr').2 n hn hr

end Tables

/-- What is submitted, in any order, leads from the old rules to the new ones; it leaves out what is
exactly the same in both, and no two operations have one match. -/
theorem apply_exact (context : IntentOperationContext D S T K) (h : context.isReallocation = false)
    (hold : ((flowRules context.intentsToUninstall).map key).Nodup)
    (hnew : ((flowRules context.intentsToInstall).map key).Nodup) :
    (∀ ops : List (FlowRuleOperation D (Content S T)), ops.Perm (apply context).2.submitted →
      ops.foldl execute (holding (flowRules context.intentsToUninstall)) =
        holding (flowRules context.intentsToInstall)) ∧
    (∀ n ∈ flowRules context.intentsToInstall, ∀ o ∈ flowRules context.intentsToUninstall,
      exactMatch n o = true → ∀ op ∈ (apply context).2.submitted, key op.rule ≠ key n) ∧
    ((apply context).2.submitted.map fun op => key op.rule).Nodup := by
  have hsubmitted := map_submitted h
  refine ⟨fun ops hperm => ?_, fun n hn o ho hexact op hop => ?_, ?_⟩
  · rw [foldl_execute]
    refine ((isPatch_instructions hold hnew).perm (List.Perm.map effect ?_)).foldl_write
    rw [← hsubmitted]
    exact hperm.map _
  · refine key_ne_of_exactMatch hnew hn ho hexact (op.type, op.rule) ?_
    rw [← hsubmitted]
    exact List.mem_map_of_mem hop
  · have hnodup := nodup_instructions hold hnew
    rw [← hsubmitted, List.map_map] at hnodup
    exact hnodup

/-- A rule that stays, one with another treatment, one that goes and one that comes. -/
def updateContext : IntentOperationContext ℕ ℕ ℕ ℕ where
  toUninstall := some ⟨⟨1, [], .other⟩, .INSTALLED⟩
  toInstall := some ⟨⟨1, [], .connectivity [.other]⟩, .INSTALLING⟩
  intentsToUninstall := [⟨[⟨1, ⟨1, 10, .INDEX 0, 7, 1, 1⟩⟩, ⟨2, ⟨1, 10, .INDEX 0, 8, 1, 1⟩⟩], []⟩,
    ⟨[⟨3, ⟨1, 10, .INDEX 0, 9, 1, 1⟩⟩], []⟩]
  intentsToInstall := [⟨[⟨1, ⟨1, 10, .INDEX 0, 7, 1, 1⟩⟩, ⟨2, ⟨1, 10, .INDEX 0, 8, 1, 2⟩⟩], []⟩,
    ⟨[⟨4, ⟨1, 10, .INDEX 0, 6, 1, 1⟩⟩], []⟩]
  uninstall_none := nofun
  install_none := nofun

theorem apply_updateContext :
    (apply updateContext).2.submitted.map (fun op => (op.type, op.rule.deviceId)) =
      [(.ADD, 4), (.MODIFY, 2), (.REMOVE, 3)] ∧
    ∀ ops : List (FlowRuleOperation ℕ (Content ℕ ℕ)), ops.Perm (apply updateContext).2.submitted →
      ops.foldl execute (holding (flowRules updateContext.intentsToUninstall)) =
        holding (flowRules updateContext.intentsToInstall) :=
  ⟨by decide, (apply_exact updateContext (by decide) (by decide) (by decide)).1⟩

end FlowRuleUpdate

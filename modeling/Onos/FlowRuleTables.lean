import Onos.FlowRuleWork

/-! What the stages of a reallocation do to the tables. The rules of the old intents are kept or
replaced as far as the rule that comes in on a device does not take another one with it. -/
namespace FlowRuleReallocation

open FlowOperationsProcessor

variable {D S T : Type*} [DecidableEq D] [DecidableEq S] [DecidableEq T]

section Tables

omit [DecidableEq T]

variable {tables : Tables D S T} {rules : List (Rule D S T)} {k : Key D S} {v : ℕ × T}

def perform (tables : Tables D S T) (instruction : OperationType × Rule D S T) : Tables D S T :=
  match instruction.1 with
  | .ADD | .MODIFY => Function.update tables (key instruction.2) (some (value instruction.2))
  | .REMOVE => Function.update tables (key instruction.2) none

theorem applyAll_build (tables : Tables D S T) (b : Builder D (Content S T)) :
    applyAll tables b.build = b.instructions.foldl perform tables := by
  rw [applyAll, Builder.flatten_build, Builder.instructions, List.foldl_map]
  rfl

def addTo (tables : Tables D S T) (rules : List (Rule D S T)) : Tables D S T :=
  (rules.map (OperationType.ADD, ·)).foldl perform tables

def removeFrom (tables : Tables D S T) (rules : List (Rule D S T)) : Tables D S T :=
  (rules.map (OperationType.REMOVE, ·)).foldl perform tables

theorem addTo_of_notMem (h : ∀ r ∈ rules, key r ≠ k) : addTo tables rules k = tables k := by
  induction rules generalizing tables with
  | nil => rfl
  | cons r rules ih =>
    rw [List.forall_mem_cons] at h
    exact (ih h.2).trans (Function.update_of_ne h.1.symm _ _)

theorem addTo_of_mem (h : ∃ r ∈ rules, key r = k) (hv : ∀ r ∈ rules, key r = k → value r = v) :
    addTo tables rules k = some v := by
  induction rules generalizing tables with
  | nil =>
    obtain ⟨r, hr, _⟩ := h
    exact absurd hr List.not_mem_nil
  | cons r rules ih =>
    rw [List.forall_mem_cons] at hv
    by_cases hrest : ∃ r ∈ rules, key r = k
    · exact ih hrest hv.2
    · obtain ⟨r', hr', hkey⟩ := h
      rcases List.mem_cons.mp hr' with rfl | hr'
      · refine (addTo_of_notMem fun r hr hk => hrest ⟨r, hr, hk⟩).trans ?_
        have hcell : Function.update tables (key r') (some (value r')) k = some (value r') := by
          rw [← hkey, Function.update_self]
        exact hcell.trans (congrArg some (hv.1 hkey))
      · exact absurd ⟨r', hr', hkey⟩ hrest

theorem removeFrom_of_notMem (h : ∀ r ∈ rules, key r ≠ k) : removeFrom tables rules k = tables k := by
  induction rules generalizing tables with
  | nil => rfl
  | cons r rules ih =>
    rw [List.forall_mem_cons] at h
    exact (ih h.2).trans (Function.update_of_ne h.1.symm _ _)

theorem removeFrom_of_mem (h : ∃ r ∈ rules, key r = k) : removeFrom tables rules k = none := by
  induction rules generalizing tables with
  | nil =>
    obtain ⟨r, hr, _⟩ := h
    exact absurd hr List.not_mem_nil
  | cons r rules ih =>
    by_cases hrest : ∃ r ∈ rules, key r = k
    · exact ih hrest
    · obtain ⟨r', hr', hkey⟩ := h
      rcases List.mem_cons.mp hr' with rfl | hr'
      · refine (removeFrom_of_notMem fun r hr hk => hrest ⟨r, hr, hk⟩).trans ?_
        have hcell : Function.update tables (key r') none k = none := by
          rw [← hkey, Function.update_self]
        exact hcell
      · exact absurd ⟨r', hr', hkey⟩ hrest

theorem holding_of_mem (hrules : (rules.map key).Nodup) {r : Rule D S T} (hr : r ∈ rules) :
    holding rules (key r) = some (value r) := by
  rw [holding]
  cases hfind : rules.find? fun rule => key rule = key r with
  | none =>
    have hother := List.find?_eq_none.mp hfind r hr
    simp at hother
  | some r' =>
    have hkey : key r' = key r := by simpa using List.find?_some hfind
    have hsame := List.inj_on_of_nodup_map hrules (List.mem_of_find?_eq_some hfind) hr hkey
    rw [hsame]
    rfl

theorem holding_of_notMem (h : ∀ r ∈ rules, key r ≠ k) : holding rules k = none := by
  have hfind : rules.find? (fun rule => key rule = k) = none :=
    List.find?_eq_none.mpr fun r hr => by simpa using h r hr
  rw [holding, hfind]
  rfl

end Tables

section Prepared

variable {env : Environment D S} {uninstallIntents installIntents : List (FlowRuleIntent D S T)}

theorem instructions_addAll (b : Builder D (Content S T)) (rules : List (Rule D S T)) :
    (addAll b.newStage rules).instructions = b.instructions ++ rules.map (OperationType.ADD, ·) := by
  have hstage : ∀ op ∈ b.newStage.currentStage, op.object < 0 :=
    fun op hop => absurd hop List.not_mem_nil
  refine (Builder.instructions_foldl .ADD rules hstage).trans (congrArg (· ++ _) ?_)
  rw [Builder.instructions, Builder.operations_newStage, Builder.instructions]

theorem instructions_removeAll (b : Builder D (Content S T)) (rules : List (Rule D S T)) :
    (removeAll b.newStage rules).instructions =
      b.instructions ++ rules.map (OperationType.REMOVE, ·) := by
  have hstage : ∀ op ∈ b.newStage.currentStage, op.object < 0 :=
    fun op hop => absurd hop List.not_mem_nil
  refine (Builder.instructions_foldl .REMOVE rules hstage).trans (congrArg (· ++ _) ?_)
  rw [Builder.instructions, Builder.operations_newStage, Builder.instructions]

structure Prepared (env : Environment D S) (intents : List (FlowRuleIntent D S T × FlowRuleIntent D S T))
    (s : Stages D S T) : Prop where
  first : s.first.instructions =
    (intents.flatMap fun p => (workOf env p.1 p.2).installFlowRules).map (OperationType.ADD, ·)
  second : ∀ r, r ∈ s.second ↔ ∃ p ∈ intents, r ∈ (workOf env p.1 p.2).secondStageRules
  third : s.third.instructions =
    (intents.flatMap fun p => (workOf env p.1 p.2).thirdStageRules).map (OperationType.ADD, ·)
  final : s.final.instructions =
    (intents.flatMap fun p => (workOf env p.1 p.2).uninstallFlowRules).map (OperationType.REMOVE, ·)

theorem prepareIntents_prepared {seen : List (FlowRuleIntent D S T × FlowRuleIntent D S T)}
    {intents : FlowRuleIntent D S T × FlowRuleIntent D S T} {s : Stages D S T}
    (h : Prepared env seen s) (hpriority : ∀ rule ∈ intents.1.flowRules, 1 ≤ rule.content.priority) :
    ∃ s', prepareIntents env s intents = some s' ∧ Prepared env (seen ++ [intents]) s' := by
  obtain ⟨installIntent, uninstallIntent⟩ := intents
  simp only [prepareIntents, compareIntents_eq hpriority, Option.map_some]
  refine ⟨_, rfl, ?_, ?_, ?_, ?_⟩
  · rw [instructions_addAll, h.first, List.flatMap_append, List.map_append, List.flatMap_singleton]
  · intro r
    rw [List.mem_append, h.second, List.mem_mergeSort]
    simp [or_and_right, exists_or]
  · rw [instructions_addAll, h.third, List.flatMap_append, List.map_append, List.flatMap_singleton]
  · rw [instructions_removeAll, h.final, List.flatMap_append, List.map_append,
      List.flatMap_singleton]

theorem prepareReallocation_prepared
    (hpriority : ∀ i ∈ installIntents, ∀ rule ∈ i.flowRules, 1 ≤ rule.content.priority) :
    ∃ s, prepareReallocation env uninstallIntents installIntents = some s ∧
      Prepared env (pairs installIntents uninstallIntents) s := by
  have hloop : ∀ (rest seen : List (FlowRuleIntent D S T × FlowRuleIntent D S T)) (s : Stages D S T),
      (∀ p ∈ rest, p.1 ∈ installIntents) → Prepared env seen s →
      ∃ s', rest.foldlM (prepareIntents env) s = some s' ∧ Prepared env (seen ++ rest) s' := by
    intro rest
    induction rest with
    | nil =>
      intro seen s _ h
      rw [List.append_nil]
      exact ⟨s, rfl, h⟩
    | cons p rest ih =>
      intro seen s hrest h
      rw [List.forall_mem_cons] at hrest
      obtain ⟨s', hs', hprepared⟩ := prepareIntents_prepared h (hpriority p.1 hrest.1)
      obtain ⟨s'', hs'', hall⟩ := ih (seen ++ [p]) s' hrest.2 hprepared
      rw [List.append_assoc] at hall
      refine ⟨s'', ?_, hall⟩
      rw [List.foldlM_cons, hs']
      exact hs''
  refine hloop (pairs installIntents uninstallIntents) [] _ (fun p hp => (mem_pairs.mp hp).1) ?_
  exact ⟨rfl, fun r => by simp, rfl, rfl⟩

theorem reallocate_eq {intents : List (FlowRuleIntent D S T × FlowRuleIntent D S T)}
    {s : Stages D S T} (h : Prepared env intents s) (tables : Tables D S T) :
    reallocate tables s = removeFrom (addTo (removeFrom (addTo tables
      (intents.flatMap fun p => (workOf env p.1 p.2).installFlowRules)) s.second)
      (intents.flatMap fun p => (workOf env p.1 p.2).thirdStageRules))
      (intents.flatMap fun p => (workOf env p.1 p.2).uninstallFlowRules) := by
  have hsecond : ∀ (rules : List (Rule D S T)) (tables : Tables D S T), rules.foldl
      (fun tables flowRule => applyAll tables (Builder.new.newStage.remove 0 flowRule).build) tables =
      removeFrom tables rules := by
    intro rules
    induction rules with
    | nil => exact fun _ => rfl
    | cons r rules ih => exact fun tables => ih (applyAll tables _)
  simp only [reallocate, hsecond]
  simp only [applyAll_build, h.first, h.third, h.final, addTo, removeFrom]

end Prepared

end FlowRuleReallocation

import Onos.Lib.KeyedMap
import Mathlib.Data.Finset.Lattice.Lemmas
import Mathlib.Data.Finset.SDiff
import Mathlib.Algebra.Ring.Rat

/-! The discrete and the continuous part of the resource store, as a transaction sees them. An
operation gives the maps after it, or nothing when it returns false and the transaction is
aborted. The components of resource IDs are arbitrary; a transaction reads its own writes. -/
namespace ResourceSubStores

open KeyedMap

abbrev DiscreteResourceId (C : Type*) := List C

structure ContinuousResourceId (C : Type*) where
  parent : DiscreteResourceId C
  last : C
  deriving DecidableEq, Repr

structure ContinuousResource (C : Type*) where
  id : ContinuousResourceId C
  value : ℚ
  nonneg : 0 ≤ value
  deriving DecidableEq

structure ResourceAllocation (C U : Type*) where
  resource : ContinuousResource C
  consumerId : U
  deriving DecidableEq

/-- The allocations of a continuous resource, and the resource as it was registered when the
first of them was made. -/
structure ContinuousResourceAllocation (C U : Type*) where
  original : ContinuousResource C
  allocations : List (ResourceAllocation C U)
  deriving DecidableEq

structure DiscreteSubStore (C U : Type*) where
  childMap : Table (DiscreteResourceId C) (Finset (DiscreteResourceId C))
  consumers : Table (DiscreteResourceId C) U

structure ContinuousSubStore (C U : Type*) where
  childMap : Table (DiscreteResourceId C) (List (ContinuousResource C))
  consumers : Table (ContinuousResourceId C) (ContinuousResourceAllocation C U)

variable {C U : Type*}

def DiscreteResourceId.parent : DiscreteResourceId C → Option (DiscreteResourceId C)
  | [] => none
  | components => some components.dropLast

namespace ContinuousResourceAllocation

def empty (original : ContinuousResource C) : ContinuousResourceAllocation C U := ⟨original, []⟩

def allocated (a : ContinuousResourceAllocation C U) : ℚ :=
  (a.allocations.map fun x => x.resource.value).sum

def hasEnoughResource (a : ContinuousResourceAllocation C U) (request : ContinuousResource C) :
    Bool :=
  let left := a.original.value - a.allocated
  decide (request.value ≤ left)

def allocate (a : ContinuousResourceAllocation C U) (value : ResourceAllocation C U) :
    ContinuousResourceAllocation C U := ⟨a.original, a.allocations ++ [value]⟩

def isMatch [DecidableEq U] (resource : ContinuousResource C) (consumerId : U)
    (x : ResourceAllocation C U) : Bool :=
  decide (x.consumerId = consumerId) && decide (x.resource.value = resource.value)

/-- The first allocation of the same amount to the same consumer goes, and the others of them
move to the end. -/
def release [DecidableEq U] (a : ContinuousResourceAllocation C U)
    (resource : ContinuousResource C) (consumerId : U) : ContinuousResourceAllocation C U :=
  let nonMatched := a.allocations.filter fun x => !isMatch resource consumerId x
  let matched := a.allocations.filter (isMatch resource consumerId)
  ⟨a.original, nonMatched ++ matched.tail⟩

end ContinuousResourceAllocation

variable [DecidableEq C] [DecidableEq U]

namespace DiscreteSubStore

def lookup (s : DiscreteSubStore C U) (id : DiscreteResourceId C) :
    Option (DiscreteResourceId C) :=
  match id.parent with
  | none => some id
  | some parent => match s.childMap.lookup parent with
    | none => none
    | some values => if id ∈ values then some id else none

def register (s : DiscreteSubStore C U) (parent : DiscreteResourceId C)
    (resources : Finset (DiscreteResourceId C)) : Option (DiscreteSubStore C U) :=
  if resources = ∅ then some s
  else
    let (childMap, oldValues) := putIfAbsent s.childMap parent resources
    let s := { s with childMap := childMap }
    match oldValues with
    | none => some s
    | some oldValues =>
      let addedValues := resources \ oldValues
      if addedValues = ∅ then some s
      else (replace s.childMap parent oldValues (oldValues ∪ addedValues)).map fun childMap =>
        { s with childMap := childMap }

def isAllocated (s : DiscreteSubStore C U) (id : DiscreteResourceId C) : Bool :=
  (s.consumers.lookup id).isSome

def unregister (s : DiscreteSubStore C U) (parent : DiscreteResourceId C)
    (resources : Finset (DiscreteResourceId C)) : Option (DiscreteSubStore C U) :=
  if resources = ∅ then some s
  else if ∃ id ∈ resources, s.isAllocated id then none
  else
    let (childMap, oldValues) := putIfAbsent s.childMap parent ∅
    let s := { s with childMap := childMap }
    match oldValues with
    | none => some s
    | some oldValues =>
      if resources ∩ oldValues = ∅ then some s
      else (replace s.childMap parent oldValues (oldValues \ resources)).map fun childMap =>
        { s with childMap := childMap }

def allocate (s : DiscreteSubStore C U) (consumerId : U) (resource : DiscreteResourceId C) :
    Option (DiscreteSubStore C U) :=
  match s.lookup resource with
  | none => none
  | some _ => match s.consumers.lookup resource with
    | none => some { s with consumers := s.consumers.insert resource consumerId }
    | some _ => none

def release (s : DiscreteSubStore C U) (consumerId : U) (resource : DiscreteResourceId C) :
    Option (DiscreteSubStore C U) :=
  if s.consumers.lookup resource = some consumerId then
    some { s with consumers := s.consumers.erase resource }
  else none

def children (s : DiscreteSubStore C U) (parent : DiscreteResourceId C) :
    Finset (DiscreteResourceId C) := (s.childMap.lookup parent).getD ∅

section

omit [DecidableEq U]

section

variable (s : DiscreteSubStore C U)

include s

theorem lookup_isSome (id : DiscreteResourceId C) :
    (s.lookup id).isSome ↔ ∀ parent, id.parent = some parent → id ∈ s.children parent := by
  unfold lookup children
  cases id.parent with
  | none => simp
  | some parent =>
    cases hvalues : s.childMap.lookup parent with
    | none => simp [hvalues]
    | some values => simp [hvalues]

theorem children_insert (parent p : DiscreteResourceId C) (values : Finset (DiscreteResourceId C)) :
    ({ s with childMap := s.childMap.insert parent values } : DiscreteSubStore C U).children p =
      if p = parent then values else s.children p := by
  rw [children]
  rw [lookup_insert]
  split_ifs <;> rfl

theorem register_cases (parent : DiscreteResourceId C)
    (resources : Finset (DiscreteResourceId C)) : ∃ s', s.register parent resources = some s' ∧
      s'.consumers = s.consumers ∧
      ∀ p, s'.children p = s.children p ∪ if p = parent then resources else ∅ := by
  rw [register]
  by_cases hempty : resources = ∅
  · refine ⟨s, if_pos hempty, rfl, fun p => ?_⟩
    simp [hempty]
  · rw [if_neg hempty]
    cases hold : s.childMap.lookup parent with
    | none =>
      rw [putIfAbsent_of_none hold]
      refine ⟨_, rfl, rfl, fun p => ?_⟩
      have hnone : s.children parent = ∅ := by rw [children, hold, Option.getD_none]
      rw [children_insert]
      split_ifs with hp
      · rw [hp, hnone, Finset.empty_union]
      · rw [Finset.union_empty]
    | some oldValues =>
      rw [putIfAbsent_of_some hold]
      have hchildren : s.children parent = oldValues := by rw [children, hold, Option.getD_some]
      dsimp only
      by_cases hadded : resources \ oldValues = ∅
      · refine ⟨s, if_pos hadded, rfl, fun p => ?_⟩
        split_ifs with hp
        · rw [hp, hchildren, Finset.union_eq_left.mpr (Finset.sdiff_eq_empty_iff_subset.mp hadded)]
        · rw [Finset.union_empty]
      · rw [if_neg hadded, replace_of_lookup hold]
        refine ⟨_, rfl, rfl, fun p => ?_⟩
        rw [children_insert]
        split_ifs with hp
        · rw [hp, hchildren, Finset.union_sdiff_self_eq_union]
        · rw [Finset.union_empty]

theorem unregister_cases (parent : DiscreteResourceId C)
    (resources : Finset (DiscreteResourceId C)) :
    ((∃ id ∈ resources, s.isAllocated id) ∧ s.unregister parent resources = none) ∨
    ((∀ id ∈ resources, ¬ s.isAllocated id) ∧ ∃ s', s.unregister parent resources = some s' ∧
      s'.consumers = s.consumers ∧
      ∀ p, s'.children p = s.children p \ if p = parent then resources else ∅) := by
  rw [unregister]
  by_cases hempty : resources = ∅
  · refine Or.inr ⟨fun id hid => ?_, s, if_pos hempty, rfl, fun p => ?_⟩
    · rw [hempty] at hid
      exact absurd hid (Finset.notMem_empty id)
    · simp [hempty]
  · rw [if_neg hempty]
    by_cases hallocated : ∃ id ∈ resources, s.isAllocated id
    · exact Or.inl ⟨hallocated, if_pos hallocated⟩
    · rw [if_neg hallocated]
      refine Or.inr ⟨fun id hid h => hallocated ⟨id, hid, h⟩, ?_⟩
      cases hold : s.childMap.lookup parent with
      | none =>
        rw [putIfAbsent_of_none hold]
        refine ⟨_, rfl, rfl, fun p => ?_⟩
        have hnone : s.children parent = ∅ := by rw [children, hold, Option.getD_none]
        rw [children_insert]
        split_ifs with hp
        · rw [hp, hnone, Finset.empty_sdiff]
        · rw [Finset.sdiff_empty]
      | some oldValues =>
        rw [putIfAbsent_of_some hold]
        have hchildren : s.children parent = oldValues := by
          rw [children, hold, Option.getD_some]
        dsimp only
        by_cases hcommon : resources ∩ oldValues = ∅
        · refine ⟨s, if_pos hcommon, rfl, fun p => ?_⟩
          split_ifs with hp
          · rw [hp, hchildren, Finset.sdiff_eq_self_iff_disjoint.mpr]
            exact (Finset.disjoint_iff_inter_eq_empty.mpr hcommon).symm
          · rw [Finset.sdiff_empty]
        · rw [if_neg hcommon, replace_of_lookup hold]
          refine ⟨_, rfl, rfl, fun p => ?_⟩
          rw [children_insert]
          split_ifs with hp
          · rw [hp, hchildren]
          · rw [Finset.sdiff_empty]

end

theorem allocate_cases {s s' : DiscreteSubStore C U} {consumerId : U}
    {resource : DiscreteResourceId C} (h : s.allocate consumerId resource = some s') :
    s'.childMap = s.childMap ∧ (s.lookup resource).isSome ∧
      s.consumers.lookup resource = none ∧
      s'.consumers = s.consumers.insert resource consumerId := by
  rw [allocate] at h
  cases hlookup : s.lookup resource with
  | none =>
    rw [hlookup] at h
    cases h
  | some found =>
    cases hold : s.consumers.lookup resource with
    | some u =>
      rw [hlookup, hold] at h
      cases h
    | none =>
      rw [hlookup, hold] at h
      obtain rfl := Option.some.inj h
      exact ⟨rfl, rfl, rfl, rfl⟩

end

theorem release_cases {s s' : DiscreteSubStore C U} {consumerId : U}
    {resource : DiscreteResourceId C} (h : s.release consumerId resource = some s') :
    s'.childMap = s.childMap ∧ s.consumers.lookup resource = some consumerId ∧
      s'.consumers = s.consumers.erase resource := by
  rw [release] at h
  split_ifs at h with howned
  obtain rfl := Option.some.inj h
  exact ⟨rfl, howned, rfl⟩

end DiscreteSubStore

namespace ContinuousSubStore

def lookup (s : ContinuousSubStore C U) (id : ContinuousResourceId C) :
    Option (ContinuousResource C) :=
  match s.childMap.lookup id.parent with
  | none => none
  | some values => values.find? fun x => x.id = id

def register (s : ContinuousSubStore C U) (parent : DiscreteResourceId C)
    (resources : List (ContinuousResource C)) : Option (ContinuousSubStore C U) :=
  if resources = [] then some s
  else
    let (childMap, oldValues) := putIfAbsent s.childMap parent resources
    let s := { s with childMap := childMap }
    match oldValues with
    | none => some s
    | some oldValues =>
      let addedValues := resources.filter fun x => x ∉ oldValues
      if addedValues = [] then some s
      else
        let addedIds := addedValues.map ContinuousResource.id
        if oldValues.any fun x => x.id ∈ addedIds then none
        else (replace s.childMap parent oldValues (oldValues ++ addedValues)).map fun childMap =>
          { s with childMap := childMap }

def isAllocated (s : ContinuousSubStore C U) (id : ContinuousResourceId C) : Bool :=
  match s.consumers.lookup id with
  | none => false
  | some a => !a.allocations.isEmpty

def unregister (s : ContinuousSubStore C U) (parent : DiscreteResourceId C)
    (resources : List (ContinuousResource C)) : Option (ContinuousSubStore C U) :=
  if resources = [] then some s
  else if resources.any fun x => s.isAllocated x.id then none
  else
    let (childMap, oldValues) := putIfAbsent s.childMap parent []
    let s := { s with childMap := childMap }
    match oldValues with
    | none => some s
    | some oldValues =>
      if resources.all fun x => x ∉ oldValues then some s
      else
        let newValues := oldValues.filter fun x => x ∉ resources
        (replace s.childMap parent oldValues newValues).map fun childMap =>
          { s with childMap := childMap }

def appendValue (s : ContinuousSubStore C U) (original : ContinuousResource C)
    (value : ResourceAllocation C U) : Option (ContinuousSubStore C U) :=
  let (consumers, oldValue) := putIfAbsent s.consumers original.id ⟨original, [value]⟩
  let s := { s with consumers := consumers }
  match oldValue with
  | none => some s
  | some oldValue =>
    (replace s.consumers original.id oldValue (oldValue.allocate value)).map fun consumers =>
      { s with consumers := consumers }

def allocate (s : ContinuousSubStore C U) (consumerId : U) (request : ContinuousResource C) :
    Option (ContinuousSubStore C U) :=
  match s.lookup request.id with
  | none => none
  | some original =>
    let allocations := s.consumers.lookup request.id
    if (allocations.getD (.empty original)).hasEnoughResource request then
      s.appendValue original ⟨request, consumerId⟩
    else none

/-- Without an earlier allocation of the resource the call throws, which also leaves no trace. -/
def release (s : ContinuousSubStore C U) (consumerId : U) (resource : ContinuousResource C) :
    Option (ContinuousSubStore C U) :=
  match s.consumers.lookup resource.id with
  | none => none
  | some oldAllocation =>
    (replace s.consumers resource.id oldAllocation
      (oldAllocation.release resource consumerId)).map fun consumers =>
        { s with consumers := consumers }

def getResourceAllocations (s : ContinuousSubStore C U) (id : ContinuousResourceId C) :
    List (ResourceAllocation C U) :=
  match s.consumers.lookup id with
  | none => []
  | some a => a.allocations.filter fun x => x.resource.id = id

def children (s : ContinuousSubStore C U) (parent : DiscreteResourceId C) :
    List (ContinuousResource C) := (s.childMap.lookup parent).getD []

def Registered (s : ContinuousSubStore C U) (r : ContinuousResource C) : Prop :=
  r ∈ s.children r.id.parent

omit [DecidableEq U] in
theorem lookup_eq_find (s : ContinuousSubStore C U) (id : ContinuousResourceId C) :
    s.lookup id = (s.children id.parent).find? fun x => x.id = id := by
  unfold lookup children
  cases s.childMap.lookup id.parent <;> rfl

variable {s : ContinuousSubStore C U}

section

omit [DecidableEq U]

theorem registered_of_lookup {id : ContinuousResourceId C}
    {r : ContinuousResource C} (h : s.lookup id = some r) : s.Registered r ∧ r.id = id := by
  rw [lookup_eq_find] at h
  have hid : r.id = id := by simpa using List.find?_some h
  refine ⟨?_, hid⟩
  rw [Registered, hid]
  exact List.mem_of_find?_eq_some h

theorem lookup_eq_none {id : ContinuousResourceId C} :
    s.lookup id = none ↔ ∀ r, s.Registered r → r.id ≠ id := by
  rw [lookup_eq_find, List.find?_eq_none]
  constructor
  · rintro h r hr rfl
    exact h r hr (decide_eq_true rfl)
  · intro h r hr hid
    have hid : r.id = id := of_decide_eq_true hid
    rw [← hid] at hr
    exact h r hr hid

theorem children_insert (s : ContinuousSubStore C U) (parent p : DiscreteResourceId C)
    (values : List (ContinuousResource C)) :
    ({ s with childMap := s.childMap.insert parent values } : ContinuousSubStore C U).children p =
      if p = parent then values else s.children p := by
  rw [children]
  rw [lookup_insert]
  split_ifs <;> rfl

end

variable {s' : ContinuousSubStore C U}

section

omit [DecidableEq U]

theorem register_cases {parent : DiscreteResourceId C}
    {resources : List (ContinuousResource C)} (h : s.register parent resources = some s') :
    s'.consumers = s.consumers ∧
      ∃ added : List (ContinuousResource C), added.Sublist resources ∧
        (∀ x ∈ added, ∀ y ∈ s.children parent, y.id ≠ x.id) ∧
        ∀ p, s'.children p = s.children p ++ if p = parent then added else [] := by
  have hsame : ∃ added : List (ContinuousResource C), added.Sublist resources ∧
      (∀ x ∈ added, ∀ y ∈ s.children parent, y.id ≠ x.id) ∧
        ∀ p, s.children p = s.children p ++ if p = parent then added else [] :=
    ⟨[], List.nil_sublist _, fun _ hx => absurd hx List.not_mem_nil, fun p => by simp⟩
  rw [register] at h
  split_ifs at h with hempty
  · obtain rfl := Option.some.inj h
    exact ⟨rfl, hsame⟩
  · cases hold : s.childMap.lookup parent with
    | none =>
      rw [putIfAbsent_of_none hold] at h
      obtain rfl := Option.some.inj h
      have hnil : s.children parent = [] := by rw [children, hold, Option.getD_none]
      refine ⟨rfl, resources, List.Sublist.refl _, fun x _ y hy => ?_, fun p => ?_⟩
      · rw [hnil] at hy
        exact absurd hy List.not_mem_nil
      · rw [children_insert]
        split_ifs with hp
        · rw [hp, hnil, List.nil_append]
        · rw [List.append_nil]
    | some oldValues =>
      rw [putIfAbsent_of_some hold] at h
      dsimp only at h
      have hchildren : s.children parent = oldValues := by rw [children, hold, Option.getD_some]
      split_ifs at h with hnone hsameId
      · obtain rfl := Option.some.inj h
        exact ⟨rfl, hsame⟩
      · rw [replace_of_lookup hold, Option.map_some] at h
        obtain rfl := Option.some.inj h
        refine ⟨rfl, resources.filter fun x => x ∉ oldValues, List.filter_sublist,
          fun x hx y hy hid => hsameId ?_, fun p => ?_⟩
        · rw [hchildren] at hy
          rw [List.any_eq_true]
          exact ⟨y, hy, decide_eq_true (List.mem_map.mpr ⟨x, hx, hid.symm⟩)⟩
        · rw [children_insert]
          split_ifs with hp
          · rw [hp, hchildren]
          · rw [List.append_nil]

theorem unregister_cases (s : ContinuousSubStore C U) (parent : DiscreteResourceId C)
    (resources : List (ContinuousResource C)) :
    ((∃ x ∈ resources, s.isAllocated x.id) ∧ s.unregister parent resources = none) ∨
    ((∀ x ∈ resources, ¬ s.isAllocated x.id) ∧ ∃ s', s.unregister parent resources = some s' ∧
      s'.consumers = s.consumers ∧
      ∀ p, s'.children p = (s.children p).filter fun x => ¬ (p = parent ∧ x ∈ resources)) := by
  have hsame : ∀ p, (∀ x ∈ s.children p, p = parent → x ∉ resources) →
      s.children p = (s.children p).filter fun x => ¬ (p = parent ∧ x ∈ resources) := by
    intro p hp
    rw [List.filter_eq_self.mpr]
    exact fun x hx => decide_eq_true fun hremoved => hp x hx hremoved.1 hremoved.2
  rw [unregister]
  by_cases hempty : resources = []
  · refine Or.inr ⟨fun x hx => ?_, s, if_pos hempty, rfl, fun p => hsame p fun x _ _ hx => ?_⟩
    all_goals
      rw [hempty] at hx
      exact absurd hx List.not_mem_nil
  · rw [if_neg hempty]
    by_cases hallocated : ∃ x ∈ resources, s.isAllocated x.id
    · exact Or.inl ⟨hallocated, if_pos (List.any_eq_true.mpr hallocated)⟩
    · rw [if_neg fun hany => hallocated (List.any_eq_true.mp hany)]
      refine Or.inr ⟨fun x hx h => hallocated ⟨x, hx, h⟩, ?_⟩
      cases hold : s.childMap.lookup parent with
      | none =>
        rw [putIfAbsent_of_none hold]
        refine ⟨_, rfl, rfl, fun p => ?_⟩
        have hnil : s.children parent = [] := by rw [children, hold, Option.getD_none]
        rw [children_insert]
        split_ifs with hp
        · rw [hp, hnil, List.filter_nil]
        · exact hsame p fun _ _ hp' => absurd hp' hp
      | some oldValues =>
        rw [putIfAbsent_of_some hold]
        have hchildren : s.children parent = oldValues := by
          rw [children, hold, Option.getD_some]
        dsimp only
        split_ifs with habsent
        · refine ⟨s, rfl, rfl, fun p => hsame p fun x hx hp hmem => ?_⟩
          rw [hp, hchildren] at hx
          exact of_decide_eq_true (List.all_eq_true.mp habsent x hmem) hx
        · rw [replace_of_lookup hold]
          refine ⟨_, rfl, rfl, fun p => ?_⟩
          rw [children_insert]
          split_ifs with hp
          · subst hp
            simp [hchildren]
          · exact hsame p fun _ _ hp' => absurd hp' hp

end

theorem allocate_cases {consumerId : U}
    {request : ContinuousResource C} (h : s.allocate consumerId request = some s') :
    s'.childMap = s.childMap ∧ ∃ original, s.lookup request.id = some original ∧
      ∃ a : ContinuousResourceAllocation C U,
        a = (s.consumers.lookup request.id).getD (.empty original) ∧
        request.value ≤ a.original.value - a.allocated ∧
        s'.consumers = s.consumers.insert request.id (a.allocate ⟨request, consumerId⟩) := by
  rw [allocate] at h
  cases hlookup : s.lookup request.id with
  | none =>
    rw [hlookup] at h
    cases h
  | some original =>
    rw [hlookup] at h
    dsimp only at h
    split_ifs at h with henough
    have henough := of_decide_eq_true henough
    have hid := (registered_of_lookup hlookup).2
    rw [appendValue] at h
    cases hold : s.consumers.lookup request.id with
    | none =>
      rw [hid, putIfAbsent_of_none hold] at h
      rw [hold] at henough
      obtain rfl := Option.some.inj h
      exact ⟨rfl, original, rfl, _, rfl, henough, rfl⟩
    | some oldValue =>
      rw [hid, putIfAbsent_of_some hold] at h
      dsimp only at h
      rw [replace_of_lookup hold, Option.map_some] at h
      rw [hold] at henough
      obtain rfl := Option.some.inj h
      exact ⟨rfl, original, rfl, _, rfl, henough, rfl⟩

theorem release_cases {consumerId : U}
    {resource : ContinuousResource C} (h : s.release consumerId resource = some s') :
    s'.childMap = s.childMap ∧ ∃ a, s.consumers.lookup resource.id = some a ∧
      s'.consumers = s.consumers.insert resource.id (a.release resource consumerId) := by
  rw [release] at h
  cases hold : s.consumers.lookup resource.id with
  | none =>
    rw [hold] at h
    cases h
  | some a =>
    rw [hold] at h
    dsimp only at h
    rw [replace_of_lookup hold, Option.map_some] at h
    obtain rfl := Option.some.inj h
    exact ⟨rfl, a, rfl, rfl⟩

end ContinuousSubStore

end ResourceSubStores

import Onos.ResourceTree

/-! Whether a resource is available, next to what an allocation of it would answer. The two read
the maps of the sub-stores in their own ways. -/
namespace ResourceSubStores

open KeyedMap

variable {C U : Type*} [DecidableEq C] [DecidableEq U]

namespace DiscreteSubStore

def getResourceAllocations (s : DiscreteSubStore C U) (resource : DiscreteResourceId C) :
    List (DiscreteResourceId C × U) :=
  match s.consumers.lookup resource with
  | none => []
  | some consumerId => [(resource, consumerId)]

def isAvailable (s : DiscreteSubStore C U) (resource : DiscreteResourceId C) : Bool :=
  (s.getResourceAllocations resource).isEmpty

omit [DecidableEq U]

theorem isAvailable_eq (s : DiscreteSubStore C U) (resource : DiscreteResourceId C) :
    s.isAvailable resource = !s.isAllocated resource := by
  unfold isAvailable getResourceAllocations isAllocated
  cases s.consumers.lookup resource <;> rfl

theorem isSome_allocate (s : DiscreteSubStore C U) (consumerId : U)
    (resource : DiscreteResourceId C) : (s.allocate consumerId resource).isSome =
      ((s.lookup resource).isSome && !s.isAllocated resource) := by
  unfold allocate isAllocated
  cases s.lookup resource with
  | none => rfl
  | some _ => cases s.consumers.lookup resource <;> rfl

end DiscreteSubStore

namespace ContinuousSubStore

/-- The capacity that is registered now has to be enough, and what is left of the one that the
record remembers. -/
def isAvailable (s : ContinuousSubStore C U) (resource : ContinuousResource C) : Bool :=
  match s.childMap.lookup resource.id.parent with
  | none => false
  | some children =>
    let notEnoughRegistered := match children.find? fun c => c.id = resource.id with
      | none => true
      | some registered => decide (registered.value < resource.value)
    if notEnoughRegistered then false
    else match s.consumers.lookup resource.id with
      | none => true
      | some allocation => allocation.hasEnoughResource resource

omit [DecidableEq U] in
theorem isAvailable_eq (s : ContinuousSubStore C U) (resource : ContinuousResource C) :
    s.isAvailable resource = (s.lookup resource.id).any fun registered =>
      decide (resource.value ≤ registered.value) &&
        (s.consumers.lookup resource.id).all fun a => a.hasEnoughResource resource := by
  unfold isAvailable lookup
  cases s.childMap.lookup resource.id.parent with
  | none => rfl
  | some children =>
    dsimp only
    cases children.find? fun c => c.id = resource.id with
    | none => rfl
    | some registered =>
      by_cases hle : resource.value ≤ registered.value
      · rw [if_neg (by simpa using hle)]
        cases s.consumers.lookup resource.id <;> simp [hle]
      · rw [if_pos (by simpa using hle)]
        simp [hle]

theorem isSome_allocate (s : ContinuousSubStore C U) (consumerId : U)
    (request : ContinuousResource C) : (s.allocate consumerId request).isSome =
      (s.lookup request.id).any fun original =>
        (s.consumers.lookup request.id).elim (decide (request.value ≤ original.value))
          fun a => a.hasEnoughResource request := by
  unfold allocate
  cases hlookup : s.lookup request.id with
  | none => rfl
  | some original =>
    have hid := (registered_of_lookup hlookup).2
    dsimp only
    rw [Option.any_some]
    cases hold : s.consumers.lookup request.id with
    | none =>
      have henough : (ContinuousResourceAllocation.empty original :
          ContinuousResourceAllocation C U).hasEnoughResource request =
          decide (request.value ≤ original.value) := by
        simp [ContinuousResourceAllocation.hasEnoughResource,
          ContinuousResourceAllocation.allocated, ContinuousResourceAllocation.empty]
      rw [Option.getD_none, henough, appendValue, hid, putIfAbsent_of_none hold]
      cases decide (request.value ≤ original.value) <;> rfl
    | some a =>
      rw [Option.getD_some, appendValue, hid, putIfAbsent_of_some hold]
      dsimp only
      rw [replace_of_lookup hold]
      cases h : a.hasEnoughResource request <;> simp [h]

end ContinuousSubStore

end ResourceSubStores

namespace ResourceAvailability

open KeyedMap InputMachine ResourceSubStores ResourceStore ResourceTree

variable {C U : Type*} [DecidableEq C] [DecidableEq U]

def isAvailable (s : Store C U) : Resource C → Bool
  | .discrete id => s.discrete.isAvailable id
  | .continuous r => s.continuous.isAvailable r

/-- A discrete resource is registered. A continuous one that is registered with less than it asks
for has no record with enough left. -/
def AvailabilityHolds (s : Store C U) : Resource C → Prop
  | .discrete id => Registered s (.discrete id)
  | .continuous r => ∀ registered, s.continuous.lookup r.id = some registered →
      registered.value < r.value → ∀ a, s.continuous.consumers.lookup r.id = some a →
        ¬a.hasEnoughResource r

theorem bool_eq_and_iff {b c : Bool} : (c = (b && c)) ↔ (c = true → b = true) := by
  cases b <;> cases c <;> simp

theorem isSome_allocate_discrete (s : Store C U) (id : DiscreteResourceId C) (consumerId : U) :
    (s.allocate [.discrete id] consumerId).isSome = (s.discrete.allocate consumerId id).isSome := by
  simp only [Store.allocate, List.foldlM_cons, List.foldlM_nil]
  cases s.discrete.allocate consumerId id <;> rfl

theorem isSome_allocate_continuous (s : Store C U) (r : ContinuousResource C) (consumerId : U) :
    (s.allocate [.continuous r] consumerId).isSome =
      (s.continuous.allocate consumerId r).isSome := by
  simp only [Store.allocate, List.foldlM_cons, List.foldlM_nil]
  cases s.continuous.allocate consumerId r <;> rfl

theorem available_discrete {s : Store C U} (h : AllocatedRegistered s) (id : DiscreteResourceId C)
    (consumerId : U) : isAvailable s (.discrete id) =
      (s.allocate [.discrete id] consumerId).isSome ↔ AvailabilityHolds s (.discrete id) := by
  rw [isSome_allocate_discrete]
  change s.discrete.isAvailable id = (s.discrete.allocate consumerId id).isSome ↔
    (s.discrete.lookup id).isSome = true
  rw [DiscreteSubStore.isAvailable_eq, DiscreteSubStore.isSome_allocate, bool_eq_and_iff]
  constructor
  · intro hfree
    cases hallocated : s.discrete.isAllocated id with
    | true => exact h.discrete id hallocated
    | false => exact hfree (by rw [hallocated]; rfl)
  · exact fun hregistered _ => hregistered

/-- Of a continuous resource the allocation does not ask for the capacity that is registered now,
once there is a record. -/
theorem available_continuous (s : Store C U) (r : ContinuousResource C) (consumerId : U) :
    isAvailable s (.continuous r) = (s.allocate [.continuous r] consumerId).isSome ↔
      AvailabilityHolds s (.continuous r) := by
  rw [isSome_allocate_continuous]
  change s.continuous.isAvailable r = (s.continuous.allocate consumerId r).isSome ↔
    ∀ registered, _ → _ → _
  rw [ContinuousSubStore.isAvailable_eq, ContinuousSubStore.isSome_allocate]
  cases hlookup : s.continuous.lookup r.id with
  | none => exact iff_of_true rfl fun _ hsome => absurd hsome.symm (Option.some_ne_none _)
  | some registered =>
    rw [Option.any_some, Option.any_some]
    cases hrecord : s.continuous.consumers.lookup r.id with
    | none =>
      refine iff_of_true (by simp) fun _ _ _ a hsome => ?_
      exact absurd hsome.symm (Option.some_ne_none a)
    | some a =>
      rw [Option.all_some, Option.elim_some, eq_comm, bool_eq_and_iff, decide_eq_true_iff]
      constructor
      · intro hle x hx hlt b hb henough
        obtain rfl := Option.some.inj hx
        obtain rfl := Option.some.inj hb
        exact absurd (hle henough) (not_le.mpr hlt)
      · intro hnone henough
        by_contra hlt
        exact hnone registered rfl (not_le.mp hlt) a rfl henough

/-- A bandwidth that was allocated and released, and is registered with less than before. -/
example : ¬AvailabilityHolds ((storeMachine : Machine (Store ℕ ℕ) _).run activated
    [.register [.continuous (bandwidth 10)], .allocate [.continuous (bandwidth 3)] 7,
      .release [(.continuous (bandwidth 3), 7)], .unregister [.continuous ⟨[], 0⟩],
      .register [.continuous (bandwidth 5)]]) (.continuous (bandwidth 8)) := by
  intro h
  exact absurd ((available_continuous _ _ 7).mpr h) (by decide +kernel)

end ResourceAvailability

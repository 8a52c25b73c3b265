import Onos.ResourceSubStores
import Onos.Lib.InputMachine
import Mathlib.Algebra.Order.BigOperators.Group.List
import Mathlib.Tactic.Linarith

/-! The resource store. Every operation is a transaction: it runs on the sub-stores in the order
of its arguments, and takes effect as a whole or not at all. -/
namespace ResourceStore

open KeyedMap InputMachine ResourceSubStores

inductive Resource (C : Type*) where
  | discrete (id : DiscreteResourceId C)
  | continuous (r : ContinuousResource C)
  deriving DecidableEq

inductive ResourceId (C : Type*) where
  | discrete (id : DiscreteResourceId C)
  | continuous (id : ContinuousResourceId C)
  deriving DecidableEq

structure Store (C U : Type*) where
  discrete : DiscreteSubStore C U
  continuous : ContinuousSubStore C U

inductive StoreInput (C U : Type*) where
  | register (resources : List (Resource C))
  | unregister (ids : List (ResourceId C))
  | allocate (resources : List (Resource C)) (consumerId : U)
  | release (allocations : List (Resource C × U))

variable {C U : Type*}

def Resource.parent : Resource C → Option (DiscreteResourceId C)
  | .discrete id => id.parent
  | .continuous r => some r.id.parent

def ResourceId.parent : ResourceId C → Option (DiscreteResourceId C)
  | .discrete id => id.parent
  | .continuous id => some id.parent

def discreteResources (resources : List (Resource C)) : List (DiscreteResourceId C) :=
  resources.filterMap fun
    | .discrete id => some id
    | .continuous _ => none

def continuousResources (resources : List (Resource C)) : List (ContinuousResource C) :=
  resources.filterMap fun
    | .discrete _ => none
    | .continuous r => some r

theorem mem_continuousResources (resources : List (Resource C)) (r : ContinuousResource C) :
    r ∈ continuousResources resources ↔ .continuous r ∈ resources := by
  rw [continuousResources]
  rw [List.mem_filterMap]
  constructor
  · rintro ⟨_ | r', hmem, heq⟩
    · cases heq
    · obtain rfl := Option.some.inj heq
      exact hmem
  · exact fun h => ⟨.continuous r, h, rfl⟩

theorem nodup_eraseDups {α : Type*} [BEq α] [LawfulBEq α] (l : List α) : l.eraseDups.Nodup := by
  induction hn : l.length using Nat.strong_induction_on generalizing l with
  | _ n ih =>
    cases l with
    | nil => simp
    | cons a l =>
      rw [List.eraseDups_cons, List.nodup_cons]
      have hle : (l.filter fun b => !b == a).length ≤ l.length := List.length_filter_le _ l
      refine ⟨fun hmem => ?_, ih _ (by simp only [List.length_cons] at hn; omega) _ rfl⟩
      have hmem := (List.mem_filter.mp (List.mem_eraseDups.mp hmem)).2
      simp at hmem

variable [DecidableEq C] [DecidableEq U]

def groupByParent (resources : List (Resource C)) :
    List (DiscreteResourceId C × List (Resource C)) :=
  (resources.filterMap Resource.parent).eraseDups.map fun parent =>
    (parent, resources.filter fun x => x.parent = some parent)

theorem parent_of_group {resources : List (Resource C)}
    {entry : DiscreteResourceId C × List (Resource C)} (h : entry ∈ groupByParent resources) :
    ∀ x ∈ entry.2, x.parent = some entry.1 := by
  obtain ⟨parent, _, rfl⟩ := List.mem_map.mp h
  exact fun x hx => of_decide_eq_true (List.mem_filter.mp hx).2

namespace Store

def registerUnder (s : Store C U) (parent : DiscreteResourceId C)
    (resources : List (Resource C)) : Option (Store C U) := do
  let discrete ← s.discrete.register parent (discreteResources resources).toFinset
  let continuous ← s.continuous.register parent (continuousResources resources).eraseDups
  return ⟨discrete, continuous⟩

def unregisterUnder (s : Store C U) (parent : DiscreteResourceId C)
    (resources : List (Resource C)) : Option (Store C U) := do
  let discrete ← s.discrete.unregister parent (discreteResources resources).toFinset
  let continuous ← s.continuous.unregister parent (continuousResources resources).eraseDups
  return ⟨discrete, continuous⟩

def register (s : Store C U) (resources : List (Resource C)) : Option (Store C U) :=
  (groupByParent resources).foldlM (fun s entry =>
    if (s.discrete.lookup entry.1).isNone then none else s.registerUnder entry.1 entry.2) s

def lookupResource (s : Store C U) : ResourceId C → Option (Resource C)
  | .discrete id => some (.discrete id)
  | .continuous id => (s.continuous.lookup id).map .continuous

def unregister (s : Store C U) (ids : List (ResourceId C)) : Option (Store C U) :=
  let resources := (ids.filter fun x => x.parent.isSome).filterMap s.lookupResource
  (groupByParent resources).foldlM (fun s entry => s.unregisterUnder entry.1 entry.2) s

def allocate (s : Store C U) (resources : List (Resource C)) (consumerId : U) :
    Option (Store C U) :=
  resources.foldlM (fun s resource => match resource with
    | .discrete id => do
      let discrete ← s.discrete.allocate consumerId id
      return { s with discrete := discrete }
    | .continuous r => do
      let continuous ← s.continuous.allocate consumerId r
      return { s with continuous := continuous }) s

def release (s : Store C U) (allocations : List (Resource C × U)) : Option (Store C U) :=
  allocations.foldlM (fun s allocation => match allocation.1 with
    | .discrete id => do
      let discrete ← s.discrete.release allocation.2 id
      return { s with discrete := discrete }
    | .continuous r => do
      let continuous ← s.continuous.release allocation.2 r
      return { s with continuous := continuous }) s

def transaction (s : Store C U) : StoreInput C U → Option (Store C U)
  | .register resources => s.register resources
  | .unregister ids => s.unregister ids
  | .allocate resources consumerId => s.allocate resources consumerId
  | .release allocations => s.release allocations

end Store

def activated : Store C U where
  discrete := ⟨AList.insert [] ∅ ∅, ∅⟩
  continuous := ⟨AList.insert [] [] ∅, ∅⟩

def storeMachine : Machine (Store C U) (StoreInput C U) where
  initial := activated
  enabled _ _ := True
  next s x := (s.transaction x).getD s

section Capacity

/-- Registered resources of one ID come in ascending order, and the record of an ID is within its
own original and the original within what is registered. -/
structure WithinCapacity (s : ContinuousSubStore C U) : Prop where
  ascending : ∀ p, (s.children p).Pairwise fun r r' => r.id = r'.id → r.value ≤ r'.value
  original : ∀ id a, s.consumers.lookup id = some a →
    ∀ r, s.Registered r → r.id = id → a.original.value ≤ r.value
  allocated : ∀ id a, s.consumers.lookup id = some a → a.allocated ≤ a.original.value

variable {s : ContinuousSubStore C U}

omit [DecidableEq U] in
theorem lookup_le (h : WithinCapacity s)
    {id : ContinuousResourceId C} {r r' : ContinuousResource C} (hlookup : s.lookup id = some r)
    (hr' : s.Registered r') (hid : r'.id = id) : r.value ≤ r'.value := by
  have hrid := (ContinuousSubStore.registered_of_lookup hlookup).2
  rw [ContinuousSubStore.lookup_eq_find] at hlookup
  obtain ⟨_, before, after, hchildren, hbefore⟩ := List.find?_eq_some_iff_append.mp hlookup
  have hascending := h.ascending id.parent
  rw [ContinuousSubStore.Registered, hid, hchildren] at hr'
  rw [hchildren] at hascending
  rcases List.mem_append.mp hr' with hmem | hmem
  · exact absurd (decide_eq_true hid) (by simpa using hbefore r' hmem)
  · rcases List.mem_cons.mp hmem with rfl | hmem
    · exact le_rfl
    · have hafter := (List.pairwise_append.mp hascending).2.1
      exact (List.pairwise_cons.mp hafter).1 r' hmem (hrid.trans hid.symm)

section

omit [DecidableEq C] [DecidableEq U]

theorem allocated_allocate (a : ContinuousResourceAllocation C U) (x : ResourceAllocation C U) :
    (a.allocate x).allocated = a.allocated + x.resource.value := by
  simp [ContinuousResourceAllocation.allocated, ContinuousResourceAllocation.allocate]

theorem sum_le_of_sublist {l l' : List (ResourceAllocation C U)} (h : l.Sublist l') :
    (l.map fun x => x.resource.value).sum ≤ (l'.map fun x => x.resource.value).sum := by
  refine List.Sublist.sum_le_sum (h.map _) fun v hv => ?_
  obtain ⟨x, _, rfl⟩ := List.mem_map.mp hv
  exact x.resource.nonneg

end

omit [DecidableEq C] in
theorem allocated_release (a : ContinuousResourceAllocation C U) (resource : ContinuousResource C)
    (consumerId : U) : (a.release resource consumerId).allocated ≤ a.allocated := by
  unfold ContinuousResourceAllocation.release ContinuousResourceAllocation.allocated
  dsimp only
  generalize ContinuousResourceAllocation.isMatch resource consumerId = isMatch
  have hperm := (List.filter_append_perm isMatch a.allocations).map fun x => x.resource.value
  have htail : ∀ l : List (ResourceAllocation C U),
      (l.tail.map fun x => x.resource.value).sum ≤ (l.map fun x => x.resource.value).sum :=
    fun l => sum_le_of_sublist l.tail_sublist
  rw [← hperm.sum_eq, List.map_append, List.map_append, List.sum_append, List.sum_append,
    add_comm]
  exact add_le_add_left (htail _) _

variable {s' : ContinuousSubStore C U}

omit [DecidableEq U] in
theorem withinCapacity_of_sublist (h : WithinCapacity s) (hconsumers : s'.consumers = s.consumers)
    (hsub : ∀ p, (s'.children p).Sublist (s.children p)) : WithinCapacity s' := by
  constructor
  · exact fun p => (h.ascending p).sublist (hsub p)
  · intro id a ha r hr
    rw [hconsumers] at ha
    exact h.original id a ha r ((hsub _).subset hr)
  · intro id a ha
    rw [hconsumers] at ha
    exact h.allocated id a ha

/-- The resources fit what the store holds: those of an ID that is not registered come in
ascending order, and are not below what an earlier record of the ID remembers. -/
def Fits (s : ContinuousSubStore C U) (resources : List (ContinuousResource C)) : Prop :=
  (∀ r ∈ resources, s.lookup r.id = none →
    ∀ a ∈ s.consumers.lookup r.id, a.original.value ≤ r.value) ∧
  resources.Pairwise fun r r' => s.lookup r.id = none → r.id = r'.id → r.value ≤ r'.value

instance (s : ContinuousSubStore C U) (resources : List (ContinuousResource C)) :
    Decidable (Fits s resources) := inferInstanceAs (Decidable (_ ∧ _))

variable {parent : DiscreteResourceId C} {resources : List (ContinuousResource C)}

section

omit [DecidableEq U]

theorem withinCapacity_register (h : WithinCapacity s)

    (hparent : ∀ r ∈ resources, r.id.parent = parent) (hfits : Fits s resources)
    (hr : s.register parent resources = some s') : WithinCapacity s' := by
  obtain ⟨hconsumers, added, hsub, hnew, hchildren⟩ := ContinuousSubStore.register_cases hr
  have hnone : ∀ r ∈ added, s.lookup r.id = none := by
    intro r hr
    refine ContinuousSubStore.lookup_eq_none.mpr fun y hy hid => hnew r hr y ?_ hid
    rw [ContinuousSubStore.Registered, hid, hparent r (hsub.subset hr)] at hy
    exact hy
  constructor
  · intro p
    rw [hchildren]
    split_ifs with hp
    · refine List.pairwise_append.mpr ⟨h.ascending p, ?_, fun y hy r hr hid => ?_⟩
      · exact (hfits.2.sublist hsub).imp_of_mem fun hr _ hle hid => hle (hnone _ hr) hid
      · exact absurd hid (hnew r hr y (hp ▸ hy))
    · rw [List.append_nil]
      exact h.ascending p
  · intro id a ha r hreg hid
    rw [hconsumers] at ha
    rw [ContinuousSubStore.Registered, hchildren] at hreg
    rcases List.mem_append.mp hreg with hold | hadded
    · exact h.original id a ha r hold hid
    · split_ifs at hadded
      · rw [← hid] at ha
        exact hfits.1 r (hsub.subset hadded) (hnone r hadded) a ha
      · exact absurd hadded List.not_mem_nil
  · intro id a ha
    rw [hconsumers] at ha
    exact h.allocated id a ha

theorem registered_of_childMap (h : s'.childMap = s.childMap)
    {r : ContinuousResource C} (hr : s'.Registered r) : s.Registered r := by
  unfold ContinuousSubStore.Registered ContinuousSubStore.children at hr ⊢
  rw [← h]
  exact hr

theorem withinCapacity_record (h : WithinCapacity s)
    (hchild : s'.childMap = s.childMap) {id : ContinuousResourceId C}
    {a : ContinuousResourceAllocation C U} (hconsumers : s'.consumers = s.consumers.insert id a)
    (horiginal : ∀ r, s.Registered r → r.id = id → a.original.value ≤ r.value)
    (hallocated : a.allocated ≤ a.original.value) : WithinCapacity s' := by
  have hrecord : ∀ j b, s'.consumers.lookup j = some b →
      (j = id ∧ b = a) ∨ s.consumers.lookup j = some b := by
    intro j b hb
    rw [hconsumers, lookup_insert] at hb
    split_ifs at hb with hj
    · exact Or.inl ⟨hj, (Option.some.inj hb).symm⟩
    · exact Or.inr hb
  constructor
  · intro p
    rw [ContinuousSubStore.children, hchild]
    exact h.ascending p
  · intro j b hb r hr hid
    have hr := registered_of_childMap hchild hr
    rcases hrecord j b hb with ⟨rfl, rfl⟩ | hold
    · exact horiginal r hr hid
    · exact h.original j b hold r hr hid
  · intro j b hb
    rcases hrecord j b hb with ⟨rfl, rfl⟩ | hold
    · exact hallocated
    · exact h.allocated j b hold

end

variable {consumerId : U}

theorem withinCapacity_allocate (h : WithinCapacity s) {request : ContinuousResource C}
    (ha : s.allocate consumerId request = some s') : WithinCapacity s' := by
  obtain ⟨hchild, original, hlookup, a, hrecord, henough, hconsumers⟩ :=
    ContinuousSubStore.allocate_cases ha
  refine withinCapacity_record h hchild hconsumers (fun r hr hrid => ?_) ?_
  · have horiginal : (a.allocate ⟨request, consumerId⟩).original = a.original := rfl
    rw [horiginal, hrecord]
    cases hold : s.consumers.lookup request.id with
    | none => exact lookup_le h hlookup hr hrid
    | some b => exact h.original request.id b hold r hr hrid
  · rw [allocated_allocate]
    change a.allocated + request.value ≤ a.original.value
    linarith

theorem withinCapacity_release (h : WithinCapacity s) {resource : ContinuousResource C}
    (hr : s.release consumerId resource = some s') : WithinCapacity s' := by
  obtain ⟨hchild, a, ha, hconsumers⟩ := ContinuousSubStore.release_cases hr
  refine withinCapacity_record h hchild hconsumers (h.original resource.id a ha) ?_
  exact (allocated_release a resource consumerId).trans (h.allocated resource.id a ha)

theorem foldlM_keeps {σ α : Type*} {f : σ → α → Option σ} {l : List α} (P : σ → Prop)
    (hstep : ∀ s, ∀ a ∈ l, ∀ s', P s → f s a = some s' → P s') {s s' : σ}
    (hfold : l.foldlM f s = some s') (h : P s) : P s' := by
  induction l generalizing s with
  | nil => exact Option.some.inj hfold ▸ h
  | cons a l ih =>
    rw [List.foldlM_cons] at hfold
    obtain ⟨t, ht, hrest⟩ := Option.bind_eq_some_iff.mp hfold
    exact ih (fun s b hb => hstep s b (List.mem_cons_of_mem _ hb)) hrest
      (hstep s a List.mem_cons_self t h ht)

structure Extends (s s' : ContinuousSubStore C U) : Prop where
  consumers : s'.consumers = s.consumers
  registered : ∀ r, s.Registered r → s'.Registered r

section

omit [DecidableEq U]

theorem Extends.trans {s t u : ContinuousSubStore C U} (h : Extends s t) (h' : Extends t u) :
    Extends s u :=
  ⟨h'.consumers.trans h.consumers, fun r hr => h'.registered r (h.registered r hr)⟩

theorem extends_register (h : s.register parent resources = some s') : Extends s s' := by
  obtain ⟨hconsumers, added, _, _, hchildren⟩ := ContinuousSubStore.register_cases h
  refine ⟨hconsumers, fun r hr => ?_⟩
  rw [ContinuousSubStore.Registered, hchildren]
  exact List.mem_append_left _ hr

theorem fits_of_extends (h : Extends s s') (hfits : Fits s resources) : Fits s' resources := by
  have hnone : ∀ id, s'.lookup id = none → s.lookup id = none := by
    intro id hid
    rw [ContinuousSubStore.lookup_eq_none] at hid ⊢
    exact fun r hr => hid r (h.registered r hr)
  refine ⟨fun r hr hunregistered a ha => ?_, ?_⟩
  · rw [h.consumers] at ha
    exact hfits.1 r hr (hnone r.id hunregistered) a ha
  · exact hfits.2.imp fun hle hunregistered => hle (hnone _ hunregistered)

theorem extends_registerUnder {s s' : Store C U}
    {group : List (Resource C)} (hr : s.registerUnder parent group = some s')
    (h : WithinCapacity s.continuous) (hparent : ∀ x ∈ group, x.parent = some parent)
    (hfits : Fits s.continuous (continuousResources group).eraseDups) :
    Extends s.continuous s'.continuous ∧ WithinCapacity s'.continuous := by
  obtain ⟨discrete, _, hr⟩ := Option.bind_eq_some_iff.mp hr
  obtain ⟨continuous, hcontinuous, hr⟩ := Option.bind_eq_some_iff.mp hr
  obtain rfl := Option.some.inj hr
  refine ⟨extends_register hcontinuous, withinCapacity_register h ?_ hfits hcontinuous⟩
  intro r hr
  have hmem := (mem_continuousResources group r).mp (List.mem_eraseDups.mp hr)
  exact Option.some.inj (hparent _ hmem)

theorem register_keeps {s s' : Store C U} {resources : List (Resource C)}
    (hr : s.register resources = some s') (h : WithinCapacity s.continuous)
    (hfits : ∀ entry ∈ groupByParent resources,
      Fits s.continuous (continuousResources entry.2).eraseDups) :
    WithinCapacity s'.continuous := by
  have hkeeps : Extends s.continuous s'.continuous ∧ WithinCapacity s'.continuous := by
    refine foldlM_keeps (fun t : Store C U => Extends s.continuous t.continuous ∧
      WithinCapacity t.continuous) (fun t entry hentry t' ht hstep => ?_) hr
      ⟨⟨rfl, fun _ hr => hr⟩, h⟩
    obtain ⟨hext, ht⟩ := ht
    have hparent := parent_of_group hentry
    split_ifs at hstep
    obtain ⟨hext', ht'⟩ := extends_registerUnder hstep ht hparent
      (fits_of_extends hext (hfits entry hentry))
    exact ⟨hext.trans hext', ht'⟩
  exact hkeeps.2

theorem unregister_keeps {s s' : Store C U} {ids : List (ResourceId C)}
    (hu : s.unregister ids = some s') (h : WithinCapacity s.continuous) :
    WithinCapacity s'.continuous := by
  refine foldlM_keeps (fun t : Store C U => WithinCapacity t.continuous)
    (fun t entry _ t' ht hstep => ?_) hu h
  obtain ⟨discrete, _, hstep⟩ := Option.bind_eq_some_iff.mp hstep
  obtain ⟨continuous, hcontinuous, hstep⟩ := Option.bind_eq_some_iff.mp hstep
  obtain rfl := Option.some.inj hstep
  rcases t.continuous.unregister_cases entry.1 (continuousResources entry.2).eraseDups with
    ⟨_, hnone⟩ | ⟨_, found, hfound, hconsumers, hchildren⟩
  · rw [hnone] at hcontinuous
    cases hcontinuous
  · obtain rfl := Option.some.inj (hcontinuous.symm.trans hfound)
    refine withinCapacity_of_sublist ht hconsumers fun p => ?_
    rw [hchildren]
    exact List.filter_sublist

end

theorem allocate_keeps {s s' : Store C U} {resources : List (Resource C)}
    (ha : s.allocate resources consumerId = some s') (h : WithinCapacity s.continuous) :
    WithinCapacity s'.continuous := by
  refine foldlM_keeps (fun t : Store C U => WithinCapacity t.continuous)
    (fun t resource _ t' ht hstep => ?_) ha h
  cases resource with
  | discrete id =>
    obtain ⟨discrete, _, hstep⟩ := Option.bind_eq_some_iff.mp hstep
    obtain rfl := Option.some.inj hstep
    exact ht
  | continuous r =>
    obtain ⟨continuous, hcontinuous, hstep⟩ := Option.bind_eq_some_iff.mp hstep
    obtain rfl := Option.some.inj hstep
    exact withinCapacity_allocate ht hcontinuous

theorem release_keeps {s s' : Store C U} {allocations : List (Resource C × U)}
    (hr : s.release allocations = some s') (h : WithinCapacity s.continuous) :
    WithinCapacity s'.continuous := by
  refine foldlM_keeps (fun t : Store C U => WithinCapacity t.continuous)
    (fun t allocation _ t' ht hstep => ?_) hr h
  obtain ⟨resource, consumerId⟩ := allocation
  cases resource with
  | discrete id =>
    obtain ⟨discrete, _, hstep⟩ := Option.bind_eq_some_iff.mp hstep
    obtain rfl := Option.some.inj hstep
    exact ht
  | continuous r =>
    obtain ⟨continuous, hcontinuous, hstep⟩ := Option.bind_eq_some_iff.mp hstep
    obtain rfl := Option.some.inj hstep
    exact withinCapacity_release ht hcontinuous

/-- A registration fits, under each of its parents; the other operations are free. -/
def Consistent (s : Store C U) : StoreInput C U → Prop
  | .register resources => ∀ entry ∈ groupByParent resources,
    Fits s.continuous (continuousResources entry.2).eraseDups
  | _ => True

instance (s : Store C U) (x : StoreInput C U) : Decidable (Consistent s x) :=
  match x with
  | .register resources => inferInstanceAs (Decidable (∀ entry ∈ groupByParent resources, _))
  | .unregister _ => isTrue trivial
  | .allocate _ _ => isTrue trivial
  | .release _ => isTrue trivial

theorem withinCapacity_transaction {s s' : Store C U} {x : StoreInput C U}
    (hx : s.transaction x = some s') (h : WithinCapacity s.continuous) (hok : Consistent s x) :
    WithinCapacity s'.continuous := by
  cases x with
  | register resources => exact register_keeps hx h hok
  | unregister ids => exact unregister_keeps hx h
  | allocate resources consumerId => exact allocate_keeps hx h
  | release allocations => exact release_keeps hx h

theorem withinCapacity_next {s : Store C U} {x : StoreInput C U}
    (h : WithinCapacity s.continuous) (hok : Consistent s x) :
    WithinCapacity (storeMachine.next s x).continuous := by
  change WithinCapacity ((s.transaction x).getD s).continuous
  cases hx : s.transaction x with
  | none => exact h
  | some s' => exact withinCapacity_transaction hx h hok

section

omit [DecidableEq U]

theorem withinCapacity_activated : WithinCapacity (activated : Store C U).continuous := by
  have hchildren : ∀ p, (activated : Store C U).continuous.children p = [] := by
    intro p
    unfold activated ContinuousSubStore.children
    rw [lookup_insert]
    split_ifs <;> rfl
  have hunregistered : ∀ r, ¬ (activated : Store C U).continuous.Registered r := by
    intro r hr
    rw [ContinuousSubStore.Registered, hchildren] at hr
    exact List.not_mem_nil hr
  constructor
  · intro p
    rw [hchildren]
    exact List.Pairwise.nil
  · exact fun _ _ _ r hr _ => absurd hr (hunregistered r)
  · exact fun id a ha => by simp [activated] at ha

theorem getResourceAllocations_le (h : WithinCapacity s)
    {r : ContinuousResource C} (hr : s.Registered r) :
    ((s.getResourceAllocations r.id).map fun x => x.resource.value).sum ≤ r.value := by
  rw [ContinuousSubStore.getResourceAllocations]
  cases ha : s.consumers.lookup r.id with
  | none => exact r.nonneg
  | some a =>
    calc ((a.allocations.filter fun x => x.resource.id = r.id).map fun x => x.resource.value).sum
        ≤ a.allocated := sum_le_of_sublist List.filter_sublist
      _ ≤ a.original.value := h.allocated r.id a ha
      _ ≤ r.value := h.original r.id a ha r hr rfl

end

theorem never_overallocated {xs : List (StoreInput C U)}
    (hv : (storeMachine.guarded Consistent).Valid storeMachine.initial xs)
    {r : ContinuousResource C}
    (hr : (storeMachine.run storeMachine.initial xs).continuous.Registered r) :
    (((storeMachine.run storeMachine.initial xs).continuous.getResourceAllocations r.id).map
      fun x => x.resource.value).sum ≤ r.value := by
  have hstep : ∀ (s : Store C U) x, WithinCapacity s.continuous →
      (storeMachine.guarded Consistent).enabled s x →
      WithinCapacity (storeMachine.next s x).continuous :=
    fun s x h hx => withinCapacity_next h hx.2
  have hcapacity : WithinCapacity (storeMachine.run storeMachine.initial xs).continuous :=
    invariant_run (fun s : Store C U => WithinCapacity s.continuous) hstep hv
      withinCapacity_activated
  exact getResourceAllocations_le hcapacity hr

end Capacity

section Regression

def bandwidth (value : ℕ) : ContinuousResource ℕ := ⟨⟨[], 0⟩, value, by positivity⟩

def reregistration : List (StoreInput ℕ ℕ) :=
  [.register [.continuous (bandwidth 10)], .allocate [.continuous (bandwidth 3)] 7,
    .release [(.continuous (bandwidth 3), 7)], .unregister [.continuous ⟨[], 0⟩],
    .register [.continuous (bandwidth 5)], .allocate [.continuous (bandwidth 8)] 7]

theorem capacity_exceeded_after_reregistration :
    let s := storeMachine.run storeMachine.initial reregistration
    storeMachine.Valid storeMachine.initial reregistration ∧
    bandwidth 5 ∈ s.continuous.children [] ∧
    ¬ ((s.continuous.getResourceAllocations (bandwidth 5).id).map
      fun x => x.resource.value).sum ≤ (bandwidth 5).value := by
  refine ⟨?_, by decide +kernel, by decide +kernel⟩
  simp [reregistration, storeMachine]

def registration : List (StoreInput ℕ ℕ) :=
  [.register [.continuous (bandwidth 10)], .allocate [.continuous (bandwidth 8)] 7]

theorem never_overallocated_once : let s := storeMachine.run storeMachine.initial registration
    ((s.continuous.getResourceAllocations (bandwidth 10).id).map
      fun x => x.resource.value).sum ≤ (bandwidth 10).value := by
  have hregistered : bandwidth 10 ∈
      (storeMachine.run storeMachine.initial registration).continuous.children [] := by
    decide +kernel
  have hv : (storeMachine.guarded Consistent).Valid storeMachine.initial registration :=
    ⟨⟨trivial, by decide⟩, ⟨trivial, trivial⟩, trivial⟩
  exact never_overallocated hv hregistered

end Regression

end ResourceStore

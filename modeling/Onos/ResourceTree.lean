import Onos.ResourceStore

/-! The tree of registered resources. A registration asks for the parent, an unregistration only
for the allocations, so it may take a resource away and leave its children. -/
namespace ResourceTree

open KeyedMap InputMachine ResourceSubStores ResourceStore

variable {C U : Type*} [DecidableEq C] [DecidableEq U]

def Registered (s : Store C U) : Resource C → Prop
  | .discrete id => (s.discrete.lookup id).isSome
  | .continuous r => s.continuous.Registered r

def IsAllocated (s : Store C U) : Resource C → Prop
  | .discrete id => s.discrete.isAllocated id
  | .continuous r => s.continuous.isAllocated r.id

instance (s : Store C U) : (x : Resource C) → Decidable (Registered s x)
  | .discrete id => inferInstanceAs (Decidable ((s.discrete.lookup id).isSome = true))
  | .continuous r => inferInstanceAs (Decidable (r ∈ s.continuous.children r.id.parent))

instance (s : Store C U) : (x : Resource C) → Decidable (IsAllocated s x)
  | .discrete id => inferInstanceAs (Decidable (s.discrete.isAllocated id = true))
  | .continuous r => inferInstanceAs (Decidable (s.continuous.isAllocated r.id = true))

def TreeClosed (s : Store C U) : Prop :=
  ∀ x p, Registered s x → x.parent = some p → Registered s (.discrete p)

structure AllocatedRegistered (s : Store C U) : Prop where
  discrete : ∀ id, s.discrete.isAllocated id → Registered s (.discrete id)
  continuous : ∀ id, s.continuous.isAllocated id → ∃ r, r.id = id ∧ Registered s (.continuous r)

def unregistered (s : Store C U) (ids : List (ResourceId C)) : List (Resource C) :=
  (ids.filter fun x => x.parent.isSome).filterMap s.lookupResource

/-- An unregistration that is not refused takes the registered children of a resource along. -/
def TakesChildren (s : Store C U) : StoreInput C U → Prop
  | .unregister ids => (∀ x ∈ unregistered s ids, ¬ IsAllocated s x) →
    ∀ x p, Registered s x → x.parent = some p → .discrete p ∈ unregistered s ids →
      x ∈ unregistered s ids
  | _ => True

section Registered

section

omit [DecidableEq U]

theorem registered_discrete (s : Store C U) (id : DiscreteResourceId C) :
    Registered s (.discrete id) ↔ ∀ p, id.parent = some p → id ∈ s.discrete.children p :=
  s.discrete.lookup_isSome id

theorem registered_congr {s s' : Store C U} (hdiscrete : s'.discrete.childMap = s.discrete.childMap)
    (hcontinuous : s'.continuous.childMap = s.continuous.childMap) (x : Resource C) :
    Registered s' x ↔ Registered s x := by
  cases x with
  | discrete id =>
    rw [registered_discrete, registered_discrete]
    unfold DiscreteSubStore.children
    rw [hdiscrete]
  | continuous r =>
    unfold Registered ContinuousSubStore.Registered ContinuousSubStore.children
    dsimp only
    rw [hcontinuous]

end

omit [DecidableEq C] in
theorem mem_discreteResources (resources : List (Resource C)) (id : DiscreteResourceId C) :
    id ∈ discreteResources resources ↔ .discrete id ∈ resources := by
  rw [discreteResources]
  rw [List.mem_filterMap]
  constructor
  · rintro ⟨id' | _, hmem, heq⟩
    · obtain rfl := Option.some.inj heq
      exact hmem
    · cases heq
  · exact fun h => ⟨.discrete id, h, rfl⟩

omit [DecidableEq U] in
theorem isAllocated_congr {s s' : Store C U}
    (hdiscrete : s'.discrete.consumers = s.discrete.consumers)
    (hcontinuous : s'.continuous.consumers = s.continuous.consumers) (x : Resource C) :
    IsAllocated s' x ↔ IsAllocated s x := by
  cases x with
  | discrete id =>
    unfold IsAllocated DiscreteSubStore.isAllocated
    dsimp only
    rw [hdiscrete]
  | continuous r =>
    unfold IsAllocated ContinuousSubStore.isAllocated
    dsimp only
    rw [hcontinuous]

end Registered

section Register

structure Registers (s s' : Store C U) (group : List (Resource C)) : Prop where
  discrete : s'.discrete.consumers = s.discrete.consumers
  continuous : s'.continuous.consumers = s.continuous.consumers
  kept : ∀ x, Registered s x → Registered s' x
  added : ∀ x, Registered s' x → Registered s x ∨ x ∈ group

variable {s s' : Store C U}

omit [DecidableEq U]

theorem registerUnder_registers {parent : DiscreteResourceId C}
    {group : List (Resource C)} (hr : s.registerUnder parent group = some s') :
    Registers s s' group := by
  obtain ⟨discrete, hdiscrete, hr⟩ := Option.bind_eq_some_iff.mp hr
  obtain ⟨continuous, hcontinuous, hr⟩ := Option.bind_eq_some_iff.mp hr
  obtain rfl := Option.some.inj hr
  obtain ⟨found, hfound, hconsumers, hchildren⟩ := s.discrete.register_cases parent
    (discreteResources group).toFinset
  obtain rfl := Option.some.inj (hdiscrete.symm.trans hfound)
  obtain ⟨hconsumers', added, hsub, _, hchildren'⟩ :=
    ContinuousSubStore.register_cases hcontinuous
  refine ⟨hconsumers, hconsumers', fun x hx => ?_, fun x hx => ?_⟩
  · cases x with
    | discrete id =>
      rw [registered_discrete] at hx ⊢
      intro p hp
      rw [hchildren]
      exact Finset.mem_union_left _ (hx p hp)
    | continuous r =>
      change r ∈ continuous.children r.id.parent
      rw [hchildren']
      exact List.mem_append_left _ hx
  · cases x with
    | discrete id =>
      by_cases hmem : .discrete id ∈ group
      · exact Or.inr hmem
      · left
        rw [registered_discrete] at hx ⊢
        intro p hp
        have hnew := hx p hp
        rw [hchildren] at hnew
        rcases Finset.mem_union.mp hnew with hold | hadded
        · exact hold
        · split_ifs at hadded
          · exact absurd ((mem_discreteResources group id).mp (List.mem_toFinset.mp hadded)) hmem
          · exact absurd hadded (Finset.notMem_empty id)
    | continuous r =>
      change r ∈ continuous.children r.id.parent at hx
      rw [hchildren'] at hx
      rcases List.mem_append.mp hx with hold | hadded
      · exact Or.inl hold
      · split_ifs at hadded
        · have hmem := List.mem_eraseDups.mp (hsub.subset hadded)
          exact Or.inr ((mem_continuousResources group r).mp hmem)
        · exact absurd hadded List.not_mem_nil

theorem treeClosed_registers {parent : DiscreteResourceId C}
    {group : List (Resource C)} (h : TreeClosed s) (hr : Registers s s' group)
    (hparent : Registered s (.discrete parent)) (hgroup : ∀ x ∈ group, x.parent = some parent) :
    TreeClosed s' := by
  intro x p hx hp
  rcases hr.added x hx with hold | hmem
  · exact hr.kept _ (h x p hold hp)
  · obtain rfl := Option.some.inj ((hgroup x hmem).symm.trans hp)
    exact hr.kept _ hparent

theorem allocatedRegistered_kept (h : AllocatedRegistered s)
    (hdiscrete : s'.discrete.consumers = s.discrete.consumers)
    (hcontinuous : s'.continuous.consumers = s.continuous.consumers)
    (hkept : ∀ x, Registered s x → IsAllocated s x → Registered s' x) :
    AllocatedRegistered s' := by
  have hsame := isAllocated_congr hdiscrete hcontinuous
  refine ⟨fun id hid => ?_, fun id hid => ?_⟩
  · have hid : s.discrete.isAllocated id := (hsame (.discrete id)).mp hid
    exact hkept _ (h.discrete id hid) hid
  · rw [ContinuousSubStore.isAllocated] at hid
    rw [hcontinuous] at hid
    obtain ⟨r, rfl, hregistered⟩ := h.continuous id hid
    exact ⟨r, rfl, hkept _ hregistered hid⟩

theorem treeClosed_register {resources : List (Resource C)}
    (hr : s.register resources = some s') (h : TreeClosed s) : TreeClosed s' := by
  refine foldlM_keeps TreeClosed (fun t entry hentry t' ht hstep => ?_) hr h
  split_ifs at hstep with hmissing
  refine treeClosed_registers ht (registerUnder_registers hstep) ?_ (parent_of_group hentry)
  rw [Option.isNone_iff_eq_none, ← ne_eq, Option.ne_none_iff_isSome] at hmissing
  exact hmissing

theorem allocatedRegistered_register {resources : List (Resource C)}
    (hr : s.register resources = some s') (h : AllocatedRegistered s) :
    AllocatedRegistered s' := by
  refine foldlM_keeps AllocatedRegistered (fun t entry hentry t' ht hstep => ?_) hr h
  split_ifs at hstep
  have hregisters := registerUnder_registers hstep
  exact allocatedRegistered_kept ht hregisters.discrete hregisters.continuous
    fun x hx _ => hregisters.kept x hx

end Register

section Unregister

structure Unregisters (s s' : Store C U) (resources : List (Resource C)) : Prop where
  discrete : s'.discrete.consumers = s.discrete.consumers
  continuous : s'.continuous.consumers = s.continuous.consumers
  registered : ∀ x p, x.parent = some p →
    (Registered s' x ↔ Registered s x ∧ x ∉ resources)

section

omit [DecidableEq U]

theorem unregisterUnder_cases (s : Store C U) {parent : DiscreteResourceId C}
    {group : List (Resource C)} (hgroup : ∀ x ∈ group, x.parent = some parent) :
    ((∃ x ∈ group, IsAllocated s x) ∧ s.unregisterUnder parent group = none) ∨
    ((∀ x ∈ group, ¬ IsAllocated s x) ∧
      ∃ s', s.unregisterUnder parent group = some s' ∧ Unregisters s s' group) := by
  rw [Store.unregisterUnder]
  rcases s.discrete.unregister_cases parent (discreteResources group).toFinset with
    ⟨⟨id, hid, hallocated⟩, hnone⟩ | ⟨hdiscrete, discrete, hsome, hconsumers, hchildren⟩
  · rw [hnone]
    exact Or.inl ⟨⟨_, (mem_discreteResources group id).mp (List.mem_toFinset.mp hid),
      hallocated⟩, rfl⟩
  · rw [hsome]
    rcases s.continuous.unregister_cases parent (continuousResources group).eraseDups with
      ⟨⟨r, hr, hallocated⟩, hnone⟩ | ⟨hcontinuous, continuous, hsome', hconsumers', hchildren'⟩
    · left
      refine ⟨⟨_, (mem_continuousResources group r).mp (List.mem_eraseDups.mp hr),
        hallocated⟩, ?_⟩
      simp [hnone]
    · right
      refine ⟨fun x hx => ?_, ⟨discrete, continuous⟩, by simp [hsome'],
        hconsumers, hconsumers', fun x p hp => ?_⟩
      · cases x with
        | discrete id =>
          exact hdiscrete id (List.mem_toFinset.mpr ((mem_discreteResources group id).mpr hx))
        | continuous r =>
          exact hcontinuous r (List.mem_eraseDups.mpr ((mem_continuousResources group r).mpr hx))
      · cases x with
        | discrete id =>
          have hp : id.parent = some p := hp
          have hone : ∀ t : Store C U, Registered t (.discrete id) ↔ id ∈ t.discrete.children p := by
            intro t
            rw [registered_discrete]
            exact ⟨fun h => h p hp, fun h q hq => Option.some.inj (hp.symm.trans hq) ▸ h⟩
          rw [hone, hone, hchildren, Finset.mem_sdiff]
          split_ifs with hparent
          · rw [List.mem_toFinset, mem_discreteResources]
          · have habsent : .discrete id ∉ group := fun hmem =>
              hparent (Option.some.inj (hp.symm.trans (hgroup _ hmem)))
            simp [habsent]
        | continuous r =>
          change r ∈ continuous.children r.id.parent ↔ r ∈ s.continuous.children r.id.parent ∧ _
          rw [hchildren', List.mem_filter, decide_eq_true_iff, not_and, List.mem_eraseDups,
            mem_continuousResources]
          refine and_congr_right fun _ => ⟨fun h hmem => ?_, fun h _ => h⟩
          exact h (Option.some.inj (hgroup _ hmem)) hmem

theorem unregisters_append {s t u : Store C U} {resources resources' : List (Resource C)}
    (h : Unregisters s t resources) (h' : Unregisters t u resources') :
    Unregisters s u (resources ++ resources') := by
  refine ⟨h'.discrete.trans h.discrete, h'.continuous.trans h.continuous, fun x p hp => ?_⟩
  rw [h'.registered x p hp, h.registered x p hp, List.mem_append, not_or, and_assoc]

theorem unregisterGroups_cases (s : Store C U)
    (entries : List (DiscreteResourceId C × List (Resource C)))
    (hgroup : ∀ e ∈ entries, ∀ x ∈ e.2, x.parent = some e.1) :
    ((∃ x ∈ entries.flatMap Prod.snd, IsAllocated s x) ∧
      entries.foldlM (fun s e => s.unregisterUnder e.1 e.2) s = none) ∨
    ((∀ x ∈ entries.flatMap Prod.snd, ¬ IsAllocated s x) ∧
      ∃ s', entries.foldlM (fun s e => s.unregisterUnder e.1 e.2) s = some s' ∧
        Unregisters s s' (entries.flatMap Prod.snd)) := by
  induction entries generalizing s with
  | nil =>
    right
    refine ⟨fun x hx => absurd hx List.not_mem_nil, s, rfl, rfl, rfl, fun x p _ => ?_⟩
    simp
  | cons e entries ih =>
    rw [List.foldlM_cons, List.flatMap_cons]
    rcases unregisterUnder_cases s (hgroup e List.mem_cons_self) with
      ⟨⟨x, hx, hallocated⟩, hnone⟩ | ⟨hfree, t, hsome, ht⟩
    · rw [hnone]
      exact Or.inl ⟨⟨x, List.mem_append_left _ hx, hallocated⟩, rfl⟩
    · rw [hsome, Option.bind_eq_bind, Option.bind_some]
      have hsame := isAllocated_congr ht.discrete ht.continuous
      rcases ih t (fun e' he' => hgroup e' (List.mem_cons_of_mem e he')) with
        ⟨⟨x, hx, hallocated⟩, hnone⟩ | ⟨hfree', u, hsome', hu⟩
      · exact Or.inl ⟨⟨x, List.mem_append_right _ hx, (hsame x).mp hallocated⟩, hnone⟩
      · right
        refine ⟨fun x hx => ?_, u, hsome', unregisters_append ht hu⟩
        rcases List.mem_append.mp hx with hhead | hrest
        · exact hfree x hhead
        · exact fun hallocated => hfree' x hrest ((hsame x).mpr hallocated)

end

theorem mem_groups (resources : List (Resource C)) (x : Resource C) (hparent : x.parent.isSome) :
    x ∈ (groupByParent resources).flatMap Prod.snd ↔ x ∈ resources := by
  obtain ⟨p, hp⟩ := Option.isSome_iff_exists.mp hparent
  rw [List.mem_flatMap]
  constructor
  · rintro ⟨e, he, hx⟩
    obtain ⟨q, _, rfl⟩ := List.mem_map.mp he
    exact (List.mem_filter.mp hx).1
  · intro hx
    refine ⟨_, List.mem_map.mpr ⟨p, ?_, rfl⟩, ?_⟩
    · exact List.mem_eraseDups.mpr (List.mem_filterMap.mpr ⟨x, hx, hp⟩)
    · exact List.mem_filter.mpr ⟨hx, decide_eq_true hp⟩

variable {x : Resource C}

theorem groups_parent (resources : List (Resource C))
    (hx : x ∈ (groupByParent resources).flatMap Prod.snd) : x.parent.isSome := by
  obtain ⟨e, he, hx⟩ := List.mem_flatMap.mp hx
  rw [parent_of_group he x hx]
  rfl

section

omit [DecidableEq U]

theorem unregistered_parent (s : Store C U) (ids : List (ResourceId C))
    (hx : x ∈ unregistered s ids) : x.parent.isSome := by
  obtain ⟨id, hid, hlookup⟩ := List.mem_filterMap.mp hx
  cases x with
  | discrete id' =>
    cases id with
    | discrete id =>
      obtain rfl : id = id' := Resource.discrete.inj (Option.some.inj hlookup)
      exact (List.mem_filter.mp hid).2
    | continuous id =>
      obtain ⟨_, _, hcontinuous⟩ := Option.map_eq_some_iff.mp hlookup
      cases hcontinuous
  | continuous r => rfl

theorem unregister_cases (s : Store C U) (ids : List (ResourceId C)) :
    ((∃ x ∈ unregistered s ids, IsAllocated s x) ∧ s.unregister ids = none) ∨
    ((∀ x ∈ unregistered s ids, ¬ IsAllocated s x) ∧
      ∃ s', s.unregister ids = some s' ∧ Unregisters s s' (unregistered s ids)) := by
  have hmem : ∀ x, x ∈ (groupByParent (unregistered s ids)).flatMap Prod.snd ↔
      x ∈ unregistered s ids := by
    intro x
    constructor
    · exact fun hx => (mem_groups _ x (groups_parent _ hx)).mp hx
    · exact fun hx => (mem_groups _ x (unregistered_parent s ids hx)).mpr hx
  rcases unregisterGroups_cases s (groupByParent (unregistered s ids))
    (fun e he => parent_of_group he) with
    ⟨⟨x, hx, hallocated⟩, hnone⟩ | ⟨hfree, s', hsome, hs'⟩
  · exact Or.inl ⟨⟨x, (hmem x).mp hx, hallocated⟩, hnone⟩
  · refine Or.inr ⟨fun x hx => hfree x ((hmem x).mpr hx), s', hsome,
      hs'.discrete, hs'.continuous, fun x p hp => ?_⟩
    rw [hs'.registered x p hp, hmem]

end

variable {resources : List (Resource C)}

omit [DecidableEq U]

theorem unregisters_kept {s s' : Store C U} (hs' : Unregisters s s' resources) (hx : Registered s x)
    (hmem : x ∉ resources) : Registered s' x := by
  cases hp : x.parent with
  | some p => exact (hs'.registered x p hp).mpr ⟨hx, hmem⟩
  | none => cases x with
    | discrete id =>
      rw [registered_discrete]
      exact fun p hp' => nomatch hp.symm.trans hp'
    | continuous r => cases hp

theorem treeClosed_unregisters {s s' : Store C U}
    (h : TreeClosed s) (hparent : ∀ x ∈ resources, x.parent.isSome)
    (hs' : Unregisters s s' resources) :
    TreeClosed s' ↔ ∀ x p, Registered s x → x.parent = some p → .discrete p ∈ resources →
      x ∈ resources := by
  constructor
  · intro hclosed x p hx hp hmem
    by_contra hnot
    obtain ⟨q, hq⟩ := Option.isSome_iff_exists.mp (hparent _ hmem)
    have hregistered := hclosed x p (unregisters_kept hs' hx hnot) hp
    exact ((hs'.registered _ q hq).mp hregistered).2 hmem
  · intro htakes x p hx hp
    obtain ⟨hold, hnot⟩ := (hs'.registered x p hp).mp hx
    exact unregisters_kept hs' (h x p hold hp) fun hmem => hnot (htakes x p hold hp hmem)

theorem allocatedRegistered_unregisters {s s' : Store C U}
    (h : AllocatedRegistered s) (hfree : ∀ x ∈ resources, ¬ IsAllocated s x)
    (hs' : Unregisters s s' resources) : AllocatedRegistered s' :=
  allocatedRegistered_kept h hs'.discrete hs'.continuous fun x hx hallocated =>
    unregisters_kept hs' hx fun hmem => hfree x hmem hallocated

end Unregister

section Allocate

structure SameTree (s s' : Store C U) : Prop where
  discrete : s'.discrete.childMap = s.discrete.childMap
  continuous : s'.continuous.childMap = s.continuous.childMap

section

omit [DecidableEq U]

theorem treeClosed_same {s s' : Store C U} (hsame : SameTree s s') (h : TreeClosed s) :
    TreeClosed s' := by
  have hregistered := registered_congr hsame.discrete hsame.continuous
  exact fun x p hx hp => (hregistered _).mpr (h x p ((hregistered x).mp hx) hp)

theorem allocatedRegistered_same {s s' : Store C U} (hsame : SameTree s s')
    (hdiscrete : ∀ id, s'.discrete.isAllocated id → Registered s (.discrete id))
    (hcontinuous : ∀ id, s'.continuous.isAllocated id →
      ∃ r, r.id = id ∧ Registered s (.continuous r)) : AllocatedRegistered s' := by
  have hregistered := registered_congr hsame.discrete hsame.continuous
  refine ⟨fun id hid => (hregistered _).mpr (hdiscrete id hid), fun id hid => ?_⟩
  obtain ⟨r, hr, hold⟩ := hcontinuous id hid
  exact ⟨r, hr, (hregistered _).mpr hold⟩

end

theorem allocate_keeps_tree {s s' : Store C U} {resources : List (Resource C)} {consumerId : U}
    (ha : s.allocate resources consumerId = some s') (h : AllocatedRegistered s) :
    SameTree s s' ∧ AllocatedRegistered s' := by
  refine foldlM_keeps (fun t => SameTree s t ∧ AllocatedRegistered t)
    (fun t resource _ t' ht hstep => ?_) ha ⟨⟨rfl, rfl⟩, h⟩
  obtain ⟨hst, ht⟩ := ht
  cases resource with
  | discrete id =>
    obtain ⟨discrete, hdiscrete, hstep⟩ := Option.bind_eq_some_iff.mp hstep
    obtain rfl := Option.some.inj hstep
    obtain ⟨hchild, hlookup, _, hconsumers⟩ := DiscreteSubStore.allocate_cases hdiscrete
    refine ⟨⟨hchild.trans hst.discrete, hst.continuous⟩,
      allocatedRegistered_same ⟨hchild, rfl⟩ (fun id' hid => ?_) ht.continuous⟩
    rw [DiscreteSubStore.isAllocated] at hid
    rw [hconsumers, lookup_insert] at hid
    split_ifs at hid with heq
    · rw [heq]
      exact hlookup
    · exact ht.discrete id' hid
  | continuous request =>
    obtain ⟨continuous, hcontinuous, hstep⟩ := Option.bind_eq_some_iff.mp hstep
    obtain rfl := Option.some.inj hstep
    obtain ⟨hchild, original, hlookup, _, _, _, hconsumers⟩ :=
      ContinuousSubStore.allocate_cases hcontinuous
    refine ⟨⟨hst.discrete, hchild.trans hst.continuous⟩,
      allocatedRegistered_same (s := t) ⟨rfl, hchild⟩ ht.discrete fun id hid => ?_⟩
    by_cases heq : id = request.id
    · obtain ⟨hregistered, hid'⟩ := ContinuousSubStore.registered_of_lookup hlookup
      exact ⟨original, hid'.trans heq.symm, hregistered⟩
    · rw [ContinuousSubStore.isAllocated] at hid
      rw [hconsumers, lookup_insert, if_neg heq] at hid
      exact ht.continuous id hid

omit [DecidableEq C] in
theorem allocations_of_release {a : ContinuousResourceAllocation C U}
    {resource : ContinuousResource C} {consumerId : U}
    (h : (a.release resource consumerId).allocations ≠ []) : a.allocations ≠ [] := by
  intro hempty
  apply h
  rw [ContinuousResourceAllocation.release]
  rw [hempty]
  rfl

theorem release_keeps_tree {s s' : Store C U} {allocations : List (Resource C × U)}
    (hr : s.release allocations = some s') (h : AllocatedRegistered s) :
    SameTree s s' ∧ AllocatedRegistered s' := by
  refine foldlM_keeps (fun t => SameTree s t ∧ AllocatedRegistered t)
    (fun t allocation _ t' ht hstep => ?_) hr ⟨⟨rfl, rfl⟩, h⟩
  obtain ⟨hst, ht⟩ := ht
  obtain ⟨resource, consumerId⟩ := allocation
  cases resource with
  | discrete id =>
    obtain ⟨discrete, hdiscrete, hstep⟩ := Option.bind_eq_some_iff.mp hstep
    obtain rfl := Option.some.inj hstep
    obtain ⟨hchild, _, hconsumers⟩ := DiscreteSubStore.release_cases hdiscrete
    refine ⟨⟨hchild.trans hst.discrete, hst.continuous⟩,
      allocatedRegistered_same ⟨hchild, rfl⟩ (fun id' hid => ?_) ht.continuous⟩
    rw [DiscreteSubStore.isAllocated] at hid
    rw [hconsumers, lookup_erase] at hid
    split_ifs at hid
    · cases hid
    · exact ht.discrete id' hid
  | continuous resource =>
    obtain ⟨continuous, hcontinuous, hstep⟩ := Option.bind_eq_some_iff.mp hstep
    obtain rfl := Option.some.inj hstep
    obtain ⟨hchild, a, ha, hconsumers⟩ := ContinuousSubStore.release_cases hcontinuous
    refine ⟨⟨hst.discrete, hchild.trans hst.continuous⟩,
      allocatedRegistered_same (s := t) ⟨rfl, hchild⟩ ht.discrete fun id hid => ht.continuous id ?_⟩
    unfold ContinuousSubStore.isAllocated at hid ⊢
    rw [hconsumers, lookup_insert] at hid
    by_cases heq : id = resource.id
    · rw [if_pos heq] at hid
      rw [heq, ha]
      simp only [Bool.not_eq_true', List.isEmpty_eq_false_iff] at hid ⊢
      exact allocations_of_release hid
    · rw [if_neg heq] at hid
      exact hid

end Allocate

section Runs

theorem allocatedRegistered_transaction {s s' : Store C U} {x : StoreInput C U}
    (hx : s.transaction x = some s') (h : AllocatedRegistered s) : AllocatedRegistered s' := by
  cases x with
  | register resources => exact allocatedRegistered_register hx h
  | unregister ids =>
    have hx : s.unregister ids = some s' := hx
    rcases unregister_cases s ids with ⟨_, hnone⟩ | ⟨hfree, t, hsome, ht⟩
    · rw [hnone] at hx
      cases hx
    · obtain rfl := Option.some.inj (hx.symm.trans hsome)
      exact allocatedRegistered_unregisters h hfree ht
  | allocate resources consumerId => exact (allocate_keeps_tree hx h).2
  | release allocations => exact (release_keeps_tree hx h).2

theorem treeClosed_transaction {s s' : Store C U} {x : StoreInput C U}
    (hx : s.transaction x = some s') (hallocated : AllocatedRegistered s) (h : TreeClosed s) :
    TreeClosed s' ↔ TakesChildren s x := by
  cases x with
  | register resources => exact ⟨fun _ => trivial, fun _ => treeClosed_register hx h⟩
  | unregister ids =>
    have hx : s.unregister ids = some s' := hx
    rcases unregister_cases s ids with ⟨_, hnone⟩ | ⟨hfree, t, hsome, ht⟩
    · rw [hnone] at hx
      cases hx
    · obtain rfl := Option.some.inj (hx.symm.trans hsome)
      have hiff := treeClosed_unregisters h (fun _ hy => unregistered_parent s ids hy) ht
      exact ⟨fun hclosed _ => hiff.mp hclosed, fun htakes => hiff.mpr (htakes hfree)⟩
  | allocate resources consumerId =>
    exact ⟨fun _ => trivial, fun _ => treeClosed_same (allocate_keeps_tree hx hallocated).1 h⟩
  | release allocations =>
    exact ⟨fun _ => trivial, fun _ => treeClosed_same (release_keeps_tree hx hallocated).1 h⟩

theorem takesChildren_of_refused {s : Store C U} {x : StoreInput C U}
    (hx : s.transaction x = none) : TakesChildren s x := by
  cases x with
  | unregister ids =>
    have hx : s.unregister ids = none := hx
    rcases unregister_cases s ids with ⟨⟨y, hy, hallocated⟩, _⟩ | ⟨_, t, hsome, _⟩
    · exact fun hfree => absurd hallocated (hfree y hy)
    · rw [hsome] at hx
      cases hx
  | register resources => exact trivial
  | allocate resources consumerId => exact trivial
  | release allocations => exact trivial

theorem tree_next {s : Store C U} (hallocated : AllocatedRegistered s) (h : TreeClosed s)
    (x : StoreInput C U) : TreeClosed (storeMachine.next s x) ↔ TakesChildren s x := by
  change TreeClosed ((s.transaction x).getD s) ↔ _
  cases hx : s.transaction x with
  | none => exact ⟨fun _ => takesChildren_of_refused hx, fun _ => h⟩
  | some s' => exact treeClosed_transaction hx hallocated h

theorem allocatedRegistered_next {s : Store C U} (h : AllocatedRegistered s)
    (x : StoreInput C U) : AllocatedRegistered (storeMachine.next s x) := by
  change AllocatedRegistered ((s.transaction x).getD s)
  cases hx : s.transaction x with
  | none => exact h
  | some s' => exact allocatedRegistered_transaction hx h

section

omit [DecidableEq U]

theorem treeClosed_activated : TreeClosed (activated : Store C U) := by
  intro x p hx hp
  cases x with
  | discrete id =>
    have hmem := (registered_discrete _ id).mp hx p hp
    unfold activated DiscreteSubStore.children at hmem
    rw [lookup_insert] at hmem
    split_ifs at hmem <;> exact absurd hmem (Finset.notMem_empty id)
  | continuous r =>
    change r ∈ (activated : Store C U).continuous.children r.id.parent at hx
    unfold activated ContinuousSubStore.children at hx
    rw [lookup_insert] at hx
    split_ifs at hx <;> exact absurd hx List.not_mem_nil

theorem allocatedRegistered_activated : AllocatedRegistered (activated : Store C U) := by
  refine ⟨fun id hid => ?_, fun id hid => ?_⟩
  · cases hid
  · cases hid

end

end Runs

section Regression

def cardRemoval : List (StoreInput ℕ ℕ) :=
  [.register [.discrete [1], .discrete [1, 2]], .unregister [.discrete [1]]]

end Regression

end ResourceTree

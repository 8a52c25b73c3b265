import Onos.ResourceTree

/-! How many capacities the IDs of continuous resources have. A registration compares the listed
resources with those that are registered, and not with each other. -/
namespace ContinuousCapacities

open KeyedMap InputMachine ResourceSubStores ResourceStore ResourceTree

variable {C U : Type*} [DecidableEq C] [DecidableEq U]

def OneCapacity (s : Store C U) : Prop :=
  ∀ r r', s.continuous.Registered r → s.continuous.Registered r' → r.id = r'.id → r = r'

def IntroducesSecond (s : Store C U) (resources : List (Resource C)) : Prop :=
  ∃ r r', .continuous r ∈ resources ∧
    (s.continuous.Registered r' ∨ .continuous r' ∈ resources) ∧ r'.id = r.id ∧ r' ≠ r

def HasOtherValue (s : Store C U) (resources : List (Resource C)) : Prop :=
  ∃ r r', .continuous r ∈ resources ∧ s.continuous.Registered r' ∧ r'.id = r.id ∧ r' ≠ r

def ParentsKnown (known : DiscreteResourceId C → Prop) :
    List (DiscreteResourceId C × List (Resource C)) → Prop
  | [] => True
  | entry :: rest =>
    known entry.1 ∧ ParentsKnown (fun id => known id ∨ .discrete id ∈ entry.2) rest

/-- A registration lists one value for each ID, unless a parent is not registered or one of the
IDs is registered with another value. -/
def ListsOneValue (s : Store C U) : StoreInput C U → Prop
  | .register resources =>
    (∀ r r', .continuous r ∈ resources → .continuous r' ∈ resources → r.id = r'.id → r = r') ∨
      ¬ParentsKnown (fun id => Registered s (.discrete id)) (groupByParent resources) ∨
        HasOtherValue s resources
  | .unregister _ | .allocate _ _ | .release _ => True

section SubStore

omit [DecidableEq U] in
theorem register_eq (s : ContinuousSubStore C U) (parent : DiscreteResourceId C)
    (resources : List (ContinuousResource C)) :
    ((∃ r ∈ resources, r ∉ s.children parent ∧ ∃ x ∈ s.children parent, x.id = r.id) ∧
      s.register parent resources = none) ∨
    ((∀ r ∈ resources, r ∉ s.children parent → ∀ x ∈ s.children parent, x.id ≠ r.id) ∧
      ∃ s', s.register parent resources = some s' ∧ s'.consumers = s.consumers ∧
        ∀ p r, r ∈ s'.children p ↔ r ∈ s.children p ∨ p = parent ∧ r ∈ resources) := by
  rw [ContinuousSubStore.register]
  by_cases hempty : resources = []
  · refine Or.inr ⟨fun r hr => ?_, s, if_pos hempty, rfl, fun p r => ?_⟩
    · rw [hempty] at hr
      exact absurd hr List.not_mem_nil
    · simp [hempty]
  · rw [if_neg hempty]
    cases hold : s.childMap.lookup parent with
    | none =>
      have hnil : s.children parent = [] := by
        rw [ContinuousSubStore.children, hold, Option.getD_none]
      rw [putIfAbsent_of_none hold, hnil]
      refine Or.inr ⟨fun r _ _ x hx => absurd hx List.not_mem_nil, _, rfl, rfl, fun p r => ?_⟩
      rw [ContinuousSubStore.children_insert]
      split_ifs with hp
      · simp [hp, hnil]
      · simp [hp]
    | some oldValues =>
      have hchildren : s.children parent = oldValues := by
        rw [ContinuousSubStore.children, hold, Option.getD_some]
      rw [putIfAbsent_of_some hold, hchildren]
      dsimp only
      split_ifs with hnone hsame
      · have hsub : ∀ r ∈ resources, r ∈ oldValues := by
          intro r hr
          by_contra hnew
          have hmem : r ∈ resources.filter fun x => x ∉ oldValues :=
            List.mem_filter.mpr ⟨hr, decide_eq_true hnew⟩
          rw [hnone] at hmem
          exact List.not_mem_nil hmem
        refine Or.inr ⟨fun r hr hnew => absurd (hsub r hr) hnew, s, rfl, rfl, fun p r => ?_⟩
        refine ⟨Or.inl, ?_⟩
        rintro (h | ⟨rfl, hr⟩)
        · exact h
        · rw [hchildren]
          exact hsub r hr
      · obtain ⟨x, hx, hid⟩ := List.any_eq_true.mp hsame
        obtain ⟨r, hr, hrid⟩ := List.mem_map.mp (of_decide_eq_true hid)
        obtain ⟨hr, hnew⟩ := List.mem_filter.mp hr
        exact Or.inl ⟨⟨r, hr, of_decide_eq_true hnew, x, hx, hrid.symm⟩, rfl⟩
      · refine Or.inr ⟨fun r hr hnew x hx hid => hsame ?_, ?_⟩
        · refine List.any_eq_true.mpr ⟨x, hx, decide_eq_true (List.mem_map.mpr ⟨r, ?_, hid.symm⟩)⟩
          exact List.mem_filter.mpr ⟨hr, decide_eq_true hnew⟩
        · rw [replace_of_lookup hold]
          refine ⟨_, rfl, rfl, fun p r => ?_⟩
          rw [ContinuousSubStore.children_insert]
          split_ifs with hp
          · subst hp
            rw [hchildren]
            by_cases hr : r ∈ oldValues
            · simp [hr]
            · simp [hr]
          · simp [hp]

end SubStore

section Groups

variable {s : Store C U}

def RegistersAll (s s' : Store C U) (resources : List (Resource C)) : Prop :=
  ∀ x p, x.parent = some p → (Registered s' x ↔ Registered s x ∨ x ∈ resources)

section

omit [DecidableEq U]

theorem registered_iff (s : Store C U) {id p : DiscreteResourceId C} (hp : id.parent = some p) :
    Registered s (.discrete id) ↔ id ∈ s.discrete.children p := by
  rw [registered_discrete]
  constructor
  · exact fun h => h p hp
  · intro h q hq
    obtain rfl := Option.some.inj (hp.symm.trans hq)
    exact h

theorem registerUnder_cases (s : Store C U) {parent : DiscreteResourceId C}
    {group : List (Resource C)} (hgroup : ∀ x ∈ group, x.parent = some parent) :
    ((∃ r, .continuous r ∈ group ∧ ¬s.continuous.Registered r ∧
        ∃ x, s.continuous.Registered x ∧ x.id = r.id) ∧ s.registerUnder parent group = none) ∨
    ((∀ r, .continuous r ∈ group → ¬s.continuous.Registered r →
        ∀ x, s.continuous.Registered x → x.id ≠ r.id) ∧
      ∃ s', s.registerUnder parent group = some s' ∧ RegistersAll s s' group) := by
  have hmem : ∀ r, r ∈ (continuousResources group).eraseDups ↔ .continuous r ∈ group := by
    intro r
    rw [List.mem_eraseDups, mem_continuousResources]
  have hparent : ∀ r : ContinuousResource C, .continuous r ∈ group → r.id.parent = parent :=
    fun r hr => Option.some.inj (hgroup _ hr)
  have hsame : ∀ r x : ContinuousResource C, .continuous r ∈ group → x.id = r.id →
      (s.continuous.Registered x ↔ x ∈ s.continuous.children parent) := by
    intro r x hr hid
    rw [ContinuousSubStore.Registered, hid, hparent r hr]
  obtain ⟨discrete, hdiscrete, -, hchildren⟩ := s.discrete.register_cases parent
    (discreteResources group).toFinset
  rw [Store.registerUnder, hdiscrete]
  rcases register_eq s.continuous parent (continuousResources group).eraseDups with
    ⟨⟨r, hr, hnew, x, hx, hid⟩, hnone⟩ | ⟨hfree, continuous, hsome, -, hchildren'⟩
  · rw [hmem] at hr
    rw [hnone]
    exact Or.inl ⟨⟨r, hr, fun h => hnew ((hsame r r hr rfl).mp h), x,
      (hsame r x hr hid).mpr hx, hid⟩, rfl⟩
  · rw [hsome]
    refine Or.inr ⟨fun r hr hnew x hx hid => ?_, _, rfl, fun y p hp => ?_⟩
    · exact hfree r ((hmem r).mpr hr) (fun h => hnew ((hsame r r hr rfl).mpr h)) x
        ((hsame r x hr hid).mp hx) hid
    · cases y with
      | discrete id =>
        rw [registered_iff _ hp, registered_iff _ hp, hchildren, Finset.mem_union]
        refine or_congr_right ?_
        split_ifs with heq
        · rw [List.mem_toFinset, mem_discreteResources]
        · refine ⟨fun h => absurd h (Finset.notMem_empty id), fun h => absurd ?_ heq⟩
          exact Option.some.inj (hp.symm.trans (hgroup _ h))
      | continuous r =>
        change r ∈ continuous.children r.id.parent ↔ r ∈ s.continuous.children r.id.parent ∨ _
        rw [hchildren', hmem]
        refine or_congr_right ⟨fun h => h.2, fun h => ⟨hparent r h, h⟩⟩

theorem isNone_lookup_iff (s : Store C U) (id : DiscreteResourceId C) :
    (s.discrete.lookup id).isNone ↔ ¬Registered s (.discrete id) := by
  rw [Option.isNone_iff_eq_none, Registered, Bool.not_eq_true, Option.isSome_eq_false_iff,
    Option.isNone_iff_eq_none]

theorem registered_root (s : Store C U) {id : DiscreteResourceId C} (h : id.parent = none) :
    Registered s (.discrete id) := by
  rw [registered_discrete]
  exact fun p hp => absurd (h.symm.trans hp) (by simp)

end

def registerEntry (s : Store C U) (entry : DiscreteResourceId C × List (Resource C)) :
    Option (Store C U) :=
  if (s.discrete.lookup entry.1).isNone then none else s.registerUnder entry.1 entry.2

omit [DecidableEq U] in
/-- Group after group: refused if a parent is missing at its turn, or the ID of a new value is
registered. -/
theorem registerGroups_cases (s : Store C U)
    (entries : List (DiscreteResourceId C × List (Resource C)))
    (hgroup : ∀ e ∈ entries, ∀ x ∈ e.2, x.parent = some e.1)
    (hdistinct : entries.Pairwise fun e e' => e.1 ≠ e'.1) :
    ((¬ParentsKnown (fun id => Registered s (.discrete id)) entries ∨
        ∃ r, .continuous r ∈ entries.flatMap Prod.snd ∧ ¬s.continuous.Registered r ∧
          ∃ x, s.continuous.Registered x ∧ x.id = r.id) ∧
      entries.foldlM registerEntry s = none) ∨
    ((ParentsKnown (fun id => Registered s (.discrete id)) entries ∧
        ∀ r, .continuous r ∈ entries.flatMap Prod.snd → ¬s.continuous.Registered r →
          ∀ x, s.continuous.Registered x → x.id ≠ r.id) ∧
      ∃ s', entries.foldlM registerEntry s = some s' ∧
        RegistersAll s s' (entries.flatMap Prod.snd)) := by
  induction entries generalizing s with
  | nil =>
    refine Or.inr ⟨⟨trivial, fun r hr => absurd hr List.not_mem_nil⟩, s, rfl, fun x p _ => ?_⟩
    simp
  | cons e rest ih =>
    rw [List.foldlM_cons, List.flatMap_cons, registerEntry]
    by_cases hknown : Registered s (.discrete e.1)
    · rw [if_neg (fun h => (isNone_lookup_iff s e.1).mp h hknown)]
      rcases registerUnder_cases s (hgroup e List.mem_cons_self) with
        ⟨⟨r, hr, hnew, hother⟩, hnone⟩ | ⟨hfree, t, hsome, ht⟩
      · rw [hnone]
        exact Or.inl ⟨Or.inr ⟨r, List.mem_append_left _ hr, hnew, hother⟩, rfl⟩
      · rw [hsome, Option.bind_eq_bind, Option.bind_some]
        obtain ⟨hother, hdistinct⟩ := List.pairwise_cons.mp hdistinct
        have hknown' : (fun id => Registered t (.discrete id)) = fun id =>
            Registered s (.discrete id) ∨ .discrete id ∈ e.2 := by
          funext id
          cases hp : id.parent with
          | none => simp [registered_root s hp, registered_root t hp]
          | some p => exact propext (ht (.discrete id) p hp)
        -- the groups to come are under other parents
        have hrest : ∀ r x : ContinuousResource C, .continuous r ∈ rest.flatMap Prod.snd →
            x.id = r.id → (t.continuous.Registered x ↔ s.continuous.Registered x) := by
          intro r x hr hid
          refine (ht (.continuous x) x.id.parent rfl).trans (or_iff_left fun hx => ?_)
          obtain ⟨e', he', hr⟩ := List.mem_flatMap.mp hr
          have hp := Option.some.inj (hgroup e List.mem_cons_self _ hx)
          have hp' := Option.some.inj (hgroup e' (List.mem_cons_of_mem e he') _ hr)
          apply hother e' he'
          rw [← hp, ← hp', hid]
        have hiff : ParentsKnown (fun id => Registered t (.discrete id)) rest ↔
            ParentsKnown (fun id => Registered s (.discrete id)) (e :: rest) := by
          rw [hknown']
          exact (and_iff_right hknown).symm
        rcases ih t (fun e' he' => hgroup e' (List.mem_cons_of_mem e he')) hdistinct with
          ⟨hrefused, hnone⟩ | ⟨⟨hparents, hfree'⟩, u, hsome', hu⟩
        · refine Or.inl ⟨?_, hnone⟩
          rcases hrefused with hparents | ⟨r, hr, hnew, x, hx, hid⟩
          · exact Or.inl fun h => hparents (hiff.mpr h)
          · right
            exact ⟨r, List.mem_append_right _ hr, fun h => hnew ((hrest r r hr rfl).mpr h), x,
              (hrest r x hr hid).mp hx, hid⟩
        · refine Or.inr ⟨⟨hiff.mp hparents, fun r hr hnew x hx hid => ?_⟩, u, hsome',
            fun x p hp => ?_⟩
          · rcases List.mem_append.mp hr with hr | hr
            · exact hfree r hr hnew x hx hid
            · exact hfree' r hr (fun h => hnew ((hrest r r hr rfl).mp h)) x
                ((hrest r x hr hid).mpr hx) hid
          · rw [hu x p hp, ht x p hp, List.mem_append, or_assoc]
    · rw [if_pos ((isNone_lookup_iff s e.1).mpr hknown)]
      exact Or.inl ⟨Or.inl fun h => hknown h.1, rfl⟩

end Groups

section Register

theorem pairwise_groups (resources : List (Resource C)) :
    (groupByParent resources).Pairwise fun e e' => e.1 ≠ e'.1 := by
  rw [groupByParent, List.pairwise_map]
  have hnodup := nodup_eraseDups (resources.filterMap Resource.parent)
  exact hnodup.imp fun hne => hne

variable {s : Store C U} {resources : List (Resource C)}

def IsRefused (s : Store C U) (resources : List (Resource C)) : Prop :=
  ¬ParentsKnown (fun id => Registered s (.discrete id)) (groupByParent resources) ∨
    HasOtherValue s resources

omit [DecidableEq U]

section

variable (h : OneCapacity s)

include h

theorem hasOtherValue_iff : HasOtherValue s resources ↔
    ∃ r, .continuous r ∈ (groupByParent resources).flatMap Prod.snd ∧
      ¬s.continuous.Registered r ∧ ∃ x, s.continuous.Registered x ∧ x.id = r.id := by
  constructor
  · rintro ⟨r, x, hr, hx, hid, hne⟩
    refine ⟨r, (mem_groups _ _ rfl).mpr hr, fun hreg => ?_, x, hx, hid⟩
    exact hne (h x r hx hreg hid)
  · rintro ⟨r, hr, hnew, x, hx, hid⟩
    refine ⟨r, x, (mem_groups _ _ rfl).mp hr, hx, hid, ?_⟩
    rintro rfl
    exact hnew hx

theorem register_cases (resources : List (Resource C)) :
    (IsRefused s resources ∧ s.register resources = none) ∨
    (¬IsRefused s resources ∧
      ∃ s', s.register resources = some s' ∧ RegistersAll s s' resources) := by
  have hregister : s.register resources = (groupByParent resources).foldlM registerEntry s := rfl
  rw [hregister, IsRefused, hasOtherValue_iff h]
  rcases registerGroups_cases s (groupByParent resources) (fun e he => parent_of_group he)
    (pairwise_groups resources) with ⟨hrefused, hnone⟩ | ⟨⟨hparents, hfree⟩, s', hsome, hs'⟩
  · exact Or.inl ⟨hrefused, hnone⟩
  · refine Or.inr ⟨?_, s', hsome, fun x p hp => ?_⟩
    · rintro (hmissing | ⟨r, hr, hnew, x, hx, hid⟩)
      · exact hmissing hparents
      · exact hfree r hr hnew x hx hid
    · rw [hs' x p hp, mem_groups _ _ (by rw [hp]; rfl)]

theorem oneCapacity_registersAll {s' : Store C U}
    (hfree : ¬HasOtherValue s resources) (hs' : RegistersAll s s' resources) :
    OneCapacity s' ↔ ∀ r r', .continuous r ∈ resources → .continuous r' ∈ resources →
      r.id = r'.id → r = r' := by
  have hcontinuous : ∀ r, s'.continuous.Registered r ↔
      s.continuous.Registered r ∨ .continuous r ∈ resources :=
    fun r => hs' (.continuous r) r.id.parent rfl
  have hlisted : ∀ r r', .continuous r ∈ resources → s.continuous.Registered r' → r'.id = r.id →
      r' = r := by
    intro r r' hr hr' hid
    by_contra hne
    exact hfree ⟨r, r', hr, hr', hid, hne⟩
  constructor
  · intro hone r r' hr hr' hid
    exact hone r r' ((hcontinuous r).mpr (Or.inr hr)) ((hcontinuous r').mpr (Or.inr hr')) hid
  · intro hone r r' hr hr' hid
    rcases (hcontinuous r).mp hr with hr | hr
    · rcases (hcontinuous r').mp hr' with hr' | hr'
      · exact h r r' hr hr' hid
      · exact hlisted r' r hr' hr hid
    · rcases (hcontinuous r').mp hr' with hr' | hr'
      · exact (hlisted r r' hr hr' hid.symm).symm
      · exact hone r r' hr hr' hid

/-- After a registration each ID has one capacity exactly when one value was listed for it, if the
registration was not refused. -/
theorem oneCapacity_register (resources : List (Resource C)) :
    OneCapacity ((s.register resources).getD s) ↔ ListsOneValue s (.register resources) := by
  rcases register_cases h resources with ⟨hrefused, hnone⟩ | ⟨haccepted, s', hsome, hs'⟩
  · rw [hnone]
    exact ⟨fun _ => Or.inr hrefused, fun _ => h⟩
  · rw [hsome, Option.getD_some,
      oneCapacity_registersAll h (fun hother => haccepted (Or.inr hother)) hs']
    constructor
    · exact Or.inl
    · rintro (hone | hrefused)
      · exact hone
      · exact absurd hrefused haccepted

end

end Register

section Runs

variable {s : Store C U}

section

omit [DecidableEq U]

theorem oneCapacity_unregister (h : OneCapacity s) (ids : List (ResourceId C)) :
    OneCapacity ((s.unregister ids).getD s) := by
  rcases unregister_cases s ids with ⟨-, hnone⟩ | ⟨-, s', hsome, hs'⟩
  · rw [hnone]
    exact h
  · rw [hsome]
    intro r r' hr hr' hid
    have hr := (hs'.registered (.continuous r) r.id.parent rfl).mp hr
    have hr' := (hs'.registered (.continuous r') r'.id.parent rfl).mp hr'
    exact h r r' hr.1 hr'.1 hid

theorem oneCapacity_same {s' : Store C U} (hsame : SameTree s s') (h : OneCapacity s) :
    OneCapacity s' := by
  have hregistered := registered_congr hsame.discrete hsame.continuous
  intro r r' hr hr' hid
  exact h r r' ((hregistered (.continuous r)).mp hr) ((hregistered (.continuous r')).mp hr') hid

end

theorem oneCapacity_next (hallocated : AllocatedRegistered s) (h : OneCapacity s)
    (x : StoreInput C U) : OneCapacity (storeMachine.next s x) ↔ ListsOneValue s x := by
  cases x with
  | register resources => exact oneCapacity_register h resources
  | unregister ids => exact ⟨fun _ => trivial, fun _ => oneCapacity_unregister h ids⟩
  | allocate resources consumerId =>
    refine ⟨fun _ => trivial, fun _ => ?_⟩
    change OneCapacity ((s.allocate resources consumerId).getD s)
    cases ha : s.allocate resources consumerId with
    | none => exact h
    | some s' => exact oneCapacity_same (allocate_keeps_tree ha hallocated).1 h
  | release allocations =>
    refine ⟨fun _ => trivial, fun _ => ?_⟩
    change OneCapacity ((s.release allocations).getD s)
    cases hr : s.release allocations with
    | none => exact h
    | some s' => exact oneCapacity_same (release_keeps_tree hr hallocated).1 h

omit [DecidableEq U] in
theorem oneCapacity_activated : OneCapacity (activated : Store C U) := by
  intro r r' hr
  change r ∈ (activated : Store C U).continuous.children r.id.parent at hr
  unfold activated ContinuousSubStore.children at hr
  rw [lookup_insert] at hr
  split_ifs at hr <;> exact absurd hr List.not_mem_nil

/-- A registration that would bring a second value is refused, if each ID has one capacity after
it. -/
theorem refused_of_oneCapacity (h : OneCapacity s) {resources : List (Resource C)}
    (hnext : OneCapacity (storeMachine.next s (.register resources)))
    (hsecond : IntroducesSecond s resources) :
    s.register resources = none ∧ storeMachine.next s (.register resources) = s := by
  change OneCapacity ((s.register resources).getD s) at hnext
  change _ ∧ (s.register resources).getD s = s
  rcases register_cases h resources with ⟨-, hnone⟩ | ⟨-, s', hsome, hs'⟩
  · rw [hnone]
    exact ⟨rfl, rfl⟩
  · rw [hsome, Option.getD_some] at hnext
    obtain ⟨r, r', hr, hr', hid, hne⟩ := hsecond
    have hregistered : ∀ x : ContinuousResource C,
        s.continuous.Registered x ∨ .continuous x ∈ resources → s'.continuous.Registered x :=
      fun x => (hs' (.continuous x) x.id.parent rfl).mpr
    exact absurd (hnext r' r (hregistered r' hr') (hregistered r (Or.inr hr)) hid) hne

instance decidableRegistered (s : ContinuousSubStore C U) (r : ContinuousResource C) :
    Decidable (s.Registered r) := inferInstanceAs (Decidable (r ∈ s.children r.id.parent))

end Runs

end ContinuousCapacities

import Onos.ResourceTree

/-! What a release takes away. A discrete resource is released by its consumer only; of a continuous
one the record is rebuilt without the first allocation that matches, if any does. -/
namespace ResourceReleases

open KeyedMap InputMachine ResourceSubStores ResourceStore ResourceTree

variable {C U : Type*} [DecidableEq C] [DecidableEq U]

def held (s : Store C U) : Resource C × U → ℕ
  | (.discrete id, consumerId) => if s.discrete.consumers.lookup id = some consumerId then 1 else 0
  | (.continuous r, consumerId) => (s.continuous.getResourceAllocations r.id).count ⟨r, consumerId⟩

def HasRecord (s : Store C U) (r : ContinuousResource C) : Prop :=
  (s.continuous.consumers.lookup r.id).isSome

/-- One allocation of the list; nothing when the call of the sub-store returns false. Without a
record the continuous one throws. -/
def releaseAllocation (s : Store C U) (allocation : Resource C × U) :
    Except String (Option (Store C U)) :=
  match allocation.1 with
  | .discrete id => .ok ((s.discrete.release allocation.2 id).map fun discrete =>
    { s with discrete := discrete })
  | .continuous r =>
    if (s.continuous.consumers.lookup r.id).isNone then .error "NullPointerException"
    else .ok ((s.continuous.release allocation.2 r).map fun continuous =>
      { s with continuous := continuous })

/-- `release` with its exception: a call that returns false has nothing for a result. -/
def release (s : Store C U) : List (Resource C × U) → Except String (Option (Store C U))
  | [] => .ok (some s)
  | allocation :: allocations => match releaseAllocation s allocation with
    | .error e => .error e
    | .ok none => .ok none
    | .ok (some t) => release t allocations

def AllHeld (s : Store C U) (allocations : List (Resource C × U)) : Prop :=
  ∀ a, allocations.count a ≤ held s a

/-- Some discrete allocation is not held when its turn comes, and no continuous allocation before
it is without a record. -/
def IsRefused (s : Store C U) (allocations : List (Resource C × U)) : Prop :=
  ∃ before id consumerId after, allocations = before ++ (.discrete id, consumerId) :: after ∧
    held s (.discrete id, consumerId) ≤ before.count (.discrete id, consumerId) ∧
    ∀ r u, (.continuous r, u) ∈ before → HasRecord s r

/-- An accepted call takes exactly the listed allocations, which were all held; any other returns
false. -/
structure IsExact (s : Store C U) (allocations : List (Resource C × U)) : Prop where
  accepted : ∀ s', release s allocations = .ok (some s') →
    ∀ a, allocations.count a + held s' a = held s a
  refused : (∀ s', release s allocations ≠ .ok (some s')) → release s allocations = .ok none ∧
    storeMachine.next s (.release allocations) = s
  held : AllHeld s allocations ↔ ∃ s', release s allocations = .ok (some s')

section Record

def OwnIds (s : Store C U) : Prop :=
  ∀ id a, s.continuous.consumers.lookup id = some a → ∀ x ∈ a.allocations, x.resource.id = id

omit [DecidableEq C] in
theorem isMatch_eq [DecidableEq C] {resource : ContinuousResource C} {consumerId : U}
    {x : ResourceAllocation C U} (hid : x.resource.id = resource.id) :
    ContinuousResourceAllocation.isMatch resource consumerId x =
      decide (x = ⟨resource, consumerId⟩) := by
  obtain ⟨⟨id, value, hvalue⟩, u⟩ := x
  obtain ⟨id', value', hvalue'⟩ := resource
  obtain rfl : id = id' := hid
  simp [ContinuousResourceAllocation.isMatch, and_comm]

theorem count_release {a : ContinuousResourceAllocation C U} {resource : ContinuousResource C}
    (hown : ∀ x ∈ a.allocations, x.resource.id = resource.id) (consumerId : U)
    (y : ResourceAllocation C U) : (a.release resource consumerId).allocations.count y =
      a.allocations.count y - if y = ⟨resource, consumerId⟩ then 1 else 0 := by
  have hmatched : a.allocations.filter (ContinuousResourceAllocation.isMatch resource consumerId) =
      List.replicate (a.allocations.count ⟨resource, consumerId⟩) ⟨resource, consumerId⟩ := by
    rw [← List.filter_eq]
    refine List.filter_congr fun x hx => ?_
    exact isMatch_eq (hown x hx)
  have hother : (a.allocations.filter fun x =>
      !ContinuousResourceAllocation.isMatch resource consumerId x) =
        a.allocations.filter fun x => x ≠ ⟨resource, consumerId⟩ := by
    refine List.filter_congr fun x hx => ?_
    rw [isMatch_eq (hown x hx), decide_not]
  rw [ContinuousResourceAllocation.release]
  dsimp only
  rw [hmatched, hother, List.count_append, List.tail_replicate]
  split_ifs with hy
  · subst hy
    rw [List.count_replicate_self, List.count_eq_zero_of_not_mem, Nat.zero_add]
    exact fun hmem => of_decide_eq_true (List.mem_filter.mp hmem).2 rfl
  · have hkept : (a.allocations.filter fun x => decide (x ≠ ⟨resource, consumerId⟩)).count y =
        a.allocations.count y := List.count_filter (decide_eq_true hy)
    rw [hkept, List.count_replicate, if_neg fun h => hy (eq_of_beq h).symm]
    rfl

theorem held_continuous (s : Store C U) (r : ContinuousResource C) (consumerId : U) :
    held s (.continuous r, consumerId) =
      ((s.continuous.consumers.lookup r.id).elim [] fun a => a.allocations).count
        ⟨r, consumerId⟩ := by
  rw [held, ContinuousSubStore.getResourceAllocations]
  cases s.continuous.consumers.lookup r.id with
  | none => rfl
  | some a => exact List.count_filter (decide_eq_true rfl)

end Record

section Step

structure Released (s t : Store C U) (a : Resource C × U) : Prop where
  held : ∀ x, held t x = held s x - if x = a then 1 else 0
  record : ∀ r, HasRecord t r ↔ HasRecord s r
  own : OwnIds t

variable {s : Store C U}

theorem released_discrete (hown : OwnIds s) {id : DiscreteResourceId C} {consumerId : U}
    (h : held s (.discrete id, consumerId) ≠ 0) :
    ∃ t, releaseAllocation s (.discrete id, consumerId) = .ok (some t) ∧
      Released s t (.discrete id, consumerId) := by
  have howner : s.discrete.consumers.lookup id = some consumerId := by
    by_contra hne
    exact h (if_neg hne)
  refine ⟨{ s with discrete := { s.discrete with consumers := s.discrete.consumers.erase id } }, ?_,
    ⟨?_, fun r => Iff.rfl, hown⟩⟩
  · simp only [releaseAllocation, DiscreteSubStore.release, if_pos howner, Option.map_some]
  · rintro ⟨id' | r, u⟩
    · simp only [held, lookup_erase]
      by_cases hid : id' = id
      · subst hid
        rw [howner]
        by_cases hu : u = consumerId
        · simp [hu]
        · simp [hu, Ne.symm hu]
      · simp [hid]
    · simp [held]

theorem released_continuous (hown : OwnIds s) {r : ContinuousResource C} (h : HasRecord s r)
    (consumerId : U) : ∃ t, releaseAllocation s (.continuous r, consumerId) = .ok (some t) ∧
      Released s t (.continuous r, consumerId) := by
  obtain ⟨a, ha⟩ := Option.isSome_iff_exists.mp h
  refine ⟨{ s with continuous := { s.continuous with
    consumers := s.continuous.consumers.insert r.id (a.release r consumerId) } }, ?_, ⟨?_, ?_, ?_⟩⟩
  · simp only [releaseAllocation, ContinuousSubStore.release, ha, replace_of_lookup ha,
      Option.isNone_some, Option.map_some]
    rfl
  · rintro ⟨id | r', u⟩
    · simp [held]
    · rw [held_continuous, held_continuous, lookup_insert]
      by_cases hid : r'.id = r.id
      · rw [if_pos hid, hid, ha, Option.elim_some, Option.elim_some,
          count_release (hown r.id a ha)]
        congr 1
        simp [ResourceAllocation.mk.injEq]
      · have hne : (Resource.continuous r', u) ≠ (.continuous r, consumerId) := by
          intro heq
          obtain ⟨hr, -⟩ := Prod.mk.inj heq
          exact hid (congrArg _ (Resource.continuous.inj hr))
        rw [if_neg hid, if_neg hne, Nat.sub_zero]
  · intro r'
    unfold HasRecord
    rw [lookup_insert]
    split_ifs with hid
    · rw [hid, ha]
      exact Iff.rfl
    · exact Iff.rfl
  · intro id b hb x hx
    dsimp only at hb
    rw [lookup_insert] at hb
    split_ifs at hb with hid
    · obtain rfl := Option.some.inj hb
      rw [hid]
      refine hown r.id a ha x ?_
      rcases List.mem_append.mp hx with hx | hx
      · exact (List.mem_filter.mp hx).1
      · exact (List.mem_filter.mp (List.mem_of_mem_tail hx)).1
    · exact hown id b hb x hx

theorem releaseAllocation_cases (hown : OwnIds s) (a : Resource C × U) :
    (∃ id consumerId, a = (.discrete id, consumerId) ∧ held s a = 0 ∧
      releaseAllocation s a = .ok none) ∨
    (∃ r consumerId, a = (.continuous r, consumerId) ∧ ¬HasRecord s r ∧ held s a = 0 ∧
      releaseAllocation s a = .error "NullPointerException") ∨
    (∃ t, releaseAllocation s a = .ok (some t) ∧ Released s t a ∧
      (∀ id consumerId, a = (.discrete id, consumerId) → held s a ≠ 0) ∧
        ∀ r consumerId, a = (.continuous r, consumerId) → HasRecord s r) := by
  obtain ⟨id | r, consumerId⟩ := a
  · by_cases hheld : held s (.discrete id, consumerId) = 0
    · have howner : ¬s.discrete.consumers.lookup id = some consumerId := by
        intro howner
        rw [held, if_pos howner] at hheld
        exact absurd hheld one_ne_zero
      refine Or.inl ⟨id, consumerId, rfl, hheld, ?_⟩
      simp only [releaseAllocation, DiscreteSubStore.release, if_neg howner, Option.map_none]
    · obtain ⟨t, ht, hreleased⟩ := released_discrete hown hheld
      refine Or.inr (Or.inr ⟨t, ht, hreleased, fun _ _ _ => hheld, fun r u heq => ?_⟩)
      cases heq
  · by_cases hrecord : HasRecord s r
    · obtain ⟨t, ht, hreleased⟩ := released_continuous hown hrecord consumerId
      refine Or.inr (Or.inr ⟨t, ht, hreleased, fun id u heq => ?_, fun r' u heq => ?_⟩)
      · cases heq
      · cases heq
        exact hrecord
    · have hnone : s.continuous.consumers.lookup r.id = none := by
        rw [HasRecord, Bool.not_eq_true, Option.isSome_eq_false_iff] at hrecord
        exact Option.isNone_iff_eq_none.mp hrecord
      refine Or.inr (Or.inl ⟨r, consumerId, rfl, hrecord, ?_, ?_⟩)
      · rw [held_continuous, hnone]
        rfl
      · simp only [releaseAllocation, hnone, Option.isNone_none, if_true]

theorem releaseAllocation_of_held (hown : OwnIds s) {a : Resource C × U} (h : held s a ≠ 0) :
    ∃ t, releaseAllocation s a = .ok (some t) ∧ Released s t a := by
  rcases releaseAllocation_cases hown a with ⟨_, _, _, hzero, _⟩ | ⟨_, _, _, _, hzero, _⟩ |
    ⟨t, ht, hreleased, _⟩
  · exact absurd hzero h
  · exact absurd hzero h
  · exact ⟨t, ht, hreleased⟩

end Step

section Lists

variable {s : Store C U}

variable {allocations : List (Resource C × U)}

theorem release_cons {s t : Store C U} {a : Resource C × U}
    (h : releaseAllocation s a = .ok (some t)) :
    release s (a :: allocations) = release t allocations := by
  rw [release]
  rw [h]

theorem count_cons_eq (a x : Resource C × U) (allocations : List (Resource C × U)) :
    (a :: allocations).count x = allocations.count x + if x = a then 1 else 0 := by
  rw [List.count_cons]
  simp only [beq_iff_eq, eq_comm (a := a)]

theorem release_of_allHeld (hown : OwnIds s)
    (h : AllHeld s allocations) : ∃ s', release s allocations = .ok (some s') ∧
      ∀ a, allocations.count a + held s' a = held s a := by
  induction allocations generalizing s with
  | nil => exact ⟨s, rfl, fun a => Nat.zero_add _⟩
  | cons a rest ih =>
    have ha := h a
    rw [count_cons_eq, if_pos rfl] at ha
    obtain ⟨t, ht, hreleased⟩ := releaseAllocation_of_held hown (a := a) (by omega)
    have hrest : AllHeld t rest := by
      intro x
      have hx := h x
      rw [count_cons_eq] at hx
      rw [hreleased.held]
      omega
    obtain ⟨s', hs', hcount⟩ := ih hreleased.own hrest
    refine ⟨s', (release_cons ht).trans hs', fun x => ?_⟩
    have hx := h x
    have hcount := hcount x
    rw [hreleased.held] at hcount
    rw [count_cons_eq] at hx ⊢
    omega

theorem isRefused_of_release (hown : OwnIds s)
    (h : release s allocations = .ok none) : IsRefused s allocations := by
  induction allocations generalizing s with
  | nil => cases h
  | cons a rest ih =>
    rcases releaseAllocation_cases hown a with ⟨id, u, rfl, hzero, _⟩ | ⟨_, _, _, _, _, herror⟩ |
      ⟨t, ht, hreleased, _, hrecord⟩
    · exact ⟨[], id, u, rest, rfl, hzero.le, fun r u hr => absurd hr List.not_mem_nil⟩
    · rw [release, herror] at h
      cases h
    · rw [release_cons ht] at h
      obtain ⟨before, id, u, after, rfl, hle, hbefore⟩ := ih hreleased.own h
      refine ⟨a :: before, id, u, after, rfl, ?_, fun r u hr => ?_⟩
      · rw [hreleased.held] at hle
        rw [count_cons_eq]
        omega
      · rcases List.mem_cons.mp hr with rfl | hr
        · exact hrecord r u rfl
        · exact (hreleased.record r).mp (hbefore r u hr)

theorem release_of_isRefused (hown : OwnIds s)
    (h : IsRefused s allocations) : release s allocations = .ok none := by
  obtain ⟨before, id, u, after, rfl, hle, hbefore⟩ := h
  induction before generalizing s with
  | nil =>
    have hnone : releaseAllocation s (.discrete id, u) = .ok none := by
      rcases releaseAllocation_cases hown (.discrete id, u) with ⟨_, _, _, _, hnone⟩ |
        ⟨_, _, heq, _⟩ | ⟨t, _, _, hheld, _⟩
      · exact hnone
      · cases heq
      · exact absurd (Nat.le_zero.mp hle) (hheld id u rfl)
    rw [List.nil_append, release, hnone]
  | cons a before ih =>
    rw [List.cons_append]
    rcases releaseAllocation_cases hown a with ⟨_, _, _, _, hnone⟩ | ⟨r, u', rfl, hrecord, _⟩ |
      ⟨t, ht, hreleased, _⟩
    · rw [release, hnone]
    · exact absurd (hbefore r u' List.mem_cons_self) hrecord
    · rw [release_cons ht]
      refine ih hreleased.own ?_ fun r u' hr =>
        (hreleased.record r).mpr (hbefore r u' (List.mem_cons_of_mem a hr))
      rw [hreleased.held]
      rw [count_cons_eq] at hle
      omega

theorem release_eq (s : Store C U) (allocations : List (Resource C × U)) :
    s.release allocations = (release s allocations).toOption.join := by
  induction allocations generalizing s with
  | nil => rfl
  | cons a rest ih =>
    have hcons : s.release (a :: rest) =
        (releaseAllocation s a).toOption.join.bind fun t => t.release rest := by
      obtain ⟨id | r, u⟩ := a
      · simp only [Store.release, List.foldlM_cons, releaseAllocation]
        cases s.discrete.release u id <;> rfl
      · simp only [Store.release, List.foldlM_cons, releaseAllocation, ContinuousSubStore.release]
        cases hrecord : s.continuous.consumers.lookup r.id with
        | none => rfl
        | some a =>
          dsimp only
          rw [replace_of_lookup hrecord]
          rfl
    rw [hcons, release]
    cases hstep : releaseAllocation s a with
    | error e => rfl
    | ok found =>
      cases found with
      | none => rfl
      | some t => exact ih t

/-- A release is exact if and only if all that is listed is held, or a discrete allocation refuses
it. -/
theorem exact_iff_held_or_refused (hown : OwnIds s) (allocations : List (Resource C × U)) :
    IsExact s allocations ↔ AllHeld s allocations ∨ IsRefused s allocations := by
  constructor
  · intro h
    by_cases hheld : AllHeld s allocations
    · exact Or.inl hheld
    · have hnone : ∀ s', release s allocations ≠ .ok (some s') :=
        fun s' hs' => hheld (h.held.mpr ⟨s', hs'⟩)
      exact Or.inr (isRefused_of_release hown (h.refused hnone).1)
  · rintro (hheld | hrefused)
    · obtain ⟨s', hs', hcount⟩ := release_of_allHeld hown hheld
      refine ⟨fun t ht => ?_, fun hnone => absurd hs' (hnone s'), fun _ => ⟨s', hs'⟩,
        fun _ => hheld⟩
      obtain rfl : s' = t := Option.some.inj (Except.ok.inj (hs'.symm.trans ht))
      exact hcount
    · have hnone := release_of_isRefused hown hrefused
      refine ⟨fun t ht => ?_, fun _ => ⟨hnone, ?_⟩, fun hheld => ?_, ?_⟩
      · rw [hnone] at ht
        cases ht
      · change (s.release allocations).getD s = s
        rw [release_eq, hnone]
        rfl
      · obtain ⟨s', hs', -⟩ := release_of_allHeld hown hheld
        exact ⟨s', hs'⟩
      · rintro ⟨t, ht⟩
        rw [hnone] at ht
        cases ht

end Lists

section Runs

variable {s : Store C U}

section

omit [DecidableEq U]

theorem ownIds_consumers {s' : Store C U} (h : s'.continuous.consumers = s.continuous.consumers)
    (hown : OwnIds s) : OwnIds s' := by
  intro id a ha
  rw [h] at ha
  exact hown id a ha

theorem ownIds_register {s' : Store C U} {resources : List (Resource C)}
    (hr : s.register resources = some s') (hown : OwnIds s) : OwnIds s' := by
  refine foldlM_keeps OwnIds (fun t entry _ t' ht hstep => ?_) hr hown
  split_ifs at hstep
  exact ownIds_consumers (registerUnder_registers hstep).continuous ht

theorem ownIds_unregister {s' : Store C U} {ids : List (ResourceId C)}
    (hu : s.unregister ids = some s') (hown : OwnIds s) : OwnIds s' := by
  rcases unregister_cases s ids with ⟨-, hnone⟩ | ⟨-, t, hsome, ht⟩
  · rw [hnone] at hu
    cases hu
  · obtain rfl := Option.some.inj (hu.symm.trans hsome)
    exact ownIds_consumers ht.continuous hown

end

theorem ownIds_allocate {s' : Store C U} {resources : List (Resource C)} {consumerId : U}
    (ha : s.allocate resources consumerId = some s') (hown : OwnIds s) : OwnIds s' := by
  refine foldlM_keeps OwnIds (fun t resource _ t' ht hstep => ?_) ha hown
  cases resource with
  | discrete id =>
    obtain ⟨discrete, _, hstep⟩ := Option.bind_eq_some_iff.mp hstep
    obtain rfl := Option.some.inj hstep
    exact ht
  | continuous r =>
    obtain ⟨continuous, hcontinuous, hstep⟩ := Option.bind_eq_some_iff.mp hstep
    obtain rfl := Option.some.inj hstep
    obtain ⟨-, original, -, a, hrecord, -, hconsumers⟩ :=
      ContinuousSubStore.allocate_cases hcontinuous
    have ha : ∀ x ∈ a.allocations, x.resource.id = r.id := by
      rw [hrecord]
      cases hold : t.continuous.consumers.lookup r.id with
      | none => exact fun x hx => absurd hx List.not_mem_nil
      | some b => exact ht r.id b hold
    intro id b hb x hx
    rw [hconsumers, lookup_insert] at hb
    split_ifs at hb with hid
    · obtain rfl := Option.some.inj hb
      rw [hid]
      rcases List.mem_append.mp hx with hx | hx
      · exact ha x hx
      · rw [List.mem_singleton.mp hx]
    · exact ht id b hb x hx

theorem ownIds_release {s' : Store C U} {allocations : List (Resource C × U)}
    (hr : s.release allocations = some s') (hown : OwnIds s) : OwnIds s' := by
  rw [release_eq] at hr
  induction allocations generalizing s with
  | nil =>
    obtain rfl := Option.some.inj hr
    exact hown
  | cons a rest ih =>
    rcases releaseAllocation_cases hown a with ⟨_, _, _, _, hnone⟩ | ⟨_, _, _, _, _, herror⟩ |
      ⟨t, ht, hreleased, _⟩
    · rw [release, hnone] at hr
      cases hr
    · rw [release, herror] at hr
      cases hr
    · rw [release_cons ht] at hr
      exact ih hr hreleased.own

theorem ownIds_next (hown : OwnIds s) (x : StoreInput C U) : OwnIds (storeMachine.next s x) := by
  change OwnIds ((s.transaction x).getD s)
  cases hx : s.transaction x with
  | none => exact hown
  | some s' => cases x with
    | register resources => exact ownIds_register hx hown
    | unregister ids => exact ownIds_unregister hx hown
    | allocate resources consumerId => exact ownIds_allocate hx hown
    | release allocations => exact ownIds_release hx hown

theorem ownIds_run (xs : List (StoreInput C U)) :
    OwnIds ((storeMachine : Machine (Store C U) _).run activated xs) :=
  invariant_run OwnIds (fun _ x h _ => ownIds_next h x)
    (valid_of_enabled (fun _ _ => trivial) activated xs) (fun id a ha => by cases ha)

/-- In every state that is reached, a release is exact if and only if all that is listed is held, or
a discrete allocation refuses it. -/
theorem release_exact_iff (xs : List (StoreInput C U)) (allocations : List (Resource C × U)) :
    IsExact ((storeMachine : Machine (Store C U) _).run activated xs) allocations ↔
      AllHeld ((storeMachine : Machine (Store C U) _).run activated xs) allocations ∨
        IsRefused ((storeMachine : Machine (Store C U) _).run activated xs) allocations :=
  exact_iff_held_or_refused (ownIds_run xs) allocations

theorem not_isExact_continuous (hown : OwnIds s) {r : ContinuousResource C} {consumerId : U}
    (h : held s (.continuous r, consumerId) = 0) : ¬IsExact s [(.continuous r, consumerId)] := by
  rw [exact_iff_held_or_refused hown]
  rintro (hheld | ⟨before, id, u, after, heq, -⟩)
  · have hle := hheld (.continuous r, consumerId)
    rw [List.count_singleton_self, h] at hle
    omega
  · have hmem : (Resource.discrete id, u) ∈ [(Resource.continuous r, consumerId)] := by
      rw [heq]
      exact List.mem_append_right before List.mem_cons_self
    cases List.mem_singleton.mp hmem

/-- A bandwidth that was never allocated, and one that is allocated with another amount. -/
theorem not_exact : ¬IsExact ((storeMachine : Machine (Store ℕ ℕ) _).run activated
      [.register [.continuous (bandwidth 10)]]) [(.continuous (bandwidth 3), 7)] ∧
    ¬IsExact ((storeMachine : Machine (Store ℕ ℕ) _).run activated
      [.register [.continuous (bandwidth 10)], .allocate [.continuous (bandwidth 3)] 7])
        [(.continuous (bandwidth 4), 7)] :=
  ⟨not_isExact_continuous (ownIds_run _) (by decide),
    not_isExact_continuous (ownIds_run _) (by decide +kernel)⟩

end Runs

end ResourceReleases

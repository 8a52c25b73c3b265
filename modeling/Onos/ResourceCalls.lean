import Onos.ResourceStore

/-! Calls of the resource store on many threads. A call runs its transaction again until it is
aborted or its commit ends. A commit takes effect on the store as it is then; what an aborted
transaction has read may be out of date. -/
namespace ResourceCalls

open KeyedMap InputMachine ResourceSubStores ResourceStore

/-- How the wait for a commit ends. An exception (a timeout, an interrupt, a failure) says
nothing about the commit, which may still be applied. -/
inductive CommitStatus where
  | SUCCESS
  | FAILURE
  | exception (applied : Bool)
  deriving DecidableEq, Repr

inductive Attempt (C U : Type*) where
  | abortTransaction (snapshot : Store C U)
  | commitTransaction (status : CommitStatus)

structure Answer (C U : Type*) where
  call : StoreInput C U
  returned : Bool
  before : Store C U
  after : Store C U

structure Callers (ι C U : Type*) where
  store : Store C U
  calls : ι → Option (StoreInput C U)
  answers : List (Answer C U)

inductive CallInput (ι C U : Type*) where
  | call (thread : ι) (x : StoreInput C U)
  | attempt (thread : ι) (a : Attempt C U)

variable {ι C U : Type*} [DecidableEq ι]

def Callers.answer (s : Callers ι C U) (thread : ι) (call : StoreInput C U) (returned : Bool)
    (after : Store C U) : Callers ι C U where
  store := after
  calls := Function.update s.calls thread none
  answers := s.answers ++ [⟨call, returned, s.store, after⟩]

variable [DecidableEq C] [DecidableEq U]

def Callers.attempt (s : Callers ι C U) (thread : ι) (x : StoreInput C U) :
    Attempt C U → Callers ι C U
  | .abortTransaction _ => s.answer thread x false s.store
  | .commitTransaction status => match s.store.transaction x, status with
    | none, _ => s
    | some after, .SUCCESS => s.answer thread x true after
    | some _, .FAILURE => s
    | some after, .exception applied =>
      s.answer thread x false (if applied then after else s.store)

def Callers.handle (s : Callers ι C U) : CallInput ι C U → Callers ι C U
  | .call thread x => { s with calls := Function.update s.calls thread (some x) }
  | .attempt thread a => match s.calls thread with
    | none => s
    | some x => s.attempt thread x a

/-- A thread makes one call at a time, and a transaction is aborted when the store it has read
does not allow it, else committed. -/
def Callers.Accepts (s : Callers ι C U) : CallInput ι C U → Prop
  | .call thread _ => s.calls thread = none
  | .attempt thread a => ∃ x, s.calls thread = some x ∧ match a with
    | .abortTransaction snapshot => snapshot.transaction x = none
    | .commitTransaction _ => (s.store.transaction x).isSome

def callersMachine : Machine (Callers ι C U) (CallInput ι C U) where
  initial := ⟨activated, fun _ => none, []⟩
  enabled := Callers.Accepts
  next := Callers.handle

section Allocations

def allocationsTo (s : Store C U) (r : ContinuousResource C) (consumerId : U) : ℕ :=
  (s.continuous.getResourceAllocations r.id).count ⟨r, consumerId⟩

/-- Every listed resource is allocated: a discrete one was free and is owned, and a continuous one
has been allocated once more for each time it is listed. -/
structure Allocated (resources : List (Resource C)) (consumerId : U) (before after : Store C U) :
    Prop where
  free : ∀ id, .discrete id ∈ resources → before.discrete.consumers.lookup id = none
  discrete : ∀ id, .discrete id ∈ resources → after.discrete.consumers.lookup id = some consumerId
  continuous : ∀ r, allocationsTo after r consumerId =
    allocationsTo before r consumerId + resources.count (.continuous r)

variable {s' : Store C U}

theorem allocate_cons (s : Store C U) (resource : Resource C) (resources : List (Resource C))
    (consumerId : U)
    (h : s.allocate (resource :: resources) consumerId = some s') :
    ∃ t, s.allocate [resource] consumerId = some t ∧ t.allocate resources consumerId = some s' := by
  unfold Store.allocate at h ⊢
  rw [List.foldlM_cons] at h
  obtain ⟨t, ht, hrest⟩ := Option.bind_eq_some_iff.mp h
  refine ⟨t, ?_, hrest⟩
  rw [List.foldlM_cons, ht]
  rfl

variable {s t : Store C U} {id : DiscreteResourceId C} {consumerId : U}

theorem allocate_discrete (h : s.allocate [.discrete id] consumerId = some t) :
    t.continuous = s.continuous ∧ s.discrete.consumers.lookup id = none ∧
      t.discrete.consumers = s.discrete.consumers.insert id consumerId := by
  obtain ⟨_, hstep, hrest⟩ := Option.bind_eq_some_iff.mp h
  obtain ⟨discrete, hdiscrete, hstep⟩ := Option.bind_eq_some_iff.mp hstep
  obtain rfl := Option.some.inj hstep
  obtain rfl := Option.some.inj hrest
  obtain ⟨_, _, hfree, hconsumers⟩ := DiscreteSubStore.allocate_cases hdiscrete
  exact ⟨rfl, hfree, hconsumers⟩

theorem allocate_continuous {r : ContinuousResource C}
    (h : s.allocate [.continuous r] consumerId = some t) :
    t.discrete = s.discrete ∧
      s.continuous.allocate consumerId r = some t.continuous := by
  obtain ⟨_, hstep, hrest⟩ := Option.bind_eq_some_iff.mp h
  obtain ⟨continuous, hcontinuous, hstep⟩ := Option.bind_eq_some_iff.mp hstep
  obtain rfl := Option.some.inj hstep
  obtain rfl := Option.some.inj hrest
  exact ⟨rfl, hcontinuous⟩

theorem allocationsTo_discrete
    (h : s.allocate [.discrete id] consumerId = some t) (r : ContinuousResource C) :
    allocationsTo t r consumerId = allocationsTo s r consumerId := by
  unfold allocationsTo
  rw [(allocate_discrete h).1]

theorem allocationsTo_eq (s : Store C U) (r : ContinuousResource C) (consumerId : U) :
    allocationsTo s r consumerId = (((s.continuous.consumers.lookup r.id).map
      ContinuousResourceAllocation.allocations).getD []).count
        (⟨r, consumerId⟩ : ResourceAllocation C U) := by
  unfold allocationsTo ContinuousSubStore.getResourceAllocations
  cases s.continuous.consumers.lookup r.id with
  | none => rfl
  | some a => exact List.count_filter (decide_eq_true rfl)

theorem allocationsTo_continuous {request : ContinuousResource C}
    (h : s.allocate [.continuous request] consumerId = some t)
    (r : ContinuousResource C) :
    allocationsTo t r consumerId =
      allocationsTo s r consumerId + if request = r then 1 else 0 := by
  obtain ⟨_, original, _, a, ha, _, hconsumers⟩ :=
    ContinuousSubStore.allocate_cases (allocate_continuous h).2
  rw [allocationsTo_eq, allocationsTo_eq, hconsumers, lookup_insert]
  by_cases hid : r.id = request.id
  · have hbefore : ((s.continuous.consumers.lookup r.id).map
        ContinuousResourceAllocation.allocations).getD [] = a.allocations := by
      rw [ha, hid]
      cases s.continuous.consumers.lookup request.id <;> rfl
    rw [if_pos hid, hbefore]
    change (a.allocations ++ [(⟨request, consumerId⟩ : ResourceAllocation C U)]).count _ = _
    rw [List.count_append, List.count_singleton]
    by_cases heq : request = r
    · rw [if_pos heq, heq, beq_self_eq_true, if_pos rfl]
    · rw [if_neg heq, if_neg]
      intro hbeq
      exact heq (congrArg ResourceAllocation.resource (eq_of_beq hbeq))
  · have hne : request ≠ r := fun heq => hid (heq ▸ rfl)
    rw [if_neg hid, if_neg hne, Nat.add_zero]

variable {resources : List (Resource C)} {u : U}

theorem allocate_keeps_owner (h : s.allocate resources consumerId = some s')
    (howned : s.discrete.consumers.lookup id = some u) :
    s'.discrete.consumers.lookup id = some u := by
  induction resources generalizing s with
  | nil => exact Option.some.inj h ▸ howned
  | cons resource resources ih =>
    obtain ⟨t, ht, hrest⟩ := allocate_cons s resource resources consumerId h
    refine ih hrest ?_
    cases resource with
    | discrete id' =>
      obtain ⟨_, hfree, hconsumers⟩ := allocate_discrete ht
      rw [hconsumers, lookup_insert, if_neg]
      · exact howned
      · rintro rfl
        rw [hfree] at howned
        cases howned
    | continuous r => rw [(allocate_continuous ht).1, howned]

theorem allocated_of_allocate
    (h : s.allocate resources consumerId = some s') : Allocated resources consumerId s s' := by
  induction resources generalizing s with
  | nil =>
    obtain rfl := Option.some.inj h
    exact ⟨fun _ hid => absurd hid List.not_mem_nil, fun _ hid => absurd hid List.not_mem_nil,
      fun _ => rfl⟩
  | cons resource resources ih =>
    obtain ⟨t, ht, hrest⟩ := allocate_cons s resource resources consumerId h
    have hlater := ih hrest
    cases resource with
    | discrete id =>
      obtain ⟨_, hfree, hconsumers⟩ := allocate_discrete ht
      have hhead : t.discrete.consumers.lookup id = some consumerId := by
        rw [hconsumers, lookup_insert, if_pos rfl]
      refine ⟨fun id' hid' => ?_, fun id' hid' => ?_, fun r => ?_⟩
      · rcases List.mem_cons.mp hid' with heq | hmem
        · cases heq
          exact hfree
        · have hfree' := hlater.free id' hmem
          rw [hconsumers, lookup_insert] at hfree'
          split_ifs at hfree' with hne
          exact hfree'
      · rcases List.mem_cons.mp hid' with heq | hmem
        · cases heq
          exact allocate_keeps_owner hrest hhead
        · exact hlater.discrete id' hmem
      · rw [hlater.continuous, allocationsTo_discrete ht, List.count_cons_of_ne]
        exact fun heq => nomatch heq
    | continuous request =>
      obtain ⟨hdiscrete, _⟩ := allocate_continuous ht
      refine ⟨fun id' hid' => ?_, fun id' hid' => ?_, fun r => ?_⟩
      · rcases List.mem_cons.mp hid' with heq | hmem
        · cases heq
        · rw [← hdiscrete]
          exact hlater.free id' hmem
      · rcases List.mem_cons.mp hid' with heq | hmem
        · cases heq
        · exact hlater.discrete id' hmem
      · rw [hlater.continuous, allocationsTo_continuous ht, List.count_cons]
        simp only [beq_iff_eq, Resource.continuous.injEq]
        omega

theorem release_owner {allocations : List (Resource C × U)} (h : s.release allocations = some s')
    (howned : s.discrete.consumers.lookup id = some u) :
    s'.discrete.consumers.lookup id = some u ∨ (.discrete id, u) ∈ allocations := by
  refine foldlM_keeps (fun t : Store C U => t.discrete.consumers.lookup id = some u ∨
    (.discrete id, u) ∈ allocations) (fun t allocation hmem t' ht hstep => ?_) h (Or.inl howned)
  rcases ht with ht | ht
  · obtain ⟨resource, u'⟩ := allocation
    cases resource with
    | discrete id' =>
      obtain ⟨discrete, hdiscrete, hstep⟩ := Option.bind_eq_some_iff.mp hstep
      obtain rfl := Option.some.inj hstep
      obtain ⟨_, howner, hconsumers⟩ := DiscreteSubStore.release_cases hdiscrete
      by_cases hid : id = id'
      · subst hid
        obtain rfl := Option.some.inj (ht.symm.trans howner)
        exact Or.inr hmem
      · left
        rw [hconsumers, lookup_erase, if_neg hid]
        exact ht
    | continuous r =>
      obtain ⟨continuous, _, hstep⟩ := Option.bind_eq_some_iff.mp hstep
      obtain rfl := Option.some.inj hstep
      exact Or.inl ht
  · exact Or.inr ht

section

omit [DecidableEq U]

theorem registerUnder_consumers {parent : DiscreteResourceId C}
    (h : s.registerUnder parent resources = some s') :
    s'.discrete.consumers = s.discrete.consumers := by
  obtain ⟨discrete, hdiscrete, h⟩ := Option.bind_eq_some_iff.mp h
  obtain ⟨continuous, _, h⟩ := Option.bind_eq_some_iff.mp h
  obtain rfl := Option.some.inj h
  obtain ⟨found, hfound, hconsumers, _⟩ := s.discrete.register_cases parent
    (discreteResources resources).toFinset
  obtain rfl := Option.some.inj (hdiscrete.symm.trans hfound)
  exact hconsumers

theorem unregisterUnder_consumers {parent : DiscreteResourceId C}
    (h : s.unregisterUnder parent resources = some s') :
    s'.discrete.consumers = s.discrete.consumers := by
  obtain ⟨discrete, hdiscrete, h⟩ := Option.bind_eq_some_iff.mp h
  obtain ⟨continuous, _, h⟩ := Option.bind_eq_some_iff.mp h
  obtain rfl := Option.some.inj h
  rcases s.discrete.unregister_cases parent (discreteResources resources).toFinset with
    ⟨_, hnone⟩ | ⟨_, found, hfound, hconsumers, _⟩
  · rw [hnone] at hdiscrete
    cases hdiscrete
  · obtain rfl := Option.some.inj (hdiscrete.symm.trans hfound)
    exact hconsumers

end

theorem transaction_owner {x : StoreInput C U} (h : s.transaction x = some s')
    (howned : s.discrete.consumers.lookup id = some u) :
    s'.discrete.consumers.lookup id = some u ∨
      ∃ allocations, x = .release allocations ∧ (.discrete id, u) ∈ allocations := by
  cases x with
  | register resources =>
    left
    refine foldlM_keeps (fun t : Store C U => t.discrete.consumers.lookup id = some u)
      (fun t entry _ t' ht hstep => ?_) h howned
    split_ifs at hstep
    rw [registerUnder_consumers hstep]
    exact ht
  | unregister ids =>
    left
    refine foldlM_keeps (fun t : Store C U => t.discrete.consumers.lookup id = some u)
      (fun t entry _ t' ht hstep => ?_) h howned
    rw [unregisterUnder_consumers hstep]
    exact ht
  | allocate resources consumerId => exact Or.inl (allocate_keeps_owner h howned)
  | release allocations =>
    rcases release_owner h howned with howned' | hmem
    · exact Or.inl howned'
    · exact Or.inr ⟨allocations, rfl, hmem⟩

end Allocations

section Answers

def Answer.Allocates (a : Answer C U) (id : DiscreteResourceId C) (u : U) : Prop :=
  a.returned = true ∧ ∃ resources, a.call = .allocate resources u ∧ .discrete id ∈ resources

def Answer.Releases (a : Answer C U) (id : DiscreteResourceId C) (u : U) : Prop :=
  a.returned = true ∧ ∃ allocations, a.call = .release allocations ∧
    (.discrete id, u) ∈ allocations

structure Answer.Atomic (a : Answer C U) : Prop where
  allocated : ∀ resources u, a.call = .allocate resources u → a.returned = true →
    Allocated resources u a.before a.after
  unchanged : a.returned = false → a.after = a.before
  owner : ∀ id u, a.before.discrete.consumers.lookup id = some u →
    a.after.discrete.consumers.lookup id = some u ∨ a.Releases id u

theorem atomic_of_transaction {s after : Store C U} {x : StoreInput C U}
    (h : s.transaction x = some after) : (⟨x, true, s, after⟩ : Answer C U).Atomic := by
  refine ⟨fun resources u hx _ => ?_, fun hfalse => absurd hfalse Bool.noConfusion,
    fun id u howned => ?_⟩
  · obtain rfl : x = .allocate resources u := hx
    exact allocated_of_allocate h
  · rcases transaction_owner h howned with howned' | hrelease
    · exact Or.inl howned'
    · exact Or.inr ⟨rfl, hrelease⟩

theorem atomic_of_unchanged (s : Store C U) (x : StoreInput C U) :
    (⟨x, false, s, s⟩ : Answer C U).Atomic :=
  ⟨fun _ _ _ htrue => absurd htrue Bool.noConfusion, fun _ => rfl, fun _ _ h => Or.inl h⟩

def Linked (s : Store C U) : List (Answer C U) → Store C U → Prop
  | [], t => s = t
  | a :: answers, t => a.before = s ∧ Linked a.after answers t

omit [DecidableEq C] [DecidableEq U] in
theorem linked_append (s t : Store C U) (answers answers' : List (Answer C U)) :
    Linked s (answers ++ answers') t ↔ ∃ u, Linked s answers u ∧ Linked u answers' t := by
  induction answers generalizing s with
  | nil => exact ⟨fun h => ⟨s, rfl, h⟩, fun ⟨_, hs, h⟩ => hs ▸ h⟩
  | cons a answers ih =>
    rw [List.cons_append]
    constructor
    · rintro ⟨ha, hrest⟩
      obtain ⟨u, hu, ht⟩ := (ih a.after).mp hrest
      exact ⟨u, ⟨ha, hu⟩, ht⟩
    · rintro ⟨u, ⟨ha, hu⟩, ht⟩
      exact ⟨ha, (ih a.after).mpr ⟨u, hu, ht⟩⟩

theorem owned_until_released {answers : List (Answer C U)} (hatomic : ∀ a ∈ answers, a.Atomic)
    {s t : Store C U} (hlinked : Linked s answers t) {id : DiscreteResourceId C} {u : U}
    (howned : s.discrete.consumers.lookup id = some u) :
    t.discrete.consumers.lookup id = some u ∨ ∃ a ∈ answers, a.Releases id u := by
  induction answers generalizing s with
  | nil => exact Or.inl (hlinked ▸ howned)
  | cons a answers ih =>
    obtain ⟨rfl, hrest⟩ := hlinked
    rcases (hatomic a List.mem_cons_self).owner id u howned with howned' | hreleased
    · rcases ih (fun b hb => hatomic b (List.mem_cons_of_mem a hb)) hrest howned' with h | h
      · exact Or.inl h
      · obtain ⟨b, hb, hreleased⟩ := h
        exact Or.inr ⟨b, List.mem_cons_of_mem a hb, hreleased⟩
    · exact Or.inr ⟨a, List.mem_cons_self, hreleased⟩

/-- Between two answered allocations of a discrete resource the first owner has released it. -/
def Exclusive (answers : List (Answer C U)) : Prop :=
  ∀ pre a mid b post, answers = pre ++ a :: mid ++ b :: post →
    ∀ id u u', a.Allocates id u → b.Allocates id u' → ∃ c ∈ mid, c.Releases id u

theorem exclusive_of_atomic {answers : List (Answer C U)} (hatomic : ∀ a ∈ answers, a.Atomic)
    {s t : Store C U} (hlinked : Linked s answers t) : Exclusive answers := by
  rintro pre a mid b post rfl id u u' ⟨hatrue, resources, hacall, hamem⟩
    ⟨hbtrue, resources', hbcall, hbmem⟩
  obtain ⟨_, hpre, hbefore, _⟩ := (linked_append _ _ _ _).mp hlinked
  obtain ⟨_, _, _, hmid⟩ := (linked_append _ _ _ _).mp hpre
  have hmem : ∀ c ∈ mid, c ∈ pre ++ a :: mid ++ b :: post := fun c hc => by simp [hc]
  have ha := (hatomic a (by simp)).allocated resources u hacall hatrue
  have hb := (hatomic b (by simp)).allocated resources' u' hbcall hbtrue
  rcases owned_until_released (fun c hc => hatomic c (hmem c hc)) hmid
    (ha.discrete id hamem) with howned | hreleased
  · rw [← hbefore, hb.free id hbmem] at howned
    cases howned
  · exact hreleased

end Answers

section Runs

def Awaited : CallInput ι C U → Prop
  | .attempt _ (.commitTransaction (.exception applied)) => applied = false
  | _ => True

instance : (x : CallInput ι C U) → Decidable (Awaited x)
  | .attempt _ (.commitTransaction (.exception applied)) =>
    inferInstanceAs (Decidable (applied = false))
  | .attempt _ (.commitTransaction .SUCCESS) => isTrue trivial
  | .attempt _ (.commitTransaction .FAILURE) => isTrue trivial
  | .attempt _ (.abortTransaction _) => isTrue trivial
  | .call _ _ => isTrue trivial

structure AnsweredAtomically (s : Callers ι C U) : Prop where
  linked : Linked activated s.answers s.store
  atomic : ∀ a ∈ s.answers, a.Atomic

theorem answeredAtomically_answer {s : Callers ι C U} (h : AnsweredAtomically s) (thread : ι)
    {x : StoreInput C U} {returned : Bool} {after : Store C U}
    (hatomic : (⟨x, returned, s.store, after⟩ : Answer C U).Atomic) :
    AnsweredAtomically (s.answer thread x returned after) := by
  refine ⟨?_, fun a ha => ?_⟩
  · exact (linked_append _ _ _ _).mpr ⟨s.store, h.linked, rfl, rfl⟩
  · rcases List.mem_append.mp ha with hold | hnew
    · exact h.atomic a hold
    · obtain rfl := List.mem_singleton.mp hnew
      exact hatomic

theorem answeredAtomically_handle {s : Callers ι C U} (h : AnsweredAtomically s)
    (x : CallInput ι C U) (hx : Awaited x) : AnsweredAtomically (s.handle x) := by
  cases x with
  | call thread call => exact ⟨h.linked, h.atomic⟩
  | attempt thread a =>
    simp only [Callers.handle]
    cases s.calls thread with
    | none => exact h
    | some call =>
      cases a with
      | abortTransaction snapshot =>
        exact answeredAtomically_answer h thread (atomic_of_unchanged s.store call)
      | commitTransaction status =>
        simp only [Callers.attempt]
        cases ht : s.store.transaction call with
        | none => exact h
        | some after =>
          cases status with
          | SUCCESS => exact answeredAtomically_answer h thread (atomic_of_transaction ht)
          | FAILURE => exact h
          | exception applied =>
            obtain rfl : applied = false := hx
            exact answeredAtomically_answer h thread (atomic_of_unchanged s.store call)

/-- While every applied commit is answered, discrete resources are owned by one consumer at a
time and calls are atomic. -/
theorem calls_exclusive_and_atomic {xs : List (CallInput ι C U)}
    (hv : ((callersMachine : Machine (Callers ι C U) _).guarded fun _ x => Awaited x).Valid
      callersMachine.initial xs) :
    let s := (callersMachine : Machine (Callers ι C U) _).run callersMachine.initial xs
    Linked activated s.answers s.store ∧ Exclusive s.answers ∧ ∀ a ∈ s.answers, a.Atomic := by
  intro s
  have hstep : ∀ (t : Callers ι C U) x, AnsweredAtomically t →
      ((callersMachine : Machine (Callers ι C U) _).guarded fun _ x => Awaited x).enabled t x →
      AnsweredAtomically (t.handle x) := fun t x h hx => answeredAtomically_handle h x hx.2
  have hs : AnsweredAtomically s := invariant_run AnsweredAtomically hstep hv
    ⟨rfl, fun _ ha => absurd ha List.not_mem_nil⟩
  exact ⟨hs.linked, exclusive_of_atomic hs.atomic hs.linked, hs.atomic⟩

end Runs

section Regression

/-- A port is registered under the root, and then allocated on another thread. -/
def allocation (status : CommitStatus) : List (CallInput ℕ ℕ ℕ) :=
  [.call 0 (.register [.discrete [1]]), .attempt 0 (.commitTransaction .SUCCESS),
    .call 1 (.allocate [.discrete [1]] 7), .attempt 1 (.commitTransaction status)]

/-- The wait for the commit times out, and the commit is applied. -/
theorem allocated_and_refused :
    let s := callersMachine.run callersMachine.initial (allocation (.exception true))
    callersMachine.Valid callersMachine.initial (allocation (.exception true)) ∧
      ¬ ∀ a ∈ s.answers, a.returned = false → a.after = a.before := by
  intro s
  refine ⟨⟨rfl, ⟨_, rfl, by decide⟩, rfl, ⟨_, rfl, by decide⟩, trivial⟩, fun h => ?_⟩
  have hrefused : ∃ a ∈ s.answers, a.returned = false ∧
      a.before.discrete.consumers.lookup [1] = none ∧
      a.after.discrete.consumers.lookup [1] = some 7 := by
    refine ⟨s.answers.get ⟨1, by decide⟩, List.get_mem _ _, ?_⟩
    decide
  obtain ⟨a, ha, hfalse, hbefore, hafter⟩ := hrefused
  rw [h a ha hfalse, hbefore] at hafter
  cases hafter

theorem calls_exclusive_and_atomic_once :
    let s := callersMachine.run callersMachine.initial (allocation .SUCCESS)
    Linked activated s.answers s.store ∧ Exclusive s.answers ∧ ∀ a ∈ s.answers, a.Atomic := by
  have hv : (callersMachine.guarded fun _ x => Awaited x).Valid callersMachine.initial
      (allocation .SUCCESS) :=
    ⟨⟨rfl, trivial⟩, ⟨⟨_, rfl, by decide⟩, trivial⟩, ⟨rfl, trivial⟩,
      ⟨⟨_, rfl, by decide⟩, trivial⟩, trivial⟩
  exact calls_exclusive_and_atomic hv

end Regression

end ResourceCalls

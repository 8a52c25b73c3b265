import Onos.ResourceAvailability
import Onos.ResourceCalls
import Mathlib.Data.Finset.Option
import Mathlib.Data.Finset.Sort

/-! Labels for the links of a path. The allocator looks at what is available on both ends of each
link, selects the labels, and asks for all of them in one allocation. -/
namespace LabelAllocator

open KeyedMap ResourceSubStores ResourceStore

inductive EncapsulationType where
  | NONE
  | MPLS
  | VLAN
  deriving DecidableEq

inductive OptimizationBehavior where
  | NONE
  | NO_SWAP
  | MIN_SWAP
  deriving DecidableEq

inductive Identifier where
  | vlanId (value : ℕ)
  | mplsLabel (value : ℕ)
  deriving DecidableEq

inductive Component (D P : Type*) where
  | deviceId (deviceId : D)
  | port (port : P)
  | identifier (identifier : Identifier)
  deriving DecidableEq

structure ConnectPoint (D P : Type*) where
  deviceId : D
  port : P
  deriving DecidableEq

inductive LinkType where
  | DIRECT | INDIRECT | EDGE | TUNNEL | OPTICAL | VIRTUAL
  deriving DecidableEq

structure Link (D P : Type*) where
  src : ConnectPoint D P
  dst : ConnectPoint D P
  type : LinkType
  deriving DecidableEq

structure LinkKey (D P : Type*) where
  src : ConnectPoint D P
  dst : ConnectPoint D P
  deriving DecidableEq

/-- A selection picks one of the values when there are any. It may have a state, as the generator of
random numbers. -/
structure LabelSelection (ρ : Type*) where
  select : Finset Identifier → ρ → Option Identifier × ρ
  mem_of_select : ∀ {values r x}, (select values r).1 = some x → x ∈ values

structure Iteration where
  order : Finset Identifier → List Identifier
  mem_order : ∀ {values x}, x ∈ order values ↔ x ∈ values

inductive NullPointerException where
  | mk
  deriving DecidableEq

variable {D P U ρ : Type*}

def firstFitSelection (iteration : Iteration) : LabelSelection Unit where
  select values r := ((iteration.order values).head?, r)
  mem_of_select h := iteration.mem_order.mp (List.mem_of_head? h)

def randomSelection (iteration : Iteration) : LabelSelection (ℕ → ℕ) where
  select values r :=
    if values = ∅ then (none, r)
    else ((iteration.order values)[r 0 % values.card]?, fun i => r (i + 1))
  mem_of_select {values r x} h := by
    split_ifs at h
    exact iteration.mem_order.mp (List.mem_of_getElem? h)

def linkKey (link : Link D P) : LinkKey D P := ⟨link.src, link.dst⟩

def discrete (cp : ConnectPoint D P) : DiscreteResourceId (Component D P) :=
  [.deviceId cp.deviceId, .port cp.port]

def discreteLabel (cp : ConnectPoint D P) (x : Identifier) : DiscreteResourceId (Component D P) :=
  [.deviceId cp.deviceId, .port cp.port, .identifier x]

def isEncapsulationClass : EncapsulationType → Identifier → Bool
  | .MPLS, .mplsLabel _ | .VLAN, .vlanId _ | .NONE, .vlanId _ => true
  | _, _ => false

def valueAs (type : EncapsulationType) (id : DiscreteResourceId (Component D P)) :
    Option Identifier :=
  match id.getLast? with
  | some (.identifier x) => if isEncapsulationClass type x then some x else none
  | _ => none

variable [DecidableEq D] [DecidableEq P] [DecidableEq U]

section Candidates

variable (s : Store (Component D P) U) (type : EncapsulationType)

def getAvailableResourceValues (parent : DiscreteResourceId (Component D P)) : Finset Identifier :=
  ((s.discrete.children parent).filter fun id => s.discrete.isAvailable id).biUnion fun id =>
    (valueAs type id).toFinset

def getAvailableIDs (cp : ConnectPoint D P) : Finset Identifier :=
  getAvailableResourceValues s type (discrete cp)

def getCandidates (link : LinkKey D P) : Finset Identifier :=
  getAvailableIDs s type link.src ∩ getAvailableIDs s type link.dst

variable (labelSelection : LabelSelection ρ)

def noOptimizeBehavior : List (LinkKey D P) → ρ → Table (LinkKey D P) Identifier →
    Table (LinkKey D P) Identifier × ρ
  | [], r, ids => (ids, r)
  | link :: links, r, ids => match labelSelection.select (getCandidates s type link) r with
    | (none, r) => (∅, r)
    | (some selected, r) => noOptimizeBehavior links r (ids.insert link selected)

def intersect (candidates : Option (Finset Identifier)) (link : LinkKey D P) :
    Option (Finset Identifier) :=
  match candidates with
  | none => some (getCandidates s type link)
  | some candidates => some (candidates ∩ getCandidates s type link)

def noSwapBehavior (links : List (LinkKey D P)) (r : ρ) :
    Except NullPointerException (Table (LinkKey D P) Identifier × ρ) :=
  match links.foldl (intersect s type) none with
  | none => .error .mk
  | some candidates => match labelSelection.select candidates r with
    | (none, r) => .ok (∅, r)
    | (some selected, r) => .ok (links.foldl (fun ids linkKey => ids.insert linkKey selected) ∅, r)

def minSwapBehavior : List (LinkKey D P) → Option Identifier → ρ → Table (LinkKey D P) Identifier →
    Table (LinkKey D P) Identifier × ρ
  | [], _, r, ids => (ids, r)
  | link :: links, selected, r, ids =>
    let candidates := getCandidates s type link
    match selected.filter (· ∈ candidates) with
    | some selected => minSwapBehavior links (some selected) r (ids.insert link selected)
    | none => match labelSelection.select candidates r with
      | (none, r) => (∅, r)
      | (some selected, r) => minSwapBehavior links (some selected) r (ids.insert link selected)

def findAvailableIDs (optLabelSelection : OptimizationBehavior) (links : List (LinkKey D P)) (r : ρ) :
    Except NullPointerException (Table (LinkKey D P) Identifier × ρ) :=
  match optLabelSelection with
  | .NO_SWAP => noSwapBehavior s type labelSelection links r
  | .MIN_SWAP => .ok (minSwapBehavior s type labelSelection links none r ∅)
  | .NONE => .ok (noOptimizeBehavior s type labelSelection links r ∅)

end Candidates

def endResources (entry : Sigma fun _ : LinkKey D P => Identifier) : List (Resource (Component D P)) :=
  [.discrete (discreteLabel entry.1.src entry.2), .discrete (discreteLabel entry.1.dst entry.2)]

def requestedResources (ids : Table (LinkKey D P) Identifier) : List (Resource (Component D P)) :=
  (ids.entries.flatMap endResources).dedup

def allocate (s : Store (Component D P) U) (consumer : U) (resources : List (Resource (Component D P))) :
    List (Resource (Component D P) × U) × Store (Component D P) U :=
  match s.allocate resources consumer with
  | none => ([], s)
  | some s' => (resources.map (·, consumer), s')

def linkRequest (links : List (Link D P)) : List (LinkKey D P) := (links.map linkKey).eraseDups

def assignLabelToLinks (s : Store (Component D P) U) (labelSelection : LabelSelection ρ)
    (optLabelSelection : OptimizationBehavior) (r : ρ) (links : List (Link D P))
    (resourceConsumer : U) (type : EncapsulationType) :
    Except NullPointerException
      (Table (LinkKey D P) Identifier × Store (Component D P) U × ρ) :=
  match findAvailableIDs s type labelSelection optLabelSelection (linkRequest links) r with
  | .error e => .error e
  | .ok (availableIds, r) =>
    if availableIds.entries.isEmpty then .ok (∅, s, r)
    else
      let (allocations, s') := allocate s resourceConsumer (requestedResources availableIds)
      if allocations.isEmpty then .ok (∅, s', r) else .ok (availableIds, s', r)

section Candidates

variable {s : Store (Component D P) U} {type : EncapsulationType} {link : LinkKey D P}
  {links : List (LinkKey D P)} {ids : Table (LinkKey D P) Identifier} {x : Identifier}

/-- The links that have a label, each one that is available on both ends. -/
structure IsLabelled (s : Store (Component D P) U) (type : EncapsulationType)
    (links : List (LinkKey D P)) (ids : Table (LinkKey D P) Identifier) : Prop where
  keys : ∀ k, (ids.lookup k).isSome ↔ k ∈ links
  candidate : ∀ k x, ids.lookup k = some x → x ∈ getCandidates s type k

/-- The label changes between two links only where the first one's is not available. -/
def SwapsIfNeeded (s : Store (Component D P) U) (type : EncapsulationType)
    (ids : Table (LinkKey D P) Identifier) (k k' : LinkKey D P) : Prop :=
  ∀ x x', ids.lookup k = some x → ids.lookup k' = some x' → x ≠ x' → x ∉ getCandidates s type k'

variable (s type) in
omit [DecidableEq U] in
theorem isLabelled_nil : IsLabelled s type [] ∅ where
  keys k := by simp
  candidate k x h := by simp at h

omit [DecidableEq U] in
theorem IsLabelled.insert (h : IsLabelled s type links ids) (hx : x ∈ getCandidates s type link) :
    IsLabelled s type (links ++ [link]) (ids.insert link x) := by
  refine ⟨fun k => ?_, fun k x' hk => ?_⟩
  · rw [lookup_insert, List.mem_append, List.mem_singleton, ← h.keys k]
    split_ifs with heq
    · simp [heq]
    · simp [heq]
  · rw [lookup_insert] at hk
    split_ifs at hk with heq
    · obtain rfl := Option.some.inj hk
      rwa [heq]
    · exact h.candidate k x' hk

variable {labelSelection : LabelSelection ρ} {r : ρ}

variable {seen : List (LinkKey D P)}

variable (labelSelection r links) in
omit [DecidableEq U] in
theorem noOptimizeBehavior_cases (h : IsLabelled s type seen ids) :
    (noOptimizeBehavior s type labelSelection links r ids).1 = ∅ ∨
      IsLabelled s type (seen ++ links) (noOptimizeBehavior s type labelSelection links r ids).1 := by
  induction links generalizing seen r ids with
  | nil =>
    rw [List.append_nil]
    exact Or.inr h
  | cons link links ih =>
    rw [noOptimizeBehavior]
    rcases hselect : labelSelection.select (getCandidates s type link) r with ⟨_ | selected, r'⟩
    · exact Or.inl rfl
    · have hmem := labelSelection.mem_of_select (congrArg Prod.fst hselect)
      have hrest := ih (r := r') (h.insert hmem)
      rwa [List.append_assoc] at hrest

omit [DecidableEq U] in
theorem foldl_intersect (links : List (LinkKey D P)) (c : Finset Identifier) :
    ∃ c' ⊆ c, links.foldl (intersect s type) (some c) = some c' ∧
      ∀ link ∈ links, c' ⊆ getCandidates s type link := by
  induction links generalizing c with
  | nil => exact ⟨c, Finset.Subset.refl c, rfl, fun _ h => absurd h List.not_mem_nil⟩
  | cons link links ih =>
    obtain ⟨c', hsub, heq, hlinks⟩ := ih (c ∩ getCandidates s type link)
    refine ⟨c', hsub.trans Finset.inter_subset_left, heq, ?_⟩
    exact List.forall_mem_cons.mpr ⟨hsub.trans Finset.inter_subset_right, hlinks⟩

variable (s type) in
omit [DecidableEq U] in
theorem foldl_intersect_none (hlinks : links ≠ []) :
    ∃ c, links.foldl (intersect s type) none = some c ∧
      ∀ link ∈ links, c ⊆ getCandidates s type link := by
  obtain ⟨link, links, rfl⟩ := List.exists_cons_of_ne_nil hlinks
  obtain ⟨c, hsub, heq, hrest⟩ := foldl_intersect links (getCandidates s type link)
  exact ⟨c, heq, List.forall_mem_cons.mpr ⟨hsub, hrest⟩⟩

omit [DecidableEq U] in
theorem foldl_insert_isLabelled (h : IsLabelled s type seen ids)
    (hx : ∀ link ∈ links, x ∈ getCandidates s type link) (hids : ∀ k x', ids.lookup k = some x' → x' = x) :
    IsLabelled s type (seen ++ links) (links.foldl (fun ids linkKey => ids.insert linkKey x) ids) ∧
      ∀ k x', (links.foldl (fun ids linkKey => ids.insert linkKey x) ids).lookup k = some x' →
        x' = x := by
  induction links generalizing seen ids with
  | nil =>
    rw [List.append_nil]
    exact ⟨h, hids⟩
  | cons link links ih =>
    rw [List.forall_mem_cons] at hx
    have hrest := ih (h.insert hx.1) hx.2 fun k x' hk => by
      rw [lookup_insert] at hk
      split_ifs at hk
      · exact (Option.some.inj hk).symm
      · exact hids k x' hk
    rwa [List.append_assoc] at hrest

variable (s type labelSelection r) in
omit [DecidableEq U] in
theorem noSwapBehavior_cases (hlinks : links ≠ []) :
    ∃ ids r', noSwapBehavior s type labelSelection links r = .ok (ids, r') ∧
      (ids = ∅ ∨ IsLabelled s type links ids ∧
        ∀ k k' x x', ids.lookup k = some x → ids.lookup k' = some x' → x = x') := by
  obtain ⟨c, hc, hsub⟩ := foldl_intersect_none s type hlinks
  simp only [noSwapBehavior, hc]
  rcases hselect : labelSelection.select c r with ⟨_ | selected, r'⟩
  · exact ⟨∅, r', rfl, Or.inl rfl⟩
  · have hmem := labelSelection.mem_of_select (congrArg Prod.fst hselect)
    obtain ⟨hlabelled, hsame⟩ := foldl_insert_isLabelled (isLabelled_nil s type)
      (fun link hlink => hsub link hlink hmem) fun k x' hk => by simp at hk
    exact ⟨_, r', rfl, Or.inr ⟨hlabelled, fun k k' x x' hk hk' =>
      (hsame k x hk).trans (hsame k' x' hk').symm⟩⟩

structure IsSwapped (s : Store (Component D P) U) (type : EncapsulationType)
    (seen : List (LinkKey D P)) (selected : Option Identifier)
    (ids : Table (LinkKey D P) Identifier) : Prop where
  labelled : IsLabelled s type seen ids
  last : ∀ k ∈ seen.getLast?, ids.lookup k = selected
  swaps : seen.IsChain (SwapsIfNeeded s type ids)

omit [DecidableEq U] in
theorem IsSwapped.insert {selected : Option Identifier}
    (h : IsSwapped s type seen selected ids) (hlink : link ∉ seen)
    (hx : x ∈ getCandidates s type link)
    (hkeep : ∀ y, selected = some y → y ≠ x → y ∉ getCandidates s type link) :
    IsSwapped s type (seen ++ [link]) (some x) (ids.insert link x) := by
  have hseen : ∀ k ∈ seen, (ids.insert link x).lookup k = ids.lookup k := by
    intro k hk
    rw [lookup_insert, if_neg]
    rintro rfl
    exact hlink hk
  have hnew : (ids.insert link x).lookup link = some x := by rw [lookup_insert, if_pos rfl]
  refine ⟨h.labelled.insert hx, ?_, ?_⟩
  · intro k hk
    rw [List.getLast?_append, List.getLast?_singleton, Option.some_or] at hk
    obtain rfl := Option.mem_some.mp hk
    exact hnew
  · refine List.IsChain.append ?_ (List.isChain_singleton link) ?_
    · refine h.swaps.imp_of_mem_imp fun k k' hk hk' hkk' y y' hy hy' => ?_
      rw [hseen k hk] at hy
      rw [hseen k' hk'] at hy'
      exact hkk' y y' hy hy'
    · intro k hk k' hk' y y' hy hy' hne
      obtain rfl : link = k' := by simpa using hk'
      rw [hnew] at hy'
      obtain rfl := Option.some.inj hy'
      rw [hseen k (List.mem_of_getLast? hk), h.last k hk] at hy
      exact hkeep y hy hne

variable (labelSelection r) in
omit [DecidableEq U] in
theorem minSwapBehavior_cases {selected : Option Identifier}
    (h : IsSwapped s type seen selected ids) (hnodup : (seen ++ links).Nodup) :
    (minSwapBehavior s type labelSelection links selected r ids).1 = ∅ ∨
      ∃ selected', IsSwapped s type (seen ++ links) selected'
        (minSwapBehavior s type labelSelection links selected r ids).1 := by
  induction links generalizing seen selected r ids with
  | nil =>
    rw [List.append_nil]
    exact Or.inr ⟨selected, h⟩
  | cons link links ih =>
    have hfresh : link ∉ seen := fun hmem => by
      have hdisjoint := (List.nodup_append.mp hnodup).2.2
      exact hdisjoint link hmem link List.mem_cons_self rfl
    rw [List.append_cons] at hnodup ⊢
    rw [minSwapBehavior]
    rcases hkept : selected.filter (· ∈ getCandidates s type link) with _ | kept
    · rcases hselect : labelSelection.select (getCandidates s type link) r with ⟨_ | x, r'⟩
      · exact Or.inl rfl
      · have hmem := labelSelection.mem_of_select (congrArg Prod.fst hselect)
        refine ih r' (h.insert hfresh hmem fun y hy _ => ?_) hnodup
        simpa [hy] using hkept
    · obtain ⟨hselected, hmem⟩ : selected = some kept ∧ kept ∈ getCandidates s type link := by
        simpa using Option.filter_eq_some_iff.mp hkept
      refine ih r (h.insert hfresh hmem fun y hy hne => ?_) hnodup
      exact absurd (Option.some.inj (hy.symm.trans hselected)) hne

structure Respects (s : Store (Component D P) U) (type : EncapsulationType)
    (optLabelSelection : OptimizationBehavior) (links : List (LinkKey D P))
    (ids : Table (LinkKey D P) Identifier) : Prop where
  noSwap : optLabelSelection = .NO_SWAP →
    ∀ k k' x x', ids.lookup k = some x → ids.lookup k' = some x' → x = x'
  minSwap : optLabelSelection = .MIN_SWAP → links.IsChain (SwapsIfNeeded s type ids)

variable (s type labelSelection r) in
omit [DecidableEq U] in
theorem findAvailableIDs_cases {optLabelSelection : OptimizationBehavior} (hnodup : links.Nodup)
    (hlinks : ¬(optLabelSelection = .NO_SWAP ∧ links = [])) :
    ∃ ids r', findAvailableIDs s type labelSelection optLabelSelection links r = .ok (ids, r') ∧
      (ids = ∅ ∨ IsLabelled s type links ids ∧ Respects s type optLabelSelection links ids) := by
  cases optLabelSelection with
  | NONE =>
    refine ⟨_, _, rfl, ?_⟩
    rcases noOptimizeBehavior_cases links labelSelection r
      (isLabelled_nil s type) with hempty | hlabelled
    · exact Or.inl hempty
    · exact Or.inr ⟨hlabelled, nofun, nofun⟩
  | NO_SWAP =>
    obtain ⟨ids, r', heq, hids⟩ := noSwapBehavior_cases s type labelSelection r
      fun hnil => hlinks ⟨rfl, hnil⟩
    exact ⟨ids, r', heq, hids.imp_right fun h => ⟨h.1, fun _ => h.2, nofun⟩⟩
  | MIN_SWAP =>
    refine ⟨_, _, rfl, ?_⟩
    have hstart : IsSwapped s type [] none ∅ := ⟨isLabelled_nil s type, nofun, List.isChain_nil⟩
    rcases minSwapBehavior_cases labelSelection r hstart hnodup with hempty | ⟨_, hswapped⟩
    · exact Or.inl hempty
    · exact Or.inr ⟨hswapped.labelled, nofun, fun _ => hswapped.swaps⟩

end Candidates

section Assigned

variable {s : Store (Component D P) U} {type : EncapsulationType} {labelSelection : LabelSelection ρ}
  {optLabelSelection : OptimizationBehavior} {r : ρ} {links : List (Link D P)} {resourceConsumer : U}

/-- Each key has one label. It was available on both ends, and is held on both afterwards. -/
structure IsAllocated (s s' : Store (Component D P) U) (type : EncapsulationType)
    (resourceConsumer : U) (links : List (LinkKey D P)) (ids : Table (LinkKey D P) Identifier) :
    Prop where
  keys : ∀ k, (ids.lookup k).isSome ↔ k ∈ links
  available : ∀ k x, ids.lookup k = some x →
    x ∈ getAvailableIDs s type k.src ∧ x ∈ getAvailableIDs s type k.dst
  held : ∀ k x, ids.lookup k = some x →
    s'.discrete.consumers.lookup (discreteLabel k.src x) = some resourceConsumer ∧
      s'.discrete.consumers.lookup (discreteLabel k.dst x) = some resourceConsumer

def IsSound (s : Store (Component D P) U) (type : EncapsulationType)
    (optLabelSelection : OptimizationBehavior) (resourceConsumer : U) (links : List (LinkKey D P))
    (ids : Table (LinkKey D P) Identifier) (s' : Store (Component D P) U) : Prop :=
  ids = ∅ ∧ s' = s ∨
    IsAllocated s s' type resourceConsumer links ids ∧ Respects s type optLabelSelection links ids

section

omit [DecidableEq U]

theorem mem_requestedResources {ids : Table (LinkKey D P) Identifier} {k : LinkKey D P}
    {x : Identifier} (hk : ids.lookup k = some x) :
    .discrete (discreteLabel k.src x) ∈ requestedResources ids ∧
      .discrete (discreteLabel k.dst x) ∈ requestedResources ids := by
  have hentry := (mem_entries_iff ids k x).mpr hk
  have hmem : ∀ resource ∈ endResources ⟨k, x⟩, resource ∈ requestedResources ids :=
    fun resource h => List.mem_dedup.mpr (List.mem_flatMap.mpr ⟨_, hentry, h⟩)
  exact ⟨hmem _ List.mem_cons_self, hmem _ (List.mem_cons_of_mem _ List.mem_cons_self)⟩

theorem requestedResources_ne_nil {ids : Table (LinkKey D P) Identifier}
    (h : ¬ids.entries.isEmpty = true) : requestedResources ids ≠ [] := by
  obtain ⟨⟨k, x⟩, hentry⟩ := List.exists_mem_of_ne_nil _ fun hnil => h (List.isEmpty_iff.mpr hnil)
  exact List.ne_nil_of_mem (mem_requestedResources ((mem_entries_iff ids k x).mp hentry)).1

end

theorem allocate_cases (s : Store (Component D P) U) (consumer : U)
    {resources : List (Resource (Component D P))} (hresources : resources ≠ []) :
    allocate s consumer resources = ([], s) ∨ (allocate s consumer resources).1 ≠ [] ∧
      ∀ id, .discrete id ∈ resources →
        (allocate s consumer resources).2.discrete.consumers.lookup id = some consumer := by
  rw [allocate]
  cases hallocate : s.allocate resources consumer with
  | none => exact Or.inl rfl
  | some s' =>
    refine Or.inr ⟨fun hnil => hresources (List.map_eq_nil_iff.mp hnil), ?_⟩
    exact (ResourceCalls.allocated_of_allocate hallocate).discrete

omit [DecidableEq U] in
theorem nodup_linkRequest (links : List (Link D P)) : (linkRequest links).Nodup :=
  nodup_eraseDups (links.map linkKey)

theorem isSound_assignLabelToLinks (hlinks : ¬(optLabelSelection = .NO_SWAP ∧ links = [])) :
    ∃ ids s' r', assignLabelToLinks s labelSelection optLabelSelection r links resourceConsumer type =
        .ok (ids, s', r') ∧
      IsSound s type optLabelSelection resourceConsumer (linkRequest links) ids s' := by
  have hrequest : ¬(optLabelSelection = .NO_SWAP ∧ linkRequest links = []) := by
    rintro ⟨hopt, hnil⟩
    refine hlinks ⟨hopt, List.eq_nil_iff_forall_not_mem.mpr fun link hlink => ?_⟩
    have hmem : linkKey link ∈ linkRequest links :=
      List.mem_eraseDups.mpr (List.mem_map_of_mem hlink)
    rw [hnil] at hmem
    exact List.not_mem_nil hmem
  obtain ⟨ids, r', hfind, hids⟩ := findAvailableIDs_cases s type labelSelection r
    (nodup_linkRequest links) hrequest
  simp only [assignLabelToLinks, hfind]
  split_ifs with hentries hallocations
  · exact ⟨∅, s, r', rfl, Or.inl ⟨rfl, rfl⟩⟩
  · rcases allocate_cases s resourceConsumer (requestedResources_ne_nil hentries) with
      hnone | ⟨hsome, _⟩
    · exact ⟨∅, _, r', rfl, Or.inl ⟨rfl, congrArg Prod.snd hnone⟩⟩
    · exact absurd (List.isEmpty_iff.mp hallocations) hsome
  · rcases allocate_cases s resourceConsumer (requestedResources_ne_nil hentries) with
      hnone | ⟨_, hheld⟩
    · rw [hnone] at hallocations
      exact absurd rfl hallocations
    · rcases hids with rfl | ⟨hlabelled, hrespects⟩
      · exact absurd rfl hentries
      · refine ⟨ids, _, r', rfl, Or.inr ⟨⟨hlabelled.keys, fun k x hk => ?_, fun k x hk => ?_⟩, hrespects⟩⟩
        · exact Finset.mem_inter.mp (hlabelled.candidate k x hk)
        · obtain ⟨hsrc, hdst⟩ := mem_requestedResources hk
          exact ⟨hheld _ hsrc, hheld _ hdst⟩

/-- A common label for no links is not looked for in an empty set but in null. -/
theorem assignLabelToLinks_sound_iff (s : Store (Component D P) U) (labelSelection : LabelSelection ρ)
    (optLabelSelection : OptimizationBehavior) (r : ρ) (links : List (Link D P))
    (resourceConsumer : U) (type : EncapsulationType) :
    (∃ ids s' r', assignLabelToLinks s labelSelection optLabelSelection r links resourceConsumer type =
        .ok (ids, s', r') ∧
      IsSound s type optLabelSelection resourceConsumer (linkRequest links) ids s') ↔
    ¬(optLabelSelection = .NO_SWAP ∧ links = []) := by
  refine ⟨?_, isSound_assignLabelToLinks⟩
  rintro ⟨ids, s', r', heq, _⟩ ⟨rfl, rfl⟩
  cases heq

def index : Identifier → ℕ
  | .vlanId value => 2 * value
  | .mplsLabel value => 2 * value + 1

def ofIndex (i : ℕ) : Identifier := if i % 2 = 0 then .vlanId (i / 2) else .mplsLabel (i / 2)

theorem ofIndex_index (x : Identifier) : ofIndex (index x) = x := by
  cases x with
  | vlanId value => simp [index, ofIndex]
  | mplsLabel value =>
    have hmod : (2 * value + 1) % 2 = 1 := by omega
    have hdiv : (2 * value + 1) / 2 = value := by omega
    rw [index, ofIndex, hmod, hdiv]
    rfl

def ascending : Iteration where
  order values := ((values.image index).sort (· ≤ ·)).map ofIndex
  mem_order {values x} := by
    simp only [List.mem_map, Finset.mem_sort, Finset.mem_image]
    constructor
    · rintro ⟨_, ⟨y, hy, rfl⟩, rfl⟩
      rwa [ofIndex_index]
    · exact fun hx => ⟨_, ⟨x, hx, rfl⟩, ofIndex_index x⟩

/-- The links of a path within one device are none. -/
theorem assignLabelToLinks_no_links :
    ¬ ∃ ids s' r', assignLabelToLinks (activated : Store (Component ℕ ℕ) ℕ)
        (firstFitSelection ascending) .NO_SWAP () [] 1 .VLAN = .ok (ids, s', r') ∧
      IsSound activated .VLAN .NO_SWAP 1 (linkRequest []) ids s' := by
  rintro ⟨ids, s', r', heq, _⟩
  cases heq

end Assigned

end LabelAllocator

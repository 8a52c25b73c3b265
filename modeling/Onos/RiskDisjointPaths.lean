import Onos.DisjointPaths
import Onos.Lib.RandomDraws

/-! The genetic search for pairs of paths without a common risk group. A hash map is a table, an
array of booleans a function on its indices; what the random generators draw is one sequence, in the
order in which they draw. -/
namespace RiskDisjointPaths

open KeyedMap RandomDraws GraphPathSearch
open DijkstraWithFailures (FailingWeigher)
open DisjointPaths (IsPathOf)
open FallibleRun (map_eq_ok map_eq_error bind_eq_ok)
open SuurballeGraphSearch (DisjointPathPair HashOrders)

universe u v

/-- Organisms with a fitness; `compareTo` says that the first is not the greater one. -/
structure GAOrganism (O F : Type*) where
  fitness : O → Except String F
  compareTo : F → F → Bool
  mutate : O → Randomly String O
  crossWith : O → O → Randomly String O
  random : O → Randomly String O

namespace GAPopulation

variable {O F : Type*} (organism : GAOrganism O F)

def sort (population : List O) : Except String (List O) :=
  (population.mapM fun org => (organism.fitness org).map fun fitness => (fitness, org)).map
    fun scored => (scored.mergeSort fun a b => organism.compareTo a.1 b.1).map Prod.snd

def get (population : List O) : Randomly String O :=
  (nextInt population.length).map fun i => population.get i

def mutateSome (population : List O) : Randomly String (List O) :=
  Randomly.mapM (fun org => nextBoolean.bind fun chosen =>
    if chosen then organism.mutate org else Randomly.pure org) population

def addChildren : ℕ → List O → Randomly String (List O)
  | 0, population => Randomly.pure population
  | missing + 1, population =>
    (get population).bind fun org1 => (get population).bind fun org2 =>
      (organism.crossWith org1 org2).bind fun child => addChildren missing (population ++ [child])

def addRandom : ℕ → List O → Randomly String (List O)
  | 0, population => Randomly.pure population
  | missing + 1, population =>
    (get population).bind fun org1 =>
      (organism.random org1).bind fun newcomer => addRandom missing (population ++ [newcomer])

def step (population : List O) : Randomly String (List O) :=
  let maxSize := population.length
  (Randomly.lift (sort organism population)).bind fun sorted =>
    (mutateSome organism (sorted.take (maxSize / 4 + 1))).bind fun population =>
      (addChildren organism (maxSize * 4 / 5 - population.length) population).bind fun population =>
        addRandom organism (maxSize - population.length) population

def steps : ℕ → List O → Randomly String (List O)
  | 0, population => Randomly.pure population
  | generations + 1, population => (step organism population).bind (steps generations)

def sampleOf (sample : ℤ) (population : List O) : Except String (List O) :=
  if sample < 0 then .error "ArrayIndexOutOfBoundsException" else .ok (population.take sample.toNat)

def runGA (generations populationSize : ℕ) (sample : ℤ) (template : O) :
    Randomly String (List O) :=
  (Randomly.mapM (fun _ => organism.random template) (List.range populationSize)).bind
    fun population => (steps organism generations population).bind fun population =>
      Randomly.lift (sampleOf sample population)

end GAPopulation

def ITERATIONS : ℕ := 100

def POPSIZE : ℕ := 50

structure SrlgGraphSearch (E : Type*) where
  useSuurballe : Bool
  numGroups : ℕ
  riskGrouping : Table E ℤ

structure Subset (n : ℕ) where
  subset : Fin n → Bool
  not : Fin n → Bool

namespace SrlgGraphSearch

variable {V : Type u} {E : Type v} {M G : Type*} [DecidableEq V] [DecidableEq E] [DecidableEq G]
  [Edge V E] [AddCommGroup M] [LinearOrder M]

def ofGroups (groups : ℕ) (grouping : Table E ℤ) : SrlgGraphSearch E where
  useSuurballe := false
  numGroups := groups
  riskGrouping := grouping

def assign (tmpMap : Table G ℤ) (riskGrouping : Table E ℤ) :
    List (Sigma fun _ : E => G) → Table G ℤ × Table E ℤ
  | [] => (tmpMap, riskGrouping)
  | entry :: rest =>
    match tmpMap.lookup entry.2 with
    | some group => assign tmpMap (riskGrouping.insert entry.1 group) rest
    | none =>
      assign (tmpMap.insert entry.2 tmpMap.entries.length)
        (riskGrouping.insert entry.1 tmpMap.entries.length) rest

def ofObjects : Option (Table E G) → SrlgGraphSearch E
  | none => ⟨true, 0, ∅⟩
  | some grouping =>
    let assigned := assign ∅ ∅ grouping.entries
    ⟨false, assigned.1.entries.length, assigned.2⟩

variable (search : SrlgGraphSearch E) (graph : DirectedGraph V E) (src dst : V)
  (weigher : EdgeWeigher E M) (compareTo : Option M → Option M → Bool)

def modified (subset : Fin search.numGroups → Bool) : FailingWeigher E M where
  weight edge :=
    match search.riskGrouping.lookup edge with
    | none => .error "NullPointerException"
    | some group =>
      if h : 0 ≤ group ∧ group.toNat < search.numGroups then
        .ok (if subset ⟨group.toNat, h.2⟩ then weigher.weight edge else none)
      else .error "ArrayIndexOutOfBoundsException"
  getInitialWeight := weigher.getInitialWeight

def findShortestPathFromSubset (subset : Fin search.numGroups → Bool) :
    Except String (DefaultResult V E M) :=
  DijkstraWithFailures.search graph src (some dst) (search.modified weigher subset) 1

end SrlgGraphSearch

namespace Subset

variable {V : Type u} {E : Type v} {M : Type*} [DecidableEq V] [DecidableEq E] [Edge V E]
  [AddCommGroup M] [LinearOrder M] {n : ℕ}

def ofSubset (sub : Fin n → Bool) : Subset n := ⟨sub, fun i => !sub i⟩

def fitness (search : SrlgGraphSearch E) (graph : DirectedGraph V E) (src dst : V)
    (weigher : EdgeWeigher E M) (s : Subset search.numGroups) : Except String (Option M) :=
  (search.findShortestPathFromSubset graph src dst weigher s.subset).bind fun paths1 =>
    (search.findShortestPathFromSubset graph src dst weigher s.not).map fun paths2 =>
      paths1.paths.head?.bind fun path1 => paths2.paths.head?.map fun path2 =>
        path1.cost + path2.cost

def flip (s : Subset n) (choose : Fin n) : Subset n where
  subset := Function.update s.subset choose (!s.subset choose)
  not := Function.update s.not choose (!s.not choose)

def flips : ℕ → Subset n → Randomly String (Subset n)
  | 0, s => Randomly.pure s
  | turns + 1, s => (nextInt n).bind fun choose => flips turns (s.flip choose)

def mutate (s : Subset n) : Randomly String (Subset n) :=
  (nextInt n.sqrt).bind fun turns => s.flips turns

def crossWith (s other : Subset n) : Randomly String (Subset n) :=
  (nextBooleans n).map fun chosen =>
    ofSubset fun i => if chosen i then other.subset i else s.subset i

def random (_ : Subset n) : Randomly String (Subset n) := (nextBooleans n).map ofSubset

def buildPaths (search : SrlgGraphSearch E) (graph : DirectedGraph V E) (src dst : V)
    (weigher : EdgeWeigher E M) (s : Subset search.numGroups) :
    Except String (List (DisjointPathPair E M)) :=
  (search.findShortestPathFromSubset graph src dst weigher s.subset).bind fun paths1 =>
    (paths1.paths.mapM fun path1 =>
      (search.findShortestPathFromSubset graph src dst weigher s.not).map fun paths2 =>
        paths2.paths.map fun path2 => ⟨path1, some path2⟩).map List.flatten

def organism (search : SrlgGraphSearch E) (graph : DirectedGraph V E) (src dst : V)
    (weigher : EdgeWeigher E M) (compareTo : Option M → Option M → Bool) :
    GAOrganism (Subset search.numGroups) (Option M) where
  fitness := fitness search graph src dst weigher
  compareTo := compareTo
  mutate := mutate
  crossWith := crossWith
  random := random

end Subset

namespace SrlgGraphSearch

variable {V : Type u} {E : Type v} {M G : Type*} [DecidableEq V] [DecidableEq E] [DecidableEq G]
  [Edge V E] [AddCommGroup M] [LinearOrder M] (orders : HashOrders V E M)
  (compareTo : Option M → Option M → Bool) (search : SrlgGraphSearch E) (graph : DirectedGraph V E)
  (src dst : V) (weigher : EdgeWeigher E M)

def best (maxPaths : ℤ) : Randomly String (List (Subset search.numGroups)) :=
  GAPopulation.runGA (Subset.organism search graph src dst weigher compareTo) ITERATIONS POPSIZE
    maxPaths (Subset.ofSubset fun _ => false)

/-- The paths of the result; its costs and parents are those of another search of Dijkstra. -/
def internalSearch (maxPaths : ℤ) : Randomly String (List (DisjointPathPair E M)) :=
  if search.useSuurballe then
    Randomly.lift (SuurballeGraphSearch.search orders graph src dst weigher ALL_PATHS)
  else
    let maxPaths := if maxPaths = ALL_PATHS then (POPSIZE : ℤ) else maxPaths
    (search.best compareTo graph src dst weigher maxPaths).bind fun best =>
      Randomly.lift ((best.mapM (Subset.buildPaths search graph src dst weigher)).bind fun dpps =>
        (DijkstraGraphSearch.search graph src (some dst) weigher 1).map fun _ => dpps.flatten)

def searchPaths (maxPaths : ℤ) : Randomly String (List (DisjointPathPair E M)) :=
  (Randomly.lift (checkArguments graph src (some dst))).bind fun _ =>
    search.internalSearch orders compareTo graph src dst weigher maxPaths

end SrlgGraphSearch

section Population

variable {O F : Type*} {organism : GAOrganism O F} {good : O → Prop} {ends : String → Prop}
  {population : List O}

def IsPopulation (good : O → Prop) (size : ℕ) (population : List O) : Prop :=
  population.length = size ∧ ∀ org ∈ population, good org

structure Keeps (organism : GAOrganism O F) (good : O → Prop) (ends : String → Prop) : Prop where
  fitness : ∀ org, good org → ∀ e, organism.fitness org = .error e → ends e
  mutate : ∀ org, good org → Ensures (organism.mutate org) good ends
  crossWith : ∀ org1 org2, good org1 → good org2 →
    Ensures (organism.crossWith org1 org2) good ends
  random : ∀ org, good org → Ensures (organism.random org) good ends

namespace GAPopulation

variable {size : ℕ}

theorem ensures_get (h : IsPopulation good (size + 1) population) :
    Ensures (get population) good ends := by
  refine (ensures_nextInt fun hzero => ?_).map fun i _ => h.2 _ (List.get_mem population i)
  rw [h.1] at hzero
  exact absurd hzero (Nat.succ_ne_zero size)

theorem ensures_sort (hkeeps : Keeps organism good ends) (h : IsPopulation good size population) :
    Ensures (Randomly.lift (sort organism population)) (IsPopulation good size) ends := by
  refine ensures_lift (fun sorted hok => ?_) fun e herror => ?_
  · obtain ⟨scored, hscored, rfl⟩ := map_eq_ok.mp hok
    have hall := FailingMap.forall₂_of_mapM hscored
    have hsame : scored.map Prod.snd = population := by
      clear hscored hok h
      induction hall with
      | nil => rfl
      | cons hfirst _ ih =>
        obtain ⟨fitness, -, rfl⟩ := map_eq_ok.mp hfirst
        rw [List.map_cons, ih]
    have hperm : ((scored.mergeSort fun a b => organism.compareTo a.1 b.1).map Prod.snd).Perm
        population := hsame ▸ (List.mergeSort_perm scored _).map Prod.snd
    exact ⟨hperm.length_eq.trans h.1, fun org horg => h.2 org (hperm.mem_iff.mp horg)⟩
  · obtain ⟨org, horg, herror⟩ := FailingMap.exists_of_mapM_error (map_eq_error.mp herror)
    exact hkeeps.fitness org (h.2 org horg) e (map_eq_error.mp herror)

theorem ensures_mutateSome (hkeeps : Keeps organism good ends)
    (h : IsPopulation good size population) :
    Ensures (mutateSome organism population) (IsPopulation good size) ends := by
  have hmutated : ∀ org ∈ population, Ensures (nextBoolean.bind fun chosen =>
      if chosen then organism.mutate org else Randomly.pure org) good ends := by
    intro org horg
    refine ensures_nextBoolean.bind fun chosen _ => ?_
    split_ifs
    · exact hkeeps.mutate org (h.2 org horg)
    · exact ensures_pure (h.2 org horg)
  exact (ensures_mapM hmutated).mono (fun bs hbs => ⟨hbs.1.trans h.1, hbs.2⟩) fun e he => he

theorem isPopulation_append (h : IsPopulation good size population) {org : O}
    (horg : good org) : IsPopulation good (size + 1) (population ++ [org]) := by
  refine ⟨by rw [List.length_append, h.1]; rfl, fun x hx => ?_⟩
  rcases List.mem_append.mp hx with hx | hx
  · exact h.2 x hx
  · exact List.mem_singleton.mp hx ▸ horg

section

variable (hkeeps : Keeps organism good ends)

include hkeeps

theorem ensures_addChildren (missing : ℕ) (h : IsPopulation good (size + 1) population) :
    Ensures (addChildren organism missing population) (IsPopulation good (size + 1 + missing))
      ends := by
  induction missing generalizing size population with
  | zero => exact ensures_pure h
  | succ missing ih =>
    refine (ensures_get h).bind fun org1 h1 => (ensures_get h).bind fun org2 h2 => ?_
    refine (hkeeps.crossWith org1 org2 h1 h2).bind fun child hchild => ?_
    refine (ih (isPopulation_append h hchild)).mono (fun p hp => ?_) fun e he => he
    rwa [Nat.add_right_comm] at hp

theorem ensures_addRandom (missing : ℕ) (h : IsPopulation good (size + 1) population) :
    Ensures (addRandom organism missing population) (IsPopulation good (size + 1 + missing))
      ends := by
  induction missing generalizing size population with
  | zero => exact ensures_pure h
  | succ missing ih =>
    refine (ensures_get h).bind fun org1 h1 => ?_
    refine (hkeeps.random org1 h1).bind fun newcomer hnewcomer => ?_
    refine (ih (isPopulation_append h hnewcomer)).mono (fun p hp => ?_) fun e he => he
    rwa [Nat.add_right_comm] at hp

theorem ensures_step (h : IsPopulation good (size + 1) population) :
    Ensures (step organism population) (IsPopulation good (size + 1)) ends := by
  rw [step]
  refine (ensures_sort hkeeps h).bind fun sorted hsorted => ?_
  have hfittest : IsPopulation good ((size + 1) / 4 + 1)
      (sorted.take (population.length / 4 + 1)) := by
    refine ⟨?_, fun org horg => hsorted.2 org (List.mem_of_mem_take horg)⟩
    rw [List.length_take, hsorted.1, h.1]
    omega
  refine (ensures_mutateSome hkeeps hfittest).bind fun fittest hfittest => ?_
  refine (ensures_addChildren hkeeps _ hfittest).bind fun bred hbred => ?_
  rw [Nat.add_right_comm] at hbred
  refine (ensures_addRandom hkeeps _ hbred).mono (fun next hnext => ?_) fun e he => he
  have hsize : (size + 1) / 4 + (population.length * 4 / 5 - fittest.length) + 1 +
      (population.length - bred.length) = size + 1 := by
    have hpopulation := h.1
    have hfittest := hfittest.1
    have hbred := hbred.1
    omega
  rwa [hsize] at hnext

theorem ensures_steps (generations : ℕ) (h : IsPopulation good (size + 1) population) :
    Ensures (steps organism generations population) (IsPopulation good (size + 1)) ends := by
  induction generations generalizing population with
  | zero => exact ensures_pure h
  | succ generations ih => exact (ensures_step hkeeps h).bind fun next hnext => ih hnext

theorem ensures_runGA (generations : ℕ) {sample : ℤ}
    (hsample : sample < 0 → ∀ e, ends e) {template : O} (htemplate : good template) :
    Ensures (runGA organism generations (size + 1) sample template)
      (fun sampled => ∀ org ∈ sampled, good org) ends := by
  refine (ensures_mapM fun _ _ => hkeeps.random template htemplate).bind fun population h => ?_
  rw [List.length_range] at h
  refine (ensures_steps hkeeps generations h).bind fun population h => ?_
  refine ensures_lift (fun sampled hok => ?_) fun e herror => ?_
  · rw [sampleOf] at hok
    split_ifs at hok
    obtain rfl := Except.ok.inj hok
    exact fun org horg => h.2 org (List.mem_of_mem_take horg)
  · rw [sampleOf] at herror
    split_ifs at herror with hnegative
    exact hsample hnegative e

end

end GAPopulation

end Population

section Complements

variable {n : ℕ} {s : Subset n} {ends : String → Prop}

namespace Subset

def IsComplement (s : Subset n) : Prop := ∀ i, s.not i = !s.subset i

theorem isComplement_ofSubset (sub : Fin n → Bool) : (ofSubset sub).IsComplement := fun _ => rfl

theorem IsComplement.flip (h : s.IsComplement) (choose : Fin n) : (s.flip choose).IsComplement := by
  intro i
  by_cases hi : i = choose
  · subst hi
    simp [Subset.flip, h i]
  · simp [Subset.flip, hi, h i]

theorem IsComplement.ensures_flips (h : s.IsComplement) (turns : ℕ)
    (hn : n = 0 → ∀ e, ends e) : Ensures (s.flips turns) IsComplement ends := by
  induction turns generalizing s with
  | zero => exact ensures_pure h
  | succ turns ih => exact (ensures_nextInt hn).bind fun choose _ => ih (h.flip choose)

theorem IsComplement.ensures_mutate (h : s.IsComplement) (hn : n = 0 → ∀ e, ends e) :
    Ensures s.mutate IsComplement ends :=
  (ensures_nextInt fun hsqrt => hn (Nat.sqrt_eq_zero.mp hsqrt)).bind
    fun turns _ => h.ensures_flips turns hn

theorem ensures_crossWith (s other : Subset n) : Ensures (s.crossWith other) IsComplement ends :=
  ensures_nextBooleans.map fun _ _ => isComplement_ofSubset _

theorem ensures_random (s : Subset n) : Ensures s.random IsComplement ends :=
  ensures_nextBooleans.map fun _ _ => isComplement_ofSubset _

end Subset

end Complements

section Masked

variable {V : Type u} {E : Type v} {M : Type*} [DecidableEq V] [DecidableEq E] [Edge V E]
  [AddCommGroup M] [LinearOrder M] {search : SrlgGraphSearch E} {graph : DirectedGraph V E}
  {src dst : V} {weigher : EdgeWeigher E M} {subset : Fin search.numGroups → Bool} {e : E}

def IsIn (search : SrlgGraphSearch E) (subset : Fin search.numGroups → Bool) (e : E) : Prop :=
  ∃ i : Fin search.numGroups, search.riskGrouping.lookup e = some (i : ℤ) ∧ subset i = true

omit [DecidableEq V] [Edge V E] in
theorem isIn_of_isUsable (h : (search.modified weigher subset).total.IsUsable e) :
    IsIn search subset e := by
  obtain ⟨weight, hweight, -⟩ := h
  simp only [FailingWeigher.total, SrlgGraphSearch.modified] at hweight
  cases hgroup : search.riskGrouping.lookup e with
  | none => simp [hgroup] at hweight
  | some group =>
    by_cases hbounds : 0 ≤ group ∧ group.toNat < search.numGroups
    · cases hsubset : subset ⟨group.toNat, hbounds.2⟩ with
      | false => simp [hgroup, hbounds, hsubset] at hweight
      | true => exact ⟨⟨group.toNat, hbounds.2⟩, by simp [hgroup, hbounds.1], hsubset⟩
    · simp [hgroup, hbounds] at hweight

variable [IsOrderedAddMonoid M]

theorem paths_spec {result : DefaultResult V E M}
    (h : search.findShortestPathFromSubset graph src dst weigher subset = .ok result)
    {P : Path E M} (hP : P ∈ result.paths) :
    IsPathOf graph src dst P ∧ ∀ e ∈ P.edges, IsIn search subset e := by
  obtain ⟨hsrc, rfl⟩ := DijkstraWithFailures.search_eq_ok h
  have hne : src ≠ dst := by
    rintro rfl
    rw [PathLimit.paths_source] at hP
    exact List.not_mem_nil hP
  have hfind := DijkstraGraphSearch.internalSearch_findsShortest (t := dst)
    (search.modified weigher subset).total (Or.inr le_rfl : (1 : ℤ) = ALL_PATHS ∨ (1 : ℤ) ≤ 1) hsrc
    hne
  obtain ⟨hshortest, -⟩ := hfind.sound P hP
  refine ⟨⟨hshortest.route.walk, fun e he => (hshortest.route.usable e he).1⟩, fun e he => ?_⟩
  exact isIn_of_isUsable (hshortest.route.usable e he).2

structure AreSeparated {γ : Type*} (group : E → Option γ) (graph : DirectedGraph V E) (src dst : V)
    (primary backup : Path E M) : Prop where
  primaryPath : IsPathOf graph src dst primary
  backupPath : IsPathOf graph src dst backup
  groups : ∀ g, (∃ e ∈ primary.edges, group e = some g) → ¬∃ e ∈ backup.edges, group e = some g

def Numbers {γ : Type*} (search : SrlgGraphSearch E) (group : E → Option γ) : Prop :=
  ∀ e f g, group e = some g → group f = some g →
    search.riskGrouping.lookup e = search.riskGrouping.lookup f

theorem areSeparated_of_buildPaths {γ : Type*} {group : E → Option γ}
    (hnumbers : Numbers search group) {s : Subset search.numGroups} (hs : s.IsComplement)
    {pairs : List (DisjointPathPair E M)}
    (h : Subset.buildPaths search graph src dst weigher s = .ok pairs)
    {pair : DisjointPathPair E M} (hpair : pair ∈ pairs) :
    ∃ backup, pair.secondary = some backup ∧
      AreSeparated group graph src dst pair.primary backup := by
  obtain ⟨paths1, hpaths1, h⟩ := bind_eq_ok.mp h
  obtain ⟨lists, hlists, rfl⟩ := map_eq_ok.mp h
  obtain ⟨list, hlist, hpair⟩ := List.mem_flatten.mp hpair
  obtain ⟨path1, hpath1, hlist⟩ := FailingMap.mem_of_mapM hlists hlist
  obtain ⟨paths2, hpaths2, rfl⟩ := map_eq_ok.mp hlist
  obtain ⟨path2, hpath2, rfl⟩ := List.mem_map.mp hpair
  obtain ⟨hprimary, hin⟩ := paths_spec hpaths1 hpath1
  obtain ⟨hbackup, hnot⟩ := paths_spec hpaths2 hpath2
  refine ⟨path2, rfl, hprimary, hbackup, ?_⟩
  rintro g ⟨e, he, hge⟩ ⟨f, hf, hgf⟩
  obtain ⟨i, hi, hsubset⟩ := hin e he
  obtain ⟨j, hj, hnot⟩ := hnot f hf
  -- one number is in the subset and in its complement
  rw [hnumbers e f g hge hgf, hj, Option.some.injEq, Nat.cast_inj, Fin.val_inj] at hi
  subst hi
  rw [hs j, hsubset] at hnot
  cases hnot

omit [IsOrderedAddMonoid M] in
theorem keeps_organism {compareTo : Option M → Option M → Bool} {ends : String → Prop}
    (hn : search.numGroups = 0 → ∀ e, ends e)
    (hfind : ∀ subset e, search.findShortestPathFromSubset graph src dst weigher subset =
      .error e → ends e) :
    Keeps (Subset.organism search graph src dst weigher compareTo) Subset.IsComplement ends where
  fitness s _ e herror := by
    change Subset.fitness search graph src dst weigher s = .error e at herror
    unfold Subset.fitness at herror
    cases hfirst : search.findShortestPathFromSubset graph src dst weigher s.subset with
    | error e' =>
      rw [hfirst] at herror
      obtain rfl := Except.error.inj herror
      exact hfind _ _ hfirst
    | ok paths1 =>
      rw [hfirst] at herror
      exact hfind _ _ (map_eq_error.mp herror)
  mutate s hs := hs.ensures_mutate hn
  crossWith s other _ _ := Subset.ensures_crossWith s other
  random s _ := Subset.ensures_random s

variable {orders : HashOrders V E M} {compareTo : Option M → Option M → Bool} {maxPaths : ℤ}

def ReturnsSeparated {γ : Type*} (search : SrlgGraphSearch E) (group : E → Option γ)
    (orders : HashOrders V E M) (compareTo : Option M → Option M → Bool) (graph : DirectedGraph V E)
    (src dst : V) (weigher : EdgeWeigher E M) (maxPaths : ℤ) : Prop :=
  ∀ (r r' : Draws) (pairs : List (DisjointPathPair E M)),
    search.searchPaths orders compareTo graph src dst weigher maxPaths r = .ok (pairs, r') →
      ∀ pair ∈ pairs, ∃ backup, pair.secondary = some backup ∧
        AreSeparated group graph src dst pair.primary backup

theorem returnsSeparated_of_numbers {γ : Type*} {group : E → Option γ}
    (hgenetic : search.useSuurballe = false) (hnumbers : Numbers search group) :
    ReturnsSeparated search group orders compareTo graph src dst weigher maxPaths := by
  have hsearch : Ensures (search.searchPaths orders compareTo graph src dst weigher maxPaths)
      (fun pairs => ∀ pair ∈ pairs, ∃ backup, pair.secondary = some backup ∧
        AreSeparated group graph src dst pair.primary backup) fun _ => True := by
    refine ensures_lift_bind (fun _ _ => trivial) fun _ _ => ?_
    rw [SrlgGraphSearch.internalSearch, hgenetic, if_neg Bool.false_ne_true]
    refine (GAPopulation.ensures_runGA (keeps_organism (fun _ _ => trivial) fun _ _ _ => trivial)
      ITERATIONS (fun _ _ => trivial) (Subset.isComplement_ofSubset _)).bind fun best hbest => ?_
    refine ensures_lift (fun pairs hok => ?_) fun _ _ => trivial
    obtain ⟨dpps, hdpps, hok⟩ := bind_eq_ok.mp hok
    obtain ⟨_, -, rfl⟩ := map_eq_ok.mp hok
    intro pair hpair
    obtain ⟨list, hlist, hpair⟩ := List.mem_flatten.mp hpair
    obtain ⟨s, hs, hbuild⟩ := FailingMap.mem_of_mapM hdpps hlist
    exact areSeparated_of_buildPaths hnumbers (hbest s hs) hbuild hpair
  intro r r' pairs hok
  exact hsearch.ok hok

end Masked

section Groups

variable {V : Type u} {E : Type v} {M G : Type*} [DecidableEq V] [DecidableEq E] [DecidableEq G]
  [Edge V E] [AddCommGroup M] [LinearOrder M]

def IsNumbering (tmpMap : Table G ℤ) : Prop :=
  ∀ a group, tmpMap.lookup a = some group → 0 ≤ group ∧ group < tmpMap.entries.length

theorem IsNumbering.insert {tmpMap : Table G ℤ} (h : IsNumbering tmpMap) {a : G}
    (ha : tmpMap.lookup a = none) : IsNumbering (tmpMap.insert a tmpMap.entries.length) := by
  have hlength : (tmpMap.insert a (tmpMap.entries.length : ℤ)).entries.length =
      tmpMap.entries.length + 1 := by
    rw [AList.entries_insert_of_notMem (AList.lookup_eq_none.mp ha), List.length_cons]
  intro b group hb
  rw [lookup_insert] at hb
  rw [hlength]
  split_ifs at hb
  · obtain rfl := Option.some.inj hb
    omega
  · obtain ⟨hlower, hupper⟩ := h b group hb
    omega

open SrlgGraphSearch in
theorem assign_spec (es : List (Sigma fun _ : E => G)) (tmpMap : Table G ℤ)
    (riskGrouping : Table E ℤ) (hnodup : es.NodupKeys) (h : IsNumbering tmpMap) :
    IsNumbering (assign tmpMap riskGrouping es).1 ∧
    (∀ a group, tmpMap.lookup a = some group →
      (assign tmpMap riskGrouping es).1.lookup a = some group) ∧
    (∀ entry ∈ es, (assign tmpMap riskGrouping es).1.lookup entry.2 ≠ none) ∧
    ∀ e, (assign tmpMap riskGrouping es).2.lookup e = (es.dlookup e).elim (riskGrouping.lookup e)
      (assign tmpMap riskGrouping es).1.lookup := by
  induction es generalizing tmpMap riskGrouping with
  | nil => exact ⟨h, fun _ _ ha => ha, fun _ hentry => absurd hentry List.not_mem_nil, fun _ => rfl⟩
  | cons entry es ih =>
    obtain ⟨k, a⟩ := entry
    obtain ⟨hk, hnodup⟩ := List.nodupKeys_cons.mp hnodup
    rw [assign]
    dsimp only
    cases ha : tmpMap.lookup a with
    | some group =>
      obtain ⟨hnumbering, hstay, hall, hgroups⟩ :=
        ih tmpMap (riskGrouping.insert k group) hnodup h
      refine ⟨hnumbering, hstay, List.forall_mem_cons.mpr ⟨?_, hall⟩, fun e => ?_⟩
      · rw [hstay a group ha]
        exact Option.some_ne_none group
      · rw [hgroups, lookup_insert]
        by_cases he : e = k
        · subst he
          rw [if_pos rfl, List.dlookup_cons_eq, List.dlookup_eq_none.mpr hk, Option.elim_some,
            hstay a group ha]
          rfl
        · rw [if_neg he, List.dlookup_cons_ne _ _ he]
    | none =>
      obtain ⟨hnumbering, hstay, hall, hgroups⟩ := ih
        (tmpMap.insert a tmpMap.entries.length) (riskGrouping.insert k tmpMap.entries.length) hnodup
        (h.insert ha)
      have hnew := hstay a tmpMap.entries.length (by rw [lookup_insert, if_pos rfl])
      refine ⟨hnumbering, fun b group hb => hstay b group ?_, List.forall_mem_cons.mpr ⟨?_, hall⟩,
        fun e => ?_⟩
      · rw [lookup_insert, if_neg, hb]
        rintro rfl
        rw [ha] at hb
        cases hb
      · rw [hnew]
        exact Option.some_ne_none _
      · rw [hgroups, lookup_insert]
        by_cases he : e = k
        · subst he
          rw [if_pos rfl, List.dlookup_cons_eq, List.dlookup_eq_none.mpr hk, Option.elim_some, hnew]
          rfl
        · rw [if_neg he, List.dlookup_cons_ne _ _ he]

theorem numbers_ofGroups (groups : ℕ) (grouping : Table E ℤ) :
    Numbers (SrlgGraphSearch.ofGroups groups grouping) grouping.lookup := by
  intro e f g he hf
  exact he.trans hf.symm

theorem numbers_ofObjects (grouping : Table E G) :
    Numbers (SrlgGraphSearch.ofObjects (some grouping)) grouping.lookup := by
  intro e f g he hf
  obtain ⟨-, -, -, hgroups⟩ := assign_spec grouping.entries (∅ : Table G ℤ) ∅ grouping.nodupKeys
    fun a group ha => by cases ha
  have hlookup : ∀ e, grouping.lookup e = some g →
      (SrlgGraphSearch.ofObjects (some grouping)).riskGrouping.lookup e =
        (SrlgGraphSearch.assign ∅ ∅ grouping.entries).1.lookup g := by
    intro e he
    refine (hgroups e).trans ?_
    rw [show grouping.entries.dlookup e = some g from he, Option.elim_some]
  rw [hlookup e he, hlookup f hf]

end Groups

section Returning

variable {V : Type u} {E : Type v} {M G : Type*} [DecidableEq V] [DecidableEq E] [DecidableEq G]
  [Edge V E] [AddCommGroup M] [LinearOrder M] [IsOrderedAddMonoid M] {search : SrlgGraphSearch E}
  {graph : DirectedGraph V E} {src dst : V} {weigher : EdgeWeigher E M}
  {subset : Fin search.numGroups → Bool} {orders : HashOrders V E M}
  {compareTo : Option M → Option M → Bool} {maxPaths : ℤ}

def Covers (search : SrlgGraphSearch E) (graph : DirectedGraph V E) : Prop :=
  ∀ e ∈ graph.getEdges, ∃ i : Fin search.numGroups, search.riskGrouping.lookup e = some (i : ℤ)

variable (weigher subset) in
theorem find_ok (hcovers : Covers search graph) (hsrc : src ∈ graph.getVertexes)
    (hdst : dst ∈ graph.getVertexes) :
    ∃ result, search.findShortestPathFromSubset graph src dst weigher subset = .ok result := by
  have hweighs : ∀ e ∈ DijkstraWithFailures.weighed graph src (some dst)
      (search.modified weigher subset).total 1, (search.modified weigher subset).Weighs e := by
    intro e he
    obtain ⟨hmem, -⟩ := DijkstraWithFailures.reached_of_weighed (Or.inr le_rfl) hsrc he
    obtain ⟨i, hi⟩ := hcovers e hmem
    refine ⟨if subset i then weigher.weight e else none, ?_⟩
    simp [SrlgGraphSearch.modified, hi]
  refine ⟨_, Eq.trans ?_ (DijkstraWithFailures.internalSearch_eq hweighs)⟩
  rw [SrlgGraphSearch.findShortestPathFromSubset, DijkstraWithFailures.search,
    checkArguments_ok hsrc hdst]
  rfl

variable (weigher) in
theorem buildPaths_ok (hcovers : Covers search graph) (hsrc : src ∈ graph.getVertexes)
    (hdst : dst ∈ graph.getVertexes) (s : Subset search.numGroups) :
    ∃ pairs, Subset.buildPaths search graph src dst weigher s = .ok pairs := by
  obtain ⟨paths1, hpaths1⟩ := find_ok weigher s.subset hcovers hsrc hdst
  obtain ⟨paths2, hpaths2⟩ := find_ok weigher s.not hcovers hsrc hdst
  obtain ⟨lists, hlists, -⟩ := FailingMap.mapM_ok (l := paths1.paths)
    (f := fun path1 => (search.findShortestPathFromSubset graph src dst weigher s.not).map
      fun paths2 => paths2.paths.map fun path2 => (⟨path1, some path2⟩ : DisjointPathPair E M))
    fun path1 _ => ⟨_, by rw [hpaths2]; rfl⟩
  exact ⟨lists.flatten, by rw [Subset.buildPaths, hpaths1, Except.bind, hlists]; rfl⟩

theorem search_returns (hgenetic : search.useSuurballe = false) (hcovers : Covers search graph)
    (hn : search.numGroups ≠ 0) (hsrc : src ∈ graph.getVertexes) (hdst : dst ∈ graph.getVertexes)
    (hmax : maxPaths = ALL_PATHS ∨ 0 ≤ maxPaths) (r : Draws) :
    ∃ pairs r', search.searchPaths orders compareTo graph src dst weigher maxPaths r =
      .ok (pairs, r') := by
  have hsearch : Ensures (search.searchPaths orders compareTo graph src dst weigher maxPaths)
      (fun _ => True) fun _ => False := by
    refine ensures_lift_bind (fun e herror => ?_) fun _ _ => ?_
    · rw [checkArguments_ok hsrc hdst] at herror
      cases herror
    · rw [SrlgGraphSearch.internalSearch, hgenetic, if_neg Bool.false_ne_true]
      refine (GAPopulation.ensures_runGA (keeps_organism (fun hzero => absurd hzero hn)
        fun subset e herror => ?_) ITERATIONS (fun hnegative => ?_)
        (Subset.isComplement_ofSubset _)).bind fun best _ => ?_
      · obtain ⟨result, hok⟩ := find_ok weigher subset hcovers hsrc hdst
        rw [hok] at herror
        cases herror
      · split_ifs at hnegative <;> omega
      · refine ensures_lift (fun _ _ => trivial) fun e herror => ?_
        obtain ⟨dpps, hdpps, -⟩ := FailingMap.mapM_ok (l := best)
          fun s _ => buildPaths_ok weigher hcovers hsrc hdst s
        rw [hdpps, DijkstraGraphSearch.search_eq hsrc hdst] at herror
        cases herror
  obtain ⟨pairs, r', hok, -⟩ := hsearch.result r
  exact ⟨pairs, r', hok⟩

variable (orders compareTo graph src dst weigher maxPaths) in
/-- The pairs that are returned share no group, with numbered groups and with objects. -/
theorem search_separates (groups : ℕ) (grouping : Table E ℤ) (objects : Table E G) :
    ReturnsSeparated (SrlgGraphSearch.ofGroups groups grouping) grouping.lookup orders compareTo
      graph src dst weigher maxPaths ∧
    ReturnsSeparated (SrlgGraphSearch.ofObjects (some objects)) objects.lookup orders compareTo
      graph src dst weigher maxPaths :=
  ⟨returnsSeparated_of_numbers rfl (numbers_ofGroups groups grouping),
    returnsSeparated_of_numbers rfl (numbers_ofObjects objects)⟩

/-- The two ways of the diamond are in a group each, and the direct edge in the first one. -/
def diamondGroups : Table TestEdge ℤ :=
  ((((AList.singleton ⟨0, 1, 1⟩ 0).insert ⟨1, 3, 1⟩ 0).insert ⟨0, 2, 1⟩ 1).insert
    ⟨2, 3, 1⟩ 1).insert ⟨0, 3, 3⟩ 0

theorem search_separates_diamond :
    ReturnsSeparated (SrlgGraphSearch.ofGroups 2 diamondGroups) diamondGroups.lookup
      (SuurballeGraphSearch.insertionOrders ℕ TestEdge ℤ) (fun _ _ => true)
      DijkstraGraphSearch.diamond 0 3 testWeigher ALL_PATHS ∧
    ReturnsSeparated (SrlgGraphSearch.ofObjects (some diamondGroups)) diamondGroups.lookup
      (SuurballeGraphSearch.insertionOrders ℕ TestEdge ℤ) (fun _ _ => true)
      DijkstraGraphSearch.diamond 0 3 testWeigher ALL_PATHS :=
  search_separates ..

theorem covers_diamondGroups :
    Covers (SrlgGraphSearch.ofGroups 2 diamondGroups) DijkstraGraphSearch.diamond := by
  change ∀ e ∈ DijkstraGraphSearch.diamond.getEdges, ∃ i : Fin 2, diamondGroups.lookup e = some (i : ℤ)
  decide

theorem search_returns_diamond : ∃ pairs r', (SrlgGraphSearch.ofGroups 2 diamondGroups).searchPaths
    (SuurballeGraphSearch.insertionOrders ℕ TestEdge ℤ) (fun _ _ => true)
      DijkstraGraphSearch.diamond 0 3 testWeigher ALL_PATHS (fun _ => 0) = .ok (pairs, r') :=
  search_returns rfl covers_diamondGroups (by decide) (by decide) (by decide) (.inl rfl) _

example : Subset.buildPaths (SrlgGraphSearch.ofGroups 2 diamondGroups)
    DijkstraGraphSearch.diamond 0 3 testWeigher (Subset.ofSubset fun i => i.1 = 0) =
      .ok [⟨⟨[⟨0, 1, 1⟩, ⟨1, 3, 1⟩], 2⟩, some ⟨[⟨0, 2, 1⟩, ⟨2, 3, 1⟩], 2⟩⟩] := by decide

end Returning

end RiskDisjointPaths

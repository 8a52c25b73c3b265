import Onos.SpurPaths
import Mathlib.Data.Set.Card

/-! The search for a given number of cheapest paths. What the rounds find is kept in a list that
is sorted before its first path is taken. -/
namespace KShortestPathsSearch

open DirectedWalk ShortestPaths GraphPathSearch DeviationSearch SpurPaths

universe u v

variable {V : Type u} {E : Type v} {M : Type*} [DecidableEq V] [DecidableEq E] [Edge V E]
variable [AddCommGroup M] [LinearOrder M]

/-- `InnerPathComparator.compare`. Of two different paths of the same cost each comes after the
other. -/
def comparePaths (pathOne pathTwo : Path E M) : Ordering :=
  let comparisonValue := compare pathOne.cost pathTwo.cost
  if comparisonValue ≠ .eq then comparisonValue
  else if pathOne.edges = pathTwo.edges then .eq
  else .gt

/-- A sort for such a comparator orders the costs; what it does among equal ones is open. -/
structure PathSort (E M : Type*) [DecidableEq E] [LinearOrder M] where
  sort : List (Path E M) → List (Path E M)
  perm : ∀ paths, (sort paths).Perm paths
  ordered : ∀ paths, (sort paths).Pairwise fun P Q => comparePaths Q P ≠ .lt

structure Rounds (E M : Type*) where
  resultPaths : List (Path E M)
  potentialPaths : List (Path E M)

variable (sort : PathSort E M) (graph : DirectedGraph V E) (src dst : V) (weigher : EdgeWeigher E M)

def round (k : ℕ) (s : Rounds E M) : Except String (Option (Rounds E M)) :=
  match s.resultPaths[k - 1]? with
  | none => .error "IndexOutOfBoundsException"
  | some lastPath =>
    (spurPaths graph dst weigher s.resultPaths [] lastPath.edges).map fun found =>
      match sort.sort (s.potentialPaths ++ found) with
      | [] => none
      | path :: rest => some ⟨s.resultPaths ++ [path], rest⟩

def rounds : ℕ → ℕ → Rounds E M → Except String (Rounds E M)
  | 0, _, s => .ok s
  | n + 1, k, s => (round sort graph dst weigher k s).bind fun
    | none => .ok s
    | some s' => rounds n (k + 1) s'

def firstPath : Except String (Option (Path E M)) :=
  (DijkstraGraphSearch.search graph src (some dst) (innerEdgeWeigher [] weigher) 1).map
    fun result => result.paths.head?

def internalSearch (maxPaths : ℤ) : Except String (List (Path E M)) :=
  if maxPaths = ALL_PATHS then .error "KShortestPath search cannotbe used with ALL_PATHS."
  else if ¬ 0 < maxPaths then .error "The max number of paths must be greater than 0"
  else (firstPath graph src dst weigher).bind fun
    | none => .ok []
    | some path => (rounds sort graph dst weigher (maxPaths.toNat - 1) 1 ⟨[path], []⟩).map
      fun s => s.resultPaths.dedup

def search (maxPaths : ℤ) : Except String (List (Path E M)) :=
  (checkArguments graph src (some dst)).bind fun _ =>
    internalSearch sort graph src dst weigher maxPaths

inductive Reached : ℕ → Rounds E M → Prop where
  | first {path : Path E M} : firstPath graph src dst weigher = .ok (some path) →
      Reached 1 ⟨[path], []⟩
  | next {k : ℕ} {s s' : Rounds E M} : Reached k s →
      round sort graph dst weigher k s = .ok (some s') → Reached (k + 1) s'

def TakesAgain (k : ℕ) (s : Rounds E M) : Prop :=
  ∃ lastPath found path rest, s.resultPaths[k - 1]? = some lastPath ∧
    spurPaths graph dst weigher s.resultPaths [] lastPath.edges = .ok found ∧
    sort.sort (s.potentialPaths ++ found) = path :: rest ∧ path ∈ s.resultPaths

section Sorting

omit [AddCommGroup M]

theorem cost_le_of_comparePaths {P Q : Path E M} (h : comparePaths Q P ≠ .lt) :
    P.cost ≤ Q.cost := by
  by_contra hlt
  rw [not_le] at hlt
  apply h
  simp [comparePaths, compare_lt_iff_lt.mpr hlt]

theorem comparePaths_ne_lt {P Q : Path E M} (h : P.cost ≤ Q.cost) : comparePaths Q P ≠ .lt := by
  unfold comparePaths
  rcases h.lt_or_eq with hlt | heq
  · simp [compare_gt_iff_gt.mpr hlt]
  · simp only [heq]
    split_ifs <;> simp_all

end Sorting

def insertionSort (E M : Type*) [DecidableEq E] [LinearOrder M] : PathSort E M where
  sort := List.insertionSort fun P Q => P.cost ≤ Q.cost
  perm := List.perm_insertionSort _
  ordered paths := by
    have hsorted := List.pairwise_insertionSort (fun P Q : Path E M => P.cost ≤ Q.cost) paths
    exact hsorted.imp comparePaths_ne_lt

section Runs

variable {sort : PathSort E M} {graph : DirectedGraph V E} {src dst : V} {weigher : EdgeWeigher E M}
  {k K : ℕ} {s s' : Rounds E M}

structure RoundInv (graph : DirectedGraph V E) (src dst : V) (weigher : EdgeWeigher E M) (k : ℕ)
    (s : Rounds E M) : Prop where
  length : s.resultPaths.length = k
  ranked : Ranked graph src dst weigher s.resultPaths s.potentialPaths
  last : ∃ lastPath, s.resultPaths[k - 1]? = some lastPath ∧
    CoveredBut (fun p => IsSimplePath graph src p dst) weigher.totalCost
      (s.resultPaths.map Path.edges) (s.potentialPaths.map Path.edges) lastPath.edges

def Complete (graph : DirectedGraph V E) (src dst : V) (s : Rounds E M) : Prop :=
  ∀ q, IsSimplePath graph src q dst → q ∈ s.resultPaths.map Path.edges

variable [IsOrderedAddMonoid M]

theorem round_spec (sort : PathSort E M) (hweights : PositiveWeights graph weigher)
    (h : RoundInv graph src dst weigher k s) :
    (round sort graph dst weigher k s = .ok none ∧ Complete graph src dst s) ∨
    ∃ path rest, round sort graph dst weigher k s = .ok (some ⟨s.resultPaths ++ [path], rest⟩) ∧
      RoundInv graph src dst weigher (k + 1) ⟨s.resultPaths ++ [path], rest⟩ := by
  obtain ⟨lastPath, hlast, hcovered⟩ := h.last
  have hmem : lastPath ∈ s.resultPaths := List.mem_of_getElem? hlast
  have hne : s.resultPaths ≠ [] := List.ne_nil_of_mem hmem
  obtain ⟨found, hok, -, hadd, hall⟩ := h.ranked.spurPaths hweights hmem hcovered
  have hperm := sort.perm (s.potentialPaths ++ found)
  have hordered := sort.ordered (s.potentialPaths ++ found)
  cases hsort : sort.sort (s.potentialPaths ++ found) with
  | nil =>
    left
    rw [hsort] at hperm
    have hnil := hperm.nil_eq
    refine ⟨by simp [round, hlast, hok, hsort, Except.map], ?_⟩
    intro q hq
    rw [← hnil] at hadd hall
    exact hadd.complete hall hne hq
  | cons path rest =>
    right
    rw [hsort] at hperm hordered
    have hleast : ∀ Q ∈ rest, path.cost ≤ Q.cost := fun Q hQ =>
      cost_le_of_comparePaths ((List.pairwise_cons.mp hordered).1 Q hQ)
    have hranked := hadd.perm hperm.symm
    have hcov : Covered (fun p => IsSimplePath graph src p dst) weigher.totalCost
        (s.resultPaths.map Path.edges) ((path :: rest).map Path.edges) := by
      intro r q hr hq
      obtain ⟨x, hx, hdev⟩ := hall r q hr hq
      exact ⟨x, (hperm.symm.map Path.edges).mem_iff.mp hx, hdev⟩
    refine ⟨path, rest, by simp [round, hlast, hok, hsort, Except.map],
      ?_, ?_, path, ?_, ?_⟩
    · rw [List.length_append, h.length, List.length_singleton]
    · refine hranked.take hleast fun q hq hnot => ?_
      apply hranked.least hcov hne List.mem_cons_self ?_ hq hnot
      intro Q hQ
      rcases List.mem_cons.mp hQ with rfl | hQ
      · exact le_rfl
      · exact hleast Q hQ
    · rw [Nat.add_sub_cancel, List.getElem?_append_right h.length.le, h.length, Nat.sub_self]
      rfl
    · rw [List.map_append]
      exact hcov.take (List.Perm.refl _)

omit [IsOrderedAddMonoid M] in
theorem takesAgain_iff : TakesAgain sort graph dst weigher k s ↔ ∃ path rest,
    round sort graph dst weigher k s = .ok (some ⟨s.resultPaths ++ [path], rest⟩) ∧
      path ∈ s.resultPaths := by
  constructor
  · rintro ⟨lastPath, found, path, rest, hlast, hok, hsort, hpath⟩
    exact ⟨path, rest, by simp [round, hlast, hok, hsort, Except.map], hpath⟩
  · rintro ⟨path, rest, hround, hpath⟩
    cases hlast : s.resultPaths[k - 1]? with
    | none => simp [round, hlast] at hround
    | some lastPath =>
      cases hok : spurPaths graph dst weigher s.resultPaths [] lastPath.edges with
      | error e => simp [round, hlast, hok, Except.map] at hround
      | ok found =>
        cases hsort : sort.sort (s.potentialPaths ++ found) with
        | nil => simp [round, hlast, hok, hsort, Except.map] at hround
        | cons path' rest' =>
          obtain ⟨rfl, rfl⟩ : path' = path ∧ rest' = rest := by
            simpa [round, hlast, hok, hsort, Except.map] using hround
          exact ⟨lastPath, found, path', rest', hlast, hok, hsort, hpath⟩

theorem firstPath_spec (hweights : PositiveWeights graph weigher)
    (hsrc : src ∈ graph.getVertexes) (hdst : dst ∈ graph.getVertexes) (hne : src ≠ dst) :
    (firstPath graph src dst weigher = .ok none ∧ ∀ q, ¬ IsSimplePath graph src q dst) ∨
    ∃ path, firstPath graph src dst weigher = .ok (some path) ∧
      RoundInv graph src dst weigher 1 ⟨[path], []⟩ := by
  have hfirst := first_spec hweights hsrc hne
  have hpath : firstPath graph src dst weigher = .ok
      (DijkstraGraphSearch.internalSearch graph src (some dst) weigher 1).paths.head? := by
    rw [firstPath, innerEdgeWeigher_nil, DijkstraGraphSearch.search_eq hsrc hdst]
    rfl
  rw [hpath]
  revert hfirst
  cases (DijkstraGraphSearch.internalSearch graph src (some dst) weigher 1).paths.head? with
  | none =>
    intro hnone
    exact .inl ⟨rfl, hnone⟩
  | some path =>
    rintro ⟨hranked, hleast⟩
    refine .inr ⟨path, rfl, rfl, ?_, path, rfl, ?_⟩
    · exact hranked.take (by simp) fun q hq _ => hleast q hq
    · intro r q hr hnot
      exact absurd hr hnot

omit [IsOrderedAddMonoid M] in
theorem Reached.exists_first (h : Reached sort graph src dst weigher k s) :
    ∃ path, firstPath graph src dst weigher = .ok (some path) := by
  induction h with
  | first hfirst => exact ⟨_, hfirst⟩
  | next _ _ ih => exact ih

theorem reached_inv (hweights : PositiveWeights graph weigher)
    (hsrc : src ∈ graph.getVertexes) (hdst : dst ∈ graph.getVertexes) (hne : src ≠ dst)
    (h : Reached sort graph src dst weigher k s) : RoundInv graph src dst weigher k s := by
  induction h with
  | first hfirst =>
    rcases firstPath_spec hweights hsrc hdst hne with ⟨hnone, -⟩ | ⟨path, hsome, hinv⟩
    · rw [hfirst] at hnone
      cases hnone
    · rw [hfirst] at hsome
      cases hsome
      exact hinv
  | next _ hround ih =>
    rcases round_spec sort hweights ih with ⟨hnone, -⟩ | ⟨path, rest, hsome, hinv⟩
    · rw [hround] at hnone
      cases hnone
    · rw [hround] at hsome
      cases hsome
      exact hinv

theorem rounds_spec (hweights : PositiveWeights graph weigher)
    (hsrc : src ∈ graph.getVertexes) (hdst : dst ∈ graph.getVertexes) (hne : src ≠ dst) (n : ℕ)
    (h : Reached sort graph src dst weigher k s) :
    ∃ j s', rounds sort graph dst weigher n k s = .ok s' ∧
      Reached sort graph src dst weigher j s' ∧ j ≤ k + n ∧
      s.resultPaths <+: s'.resultPaths ∧ (j = k + n ∨ Complete graph src dst s') := by
  induction n generalizing k s with
  | zero => exact ⟨k, s, rfl, h, le_rfl, List.prefix_refl _, .inl rfl⟩
  | succ n ih =>
    rcases round_spec sort hweights (reached_inv hweights hsrc hdst hne h) with
      ⟨hround, hcomplete⟩ | ⟨path, rest, hround, -⟩
    · refine ⟨k, s, ?_, h, by omega, List.prefix_refl _, .inr hcomplete⟩
      rw [rounds, hround]
      rfl
    · obtain ⟨j, s', hrounds, hreached, hle, hbegins, hend⟩ := ih (h.next hround)
      refine ⟨j, s', ?_, hreached, by omega, (List.prefix_append _ [path]).trans hbegins, ?_⟩
      · rw [rounds, hround]
        exact hrounds
      · apply hend.imp_left
        intro hj
        omega

omit [IsOrderedAddMonoid M] in
theorem rounds_of_reached (h : Reached sort graph src dst weigher k s) (hle : k ≤ K)
    {path : Path E M} (hfirst : firstPath graph src dst weigher = .ok (some path)) :
    rounds sort graph dst weigher (K - 1) 1 ⟨[path], []⟩ =
      rounds sort graph dst weigher (K - k) k s := by
  induction h with
  | first hfirst' =>
    rw [hfirst] at hfirst'
    cases hfirst'
    rfl
  | @next k s s' _ hround ih =>
    rw [ih (by omega)]
    have hlen : K - k = (K - (k + 1)) + 1 := by omega
    rw [hlen, rounds, hround]
    rfl

end Runs

section Counting

variable (graph : DirectedGraph V E) (src dst : V)

/-- The number of simple paths. -/
noncomputable def simplePaths : ℕ := Set.ncard {p | IsSimplePath graph src p dst}

variable {graph src dst} {paths : List (List E)}

omit [DecidableEq V]

omit [DecidableEq E] in
theorem finite_simple : Set.Finite {p | IsSimplePath graph src p dst} := by
  obtain ⟨all, hall⟩ := exists_simple_list graph src dst
  exact all.finite_toSet.subset hall

theorem length_eq_ncard (hnodup : paths.Nodup) :
    paths.length = Set.ncard (paths.toFinset : Set (List E)) := by
  rw [Set.ncard_coe_finset, List.toFinset_card_of_nodup hnodup]

theorem length_le_simplePaths (hnodup : paths.Nodup)
    (hsimple : ∀ p ∈ paths, IsSimplePath graph src p dst) :
    paths.length ≤ simplePaths graph src dst := by
  rw [length_eq_ncard hnodup]
  apply Set.ncard_le_ncard _ finite_simple
  intro p hp
  exact hsimple p (List.mem_toFinset.mp hp)

theorem simplePaths_le_length (hnodup : paths.Nodup)
    (hsimple : ∀ p ∈ paths, IsSimplePath graph src p dst) :
    simplePaths graph src dst ≤ paths.length ↔ ∀ q, IsSimplePath graph src q dst → q ∈ paths := by
  have hsub : (paths.toFinset : Set (List E)) ⊆ {p | IsSimplePath graph src p dst} := by
    intro p hp
    exact hsimple p (List.mem_toFinset.mp hp)
  rw [length_eq_ncard hnodup]
  constructor
  · intro hle q hq
    have heq := Set.eq_of_subset_of_ncard_le hsub hle finite_simple
    have hmem : q ∈ (paths.toFinset : Set (List E)) := by
      rw [heq]
      exact hq
    exact List.mem_toFinset.mp hmem
  · intro hall
    apply Set.ncard_le_ncard _ paths.toFinset.finite_toSet
    intro q hq
    exact List.mem_toFinset.mpr (hall q hq)

end Counting

section Cheapest

variable {sort : PathSort E M} {graph : DirectedGraph V E} {src dst : V} {weigher : EdgeWeigher E M}
  {k K : ℕ} {s : Rounds E M}

structure KCheapest (graph : DirectedGraph V E) (src dst : V) (weigher : EdgeWeigher E M) (K : ℕ)
    (paths : List (Path E M)) : Prop where
  distinct : (paths.map Path.edges).Nodup
  number : paths.length = min K (simplePaths graph src dst)
  simple : ∀ P ∈ paths, IsSimplePath graph src P.edges dst
  cheapest : ∀ q, IsSimplePath graph src q dst → q ∉ paths.map Path.edges →
    ∀ P ∈ paths, weigher.totalCost P.edges ≤ weigher.totalCost q

omit [DecidableEq V] [DecidableEq E] in
theorem RoundInv.edges_inj (h : RoundInv graph src dst weigher k s) {P Q : Path E M}
    (hP : P ∈ s.resultPaths) (hQ : Q ∈ s.resultPaths) (heq : P.edges = Q.edges) : P = Q := by
  have hcost : P.cost = Q.cost := by
    rw [(h.ranked.simple P (List.mem_append_left _ hP)).2, heq,
      (h.ranked.simple Q (List.mem_append_left _ hQ)).2]
  cases P
  cases Q
  simp_all

section

omit [DecidableEq V]

theorem RoundInv.dedup_nodup (h : RoundInv graph src dst weigher k s) :
    (s.resultPaths.dedup.map Path.edges).Nodup := by
  apply s.resultPaths.nodup_dedup.map_on
  intro P hP Q hQ heq
  exact h.edges_inj (List.mem_dedup.mp hP) (List.mem_dedup.mp hQ) heq

theorem RoundInv.kCheapest_iff (h : RoundInv graph src dst weigher k s) (hle : k ≤ K)
    (hend : k = K ∨ Complete graph src dst s) :
    KCheapest graph src dst weigher K s.resultPaths.dedup ↔
      s.resultPaths.Nodup ∨ Complete graph src dst s := by
  have hmem : ∀ q, q ∈ s.resultPaths.dedup.map Path.edges ↔ q ∈ s.resultPaths.map Path.edges := by
    intro q
    simp only [List.mem_map, List.mem_dedup]
  have hsimple : ∀ p ∈ s.resultPaths.dedup.map Path.edges, IsSimplePath graph src p dst := by
    intro p hp
    exact h.ranked.words p ((hmem p).mp hp)
  have hcount := length_le_simplePaths h.dedup_nodup hsimple
  have hall := simplePaths_le_length h.dedup_nodup hsimple
  have hshort : s.resultPaths.dedup.length ≤ k := by
    rw [← h.length]
    exact (List.dedup_sublist _).length_le
  rw [List.length_map] at hcount hall
  constructor
  · intro hcheapest
    have hnumber := hcheapest.number
    rcases hend with rfl | hcomplete
    · by_cases hmin : s.resultPaths.dedup.length = k
      · left
        rw [← List.dedup_eq_self, ← (List.dedup_sublist s.resultPaths).length_eq, hmin, h.length]
      · right
        intro q hq
        exact (hmem q).mp (hall.mp (by omega) q hq)
    · exact .inr hcomplete
  · intro hright
    refine ⟨h.dedup_nodup, ?_, ?_, ?_⟩
    · by_cases hcomplete : Complete graph src dst s
      · have hge := hall.mpr fun q hq => (hmem q).mpr (hcomplete q hq)
        omega
      · have hnodup := hright.resolve_right hcomplete
        have hK := hend.resolve_right hcomplete
        rw [hnodup.dedup] at hcount ⊢
        have hlen := h.length
        omega
    · intro P hP
      exact hsimple P.edges (List.mem_map_of_mem hP)
    · intro q hq hnot P hP
      have htaken : P ∈ s.resultPaths := List.mem_dedup.mp hP
      rw [← (h.ranked.simple P (List.mem_append_left _ htaken)).2]
      exact h.ranked.outside P htaken q hq fun hin => hnot ((hmem q).mpr hin)

end

variable [IsOrderedAddMonoid M]

theorem nodup_of_reached (hweights : PositiveWeights graph weigher)
    (hsrc : src ∈ graph.getVertexes) (hdst : dst ∈ graph.getVertexes) (hne : src ≠ dst)
    (hnew : ∀ k s, Reached sort graph src dst weigher k s → k < K →
      ¬ TakesAgain sort graph dst weigher k s)
    (h : Reached sort graph src dst weigher k s) (hle : k ≤ K) : s.resultPaths.Nodup := by
  induction h with
  | first _ => exact List.nodup_singleton _
  | @next k s s' hreached hround ih =>
    have hinv := reached_inv hweights hsrc hdst hne hreached
    rcases round_spec sort hweights hinv with ⟨hnone, -⟩ | ⟨path, rest, hsome, -⟩
    · rw [hround] at hnone
      cases hnone
    · rw [hround] at hsome
      cases hsome
      have hpath : path ∉ s.resultPaths := fun hmem =>
        hnew k s hreached (by omega) (takesAgain_iff.mpr ⟨path, rest, hround, hmem⟩)
      exact List.nodup_append.mpr ⟨ih (by omega), List.nodup_singleton path, by
        rintro P hP Q hQ rfl
        exact hpath (List.mem_singleton.mp hQ ▸ hP)⟩

omit [IsOrderedAddMonoid M] in
theorem search_eq (sort : PathSort E M) (hsrc : src ∈ graph.getVertexes)
    (hdst : dst ∈ graph.getVertexes) (hK : 1 ≤ K) :
    search sort graph src dst weigher K = (firstPath graph src dst weigher).bind fun
      | none => .ok []
      | some path => (rounds sort graph dst weigher (K - 1) 1 ⟨[path], []⟩).map
        fun s => s.resultPaths.dedup := by
  have hall : ¬ (K : ℤ) = ALL_PATHS := by
    unfold ALL_PATHS
    omega
  have hpos : ¬ ¬ 0 < (K : ℤ) := by omega
  simp only [search, checkArguments, internalSearch, hsrc, hdst, hall, hpos, not_true_eq_false,
    if_false, if_true, Except.bind, Int.toNat_natCast]

theorem Reached.isPrefix (hweights : PositiveWeights graph weigher)
    (hsrc : src ∈ graph.getVertexes) (hdst : dst ∈ graph.getVertexes) (hne : src ≠ dst)
    (h : Reached sort graph src dst weigher k s) (hle : k ≤ K) {path : Path E M}
    (hfirst : firstPath graph src dst weigher = .ok (some path)) {last : Rounds E M}
    (hrounds : rounds sort graph dst weigher (K - 1) 1 ⟨[path], []⟩ = .ok last) :
    s.resultPaths <+: last.resultPaths := by
  obtain ⟨-, last', hrounds', -, -, hbegins, -⟩ := rounds_spec hweights hsrc hdst hne (K - k) h
  rw [← rounds_of_reached h hle hfirst, hrounds] at hrounds'
  cases hrounds'
  exact hbegins

omit [DecidableEq V] [DecidableEq E] [Edge V E] [IsOrderedAddMonoid M] [AddCommGroup M]
  [LinearOrder M] in
theorem length_of_result {result : Except String (List (Path E M))} {n : ℕ}
    (h : result.map List.length = .ok n) {paths : List (Path E M)} (hok : result = .ok paths) :
    paths.length = n := by
  subst hok
  exact Except.ok.inj h

end Cheapest

end KShortestPathsSearch

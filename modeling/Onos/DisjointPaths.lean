import Onos.SuurballeGraphSearch
import Onos.PathLimit
import Onos.Lib.FallibleRun

/-! The pairs of Suurballe's search are disjoint, whatever its residual graph looks like. There an
edge may be equal to the reverse of another one, if its class takes edges with the same ends to be
equal: then the graph keeps the one that it has. -/
namespace DisjointPaths

open DirectedWalk ShortestPaths GraphPathSearch SuurballeGraphSearch
open FailingMap (mem_of_mapM)
open FallibleRun (bind_eq_ok map_eq_ok)

universe u v

variable {V : Type u} {E : Type v} {M : Type*} [DecidableEq V] [DecidableEq E] [Edge V E]

section Search

variable (equalsReverse : E → ReverseEdge V → Bool)

/-- An edge of the shortest path goes, and its reverse comes unless something equal is there. Of two
equal reverse edges the graph keeps one. -/
def reverseIn (gt : List (ResidualEdge V E)) (edge : E) : List (ResidualEdge V E) :=
  let gt := gt.filter (Sum.elim (fun e => e ≠ edge) fun r => !equalsReverse edge r)
  if gt.any (Sum.elim (fun e => equalsReverse e (reverseEdge edge)) fun _ => false) then gt
  else gt ++ [.inr (reverseEdge edge)]

variable [AddCommGroup M] [LinearOrder M] (orders : HashOrders V E M) (graph : DirectedGraph V E)
  (src dst : V) (weigher : EdgeWeigher E M)

def residualGraphWith (shortPath : List E) : DirectedGraph V (ResidualEdge V E) :=
  mutableGraph orders.vertexes orders.residualEdges graph.getVertexes
    (shortPath.foldl (reverseIn equalsReverse)
      ((graph.getEdges.filter fun e => e ∉ graph.getEdgesTo src).map Sum.inl))

def secondDijkstraWith (shortPath : List E) :
    Except String (DefaultResult V (ResidualEdge V E) M) :=
  DijkstraWithFailures.search (residualGraphWith equalsReverse orders graph src shortPath) src
    (some dst) (modified graph src weigher) ALL_PATHS

def pairsOfWith (shortPath : Path E M) : Except String (List (DisjointPathPair E M)) :=
  (secondDijkstraWith equalsReverse orders graph src dst weigher shortPath.edges).bind fun second =>
    if second.paths.isEmpty then .ok [⟨shortPath, none⟩]
    else ((orders.residualPaths.order second.paths).mapM fun p2 =>
      disjointPair orders graph src dst weigher shortPath.edges p2.edges).map List.reduceOption

def internalSearchWith (maxPaths : ℤ) : Except String (List (DisjointPathPair E M)) :=
  if (firstDijkstraS graph src dst weigher).paths.isEmpty then .ok []
  else (((orders.paths.order (firstDijkstraS graph src dst weigher).paths).mapM
    (pairsOfWith equalsReverse orders graph src dst weigher)).map List.flatten).map fun dpps =>
      buildPaths maxPaths 0 [] (prune dpps)

def searchWith (maxPaths : ℤ) : Except String (List (DisjointPathPair E M)) :=
  (checkArguments graph src (some dst)).bind fun _ =>
    internalSearchWith equalsReverse orders graph src dst weigher maxPaths

end Search

section Reverse

omit [DecidableEq V] in
theorem foldl_reverseIn (kept : List E) (reverses : List (ReverseEdge V)) (shortPath : List E) :
    shortPath.foldl (reverseIn fun _ _ => false) (kept.map Sum.inl ++ reverses.map Sum.inr) =
      (kept.filter fun e => e ∉ shortPath).map Sum.inl ++
        (reverses ++ shortPath.map reverseEdge).map Sum.inr := by
  induction shortPath generalizing kept reverses with
  | nil => simp
  | cons edge shortPath ih =>
    have hstep : reverseIn (fun _ _ => false)
        (kept.map Sum.inl ++ reverses.map Sum.inr : List (ResidualEdge V E)) edge =
        (kept.filter fun e => e ≠ edge).map Sum.inl ++
          (reverses ++ [reverseEdge edge]).map Sum.inr := by
      simp [reverseIn, List.filter_map, Function.comp_def]
    rw [List.foldl_cons, hstep, ih, List.filter_filter]
    simp [not_or, Bool.and_comm]

variable [AddCommGroup M] [LinearOrder M] (orders : HashOrders V E M) (graph : DirectedGraph V E)
  (src dst : V) (weigher : EdgeWeigher E M)

theorem searchWith_false (maxPaths : ℤ) :
    searchWith (fun _ _ => false) orders graph src dst weigher maxPaths =
      search orders graph src dst weigher maxPaths := by
  have hresidual : residualGraphWith (fun _ _ => false) orders graph src =
      residualGraph orders graph src := by
    funext shortPath
    have hfold := foldl_reverseIn (graph.getEdges.filter fun e => e ∉ graph.getEdgesTo src) []
      shortPath
    rw [List.map_nil, List.append_nil, List.nil_append, List.filter_filter] at hfold
    rw [residualGraphWith, hfold, residualGraph]
    simp [and_comm, Function.comp_def]
  have hpairs : pairsOfWith (fun _ _ => false) orders graph src dst weigher =
      pairsOf orders graph src dst weigher := by
    funext shortPath
    rw [pairsOfWith, secondDijkstraWith, hresidual]
    rfl
  rw [searchWith, internalSearchWith, hpairs]
  rfl

end Reverse

section Disjoint

structure IsPathOf (graph : DirectedGraph V E) (src dst : V) (p : Path E M) : Prop where
  walk : IsWalk Edge.src Edge.dst src p.edges dst
  edges : ∀ e ∈ p.edges, e ∈ graph.getEdges

def IsIntermediate (src dst : V) (p : Path E M) (v : V) : Prop :=
  v ≠ src ∧ v ≠ dst ∧ ∃ e ∈ p.edges, Edge.src e = v ∨ Edge.dst e = v

structure AreDisjoint (graph : DirectedGraph V E) (src dst : V) (primary backup : Path E M) :
    Prop where
  primaryPath : IsPathOf graph src dst primary
  backupPath : IsPathOf graph src dst backup
  edges : ∀ e ∈ primary.edges, e ∉ backup.edges
  vertexes : ∀ v, IsIntermediate src dst primary v → ¬IsIntermediate src dst backup v

section

omit [DecidableEq E]

theorem mem_vertices {graph : DirectedGraph V E} {src dst v : V} {p : Path E M}
    (hp : IsPathOf graph src dst p) (hv : IsIntermediate src dst p v) : v ∈ vertices p := by
  obtain ⟨hsrc, hdst, e, he, hends⟩ := hv
  have hmem : v ∈ src :: p.edges.map Edge.dst := by
    rcases hends with rfl | rfl
    · exact hp.walk.src_mem he
    · exact List.mem_cons_of_mem _ (List.mem_map_of_mem he)
  obtain ⟨f, hf, rfl⟩ := (hp.walk.end_or_src hmem).resolve_left hdst
  refine List.mem_filter.mpr ⟨List.mem_map_of_mem hf, decide_eq_true fun hhead => ?_⟩
  cases hedges : p.edges with
  | nil => exact absurd (hedges ▸ hf) List.not_mem_nil
  | cons first rest =>
    have hwalk := hp.walk
    rw [hedges] at hhead hwalk
    exact hsrc ((Option.some.inj hhead).trans hwalk.1)

theorem vertexes_of_isDisjoint {graph : DirectedGraph V E} {src dst : V} {primary backup : Path E M}
    (hprimary : IsPathOf graph src dst primary) (hbackup : IsPathOf graph src dst backup)
    (h : isDisjoint primary backup = true) (v : V) (hv : IsIntermediate src dst primary v) :
    ¬IsIntermediate src dst backup v := by
  intro hv'
  have hnot := List.all_eq_true.mp h v (mem_vertices hprimary hv)
  exact of_decide_eq_true hnot (mem_vertices hbackup hv')

end

theorem mem_roundTripEdges {shortPath : List E} {residualShortPath : List (ResidualEdge V E)}
    {e : E} (h : e ∈ roundTripEdges shortPath residualShortPath) :
    e ∈ shortPath ∨ Sum.inl e ∈ residualShortPath := by
  have hfold : ∀ (rest : List (ResidualEdge V E)) (cur : List E),
      e ∈ rest.foldl (addToRoundTrip shortPath) cur → e ∈ cur ∨ Sum.inl e ∈ rest := by
    intro rest
    induction rest with
    | nil => exact fun cur he => Or.inl he
    | cons x rest ih =>
      intro cur he
      rcases ih _ he with hcur | hrest
      · cases x with
        | inl f =>
          rcases List.mem_insert_iff.mp hcur with rfl | hcur
          · exact Or.inr List.mem_cons_self
          · exact Or.inl hcur
        | inr r =>
          rw [addToRoundTrip] at hcur
          cases hrev : revToEdge shortPath r with
          | none =>
            rw [hrev] at hcur
            exact Or.inl hcur
          | some f =>
            rw [hrev] at hcur
            exact Or.inl (List.mem_of_mem_erase hcur)
      · exact Or.inr (List.mem_cons_of_mem x hrest)
  rcases hfold _ _ h with hcur | hrest
  · exact Or.inl (List.mem_dedup.mp hcur)
  · exact Or.inr hrest

variable [AddCommGroup M] [LinearOrder M] {orders : HashOrders V E M} {graph : DirectedGraph V E}
  {src dst : V} {weigher : EdgeWeigher E M} {equalsReverse : E → ReverseEdge V → Bool}

omit [AddCommGroup M] [LinearOrder M] in
theorem mem_of_residual {shortPath : List E} {e : E} (h : Sum.inl e ∈
    (residualGraphWith equalsReverse orders graph src shortPath).getEdges) :
    e ∈ graph.getEdges := by
  have hfold : ∀ (rest : List E) (gt : List (ResidualEdge V E)),
      Sum.inl e ∈ rest.foldl (reverseIn equalsReverse) gt → Sum.inl e ∈ gt := by
    intro rest
    induction rest with
    | nil => exact fun gt he => he
    | cons edge rest ih =>
      intro gt he
      have hstep := ih _ he
      rw [reverseIn] at hstep
      split_ifs at hstep
      · exact (List.mem_filter.mp hstep).1
      · rcases List.mem_append.mp hstep with hstep | hstep
        · exact (List.mem_filter.mp hstep).1
        · exact absurd (List.mem_singleton.mp hstep) Sum.inl_ne_inr
  obtain ⟨f, hf, heq⟩ := List.mem_map.mp (hfold _ _ (mem_edges_mutableGraph.mp h))
  obtain rfl := Sum.inl.inj heq
  exact (List.mem_filter.mp hf).1

variable [IsOrderedAddMonoid M]

section

variable (hsrc : src ∈ graph.getVertexes)

include hsrc

section

variable (hne : src ≠ dst)

include hne

theorem isPathOf_roundTrip {edges : List E}
    (hedges : ∀ e ∈ edges, e ∈ graph.getEdges) {p : Path E M}
    (hp : p ∈ (DijkstraGraphSearch.internalSearch (roundTrip orders graph edges) src (some dst)
      weigher ALL_PATHS).paths) : IsPathOf graph src dst p ∧ ∀ e ∈ p.edges, e ∈ edges := by
  have hfind := DijkstraGraphSearch.internalSearch_findsShortest (t := dst) weigher
    (Or.inl rfl : ALL_PATHS = ALL_PATHS ∨ 1 ≤ ALL_PATHS)
    (mem_vertexes_mutableGraph hsrc : src ∈ (roundTrip orders graph edges).getVertexes) hne
  obtain ⟨hshortest, -⟩ := hfind.sound p hp
  have hmem : ∀ e ∈ p.edges, e ∈ edges :=
    fun e he => mem_edges_mutableGraph.mp (hshortest.route.usable e he).1
  exact ⟨⟨hshortest.route.walk, fun e he => hedges e (hmem e he)⟩, hmem⟩

theorem areDisjoint_of_disjointPair
    {shortPath : List E} {residualShortPath : List (ResidualEdge V E)}
    (hedges : ∀ e ∈ roundTripEdges shortPath residualShortPath, e ∈ graph.getEdges)
    {pair : DisjointPathPair E M}
    (h : disjointPair orders graph src dst weigher shortPath residualShortPath = .ok (some pair)) :
    ∃ backup, pair.secondary = some backup ∧ AreDisjoint graph src dst pair.primary backup := by
  rw [disjointPair] at h
  cases hprimary : primaryPath orders graph src dst weigher
      (roundTripEdges shortPath residualShortPath) with
  | error message =>
    rw [hprimary] at h
    cases h
  | ok primary =>
    rw [hprimary] at h
    obtain ⟨backup, hfound, rfl⟩ := Option.map_eq_some_iff.mp (Except.ok.inj h)
    have hmem : primary ∈ (DijkstraGraphSearch.internalSearch (roundTrip orders graph
        (roundTripEdges shortPath residualShortPath)) src (some dst) weigher ALL_PATHS).paths := by
      rw [primaryPath] at hprimary
      split at hprimary
      · cases hprimary
      · rename_i first rest hcons
        obtain rfl := Except.ok.inj hprimary
        refine (orders.paths.perm _).mem_iff.mp ?_
        rw [hcons]
        exact List.mem_cons_self
    have hbackup := (orders.paths.perm _).mem_iff.mp (List.mem_of_find?_eq_some hfound)
    have hleft : ∀ e ∈ (roundTripEdges shortPath residualShortPath).filter
        fun e => e ∉ primary.edges, e ∈ graph.getEdges ∧ e ∉ primary.edges := by
      intro e he
      obtain ⟨he, hnot⟩ := List.mem_filter.mp he
      exact ⟨hedges e he, of_decide_eq_true hnot⟩
    obtain ⟨hpath, -⟩ := isPathOf_roundTrip hsrc hne hedges hmem
    obtain ⟨hpath', hmem'⟩ := isPathOf_roundTrip hsrc hne (fun e he => (hleft e he).1) hbackup
    refine ⟨backup, rfl, hpath, hpath', fun e he he' => (hleft e (hmem' e he')).2 he, ?_⟩
    exact vertexes_of_isDisjoint hpath hpath' (List.find?_some hfound)

/-- The second path has edges of the residual graph, whether or not the search weighs all edges
that it comes to. -/
theorem mem_edges_of_secondDijkstraWith
    {shortPath : List E} {second : DefaultResult V (ResidualEdge V E) M}
    (h : secondDijkstraWith equalsReverse orders graph src dst weigher shortPath = .ok second)
    {Q : Path (ResidualEdge V E) M} (hQ : Q ∈ second.paths) : ∀ x ∈ Q.edges,
      x ∈ (residualGraphWith equalsReverse orders graph src shortPath).getEdges := by
  obtain ⟨-, rfl⟩ := DijkstraWithFailures.search_eq_ok h
  have hfind := DijkstraGraphSearch.internalSearch_findsShortest (t := dst)
    (modified graph src weigher).total (Or.inl rfl : ALL_PATHS = ALL_PATHS ∨ 1 ≤ ALL_PATHS)
    (mem_vertexes_mutableGraph hsrc :
      src ∈ (residualGraphWith equalsReverse orders graph src shortPath).getVertexes) hne
  obtain ⟨hshortest, -⟩ := hfind.sound Q hQ
  exact fun x hx => (hshortest.route.usable x hx).1

theorem areDisjoint_of_pairsOfWith
    {P : Path E M} (hP : ∀ e ∈ P.edges, e ∈ graph.getEdges) {pairs : List (DisjointPathPair E M)}
    (h : pairsOfWith equalsReverse orders graph src dst weigher P = .ok pairs)
    {pair : DisjointPathPair E M} (hpair : pair ∈ pairs) {backup : Path E M}
    (hbackup : pair.secondary = some backup) : AreDisjoint graph src dst pair.primary backup := by
  rw [pairsOfWith] at h
  cases hsecond : secondDijkstraWith equalsReverse orders graph src dst weigher P.edges with
  | error message =>
    rw [hsecond] at h
    cases h
  | ok second =>
    rw [hsecond] at h
    dsimp only [Except.bind] at h
    split_ifs at h
    · obtain rfl := Except.ok.inj h
      rw [List.mem_singleton.mp hpair] at hbackup
      cases hbackup
    · obtain ⟨found, hfound, rfl⟩ := map_eq_ok.mp h
      obtain ⟨Q, hQ, hpair⟩ := mem_of_mapM hfound (List.reduceOption_mem_iff.mp hpair)
      have hQ := (orders.residualPaths.perm _).mem_iff.mp hQ
      have hedges : ∀ e ∈ roundTripEdges P.edges Q.edges, e ∈ graph.getEdges := by
        intro e he
        rcases mem_roundTripEdges he with he | he
        · exact hP e he
        · exact mem_of_residual (mem_edges_of_secondDijkstraWith hsrc hne hsecond hQ _ he)
      obtain ⟨backup', hbackup', hdisjoint⟩ :=
        areDisjoint_of_disjointPair hsrc hne hedges hpair
      obtain rfl := Option.some.inj (hbackup.symm.trans hbackup')
      exact hdisjoint

end

end

/-- Every pair with a backup that the search returns is disjoint. -/
theorem search_disjoint {maxPaths : ℤ} {pairs : List (DisjointPathPair E M)}
    (h : searchWith equalsReverse orders graph src dst weigher maxPaths = .ok pairs)
    {pair : DisjointPathPair E M} (hpair : pair ∈ pairs) {backup : Path E M}
    (hbackup : pair.secondary = some backup) : AreDisjoint graph src dst pair.primary backup := by
  obtain ⟨_, hcheck, h⟩ := bind_eq_ok.mp h
  have hsrc := source_of_checkArguments hcheck
  rw [internalSearchWith] at h
  split_ifs at h with hempty
  · obtain rfl := Except.ok.inj h
    exact absurd hpair List.not_mem_nil
  · have hne : src ≠ dst := by
      rintro rfl
      exact hempty (by rw [firstDijkstraS, PathLimit.paths_source, List.isEmpty_nil])
    obtain ⟨dpps, hdpps, rfl⟩ := map_eq_ok.mp h
    obtain ⟨found, hfound, rfl⟩ := map_eq_ok.mp hdpps
    have hpair := (buildPaths_prune maxPaths found.flatten).1 pair hpair
    obtain ⟨group, hgroup, hpair⟩ := List.mem_flatten.mp hpair
    obtain ⟨P, hP, hpairs⟩ := mem_of_mapM hfound hgroup
    have hP := (orders.paths.perm _).mem_iff.mp hP
    have hfind := DijkstraGraphSearch.internalSearch_findsShortest (t := dst) weigher
      (Or.inl rfl : ALL_PATHS = ALL_PATHS ∨ 1 ≤ ALL_PATHS) hsrc hne
    obtain ⟨hshortest, -⟩ := hfind.sound P hP
    exact areDisjoint_of_pairsOfWith hsrc hne (fun e he => (hshortest.route.usable e he).1) hpairs
      hpair hbackup

def square : DirectedGraph ℕ TestEdge := adjacencyListsGraph [0, 1, 2, 3]
  [⟨0, 1, 1⟩, ⟨1, 2, 1⟩, ⟨0, 3, 2⟩, ⟨3, 2, 2⟩, ⟨1, 3, 1⟩, ⟨2, 1, 1⟩]

def sameEnds (e : TestEdge) (reverse : ReverseEdge ℕ) : Bool :=
  e.src = reverse.src ∧ e.dst = reverse.dst

/-- The edge from 2 to 1 is equal to the reverse of an edge of the shortest path. -/
theorem search_disjoint_square : AreDisjoint square 0 2
    (⟨[⟨0, 1, 1⟩, ⟨1, 2, 1⟩], 2⟩ : Path TestEdge ℤ) ⟨[⟨0, 3, 2⟩, ⟨3, 2, 2⟩], 4⟩ := by
  have hfound : searchWith sameEnds (insertionOrders ℕ TestEdge ℤ) square 0 2 testWeigher
      ALL_PATHS = .ok [⟨⟨[⟨0, 1, 1⟩, ⟨1, 2, 1⟩], 2⟩, some ⟨[⟨0, 3, 2⟩, ⟨3, 2, 2⟩], 4⟩⟩] := by
    decide
  exact search_disjoint hfound List.mem_cons_self rfl

end Disjoint

end DisjointPaths

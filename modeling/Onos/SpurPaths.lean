import Onos.DijkstraGraphSearch
import Onos.Lib.DeviationSearch
import Onos.Lib.FailingMap
import Mathlib.Data.List.Permutation
import Mathlib.Data.List.Sublists

/-! What the two searches for the cheapest paths share: for each vertex of a path that has been
found, the shortest way on from there that no path found so far takes. An exception of the source
is an error with its name. -/
namespace SpurPaths

open DirectedWalk ShortestPaths GraphPathSearch DeviationSearch

universe u v

variable {V : Type u} {E : Type v} {M : Type*} [DecidableEq V] [DecidableEq E] [Edge V E]
variable [AddCommGroup M] [LinearOrder M]

def innerEdgeWeigher (excluded : List E) (weigher : EdgeWeigher E M) : EdgeWeigher E M where
  weight e := if e ∈ excluded then none else weigher.weight e
  getInitialWeight := weigher.getInitialWeight

def calculatePathCost (weigher : EdgeWeigher E M) (edges : List E) : M :=
  edges.foldl (fun totalCost e => totalCost + weigher.hopCost e) weigher.getInitialWeight

def edgeAt (i : ℕ) (path : Path E M) : Except String E :=
  match path.edges[i]? with
  | some e => .ok e
  | none => .error "IndexOutOfBoundsException"

def excludedEdges (graph : DirectedGraph V E) (resultPaths : List (Path E M))
    (rootPathEdgeList : List E) : Except String (List E) :=
  let i := rootPathEdgeList.length
  let sharing := resultPaths.filter fun path =>
    i ≤ path.edges.length ∧ rootPathEdgeList = path.edges.take i
  (sharing.mapM (edgeAt i)).map fun next => next ++ rootPathEdgeList.flatMap fun e =>
    graph.getEdgesFrom (Edge.src e) ++ graph.getEdgesTo (Edge.src e)

def spurPath (graph : DirectedGraph V E) (dst : V) (weigher : EdgeWeigher E M)
    (resultPaths : List (Path E M)) (rootPathEdgeList : List E) (spurNode : V) :
    Except String (Option (Path E M)) :=
  (excludedEdges graph resultPaths rootPathEdgeList).bind fun excluded =>
    (DijkstraGraphSearch.search graph spurNode (some dst)
      (innerEdgeWeigher excluded weigher) 1).map fun result =>
        result.paths.head?.map fun spurPath =>
          let totalPath := rootPathEdgeList ++ spurPath.edges
          ⟨totalPath, calculatePathCost weigher totalPath⟩

def spurPaths (graph : DirectedGraph V E) (dst : V) (weigher : EdgeWeigher E M)
    (resultPaths : List (Path E M)) :
    List E → List E → Except String (List (Path E M))
  | _, [] => .ok []
  | rootPathEdgeList, edge :: edges =>
    (spurPath graph dst weigher resultPaths rootPathEdgeList (Edge.src edge)).bind fun found =>
      (spurPaths graph dst weigher resultPaths (rootPathEdgeList ++ [edge]) edges).map fun more =>
        found.toList ++ more

section Masking

variable {graph : DirectedGraph V E} {weigher : EdgeWeigher E M} {excluded : List E}

omit [Edge V E] [DecidableEq V] [AddCommGroup M] [LinearOrder M] in
theorem innerEdgeWeigher_nil : innerEdgeWeigher [] weigher = weigher := by
  simp [innerEdgeWeigher]

omit [Edge V E] [DecidableEq V] in
theorem innerEdgeWeigher_isUsable {e : E} :
    (innerEdgeWeigher excluded weigher).IsUsable e ↔ e ∉ excluded ∧ weigher.IsUsable e := by
  unfold EdgeWeigher.IsUsable innerEdgeWeigher
  by_cases he : e ∈ excluded
  · simp [he]
  · simp [he]

section

omit [Edge V E] [DecidableEq V] [LinearOrder M]

theorem hopCost_innerEdgeWeigher {e : E} (he : e ∉ excluded) :
    (innerEdgeWeigher excluded weigher).hopCost e = weigher.hopCost e := by
  simp [EdgeWeigher.hopCost, innerEdgeWeigher, he]

theorem cost_innerEdgeWeigher {p : List E} (hp : ∀ e ∈ p, e ∉ excluded) :
    cost (innerEdgeWeigher excluded weigher).hopCost p = cost weigher.hopCost p := by
  have hmap : p.map (innerEdgeWeigher excluded weigher).hopCost = p.map weigher.hopCost :=
    List.map_congr_left fun e he => hopCost_innerEdgeWeigher (hp e he)
  rw [cost, cost, hmap]

end

omit [DecidableEq V] [DecidableEq E] [Edge V E] [LinearOrder M] in
theorem calculatePathCost_eq (weigher : EdgeWeigher E M) (edges : List E) :
    calculatePathCost weigher edges = weigher.totalCost edges := by
  unfold calculatePathCost EdgeWeigher.totalCost
  generalize weigher.getInitialWeight = total
  induction edges generalizing total with
  | nil => exact (add_zero total).symm
  | cons e edges ih => rw [List.foldl_cons, ih, cost_cons, add_assoc]

omit [DecidableEq V] [DecidableEq E] [Edge V E] [AddCommGroup M] [LinearOrder M]

theorem edgeAt_ok {i : ℕ} {P : Path E M} {e : E} : edgeAt i P = .ok e ↔ P.edges[i]? = some e := by
  cases hP : P.edges[i]? <;> simp [edgeAt, hP]

theorem mapM_edgeAt {i : ℕ} {paths : List (Path E M)}
    (h : ∀ P ∈ paths, i < P.edges.length) : ∃ next, paths.mapM (edgeAt i) = .ok next ∧
      ∀ e, e ∈ next ↔ ∃ P ∈ paths, P.edges[i]? = some e := by
  obtain ⟨next, hnext, hmem⟩ := FailingMap.mapM_ok (f := edgeAt i) fun P hP =>
    ⟨P.edges.get ⟨i, h P hP⟩, edgeAt_ok.mpr (List.getElem?_eq_getElem (h P hP))⟩
  refine ⟨next, hnext, fun e => (hmem e).trans ?_⟩
  exact exists_congr fun P => and_congr_right fun _ => edgeAt_ok

end Masking

section Simple

structure IsSimplePath (graph : DirectedGraph V E) (u : V) (p : List E) (v : V) : Prop where
  path : IsPath Edge.src Edge.dst u p v
  edges : ∀ e ∈ p, e ∈ graph.getEdges

instance (graph : DirectedGraph V E) (u : V) (p : List E) (v : V) :
    Decidable (IsSimplePath graph u p v) :=
  decidable_of_iff (IsPath Edge.src Edge.dst u p v ∧ ∀ e ∈ p, e ∈ graph.getEdges)
    ⟨fun h => ⟨h.1, h.2⟩, fun h => ⟨h.path, h.edges⟩⟩

def PositiveWeights (graph : DirectedGraph V E) (weigher : EdgeWeigher E M) : Prop :=
  ∀ e ∈ graph.getEdges, ∃ c, weigher.weight e = some c ∧ 0 < c

variable {graph : DirectedGraph V E} {weigher : EdgeWeigher E M} {src dst : V}

section

omit [DecidableEq V] [DecidableEq E]

theorem prefixFree_simple : PrefixFree fun p => IsSimplePath graph src p dst := by
  intro p q hp hq
  exact (hq.path.drop hp.path.walk).eq_nil

theorem exists_simple_list (graph : DirectedGraph V E) (src dst : V) :
    ∃ paths : List (List E), ∀ p, IsSimplePath graph src p dst → p ∈ paths := by
  refine ⟨graph.getEdges.sublists.flatMap List.permutations, fun p hp => ?_⟩
  obtain ⟨l, hperm, hl⟩ := List.subperm_of_subset hp.path.nodup hp.edges
  exact List.mem_flatMap.mpr ⟨l, List.mem_sublists.mpr hl, List.mem_permutations.mpr hperm.symm⟩

theorem exists_simple_bound (graph : DirectedGraph V E) (src dst : V) :
    ∃ bound, ∀ paths : List (List E), paths.Nodup →
      (∀ p ∈ paths, IsSimplePath graph src p dst) → paths.length ≤ bound := by
  obtain ⟨all, hall⟩ := exists_simple_list graph src dst
  refine ⟨all.length, fun paths hnodup hsimple => ?_⟩
  exact (List.subperm_of_subset hnodup fun p hp => hall p (hsimple p hp)).length_le

theorem PositiveWeights.isUsable (h : PositiveWeights graph weigher) {e : E}
    (he : e ∈ graph.getEdges) : weigher.IsUsable e := by
  obtain ⟨c, hc, hpos⟩ := h e he
  exact ⟨c, hc, hpos.le⟩

theorem PositiveWeights.hopCost_pos (h : PositiveWeights graph weigher) {e : E}
    (he : e ∈ graph.getEdges) : 0 < weigher.hopCost e := by
  obtain ⟨c, hc, hpos⟩ := h e he
  rw [EdgeWeigher.hopCost, hc]
  exact hpos

end

omit [DecidableEq V] in
theorem PositiveWeights.masked (h : PositiveWeights graph weigher) (excluded : List E) (e : E)
    (he : (network graph (innerEdgeWeigher excluded weigher)).usable e) :
    0 < (innerEdgeWeigher excluded weigher).hopCost e := by
  rw [hopCost_innerEdgeWeigher (innerEdgeWeigher_isUsable.mp he.2).1]
  exact h.hopCost_pos he.1

end Simple

section Spurs

variable {graph : DirectedGraph V E} {weigher : EdgeWeigher E M} {src dst : V}
  {resultPaths : List (Path E M)} {root : List E}

omit [DecidableEq V] [DecidableEq E] [AddCommGroup M] [LinearOrder M] in
theorem sharing_iff (hsimple : ∀ P ∈ resultPaths, IsSimplePath graph src P.edges dst)
    (hroot : IsRoot (resultPaths.map Path.edges) root) {P : Path E M} (hP : P ∈ resultPaths) :
    (root.length ≤ P.edges.length ∧ root = P.edges.take root.length) ↔
      ∃ e a, P.edges = root ++ e :: a := by
  constructor
  · rintro ⟨-, htake⟩
    have hsplit : P.edges = root ++ P.edges.drop root.length := by
      conv_lhs => rw [← List.take_append_drop root.length P.edges, ← htake]
    cases hdrop : P.edges.drop root.length with
    | nil =>
      rw [hdrop, List.append_nil] at hsplit
      obtain ⟨e, a, ha⟩ := hroot
      obtain ⟨Q, hQ, heq⟩ := List.mem_map.mp ha
      have hfree : PrefixFree fun p => IsSimplePath graph src p dst := prefixFree_simple
      have hbegins := hfree root (e :: a)
        (hsplit ▸ hsimple P hP) (heq ▸ hsimple Q hQ)
      exact absurd hbegins (List.cons_ne_nil e a)
    | cons e a => exact ⟨e, a, by rw [hsplit, hdrop]⟩
  · rintro ⟨e, a, heq⟩
    rw [heq]
    exact ⟨by simp, by simp⟩

omit [DecidableEq V] [AddCommGroup M] [LinearOrder M] in
theorem excludedEdges_spec (hsimple : ∀ P ∈ resultPaths, IsSimplePath graph src P.edges dst)
    (hroot : IsRoot (resultPaths.map Path.edges) root) :
    ∃ excluded, excludedEdges graph resultPaths root = .ok excluded ∧
      ∀ e, e ∈ excluded ↔ (∃ a, root ++ e :: a ∈ resultPaths.map Path.edges) ∨
        (e ∈ graph.getEdges ∧ ∃ f ∈ root, Edge.src e = Edge.src f ∨ Edge.dst e = Edge.src f) := by
  have hshare : ∀ P, P ∈ resultPaths.filter (fun path =>
      root.length ≤ path.edges.length ∧ root = path.edges.take root.length) ↔
      P ∈ resultPaths ∧ ∃ e a, P.edges = root ++ e :: a := by
    intro P
    rw [List.mem_filter, decide_eq_true_eq]
    exact and_congr_right fun hP => sharing_iff hsimple hroot hP
  have hlong : ∀ P ∈ resultPaths.filter (fun path =>
      root.length ≤ path.edges.length ∧ root = path.edges.take root.length),
      root.length < P.edges.length := by
    intro P hP
    obtain ⟨-, e, a, heq⟩ := (hshare P).mp hP
    rw [heq, List.length_append, List.length_cons]
    omega
  obtain ⟨next, hnext, hmem⟩ := mapM_edgeAt hlong
  refine ⟨_, by rw [excludedEdges, hnext]; rfl, fun e => ?_⟩
  rw [List.mem_append, hmem, List.mem_flatMap]
  refine or_congr ?_ ?_
  · constructor
    · rintro ⟨P, hP, he⟩
      obtain ⟨hP, f, a, heq⟩ := (hshare P).mp hP
      rw [heq, List.getElem?_append_right le_rfl, Nat.sub_self] at he
      obtain rfl : f = e := Option.some.inj he
      exact ⟨a, List.mem_map.mpr ⟨P, hP, heq⟩⟩
    · rintro ⟨a, ha⟩
      obtain ⟨P, hP, heq⟩ := List.mem_map.mp ha
      refine ⟨P, (hshare P).mpr ⟨hP, e, a, heq⟩, ?_⟩
      rw [heq, List.getElem?_append_right le_rfl, Nat.sub_self]
      rfl
  · constructor
    · rintro ⟨f, hf, he⟩
      rcases List.mem_append.mp he with he | he
      · obtain ⟨he, hsrc⟩ := (graph.mem_edgesFrom _ e).mp he
        exact ⟨he, f, hf, .inl hsrc⟩
      · obtain ⟨he, hdst⟩ := (graph.mem_edgesTo _ e).mp he
        exact ⟨he, f, hf, .inr hdst⟩
    · rintro ⟨he, f, hf, h | h⟩
      · exact ⟨f, hf, List.mem_append_left _ ((graph.mem_edgesFrom _ e).mpr ⟨he, h⟩)⟩
      · exact ⟨f, hf, List.mem_append_right _ ((graph.mem_edgesTo _ e).mpr ⟨he, h⟩)⟩

variable [IsOrderedAddMonoid M] {excluded : List E} {spurNode : V} {edge : E} {edges : List E}

omit [IsOrderedAddMonoid M] [DecidableEq V] in
theorem route_of_deviates (hsimple : ∀ P ∈ resultPaths, IsSimplePath graph src P.edges dst)
    (hweights : PositiveWeights graph weigher)
    (hexcluded : ∀ e, e ∈ excluded ↔ (∃ a, root ++ e :: a ∈ resultPaths.map Path.edges) ∨
      (e ∈ graph.getEdges ∧ ∃ f ∈ root, Edge.src e = Edge.src f ∨ Edge.dst e = Edge.src f))
    (hnode : IsWalk Edge.src Edge.dst src root spurNode) {q : List E}
    (hq : Deviates (fun p => IsSimplePath graph src p dst) (resultPaths.map Path.edges) root q) :
    ∃ s, q = root ++ s ∧
      IsRoute (network graph (innerEdgeWeigher excluded weigher)) spurNode s dst := by
  obtain ⟨f, s, rfl, hnone⟩ := hq.parts
  obtain ⟨x, hx, hwalk⟩ := isWalk_append.mp hq.word.path.walk
  obtain rfl : x = spurNode := hx.end_unique hnode
  have hsuffix := hq.word.path.drop hx
  refine ⟨f :: s, rfl, hwalk, fun e he => ?_⟩
  have hmem := hq.word.edges e (List.mem_append_right root he)
  refine ⟨hmem, innerEdgeWeigher_isUsable.mpr ⟨fun hex => ?_, hweights.isUsable hmem⟩⟩
  rcases (hexcluded e).mp hex with ⟨a, ha⟩ | ⟨-, g, hg, hsrc | hdst⟩
  · -- the next edge of another path leaves the spur node, and the path never comes back there
    obtain ⟨P, hP, heq⟩ := List.mem_map.mp ha
    have hother := (hsimple P hP).path.walk
    rw [heq] at hother
    obtain ⟨y, hy, hafter⟩ := isWalk_append.mp hother
    have hsrc : Edge.src e = x := hafter.1.trans (hy.end_unique hx)
    rcases List.mem_cons.mp he with rfl | he
    · exact hnone a ha
    · apply (isSimple_cons.mp hsuffix.simple).1
      rw [← hsrc]
      exact hwalk.2.src_mem he
  · exact hq.word.path.ne_src hx hg (hwalk.src_mem he) hsrc
  · exact hq.word.path.ne_src hx hg (List.mem_cons_of_mem x (List.mem_map_of_mem he)) hdst

omit [DecidableEq V] in
theorem deviates_of_shortest (hweights : PositiveWeights graph weigher)
    (hexcluded : ∀ e, e ∈ excluded ↔ (∃ a, root ++ e :: a ∈ resultPaths.map Path.edges) ∨
      (e ∈ graph.getEdges ∧ ∃ f ∈ root, Edge.src e = Edge.src f ∨ Edge.dst e = Edge.src f))
    (hroot : IsPath Edge.src Edge.dst src root spurNode) (hedges : ∀ e ∈ root, e ∈ graph.getEdges)
    (hne : spurNode ≠ dst) {s : List E}
    (hs : IsShortest (network graph (innerEdgeWeigher excluded weigher)) spurNode s dst) :
    Deviates (fun p => IsSimplePath graph src p dst) (resultPaths.map Path.edges) root
      (root ++ s) := by
  have hleft : ∀ e ∈ s, e ∈ graph.getEdges ∧ e ∉ excluded := fun e he =>
    ⟨(hs.route.usable e he).1, (innerEdgeWeigher_isUsable.mp (hs.route.usable e he).2).1⟩
  have hpath : IsPath Edge.src Edge.dst spurNode s dst := hs.isPath (hweights.masked excluded)
  refine ⟨⟨hroot.append hpath ?_, ?_⟩, ?_⟩
  · intro y hy hbefore
    obtain ⟨e, he, rfl⟩ := List.mem_map.mp hy
    rcases hroot.walk.end_or_src hbefore with hend | ⟨f, hf, hsrc⟩
    · exact (List.nodup_cons.mp hpath.simple).1 (hend ▸ hy)
    · exact (hleft e he).2 ((hexcluded e).mpr (.inr ⟨(hleft e he).1, f, hf, .inr hsrc.symm⟩))
  · intro e he
    exact (List.mem_append.mp he).elim (hedges e) fun he => (hleft e he).1
  · cases s with
    | nil => exact absurd hpath.walk hne
    | cons f s =>
      refine ⟨f, s, rfl, fun a ha => ?_⟩
      exact (hleft f List.mem_cons_self).2 ((hexcluded f).mpr (.inl ⟨a, ha⟩))

/-- From each vertex of a path but the last, the search finds a cheapest path that parts there
from those found, if there is one. -/
theorem spurPath_spec (hsimple : ∀ P ∈ resultPaths, IsSimplePath graph src P.edges dst)
    (hweights : PositiveWeights graph weigher)
    (hlast : root ++ edge :: edges ∈ resultPaths.map Path.edges) :
    ∃ found, spurPath graph dst weigher resultPaths root (Edge.src edge) = .ok found ∧
      (∀ x, found = some x → x.cost = weigher.totalCost x.edges ∧
        Deviates (fun p => IsSimplePath graph src p dst) (resultPaths.map Path.edges) root
          x.edges) ∧
      ∀ q, Deviates (fun p => IsSimplePath graph src p dst) (resultPaths.map Path.edges) root q →
        ∃ x, found = some x ∧ weigher.totalCost x.edges ≤ weigher.totalCost q := by
  obtain ⟨P, hP, heq⟩ := List.mem_map.mp hlast
  have hpath := hsimple P hP
  rw [heq] at hpath
  obtain ⟨excluded, hok, hexcluded⟩ := excludedEdges_spec hsimple ⟨edge, edges, hlast⟩
  obtain ⟨x, hx, hafter⟩ := isWalk_append.mp hpath.path.walk
  obtain rfl : Edge.src edge = x := hafter.1
  have hsuffix := hpath.path.drop hx
  have hne : Edge.src edge ≠ dst := by
    intro heq
    rw [heq] at hsuffix
    exact absurd hsuffix.eq_nil (List.cons_ne_nil edge edges)
  have hmem : ∀ e ∈ root ++ edge :: edges, e ∈ graph.getEdges := hpath.edges
  have hnode : Edge.src edge ∈ graph.getVertexes := graph.src_mem edge (hmem edge (by simp))
  have hdst : dst ∈ graph.getVertexes := by
    rcases List.mem_cons.mp hafter.2.end_mem with hd | hd
    · exact hd ▸ graph.dst_mem edge (hmem edge (by simp))
    · obtain ⟨e, he, rfl⟩ := List.mem_map.mp hd
      exact graph.dst_mem e (hmem e (by simp [he]))
  have hroot : IsPath Edge.src Edge.dst src root (Edge.src edge) := hpath.path.take hx
  have hfind := DijkstraGraphSearch.internalSearch_findsShortest
    (innerEdgeWeigher excluded weigher) (.inr le_rfl) hnode hne
  refine ⟨_, by rw [spurPath, hok, Except.bind, DijkstraGraphSearch.search_eq hnode hdst]; rfl,
    fun y hy => ?_, fun q hq => ?_⟩
  · obtain ⟨S, hS, rfl⟩ := Option.map_eq_some_iff.mp hy
    refine ⟨calculatePathCost_eq weigher _, ?_⟩
    exact deviates_of_shortest hweights hexcluded hroot
      (fun e he => hmem e (List.mem_append_left _ he)) hne
      (hfind.sound S (List.mem_of_mem_head? hS)).1
  · obtain ⟨s, rfl, hroute⟩ := route_of_deviates hsimple hweights hexcluded hx hq
    cases hpaths : (DijkstraGraphSearch.internalSearch graph (Edge.src edge) (some dst)
        (innerEdgeWeigher excluded weigher) 1).paths with
    | nil => exact absurd hpaths (hfind.found ⟨s, hroute⟩)
    | cons S paths =>
      refine ⟨⟨root ++ S.edges, calculatePathCost weigher (root ++ S.edges)⟩, ?_, ?_⟩
      · dsimp only
        rw [hpaths]
        rfl
      have hshort := (hfind.sound S (hpaths ▸ List.mem_cons_self)).1
      have hleft : ∀ {p}, IsRoute (network graph (innerEdgeWeigher excluded weigher))
          (Edge.src edge) p dst → ∀ e ∈ p, e ∉ excluded := fun hp e he =>
        (innerEdgeWeigher_isUsable.mp (hp.usable e he).2).1
      have hle := hshort.least s hroute
      change cost (innerEdgeWeigher excluded weigher).hopCost S.edges ≤
        cost (innerEdgeWeigher excluded weigher).hopCost s at hle
      rw [cost_innerEdgeWeigher (hleft hshort.route), cost_innerEdgeWeigher (hleft hroute)] at hle
      unfold EdgeWeigher.totalCost
      rw [cost_append, cost_append]
      exact add_le_add_right (add_le_add_right hle _) _

structure SpursOf (graph : DirectedGraph V E) (weigher : EdgeWeigher E M) (src dst : V)
    (taken : List (List E)) (root edges : List E) (spurs : List (Path E M)) : Prop where
  costs : ∀ x ∈ spurs, x.cost = weigher.totalCost x.edges
  part : ∀ x ∈ spurs, ∃ r e a, edges = r ++ e :: a ∧
    Deviates (fun p => IsSimplePath graph src p dst) taken (root ++ r) x.edges
  least : ∀ r e a q, edges = r ++ e :: a →
    Deviates (fun p => IsSimplePath graph src p dst) taken (root ++ r) q →
    ∃ x ∈ spurs, Deviates (fun p => IsSimplePath graph src p dst) taken (root ++ r) x.edges ∧
      weigher.totalCost x.edges ≤ weigher.totalCost q
  nodup : (spurs.map Path.edges).Nodup

theorem spurPaths_spec (hsimple : ∀ P ∈ resultPaths, IsSimplePath graph src P.edges dst)
    (hweights : PositiveWeights graph weigher)
    (hlast : root ++ edges ∈ resultPaths.map Path.edges) :
    ∃ spurs, spurPaths graph dst weigher resultPaths root edges = .ok spurs ∧
      SpursOf graph weigher src dst (resultPaths.map Path.edges) root edges spurs := by
  induction edges generalizing root with
  | nil =>
    refine ⟨[], rfl, by simp, by simp, fun r e a _ h => ?_, List.nodup_nil⟩
    exact absurd h.symm (by simp)
  | cons edge edges ih =>
    obtain ⟨found, hok, hfound, hleast⟩ := spurPath_spec hsimple hweights hlast
    have hnext : root ++ [edge] ++ edges ∈ resultPaths.map Path.edges := by
      rwa [← List.append_cons]
    obtain ⟨more, hmore, hspurs⟩ := ih hnext
    refine ⟨found.toList ++ more, ?_, fun x hx => ?_, fun x hx => ?_, fun r e a q heq hq => ?_, ?_⟩
    · rw [spurPaths, hok, Except.bind, hmore]
      rfl
    · rcases List.mem_append.mp hx with hx | hx
      · exact (hfound x (Option.mem_toList.mp hx)).1
      · exact hspurs.costs x hx
    · rcases List.mem_append.mp hx with hx | hx
      · refine ⟨[], edge, edges, rfl, ?_⟩
        rw [List.append_nil]
        exact (hfound x (Option.mem_toList.mp hx)).2
      · obtain ⟨r, e, a, rfl, hdev⟩ := hspurs.part x hx
        exact ⟨edge :: r, e, a, rfl, by rwa [List.append_cons]⟩
    · cases r with
      | nil =>
        rw [List.append_nil] at hq ⊢
        obtain ⟨x, rfl, hle⟩ := hleast q hq
        exact ⟨x, by simp, (hfound x rfl).2, hle⟩
      | cons f r =>
        obtain ⟨rfl, rfl⟩ := List.cons.inj heq
        rw [List.append_cons] at hq ⊢
        obtain ⟨x, hx, hdev⟩ := hspurs.least r e a q rfl hq
        exact ⟨x, List.mem_append_right _ hx, hdev⟩
    · rw [List.map_append, List.nodup_append]
      refine ⟨?_, hspurs.nodup, ?_⟩
      · cases found with
        | none => exact List.nodup_nil
        | some x => exact List.nodup_singleton _
      · rintro p hp q hq rfl
        obtain ⟨x, hx, rfl⟩ := List.mem_map.mp hp
        obtain ⟨y, hy, hxy⟩ := List.mem_map.mp hq
        obtain ⟨r, e, a, rfl, hdev⟩ := hspurs.part y hy
        have hfirst := (hfound x (Option.mem_toList.mp hx)).2
        rw [hxy] at hdev
        have hlen := hfirst.root_length_le hdev ⟨e, a, by simpa using hlast⟩
        rw [List.length_append, List.length_append, List.length_singleton] at hlen
        omega

end Spurs

section Ranking

variable (graph : DirectedGraph V E) (src dst : V) (weigher : EdgeWeigher E M)

/-- The paths taken so far, and those that wait to be taken: the former are in order, and are as
cheap as all others. -/
structure Ranked (taken waiting : List (Path E M)) : Prop where
  simple : ∀ P ∈ taken ++ waiting, IsSimplePath graph src P.edges dst ∧
    P.cost = weigher.totalCost P.edges
  sorted : taken.Pairwise fun P Q => P.cost ≤ Q.cost
  bound : ∀ P ∈ taken, ∀ Q ∈ waiting, P.cost ≤ Q.cost
  outside : ∀ P ∈ taken, ∀ q, IsSimplePath graph src q dst → q ∉ taken.map Path.edges →
    P.cost ≤ weigher.totalCost q

variable {graph src dst weigher} {taken waiting : List (Path E M)}

section

omit [DecidableEq V] [DecidableEq E]

theorem Ranked.perm {waiting' : List (Path E M)} (h : Ranked graph src dst weigher taken waiting)
    (hperm : waiting.Perm waiting') : Ranked graph src dst weigher taken waiting' where
  simple P hP := h.simple P ((hperm.append_left taken).mem_iff.mpr hP)
  sorted := h.sorted
  bound P hP Q hQ := h.bound P hP Q (hperm.mem_iff.mpr hQ)
  outside := h.outside

theorem Ranked.add {found : List (Path E M)} (h : Ranked graph src dst weigher taken waiting)
    (hcosts : ∀ x ∈ found, x.cost = weigher.totalCost x.edges)
    (hnew : ∀ x ∈ found, IsSimplePath graph src x.edges dst ∧ x.edges ∉ taken.map Path.edges) :
    Ranked graph src dst weigher taken (waiting ++ found) where
  simple P hP := by
    rw [← List.append_assoc] at hP
    rcases List.mem_append.mp hP with hP | hP
    · exact h.simple P hP
    · exact ⟨(hnew P hP).1, hcosts P hP⟩
  sorted := h.sorted
  bound P hP Q hQ := by
    rcases List.mem_append.mp hQ with hQ | hQ
    · exact h.bound P hP Q hQ
    · rw [hcosts Q hQ]
      exact h.outside P hP _ (hnew Q hQ).1 (hnew Q hQ).2
  outside := h.outside

theorem Ranked.take {path : Path E M} (h : Ranked graph src dst weigher taken (path :: waiting))
    (hleast : ∀ Q ∈ waiting, path.cost ≤ Q.cost)
    (houtside : ∀ q, IsSimplePath graph src q dst → q ∉ taken.map Path.edges →
      path.cost ≤ weigher.totalCost q) :
    Ranked graph src dst weigher (taken ++ [path]) waiting where
  simple P hP := h.simple P (by rwa [List.append_assoc] at hP)
  sorted := by
    refine List.pairwise_append.mpr ⟨h.sorted, List.pairwise_singleton _ _, fun P hP Q hQ => ?_⟩
    rw [List.mem_singleton.mp hQ]
    exact h.bound P hP path List.mem_cons_self
  bound P hP Q hQ := by
    rcases List.mem_append.mp hP with hP | hP
    · exact h.bound P hP Q (List.mem_cons_of_mem path hQ)
    · rw [List.mem_singleton.mp hP]
      exact hleast Q hQ
  outside P hP q hq hnot := by
    have hnot' : q ∉ taken.map Path.edges := fun hmem =>
      hnot (by rw [List.map_append]; exact List.mem_append_left _ hmem)
    rcases List.mem_append.mp hP with hP | hP
    · exact h.outside P hP q hq hnot'
    · rw [List.mem_singleton.mp hP]
      exact houtside q hq hnot'

theorem Ranked.words (h : Ranked graph src dst weigher taken waiting) :
    ∀ a ∈ taken.map Path.edges, IsSimplePath graph src a dst := by
  intro a ha
  obtain ⟨P, hP, rfl⟩ := List.mem_map.mp ha
  exact (h.simple P (List.mem_append_left _ hP)).1

theorem Ranked.least (h : Ranked graph src dst weigher taken waiting)
    (hcovered : Covered (fun p => IsSimplePath graph src p dst) weigher.totalCost
      (taken.map Path.edges) (waiting.map Path.edges)) (hne : taken ≠ []) {path : Path E M}
    (hpath : path ∈ waiting) (hleast : ∀ Q ∈ waiting, path.cost ≤ Q.cost) {q : List E}
    (hq : IsSimplePath graph src q dst) (hnot : q ∉ taken.map Path.edges) :
    path.cost ≤ weigher.totalCost q := by
  have hcost : ∀ Q ∈ waiting, Q.cost = weigher.totalCost Q.edges := fun Q hQ =>
    (h.simple Q (List.mem_append_right _ hQ)).2
  rw [hcost path hpath]
  refine hcovered.least prefixFree_simple h.words (by simpa using hne) (fun x hx => ?_) hq hnot
  obtain ⟨Q, hQ, rfl⟩ := List.mem_map.mp hx
  rw [← hcost path hpath, ← hcost Q hQ]
  exact hleast Q hQ

theorem Ranked.complete (h : Ranked graph src dst weigher taken [])
    (hcovered : Covered (fun p => IsSimplePath graph src p dst) weigher.totalCost
      (taken.map Path.edges) []) (hne : taken ≠ []) {q : List E}
    (hq : IsSimplePath graph src q dst) : q ∈ taken.map Path.edges :=
  hcovered.complete prefixFree_simple h.words (by simpa using hne) hq

end

theorem Ranked.spurPaths [IsOrderedAddMonoid M] (hweights : PositiveWeights graph weigher)
    (h : Ranked graph src dst weigher taken waiting) {lastPath : Path E M}
    (hlast : lastPath ∈ taken)
    (hcovered : CoveredBut (fun p => IsSimplePath graph src p dst) weigher.totalCost
      (taken.map Path.edges) (waiting.map Path.edges) lastPath.edges) :
    ∃ found, spurPaths graph dst weigher taken [] lastPath.edges = .ok found ∧
      SpursOf graph weigher src dst (taken.map Path.edges) [] lastPath.edges found ∧
      Ranked graph src dst weigher taken (waiting ++ found) ∧
      Covered (fun p => IsSimplePath graph src p dst) weigher.totalCost (taken.map Path.edges)
        ((waiting ++ found).map Path.edges) := by
  have hmem : [] ++ lastPath.edges ∈ taken.map Path.edges := List.mem_map_of_mem hlast
  have hsimple : ∀ P ∈ taken, IsSimplePath graph src P.edges dst := fun P hP =>
    (h.simple P (List.mem_append_left _ hP)).1
  obtain ⟨found, hok, hspurs⟩ := spurPaths_spec hsimple hweights hmem
  refine ⟨found, hok, hspurs, h.add hspurs.costs fun x hx => ?_, ?_⟩
  · obtain ⟨r, e, a, -, hdev⟩ := hspurs.part x hx
    exact ⟨hdev.word, hdev.not_mem⟩
  · rw [List.map_append]
    refine hcovered.add fun r q hr hq => ?_
    obtain ⟨e, a, ha⟩ := hr
    obtain ⟨x, hx, hdev, hle⟩ := hspurs.least r e a q (List.mem_singleton.mp ha).symm hq
    exact ⟨x.edges, List.mem_map_of_mem hx, hdev, hle⟩

theorem first_spec [IsOrderedAddMonoid M] (hweights : PositiveWeights graph weigher)
    (hsrc : src ∈ graph.getVertexes) (hne : src ≠ dst) :
    match (DijkstraGraphSearch.internalSearch graph src (some dst) weigher 1).paths.head? with
    | none => ∀ q, ¬ IsSimplePath graph src q dst
    | some path => Ranked graph src dst weigher [] [path] ∧
      ∀ q, IsSimplePath graph src q dst → path.cost ≤ weigher.totalCost q := by
  have hfind := DijkstraGraphSearch.internalSearch_findsShortest weigher
    (.inr le_rfl) hsrc hne
  have hroute : ∀ q, IsSimplePath graph src q dst → IsRoute (network graph weigher) src q dst :=
    fun q hq => ⟨hq.path.walk, fun e he => ⟨hq.edges e he, hweights.isUsable (hq.edges e he)⟩⟩
  cases hpaths : (DijkstraGraphSearch.internalSearch graph src (some dst) weigher 1).paths with
  | nil => exact fun q hq => absurd hpaths (hfind.found ⟨q, hroute q hq⟩)
  | cons P paths =>
    obtain ⟨hshort, hcost, -⟩ := hfind.sound P (hpaths ▸ List.mem_cons_self)
    have hpos : ∀ e, (network graph weigher).usable e → 0 < weigher.hopCost e := fun e he =>
      hweights.hopCost_pos he.1
    have hpath : IsSimplePath graph src P.edges dst :=
      ⟨hshort.isPath hpos, fun e he => (hshort.route.usable e he).1⟩
    refine ⟨⟨fun Q hQ => ?_, List.Pairwise.nil, by simp, by simp⟩, fun q hq => ?_⟩
    · rw [List.mem_singleton.mp hQ]
      exact ⟨hpath, hcost⟩
    · rw [hcost]
      exact add_le_add_right (hshort.least q (hroute q hq)) _

end Ranking

/-- Two ways from 0 to 3, over 1 and over 2, with two edges each at their end. -/
def twoByTwo : DirectedGraph ℕ TestEdge := adjacencyListsGraph [0, 1, 2, 3]
  [⟨0, 1, 1⟩, ⟨1, 3, 1⟩, ⟨1, 3, 2⟩, ⟨0, 2, 5⟩, ⟨2, 3, 5⟩, ⟨2, 3, 15⟩]

theorem positiveWeights_test {graph : DirectedGraph ℕ TestEdge}
    (h : ∀ e ∈ graph.getEdges, 0 < e.weight) : PositiveWeights graph testWeigher :=
  fun e he => ⟨e.weight, rfl, h e he⟩

end SpurPaths

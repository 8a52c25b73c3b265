import Onos.DijkstraWithFailures
import Onos.Lib.FailingMap
import Mathlib.Data.List.ReduceOption

/-! Suurballe's search for a shortest path with a backup. The reverse of an edge is told apart from
the edges of the graph by its class. Hash sets are iterated over in an order that is left open; an
exception of the source is an error with its name. -/
namespace SuurballeGraphSearch

open DirectedWalk ShortestPaths GraphPathSearch
open DijkstraWithFailures (FailingWeigher)

universe u v

structure ReverseEdge (V : Type u) where
  src : V
  dst : V
  deriving DecidableEq

abbrev ResidualEdge (V : Type u) (E : Type v) := E ⊕ ReverseEdge V

structure SetOrder (α : Type*) where
  order : List α → List α
  perm : ∀ l, (order l).Perm l

def insertionOrder (α : Type*) : SetOrder α := ⟨id, fun _ => List.Perm.refl _⟩

structure HashOrders (V : Type u) (E : Type v) (M : Type*) where
  vertexes : SetOrder V
  edges : SetOrder E
  residualEdges : SetOrder (ResidualEdge V E)
  paths : SetOrder (Path E M)
  residualPaths : SetOrder (Path (ResidualEdge V E) M)

def insertionOrders (V : Type u) (E : Type v) (M : Type*) : HashOrders V E M :=
  ⟨insertionOrder _, insertionOrder _, insertionOrder _, insertionOrder _, insertionOrder _⟩

structure DisjointPathPair (E M : Type*) where
  primary : Path E M
  secondary : Option (Path E M)
  deriving DecidableEq

def DisjointPathPair.size {E M : Type*} (pair : DisjointPathPair E M) : ℕ :=
  if pair.secondary.isSome then 2 else 1

variable {V : Type u} {E : Type v} {M : Type*} [DecidableEq V] [DecidableEq E] [Edge V E]

instance : Edge V (ResidualEdge V E) where
  src := Sum.elim Edge.src ReverseEdge.src
  dst := Sum.elim Edge.dst ReverseEdge.dst

def reverseEdge (edge : E) : ReverseEdge V := ⟨Edge.dst edge, Edge.src edge⟩

def mutableGraph (vertexOrder : SetOrder V) (edgeOrder : SetOrder E) (vertexes : List V)
    (edges : List E) : DirectedGraph V E where
  getVertexes :=
    vertexOrder.order (vertexes ++ edges.flatMap fun e => [Edge.src e, Edge.dst e]).dedup
  getEdges := edgeOrder.order edges.dedup
  getEdgesFrom v := edgeOrder.order (edges.dedup.filter fun e => Edge.src e = v)
  getEdgesTo v := edgeOrder.order (edges.dedup.filter fun e => Edge.dst e = v)
  nodup_vertexes := (vertexOrder.perm _).nodup_iff.mpr (List.nodup_dedup _)
  nodup_edges := (edgeOrder.perm _).nodup_iff.mpr (List.nodup_dedup _)
  src_mem e he := by
    rw [(edgeOrder.perm _).mem_iff, List.mem_dedup] at he
    rw [(vertexOrder.perm _).mem_iff, List.mem_dedup]
    exact List.mem_append_right _ (List.mem_flatMap.mpr ⟨e, he, by simp⟩)
  dst_mem e he := by
    rw [(edgeOrder.perm _).mem_iff, List.mem_dedup] at he
    rw [(vertexOrder.perm _).mem_iff, List.mem_dedup]
    exact List.mem_append_right _ (List.mem_flatMap.mpr ⟨e, he, by simp⟩)
  mem_edgesFrom v e := by
    rw [(edgeOrder.perm _).mem_iff, (edgeOrder.perm _).mem_iff, List.mem_filter, decide_eq_true_eq]
  mem_edgesTo v e := by
    rw [(edgeOrder.perm _).mem_iff, (edgeOrder.perm _).mem_iff, List.mem_filter, decide_eq_true_eq]

/-- The edge that has been reversed; of two edges with the same ends, the later one. -/
def revToEdge (shortPath : List E) (reverse : ReverseEdge V) : Option E :=
  (shortPath.filter fun e => reverseEdge e = reverse).getLast?

def addToRoundTrip (shortPath : List E) (edges : List E) : ResidualEdge V E → List E
  | .inr reverse => match revToEdge shortPath reverse with
    | some edge => edges.erase edge
    | none => edges
  | .inl edge => edges.insert edge

def roundTripEdges (shortPath : List E) (residualShortPath : List (ResidualEdge V E)) : List E :=
  residualShortPath.foldl (addToRoundTrip shortPath) shortPath.dedup

def vertices (p : Path E M) : List V :=
  (p.edges.map Edge.src).filter fun v => some v ≠ p.edges.head?.map Edge.src

def isDisjoint (a b : Path E M) : Bool := (vertices a).all fun v => v ∉ vertices b

variable [AddCommGroup M] [LinearOrder M]

variable (orders : HashOrders V E M) (graph : DirectedGraph V E) (src dst : V)
  (weigher : EdgeWeigher E M)

def firstDijkstraS : DefaultResult V E M :=
  DijkstraGraphSearch.internalSearch graph src (some dst) weigher ALL_PATHS

def firstDijkstra : DefaultResult V E M :=
  DijkstraGraphSearch.internalSearch graph src none weigher ALL_PATHS

/-- The weigher of the second search. The weight of a negative edge stands for the -1 of the
source; either is skipped. -/
def modified : FailingWeigher (ResidualEdge V E) M where
  weight
    | .inr _ => .ok (some weigher.getInitialWeight)
    | .inl edge =>
      if (weigher.weight edge).any fun weight => weight < 0 then .ok (weigher.weight edge)
      else match (firstDijkstra graph src weigher).cost (Edge.src edge),
          (firstDijkstra graph src weigher).cost (Edge.dst edge) with
        | some srcCost, some dstCost =>
          .ok ((weigher.weight edge).map fun weight => weight + srcCost - dstCost)
        | _, _ => .error "NullPointerException"
  getInitialWeight := weigher.getInitialWeight

def residualGraph (shortPath : List E) : DirectedGraph V (ResidualEdge V E) :=
  let kept := graph.getEdges.filter fun e => e ∉ graph.getEdgesTo src ∧ e ∉ shortPath
  mutableGraph orders.vertexes orders.residualEdges graph.getVertexes
    (kept.map Sum.inl ++ shortPath.map fun e => Sum.inr (reverseEdge e))

def secondDijkstra (shortPath : List E) :
    Except String (DefaultResult V (ResidualEdge V E) M) :=
  DijkstraWithFailures.search (residualGraph orders graph src shortPath) src (some dst)
    (modified graph src weigher) ALL_PATHS

def roundTrip (edges : List E) : DirectedGraph V E :=
  mutableGraph orders.vertexes orders.edges graph.getVertexes edges

def primaryPath (edges : List E) : Except String (Path E M) :=
  match orders.paths.order (DijkstraGraphSearch.internalSearch (roundTrip orders graph edges) src
    (some dst) weigher ALL_PATHS).paths with
  | [] => .error "NoSuchElementException"
  | primary :: _ => .ok primary

def backups (edges : List E) (primary : Path E M) : List (Path E M) :=
  let left := edges.filter fun e => e ∉ primary.edges
  orders.paths.order (DijkstraGraphSearch.internalSearch (roundTrip orders graph left) src
    (some dst) weigher ALL_PATHS).paths

def disjointPair (shortPath : List E) (residualShortPath : List (ResidualEdge V E)) :
    Except String (Option (DisjointPathPair E M)) :=
  let edges := roundTripEdges shortPath residualShortPath
  (primaryPath orders graph src dst weigher edges).map fun primary =>
    ((backups orders graph src dst weigher edges primary).find? (isDisjoint primary)).map
      fun backup => ⟨primary, some backup⟩

def pairsOf (shortPath : Path E M) : Except String (List (DisjointPathPair E M)) :=
  (secondDijkstra orders graph src dst weigher shortPath.edges).bind fun second =>
    if second.paths.isEmpty then .ok [⟨shortPath, none⟩]
    else ((orders.residualPaths.order second.paths).mapM fun p2 =>
      disjointPair orders graph src dst weigher shortPath.edges p2.edges).map List.reduceOption

def allPairs : Except String (List (DisjointPathPair E M)) :=
  ((orders.paths.order (firstDijkstraS graph src dst weigher).paths).mapM
    (pairsOf orders graph src dst weigher)).map List.flatten

def prune : List (DisjointPathPair E M) → List (DisjointPathPair E M)
  | [] => []
  | first :: dpps => first :: dpps.filter fun pair => 1 < pair.size

def samePair (a b : DisjointPathPair E M) : Bool :=
  (a.primary = b.primary ∧ a.secondary = b.secondary) ∨
    (some a.primary = b.secondary ∧ a.secondary = some b.primary)

def buildPaths (maxPaths : ℤ) :
    ℕ → List (DisjointPathPair E M) → List (DisjointPathPair E M) → List (DisjointPathPair E M)
  | _, disjointPaths, [] => disjointPaths
  | paths, disjointPaths, path :: dpps =>
    let disjointPaths := if disjointPaths.any (samePair path) then disjointPaths
      else disjointPaths ++ [path]
    if (paths + 1 : ℤ) = maxPaths then disjointPaths
    else buildPaths maxPaths (paths + 1) disjointPaths dpps

/-- The paths of the result; there are none if the destination cannot be reached. -/
def internalSearch (maxPaths : ℤ) : Except String (List (DisjointPathPair E M)) :=
  if (firstDijkstraS graph src dst weigher).paths.isEmpty then .ok []
  else (allPairs orders graph src dst weigher).map fun dpps => buildPaths maxPaths 0 [] (prune dpps)

def search (maxPaths : ℤ) : Except String (List (DisjointPathPair E M)) :=
  (checkArguments graph src (some dst)).bind fun _ =>
    internalSearch orders graph src dst weigher maxPaths

section Graphs

variable {vertexOrder : SetOrder V} {edgeOrder : SetOrder E} {vertexes : List V} {edges : List E}

omit [AddCommGroup M] [LinearOrder M] in
@[simp] theorem mem_edges_mutableGraph {e : E} :
    e ∈ (mutableGraph vertexOrder edgeOrder vertexes edges).getEdges ↔ e ∈ edges := by
  change e ∈ edgeOrder.order edges.dedup ↔ e ∈ edges
  rw [(edgeOrder.perm _).mem_iff, List.mem_dedup]

theorem mem_vertexes_mutableGraph {v : V} (hv : v ∈ vertexes) :
    v ∈ (mutableGraph vertexOrder edgeOrder vertexes edges).getVertexes := by
  change v ∈ vertexOrder.order _
  rw [(vertexOrder.perm _).mem_iff, List.mem_dedup]
  exact List.mem_append_left _ hv

end Graphs

section RoundTrip

variable {shortPath cur : List E} {residualShortPath : List (ResidualEdge V E)}
  {reverse : ReverseEdge V}

section

omit [DecidableEq E]

theorem mem_of_revToEdge {e : E} (h : revToEdge shortPath reverse = some e) :
    e ∈ shortPath ∧ reverseEdge e = reverse := by
  have hmem := List.mem_filter.mp (List.mem_of_getLast? h)
  exact ⟨hmem.1, of_decide_eq_true hmem.2⟩

theorem exists_revToEdge (h : ∃ e ∈ shortPath, reverseEdge e = reverse) :
    ∃ e, revToEdge shortPath reverse = some e := by
  obtain ⟨e, he, hreverse⟩ := h
  have hmem : e ∈ shortPath.filter fun e => reverseEdge e = reverse :=
    List.mem_filter.mpr ⟨he, decide_eq_true hreverse⟩
  exact ⟨_, List.getLast?_eq_some_getLast (List.ne_nil_of_mem hmem)⟩

end

/-- The edges of the second path that are still to come: the new ones are not there yet, and what
the reversed ones take away is. -/
structure ToCome (shortPath cur : List E) (rest : List (ResidualEdge V E)) : Prop where
  nodup : rest.Nodup
  nodup_cur : cur.Nodup
  new : ∀ e, Sum.inl e ∈ rest → e ∉ cur
  back : ∀ r, Sum.inr r ∈ rest → ∃ e ∈ cur, revToEdge shortPath r = some e

theorem ToCome.insert {e : E} {rest : List (ResidualEdge V E)}
    (h : ToCome shortPath cur (Sum.inl e :: rest)) :
    addToRoundTrip shortPath cur (Sum.inl e : ResidualEdge V E) = e :: cur ∧
      ToCome shortPath (e :: cur) rest := by
  obtain ⟨hx, hrest⟩ := List.nodup_cons.mp h.nodup
  have he := h.new e List.mem_cons_self
  refine ⟨List.insert_of_not_mem he, hrest, List.nodup_cons.mpr ⟨he, h.nodup_cur⟩, ?_, ?_⟩
  · intro g hg hmem
    rcases List.mem_cons.mp hmem with rfl | hmem
    · exact hx hg
    · exact h.new g (List.mem_cons_of_mem _ hg) hmem
  · intro r hr
    obtain ⟨g, hg, hrev⟩ := h.back r (List.mem_cons_of_mem _ hr)
    exact ⟨g, List.mem_cons_of_mem e hg, hrev⟩

theorem ToCome.erase {rest : List (ResidualEdge V E)}
    (h : ToCome shortPath cur (Sum.inr reverse :: rest)) :
    ∃ e ∈ cur, reverseEdge e = reverse ∧
      addToRoundTrip shortPath cur (Sum.inr reverse) = cur.erase e ∧
      ToCome shortPath (cur.erase e) rest := by
  obtain ⟨hx, hrest⟩ := List.nodup_cons.mp h.nodup
  obtain ⟨e, he, hrev⟩ := h.back reverse List.mem_cons_self
  have hreverse := (mem_of_revToEdge hrev).2
  refine ⟨e, he, hreverse, by simp only [addToRoundTrip, hrev], hrest, h.nodup_cur.erase e, ?_, ?_⟩
  · intro g hg hmem
    exact h.new g (List.mem_cons_of_mem _ hg) (List.mem_of_mem_erase hmem)
  · intro r hr
    obtain ⟨g, hg, hrev'⟩ := h.back r (List.mem_cons_of_mem _ hr)
    refine ⟨g, (List.mem_erase_of_ne ?_).mpr hg, hrev'⟩
    rintro rfl
    rw [← (mem_of_revToEdge hrev').2, hreverse] at hr
    exact hx hr

/-- Each edge of the second path changes what the edges lose of a potential by what it loses
itself: a reversed edge loses what the edge that is taken away has gained. -/
theorem foldl_addToRoundTrip (h : ToCome shortPath cur residualShortPath) :
    (∀ e ∈ residualShortPath.foldl (addToRoundTrip shortPath) cur,
      e ∈ cur ∨ Sum.inl e ∈ residualShortPath) ∧
    ∀ f : V → ℤ, ((residualShortPath.foldl (addToRoundTrip shortPath) cur).map
        fun e => f (Edge.src e) - f (Edge.dst e)).sum =
      (cur.map fun e => f (Edge.src e) - f (Edge.dst e)).sum +
        (residualShortPath.map fun e => f (Edge.src e) - f (Edge.dst e)).sum := by
  induction residualShortPath generalizing cur with
  | nil => exact ⟨fun e he => .inl he, fun f => by simp⟩
  | cons x rest ih =>
    rw [List.foldl_cons]
    cases x with
    | inl e =>
      obtain ⟨hinsert, hrest⟩ := h.insert
      obtain ⟨hmem, hsum⟩ := ih hrest
      rw [hinsert]
      constructor
      · intro g hg
        rcases hmem g hg with hg | hg
        · rcases List.mem_cons.mp hg with rfl | hg
          · exact .inr List.mem_cons_self
          · exact .inl hg
        · exact .inr (List.mem_cons_of_mem _ hg)
      · intro f
        rw [hsum f]
        simp only [List.map_cons, List.sum_cons]
        change f (Edge.src e) - f (Edge.dst e) + _ + _ = _ + (f (Edge.src e) - f (Edge.dst e) + _)
        omega
    | inr r =>
      obtain ⟨e, he, rfl, herase, hrest⟩ := h.erase
      obtain ⟨hmem, hsum⟩ := ih hrest
      rw [herase]
      constructor
      · intro g hg
        rcases hmem g hg with hg | hg
        · exact .inl (List.mem_of_mem_erase hg)
        · exact .inr (List.mem_cons_of_mem _ hg)
      · intro f
        have hloss := List.sum_map_erase (fun e => f (Edge.src e) - f (Edge.dst e)) he
        rw [hsum f, ← hloss]
        simp only [List.map_cons, List.sum_cons]
        change _ = f (Edge.src e) - f (Edge.dst e) + _ + (f (Edge.dst e) - f (Edge.src e) + _)
        omega

end RoundTrip

section Residual

variable {orders : HashOrders V E M} {graph : DirectedGraph V E} {src dst : V}
  {weigher : EdgeWeigher E M} {shortPath : List E} {e : E}

def NonNegative (graph : DirectedGraph V E) (weigher : EdgeWeigher E M) : Prop :=
  ∀ e ∈ graph.getEdges, ∀ weight, weigher.weight e = some weight → 0 ≤ weight

def Reachable (graph : DirectedGraph V E) (weigher : EdgeWeigher E M) (src v : V) : Prop :=
  ∃ p, IsRoute (network graph weigher) src p v

section

omit [DecidableEq V] [DecidableEq E]

theorem NonNegative.isUsable (h : NonNegative graph weigher) (he : e ∈ graph.getEdges) :
    weigher.IsUsable e ↔ weigher.weight e ≠ none := by
  constructor
  · rintro ⟨weight, hweight, -⟩ hnone
    rw [hweight] at hnone
    cases hnone
  · intro hne
    obtain ⟨weight, hweight⟩ := Option.ne_none_iff_exists'.mp hne
    exact ⟨weight, hweight, h e he weight hweight⟩

theorem Reachable.next (h : Reachable graph weigher src (Edge.src e)) (he : e ∈ graph.getEdges)
    (husable : weigher.IsUsable e) : Reachable graph weigher src (Edge.dst e) := by
  obtain ⟨p, hp⟩ := h
  have hnext : IsRoute (network graph weigher) (Edge.src e) [e] (Edge.dst e) :=
    isRoute_singleton ⟨he, husable⟩
  exact ⟨p ++ [e], isRoute_append.mpr ⟨_, hp, hnext⟩⟩

theorem reachable_of_mem (h : IsRoute (network graph weigher) src shortPath dst)
    (he : e ∈ shortPath) : Reachable graph weigher src (Edge.src e) := by
  obtain ⟨p, q, rfl⟩ := List.append_of_mem he
  obtain ⟨x, hp, hq⟩ := isRoute_append.mp h
  obtain rfl : Edge.src e = x := hq.walk.1
  exact ⟨p, hp⟩

end

theorem weight_modified (hweights : NonNegative graph weigher) (he : e ∈ graph.getEdges) :
    (modified graph src weigher).weight (Sum.inl e) =
      match (firstDijkstra graph src weigher).cost (Edge.src e),
        (firstDijkstra graph src weigher).cost (Edge.dst e) with
      | some srcCost, some dstCost =>
        .ok ((weigher.weight e).map fun weight => weight + srcCost - dstCost)
      | _, _ => .error "NullPointerException" := by
  have hnot : (weigher.weight e).any (fun weight => weight < 0) = false := by
    cases hweight : weigher.weight e with
    | none => rfl
    | some weight => simpa using hweights e he weight hweight
  simp [modified, hnot]

theorem isUsable_of_modified (hweights : NonNegative graph weigher) (he : e ∈ graph.getEdges)
    (h : (modified graph src weigher).total.IsUsable (Sum.inl e)) : weigher.IsUsable e := by
  rw [hweights.isUsable he]
  intro hnone
  obtain ⟨weight, hweight, -⟩ := h
  simp only [FailingWeigher.total, weight_modified hweights he, hnone, Option.map_none] at hweight
  split at hweight
  · rename_i hok
    split at hok <;> cases hok
    cases hweight
  · cases hweight

section

omit [AddCommGroup M] [LinearOrder M]

theorem mem_residualGraph {x : ResidualEdge V E} :
    x ∈ (residualGraph orders graph src shortPath).getEdges ↔
      (∃ e ∈ graph.getEdges, e ∉ graph.getEdgesTo src ∧ e ∉ shortPath ∧ Sum.inl e = x) ∨
      ∃ e ∈ shortPath, Sum.inr (reverseEdge e) = x := by
  simp [residualGraph, and_assoc]

theorem residualNetwork_inl (h : Sum.inl e ∈ (residualGraph orders graph src shortPath).getEdges) :
    e ∈ graph.getEdges ∧ e ∉ shortPath := by
  rcases mem_residualGraph.mp h with ⟨e', he', -, hnot, heq⟩ | ⟨e', -, heq⟩
  · obtain rfl := Sum.inl.inj heq
    exact ⟨he', hnot⟩
  · cases heq

end

theorem reachable_of_residual (hweights : NonNegative graph weigher)
    (hshort : IsRoute (network graph weigher) src shortPath dst) {q : List (ResidualEdge V E)}
    {v : V} (hq : IsRoute (network (residualGraph orders graph src shortPath)
      (modified graph src weigher).total) src q v) : Reachable graph weigher src v := by
  by_contra hv
  have hs : Reachable graph weigher src src := ⟨[], rfl, by simp⟩
  obtain ⟨x, hx, hsrc, hdst⟩ := hq.walk.exists_leaving (Reachable graph weigher src) hs hv
  obtain ⟨hmem, husable⟩ := hq.usable x hx
  apply hdst
  rcases mem_residualGraph.mp hmem with ⟨e, he, -, -, rfl⟩ | ⟨e, he, rfl⟩
  · exact Reachable.next hsrc he (isUsable_of_modified hweights he husable)
  · exact reachable_of_mem hshort he

variable [IsOrderedAddMonoid M]

theorem cost_firstDijkstra (hsrc : src ∈ graph.getVertexes) {v : V} :
    (firstDijkstra graph src weigher).cost v ≠ none ↔ Reachable graph weigher src v := by
  obtain ⟨⟨order, hfinished⟩, hs, -⟩ := DijkstraGraphSearch.labels_spec weigher none
    (.inl rfl : ALL_PATHS = ALL_PATHS ∨ 1 ≤ ALL_PATHS) hsrc (Option.some_ne_none src).symm
  have hcost : (firstDijkstra graph src weigher).cost v =
      (DijkstraGraphSearch.labels graph src none weigher ALL_PATHS).cost v := cost_buildPaths _ v
  rw [hcost]
  constructor
  · intro hne
    obtain ⟨a, ha⟩ := Option.ne_none_iff_exists'.mp hne
    obtain ⟨p, hp, -⟩ := hfinished.labelled.realised v a ha
    rw [hs] at hp
    exact ⟨p, hp⟩
  · rintro ⟨p, hp⟩
    have hv : v ∈ graph.getVertexes := by
      rcases List.mem_cons.mp hp.walk.end_mem with rfl | hmem
      · exact hsrc
      · obtain ⟨e, he, rfl⟩ := List.mem_map.mp hmem
        exact graph.dst_mem e (hp.usable e he).1
    rw [← hs] at hp
    obtain ⟨a, ha, -⟩ := (hfinished.frontier.bound (fun e he => hopCost_nonneg he.2) hp).1
      (hfinished.everywhere rfl v hv)
    rw [ha]
    exact Option.some_ne_none a

/-- From a vertex that can be reached, the weigher only fails for an edge that is not viable and
leads to a vertex that cannot. -/
theorem weighs_inl (hsrc : src ∈ graph.getVertexes) (hweights : NonNegative graph weigher)
    (he : e ∈ graph.getEdges) (hreach : Reachable graph weigher src (Edge.src e)) :
    (modified graph src weigher).Weighs (Sum.inl e) ↔
      weigher.weight e ≠ none ∨ Reachable graph weigher src (Edge.dst e) := by
  obtain ⟨srcCost, hsrcCost⟩ :=
    Option.ne_none_iff_exists'.mp ((cost_firstDijkstra hsrc).mpr hreach)
  have hreachable : (modified graph src weigher).Weighs (Sum.inl e) ↔
      Reachable graph weigher src (Edge.dst e) := by
    rw [← cost_firstDijkstra hsrc, FailingWeigher.Weighs, weight_modified hweights he, hsrcCost]
    cases (firstDijkstra graph src weigher).cost (Edge.dst e) <;> simp
  rw [hreachable]
  constructor
  · exact .inr
  · rintro (hviable | hdst)
    · exact hreach.next he ((hweights.isUsable he).mpr hviable)
    · exact hdst

end Residual

section Pairs

variable (orders : HashOrders V E M) (graph : DirectedGraph V E) (src dst : V)
  (weigher : EdgeWeigher E M)

/-- The second search weighs no edge that is not viable and leads to a vertex that cannot be
reached. -/
def WeighsReached (shortPath : List E) : Prop :=
  ∀ e, Sum.inl e ∈ DijkstraWithFailures.weighed (residualGraph orders graph src shortPath) src
    (some dst) (modified graph src weigher).total ALL_PATHS →
      weigher.weight e ≠ none ∨ Reachable graph weigher src (Edge.dst e)

def secondPaths (shortPath : List E) : List (Path (ResidualEdge V E) M) :=
  (DijkstraGraphSearch.internalSearch (residualGraph orders graph src shortPath) src (some dst)
    (modified graph src weigher).total ALL_PATHS).paths

def HasBackup (shortPath : List E) (residualShortPath : List (ResidualEdge V E)) : Prop :=
  ∃ primary, primaryPath orders graph src dst weigher
      (roundTripEdges shortPath residualShortPath) = .ok primary ∧
    ∃ backup ∈ backups orders graph src dst weigher (roundTripEdges shortPath residualShortPath)
      primary, isDisjoint primary backup = true

def IsKept (shortPath : List E) : Prop :=
  (∀ q, ¬ IsRoute (network (residualGraph orders graph src shortPath)
    (modified graph src weigher).total) src q dst) ∨
  ∃ Q ∈ secondPaths orders graph src dst weigher shortPath,
    HasBackup orders graph src dst weigher shortPath Q.edges

variable {orders graph src dst weigher} {shortPath : List E} [IsOrderedAddMonoid M]

section

variable (hsrc : src ∈ graph.getVertexes)

include hsrc

theorem weighs_iff (hweights : NonNegative graph weigher)
    (hshort : IsRoute (network graph weigher) src shortPath dst) :
    (∀ e ∈ DijkstraWithFailures.weighed (residualGraph orders graph src shortPath) src (some dst)
      (modified graph src weigher).total ALL_PATHS, (modified graph src weigher).Weighs e) ↔
    WeighsReached orders graph src dst weigher shortPath := by
  have hinl : ∀ e, Sum.inl e ∈ DijkstraWithFailures.weighed
      (residualGraph orders graph src shortPath) src (some dst) (modified graph src weigher).total
      ALL_PATHS → ((modified graph src weigher).Weighs (Sum.inl e) ↔
        weigher.weight e ≠ none ∨ Reachable graph weigher src (Edge.dst e)) := by
    intro e he
    obtain ⟨hmem, q, hq⟩ := DijkstraWithFailures.reached_of_weighed (.inl rfl)
      (mem_vertexes_mutableGraph hsrc) he
    exact weighs_inl hsrc hweights (residualNetwork_inl hmem).1
      (reachable_of_residual hweights hshort hq)
  constructor
  · intro h e he
    exact (hinl e he).mp (h _ he)
  · intro h x hx
    cases x with
    | inl e => exact (hinl e hx).mpr (h e hx)
    | inr r => exact ⟨_, rfl⟩

theorem secondDijkstra_eq (hdst : dst ∈ graph.getVertexes) (hweights : NonNegative graph weigher)
    (hshort : IsRoute (network graph weigher) src shortPath dst) :
    (WeighsReached orders graph src dst weigher shortPath →
      secondDijkstra orders graph src dst weigher shortPath =
        .ok (DijkstraGraphSearch.internalSearch (residualGraph orders graph src shortPath) src
          (some dst) (modified graph src weigher).total ALL_PATHS)) ∧
    (¬ WeighsReached orders graph src dst weigher shortPath →
      ∃ message, secondDijkstra orders graph src dst weigher shortPath = .error message) := by
  have hsearch : secondDijkstra orders graph src dst weigher shortPath =
      DijkstraWithFailures.internalSearch (residualGraph orders graph src shortPath) src (some dst)
        (modified graph src weigher) ALL_PATHS := by
    have hs : src ∈ (residualGraph orders graph src shortPath).getVertexes :=
      mem_vertexes_mutableGraph hsrc
    have hd : dst ∈ (residualGraph orders graph src shortPath).getVertexes :=
      mem_vertexes_mutableGraph hdst
    simp only [secondDijkstra, DijkstraWithFailures.search, checkArguments, hs, hd,
      not_true_eq_false, if_false, if_true, Except.bind]
  rw [hsearch, ← weighs_iff hsrc hweights hshort]
  constructor
  · exact DijkstraWithFailures.internalSearch_eq
  · intro hnot
    simp only [not_forall, exists_prop] at hnot
    exact DijkstraWithFailures.internalSearch_fails hnot

theorem secondPaths_findsShortest (hne : src ≠ dst) :
    DijkstraGraphSearch.FindsShortest (residualGraph orders graph src shortPath)
      (modified graph src weigher).total src dst ALL_PATHS
      (secondPaths orders graph src dst weigher shortPath) :=
  DijkstraGraphSearch.internalSearch_findsShortest _ (.inl rfl) (mem_vertexes_mutableGraph hsrc) hne

/-- The round trip is viable and leads to the destination: it loses as much of every potential as
the two paths together. -/
theorem roundTrip_spec (hne : src ≠ dst) (hweights : NonNegative graph weigher)
    (hshort : IsRoute (network graph weigher) src shortPath dst) (hnodup : shortPath.Nodup)
    {Q : Path (ResidualEdge V E) M} (hQ : Q ∈ secondPaths orders graph src dst weigher shortPath) :
    (∀ e ∈ roundTripEdges shortPath Q.edges, (network graph weigher).usable e) ∧
    ∃ p, IsWalk Edge.src Edge.dst src p dst ∧ ∀ e ∈ p, e ∈ roundTripEdges shortPath Q.edges := by
  obtain ⟨⟨hroute, -⟩, -, hQnodup, -⟩ := (secondPaths_findsShortest hsrc hne).sound Q hQ
  have hnew : ∀ e, Sum.inl e ∈ Q.edges → e ∉ shortPath.dedup := by
    intro e he
    rw [List.mem_dedup]
    exact (residualNetwork_inl (hroute.usable _ he).1).2
  have hback : ∀ r, Sum.inr r ∈ Q.edges →
      ∃ e ∈ shortPath.dedup, revToEdge shortPath r = some e := by
    intro r hr
    rcases mem_residualGraph.mp (hroute.usable _ hr).1 with ⟨e, -, -, -, heq⟩ | ⟨e, he, heq⟩
    · cases heq
    · obtain ⟨f, hf⟩ := exists_revToEdge ⟨e, he, Sum.inr.inj heq⟩
      exact ⟨f, List.mem_dedup.mpr (mem_of_revToEdge hf).1, hf⟩
  obtain ⟨hmem, hsum⟩ := foldl_addToRoundTrip
    ⟨hQnodup, List.nodup_dedup shortPath, hnew, hback⟩
  constructor
  · intro e he
    rcases hmem e he with he | he
    · exact hshort.usable e (List.mem_dedup.mp he)
    · obtain ⟨hin, husable⟩ := hroute.usable _ he
      have hgraph := (residualNetwork_inl hin).1
      exact ⟨hgraph, isUsable_of_modified hweights hgraph husable⟩
  · apply exists_walk_of_potential
    intro f hlower
    have hfirst := hshort.walk.sum_potential f
    have hsecond := hroute.walk.sum_potential f
    have htotal := hsum f
    change (List.map _ (roundTripEdges shortPath Q.edges)).sum = _ at htotal
    rw [htotal, hnodup.dedup]
    simp only [network] at hfirst hsecond
    omega

end

variable (orders) in
theorem primaryPath_spec (hsrc : src ∈ graph.getVertexes) (hne : src ≠ dst) {edges : List E}
    (hviable : ∀ e ∈ edges, (network graph weigher).usable e)
    (hwalk : ∃ p, IsWalk Edge.src Edge.dst src p dst ∧ ∀ e ∈ p, e ∈ edges) :
    ∃ primary, primaryPath orders graph src dst weigher edges = .ok primary ∧
      IsRoute (network graph weigher) src primary.edges dst := by
  have hfind : DijkstraGraphSearch.FindsShortest (roundTrip orders graph edges) weigher src dst
      ALL_PATHS (DijkstraGraphSearch.internalSearch (roundTrip orders graph edges) src (some dst)
        weigher ALL_PATHS).paths :=
    DijkstraGraphSearch.internalSearch_findsShortest _ (.inl rfl) (mem_vertexes_mutableGraph hsrc)
      hne
  have hfound := hfind.found (by
    obtain ⟨p, hp, hedges⟩ := hwalk
    exact ⟨p, hp, fun e he =>
      ⟨mem_edges_mutableGraph.mpr (hedges e he), (hviable e (hedges e he)).2⟩⟩)
  have hperm := orders.paths.perm (DijkstraGraphSearch.internalSearch (roundTrip orders graph edges)
    src (some dst) weigher ALL_PATHS).paths
  unfold primaryPath
  split
  next hnil =>
    rw [hnil] at hperm
    exact absurd hperm.nil_eq.symm hfound
  next primary rest hcons =>
    refine ⟨primary, rfl, ?_⟩
    rw [hcons] at hperm
    obtain ⟨hshortest, -⟩ := hfind.sound primary (hperm.mem_iff.mp List.mem_cons_self)
    refine ⟨hshortest.route.walk, ?_⟩
    intro e he
    exact hviable e (mem_edges_mutableGraph.mp (hshortest.route.usable e he).1)

theorem disjointPair_spec (hsrc : src ∈ graph.getVertexes) (hne : src ≠ dst)
    (hweights : NonNegative graph weigher)
    (hshort : IsRoute (network graph weigher) src shortPath dst) (hnodup : shortPath.Nodup)
    {Q : Path (ResidualEdge V E) M} (hQ : Q ∈ secondPaths orders graph src dst weigher shortPath) :
    ∃ pair, disjointPair orders graph src dst weigher shortPath Q.edges = .ok pair ∧
      (∀ x, pair = some x → IsRoute (network graph weigher) src x.primary.edges dst) ∧
      (pair.isSome ↔ HasBackup orders graph src dst weigher shortPath Q.edges) := by
  obtain ⟨hviable, hwalk⟩ := roundTrip_spec hsrc hne hweights hshort hnodup hQ
  obtain ⟨primary, hok, hroute⟩ := primaryPath_spec orders hsrc hne hviable hwalk
  refine ⟨_, by rw [disjointPair, hok]; rfl, ?_, ?_⟩
  · intro x hx
    obtain ⟨backup, -, rfl⟩ := Option.map_eq_some_iff.mp hx
    exact hroute
  · rw [Option.isSome_map, List.find?_isSome]
    constructor
    · intro hbackup
      exact ⟨primary, hok, hbackup⟩
    · rintro ⟨primary', hok', hbackup⟩
      rw [hok] at hok'
      cases hok'
      exact hbackup

theorem pairsOf_spec (hsrc : src ∈ graph.getVertexes) (hdst : dst ∈ graph.getVertexes)
    (hne : src ≠ dst) (hweights : NonNegative graph weigher) {P : Path E M}
    (hshort : IsRoute (network graph weigher) src P.edges dst) (hnodup : P.edges.Nodup)
    (hreached : WeighsReached orders graph src dst weigher P.edges) :
    ∃ pairs, pairsOf orders graph src dst weigher P = .ok pairs ∧
      (∀ x ∈ pairs, IsRoute (network graph weigher) src x.primary.edges dst) ∧
      (pairs ≠ [] ↔ IsKept orders graph src dst weigher P.edges) := by
  have hsecond := (secondDijkstra_eq hsrc hdst hweights hshort).1 hreached
  have hfind : DijkstraGraphSearch.FindsShortest (residualGraph orders graph src P.edges)
      (modified graph src weigher).total src dst ALL_PATHS
      (secondPaths orders graph src dst weigher P.edges) := secondPaths_findsShortest hsrc hne
  rw [pairsOf, hsecond]
  cases hpaths : secondPaths orders graph src dst weigher P.edges with
  | nil =>
    refine ⟨[⟨P, none⟩], ?_, ?_, ?_⟩
    · simp only [secondPaths] at hpaths
      simp only [Except.bind, hpaths, List.isEmpty_nil, if_true]
    · intro x hx
      obtain rfl := List.mem_singleton.mp hx
      exact hshort
    · constructor
      · intro _
        left
        intro q hq
        exact hfind.found ⟨q, hq⟩ hpaths
      · intro _
        exact List.cons_ne_nil _ _
  | cons Q rest =>
    have hmem : ∀ Q', Q' ∈ orders.residualPaths.order (Q :: rest) ↔
        Q' ∈ secondPaths orders graph src dst weigher P.edges := by
      intro Q'
      rw [(orders.residualPaths.perm _).mem_iff, hpaths]
    have hpair := fun Q' hQ' =>
      disjointPair_spec hsrc hne hweights hshort hnodup ((hmem Q').mp hQ')
    obtain ⟨found, hok, hfound, hall⟩ := FailingMap.mapM_related hpair
    refine ⟨found.reduceOption, ?_, ?_, ?_⟩
    · simp only [secondPaths] at hpaths
      simp only [Except.bind, hpaths, List.isEmpty_cons, Bool.false_eq_true, if_false, hok]
      rfl
    · intro x hx
      obtain ⟨-, -, hroute, -⟩ := hfound (some x) (List.reduceOption_mem_iff.mp hx)
      exact hroute x rfl
    · constructor
      · intro hne'
        obtain ⟨x, hx⟩ := List.exists_mem_of_ne_nil _ hne'
        obtain ⟨Q', hQ', -, hbackup⟩ := hfound (some x) (List.reduceOption_mem_iff.mp hx)
        exact .inr ⟨Q', (hmem Q').mp hQ', hbackup.mp rfl⟩
      · rintro (hnone | ⟨Q', hQ', hbackup⟩)
        · have hroute := (hfind.sound Q (hpaths ▸ List.mem_cons_self)).1.route
          exact absurd hroute (hnone Q.edges)
        · obtain ⟨pair, hin, -, hiff⟩ := hall Q' ((hmem Q').mpr hQ')
          obtain ⟨x, rfl⟩ := Option.isSome_iff_exists.mp (hiff.mpr hbackup)
          exact List.ne_nil_of_mem (List.reduceOption_mem_iff.mpr hin)

variable (orders) in
theorem allPairs_spec (hsrc : src ∈ graph.getVertexes) (hdst : dst ∈ graph.getVertexes)
    (hne : src ≠ dst) (hweights : NonNegative graph weigher) :
    ((∀ P ∈ (firstDijkstraS graph src dst weigher).paths,
        WeighsReached orders graph src dst weigher P.edges) →
      ∃ dpps, allPairs orders graph src dst weigher = .ok dpps ∧
        (∀ x ∈ dpps, IsRoute (network graph weigher) src x.primary.edges dst) ∧
        (dpps ≠ [] ↔ ∃ P ∈ (firstDijkstraS graph src dst weigher).paths,
          IsKept orders graph src dst weigher P.edges)) ∧
    ((∃ P ∈ (firstDijkstraS graph src dst weigher).paths,
        ¬ WeighsReached orders graph src dst weigher P.edges) →
      ∃ message, allPairs orders graph src dst weigher = .error message) := by
  have hfind : DijkstraGraphSearch.FindsShortest graph weigher src dst ALL_PATHS
      (firstDijkstraS graph src dst weigher).paths :=
    DijkstraGraphSearch.internalSearch_findsShortest _ (.inl rfl) hsrc hne
  have hmem : ∀ P, P ∈ orders.paths.order (firstDijkstraS graph src dst weigher).paths ↔
      P ∈ (firstDijkstraS graph src dst weigher).paths := fun P => (orders.paths.perm _).mem_iff
  constructor
  · intro hreached
    have hpairs := fun P hP =>
      let hsound := hfind.sound P ((hmem P).mp hP)
      pairsOf_spec hsrc hdst hne hweights hsound.1.route hsound.2.2.1
        (hreached P ((hmem P).mp hP))
    obtain ⟨found, hok, hfound, hall⟩ := FailingMap.mapM_related hpairs
    refine ⟨found.flatten, by rw [allPairs, hok]; rfl, ?_, ?_⟩
    · intro x hx
      obtain ⟨pairs, hin, hx⟩ := List.mem_flatten.mp hx
      obtain ⟨-, -, hroute, -⟩ := hfound pairs hin
      exact hroute x hx
    · constructor
      · intro hne'
        obtain ⟨x, hx⟩ := List.exists_mem_of_ne_nil _ hne'
        obtain ⟨pairs, hin, hx⟩ := List.mem_flatten.mp hx
        obtain ⟨P, hP, -, hkept⟩ := hfound pairs hin
        exact ⟨P, (hmem P).mp hP, hkept.mp (List.ne_nil_of_mem hx)⟩
      · rintro ⟨P, hP, hkept⟩
        obtain ⟨pairs, hin, -, hiff⟩ := hall P ((hmem P).mpr hP)
        obtain ⟨x, hx⟩ := List.exists_mem_of_ne_nil _ (hiff.mpr hkept)
        exact List.ne_nil_of_mem (List.mem_flatten.mpr ⟨pairs, hin, hx⟩)
  · rintro ⟨P, hP, hnot⟩
    obtain ⟨message, hmessage⟩ :=
      (secondDijkstra_eq hsrc hdst hweights (hfind.sound P hP).1.route).2 hnot
    have hfails : pairsOf orders graph src dst weigher P = .error message := by
      rw [pairsOf, hmessage]
      rfl
    obtain ⟨message', hall⟩ := FailingMap.mapM_fails ⟨P, (hmem P).mpr hP, message, hfails⟩
    exact ⟨message', by rw [allPairs, hall]; rfl⟩

end Pairs

section Results

variable {dpps disjointPaths : List (DisjointPathPair E M)} {maxPaths : ℤ} {n : ℕ}

omit [DecidableEq V] [AddCommGroup M]

theorem subset_buildPaths : disjointPaths ⊆ buildPaths maxPaths n disjointPaths dpps := by
  induction dpps generalizing n disjointPaths with
  | nil => exact List.Subset.refl _
  | cons path dpps ih =>
    have hadd : disjointPaths ⊆ if disjointPaths.any (samePair path) then disjointPaths
        else disjointPaths ++ [path] := by
      split_ifs
      · exact List.Subset.refl _
      · exact List.subset_append_left _ _
    rw [buildPaths]
    by_cases hlast : (n + 1 : ℤ) = maxPaths
    · rw [if_pos hlast]
      exact hadd
    · rw [if_neg hlast]
      exact List.Subset.trans hadd ih

theorem mem_buildPaths {x : DisjointPathPair E M}
    (hx : x ∈ buildPaths maxPaths n disjointPaths dpps) : x ∈ disjointPaths ∨ x ∈ dpps := by
  induction dpps generalizing n disjointPaths with
  | nil => exact .inl hx
  | cons path dpps ih =>
    have hadd : (x ∈ if disjointPaths.any (samePair path) then disjointPaths
        else disjointPaths ++ [path]) → x ∈ disjointPaths ∨ x ∈ path :: dpps := by
      intro hmem
      split_ifs at hmem
      · exact .inl hmem
      · rcases List.mem_append.mp hmem with hmem | hmem
        · exact .inl hmem
        · exact .inr (List.mem_singleton.mp hmem ▸ List.mem_cons_self)
    rw [buildPaths] at hx
    by_cases hlast : (n + 1 : ℤ) = maxPaths
    · rw [if_pos hlast] at hx
      exact hadd hx
    · rw [if_neg hlast] at hx
      rcases ih hx with hx | hx
      · exact hadd hx
      · exact .inr (List.mem_cons_of_mem path hx)

theorem buildPaths_prune (maxPaths : ℤ) (dpps : List (DisjointPathPair E M)) :
    (∀ x ∈ buildPaths maxPaths 0 [] (prune dpps), x ∈ dpps) ∧
      (dpps ≠ [] → buildPaths maxPaths 0 [] (prune dpps) ≠ []) := by
  constructor
  · intro x hx
    have hmem := (mem_buildPaths hx).resolve_left List.not_mem_nil
    cases dpps with
    | nil => exact hmem
    | cons first dpps =>
      rcases List.mem_cons.mp hmem with rfl | hmem
      · exact List.mem_cons_self
      · exact List.mem_cons_of_mem _ (List.mem_of_mem_filter hmem)
  · intro hne
    cases dpps with
    | nil => exact absurd rfl hne
    | cons first dpps =>
      rw [prune, buildPaths]
      simp only [List.any_nil, Bool.false_eq_true, if_false, List.nil_append]
      split_ifs
      · exact List.cons_ne_nil _ _
      · exact List.ne_nil_of_mem (subset_buildPaths List.mem_cons_self)

variable {orders : HashOrders V E M} {graph : DirectedGraph V E} {src dst : V}
  {weigher : EdgeWeigher E M}

omit [DecidableEq E] in
theorem nonNegative_test {graph : DirectedGraph ℕ TestEdge}
    (h : ∀ e ∈ graph.getEdges, 0 ≤ e.weight) : NonNegative graph testWeigher := by
  intro e he weight hweight
  obtain rfl := Option.some.inj hweight
  exact h e he

/-- The search keeps a working path if and only if weighing comes to no edge that is not viable and
leads out of reach, and one of the shortest paths is alone or has a backup. -/
theorem search_keeps_path_iff [DecidableEq V] [AddCommGroup M] [IsOrderedAddMonoid M]
    (orders : HashOrders V E M) (hsrc : src ∈ graph.getVertexes) (hdst : dst ∈ graph.getVertexes)
    (hne : src ≠ dst) (hweights : NonNegative graph weigher) (maxPaths : ℤ) :
    (∃ pairs, search orders graph src dst weigher maxPaths = .ok pairs ∧
      (Reachable graph weigher src dst →
        ∃ x ∈ pairs, IsRoute (network graph weigher) src x.primary.edges dst)) ↔
    (∀ P ∈ (firstDijkstraS graph src dst weigher).paths,
      WeighsReached orders graph src dst weigher P.edges) ∧
    (Reachable graph weigher src dst → ∃ P ∈ (firstDijkstraS graph src dst weigher).paths,
      IsKept orders graph src dst weigher P.edges) := by
  have hfind : DijkstraGraphSearch.FindsShortest graph weigher src dst ALL_PATHS
      (firstDijkstraS graph src dst weigher).paths :=
    DijkstraGraphSearch.internalSearch_findsShortest _ (.inl rfl) hsrc hne
  have hsearch : search orders graph src dst weigher maxPaths =
      internalSearch orders graph src dst weigher maxPaths := by
    simp only [search, checkArguments, hsrc, hdst, not_true_eq_false, if_false, if_true,
      Except.bind]
  rw [hsearch, internalSearch]
  by_cases hreachable : Reachable graph weigher src dst
  · have hsome : (firstDijkstraS graph src dst weigher).paths.isEmpty = false := by
      simpa using hfind.found hreachable
    obtain ⟨hok, hfails⟩ := allPairs_spec orders hsrc hdst hne hweights
    rw [hsome]
    by_cases hreached : ∀ P ∈ (firstDijkstraS graph src dst weigher).paths,
        WeighsReached orders graph src dst weigher P.edges
    · obtain ⟨dpps, hall, hroutes, hkept⟩ := hok hreached
      obtain ⟨hsub, hnil⟩ := buildPaths_prune maxPaths dpps
      rw [hall]
      constructor
      · rintro ⟨pairs, heq, hworking⟩
        obtain ⟨x, hx, -⟩ := hworking hreachable
        cases heq
        exact ⟨hreached, fun _ => hkept.mp (List.ne_nil_of_mem (hsub x hx))⟩
      · rintro ⟨-, hexists⟩
        refine ⟨_, rfl, fun _ => ?_⟩
        obtain ⟨x, hx⟩ := List.exists_mem_of_ne_nil _ (hnil (hkept.mpr (hexists hreachable)))
        exact ⟨x, hx, hroutes x (hsub x hx)⟩
    · obtain ⟨message, hmessage⟩ := hfails (by simpa using hreached)
      rw [hmessage]
      constructor
      · rintro ⟨pairs, heq, -⟩
        cases heq
      · rintro ⟨hall, -⟩
        exact absurd hall hreached
  · have hnil : (firstDijkstraS graph src dst weigher).paths = [] := by
      by_contra hne'
      obtain ⟨P, hP⟩ := List.exists_mem_of_ne_nil _ hne'
      exact hreachable ⟨P.edges, (hfind.sound P hP).1.route⟩
    simp [hnil, hreachable]

theorem search_keeps_path_iff_diamond :
    (∃ pairs, search (insertionOrders ℕ TestEdge ℤ) DijkstraGraphSearch.diamond 0 3 testWeigher
        ALL_PATHS = .ok pairs ∧
      (Reachable DijkstraGraphSearch.diamond testWeigher 0 3 → ∃ x ∈ pairs,
        IsRoute (network DijkstraGraphSearch.diamond testWeigher) 0 x.primary.edges 3)) ↔
    (∀ P ∈ (firstDijkstraS DijkstraGraphSearch.diamond 0 3 testWeigher).paths,
      WeighsReached (insertionOrders ℕ TestEdge ℤ) DijkstraGraphSearch.diamond 0 3 testWeigher
        P.edges) ∧
    (Reachable DijkstraGraphSearch.diamond testWeigher 0 3 →
      ∃ P ∈ (firstDijkstraS DijkstraGraphSearch.diamond 0 3 testWeigher).paths,
        IsKept (insertionOrders ℕ TestEdge ℤ) DijkstraGraphSearch.diamond 0 3 testWeigher
          P.edges) := by
  apply search_keeps_path_iff _ (by decide) (by decide) (by decide) _ _
  exact nonNegative_test (by decide)

def twoHops : DirectedGraph ℕ TestEdge := adjacencyListsGraph [0, 1, 2]
  [⟨0, 1, 1⟩, ⟨0, 1, 2⟩, ⟨1, 2, 1⟩, ⟨1, 2, 2⟩]

/-- All paths from 0 to 2 lead over 1, and none of them is returned. -/
theorem working_path_lost : NonNegative twoHops testWeigher ∧ Reachable twoHops testWeigher 0 2 ∧
    ¬ ∃ pairs, search (insertionOrders ℕ TestEdge ℤ) twoHops 0 2 testWeigher ALL_PATHS =
        .ok pairs ∧
      (Reachable twoHops testWeigher 0 2 →
        ∃ x ∈ pairs, IsRoute (network twoHops testWeigher) 0 x.primary.edges 2) := by
  have hweights : NonNegative twoHops testWeigher := nonNegative_test (by decide)
  have hmem : ∀ e ∈ [(⟨0, 1, 1⟩ : TestEdge), ⟨1, 2, 1⟩], e ∈ twoHops.getEdges := by decide
  have hroute : IsRoute (network twoHops testWeigher) 0 [⟨0, 1, 1⟩, ⟨1, 2, 1⟩] 2 := by
    refine ⟨⟨rfl, rfl, rfl⟩, ?_⟩
    intro e he
    exact ⟨hmem e he, (hweights.isUsable (hmem e he)).mpr (Option.some_ne_none _)⟩
  have hnone : search (insertionOrders ℕ TestEdge ℤ) twoHops 0 2 testWeigher ALL_PATHS =
      .ok [] := by decide
  refine ⟨hweights, ⟨_, hroute⟩, ?_⟩
  rintro ⟨pairs, hok, hworking⟩
  rw [hnone] at hok
  cases hok
  obtain ⟨x, hx, -⟩ := hworking ⟨_, hroute⟩
  cases hx

/-- An edge that is not viable leads to a vertex without a cost. -/
example : search (insertionOrders ℕ TestEdge ℤ)
    (adjacencyListsGraph [0, 1, 2] [⟨0, 1, 1⟩, ⟨0, 2, 1⟩]) 0 1
    ⟨fun e => if e.dst = 2 then none else some e.weight, 0⟩ ALL_PATHS =
      .error "NullPointerException" := by decide

end Results

end SuurballeGraphSearch

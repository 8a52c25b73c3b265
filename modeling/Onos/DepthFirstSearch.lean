import Onos.BreadthFirstSearch
import Onos.Lib.GrownTree

/-! Depth-first search by iteration, which tells the types of the edges. A search that has started
over with an edge scans the egress edges of the vertex from the first one again. -/
namespace DepthFirstSearch

open BreadthFirstSearch (Weigher IsReached)
open DirectedWalk FallibleRun GraphPathSearch GrownTree HopDistance KeyedMap

universe u v

variable {V : Type u} {E : Type v} {W : Type*} [DecidableEq V] [DecidableEq E] [Edge V E] [Add W]

inductive EdgeType
  | treeEdge
  | forwardEdge
  | backEdge
  | crossEdge
  deriving DecidableEq, Repr

/-- How a search ends without a result. It runs for ever if there is not enough fuel for it. -/
inductive Stop
  | outOfFuel
  | exception (message : String)
  deriving DecidableEq, Repr

/-- The edges are bound to their types in the order of the calls of `markEdge`, the last first. -/
structure SpanningTreeResult (V E W : Type*) extends DefaultResult V E W where
  edges : List (E × EdgeType)

def SpanningTreeResult.isEdgeMarked (r : SpanningTreeResult V E W) (edge : E) : Bool :=
  edge ∈ r.edges.map Prod.fst

def SpanningTreeResult.markEdge (r : SpanningTreeResult V E W) (edge : E) (type : EdgeType) :
    SpanningTreeResult V E W := { r with edges := (edge, type) :: r.edges }

/-- The vertexes that have been started are on the stack, its top first, until they are finished. -/
structure SearchState (V E W : Type*) where
  result : SpanningTreeResult V E W
  finished : List V
  stack : List V

/-- Follows a set of parent edges in turn: to the source of the last one, or to the target. -/
def followParents (target : V) : V → List E → Option V
  | vertex, [] => some vertex
  | _, parentEdge :: parentEdges =>
    if Edge.src parentEdge = target then none
    else followParents target (Edge.src parentEdge) parentEdges

def isForwardLoop (parents : Table V (List E)) (target : V) : ℕ → V → Except Stop Bool
  | 0, _ => .error .outOfFuel
  | fuel + 1, vertex =>
    match parents.lookup vertex with
    | none => .ok false
    | some parentEdges =>
      match followParents target vertex parentEdges with
      | none => .ok true
      | some vertex => isForwardLoop parents target fuel vertex

def isForwardEdge (fuel : ℕ) (result : DefaultResult V E W) (edge : E) : Except Stop Bool :=
  isForwardLoop result.parents (Edge.src edge) fuel (Edge.dst edge)

def SearchState.mark (s : SearchState V E W) (edge : E) (type : EdgeType) : SearchState V E W :=
  { s with result := s.result.markEdge edge type }

def SearchState.start (s : SearchState V E W) (edge : E) (newCost : W) : SearchState V E W where
  result := { s.result.markEdge edge .treeEdge with
    toDefaultResult :=
      s.result.toDefaultResult.updateVertex (Edge.dst edge) (some edge) newCost true }
  finished := s.finished
  stack := Edge.dst edge :: s.stack

def SearchState.finish (s : SearchState V E W) (vertex : V) : SearchState V E W :=
  { s with finished := s.finished.insert vertex, stack := s.stack.tail }

/-- Visits egress edges of a vertex. Also returns whether the search goes on a tangent. -/
def visitEdges (fuel : ℕ) (weigher : Weigher E W) (cost : Option W) :
    List E → SearchState V E W → Except Stop (SearchState V E W × Bool)
  | [], s => .ok (s, false)
  | edge :: edges, s =>
    if s.result.isEdgeMarked edge then visitEdges fuel weigher cost edges s
    else if (s.result.cost (Edge.dst edge)).isNone then
      match cost with
      | none => .error (.exception "NullPointerException")
      | some cost => .ok (s.start edge (cost + weigher.weight edge), true)
    else if Edge.dst edge ∉ s.finished then
      visitEdges fuel weigher cost edges (s.mark edge .backEdge)
    else (isForwardEdge fuel s.result.toDefaultResult edge).bind fun forward =>
      visitEdges fuel weigher cost edges
        (s.mark edge (if forward then .forwardEdge else .crossEdge))

/-- The fuel bounds the rounds of one walk over parent edges, the number those of the loop. -/
def searchLoop (fuel : ℕ) (graph : DirectedGraph V E) (weigher : Weigher E W) (dst : Option V) :
    ℕ → SearchState V E W → Except Stop (SearchState V E W)
  | 0, _ => .error .outOfFuel
  | n + 1, s =>
    match s.stack with
    | [] => .ok s
    | vertex :: _ =>
      if some vertex = dst then .ok s
      else (visitEdges fuel weigher (s.result.cost vertex) (graph.getEdgesFrom vertex) s).bind
        fun r => searchLoop fuel graph weigher dst n (if r.2 then r.1 else r.1.finish vertex)

def initialState (src : V) (dst : Option V) (weigher : Weigher E W) (maxPaths : ℤ) :
    SearchState V E W where
  result := { (defaultResult src dst maxPaths).updateVertex src none weigher.getInitialWeight true
    with edges := [] }
  finished := []
  stack := [src]

def internalSearch [DecidableEq W] (fuel : ℕ) (graph : DirectedGraph V E) (src : V)
    (dst : Option V) (weigher : Weigher E W) (maxPaths : ℤ) :
    Except Stop (SpanningTreeResult V E W) :=
  (searchLoop fuel graph weigher dst fuel (initialState src dst weigher maxPaths)).map fun s =>
    { s.result with toDefaultResult := buildPaths s.result.toDefaultResult }

def search [DecidableEq W] (fuel : ℕ) (graph : DirectedGraph V E) (src : V) (dst : Option V)
    (weigher : Weigher E W) (maxPaths : ℤ) : Except Stop (SpanningTreeResult V E W) :=
  ((checkArguments graph src dst).mapError .exception).bind fun _ =>
    internalSearch fuel graph src dst weigher maxPaths

section Classification

def treeEdges (marks : List (E × EdgeType)) : List E :=
  (marks.filter fun m => m.2 = .treeEdge).map Prod.fst

structure IsClassified (graph : DirectedGraph V E) (src : V) (marks : List (E × EdgeType)) :
    Prop where
  once : ∀ e ∈ graph.getEdges, IsReached graph src (Edge.src e) →
    (marks.map Prod.fst).count e = 1
  only : ∀ m ∈ marks, m.1 ∈ graph.getEdges ∧ IsReached graph src (Edge.src m.1)
  tree : IsArborescence Edge.src Edge.dst src {e | e ∈ treeEdges marks} {v | IsReached graph src v}
  back : ∀ m ∈ marks, m.2 = .backEdge ↔
    IsAbove Edge.src Edge.dst (treeEdges marks) (Edge.dst m.1) (Edge.src m.1)
  forward : ∀ m ∈ marks, m.2 = .forwardEdge ↔ m.1 ∉ treeEdges marks ∧
    IsAbove Edge.src Edge.dst (treeEdges marks) (Edge.src m.1) (Edge.dst m.1) ∧
    Edge.dst m.1 ≠ Edge.src m.1
  cross : ∀ m ∈ marks, m.2 = .crossEdge ↔ m.1 ∉ treeEdges marks ∧
    ¬ IsAbove Edge.src Edge.dst (treeEdges marks) (Edge.dst m.1) (Edge.src m.1) ∧
    ¬ IsAbove Edge.src Edge.dst (treeEdges marks) (Edge.src m.1) (Edge.dst m.1)

def OneWay (graph : DirectedGraph V E) (src : V) : Prop :=
  ∀ v p q, IsPath Edge.src Edge.dst src p v → IsPath Edge.src Edge.dst src q v →
    (∀ e ∈ p, e ∈ graph.getEdges) → (∀ e ∈ q, e ∈ graph.getEdges) → p = q

abbrev started (src : V) (marks : List (E × EdgeType)) : List V :=
  src :: (treeEdges marks).map Edge.dst

def IsTyped (t : List E) (e : E) : EdgeType → Prop
  | .treeEdge => e ∈ t
  | .backEdge => IsAbove Edge.src Edge.dst t (Edge.dst e) (Edge.src e)
  | .forwardEdge =>
    IsAbove Edge.src Edge.dst t (Edge.src e) (Edge.dst e) ∧ Edge.dst e ≠ Edge.src e
  | .crossEdge => ¬ IsAbove Edge.src Edge.dst t (Edge.dst e) (Edge.src e) ∧
    ¬ IsAbove Edge.src Edge.dst t (Edge.src e) (Edge.dst e)

/-- Where no parent edge is kept, the search finds no finished vertex again. -/
structure MarksInv (graph : DirectedGraph V E) (src : V) (maxPaths : ℤ)
    (marks : List (E × EdgeType)) : Prop where
  grown : Grown Edge.src Edge.dst src (treeEdges marks)
  inside : ∀ m ∈ marks, m.1 ∈ graph.getEdges ∧ Edge.src m.1 ∈ started src marks ∧
    Edge.dst m.1 ∈ started src marks
  once : (marks.map Prod.fst).Nodup
  typed : ∀ m ∈ marks, IsTyped (treeEdges marks) m.1 m.2
  limited : DefaultResult.withinLimit maxPaths 0 = false →
    ∀ m ∈ marks, m.2 = .treeEdge ∨ m.2 = .backEdge

structure SearchInv (graph : DirectedGraph V E) (src : V) (maxPaths : ℤ)
    (s : SearchState V E W) : Prop where
  marks : MarksInv graph src maxPaths s.result.edges
  limit : s.result.maxPaths = maxPaths
  cost : ∀ v, s.result.cost v ≠ none ↔ v ∈ started src s.result.edges
  rootParent : s.result.parents.lookup src = none
  parent : ∀ e ∈ treeEdges s.result.edges, s.result.parents.lookup (Edge.dst e) =
    some (if DefaultResult.withinLimit maxPaths 0 then [e] else [])
  cover : ∀ v, v ∈ started src s.result.edges ↔ v ∈ s.stack ∨ v ∈ s.finished
  apart : ∀ v ∈ s.stack, v ∉ s.finished
  nodup : s.stack.Nodup
  line : s.stack.Pairwise fun u v => IsAbove Edge.src Edge.dst (treeEdges s.result.edges) v u
  closed : ∀ e ∈ treeEdges s.result.edges, Edge.dst e ∈ s.stack → Edge.src e ∈ s.stack
  scanned : ∀ e ∈ graph.getEdges, Edge.src e ∈ s.finished → e ∈ s.result.edges.map Prod.fst

end Classification

section Marks

variable {graph : DirectedGraph V E} {src : V} {maxPaths : ℤ} {marks : List (E × EdgeType)} {e : E}
  {type : EdgeType}

section

omit [DecidableEq E] [Edge V E]

@[simp] theorem treeEdges_tree : treeEdges ((e, .treeEdge) :: marks) = e :: treeEdges marks := by
  simp [treeEdges]

theorem treeEdges_other (htype : type ≠ .treeEdge) :
    treeEdges ((e, type) :: marks) = treeEdges marks := by
  simp [treeEdges, htype]

theorem mem_treeEdges : e ∈ treeEdges marks ↔ (e, .treeEdge) ∈ marks := by
  simp [treeEdges]

end

omit [DecidableEq V] [DecidableEq E]

theorem IsTyped.leaf {t : List E} {f : E} (h : IsTyped t e type)
    (hgrown : Grown Edge.src Edge.dst src t) (hsrc : Edge.src e ∈ src :: t.map Edge.dst)
    (hdst : Edge.dst e ∈ src :: t.map Edge.dst) (hleaf : Edge.dst f ∉ src :: t.map Edge.dst) :
    IsTyped (f :: t) e type := by
  cases type with
  | treeEdge => exact List.mem_cons_of_mem f h
  | backEdge => exact (hgrown.above_leaf hleaf hsrc).mpr h
  | forwardEdge => exact ⟨(hgrown.above_leaf hleaf hdst).mpr h.1, h.2⟩
  | crossEdge =>
    refine ⟨fun habove => h.1 ?_, fun habove => h.2 ?_⟩
    · exact (hgrown.above_leaf hleaf hsrc).mp habove
    · exact (hgrown.above_leaf hleaf hdst).mp habove

section

variable (h : MarksInv graph src maxPaths marks)

include h

theorem MarksInv.start (he : e ∈ graph.getEdges)
    (hsrc : Edge.src e ∈ started src marks) (hdst : Edge.dst e ∉ started src marks) :
    MarksInv graph src maxPaths ((e, .treeEdge) :: marks) := by
  have hsub : started src marks ⊆ started src ((e, .treeEdge) :: marks) := by
    rw [started, started, treeEdges_tree]
    exact List.cons_subset_cons src (List.subset_cons_self _ _)
  have hnew : Edge.dst e ∈ started src ((e, .treeEdge) :: marks) := by
    simp [started]
  refine ⟨?_, ?_, ?_, ?_, ?_⟩
  · rw [treeEdges_tree]
    exact h.grown.leaf hsrc hdst
  · refine List.forall_mem_cons.mpr ⟨⟨he, hsub hsrc, hnew⟩, fun m hm => ?_⟩
    obtain ⟨hgraph, hstart, hend⟩ := h.inside m hm
    exact ⟨hgraph, hsub hstart, hsub hend⟩
  · refine List.nodup_cons.mpr ⟨fun hmem => ?_, h.once⟩
    obtain ⟨m, hm, rfl⟩ := List.mem_map.mp hmem
    exact hdst (h.inside m hm).2.2
  · rw [treeEdges_tree]
    refine List.forall_mem_cons.mpr ⟨List.mem_cons_self, fun m hm => ?_⟩
    obtain ⟨-, hstart, hend⟩ := h.inside m hm
    exact (h.typed m hm).leaf h.grown hstart hend hdst
  · exact fun hlimit => List.forall_mem_cons.mpr ⟨Or.inl rfl, h.limited hlimit⟩

theorem MarksInv.mark (he : e ∈ graph.getEdges)
    (hsrc : Edge.src e ∈ started src marks) (hdst : Edge.dst e ∈ started src marks)
    (hnew : e ∉ marks.map Prod.fst) (htype : type ≠ .treeEdge)
    (htyped : IsTyped (treeEdges marks) e type)
    (hlimited : DefaultResult.withinLimit maxPaths 0 = false → type = .backEdge) :
    MarksInv graph src maxPaths ((e, type) :: marks) := by
  have htree : treeEdges ((e, type) :: marks) = treeEdges marks := treeEdges_other htype
  refine ⟨htree ▸ h.grown, ?_, List.nodup_cons.mpr ⟨hnew, h.once⟩, ?_, ?_⟩
  · rw [started, htree]
    exact List.forall_mem_cons.mpr ⟨⟨he, hsrc, hdst⟩, h.inside⟩
  · rw [htree]
    exact List.forall_mem_cons.mpr ⟨htyped, h.typed⟩
  · exact fun hlimit => List.forall_mem_cons.mpr ⟨Or.inr (hlimited hlimit), h.limited hlimit⟩

theorem MarksInv.started_subset
    (hsrc : src ∈ graph.getVertexes) : started src marks ⊆ graph.getVertexes := by
  refine List.cons_subset.mpr ⟨hsrc, fun v hv => ?_⟩
  obtain ⟨e, he, rfl⟩ := List.mem_map.mp hv
  exact graph.dst_mem e (h.inside _ (mem_treeEdges.mp he)).1

theorem MarksInv.size_lt (hsrc : src ∈ graph.getVertexes) :
    (treeEdges marks).length < graph.getVertexes.length := by
  have hle := (List.subperm_of_subset h.grown.nodup (h.started_subset hsrc)).length_le
  rw [List.length_cons, List.length_map] at hle
  omega

end

end Marks

section Steps

variable {graph : DirectedGraph V E} {src : V} {maxPaths : ℤ} {s : SearchState V E W} {e : E}
  {type : EdgeType} {v : V} {rest : List V}

section

omit [DecidableEq E] [Add W]

section

variable (h : SearchInv graph src maxPaths s)

include h

theorem SearchInv.mem_started (hv : v ∈ s.stack) :
    v ∈ started src s.result.edges := (h.cover v).mpr (Or.inl hv)

theorem SearchInv.above_top (hstack : s.stack = v :: rest) {u : V} (hu : u ∈ s.stack) :
    IsAbove Edge.src Edge.dst (treeEdges s.result.edges) u v := by
  have hline := h.line
  rw [hstack] at hline hu
  rcases List.mem_cons.mp hu with rfl | hu
  · exact reaches_start
  · exact List.rel_of_pairwise_cons hline hu

theorem SearchInv.mem_of_above {u : V} (hv : v ∈ s.stack)
    (habove : IsAbove Edge.src Edge.dst (treeEdges s.result.edges) u v) : u ∈ s.stack := by
  by_contra hu
  obtain ⟨p, hp⟩ := habove
  obtain ⟨f, hf, hsrc, hdst⟩ := hp.walk.exists_leaving (· ∉ s.stack) hu (not_not.mpr hv)
  exact hsrc (h.closed f (hp.usable f hf) (not_not.mp hdst))

theorem SearchInv.not_above {u : V} (hv : v ∈ s.stack)
    (hu : u ∈ s.finished) : ¬ IsAbove Edge.src Edge.dst (treeEdges s.result.edges) u v := by
  intro habove
  exact h.apart u (h.mem_of_above hv habove) hu

theorem SearchInv.mark (he : e ∈ graph.getEdges)
    (hsrc : Edge.src e ∈ s.stack) (hdst : Edge.dst e ∈ started src s.result.edges)
    (hnew : e ∉ s.result.edges.map Prod.fst) (htype : type ≠ .treeEdge)
    (htyped : IsTyped (treeEdges s.result.edges) e type)
    (hlimited : DefaultResult.withinLimit maxPaths 0 = false → type = .backEdge) :
    SearchInv graph src maxPaths (s.mark e type) := by
  have htree : treeEdges (s.mark e type).result.edges = treeEdges s.result.edges :=
    treeEdges_other htype
  have hstarted : started src (s.mark e type).result.edges = started src s.result.edges := by
    rw [started, htree]
  refine ⟨?_, h.limit, ?_, h.rootParent, ?_, ?_, h.apart, h.nodup, ?_, ?_, ?_⟩
  · exact h.marks.mark he (h.mem_started hsrc) hdst hnew htype htyped hlimited
  · exact hstarted ▸ h.cost
  · exact htree ▸ h.parent
  · exact hstarted ▸ h.cover
  · exact htree ▸ h.line
  · exact htree ▸ h.closed
  · intro f hf hfinished
    exact List.mem_cons_of_mem e (h.scanned f hf hfinished)

end

end

omit [Add W] in
theorem SearchInv.start (h : SearchInv graph src maxPaths s) (he : e ∈ graph.getEdges)
    (hstack : s.stack = Edge.src e :: rest) (hdst : Edge.dst e ∉ started src s.result.edges)
    (c : W) : SearchInv graph src maxPaths (s.start e c) := by
  have hsrc : Edge.src e ∈ s.stack := hstack ▸ List.mem_cons_self
  have hmarks := h.marks.start he (h.mem_started hsrc) hdst
  have htree : treeEdges (s.start e c).result.edges = e :: treeEdges s.result.edges :=
    treeEdges_tree
  have hstarted : ∀ v, v ∈ started src (s.start e c).result.edges ↔
      v = Edge.dst e ∨ v ∈ started src s.result.edges := by
    intro v
    rw [started, htree, List.map_cons, List.mem_cons, List.mem_cons, started, List.mem_cons]
    tauto
  have hfresh : Edge.dst e ∉ s.stack := fun hmem => hdst (h.mem_started hmem)
  have habove : ∀ u v, v ∈ s.stack →
      IsAbove Edge.src Edge.dst (treeEdges s.result.edges) u v →
      IsAbove Edge.src Edge.dst (e :: treeEdges s.result.edges) u v :=
    fun u v hv huv => (h.marks.grown.above_leaf hdst (h.mem_started hv)).mpr huv
  refine ⟨hmarks, h.limit, ?_, ?_, ?_, ?_, ?_, ?_, ?_, ?_, ?_⟩
  · intro v
    rw [hstarted, ← h.cost]
    exact BreadthFirstSearch.cost_update
  · have hne : src ≠ Edge.dst e := fun heq => hdst (heq ▸ List.mem_cons_self)
    change (s.result.parents.insert (Edge.dst e) _).lookup src = none
    rw [lookup_insert, if_neg hne, h.rootParent]
  · rw [htree]
    intro f hf
    change (s.result.parents.insert (Edge.dst e) _).lookup (Edge.dst f) = _
    rw [lookup_insert]
    rcases List.mem_cons.mp hf with rfl | hf
    · rw [if_pos rfl, h.limit]
      rfl
    · have hne : Edge.dst f ≠ Edge.dst e := by
        intro heq
        exact hdst (heq ▸ List.mem_cons_of_mem src (List.mem_map_of_mem hf))
      rw [if_neg hne, h.parent f hf]
  · intro v
    rw [hstarted, h.cover]
    change _ ↔ v ∈ Edge.dst e :: s.stack ∨ v ∈ s.finished
    rw [List.mem_cons, or_assoc]
  · refine List.forall_mem_cons.mpr ⟨fun hmem => ?_, h.apart⟩
    exact hdst ((h.cover _).mpr (Or.inr hmem))
  · exact List.nodup_cons.mpr ⟨hfresh, h.nodup⟩
  · rw [htree]
    refine List.pairwise_cons.mpr ⟨fun u hu => ?_, ?_⟩
    · exact (habove u _ hsrc (h.above_top hstack hu)).next List.mem_cons_self
    · exact h.line.imp_of_mem fun hu hv huv => habove _ _ hu huv
  · rw [htree]
    refine List.forall_mem_cons.mpr ⟨fun _ => List.mem_cons_of_mem _ hsrc, fun f hf hmem => ?_⟩
    rcases List.mem_cons.mp hmem with heq | hmem
    · exact absurd (heq ▸ List.mem_cons_of_mem src (List.mem_map_of_mem hf)) hdst
    · exact List.mem_cons_of_mem _ (h.closed f hf hmem)
  · intro f hf hfinished
    exact List.mem_cons_of_mem _ (h.scanned f hf hfinished)

omit [DecidableEq E] [Add W] in
theorem SearchInv.finish (h : SearchInv graph src maxPaths s) (hstack : s.stack = v :: rest)
    (hscanned : ∀ e ∈ graph.getEdges, Edge.src e = v → e ∈ s.result.edges.map Prod.fst) :
    SearchInv graph src maxPaths (s.finish v) := by
  have htail : (s.finish v).stack = rest := by
    rw [SearchState.finish, hstack, List.tail_cons]
  have hnodup := h.nodup
  have hline := h.line
  rw [hstack] at hnodup hline
  have hrest : ∀ u ∈ rest, u ∈ s.stack := fun u hu => hstack ▸ List.mem_cons_of_mem v hu
  have hv : v ∉ rest := (List.nodup_cons.mp hnodup).1
  refine ⟨h.marks, h.limit, h.cost, h.rootParent, h.parent, ?_, ?_, ?_, ?_, ?_, ?_⟩
  · intro u
    rw [htail]
    change u ∈ started src s.result.edges ↔ u ∈ rest ∨ u ∈ s.finished.insert v
    rw [h.cover, hstack, List.mem_insert_iff, List.mem_cons]
    tauto
  · rw [htail]
    intro u hu hfinished
    rcases List.mem_insert_iff.mp hfinished with rfl | hfinished
    · exact hv hu
    · exact h.apart u (hrest u hu) hfinished
  · exact htail ▸ hnodup.of_cons
  · exact htail ▸ hline.of_cons
  · rw [htail]
    intro e he hdst
    have hsrc := h.closed e he (hrest _ hdst)
    rw [hstack] at hsrc
    rcases List.mem_cons.mp hsrc with heq | hsrc
    · -- the end of the edge would be above its start
      have habove := h.above_top hstack (hrest _ hdst)
      exact absurd (heq ▸ habove) (h.marks.grown.not_above_src he)
    · exact hsrc
  · intro e he hfinished
    rcases List.mem_insert_iff.mp hfinished with heq | hfinished
    · exact hscanned e he heq
    · exact h.scanned e he hfinished

end Steps

section Following

variable {graph : DirectedGraph V E} {src : V} {maxPaths : ℤ} {s : SearchState V E W} {e : E}
  {target v : V} {fuel : ℕ}

section

omit [DecidableEq E] [Add W]

section

variable (h : SearchInv graph src maxPaths s)

include h

theorem SearchInv.follow (hlimit : DefaultResult.withinLimit maxPaths 0 = true) {p : List E}
    (hp : Leads Edge.src Edge.dst (· ∈ treeEdges s.result.edges) src p v) :
    Ensures (isForwardLoop s.result.parents target fuel v)
      (fun forward => forward = true ↔
        IsAbove Edge.src Edge.dst (treeEdges s.result.edges) target v ∧ v ≠ target)
      (fun _ => fuel ≤ p.length) := by
  induction p using List.reverseRecOn generalizing v fuel with
  | nil =>
    obtain rfl := leads_nil_iff.mp hp
    cases fuel with
    | zero => exact ensures_error (Nat.zero_le _)
    | succ fuel =>
      rw [isForwardLoop, h.rootParent]
      refine ensures_ok (iff_of_false Bool.false_ne_true ?_)
      rintro ⟨habove, hne⟩
      exact hne (h.marks.grown.above_root_iff.mp habove).symm
  | append_singleton p e ih =>
    obtain ⟨hwalk, he, rfl⟩ := leads_concat_iff.mp hp
    have hback := h.marks.grown.not_above_src he
    cases fuel with
    | zero => exact ensures_error (Nat.zero_le _)
    | succ fuel =>
      rw [isForwardLoop, h.parent e he, if_pos hlimit]
      dsimp only [followParents]
      by_cases htarget : Edge.src e = target
      · rw [if_pos htarget]
        subst htarget
        refine ensures_ok (iff_of_true rfl ⟨reaches_start.next he, fun heq => ?_⟩)
        exact hback (heq ▸ reaches_start)
      · rw [if_neg htarget]
        refine ⟨fun hok => ?_, fun herror => ?_⟩
        · rw [(ih hwalk).ok hok, h.marks.grown.above_dst he]
          constructor
          · rintro ⟨habove, -⟩
            exact ⟨Or.inr habove, fun heq => hback (heq ▸ habove)⟩
          · rintro ⟨rfl | habove, hne⟩
            · exact absurd rfl hne
            · exact ⟨habove, htarget⟩
        · have hle := (ih hwalk).error herror
          rw [List.length_append]
          exact Nat.succ_le_succ hle

theorem SearchInv.follow_forever (hlimit : DefaultResult.withinLimit maxPaths 0 = false)
    (hv : v ∈ started src s.result.edges) (hne : v ≠ src) :
    isForwardLoop s.result.parents target fuel v = .error .outOfFuel := by
  obtain ⟨e, he, rfl⟩ := List.mem_map.mp ((List.mem_cons.mp hv).resolve_left hne)
  induction fuel with
  | zero => rfl
  | succ fuel ih =>
    rw [isForwardLoop, h.parent e he, hlimit]
    exact ih

theorem SearchInv.isForwardEdge_spec
    (hgraph : src ∈ graph.getVertexes) (hsrc : Edge.src e ∈ s.stack)
    (hdst : Edge.dst e ∈ s.finished) :
    Ensures (isForwardEdge fuel s.result.toDefaultResult e)
      (fun forward => DefaultResult.withinLimit maxPaths 0 = true ∧ (forward = true ↔
        IsAbove Edge.src Edge.dst (treeEdges s.result.edges) (Edge.src e) (Edge.dst e) ∧
          Edge.dst e ≠ Edge.src e))
      (fun _ => graph.getVertexes.length ≤ fuel →
        DefaultResult.withinLimit maxPaths 0 = false) := by
  have hstarted := (h.cover _).mpr (Or.inr hdst)
  cases hlimit : DefaultResult.withinLimit maxPaths 0 with
  | true =>
    obtain ⟨p, hp⟩ := h.marks.grown.above_root hstarted
    refine ⟨fun hok => ⟨rfl, (h.follow hlimit hp).ok hok⟩, fun herror hfuel => ?_⟩
    have hle := (h.follow hlimit hp).error herror
    have hlength := h.marks.grown.length_le hp
    have hsize := h.marks.size_lt hgraph
    omega
  | false =>
    have hne : Edge.dst e ≠ src := by
      intro heq
      have hroot := h.marks.grown.above_root (h.mem_started hsrc)
      exact h.not_above hsrc hdst (heq ▸ hroot)
    rw [isForwardEdge, h.follow_forever hlimit hstarted hne]
    exact ensures_error fun _ => rfl

end

end

omit [DecidableEq V] [DecidableEq E] in
theorem MarksInv.subset {marks : List (E × EdgeType)} (h : MarksInv graph src maxPaths marks) :
    ∀ e ∈ treeEdges marks, e ∈ graph.getEdges :=
  fun _ he => (h.inside _ (mem_treeEdges.mp he)).1

omit [DecidableEq E] [Add W] in
theorem SearchInv.not_oneWay (h : SearchInv graph src maxPaths s) (he : e ∈ graph.getEdges)
    (hsrc : Edge.src e ∈ s.stack) (hdst : Edge.dst e ∈ s.finished)
    (hnew : e ∉ s.result.edges.map Prod.fst) : ¬ OneWay graph src := by
  intro honeWay
  have hgrown := h.marks.grown
  obtain ⟨p, hp⟩ := hgrown.above_root (h.mem_started hsrc)
  obtain ⟨q, hq⟩ := hgrown.above_root ((h.cover _).mpr (Or.inr hdst))
  have hsimple : IsSimple Edge.dst src (p ++ [e]) := by
    rw [IsSimple, List.map_append, ← List.cons_append]
    refine (hgrown.simple hp).append (List.nodup_singleton _) fun v hv hmem => ?_
    obtain rfl := List.mem_singleton.mp hmem
    exact h.not_above hsrc hdst (above_of_mem_walk hp hv)
  have hpath : ∀ f ∈ p ++ [e], f ∈ graph.getEdges := by
    intro f hf
    rcases List.mem_append.mp hf with hf | hf
    · exact h.marks.subset f (hp.usable f hf)
    · exact List.mem_singleton.mp hf ▸ he
  have heq := honeWay (Edge.dst e) (p ++ [e]) q ⟨isWalk_concat.mpr ⟨hp.walk, rfl⟩, hsimple⟩
    ⟨hq.walk, hgrown.simple hq⟩ hpath fun f hf => h.marks.subset f (hq.usable f hf)
  have hmem : e ∈ treeEdges s.result.edges :=
    hq.usable e (heq ▸ List.mem_append_right p List.mem_cons_self)
  exact hnew (List.mem_map_of_mem (mem_treeEdges.mp hmem))

end Following

section Visiting

variable {graph : DirectedGraph V E} {src : V} {maxPaths : ℤ} {s : SearchState V E W}
  {weigher : Weigher E W} {fuel : ℕ}

structure Scans (edges : List E) (s s' : SearchState V E W) : Prop where
  stack : s'.stack = s.stack
  tree : treeEdges s'.result.edges = treeEdges s.result.edges
  kept : s.result.edges ⊆ s'.result.edges
  marked : ∀ e ∈ edges, e ∈ s'.result.edges.map Prod.fst

structure GoesOn (s s' : SearchState V E W) : Prop where
  stack : s'.stack.length = s.stack.length + 1
  tree : (treeEdges s'.result.edges).length = (treeEdges s.result.edges).length + 1

/-- The search stops without a result only if it keeps no parent edge and finds a vertex again. -/
abbrev Diverges (graph : DirectedGraph V E) (src : V) (maxPaths : ℤ) : Prop :=
  DefaultResult.withinLimit maxPaths 0 = false ∧ ¬ OneWay graph src

structure Visited (graph : DirectedGraph V E) (src : V) (maxPaths : ℤ) (edges : List E)
    (s : SearchState V E W) (r : SearchState V E W × Bool) : Prop where
  inv : SearchInv graph src maxPaths r.1
  goesOn : r.2 = true → GoesOn s r.1
  scans : r.2 = false → Scans edges s r.1

section Edges

variable {edges : List E} {r : SearchState V E W × Bool} {e : E} {type : EdgeType}

section

omit [DecidableEq E] [Add W]

theorem Visited.skip (he : e ∈ s.result.edges.map Prod.fst)
    (h : Visited graph src maxPaths edges s r) : Visited graph src maxPaths (e :: edges) s r := by
  refine ⟨h.inv, h.goesOn, fun hfalse => ?_⟩
  obtain ⟨hstack, htree, hkept, hmarked⟩ := h.scans hfalse
  exact ⟨hstack, htree, hkept,
    List.forall_mem_cons.mpr ⟨List.map_subset Prod.fst hkept he, hmarked⟩⟩

theorem Visited.mark (htype : type ≠ .treeEdge)
    (h : Visited graph src maxPaths edges (s.mark e type) r) :
    Visited graph src maxPaths (e :: edges) s r := by
  have htree : treeEdges (s.mark e type).result.edges = treeEdges s.result.edges :=
    treeEdges_other htype
  refine ⟨h.inv, fun htrue => ?_, fun hfalse => ?_⟩
  · obtain ⟨hstack, hlength⟩ := h.goesOn htrue
    exact ⟨hstack, htree ▸ hlength⟩
  · obtain ⟨hstack, hsame, hkept, hmarked⟩ := h.scans hfalse
    exact ⟨hstack, hsame.trans htree, List.Subset.trans (List.subset_cons_self _ _) hkept,
      List.forall_mem_cons.mpr ⟨List.map_subset Prod.fst hkept List.mem_cons_self, hmarked⟩⟩

end

omit [Add W] in
theorem SearchInv.visited_start {rest : List V} (h : SearchInv graph src maxPaths s)
    (he : e ∈ graph.getEdges) (hstack : s.stack = Edge.src e :: rest)
    (hdst : Edge.dst e ∉ started src s.result.edges) (c : W) :
    Visited graph src maxPaths edges s (s.start e c, true) where
  inv := h.start he hstack hdst c
  goesOn _ := ⟨rfl, by
    change (treeEdges ((e, .treeEdge) :: s.result.edges)).length = _
    rw [treeEdges_tree, List.length_cons]⟩
  scans hfalse := by cases hfalse

omit [DecidableEq E] [Add W] in
theorem SearchInv.mark_finished (h : SearchInv graph src maxPaths s)
    (hgraph : src ∈ graph.getVertexes) (he : e ∈ graph.getEdges) (hsrc : Edge.src e ∈ s.stack)
    (hdst : Edge.dst e ∈ s.finished) (hnew : e ∉ s.result.edges.map Prod.fst) {forward : Bool}
    (hok : isForwardEdge fuel s.result.toDefaultResult e = .ok forward) :
    SearchInv graph src maxPaths
      (s.mark e (if forward then .forwardEdge else .crossEdge)) := by
  obtain ⟨hlimit, hforward⟩ := (h.isForwardEdge_spec hgraph hsrc hdst).ok hok
  have hback := h.not_above hsrc hdst
  have hstarted := (h.cover _).mpr (Or.inr hdst)
  refine h.mark he hsrc hstarted hnew ?_ ?_ fun hfalse => ?_
  · cases forward <;> decide
  · cases forward with
    | true => exact hforward.mp rfl
    | false =>
      refine ⟨hback, fun habove => Bool.false_ne_true (hforward.mpr ⟨habove, fun heq => ?_⟩)⟩
      exact hback (heq ▸ reaches_start)
  · rw [hlimit] at hfalse
    cases hfalse

theorem visitEdges_spec {u : V} {rest : List V} {a : W} (hgraph : src ∈ graph.getVertexes)
    (hedges : ∀ e ∈ edges, e ∈ graph.getEdges ∧ Edge.src e = u)
    (h : SearchInv graph src maxPaths s) (hstack : s.stack = u :: rest) :
    Ensures (visitEdges fuel weigher (some a) edges s) (Visited graph src maxPaths edges s)
      (fun _ => graph.getVertexes.length ≤ fuel → Diverges graph src maxPaths) := by
  induction edges generalizing s with
  | nil =>
    refine ensures_ok ⟨h, fun htrue => (by cases htrue), fun _ => ⟨rfl, rfl, ?_, ?_⟩⟩
    · exact List.Subset.refl _
    · exact fun e he => absurd he List.not_mem_nil
  | cons e edges ih =>
    obtain ⟨⟨he, rfl⟩, hedges⟩ := List.forall_mem_cons.mp hedges
    have hsrc : Edge.src e ∈ s.stack := hstack ▸ List.mem_cons_self
    rw [visitEdges]
    by_cases hmarked : e ∈ s.result.edges.map Prod.fst
    · rw [if_pos (by simpa [SpanningTreeResult.isEdgeMarked] using hmarked)]
      have hrest := ih hedges h hstack
      exact ⟨fun hok => (hrest.ok hok).skip hmarked, hrest.error⟩
    rw [if_neg (by simpa [SpanningTreeResult.isEdgeMarked] using hmarked)]
    -- the scan goes on after a mark of another type
    have hnext : ∀ type, type ≠ .treeEdge → SearchInv graph src maxPaths (s.mark e type) →
        Ensures (visitEdges fuel weigher (some a) edges (s.mark e type))
          (Visited graph src maxPaths (e :: edges) s)
          (fun _ => graph.getVertexes.length ≤ fuel → Diverges graph src maxPaths) := by
      intro type htype hinv
      have hrest := ih hedges hinv hstack
      exact ⟨fun hok => (hrest.ok hok).mark htype, hrest.error⟩
    by_cases hnew : s.result.cost (Edge.dst e) = none
    · rw [if_pos (by rw [hnew]; rfl)]
      refine ensures_ok (h.visited_start he hstack (fun hmem => ?_) _)
      exact (h.cost _).mpr hmem hnew
    · rw [if_neg (by simpa using hnew)]
      have hdst := (h.cost _).mp hnew
      by_cases hfinished : Edge.dst e ∈ s.finished
      · rw [if_neg (not_not.mpr hfinished)]
        refine Ensures.bind_of (fun stop herror hfuel => ?_) fun forward hok => ?_
        · have hlimit := (h.isForwardEdge_spec hgraph hsrc hfinished).error herror hfuel
          exact ⟨hlimit, h.not_oneWay he hsrc hfinished hmarked⟩
        · refine hnext _ ?_ (h.mark_finished hgraph he hsrc hfinished hmarked hok)
          cases forward <;> decide
      · rw [if_pos hfinished]
        have hopen := ((h.cover _).mp hdst).resolve_right hfinished
        refine hnext .backEdge (by decide) (h.mark he hsrc hdst hmarked (by decide) ?_ ?_)
        · exact h.above_top hstack hopen
        · exact fun _ => rfl

end Edges

theorem searchLoop_spec (hgraph : src ∈ graph.getVertexes) (n : ℕ)
    (h : SearchInv graph src maxPaths s) :
    Ensures (searchLoop fuel graph weigher none n s)
      (fun s' => SearchInv graph src maxPaths s' ∧ s'.stack = [])
      (fun _ => graph.getVertexes.length ≤ fuel →
        2 * (graph.getVertexes.length - (treeEdges s.result.edges).length) + s.stack.length < n →
        Diverges graph src maxPaths) := by
  induction n generalizing s with
  | zero => exact ensures_error fun _ hlt => absurd hlt (Nat.not_lt_zero _)
  | succ n ih =>
    rw [searchLoop]
    cases hstack : s.stack with
    | nil => exact ensures_ok ⟨h, hstack⟩
    | cons u rest =>
      have hu : u ∈ s.stack := hstack ▸ List.mem_cons_self
      obtain ⟨a, ha⟩ := Option.ne_none_iff_exists'.mp ((h.cost u).mpr (h.mem_started hu))
      have hvisit : Ensures (visitEdges fuel weigher (some a) (graph.getEdgesFrom u) s)
          (Visited graph src maxPaths (graph.getEdgesFrom u) s)
          (fun _ => graph.getVertexes.length ≤ fuel → Diverges graph src maxPaths) :=
        visitEdges_spec hgraph (fun e he => (graph.mem_edgesFrom u e).mp he) h hstack
      dsimp only
      rw [if_neg (Option.some_ne_none u), ha]
      refine Ensures.bind_of (fun stop herror hfuel _ => hvisit.error herror hfuel) fun r hok => ?_
      obtain ⟨hinv, hgoes, hscans⟩ := hvisit.ok hok
      cases htangent : r.2 with
      | true =>
        obtain ⟨hlength, htree⟩ := hgoes htangent
        have hrest := ih hinv
        refine ⟨hrest.ok, fun herror hfuel hn => hrest.error herror hfuel ?_⟩
        have hsize := hinv.marks.size_lt hgraph
        rw [hstack, List.length_cons] at hlength
        rw [List.length_cons] at hn
        omega
      | false =>
        obtain ⟨hsame, htree, -, hmarked⟩ := hscans htangent
        have hfinish := hinv.finish (hsame.trans hstack) fun e he hsrc =>
          hmarked e ((graph.mem_edgesFrom u e).mpr ⟨he, hsrc⟩)
        have hrest := ih hfinish
        refine ⟨hrest.ok, fun herror hfuel hn => hrest.error herror hfuel ?_⟩
        change 2 * (_ - (treeEdges r.1.result.edges).length) + r.1.stack.tail.length < n
        rw [htree, hsame, hstack, List.tail_cons]
        rw [List.length_cons] at hn
        omega

omit [Add W] in
theorem searchInv_initial (dst : Option V) (weigher : Weigher E W) :
    SearchInv graph src maxPaths (initialState src dst weigher maxPaths) := by
  refine ⟨⟨Grown.root, ?_, List.nodup_nil, ?_, ?_⟩, rfl, ?_, rfl, ?_, ?_, ?_, ?_, ?_, ?_, ?_⟩
  · exact fun m hm => absurd hm List.not_mem_nil
  · exact fun m hm => absurd hm List.not_mem_nil
  · exact fun _ m hm => absurd hm List.not_mem_nil
  · intro v
    change ((∅ : Table V W).insert src weigher.getInitialWeight).lookup v ≠ none ↔ v ∈ [src]
    rw [lookup_insert, List.mem_singleton]
    split_ifs with heq
    · exact iff_of_true (Option.some_ne_none _) heq
    · exact iff_of_false (not_not.mpr rfl) heq
  · exact fun e he => absurd he List.not_mem_nil
  · intro v
    exact (or_iff_left List.not_mem_nil).symm
  · exact fun v _ => List.not_mem_nil
  · exact List.nodup_singleton src
  · exact List.pairwise_singleton _ src
  · exact fun e he => absurd he List.not_mem_nil
  · exact fun e _ he => absurd he List.not_mem_nil

end Visiting

section Results

variable {graph : DirectedGraph V E} {src : V} {maxPaths : ℤ} {s : SearchState V E W}
  {marks : List (E × EdgeType)} {m : E × EdgeType}

section

omit [DecidableEq V] [DecidableEq E]

theorem MarksInv.mem_tree (h : MarksInv graph src maxPaths marks) (hm : m ∈ marks) :
    m.2 = .treeEdge ↔ m.1 ∈ treeEdges marks := by
  rw [mem_treeEdges]
  refine ⟨fun htype => htype ▸ hm, fun htree => ?_⟩
  rw [List.inj_on_of_nodup_map h.once hm htree rfl]

theorem MarksInv.types (h : MarksInv graph src maxPaths marks) (hm : m ∈ marks) : (m.2 = .backEdge ↔
      IsAbove Edge.src Edge.dst (treeEdges marks) (Edge.dst m.1) (Edge.src m.1)) ∧
    (m.2 = .forwardEdge ↔ m.1 ∉ treeEdges marks ∧
      IsAbove Edge.src Edge.dst (treeEdges marks) (Edge.src m.1) (Edge.dst m.1) ∧
      Edge.dst m.1 ≠ Edge.src m.1) ∧
    (m.2 = .crossEdge ↔ m.1 ∉ treeEdges marks ∧
      ¬ IsAbove Edge.src Edge.dst (treeEdges marks) (Edge.dst m.1) (Edge.src m.1) ∧
      ¬ IsAbove Edge.src Edge.dst (treeEdges marks) (Edge.src m.1) (Edge.dst m.1)) := by
  have htyped := h.typed m hm
  have hsrc := (h.inside m hm).2.1
  rw [← h.mem_tree hm]
  cases htype : m.2 with
  | treeEdge =>
    rw [htype] at htyped
    have hback := h.grown.not_above_src htyped
    simp [hback]
  | backEdge =>
    rw [htype] at htyped
    have hback : IsAbove Edge.src Edge.dst (treeEdges marks) (Edge.dst m.1) (Edge.src m.1) := htyped
    have hforward : IsAbove Edge.src Edge.dst (treeEdges marks) (Edge.src m.1) (Edge.dst m.1) →
        Edge.dst m.1 = Edge.src m.1 :=
      fun habove => (h.grown.above_antisymm hsrc habove hback).symm
    simpa [hback] using hforward
  | forwardEdge =>
    rw [htype] at htyped
    have hback : ¬ IsAbove Edge.src Edge.dst (treeEdges marks) (Edge.dst m.1) (Edge.src m.1) :=
      fun hback => htyped.2 (h.grown.above_antisymm hsrc htyped.1 hback).symm
    simp [hback, htyped.1, htyped.2]
  | crossEdge =>
    rw [htype] at htyped
    simp [htyped.1, htyped.2]

end

section

omit [DecidableEq E] [Add W]

theorem SearchInv.marked (h : SearchInv graph src maxPaths s) (hstack : s.stack = []) {e : E}
    (he : e ∈ graph.getEdges) (hsrc : Edge.src e ∈ started src s.result.edges) :
    ∃ type, (e, type) ∈ s.result.edges := by
  have hfinished := ((h.cover _).mp hsrc).resolve_left (hstack ▸ List.not_mem_nil)
  obtain ⟨m, hm, rfl⟩ := List.mem_map.mp (h.scanned e he hfinished)
  exact ⟨m.2, hm⟩

theorem SearchInv.started_iff (h : SearchInv graph src maxPaths s) (hstack : s.stack = []) (v : V) :
    v ∈ started src s.result.edges ↔ IsReached graph src v := by
  constructor
  · exact fun hv => (h.marks.grown.above_root hv).mono h.marks.subset
  · rintro ⟨p, hp⟩
    by_contra hv
    obtain ⟨e, he, hsrc, hdst⟩ :=
      hp.walk.exists_leaving (· ∈ started src s.result.edges) List.mem_cons_self hv
    obtain ⟨type, hm⟩ := h.marked hstack (hp.usable e he) hsrc
    exact hdst (h.marks.inside _ hm).2.2

end

omit [Add W] in
theorem SearchInv.isClassified (h : SearchInv graph src maxPaths s) (hstack : s.stack = []) :
    IsClassified graph src s.result.edges where
  once e he hreached := by
    obtain ⟨type, hm⟩ := h.marked hstack he ((h.started_iff hstack _).mpr hreached)
    exact List.count_eq_one_of_mem h.marks.once (List.mem_map_of_mem hm)
  only m hm := by
    obtain ⟨he, hsrc, -⟩ := h.marks.inside m hm
    exact ⟨he, (h.started_iff hstack _).mp hsrc⟩
  tree := by
    have htree := h.marks.grown.isArborescence
    have hset : {v | v ∈ started src s.result.edges} = {v | IsReached graph src v} :=
      Set.ext (h.started_iff hstack)
    exact hset ▸ htree
  back m hm := (h.marks.types hm).1
  forward m hm := (h.marks.types hm).2.1
  cross m hm := (h.marks.types hm).2.2

section

omit [DecidableEq E] [Add W]

theorem SearchInv.path_in_tree (h : SearchInv graph src maxPaths s) (hstack : s.stack = [])
    (hlimit : DefaultResult.withinLimit maxPaths 0 = false) {p : List E} {v : V}
    (hp : IsPath Edge.src Edge.dst src p v) (hgraph : ∀ e ∈ p, e ∈ graph.getEdges) :
    Leads Edge.src Edge.dst (· ∈ treeEdges s.result.edges) src p v := by
  induction p using List.reverseRecOn generalizing v with
  | nil => exact leads_nil_iff.mpr hp.walk
  | append_singleton p e ih =>
    obtain ⟨hwalk, rfl⟩ := isWalk_concat.mp hp.walk
    have hsimple := hp.simple
    rw [IsSimple, List.map_append, ← List.cons_append] at hsimple
    have hleads := ih ⟨hwalk, hsimple.of_append_left⟩ fun f hf =>
      hgraph f (List.mem_append_left _ hf)
    have he := hgraph e (List.mem_append_right p List.mem_cons_self)
    have hsrc := GrownTree.mem_of_above List.mem_cons_self ⟨p, hleads⟩
    obtain ⟨type, hm⟩ := h.marked hstack he hsrc
    rcases h.marks.limited hlimit _ hm with htype | htype
    · exact hleads.concat ((h.marks.mem_tree hm).mp htype)
    · -- the end of an edge that leads back is on the path already
      have hback := ((h.marks.types hm).1).mp htype
      have hmem := h.marks.grown.mem_walk_of_above hleads (h.marks.inside _ hm).2.2 hback
      exact absurd rfl ((List.nodup_append.mp hsimple).2.2 _ hmem _ List.mem_cons_self)

theorem SearchInv.oneWay (h : SearchInv graph src maxPaths s) (hstack : s.stack = [])
    (hlimit : DefaultResult.withinLimit maxPaths 0 = false) : OneWay graph src := by
  intro v p q hp hq hpGraph hqGraph
  have hpTree := h.path_in_tree hstack hlimit hp hpGraph
  exact h.marks.grown.leads_unique hpTree (h.path_in_tree hstack hlimit hq hqGraph)

end

variable [DecidableEq W] {weigher : Weigher E W} {fuel : ℕ} {result : SpanningTreeResult V E W}

theorem search_eq_ok (hgraph : src ∈ graph.getVertexes) :
    search fuel graph src none weigher maxPaths = .ok result ↔
      ∃ s, searchLoop fuel graph weigher none fuel (initialState src none weigher maxPaths) =
          .ok s ∧
        { s.result with toDefaultResult := buildPaths s.result.toDefaultResult } = result := by
  have hcheck : checkArguments graph src none = .ok () := if_neg (not_not.mpr hgraph)
  rw [search, hcheck]
  exact map_eq_ok

theorem oneWay_of_search (hgraph : src ∈ graph.getVertexes)
    (hlimit : DefaultResult.withinLimit maxPaths 0 = false)
    (h : search fuel graph src none weigher maxPaths = .ok result) : OneWay graph src := by
  obtain ⟨s, hloop, -⟩ := (search_eq_ok hgraph).mp h
  obtain ⟨hinv, hstack⟩ := (searchLoop_spec hgraph fuel (searchInv_initial none weigher)).ok hloop
  exact hinv.oneWay hstack hlimit

theorem withinLimit_iff : DefaultResult.withinLimit maxPaths 0 = true ↔
    maxPaths = ALL_PATHS ∨ 1 ≤ maxPaths := by
  rw [DefaultResult.withinLimit, decide_eq_true_iff]
  exact or_congr_right (by rw [Nat.cast_zero, Int.lt_iff_add_one_le, zero_add])

/-- A search with an unlimited or positive number of paths always ends, and its types are right.
With another limit it does so if and only if there are no two ways to a vertex. -/
theorem search_classifies_iff (graph : DirectedGraph V E) (src : V)
    (hgraph : src ∈ graph.getVertexes) (weigher : Weigher E W) (maxPaths : ℤ) :
    (∃ fuel result, search fuel graph src none weigher maxPaths = .ok result ∧
      IsClassified graph src result.edges) ↔
    maxPaths = ALL_PATHS ∨ 1 ≤ maxPaths ∨ OneWay graph src := by
  rw [← or_assoc, ← withinLimit_iff]
  constructor
  · rintro ⟨fuel, result, hok, -⟩
    cases hlimit : DefaultResult.withinLimit maxPaths 0 with
    | true => exact Or.inl rfl
    | false => exact Or.inr (oneWay_of_search hgraph hlimit hok)
  · intro hends
    -- enough for the rounds of the search and of each walk back
    obtain ⟨fuel, hfuel⟩ : ∃ fuel, fuel = 2 * graph.getVertexes.length + 2 := ⟨_, rfl⟩
    have hinitial : SearchInv graph src maxPaths (initialState src none weigher maxPaths) :=
      searchInv_initial none weigher
    cases hloop : searchLoop fuel graph weigher none fuel
        (initialState src none weigher maxPaths) with
    | ok s =>
      obtain ⟨hinv, hstack⟩ := (searchLoop_spec hgraph fuel hinitial).ok hloop
      exact ⟨fuel, _, (search_eq_ok hgraph).mpr ⟨s, hloop, rfl⟩, hinv.isClassified hstack⟩
    | error stop =>
      have hrounds : 2 * (graph.getVertexes.length - 0) + 1 < fuel := by omega
      obtain ⟨hlimit, hways⟩ :=
        (searchLoop_spec hgraph fuel hinitial).error hloop (by omega) hrounds
      rcases hends with htrue | honeWay
      · rw [hlimit] at htrue
        cases htrue
      · exact absurd honeWay hways

def shortcut : DirectedGraph ℕ TestEdge :=
  adjacencyListsGraph [0, 1, 2] [⟨0, 1, 1⟩, ⟨1, 2, 1⟩, ⟨0, 2, 1⟩]

def shortcutWeigher : Weigher TestEdge ℤ := ⟨TestEdge.weight, 0⟩

theorem search_classifies_shortcut :
    ∃ fuel result, search fuel shortcut 0 none shortcutWeigher 1 = .ok result ∧
      IsClassified shortcut 0 result.edges :=
  (search_classifies_iff shortcut 0 (by decide) shortcutWeigher 1).mpr (Or.inr (Or.inl le_rfl))

example : (search 8 shortcut 0 none shortcutWeigher 1).map (fun r => r.edges) =
    .ok [(⟨0, 2, 1⟩, .forwardEdge), (⟨1, 2, 1⟩, .treeEdge), (⟨0, 1, 1⟩, .treeEdge)] := by
  decide

/-- With a limit of no paths the search runs for ever. -/
theorem search_shortcut_diverges :
    ¬ ∃ fuel result, search fuel shortcut 0 none shortcutWeigher 0 = .ok result ∧
      IsClassified shortcut 0 result.edges := by
  rintro ⟨fuel, result, hok, -⟩
  have honeWay := oneWay_of_search (by decide) (by decide) hok
  have heq := honeWay 2 [⟨0, 1, 1⟩, ⟨1, 2, 1⟩] [⟨0, 2, 1⟩] (by decide) (by decide) (by decide)
    (by decide)
  cases heq

end Results

end DepthFirstSearch

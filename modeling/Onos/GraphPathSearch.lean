import Onos.Lib.KeyedMap
import Onos.Lib.ShortestPaths
import Mathlib.Data.List.Dedup

/-! Searches for paths in a graph: what a search remembers about the vertices, how an edge is
relaxed, and how the paths are read off afterwards. Sets are lists without order; weights are
exact, and a weight that is not viable is `none`. -/
namespace GraphPathSearch

open KeyedMap DirectedWalk ShortestPaths

universe u v

class Edge (V : outParam (Type u)) (E : Type v) where
  src : E → V
  dst : E → V

open Edge

/-- An edge that knows its weight, and is told apart from its parallel ones by it. -/
structure TestEdge where
  src : ℕ
  dst : ℕ
  weight : ℤ
  deriving DecidableEq, Repr

instance : Edge ℕ TestEdge where
  src := TestEdge.src
  dst := TestEdge.dst

/-- The view of a graph through its four methods. Both ends of an edge are vertexes. -/
structure DirectedGraph (V : Type u) (E : Type v) [Edge V E] where
  getVertexes : List V
  getEdges : List E
  getEdgesFrom : V → List E
  getEdgesTo : V → List E
  nodup_vertexes : getVertexes.Nodup
  nodup_edges : getEdges.Nodup
  src_mem : ∀ e ∈ getEdges, src e ∈ getVertexes
  dst_mem : ∀ e ∈ getEdges, dst e ∈ getVertexes
  mem_edgesFrom : ∀ v e, e ∈ getEdgesFrom v ↔ e ∈ getEdges ∧ src e = v
  mem_edgesTo : ∀ v e, e ∈ getEdgesTo v ↔ e ∈ getEdges ∧ dst e = v

variable {V : Type u} {E : Type v} {M : Type*} [DecidableEq V] [DecidableEq E] [Edge V E]

def adjacencyListsGraph (vertexes : List V) (edges : List E) : DirectedGraph V E where
  getVertexes := (vertexes ++ edges.flatMap fun e => [src e, dst e]).dedup
  getEdges := edges.dedup
  getEdgesFrom v := edges.dedup.filter fun e => src e = v
  getEdgesTo v := edges.dedup.filter fun e => dst e = v
  nodup_vertexes := List.nodup_dedup _
  nodup_edges := List.nodup_dedup _
  src_mem e he := by
    simp only [List.mem_dedup, List.mem_append, List.mem_flatMap] at he ⊢
    exact .inr ⟨e, he, by simp⟩
  dst_mem e he := by
    simp only [List.mem_dedup, List.mem_append, List.mem_flatMap] at he ⊢
    exact .inr ⟨e, he, by simp⟩
  mem_edgesFrom v e := by simp
  mem_edgesTo v e := by simp

structure EdgeWeigher (E M : Type*) where
  weight : E → Option M
  getInitialWeight : M

def testWeigher : EdgeWeigher TestEdge ℤ where
  weight e := some e.weight
  getInitialWeight := 0

structure Path (E M : Type*) where
  edges : List E
  cost : M
  deriving DecidableEq, Repr

def ALL_PATHS : ℤ := -1

structure DefaultResult (V E M : Type*) where
  src : V
  dst : Option V
  maxPaths : ℤ
  paths : List (Path E M)
  costs : Table V M
  parents : Table V (List E)

def defaultResult (src : V) (dst : Option V) (maxPaths : ℤ) : DefaultResult V E M :=
  ⟨src, dst, maxPaths, [], ∅, ∅⟩

namespace DefaultResult

def cost (r : DefaultResult V E M) (v : V) : Option M := r.costs.lookup v

def parentEdges (r : DefaultResult V E M) (v : V) : List E := (r.parents.lookup v).getD []

def withinLimit (maxPaths : ℤ) (size : ℕ) : Bool := maxPaths = ALL_PATHS ∨ (size : ℤ) < maxPaths

def updateVertex (r : DefaultResult V E M) (vertex : V) (edge : Option E) (cost : M)
    (replace : Bool) : DefaultResult V E M :=
  match edge with
  | none => { r with costs := r.costs.insert vertex cost }
  | some edge =>
    let edges := if replace then [] else r.parentEdges vertex
    let edges := if withinLimit r.maxPaths edges.length then edges.insert edge else edges
    { r with costs := r.costs.insert vertex cost, parents := r.parents.insert vertex edges }

variable [AddCommGroup M] [LinearOrder M]

def relaxEdge (r : DefaultResult V E M) (edge : E) (cost : M) (ew : EdgeWeigher E M)
    (forbidNegatives : Bool) : DefaultResult V E M × Bool :=
  match ew.weight edge with
  | none => (r, false)
  | some hopCost =>
    if hopCost < 0 ∧ forbidNegatives then (r, false)
    else
      let v := Edge.dst edge
      let newCost := cost + hopCost
      let compareResult := match r.cost v with
        | some oldCost => compare newCost oldCost
        | none => .lt
      let relaxed := if compareResult ≠ .gt then
        r.updateVertex v edge newCost (compareResult = .lt) else r
      (relaxed, compareResult = .lt)

end DefaultResult

def isInPath (edge : E) (path : List E) : Bool := path.any fun e => src edge = dst e

def firstVertex (path : List E) (dst : V) : V :=
  match path with
  | [] => dst
  | e :: _ => src e

/-- One pass over the pending paths: the paths that have reached the source, and the paths one
edge longer than the others. A path whose first vertex has no parents ends the pass. -/
def scanPending (parents : V → List E) (src dst : V) :
    List (List E) → List (List E) × List (List E)
  | [] => ([], [])
  | path :: rest =>
    if firstVertex path dst = src then
      let (found, frontier) := scanPending parents src dst rest
      (path :: found, frontier)
    else
      match parents (firstVertex path dst) with
      | [] => ([], [])
      | edge :: edges =>
        let extended := ((edge :: edges).filter fun e => !isInPath e path).map fun e => e :: path
        let (found, frontier) := scanPending parents src dst rest
        (found, extended ++ frontier)

def buildRounds (parents : V → List E) (src dst : V) (cost : M) (maxPaths : ℤ) [DecidableEq M] :
    ℕ → List (List E) → List (Path E M) → List (Path E M)
  | 0, _, paths => paths
  | fuel + 1, pendingPaths, paths =>
    if pendingPaths ≠ [] ∧ DefaultResult.withinLimit maxPaths paths.length then
      let (found, frontier) := scanPending parents src dst pendingPaths
      buildRounds parents src dst cost maxPaths fuel frontier
        (found.map (fun edges => ⟨edges, cost⟩) ∪ paths)
    else paths

def buildAllPaths [DecidableEq M] (result : DefaultResult V E M) (src dst : V) (maxPaths : ℤ) :
    DefaultResult V E M :=
  match result.cost dst with
  | none => result
  | some cost =>
    let fuel := (result.parents.entries.flatMap (·.2)).length + 2
    let paths := buildRounds result.parentEdges src dst cost maxPaths fuel [[]] result.paths
    { result with paths := paths }

def buildPaths [DecidableEq M] (result : DefaultResult V E M) : DefaultResult V E M :=
  let destinations := match result.dst with
    | none => result.costs.keys
    | some dst => [dst]
  (destinations.filter (· ≠ result.src)).foldl
    (fun r v => buildAllPaths r result.src v result.maxPaths) result

def checkArguments (graph : DirectedGraph V E) (src : V) (dst : Option V) : Except String Unit :=
  if src ∉ graph.getVertexes then .error "Source not in the graph"
  else match dst with
    | none => .ok ()
    | some dst =>
      if dst ∈ graph.getVertexes then .ok () else .error "Destination not in graph"

section

omit [DecidableEq E]

theorem source_of_checkArguments {graph : DirectedGraph V E} {src : V} {dst : Option V}
    (h : checkArguments graph src dst = .ok ()) : src ∈ graph.getVertexes := by
  unfold checkArguments at h
  split_ifs at h with hsrc
  exact hsrc

theorem checkArguments_ok {graph : DirectedGraph V E} {src dst : V} (hsrc : src ∈ graph.getVertexes)
    (hdst : dst ∈ graph.getVertexes) : checkArguments graph src (some dst) = .ok () := by
  rw [checkArguments, if_neg (not_not.mpr hsrc)]
  exact if_pos hdst

end

section Relaxing

variable [AddCommGroup M] [LinearOrder M]

def EdgeWeigher.IsUsable (ew : EdgeWeigher E M) (e : E) : Prop :=
  ∃ hopCost, ew.weight e = some hopCost ∧ 0 ≤ hopCost

def EdgeWeigher.hopCost (ew : EdgeWeigher E M) (e : E) : M := (ew.weight e).getD 0

def EdgeWeigher.totalCost (ew : EdgeWeigher E M) (edges : List E) : M :=
  ew.getInitialWeight + DirectedWalk.cost ew.hopCost edges

def network (graph : DirectedGraph V E) (ew : EdgeWeigher E M) : Network V E M where
  src := Edge.src
  dst := Edge.dst
  usable e := e ∈ graph.getEdges ∧ ew.IsUsable e
  weight := ew.hopCost

variable {r : DefaultResult V E M} {ew : EdgeWeigher E M}

omit [DecidableEq E] in
theorem hopCost_nonneg {e : E} (h : ew.IsUsable e) : 0 ≤ ew.hopCost e := by
  obtain ⟨hopCost, hweight, hnonneg⟩ := h
  rw [EdgeWeigher.hopCost, hweight]
  exact hnonneg

section

omit [Edge V E] [AddCommGroup M] [LinearOrder M]

@[simp] theorem cost_updateVertex (v x : V) (e : E) (c : M) (replace : Bool) :
    (r.updateVertex v (some e) c replace).cost x = if x = v then some c else r.cost x :=
  lookup_insert r.costs v x c

theorem parentEdges_updateVertex_ne {v x : V} (hx : x ≠ v) (e : E) (c : M) (replace : Bool) :
    (r.updateVertex v (some e) c replace).parentEdges x = r.parentEdges x := by
  unfold DefaultResult.parentEdges DefaultResult.updateVertex
  rw [lookup_insert, if_neg hx]

theorem parentEdges_tie (v : V) (e : E) (c : M) :
    (r.updateVertex v (some e) c false).parentEdges v =
      if DefaultResult.withinLimit r.maxPaths (r.parentEdges v).length
        then (r.parentEdges v).insert e else r.parentEdges v := by
  rw [DefaultResult.updateVertex]
  rw [DefaultResult.parentEdges, lookup_insert, if_pos rfl]
  rfl

theorem parentEdges_replace (v : V) (e : E) (c : M) :
    (r.updateVertex v (some e) c true).parentEdges v =
      if DefaultResult.withinLimit r.maxPaths 0 then [e] else [] := by
  rw [DefaultResult.updateVertex]
  rw [DefaultResult.parentEdges, lookup_insert, if_pos rfl]
  rfl

theorem mem_parentEdges_tie {v x : V} {c : M} {e f : E} (hf : f ∈ r.parentEdges x) :
    f ∈ (r.updateVertex v (some e) c false).parentEdges x := by
  by_cases hx : x = v
  · subst hx
    rw [parentEdges_tie]
    split
    · exact List.mem_insert_of_mem hf
    · exact hf
  · rwa [parentEdges_updateVertex_ne hx]

theorem mem_of_mem_tie {v x : V} {c : M} {e f : E}
    (hf : f ∈ (r.updateVertex v (some e) c false).parentEdges x) :
    f ∈ r.parentEdges x ∨ f = e ∧ x = v := by
  by_cases hx : x = v
  · subst hx
    rw [parentEdges_tie] at hf
    split at hf
    · exact (List.mem_insert_iff.mp hf).elim (fun hfe => Or.inr ⟨hfe, rfl⟩) Or.inl
    · exact Or.inl hf
  · exact Or.inl (by rwa [parentEdges_updateVertex_ne hx] at hf)

end

/-- What relaxing an edge does, negative edges being forbidden: nothing, one more parent of the
same cost, or a new cost and a new parent. -/
theorem relaxEdge_cases (r : DefaultResult V E M) (e : E) (a : M) (ew : EdgeWeigher E M) :
    (¬ ew.IsUsable e ∧ (r.relaxEdge e a ew true).1 = r) ∨
    (ew.IsUsable e ∧ (∃ old, r.cost (dst e) = some old ∧ old < a + ew.hopCost e) ∧
      (r.relaxEdge e a ew true).1 = r) ∨
    (ew.IsUsable e ∧ r.cost (dst e) = some (a + ew.hopCost e) ∧
      (r.relaxEdge e a ew true).1 = r.updateVertex (dst e) (some e) (a + ew.hopCost e) false) ∨
    (ew.IsUsable e ∧ (∀ old, r.cost (dst e) = some old → a + ew.hopCost e < old) ∧
      (r.relaxEdge e a ew true).1 =
        r.updateVertex (dst e) (some e) (a + ew.hopCost e) true) := by
  cases hweight : ew.weight e with
  | none =>
    left
    refine ⟨?_, by simp [DefaultResult.relaxEdge, hweight]⟩
    rintro ⟨hopCost, hsome, -⟩
    rw [hweight] at hsome
    cases hsome
  | some hopCost =>
    have hhop : ew.hopCost e = hopCost := by rw [EdgeWeigher.hopCost, hweight]; rfl
    by_cases hneg : hopCost < 0
    · left
      refine ⟨?_, by simp [DefaultResult.relaxEdge, hweight, hneg]⟩
      rintro ⟨c, hsome, hc⟩
      rw [hweight] at hsome
      exact absurd hneg (not_lt.mpr (Option.some.inj hsome ▸ hc))
    · right
      have husable : ew.IsUsable e := ⟨hopCost, hweight, not_lt.mp hneg⟩
      rw [hhop]
      cases hcost : r.cost (dst e) with
      | none =>
        right; right
        refine ⟨husable, by simp, ?_⟩
        simp [DefaultResult.relaxEdge, hweight, hneg, hcost]
      | some old =>
        rcases lt_trichotomy (a + hopCost) old with hlt | heq | hgt
        · right; right
          refine ⟨husable, by simpa using hlt, ?_⟩
          simp [DefaultResult.relaxEdge, hweight, hneg, hcost, compare_lt_iff_lt.mpr hlt]
        · right; left
          subst heq
          refine ⟨husable, rfl, ?_⟩
          simp [DefaultResult.relaxEdge, hweight, hneg, hcost]
        · left
          refine ⟨husable, ⟨old, rfl, hgt⟩, ?_⟩
          simp [DefaultResult.relaxEdge, hweight, hneg, hcost, compare_gt_iff_gt.mpr hgt]

end Relaxing

section Building

/-- The paths that are pending at some time when the paths from `s` to `t` are built. -/
inductive Backward (parents : V → List E) (s t : V) : List E → Prop where
  | nil : Backward parents s t []
  | cons {e : E} {p : List E} : Backward parents s t p → firstVertex p t ≠ s →
      e ∈ parents (firstVertex p t) → isInPath e p = false → Backward parents s t (e :: p)

variable {parents : V → List E} {s t : V}

omit [DecidableEq E] in
theorem isInPath_eq_false {e : E} {p : List E} : isInPath e p = false ↔ src e ∉ p.map dst := by
  simp only [isInPath, List.any_eq_false, decide_eq_true_eq, List.mem_map, not_exists, not_and]
  exact forall_congr' fun f => forall_congr' fun _ => ⟨Ne.symm, Ne.symm⟩

omit [DecidableEq V] [DecidableEq E] in
theorem firstVertex_eq {u : V} {p : List E} (h : IsWalk src dst u p t) : firstVertex p t = u := by
  cases p with
  | nil => exact (isWalk_nil.mp h).symm
  | cons e p => exact h.1

section

omit [DecidableEq E]

section

variable (hparents : ∀ v, ∀ e ∈ parents v, dst e = v)

include hparents

theorem Backward.walk {p : List E}
    (h : Backward parents s t p) : IsWalk src dst (firstVertex p t) p t := by
  induction h with
  | nil => rfl
  | cons _ _ he _ ih => exact ⟨rfl, by rw [hparents _ _ he]; exact ih⟩

theorem Backward.mem_parents {p : List E}
    (h : Backward parents s t p) {e : E} (he : e ∈ p) : e ∈ parents (dst e) ∧ dst e ≠ s := by
  induction h with
  | nil => cases he
  | cons _ hne hf _ ih =>
    rcases List.mem_cons.mp he with rfl | he
    · rw [hparents _ _ hf]
      exact ⟨hf, hne⟩
    · exact ih he

/-- No edge is taken twice on the way back, though a vertex may be: an edge from a vertex to
itself is not in the path yet. -/
theorem Backward.nodup {p : List E} (h : Backward parents s t p) : p.Nodup := by
  induction h with
  | nil => exact List.nodup_nil
  | @cons e p hp _ he hin ih =>
    refine List.nodup_cons.mpr ⟨fun hmem => ?_, ih⟩
    rw [isInPath_eq_false] at hin
    rcases List.mem_cons.mp ((hp.walk hparents).src_mem hmem) with hsrc | hsrc
    · rw [← hparents _ _ he] at hsrc
      exact hin (hsrc ▸ List.mem_map_of_mem hmem)
    · exact hin hsrc

end

theorem backward_of_path {u : V} {p : List E} (h : IsPath src dst u p t)
    (hp : ∀ e ∈ p, e ∈ parents (dst e)) (hs : s = u ∨ s ∉ u :: p.map dst) :
    Backward parents s t p := by
  induction p generalizing u with
  | nil => exact .nil
  | cons e p ih =>
    have hu := (isSimple_cons.mp h.simple).1
    have hnot : s ∉ dst e :: p.map dst := by
      rcases hs with rfl | hs
      · exact hu
      · exact fun hmem => hs (List.mem_cons_of_mem u hmem)
    have hfirst : firstVertex p t = dst e := firstVertex_eq h.walk.2
    refine .cons (ih h.tail (fun f hf => hp f (List.mem_cons_of_mem e hf)) (.inr hnot)) ?_ ?_ ?_
    · rw [hfirst]
      exact fun heq => hnot (heq ▸ List.mem_cons_self)
    · rw [hfirst]
      exact hp e List.mem_cons_self
    · rw [isInPath_eq_false, h.walk.1]
      exact fun hmem => hu (List.mem_cons_of_mem _ hmem)

theorem length_le_of_backward {all : List E} (hparents : ∀ v, ∀ e ∈ parents v, dst e = v)
    (hall : ∀ v, ∀ e ∈ parents v, e ∈ all) {p : List E} (h : Backward parents s t p) :
    p.length ≤ all.length :=
  (List.subperm_of_subset (h.nodup hparents)
    fun e he => hall _ e (h.mem_parents hparents he).1).length_le

/-- One pass sorts the pending paths into those that have reached the source and those that can
be continued, as long as each of the latter has a parent. -/
theorem mem_scanPending {pending : List (List E)}
    (hgo : ∀ p ∈ pending, firstVertex p t ≠ s → parents (firstVertex p t) ≠ []) (q : List E) :
    (q ∈ (scanPending parents s t pending).1 ↔ q ∈ pending ∧ firstVertex q t = s) ∧
    (q ∈ (scanPending parents s t pending).2 ↔ ∃ e p, q = e :: p ∧ p ∈ pending ∧
      firstVertex p t ≠ s ∧ e ∈ parents (firstVertex p t) ∧ isInPath e p = false) := by
  induction pending with
  | nil => simp [scanPending]
  | cons path rest ih =>
    obtain ⟨ihfound, ihfrontier⟩ := ih fun p hp => hgo p (List.mem_cons_of_mem path hp)
    by_cases hfirst : firstVertex path t = s
    · simp only [scanPending, if_pos hfirst]
      refine ⟨?_, ?_⟩
      · rw [List.mem_cons, List.mem_cons, ihfound]
        constructor
        · rintro (rfl | h)
          · exact ⟨.inl rfl, hfirst⟩
          · exact ⟨.inr h.1, h.2⟩
        · rintro ⟨rfl | h, hq⟩
          · exact .inl rfl
          · exact .inr ⟨h, hq⟩
      · rw [ihfrontier]
        constructor
        · rintro ⟨e, p, rfl, hp, h⟩
          exact ⟨e, p, rfl, List.mem_cons_of_mem path hp, h⟩
        · rintro ⟨e, p, rfl, hp, hne, h⟩
          rcases List.mem_cons.mp hp with rfl | hp
          · exact absurd hfirst hne
          · exact ⟨e, p, rfl, hp, hne, h⟩
    · obtain ⟨edge, edges, hedges⟩ :=
        List.exists_cons_of_ne_nil (hgo path List.mem_cons_self hfirst)
      simp only [scanPending, if_neg hfirst, hedges]
      rw [← hedges]
      refine ⟨?_, ?_⟩
      · rw [ihfound, List.mem_cons]
        constructor
        · rintro ⟨hq, h⟩
          exact ⟨.inr hq, h⟩
        · rintro ⟨rfl | hq, h⟩
          · exact absurd h hfirst
          · exact ⟨hq, h⟩
      · rw [List.mem_append, List.mem_map, ihfrontier]
        constructor
        · rintro (⟨e, he, rfl⟩ | ⟨e, p, rfl, hp, h⟩)
          · obtain ⟨hmem, hin⟩ := List.mem_filter.mp he
            exact ⟨e, path, rfl, List.mem_cons_self, hfirst, hmem, by simpa using hin⟩
          · exact ⟨e, p, rfl, List.mem_cons_of_mem path hp, h⟩
        · rintro ⟨e, p, rfl, hp, hne, hmem, hin⟩
          rcases List.mem_cons.mp hp with rfl | hp
          · exact .inl ⟨e, List.mem_filter.mpr ⟨hmem, by simpa using hin⟩, rfl⟩
          · exact .inr ⟨e, p, rfl, hp, hne, hmem, hin⟩

theorem of_mem_scanPending {pending : List (List E)} (q : List E) :
    (q ∈ (scanPending parents s t pending).1 → q ∈ pending ∧ firstVertex q t = s) ∧
    (q ∈ (scanPending parents s t pending).2 → ∃ e p, q = e :: p ∧ p ∈ pending ∧
      firstVertex p t ≠ s ∧ e ∈ parents (firstVertex p t) ∧ isInPath e p = false) := by
  induction pending with
  | nil => simp [scanPending]
  | cons path rest ih =>
    have hrest : q ∈ (scanPending parents s t rest).2 → ∃ e p, q = e :: p ∧ p ∈ path :: rest ∧
        firstVertex p t ≠ s ∧ e ∈ parents (firstVertex p t) ∧ isInPath e p = false := by
      intro hq
      obtain ⟨e, p, rfl, hp, h⟩ := ih.2 hq
      exact ⟨e, p, rfl, List.mem_cons_of_mem path hp, h⟩
    rw [scanPending]
    split_ifs with hfirst
    · refine ⟨fun hq => ?_, hrest⟩
      rcases List.mem_cons.mp hq with rfl | hq
      · exact ⟨List.mem_cons_self, hfirst⟩
      · exact ⟨List.mem_cons_of_mem path (ih.1 hq).1, (ih.1 hq).2⟩
    · cases hedges : parents (firstVertex path t) with
      | nil => exact ⟨fun hq => absurd hq List.not_mem_nil, fun hq => absurd hq List.not_mem_nil⟩
      | cons edge edges =>
        refine ⟨fun hq => ⟨List.mem_cons_of_mem path (ih.1 hq).1, (ih.1 hq).2⟩, fun hq => ?_⟩
        rcases List.mem_append.mp hq with hq | hq
        · obtain ⟨e, he, rfl⟩ := List.mem_map.mp hq
          obtain ⟨hmem, hin⟩ := List.mem_filter.mp he
          exact ⟨e, path, rfl, List.mem_cons_self, hfirst, hedges ▸ hmem, by simpa using hin⟩
        · exact hrest hq

end

/-- Every pending path goes back from the destination, over as many edges as there were passes. -/
def ArePending (parents : V → List E) (s t : V) (k : ℕ) (pending : List (List E)) : Prop :=
  ∀ p ∈ pending, Backward parents s t p ∧ p.length = k

section

omit [DecidableEq E]

theorem ArePending.scan {k : ℕ} {pending : List (List E)}
    (h : ArePending parents s t k pending) {order : List (List E)}
    (horder : order.Perm pending) : ArePending parents s t (k + 1) (scanPending parents s t order).2 := by
  intro q hq
  obtain ⟨e, p, rfl, hp, hne, he, hin⟩ := (of_mem_scanPending q).2 hq
  obtain ⟨hback, hlen⟩ := h p (horder.mem_iff.mp hp)
  exact ⟨hback.cons hne he hin, congrArg Nat.succ hlen⟩

theorem arePending_nil : ArePending parents s t 0 [[]] := by
  intro p hp
  obtain rfl := List.mem_singleton.mp hp
  exact ⟨Backward.nil, rfl⟩

theorem backward_succ {k : ℕ} {q : List E} : Backward parents s t q ∧ q.length = k + 1 ↔
    ∃ e p, q = e :: p ∧ (Backward parents s t p ∧ p.length = k) ∧ firstVertex p t ≠ s ∧
      e ∈ parents (firstVertex p t) ∧ isInPath e p = false := by
  constructor
  · rintro ⟨hq, hlen⟩
    cases hq with
    | nil => cases hlen
    | cons hp hne he hin => exact ⟨_, _, rfl, ⟨hp, Nat.succ.inj hlen⟩, hne, he, hin⟩
  · rintro ⟨e, p, rfl, ⟨hp, rfl⟩, hne, he, hin⟩
    exact ⟨hp.cons hne he hin, rfl⟩

theorem length_lt_of_none {k : ℕ} (hnone : ∀ p, Backward parents s t p → p.length ≠ k)
    {p : List E} (h : Backward parents s t p) : p.length < k := by
  induction h with
  | nil => exact Nat.pos_of_ne_zero (hnone [] .nil).symm
  | cons hp hne he hin ih => exact Nat.lt_of_le_of_ne ih (hnone _ (hp.cons hne he hin))

end

/-- From the round in which the paths of `k` edges are pending, the rounds add paths that go back
to the source only, and all of them unless the limit is reached. -/
theorem buildRounds_spec [DecidableEq M] {all : List E} {cost : M} (maxPaths : ℤ)
    (hparents : ∀ v, ∀ e ∈ parents v, dst e = v) (hall : ∀ v, ∀ e ∈ parents v, e ∈ all)
    (hgo : ∀ p, Backward parents s t p → firstVertex p t ≠ s → parents (firstVertex p t) ≠ [])
    (fuel : ℕ) {k : ℕ} {pending : List (List E)} {paths : List (Path E M)}
    (hpending : ∀ p, p ∈ pending ↔ Backward parents s t p ∧ p.length = k)
    (hpaths : ∀ p, Backward parents s t p → firstVertex p t = s → p.length < k →
      ⟨p, cost⟩ ∈ paths)
    (hfuel : all.length < k + fuel) :
    (∀ P ∈ buildRounds parents s t cost maxPaths fuel pending paths, P ∈ paths ∨
      (Backward parents s t P.edges ∧ firstVertex P.edges t = s ∧ P.cost = cost)) ∧
    ((∀ p, Backward parents s t p → firstVertex p t = s →
      ⟨p, cost⟩ ∈ buildRounds parents s t cost maxPaths fuel pending paths) ∨
      (maxPaths ≠ ALL_PATHS ∧
        maxPaths ≤ (buildRounds parents s t cost maxPaths fuel pending paths).length)) := by
  induction fuel generalizing k pending paths with
  | zero =>
    refine ⟨fun P hP => .inl hP, .inl fun p hp hfirst => hpaths p hp hfirst ?_⟩
    have := length_le_of_backward hparents hall hp
    omega
  | succ fuel ih =>
    simp only [buildRounds]
    split
    case isTrue hcont =>
      have hready : ∀ p ∈ pending, firstVertex p t ≠ s → parents (firstVertex p t) ≠ [] :=
        fun p hp => hgo p ((hpending p).mp hp).1
      have hscan := mem_scanPending hready
      have hstep := @ih (k + 1) (scanPending parents s t pending).2
        ((scanPending parents s t pending).1.map (fun edges => ⟨edges, cost⟩) ∪ paths)
        ?_ ?_ (by omega)
      · refine ⟨fun P hP => ?_, hstep.2⟩
        rcases hstep.1 P hP with hP | hP
        · rcases List.mem_union_iff.mp hP with hP | hP
          · obtain ⟨q, hq, rfl⟩ := List.mem_map.mp hP
            obtain ⟨hq, hfirst⟩ := (hscan q).1.mp hq
            exact .inr ⟨((hpending q).mp hq).1, hfirst, rfl⟩
          · exact .inl hP
        · exact .inr hP
      · intro q
        rw [(hscan q).2, backward_succ]
        simp only [hpending]
      · intro p hp hfirst hlen
        rw [List.mem_union_iff]
        rcases Nat.lt_succ_iff_lt_or_eq.mp hlen with hlt | heq
        · exact .inr (hpaths p hp hfirst hlt)
        · exact .inl (List.mem_map_of_mem ((hscan p).1.mpr ⟨(hpending p).mpr ⟨hp, heq⟩, hfirst⟩))
    case isFalse hstop =>
      refine ⟨fun P hP => .inl hP, ?_⟩
      by_cases hnil : pending = []
      · refine .inl fun p hp hfirst => hpaths p hp hfirst (length_lt_of_none ?_ hp)
        intro q hq hlen
        have hmem := (hpending q).mpr ⟨hq, hlen⟩
        rw [hnil] at hmem
        cases hmem
      · have hlimit : ¬ DefaultResult.withinLimit maxPaths paths.length = true :=
          fun hwithin => hstop ⟨hnil, hwithin⟩
        simp only [DefaultResult.withinLimit, decide_eq_true_eq, not_or, not_lt] at hlimit
        exact .inr hlimit

omit [DecidableEq E] [Edge V E] in
theorem mem_flatMap_of_mem_parentEdges {r : DefaultResult V E M} {v : V} {e : E}
    (he : e ∈ r.parentEdges v) : e ∈ r.parents.entries.flatMap (·.2) := by
  rw [DefaultResult.parentEdges] at he
  cases hlookup : r.parents.lookup v with
  | none =>
    rw [hlookup] at he
    cases he
  | some edges =>
    rw [hlookup] at he
    exact List.mem_flatMap.mpr ⟨⟨v, edges⟩, (mem_entries_iff _ _ _).mpr hlookup, he⟩

theorem cost_buildPaths [DecidableEq M] (r : DefaultResult V E M) (v : V) :
    (buildPaths r).cost v = r.cost v := by
  have hone : ∀ (r : DefaultResult V E M) s t m, (buildAllPaths r s t m).costs = r.costs := by
    intro r s t m
    rw [buildAllPaths]
    split <;> rfl
  have hall : ∀ (destinations : List V) (r' : DefaultResult V E M), (destinations.foldl
      (fun r' v => buildAllPaths r' r.src v r.maxPaths) r').costs = r'.costs := by
    intro destinations
    induction destinations with
    | nil => exact fun _ => rfl
    | cons t destinations ih =>
      intro r'
      rw [List.foldl_cons, ih, hone]
  unfold DefaultResult.cost buildPaths
  rw [hall]

theorem buildPaths_some [DecidableEq M] {r : DefaultResult V E M} (hd : r.dst = some t)
    (hne : t ≠ r.src) : buildPaths r = buildAllPaths r r.src t r.maxPaths := by
  have hkeep : [t].filter (· ≠ r.src) = [t] := by simp [hne]
  simp only [buildPaths, hd, hkeep, List.foldl_cons, List.foldl_nil]

theorem buildPaths_source [DecidableEq M] {r : DefaultResult V E M} (hd : r.dst = some r.src) :
    buildPaths r = r := by
  have hdrop : [r.src].filter (· ≠ r.src) = [] := by simp
  simp only [buildPaths, hd, hdrop, List.foldl_nil]

theorem buildAllPaths_spec [DecidableEq M] {r : DefaultResult V E M} {cost : M} (maxPaths : ℤ)
    (hparents : ∀ v, ∀ e ∈ r.parentEdges v, dst e = v)
    (hgo : ∀ p, Backward r.parentEdges s t p → firstVertex p t ≠ s →
      r.parentEdges (firstVertex p t) ≠ [])
    (hcost : r.cost t = some cost) (hpaths : r.paths = []) :
    (∀ P ∈ (buildAllPaths r s t maxPaths).paths,
      Backward r.parentEdges s t P.edges ∧ firstVertex P.edges t = s ∧ P.cost = cost) ∧
    ((∀ p, Backward r.parentEdges s t p → firstVertex p t = s →
      ⟨p, cost⟩ ∈ (buildAllPaths r s t maxPaths).paths) ∨
      (maxPaths ≠ ALL_PATHS ∧ maxPaths ≤ (buildAllPaths r s t maxPaths).paths.length)) := by
  have hpending : ∀ p, p ∈ [[]] ↔ Backward r.parentEdges s t p ∧ p.length = 0 := by
    intro p
    rw [List.mem_singleton, List.length_eq_zero_iff]
    exact ⟨fun hp => ⟨hp ▸ .nil, hp⟩, fun hp => hp.2⟩
  have hfound : ∀ p, Backward r.parentEdges s t p → firstVertex p t = s → p.length < 0 →
      ⟨p, cost⟩ ∈ r.paths := fun p _ _ hlen => absurd hlen (Nat.not_lt_zero _)
  have hspec := buildRounds_spec maxPaths hparents
    (fun v e he => mem_flatMap_of_mem_parentEdges he) hgo
    ((r.parents.entries.flatMap (·.2)).length + 2) hpending hfound (by omega)
  simp only [buildAllPaths, hcost]
  refine ⟨fun P hP => (hspec.1 P hP).resolve_left ?_, hspec.2⟩
  rw [hpaths]
  exact List.not_mem_nil

end Building

end GraphPathSearch

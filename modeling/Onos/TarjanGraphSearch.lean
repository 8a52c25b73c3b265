import Onos.GraphPathSearch
import Onos.Lib.FallibleRun
import Onos.Lib.StrongComponents

/-! Tarjan's search for the strongly connected clusters of a graph. -/
namespace TarjanGraphSearch

open FallibleRun GraphPathSearch HopDistance KeyedMap StrongComponents

universe u v

variable {V : Type u} {E : Type v} {M : Type*} [DecidableEq V] [DecidableEq E] [Edge V E]

structure VertexData (V : Type*) where
  vertex : V
  index : ℕ
  lowLink : ℕ
  deriving DecidableEq, Repr

structure SccResult (V E : Type*) where
  clusterVertexes : List (List V)
  clusterEdges : List (List E)
  index : ℕ
  vertexData : Table V (VertexData V)
  visited : List V

namespace SccResult

def empty : SccResult V E := ⟨[], [], 0, ∅, []⟩

def data (r : SccResult V E) (vertex : V) : Option (VertexData V) := r.vertexData.lookup vertex

def addData (r : SccResult V E) (vertex : V) : SccResult V E :=
  { r with
    vertexData := r.vertexData.insert vertex ⟨vertex, r.index, r.index⟩
    visited := vertex :: r.visited
    index := r.index + 1 }

def lower (r : SccResult V E) (vertex : V) (low : ℕ) : SccResult V E :=
  match r.data vertex with
  | none => r
  | some data =>
    { r with
      vertexData := r.vertexData.insert vertex { data with lowLink := min data.lowLink low } }

def findClusterVertices (vertex : V) : List V → Except String (List V × List V)
  | [] => .error "IndexOutOfBoundsException"
  | next :: visited =>
    if next = vertex then .ok ([next], visited)
    else (findClusterVertices vertex visited).map fun found => (found.1.insert next, found.2)

def findClusterEdges (graph : DirectedGraph V E) (vertexes : List V) : List E :=
  (vertexes.flatMap fun vertex =>
    (graph.getEdgesFrom vertex).filter fun edge => Edge.dst edge ∈ vertexes).dedup

def addCluster (graph : DirectedGraph V E) (r : SccResult V E) (vertex : V) :
    Except String (SccResult V E) :=
  (findClusterVertices vertex r.visited).map fun found =>
    { r with
      clusterVertexes := r.clusterVertexes ++ [found.1]
      clusterEdges := r.clusterEdges ++ [findClusterEdges graph found.1]
      visited := found.2 }

end SccResult

def isViable (weigher : Option (EdgeWeigher E M)) (edge : E) : Bool :=
  match weigher with
  | none => true
  | some weigher => (weigher.weight edge).isSome

def visitEdge (weigher : Option (EdgeWeigher E M))
    (connect : V → SccResult V E → Except String (VertexData V × SccResult V E)) (vertex : V)
    (r : SccResult V E) (edge : E) : Except String (SccResult V E) :=
  if isViable weigher edge then
    match r.data (Edge.dst edge) with
    | none => (connect (Edge.dst edge) r).map fun next => next.2.lower vertex next.1.lowLink
    | some nextData =>
      .ok (if Edge.dst edge ∈ r.visited then r.lower vertex nextData.index else r)
  else .ok r

def connect (graph : DirectedGraph V E) (weigher : Option (EdgeWeigher E M)) :
    ℕ → V → SccResult V E → Except String (VertexData V × SccResult V E)
  | 0, _, _ => .error "StackOverflowError"
  | depth + 1, vertex, r =>
    ((graph.getEdgesFrom vertex).foldlM (visitEdge weigher (connect graph weigher depth) vertex)
      (r.addData vertex)).bind fun r =>
        match r.data vertex with
        | none => .error "NullPointerException"
        | some data =>
          if data.lowLink = data.index then (r.addCluster graph vertex).map fun r => (data, r)
          else .ok (data, r)

def search (graph : DirectedGraph V E) (weigher : Option (EdgeWeigher E M)) :
    Except String (SccResult V E) :=
  graph.getVertexes.foldlM (fun r vertex =>
    if (r.data vertex).isNone then
      (connect graph weigher graph.getVertexes.length vertex r).map Prod.snd
    else .ok r) SccResult.empty

section Invariants

variable (graph : DirectedGraph V E) (weigher : Option (EdgeWeigher E M))

abbrev IsUsable (e : E) : Prop := e ∈ graph.getEdges ∧ isViable weigher e = true

abbrev IsLinked (u v : V) : Prop := Reaches Edge.src Edge.dst (IsUsable graph weigher) u v

abbrev SccResult.Seen (r : SccResult V E) (v : V) : Prop := r.data v ≠ none

def SccResult.num (r : SccResult V E) (v : V) : ℕ := (r.data v).elim 0 VertexData.index

/-- The calls that have not ended are for the gray vertexes. Of two visited vertexes the one that
was visited first reaches the other one, and each reaches a gray one that was visited before. -/
structure SearchInv (gray : List V) (r : SccResult V E) : Prop where
  fresh : ∀ v, r.Seen v → r.num v < r.index
  sorted : r.visited.Pairwise fun u v => r.num v < r.num u
  cover : ∀ v, r.Seen v ↔ v ∈ r.visited ∨ v ∈ r.clusterVertexes.flatten
  inside : ∀ v, r.Seen v → v ∈ graph.getVertexes
  apart : ∀ v ∈ r.visited, v ∉ r.clusterVertexes.flatten
  nonempty : ∀ c ∈ r.clusterVertexes, c ≠ []
  lists : ListsComponents Edge.src Edge.dst (IsUsable graph weigher) r.clusterVertexes
  down : ∀ u ∈ r.visited, ∀ v ∈ r.visited, r.num u ≤ r.num v → IsLinked graph weigher u v
  toGray : ∀ v ∈ r.visited, ∃ g ∈ gray, r.num g ≤ r.num v ∧ IsLinked graph weigher v g
  grays : ∀ g ∈ gray, g ∈ r.visited
  black : ∀ e, IsUsable graph weigher e → r.Seen (Edge.src e) → Edge.src e ∉ gray →
    r.Seen (Edge.dst e)

structure Extends (r r' : SccResult V E) : Prop where
  data : ∀ v, r.Seen v → r'.data v = r.data v
  fresh : ∀ v, ¬r.Seen v → r'.Seen v → r.index ≤ r'.num v
  clusters : r.clusterVertexes <+: r'.clusterVertexes
  stack : r.visited <:+ r'.visited
  index : r.index ≤ r'.index

/-- What a call for a vertex ends with. Its low link is the index of a vertex that it reaches, and
no edge from the vertexes that it leaves on the stack leads below. -/
structure Connected (gray : List V) (v : V) (r : SccResult V E)
    (next : VertexData V × SccResult V E) : Prop where
  inv : SearchInv graph weigher gray next.2
  grows : Extends r next.2
  data : next.2.data v = some next.1
  index : next.1.index = r.index
  low_le : next.1.lowLink ≤ next.1.index
  low_mem : next.1.lowLink < next.1.index → ∃ w ∈ next.2.visited,
    next.2.num w = next.1.lowLink ∧ IsLinked graph weigher v w
  low_edge : ∀ e, IsUsable graph weigher e → Edge.src e ∈ next.2.visited →
    next.1.index ≤ next.2.num (Edge.src e) → Edge.dst e ∈ next.2.visited →
    next.1.lowLink ≤ next.2.num (Edge.dst e)

/-- The same during the call, when the edges in the list have been visited. -/
structure Scanning (gray : List V) (v : V) (base : SccResult V E) (done : List E) (low : ℕ)
    (r : SccResult V E) : Prop where
  inv : SearchInv graph weigher (v :: gray) r
  grows : Extends base r
  own : r.num v = base.index
  stack : v :: base.visited <:+ r.visited
  low_le : low ≤ base.index
  low_mem : ∃ w ∈ r.visited, r.num w = low ∧ IsLinked graph weigher v w
  low_edge : ∀ e, IsUsable graph weigher e → Edge.src e ∈ r.visited →
    base.index ≤ r.num (Edge.src e) → (Edge.src e = v → e ∈ done) → Edge.dst e ∈ r.visited →
    low ≤ r.num (Edge.dst e)
  seen : ∀ e ∈ done, IsUsable graph weigher e → r.Seen (Edge.dst e)

structure Starts (gray : List V) (v : V) (r : SccResult V E) : Prop where
  inv : SearchInv graph weigher gray r
  inside : v ∈ graph.getVertexes
  new : ¬r.Seen v
  linked : ∀ g ∈ gray, IsLinked graph weigher g v

end Invariants

section Data

variable {r r' r'' : SccResult V E} {u v : V} {n : ℕ} {d : VertexData V}

omit [DecidableEq E] [Edge V E]

theorem SccResult.num_eq (h : r.data v = some d) : r.num v = d.index := by
  rw [SccResult.num, h]
  rfl

theorem SccResult.data_addData : (r.addData v).data u =
    if u = v then some ⟨v, r.index, r.index⟩ else r.data u := lookup_insert r.vertexData v u _

theorem SccResult.seen_addData : (r.addData v).Seen u ↔ u = v ∨ r.Seen u := by
  rw [SccResult.Seen, SccResult.data_addData]
  split_ifs with h
  · exact iff_of_true (Option.some_ne_none _) (Or.inl h)
  · exact (or_iff_right h).symm

theorem SccResult.num_addData : (r.addData v).num u = if u = v then r.index else r.num u := by
  rw [SccResult.num, SccResult.data_addData]
  split_ifs <;> rfl

section

variable (h : r.data v = some d)

include h

theorem SccResult.data_lower : (r.lower v n).data u =
    if u = v then some { d with lowLink := min d.lowLink n } else r.data u := by
  rw [SccResult.lower, h]
  exact lookup_insert r.vertexData v u _

theorem SccResult.num_lower : (r.lower v n).num u = r.num u := by
  rw [SccResult.num, SccResult.data_lower h]
  split_ifs with heq
  · rw [heq, SccResult.num_eq h]
    rfl
  · rfl

theorem SccResult.seen_lower : (r.lower v n).Seen u ↔ r.Seen u := by
  rw [SccResult.Seen, SccResult.data_lower h]
  split_ifs with heq
  · have hseen : r.data v ≠ none := by
      rw [h]
      exact Option.some_ne_none d
    exact iff_of_true (Option.some_ne_none _) (heq ▸ hseen)
  · rfl

theorem SccResult.lower_eq : r.lower v n =
    { r with vertexData := r.vertexData.insert v { d with lowLink := min d.lowLink n } } := by
  rw [SccResult.lower, h]

end

theorem Extends.seen (h : Extends r r') (hv : r.Seen v) : r'.Seen v := by
  rw [SccResult.Seen, h.data v hv]
  exact hv

theorem Extends.num (h : Extends r r') (hv : r.Seen v) : r'.num v = r.num v := by
  rw [SccResult.num, h.data v hv]
  rfl

theorem Extends.refl (r : SccResult V E) : Extends r r :=
  ⟨fun _ _ => rfl, fun _ hnew hseen => absurd hseen hnew, List.prefix_refl _, List.suffix_refl _,
    le_rfl⟩

theorem Extends.trans (h : Extends r r') (h' : Extends r' r'') : Extends r r'' where
  data v hv := (h'.data v (h.seen hv)).trans (h.data v hv)
  fresh v hnew hseen := by
    by_cases hv : r'.Seen v
    · rw [h'.num hv]
      exact h.fresh v hnew hv
    · exact h.index.trans (h'.fresh v hv hseen)
  clusters := h.clusters.trans h'.clusters
  stack := h.stack.trans h'.stack
  index := h.index.trans h'.index

theorem extends_addData (hv : ¬r.Seen v) : Extends r (r.addData v) where
  data u hu := by
    rw [SccResult.data_addData, if_neg]
    rintro rfl
    exact hv hu
  fresh u hnew hu := by
    rcases SccResult.seen_addData.mp hu with rfl | hu
    · rw [SccResult.num_addData, if_pos rfl]
    · exact absurd hu hnew
  clusters := List.prefix_refl _
  stack := List.suffix_cons v r.visited
  index := Nat.le_succ _

theorem Extends.lower (h : Extends r r') (hv : ¬r.Seen v) (hd : r'.data v = some d) :
    Extends r (r'.lower v n) where
  data u hu := by
    have hne : u ≠ v := by
      rintro rfl
      exact hv hu
    rw [SccResult.data_lower hd, if_neg hne, h.data u hu]
  fresh u hnew hu := by
    rw [SccResult.num_lower hd]
    exact h.fresh u hnew ((SccResult.seen_lower hd).mp hu)
  clusters := by
    rw [SccResult.lower_eq hd]
    exact h.clusters
  stack := by
    rw [SccResult.lower_eq hd]
    exact h.stack
  index := by
    rw [SccResult.lower_eq hd]
    exact h.index

end Data

section Calls

variable {graph : DirectedGraph V E} {weigher : Option (EdgeWeigher E M)} {gray : List V}
  {base r : SccResult V E} {v : V} {done : List E} {low n : ℕ} {e : E} {d : VertexData V}

section

omit [DecidableEq E]

theorem SearchInv.seen_visited (h : SearchInv graph weigher gray r) (hv : v ∈ r.visited) :
    r.Seen v := (h.cover v).mpr (Or.inl hv)

theorem SearchInv.visited_of_extends {gray' : List V} (hbase : SearchInv graph weigher gray base)
    (h : SearchInv graph weigher gray' r) (hgrows : Extends base r) (hseen : base.Seen v)
    (hv : v ∈ r.visited) : v ∈ base.visited := by
  refine ((hbase.cover v).mp hseen).resolve_right fun hfound => ?_
  obtain ⟨c, hc, hvc⟩ := List.mem_flatten.mp hfound
  exact h.apart v hv (List.mem_flatten.mpr ⟨c, hgrows.clusters.subset hc, hvc⟩)

theorem SearchInv.lower (h : SearchInv graph weigher gray r) (hd : r.data v = some d) :
    SearchInv graph weigher gray (r.lower v n) := by
  have hnum : (r.lower v n).num = r.num := funext fun u => SccResult.num_lower hd
  have hseen : ∀ u, (r.lower v n).Seen u ↔ r.Seen u := fun u => SccResult.seen_lower hd
  have hvisited : (r.lower v n).visited = r.visited := by rw [SccResult.lower_eq hd]
  have hclusters : (r.lower v n).clusterVertexes = r.clusterVertexes := by
    rw [SccResult.lower_eq hd]
  have hindex : (r.lower v n).index = r.index := by rw [SccResult.lower_eq hd]
  constructor <;> simp only [hnum, hseen, hvisited, hclusters, hindex]
  · exact h.fresh
  · exact h.sorted
  · exact h.cover
  · exact h.inside
  · exact h.apart
  · exact h.nonempty
  · exact h.lists
  · exact h.down
  · exact h.toGray
  · exact h.grays
  · exact h.black

theorem Scanning.lower (h : Scanning graph weigher gray v base done low r) (hv : ¬base.Seen v)
    (hd : r.data v = some d) : Scanning graph weigher gray v base done low (r.lower v n) := by
  have hnum : (r.lower v n).num = r.num := funext fun u => SccResult.num_lower hd
  have hseen : ∀ u, (r.lower v n).Seen u ↔ r.Seen u := fun u => SccResult.seen_lower hd
  have hvisited : (r.lower v n).visited = r.visited := by rw [SccResult.lower_eq hd]
  refine ⟨h.inv.lower hd, h.grows.lower hv hd, ?_, ?_, h.low_le, ?_, ?_, ?_⟩
  · rw [hnum, h.own]
  · rw [hvisited]
    exact h.stack
  · rw [hvisited, hnum]
    exact h.low_mem
  · rw [hvisited, hnum]
    exact h.low_edge
  · exact fun e he husable => (hseen _).mpr (h.seen e he husable)

theorem Starts.addData (h : Starts graph weigher gray v r) :
    SearchInv graph weigher (v :: gray) (r.addData v) := by
  have hne : ∀ u ∈ r.visited, u ≠ v := by
    rintro u hu rfl
    exact h.new (h.inv.seen_visited hu)
  have hold : ∀ u ∈ r.visited, (r.addData v).num u = r.num u := by
    intro u hu
    rw [SccResult.num_addData, if_neg (hne u hu)]
  have hown : (r.addData v).num v = r.index := by
    rw [SccResult.num_addData, if_pos rfl]
  have hbelow : ∀ u ∈ r.visited, r.num u < r.index :=
    fun u hu => h.inv.fresh u (h.inv.seen_visited hu)
  refine ⟨?_, ?_, ?_, ?_, ?_, h.inv.nonempty, h.inv.lists, ?_, ?_, ?_, ?_⟩
  · intro u hu
    rw [SccResult.num_addData]
    split_ifs with heq
    · exact Nat.lt_succ_self _
    · exact Nat.lt_succ_of_lt (h.inv.fresh u ((SccResult.seen_addData.mp hu).resolve_left heq))
  · refine List.pairwise_cons.mpr ⟨fun u hu => ?_, h.inv.sorted.imp_of_mem fun hu hw hlt => ?_⟩
    · rw [hold u hu, hown]
      exact hbelow u hu
    · rw [hold _ hu, hold _ hw]
      exact hlt
  · intro u
    rw [SccResult.seen_addData, h.inv.cover, ← or_assoc]
    exact or_congr_left List.mem_cons.symm
  · intro u hu
    rcases SccResult.seen_addData.mp hu with rfl | hu
    · exact h.inside
    · exact h.inv.inside u hu
  · refine List.forall_mem_cons.mpr ⟨fun hv => ?_, h.inv.apart⟩
    exact h.new ((h.inv.cover v).mpr (Or.inr hv))
  · intro u hu w hw hle
    rcases List.mem_cons.mp hu with rfl | hu
    · rcases List.mem_cons.mp hw with rfl | hw
      · exact reaches_start
      · rw [hown, hold w hw] at hle
        exact absurd (hbelow w hw) (not_lt.mpr hle)
    · rcases List.mem_cons.mp hw with heq | hw
      · -- over a gray vertex
        obtain ⟨g, hg, -, hlink⟩ := h.inv.toGray u hu
        exact heq ▸ hlink.trans (h.linked g hg)
      · rw [hold u hu, hold w hw] at hle
        exact h.inv.down u hu w hw hle
  · intro u hu
    rcases List.mem_cons.mp hu with rfl | hu
    · exact ⟨u, List.mem_cons_self, le_rfl, reaches_start⟩
    · obtain ⟨g, hg, hle, hlink⟩ := h.inv.toGray u hu
      refine ⟨g, List.mem_cons_of_mem v hg, ?_, hlink⟩
      rw [hold g (h.inv.grays g hg), hold u hu]
      exact hle
  · refine List.forall_mem_cons.mpr ⟨List.mem_cons_self, fun g hg => ?_⟩
    exact List.mem_cons_of_mem v (h.inv.grays g hg)
  · intro f hf hseen hgray
    rw [List.mem_cons, not_or] at hgray
    have hold := (SccResult.seen_addData.mp hseen).resolve_left hgray.1
    exact SccResult.seen_addData.mpr (Or.inr (h.inv.black f hf hold hgray.2))

theorem Starts.scanning (h : Starts graph weigher gray v r) :
    Scanning graph weigher gray v r [] r.index (r.addData v) where
  inv := h.addData
  grows := extends_addData h.new
  own := by rw [SccResult.num_addData, if_pos rfl]
  stack := List.suffix_refl _
  low_le := le_rfl
  low_mem := ⟨v, List.mem_cons_self, by rw [SccResult.num_addData, if_pos rfl], reaches_start⟩
  low_edge e he hsrc hle hdone hdst := by
    rcases List.mem_cons.mp hsrc with heq | hsrc
    · exact absurd (hdone heq) List.not_mem_nil
    · -- a vertex that was there before has a lesser index
      have hseen := h.inv.seen_visited hsrc
      rw [(extends_addData h.new).num hseen] at hle
      exact absurd (h.inv.fresh _ hseen) (not_lt.mpr hle)
  seen e he := absurd he List.not_mem_nil

section

variable (h : Scanning graph weigher gray v base done low r)

include h

theorem Scanning.pass
    (hseen : IsUsable graph weigher e → r.Seen (Edge.dst e) ∧ Edge.dst e ∉ r.visited) :
    Scanning graph weigher gray v base (done ++ [e]) low r := by
  refine ⟨h.inv, h.grows, h.own, h.stack, h.low_le, h.low_mem, ?_, ?_⟩
  · intro f hf hsrc hle hdone hdst
    refine h.low_edge f hf hsrc hle (fun heq => ?_) hdst
    rcases List.mem_append.mp (hdone heq) with hmem | hmem
    · exact hmem
    · obtain rfl := List.mem_singleton.mp hmem
      exact absurd hdst (hseen hf).2
  · intro f hf husable
    rcases List.mem_append.mp hf with hf | hf
    · exact h.seen f hf husable
    · obtain rfl := List.mem_singleton.mp hf
      exact (hseen husable).1

theorem Scanning.visit
    (he : IsUsable graph weigher e) (hsrc : Edge.src e = v) (hdst : Edge.dst e ∈ r.visited) :
    Scanning graph weigher gray v base (done ++ [e]) (min low (r.num (Edge.dst e))) r := by
  refine ⟨h.inv, h.grows, h.own, h.stack, (min_le_left _ _).trans h.low_le, ?_, ?_, ?_⟩
  · rcases min_choice low (r.num (Edge.dst e)) with hmin | hmin
    · rw [hmin]
      exact h.low_mem
    · rw [hmin]
      have hlink : IsLinked graph weigher v (Edge.dst e) := by
        rw [← hsrc]
        exact reaches_start.next he
      exact ⟨_, hdst, rfl, hlink⟩
  · intro f hf hfsrc hle hdone hfdst
    by_cases heq : f = e
    · rw [heq]
      exact min_le_right _ _
    · refine (min_le_left _ _).trans (h.low_edge f hf hfsrc hle (fun hv => ?_) hfdst)
      rcases List.mem_append.mp (hdone hv) with hmem | hmem
      · exact hmem
      · exact absurd (List.mem_singleton.mp hmem) heq
  · intro f hf husable
    rcases List.mem_append.mp hf with hf | hf
    · exact h.seen f hf husable
    · obtain rfl := List.mem_singleton.mp hf
      exact h.inv.seen_visited hdst

section

variable (hstart : Starts graph weigher gray v base)

include hstart

theorem Scanning.starts (he : IsUsable graph weigher e)
    (hsrc : Edge.src e = v) (hnew : ¬r.Seen (Edge.dst e)) :
    Starts graph weigher (v :: gray) (Edge.dst e) r := by
  have hv : IsLinked graph weigher v v := reaches_start
  have hnext : ∀ g, IsLinked graph weigher g v → IsLinked graph weigher g (Edge.dst e) := by
    intro g hg
    rw [← hsrc] at hg
    exact hg.next he
  refine ⟨h.inv, graph.dst_mem e he.1, hnew, List.forall_mem_cons.mpr ⟨hnext v hv, ?_⟩⟩
  exact fun g hg => hnext g (hstart.linked g hg)

theorem Scanning.not_gray {u : V} (hle : base.index ≤ r.num u) : u ∉ gray := by
  intro hu
  have hseen := hstart.inv.seen_visited (hstart.inv.grays u hu)
  rw [h.grows.num hseen] at hle
  exact absurd (hstart.inv.fresh u hseen) (not_lt.mpr hle)

/-- The edges of the vertexes above, and the ones of the vertex that were visited, have been seen to
their ends. -/
theorem Scanning.seen_dst (he : IsUsable graph weigher e)
    (hsrc : Edge.src e ∈ r.visited) (hle : base.index ≤ r.num (Edge.src e))
    (hdone : Edge.src e = v → e ∈ done) : r.Seen (Edge.dst e) := by
  by_cases hv : Edge.src e = v
  · exact h.seen e (hdone hv) he
  · refine h.inv.black e he (h.inv.seen_visited hsrc) fun hgray => ?_
    rcases List.mem_cons.mp hgray with heq | hgray
    · exact hv heq
    · exact h.not_gray hstart hle hgray

theorem Scanning.connect (he : IsUsable graph weigher e)
    (hsrc : Edge.src e = v) (hnew : ¬r.Seen (Edge.dst e)) {next : VertexData V × SccResult V E}
    (hnext : Connected graph weigher (v :: gray) (Edge.dst e) r next) :
    Scanning graph weigher gray v base (done ++ [e]) (min low next.1.lowLink) next.2 := by
  have hgrows := hnext.grows
  have hv : r.Seen v := h.inv.seen_visited (h.inv.grays v List.mem_cons_self)
  have hindex : next.2.num (Edge.dst e) = r.index := (SccResult.num_eq hnext.data).trans hnext.index
  have hlinked : IsLinked graph weigher v (Edge.dst e) := by
    rw [← hsrc]
    exact reaches_start.next he
  refine ⟨hnext.inv, h.grows.trans hgrows, ?_, h.stack.trans hgrows.stack,
    (min_le_left _ _).trans h.low_le, ?_, ?_, ?_⟩
  · rw [hgrows.num hv, h.own]
  · rcases min_choice low next.1.lowLink with hmin | hmin
    · obtain ⟨w, hw, hlow, hlink⟩ := h.low_mem
      rw [hmin]
      refine ⟨w, hgrows.stack.subset hw, ?_, hlink⟩
      rw [hgrows.num (h.inv.seen_visited hw), hlow]
    · -- the low link of the call is an index from before
      have hlt : next.1.lowLink < next.1.index := by
        have hle := min_le_left low next.1.lowLink
        have hfresh := h.inv.fresh v hv
        rw [hmin] at hle
        rw [h.own] at hfresh
        rw [hnext.index]
        exact (hle.trans h.low_le).trans_lt hfresh
      obtain ⟨w, hw, hlow, hlink⟩ := hnext.low_mem hlt
      rw [hmin]
      exact ⟨w, hw, hlow, hlinked.trans hlink⟩
  · intro f hf hfsrc hle hdone hdst
    by_cases hold : r.Seen (Edge.src f)
    · have hfsrc' := h.inv.visited_of_extends hnext.inv hgrows hold hfsrc
      rw [hgrows.num hold] at hle
      by_cases heq : f = e
      · rw [heq, hindex, ← hnext.index]
        exact (min_le_right _ _).trans hnext.low_le
      · have hdone' : Edge.src f = v → f ∈ done := by
          intro hfv
          rcases List.mem_append.mp (hdone hfv) with hmem | hmem
          · exact hmem
          · exact absurd (List.mem_singleton.mp hmem) heq
        have hseen := h.seen_dst hstart hf hfsrc' hle hdone'
        have hdst' := h.inv.visited_of_extends hnext.inv hgrows hseen hdst
        rw [hgrows.num hseen]
        exact (min_le_left _ _).trans (h.low_edge f hf hfsrc' hle hdone' hdst')
    · have hfresh := hgrows.fresh _ hold (hnext.inv.seen_visited hfsrc)
      rw [← hnext.index] at hfresh
      exact (min_le_right _ _).trans (hnext.low_edge f hf hfsrc hfresh hdst)
  · intro f hf husable
    rcases List.mem_append.mp hf with hf | hf
    · exact hgrows.seen (h.seen f hf husable)
    · obtain rfl := List.mem_singleton.mp hf
      rw [SccResult.Seen, hnext.data]
      exact Option.some_ne_none _

end

end

end

omit [DecidableEq E] [Edge V E] in
theorem findClusterVertices_eq {above rest : List V} (h : (above ++ v :: rest).Nodup) :
    SccResult.findClusterVertices v (above ++ v :: rest) = .ok (above ++ [v], rest) := by
  induction above with
  | nil =>
    rw [List.nil_append, SccResult.findClusterVertices, if_pos rfl]
    rfl
  | cons u above ih =>
    rw [List.cons_append] at h
    obtain ⟨hu, hrest⟩ := List.nodup_cons.mp h
    rw [List.mem_append, List.mem_cons, not_or, not_or] at hu
    have hnew : u ∉ above ++ [v] := by
      rw [List.mem_append, List.mem_singleton, not_or]
      exact ⟨hu.1, hu.2.1⟩
    rw [List.cons_append, SccResult.findClusterVertices, if_neg hu.2.1, ih hrest, Except.map,
      List.insert_of_not_mem hnew, List.cons_append]

theorem addCluster_eq {above rest : List V} (h : r.visited.Nodup)
    (hvisited : above ++ v :: rest = r.visited) : r.addCluster graph v = .ok { r with
      clusterVertexes := r.clusterVertexes ++ [above ++ [v]]
      clusterEdges := r.clusterEdges ++ [SccResult.findClusterEdges graph (above ++ [v])]
      visited := rest } := by
  rw [← hvisited] at h
  rw [SccResult.addCluster, ← hvisited, findClusterVertices_eq h]
  rfl

section

omit [DecidableEq E]

theorem Scanning.black (h : Scanning graph weigher gray v base done low r)
    (hdone : ∀ e, IsUsable graph weigher e → Edge.src e = v → e ∈ done)
    (he : IsUsable graph weigher e) (hseen : r.Seen (Edge.src e)) (hgray : Edge.src e ∉ gray) :
    r.Seen (Edge.dst e) := by
  by_cases hv : Edge.src e = v
  · exact h.seen e (hdone e he hv) he
  · refine h.inv.black e he hseen fun hmem => ?_
    exact (List.mem_cons.mp hmem).elim hv hgray

theorem Scanning.keep (h : Scanning graph weigher gray v base done low r)
    (hdone : ∀ e, IsUsable graph weigher e → Edge.src e = v → e ∈ done)
    (hlow : low < base.index) (hd : r.data v = some ⟨v, base.index, low⟩) :
    Connected graph weigher gray v base (⟨v, base.index, low⟩, r) where
  inv := by
    refine { h.inv with toGray := fun u hu => ?_, grays := fun g hg => ?_, black := ?_ }
    · obtain ⟨g, hg, hle, hlink⟩ := h.inv.toGray u hu
      rcases List.mem_cons.mp hg with rfl | hg
      · -- over the vertex that the low link is the index of
        obtain ⟨w, hw, hnum, hvw⟩ := h.low_mem
        obtain ⟨g', hg', hle', hlink'⟩ := h.inv.toGray w hw
        rw [h.own] at hle
        rcases List.mem_cons.mp hg' with rfl | hg'
        · rw [h.own] at hle'
          omega
        · refine ⟨g', hg', hle'.trans ?_, (hlink.trans hvw).trans hlink'⟩
          exact hnum.symm ▸ hlow.le.trans hle
      · exact ⟨g, hg, hle, hlink⟩
    · exact h.inv.grays g (List.mem_cons_of_mem v hg)
    · exact fun e he hseen hgray => h.black hdone he hseen hgray
  grows := h.grows
  data := hd
  index := rfl
  low_le := hlow.le
  low_mem _ := h.low_mem
  low_edge e he hsrc hle hdst := h.low_edge e he hsrc hle (hdone e he) hdst

theorem SearchInv.nodup_visited (h : SearchInv graph weigher gray r) : r.visited.Nodup := by
  refine h.sorted.imp fun hlt heq => ?_
  rw [heq] at hlt
  exact lt_irrefl _ hlt

end

/-! The vertexes above a vertex that is its own low link are a cluster with it. -/

section Popping

variable {above : List V}

omit [DecidableEq E]

section

variable (h : Scanning graph weigher gray v base done low r)

include h

theorem Scanning.le_num
    (hvisited : above ++ v :: base.visited = r.visited) {u : V} (hu : u ∈ above ++ [v]) :
    base.index ≤ r.num u := by
  have hsorted := h.inv.sorted
  rw [← hvisited, List.pairwise_append] at hsorted
  rcases List.mem_append.mp hu with hu | hu
  · exact h.own ▸ (hsorted.2.2 u hu v List.mem_cons_self).le
  · rw [List.mem_singleton.mp hu, h.own]

theorem Scanning.num_lt
    (hstart : Starts graph weigher gray v base) {u : V} (hu : u ∈ base.visited) :
    r.num u < base.index := by
  have hseen := hstart.inv.seen_visited hu
  rw [h.grows.num hseen]
  exact hstart.inv.fresh u hseen

theorem Scanning.mem_above (hstart : Starts graph weigher gray v base)
    (hvisited : above ++ v :: base.visited = r.visited) (u : V) :
    u ∈ above ++ [v] ↔ u ∈ r.visited ∧ u ∉ base.visited := by
  constructor
  · intro hu
    refine ⟨?_, fun hold => ?_⟩
    · rw [← hvisited, List.append_cons]
      exact List.mem_append_left _ hu
    · exact absurd (h.le_num hvisited hu) (not_le.mpr (h.num_lt hstart hold))
  · rintro ⟨hu, hold⟩
    rw [← hvisited, List.append_cons] at hu
    exact (List.mem_append.mp hu).resolve_right hold

end

section

variable (h : Scanning graph weigher gray v base done base.index r)

include h

section

variable (hstart : Starts graph weigher gray v base)

include hstart

theorem Scanning.closed (hdone : ∀ e, IsUsable graph weigher e → Edge.src e = v → e ∈ done)
    (hvisited : above ++ v :: base.visited = r.visited) (he : IsUsable graph weigher e)
    (hsrc : Edge.src e ∈ above ++ [v]) :
    Edge.dst e ∈ r.clusterVertexes.flatten ∨ Edge.dst e ∈ above ++ [v] := by
  have hle := h.le_num hvisited hsrc
  have hmem := ((h.mem_above hstart hvisited _).mp hsrc).1
  have hseen := h.seen_dst hstart he hmem hle (hdone e he)
  rcases (h.inv.cover _).mp hseen with hdst | hdst
  · refine Or.inr ((h.mem_above hstart hvisited _).mpr ⟨hdst, fun hold => ?_⟩)
    have hlow := h.low_edge e he hmem hle (hdone e he) hdst
    exact absurd (h.num_lt hstart hold) (not_lt.mpr hlow)
  · exact Or.inl hdst

theorem Scanning.linked_back (hdone : ∀ e, IsUsable graph weigher e → Edge.src e = v → e ∈ done)
    (hvisited : above ++ v :: base.visited = r.visited) {u : V} (hu : u ∈ above ++ [v]) :
    IsLinked graph weigher u v := by
  obtain ⟨g, hg, -, hlink⟩ := h.inv.toGray u ((h.mem_above hstart hvisited u).mp hu).1
  rcases List.mem_cons.mp hg with rfl | hg
  · exact hlink
  · have hold := hstart.inv.grays g hg
    have hclosed : ∀ e, IsUsable graph weigher e →
        (Edge.src e ∈ r.clusterVertexes.flatten ∨ Edge.src e ∈ above ++ [v]) →
        (Edge.dst e ∈ r.clusterVertexes.flatten ∨ Edge.dst e ∈ above ++ [v]) := by
      rintro e he (hsrc | hsrc)
      · exact Or.inl (h.inv.lists.closed _ (List.prefix_refl _) e he hsrc)
      · exact h.closed hstart hdone hvisited he hsrc
    have hreached : g ∈ r.clusterVertexes.flatten ∨ g ∈ above ++ [v] :=
      Reaches.mem_of_closed (S := fun x => x ∈ r.clusterVertexes.flatten ∨ x ∈ above ++ [v]) hlink
        hclosed (Or.inr hu)
    rcases hreached with hcluster | habove
    · exact absurd hcluster (h.inv.apart g (h.grows.stack.subset hold))
    · exact absurd hold ((h.mem_above hstart hvisited g).mp habove).2

theorem Scanning.lists (hdone : ∀ e, IsUsable graph weigher e → Edge.src e = v → e ∈ done)
    (hvisited : above ++ v :: base.visited = r.visited) :
    ListsComponents Edge.src Edge.dst (IsUsable graph weigher)
      (r.clusterVertexes ++ [above ++ [v]]) := by
  have hmem := h.mem_above hstart hvisited
  have hv : v ∈ r.visited := h.inv.grays v List.mem_cons_self
  refine h.inv.lists.concat (fun u hu w hw => ?_) (fun e he hsrc => ?_) ?_ fun u hu => ?_
  · have hdown := h.inv.down v hv w ((hmem w).mp hw).1 (h.own ▸ h.le_num hvisited hw)
    exact (h.linked_back hstart hdone hvisited hu).trans hdown
  · exact h.closed hstart hdone hvisited he hsrc
  · have hnodup := h.inv.nodup_visited
    rw [← hvisited, List.append_cons] at hnodup
    exact hnodup.of_append_left
  · exact h.inv.apart u ((hmem u).mp hu).1

theorem Scanning.pop (hdone : ∀ e, IsUsable graph weigher e → Edge.src e = v → e ∈ done)
    (hvisited : above ++ v :: base.visited = r.visited)
    (hd : r.data v = some ⟨v, base.index, base.index⟩) (edges : List (List E)) :
    Connected graph weigher gray v base (⟨v, base.index, base.index⟩, { r with
      clusterVertexes := r.clusterVertexes ++ [above ++ [v]]
      clusterEdges := edges
      visited := base.visited }) := by
  have hmem := h.mem_above hstart hvisited
  have hsub := h.grows.stack.subset
  refine ⟨⟨h.inv.fresh, ?_, fun u => ?_, h.inv.inside, fun u hu => ?_, fun c hc => ?_, ?_, ?_, ?_,
    hstart.inv.grays, ?_⟩, ⟨h.grows.data, h.grows.fresh, ?_, List.suffix_refl _, h.grows.index⟩, hd,
    rfl, le_rfl, fun hlt => absurd hlt (lt_irrefl _), ?_⟩
  · have hsorted := h.inv.sorted
    exact hsorted.sublist h.grows.stack.sublist
  · refine (h.inv.cover u).trans ?_
    dsimp only
    rw [List.flatten_concat, List.mem_append, hmem]
    by_cases hold : u ∈ base.visited
    · exact iff_of_true (Or.inl (hsub hold)) (Or.inl hold)
    · tauto
  · dsimp only
    rw [List.flatten_concat, List.mem_append, not_or]
    exact ⟨h.inv.apart u (hsub hu), fun habove => ((hmem u).mp habove).2 hu⟩
  · rcases List.mem_append.mp hc with hc | hc
    · exact h.inv.nonempty c hc
    · rw [List.mem_singleton.mp hc]
      exact List.concat_ne_nil v above
  · exact h.lists hstart hdone hvisited
  · exact fun u hu w hw hle => h.inv.down u (hsub hu) w (hsub hw) hle
  · intro u hu
    obtain ⟨g, hg, hle, hlink⟩ := h.inv.toGray u (hsub hu)
    rcases List.mem_cons.mp hg with rfl | hg
    · rw [h.own] at hle
      exact absurd (h.num_lt hstart hu) (not_lt.mpr hle)
    · exact ⟨g, hg, hle, hlink⟩
  · exact fun e he hseen hgray => h.black hdone he hseen hgray
  · exact h.grows.clusters.trans (List.prefix_append _ _)
  · intro e _ hsrc hle
    exact absurd (h.num_lt hstart hsrc) (not_lt.mpr hle)

end

end

end Popping

end Calls

section Search

variable {graph : DirectedGraph V E} {weigher : Option (EdgeWeigher E M)} {gray : List V}
  {base r : SccResult V E} {v : V} {done : List E} {low depth : ℕ} {e : E}

def unseen (graph : DirectedGraph V E) (r : SccResult V E) : List V :=
  graph.getVertexes.filter fun v => (r.data v).isNone

section

omit [DecidableEq E]

theorem mem_unseen : v ∈ unseen graph r ↔ v ∈ graph.getVertexes ∧ ¬r.Seen v := by
  rw [unseen, List.mem_filter, Option.isNone_iff_eq_none, not_not]

theorem Scanning.unseen_lt (h : Scanning graph weigher gray v base done low r)
    (hstart : Starts graph weigher gray v base) :
    (unseen graph r).length < (unseen graph base).length := by
  have hv : v ∉ unseen graph r := by
    rw [mem_unseen, not_and_not_right]
    exact fun _ => h.inv.seen_visited (h.inv.grays v List.mem_cons_self)
  have hsub : v :: unseen graph r ⊆ unseen graph base := by
    refine List.cons_subset.mpr ⟨mem_unseen.mpr ⟨hstart.inside, hstart.new⟩, fun u hu => ?_⟩
    obtain ⟨hmem, hnew⟩ := mem_unseen.mp hu
    exact mem_unseen.mpr ⟨hmem, fun hseen => hnew (h.grows.seen hseen)⟩
  have hnodup : (v :: unseen graph r).Nodup :=
    List.nodup_cons.mpr ⟨hv, graph.nodup_vertexes.filter _⟩
  exact (List.subperm_of_subset hnodup hsub).length_le

end

variable (graph weigher) in
def Connects (depth : ℕ)
    (call : V → SccResult V E → Except String (VertexData V × SccResult V E)) : Prop :=
  ∀ gray v r, Starts graph weigher gray v r → (unseen graph r).length ≤ depth →
    ∃ next, call v r = .ok next ∧ Connected graph weigher gray v r next

variable {call : V → SccResult V E → Except String (VertexData V × SccResult V E)}

section

omit [DecidableEq E]

theorem Scanning.visitEdge_spec (hcall : Connects graph weigher depth call)
    (hstart : Starts graph weigher gray v base)
    (hdepth : (unseen graph base).length ≤ depth + 1) (he : e ∈ graph.getEdges)
    (hsrc : Edge.src e = v) (h : Scanning graph weigher gray v base done low r)
    (hd : r.data v = some ⟨v, base.index, low⟩) :
    ∃ r' low', visitEdge weigher call v r e = .ok r' ∧
      Scanning graph weigher gray v base (done ++ [e]) low' r' ∧
      r'.data v = some ⟨v, base.index, low'⟩ := by
  rw [visitEdge]
  by_cases hviable : isViable weigher e = true
  · rw [if_pos hviable]
    cases hdata : r.data (Edge.dst e) with
    | none =>
      have hnew : ¬r.Seen (Edge.dst e) := not_not.mpr hdata
      have hlt := h.unseen_lt hstart
      obtain ⟨next, hok, hnext⟩ :=
        hcall _ _ _ (h.starts hstart ⟨he, hviable⟩ hsrc hnew) (by omega)
      have hkept : next.2.data v = some ⟨v, base.index, low⟩ := by
        rw [hnext.grows.data v (by rw [SccResult.Seen, hd]; exact Option.some_ne_none _), hd]
      refine ⟨_, _, by rw [hok]; rfl,
        (h.connect hstart ⟨he, hviable⟩ hsrc hnew hnext).lower hstart.new hkept, ?_⟩
      rw [SccResult.data_lower hkept, if_pos rfl]
    | some nextData =>
      have hseen : r.Seen (Edge.dst e) := by
        rw [SccResult.Seen, hdata]
        exact Option.some_ne_none _
      by_cases hvisited : Edge.dst e ∈ r.visited
      · have hvisit := h.visit ⟨he, hviable⟩ hsrc hvisited
        rw [SccResult.num_eq hdata] at hvisit
        refine ⟨_, _, congrArg Except.ok (if_pos hvisited), hvisit.lower hstart.new hd, ?_⟩
        rw [SccResult.data_lower hd, if_pos rfl]
      · refine ⟨r, low, congrArg Except.ok (if_neg hvisited), h.pass fun _ => ?_, hd⟩
        exact ⟨hseen, hvisited⟩
  · rw [if_neg hviable]
    exact ⟨r, low, rfl, h.pass fun husable => absurd husable.2 hviable, hd⟩

theorem Scanning.visitEdges_spec (hcall : Connects graph weigher depth call)
    (hstart : Starts graph weigher gray v base)
    (hdepth : (unseen graph base).length ≤ depth + 1) {edges : List E}
    (hedges : ∀ e ∈ edges, e ∈ graph.getEdges ∧ Edge.src e = v)
    (h : Scanning graph weigher gray v base done low r)
    (hd : r.data v = some ⟨v, base.index, low⟩) :
    ∃ r' low', edges.foldlM (visitEdge weigher call v) r = .ok r' ∧
      Scanning graph weigher gray v base (done ++ edges) low' r' ∧
      r'.data v = some ⟨v, base.index, low'⟩ := by
  induction edges generalizing done low r with
  | nil => exact ⟨r, low, rfl, by rwa [List.append_nil], hd⟩
  | cons e edges ih =>
    obtain ⟨⟨he, hsrc⟩, hedges⟩ := List.forall_mem_cons.mp hedges
    obtain ⟨r₁, low₁, hok, h₁, hd₁⟩ := h.visitEdge_spec hcall hstart hdepth he hsrc hd
    obtain ⟨r', low', hok', h', hd'⟩ := ih hedges h₁ hd₁
    refine ⟨r', low', ?_, ?_, hd'⟩
    · rw [List.foldlM_cons, hok]
      exact hok'
    · rw [List.append_assoc] at h'
      exact h'

end

theorem connects (depth : ℕ) : Connects graph weigher depth (connect graph weigher depth) := by
  induction depth with
  | zero =>
    intro gray v r hstart hdepth
    have hv : v ∈ unseen graph r := mem_unseen.mpr ⟨hstart.inside, hstart.new⟩
    rw [List.length_eq_zero_iff.mp (Nat.le_zero.mp hdepth)] at hv
    exact absurd hv List.not_mem_nil
  | succ depth ih =>
    intro gray v r hstart hdepth
    have hfrom : ∀ e ∈ graph.getEdgesFrom v, e ∈ graph.getEdges ∧ Edge.src e = v :=
      fun e he => (graph.mem_edgesFrom v e).mp he
    obtain ⟨r', low, hok, h, hd⟩ := hstart.scanning.visitEdges_spec ih hstart hdepth hfrom
      (by rw [SccResult.data_addData, if_pos rfl])
    rw [List.nil_append] at h
    have hdone : ∀ e, IsUsable graph weigher e → Edge.src e = v → e ∈ graph.getEdgesFrom v :=
      fun e he hsrc => (graph.mem_edgesFrom v e).mpr ⟨he.1, hsrc⟩
    rw [connect, hok, Except.bind, hd]
    dsimp only
    by_cases hlow : low = r.index
    · subst hlow
      obtain ⟨above, hvisited⟩ := h.stack
      rw [if_pos rfl, addCluster_eq h.inv.nodup_visited hvisited]
      exact ⟨_, rfl, h.pop hstart hdone hvisited hd _⟩
    · rw [if_neg hlow]
      exact ⟨_, rfl, h.keep hdone (lt_of_le_of_ne h.low_le hlow) hd⟩

omit [DecidableEq E] in
theorem searchInv_empty : SearchInv graph weigher [] SccResult.empty where
  fresh v hv := absurd rfl hv
  sorted := List.Pairwise.nil
  cover v := iff_of_false (not_not.mpr rfl) (by simp [SccResult.empty])
  inside v hv := absurd rfl hv
  apart v hv := absurd hv List.not_mem_nil
  nonempty c hc := absurd hc List.not_mem_nil
  lists := listsComponents_nil
  down u hu := absurd hu List.not_mem_nil
  toGray v hv := absurd hv List.not_mem_nil
  grays g hg := absurd hg List.not_mem_nil
  black e _ hseen := absurd rfl hseen

theorem searchVertexes_spec {vertexes : List V} (hvertexes : vertexes ⊆ graph.getVertexes)
    (h : SearchInv graph weigher [] r) :
    ∃ r', vertexes.foldlM (fun r vertex =>
        if (r.data vertex).isNone then
          (connect graph weigher graph.getVertexes.length vertex r).map Prod.snd
        else .ok r) r = .ok r' ∧
      SearchInv graph weigher [] r' ∧ Extends r r' ∧ ∀ v ∈ vertexes, r'.Seen v := by
  induction vertexes generalizing r with
  | nil => exact ⟨r, rfl, h, Extends.refl r, fun v hv => absurd hv List.not_mem_nil⟩
  | cons v vertexes ih =>
    obtain ⟨hv, hvertexes⟩ := List.cons_subset.mp hvertexes
    rw [List.foldlM_cons]
    by_cases hseen : r.Seen v
    · obtain ⟨r', hok, h', hgrows, hall⟩ := ih hvertexes h
      refine ⟨r', ?_, h', hgrows, List.forall_mem_cons.mpr ⟨hgrows.seen hseen, hall⟩⟩
      rw [if_neg (by simpa using hseen)]
      exact hok
    · have hstart : Starts graph weigher [] v r :=
        ⟨h, hv, hseen, fun g hg => absurd hg List.not_mem_nil⟩
      obtain ⟨next, hok₁, hnext⟩ := connects graph.getVertexes.length [] v r hstart
        (List.length_filter_le _ _)
      obtain ⟨r', hok, h', hgrows, hall⟩ := ih hvertexes hnext.inv
      have hfound : next.2.Seen v := by
        rw [SccResult.Seen, hnext.data]
        exact Option.some_ne_none _
      refine ⟨r', ?_, h', hnext.grows.trans hgrows,
        List.forall_mem_cons.mpr ⟨hgrows.seen hfound, hall⟩⟩
      rw [if_pos (by simpa using hseen), hok₁]
      exact hok

end Search

section Result

variable (graph : DirectedGraph V E) (weigher : Option (EdgeWeigher E M))

/-- The sets are the strongly connected components of the graph, an edge between two of them leads
to the one that comes first. -/
structure AreClusters (clusters : List (List V)) : Prop where
  nonempty : ∀ c ∈ clusters, c ≠ []
  partition : clusters.flatten.Perm graph.getVertexes
  share : ∀ u ∈ graph.getVertexes, ∀ v ∈ graph.getVertexes,
    (∃ c ∈ clusters, u ∈ c ∧ v ∈ c) ↔ IsLinked graph weigher u v ∧ IsLinked graph weigher v u
  order : ∀ (i j : ℕ) (a b : List V), clusters[i]? = some a → clusters[j]? = some b → a ≠ b →
    ∀ e, IsUsable graph weigher e → Edge.src e ∈ a → Edge.dst e ∈ b → j < i

omit [DecidableEq E] in
variable {graph weigher} in
theorem SearchInv.areClusters {r : SccResult V E} (h : SearchInv graph weigher [] r)
    (hall : ∀ v ∈ graph.getVertexes, r.Seen v) :
    AreClusters graph weigher r.clusterVertexes := by
  have hempty : ∀ v, v ∉ r.visited := by
    intro v hv
    obtain ⟨g, hg, -⟩ := h.toGray v hv
    exact List.not_mem_nil hg
  have hmem : ∀ v, v ∈ r.clusterVertexes.flatten ↔ v ∈ graph.getVertexes := by
    intro v
    refine ⟨fun hv => h.inside v ((h.cover v).mpr (Or.inr hv)), fun hv => ?_⟩
    exact ((h.cover v).mp (hall v hv)).resolve_left (hempty v)
  refine ⟨h.nonempty, ?_, fun u hu v hv => ?_, fun i j a b hi hj hne e he hsrc hdst => ?_⟩
  · exact (List.perm_ext_iff_of_nodup h.lists.nodup graph.nodup_vertexes).mpr hmem
  · exact h.lists.share_iff ((hmem u).mpr hu) ((hmem v).mpr hv)
  · exact h.lists.precedes hi hj hne he hsrc hdst

/-- For every graph, with or without a weigher. -/
theorem search_clusters : ∃ result, search graph weigher = .ok result ∧
    AreClusters graph weigher result.clusterVertexes := by
  obtain ⟨result, hok, hinv, -, hall⟩ :=
    searchVertexes_spec (List.Subset.refl graph.getVertexes) searchInv_empty
  exact ⟨result, hok, hinv.areClusters hall⟩

def ring : DirectedGraph ℕ TestEdge :=
  adjacencyListsGraph [0, 1, 2] [⟨0, 1, 1⟩, ⟨1, 0, 1⟩, ⟨1, 2, 1⟩, ⟨2, 0, 0⟩]

def openEdges : EdgeWeigher TestEdge ℤ where
  weight e := if e.weight = 0 then none else some e.weight
  getInitialWeight := 0

example : (search ring (some openEdges)).map (fun r => r.clusterVertexes) = .ok [[2], [0, 1]] := by
  decide

end Result

end TarjanGraphSearch

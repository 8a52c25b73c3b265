import Onos.GraphPathSearch
import Onos.Lib.InputMachine
import Mathlib.Data.Finset.Image

/-! The mutable graph, with its edges indexed by their sources and by their destinations. A set
multimap is the set of its entries; what is removed from it may be any object, so an edge or a set
of edges. -/
namespace AdjacencyLists

open GraphPathSearch InputMachine

universe u v

abbrev SetMultimap (V : Type u) (E : Type v) := Finset (V × E)

variable {V : Type u} {E : Type v} [DecidableEq V] [DecidableEq E]

namespace SetMultimap

def get (m : SetMultimap V E) (key : V) : Finset E :=
  (m.filter fun entry => entry.1 = key).image Prod.snd

def put (m : SetMultimap V E) (key : V) (value : E) : SetMultimap V E := insert (key, value) m

def remove (m : SetMultimap V E) (key : V) : E ⊕ Finset E → SetMultimap V E
  | .inl value => Finset.erase m (key, value)
  | .inr _ => m

variable {m : SetMultimap V E} {key : V} {e : E}

@[simp] theorem mem_get : e ∈ m.get key ↔ (key, e) ∈ m := by simp [get]

@[simp] theorem mem_put {entry : V × E} :
    entry ∈ m.put key e ↔ entry = (key, e) ∨ entry ∈ m := Finset.mem_insert

@[simp] theorem mem_remove {entry : V × E} :
    entry ∈ m.remove key (.inl e) ↔ entry ≠ (key, e) ∧ entry ∈ m := Finset.mem_erase

end SetMultimap

structure MutableAdjacencyListsGraph (V : Type u) (E : Type v) where
  vertexes : Finset V
  edges : Finset E
  sources : SetMultimap V E
  destinations : SetMultimap V E

inductive GraphInput (V : Type u) (E : Type v) where
  | addVertex (vertex : V)
  | removeVertex (vertex : V)
  | addEdge (edge : E)
  | removeEdge (edge : E)
  | clear

namespace MutableAdjacencyListsGraph

def getEdgesFrom (g : MutableAdjacencyListsGraph V E) (src : V) : Finset E := g.sources.get src

def getEdgesTo (g : MutableAdjacencyListsGraph V E) (dst : V) : Finset E := g.destinations.get dst

def addVertex (g : MutableAdjacencyListsGraph V E) (vertex : V) : MutableAdjacencyListsGraph V E :=
  { g with vertexes := insert vertex g.vertexes }

def removeVertex (g : MutableAdjacencyListsGraph V E) (vertex : V) :
    MutableAdjacencyListsGraph V E :=
  if vertex ∈ g.vertexes then
    let srcEdgesList := g.sources.get vertex
    let dstEdgesList := g.destinations.get vertex
    { g with
      vertexes := g.vertexes.erase vertex
      edges := (g.edges \ srcEdgesList) \ dstEdgesList
      -- the index of the sources is named twice
      sources := (g.sources.remove vertex (.inr srcEdgesList)).remove vertex (.inr dstEdgesList) }
  else g

def clear (_ : MutableAdjacencyListsGraph V E) : MutableAdjacencyListsGraph V E := ⟨∅, ∅, ∅, ∅⟩

variable [Edge V E]

def create (vertex : Finset V) (edge : Finset E) : MutableAdjacencyListsGraph V E where
  vertexes := vertex ∪ edge.image Edge.src ∪ edge.image Edge.dst
  edges := edge
  sources := edge.image fun e => (Edge.src e, e)
  destinations := edge.image fun e => (Edge.dst e, e)

def addEdge (g : MutableAdjacencyListsGraph V E) (edge : E) : MutableAdjacencyListsGraph V E :=
  if edge ∈ g.edges then g
  else
    { g with
      edges := insert edge g.edges
      sources := g.sources.put (Edge.src edge) edge
      destinations := g.destinations.put (Edge.dst edge) edge }

def removeEdge (g : MutableAdjacencyListsGraph V E) (edge : E) : MutableAdjacencyListsGraph V E :=
  if edge ∈ g.edges then
    { g with
      edges := g.edges.erase edge
      sources := g.sources.remove (Edge.src edge) (.inl edge)
      destinations := g.destinations.remove (Edge.dst edge) (.inl edge) }
  else g

def next (g : MutableAdjacencyListsGraph V E) : GraphInput V E → MutableAdjacencyListsGraph V E
  | .addVertex vertex => g.addVertex vertex
  | .removeVertex vertex => g.removeVertex vertex
  | .addEdge edge => g.addEdge edge
  | .removeEdge edge => g.removeEdge edge
  | .clear => g.clear

end MutableAdjacencyListsGraph

variable [Edge V E]

def graphMachine (vertex : Finset V) (edge : Finset E) :
    Machine (MutableAdjacencyListsGraph V E) (GraphInput V E) where
  initial := .create vertex edge
  enabled _ _ := True
  next := .next

structure InStep (g : MutableAdjacencyListsGraph V E) : Prop where
  edgesFrom : ∀ v, g.getEdgesFrom v = g.edges.filter fun e => Edge.src e = v
  edgesTo : ∀ v, g.getEdgesTo v = g.edges.filter fun e => Edge.dst e = v

def RemovesIsolated (g : MutableAdjacencyListsGraph V E) : GraphInput V E → Prop
  | .removeVertex vertex => vertex ∈ g.vertexes →
      ∀ e ∈ g.edges, Edge.src e ≠ vertex ∧ Edge.dst e ≠ vertex
  | .addVertex _ | .addEdge _ | .removeEdge _ | .clear => True

section Indexes

def Indexes (key : E → V) (m : SetMultimap V E) (edges : Finset E) : Prop :=
  ∀ v e, (v, e) ∈ m ↔ e ∈ edges ∧ key e = v

variable {key : E → V} {m : SetMultimap V E} {edges : Finset E}

section

omit [Edge V E]

theorem indexes_iff : Indexes key m edges ↔ ∀ v, m.get v = edges.filter fun e => key e = v := by
  constructor
  · intro h v
    ext e
    rw [SetMultimap.mem_get, Finset.mem_filter]
    exact h v e
  · intro h v e
    rw [← SetMultimap.mem_get, h v, Finset.mem_filter]

theorem indexes_image (key : E → V) (edges : Finset E) :
    Indexes key (edges.image fun e => (key e, e)) edges := by
  intro v e
  constructor
  · intro h
    obtain ⟨f, hf, heq⟩ := Finset.mem_image.mp h
    obtain ⟨rfl, rfl⟩ := Prod.mk.inj heq
    exact ⟨hf, rfl⟩
  · rintro ⟨he, rfl⟩
    exact Finset.mem_image_of_mem _ he

theorem Indexes.put (h : Indexes key m edges) (edge : E) :
    Indexes key (m.put (key edge) edge) (insert edge edges) := by
  intro v e
  rw [SetMultimap.mem_put, Finset.mem_insert, h v e]
  constructor
  · rintro (heq | ⟨he, hv⟩)
    · obtain ⟨rfl, rfl⟩ := Prod.mk.inj heq
      exact ⟨Or.inl rfl, rfl⟩
    · exact ⟨Or.inr he, hv⟩
  · rintro ⟨rfl | he, rfl⟩
    · exact Or.inl rfl
    · exact Or.inr ⟨he, rfl⟩

theorem Indexes.remove (h : Indexes key m edges) (edge : E) :
    Indexes key (m.remove (key edge) (.inl edge)) (edges.erase edge) := by
  intro v e
  rw [SetMultimap.mem_remove, Finset.mem_erase, h v e]
  constructor
  · rintro ⟨hne, he, rfl⟩
    refine ⟨⟨?_, he⟩, rfl⟩
    rintro rfl
    exact hne rfl
  · rintro ⟨⟨hne, he⟩, rfl⟩
    exact ⟨fun heq => hne (Prod.mk.inj heq).2, he, rfl⟩

end

omit [DecidableEq V] [DecidableEq E] [Edge V E] in
theorem Indexes.unique {edges' : Finset E} (h : Indexes key m edges) (h' : Indexes key m edges') :
    edges = edges' := by
  ext e
  have hboth := (h (key e) e).symm.trans (h' (key e) e)
  simpa using hboth

theorem inStep_iff {g : MutableAdjacencyListsGraph V E} : InStep g ↔
    Indexes Edge.src g.sources g.edges ∧ Indexes Edge.dst g.destinations g.edges :=
  ⟨fun h => ⟨indexes_iff.mpr h.edgesFrom, indexes_iff.mpr h.edgesTo⟩,
    fun h => ⟨indexes_iff.mp h.1, indexes_iff.mp h.2⟩⟩

end Indexes

section Runs

variable {g : MutableAdjacencyListsGraph V E}

theorem inStep_create (vertex : Finset V) (edge : Finset E) :
    InStep (MutableAdjacencyListsGraph.create vertex edge) :=
  inStep_iff.mpr ⟨indexes_image Edge.src edge, indexes_image Edge.dst edge⟩

theorem inStep_addEdge (h : InStep g) (edge : E) : InStep (g.addEdge edge) := by
  obtain ⟨hsources, hdestinations⟩ := inStep_iff.mp h
  unfold MutableAdjacencyListsGraph.addEdge
  split_ifs
  · exact h
  · exact inStep_iff.mpr ⟨hsources.put edge, hdestinations.put edge⟩

theorem inStep_removeEdge (h : InStep g) (edge : E) : InStep (g.removeEdge edge) := by
  obtain ⟨hsources, hdestinations⟩ := inStep_iff.mp h
  unfold MutableAdjacencyListsGraph.removeEdge
  split_ifs
  · exact inStep_iff.mpr ⟨hsources.remove edge, hdestinations.remove edge⟩
  · exact h

theorem inStep_clear (g : MutableAdjacencyListsGraph V E) : InStep g.clear :=
  inStep_iff.mpr ⟨indexes_image Edge.src ∅, indexes_image Edge.dst ∅⟩

theorem mem_edges_removeVertex (h : InStep g) {vertex : V} (hvertex : vertex ∈ g.vertexes) (e : E) :
    e ∈ (g.removeVertex vertex).edges ↔
      e ∈ g.edges ∧ Edge.src e ≠ vertex ∧ Edge.dst e ≠ vertex := by
  have hedges : (g.removeVertex vertex).edges =
      (g.edges \ g.getEdgesFrom vertex) \ g.getEdgesTo vertex := by
    rw [MutableAdjacencyListsGraph.removeVertex, if_pos hvertex]
    rfl
  rw [hedges, h.edgesFrom, h.edgesTo]
  simp only [Finset.mem_sdiff, Finset.mem_filter, not_and]
  constructor
  · rintro ⟨⟨he, hsrc⟩, hdst⟩
    exact ⟨he, hsrc he, hdst he⟩
  · rintro ⟨he, hsrc, hdst⟩
    exact ⟨⟨he, fun _ => hsrc⟩, fun _ => hdst⟩

omit [Edge V E] in
theorem indexes_removeVertex (g : MutableAdjacencyListsGraph V E) (vertex : V) :
    (g.removeVertex vertex).sources = g.sources ∧
      (g.removeVertex vertex).destinations = g.destinations := by
  rw [MutableAdjacencyListsGraph.removeVertex]
  split_ifs <;> exact ⟨rfl, rfl⟩

theorem inStep_removeVertex (h : InStep g) (vertex : V) :
    InStep (g.removeVertex vertex) ↔ RemovesIsolated g (.removeVertex vertex) := by
  obtain ⟨hsources, hdestinations⟩ := inStep_iff.mp h
  obtain ⟨hsrc, hdst⟩ := indexes_removeVertex g vertex
  constructor
  · intro hnext hvertex e he
    have hkept : g.edges = (g.removeVertex vertex).edges := by
      have hsources' := (inStep_iff.mp hnext).1
      rw [hsrc] at hsources'
      exact hsources.unique hsources'
    rw [hkept] at he
    exact ((mem_edges_removeVertex h hvertex e).mp he).2
  · intro hisolated
    by_cases hvertex : vertex ∈ g.vertexes
    · have hkept : (g.removeVertex vertex).edges = g.edges := by
        ext e
        rw [mem_edges_removeVertex h hvertex]
        exact ⟨fun hmem => hmem.1, fun he => ⟨he, hisolated hvertex e he⟩⟩
      rw [inStep_iff, hsrc, hdst, hkept]
      exact ⟨hsources, hdestinations⟩
    · rw [MutableAdjacencyListsGraph.removeVertex, if_neg hvertex]
      exact h

theorem inStep_next (h : InStep g) (x : GraphInput V E) :
    InStep (g.next x) ↔ RemovesIsolated g x := by
  cases x with
  | addVertex vertex => exact ⟨fun _ => trivial, fun _ => ⟨h.edgesFrom, h.edgesTo⟩⟩
  | removeVertex vertex => exact inStep_removeVertex h vertex
  | addEdge edge => exact ⟨fun _ => trivial, fun _ => inStep_addEdge h edge⟩
  | removeEdge edge => exact ⟨fun _ => trivial, fun _ => inStep_removeEdge h edge⟩
  | clear => exact ⟨fun _ => trivial, fun _ => inStep_clear g⟩

/-- The indexes are in step throughout a run exactly when every vertex that is removed has lost
its edges before. -/
theorem inStep_run (vertex : Finset V) (edge : Finset E) (xs : List (GraphInput V E)) :
    (∀ ys, ys <+: xs → InStep ((graphMachine vertex edge).run (.create vertex edge) ys)) ↔
      ((graphMachine vertex edge).guarded RemovesIsolated).Valid (.create vertex edge) xs :=
  invariant_iff InStep (fun _ x h _ => inStep_next h x)
    (valid_of_enabled (fun _ _ => trivial) _ xs) (inStep_create vertex edge)

/-- A vertex is removed while an edge leaves it. -/
theorem not_inStep : ¬∀ (vertex : Finset ℕ) (edge : Finset TestEdge)
    (xs : List (GraphInput ℕ TestEdge)),
    InStep ((graphMachine vertex edge).run (.create vertex edge) xs) := by
  intro h
  have hsources := (inStep_iff.mp (h ∅ {⟨0, 1, 1⟩} [.removeVertex 0])).1
  exact absurd ((hsources 0 ⟨0, 1, 1⟩).mp (by decide)).1 (by decide)

end Runs

end AdjacencyLists

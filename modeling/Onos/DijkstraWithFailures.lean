import Onos.DijkstraGraphSearch

/-! Dijkstra's search with a weigher that throws. The first edge that cannot be weighed ends the
search; if there is none, the search is the one without exceptions. -/
namespace DijkstraWithFailures

open DirectedWalk ShortestPaths GraphPathSearch
open DijkstraGraphSearch (farther startResult SearchInv)

universe u v

variable {V : Type u} {E : Type v} {M : Type*} [DecidableEq V] [DecidableEq E] [Edge V E]

structure FailingWeigher (E M : Type*) where
  weight : E → Except String (Option M)
  getInitialWeight : M

def FailingWeigher.total (weigher : FailingWeigher E M) : EdgeWeigher E M where
  weight e := match weigher.weight e with
    | .ok hopCost => hopCost
    | .error _ => none
  getInitialWeight := weigher.getInitialWeight

def FailingWeigher.Weighs (weigher : FailingWeigher E M) (e : E) : Prop :=
  ∃ hopCost, weigher.weight e = .ok hopCost

variable [AddCommGroup M] [LinearOrder M]

def relaxAll (weigher : FailingWeigher E M) (cost : M) :
    List E → DefaultResult V E M → Except String (DefaultResult V E M)
  | [], result => .ok result
  | e :: edges, result => (weigher.weight e).bind fun hopCost =>
    relaxAll weigher cost edges
      (result.relaxEdge e cost ⟨fun _ => hopCost, weigher.getInitialWeight⟩ true).1

def searchLoop (graph : DirectedGraph V E) (dst : Option V) (weigher : FailingWeigher E M) :
    ℕ → DefaultResult V E M → List V → Except String (DefaultResult V E M)
  | 0, result, _ => .ok result
  | fuel + 1, result, minQueue =>
    match Heap.extractExtreme (farther result) minQueue with
    | none => .ok result
    | some (nearest, rest) =>
      if some nearest = dst then .ok result
      else
        let relaxed := match result.cost nearest with
          | some cost => relaxAll weigher cost (graph.getEdgesFrom nearest) result
          | none => .ok result
        relaxed.bind fun relaxed =>
          searchLoop graph dst weigher fuel relaxed (Heap.heapify (farther relaxed) rest)

def internalSearch (graph : DirectedGraph V E) (src : V) (dst : Option V)
    (weigher : FailingWeigher E M) (maxPaths : ℤ) : Except String (DefaultResult V E M) :=
  let result := startResult src dst weigher.total maxPaths
  if graph.getEdges.isEmpty then .ok (buildPaths result)
  else
    let minQueue := Heap.heapify (farther result) graph.getVertexes
    (searchLoop graph dst weigher graph.getVertexes.length result minQueue).map buildPaths

def search (graph : DirectedGraph V E) (src : V) (dst : Option V) (weigher : FailingWeigher E M)
    (maxPaths : ℤ) : Except String (DefaultResult V E M) :=
  (checkArguments graph src dst).bind fun _ => internalSearch graph src dst weigher maxPaths

def weighedInLoop (graph : DirectedGraph V E) (dst : Option V) (weigher : EdgeWeigher E M) :
    ℕ → DefaultResult V E M → List V → List E
  | 0, _, _ => []
  | fuel + 1, result, minQueue =>
    match Heap.extractExtreme (farther result) minQueue with
    | none => []
    | some (nearest, rest) =>
      if some nearest = dst then []
      else match result.cost nearest with
        | some cost =>
          let edges := graph.getEdgesFrom nearest
          let relaxed := DijkstraGraphSearch.relaxAll weigher cost edges result
          edges ++
            weighedInLoop graph dst weigher fuel relaxed (Heap.heapify (farther relaxed) rest)
        | none => weighedInLoop graph dst weigher fuel result (Heap.heapify (farther result) rest)

/-- The edges from the vertexes that leave the queue before the destination. -/
def weighed (graph : DirectedGraph V E) (src : V) (dst : Option V) (weigher : EdgeWeigher E M)
    (maxPaths : ℤ) : List E :=
  let result := startResult src dst weigher maxPaths
  if graph.getEdges.isEmpty then []
  else weighedInLoop graph dst weigher graph.getVertexes.length result
    (Heap.heapify (farther result) graph.getVertexes)

section Weighing

variable {graph : DirectedGraph V E} {weigher : FailingWeigher E M} {dst : Option V} {e : E} {a : M}
  {edges : List E} {r : DefaultResult V E M} {queue : List V}

omit [DecidableEq E] [DecidableEq V] [Edge V E] [AddCommGroup M] [LinearOrder M] in
theorem not_weighs (h : ¬ weigher.Weighs e) : ∃ message, weigher.weight e = .error message := by
  cases hweight : weigher.weight e with
  | ok hopCost => exact absurd ⟨hopCost, hweight⟩ h
  | error message => exact ⟨message, rfl⟩

theorem relaxAll_cons_ok {hopCost : Option M} (h : weigher.weight e = .ok hopCost) :
    relaxAll weigher a (e :: edges) r =
      relaxAll weigher a edges (r.relaxEdge e a weigher.total true).1 := by
  rw [relaxAll, h]
  simp only [Except.bind, DefaultResult.relaxEdge, FailingWeigher.total, h]

theorem relaxAll_eq (h : ∀ e ∈ edges, weigher.Weighs e) :
    relaxAll weigher a edges r = .ok (DijkstraGraphSearch.relaxAll weigher.total a edges r) := by
  induction edges generalizing r with
  | nil => rfl
  | cons e edges ih =>
    obtain ⟨hopCost, hweight⟩ := h e List.mem_cons_self
    rw [relaxAll_cons_ok hweight, ih fun f hf => h f (List.mem_cons_of_mem e hf)]
    rfl

theorem relaxAll_fails (h : ∃ e ∈ edges, ¬ weigher.Weighs e) :
    ∃ message, relaxAll weigher a edges r = .error message := by
  induction edges generalizing r with
  | nil =>
    obtain ⟨e, he, -⟩ := h
    cases he
  | cons f edges ih =>
    by_cases hf : weigher.Weighs f
    · obtain ⟨e, he, hnot⟩ := h
      rcases List.mem_cons.mp he with rfl | he
      · exact absurd hf hnot
      · obtain ⟨hopCost, hweight⟩ := hf
        rw [relaxAll_cons_ok hweight]
        exact ih ⟨e, he, hnot⟩
    · obtain ⟨message, hmessage⟩ := not_weighs hf
      exact ⟨message, by rw [relaxAll, hmessage]; rfl⟩

theorem searchLoop_eq {fuel : ℕ}
    (h : ∀ e ∈ weighedInLoop graph dst weigher.total fuel r queue, weigher.Weighs e) :
    searchLoop graph dst weigher fuel r queue =
      .ok (DijkstraGraphSearch.searchLoop graph dst weigher.total fuel r queue) := by
  induction fuel generalizing r queue with
  | zero => rfl
  | succ fuel ih =>
    rw [searchLoop, DijkstraGraphSearch.searchLoop]
    rw [weighedInLoop] at h
    cases hextract : Heap.extractExtreme (farther r) queue with
    | none => rfl
    | some next =>
      obtain ⟨nearest, rest⟩ := next
      simp only [hextract] at h ⊢
      split_ifs with hdst
      · rfl
      · rw [if_neg hdst] at h
        cases hcost : r.cost nearest with
        | none =>
          simp only [hcost] at h
          exact ih h
        | some cost =>
          simp only [hcost, List.mem_append] at h
          simp only [relaxAll_eq fun e he => h e (.inl he)]
          exact ih fun e he => h e (.inr he)

theorem searchLoop_fails {fuel : ℕ}
    (h : ∃ e ∈ weighedInLoop graph dst weigher.total fuel r queue, ¬ weigher.Weighs e) :
    ∃ message, searchLoop graph dst weigher fuel r queue = .error message := by
  induction fuel generalizing r queue with
  | zero =>
    obtain ⟨e, he, -⟩ := h
    cases he
  | succ fuel ih =>
    rw [searchLoop]
    rw [weighedInLoop] at h
    cases hextract : Heap.extractExtreme (farther r) queue with
    | none => simp [hextract] at h
    | some next =>
      obtain ⟨nearest, rest⟩ := next
      simp only [hextract] at h ⊢
      split_ifs with hdst
      · simp [hdst] at h
      · rw [if_neg hdst] at h
        cases hcost : r.cost nearest with
        | none =>
          simp only [hcost] at h
          exact ih h
        | some cost =>
          simp only [hcost] at h
          by_cases hnow : ∀ e ∈ graph.getEdgesFrom nearest, weigher.Weighs e
          · simp only [relaxAll_eq hnow]
            apply ih
            obtain ⟨e, he, hnot⟩ := h
            rcases List.mem_append.mp he with he | he
            · exact absurd (hnow e he) hnot
            · exact ⟨e, he, hnot⟩
          · simp only [not_forall, exists_prop] at hnow
            obtain ⟨message, hmessage⟩ := relaxAll_fails (r := r) (a := cost) hnow
            simp only [hmessage]
            exact ⟨message, rfl⟩

end Weighing

section Search

variable {graph : DirectedGraph V E} {weigher : FailingWeigher E M} {src : V} {dst : Option V}
  {maxPaths : ℤ}

theorem internalSearch_eq
    (h : ∀ e ∈ weighed graph src dst weigher.total maxPaths, weigher.Weighs e) :
    internalSearch graph src dst weigher maxPaths =
      .ok (DijkstraGraphSearch.internalSearch graph src dst weigher.total maxPaths) := by
  rw [internalSearch, DijkstraGraphSearch.internalSearch, DijkstraGraphSearch.labels]
  rw [weighed] at h
  dsimp only at h ⊢
  split_ifs with hempty
  · rfl
  · rw [if_neg hempty] at h
    rw [searchLoop_eq h]
    rfl

theorem internalSearch_fails
    (h : ∃ e ∈ weighed graph src dst weigher.total maxPaths, ¬ weigher.Weighs e) :
    ∃ message, internalSearch graph src dst weigher maxPaths = .error message := by
  rw [internalSearch]
  rw [weighed] at h
  dsimp only at h ⊢
  split_ifs with hempty
  · simp [hempty] at h
  · rw [if_neg hempty] at h
    obtain ⟨message, hmessage⟩ := searchLoop_fails h
    exact ⟨message, by rw [hmessage]; rfl⟩

theorem search_eq_ok {result : DefaultResult V E M}
    (h : search graph src dst weigher maxPaths = .ok result) :
    src ∈ graph.getVertexes ∧
      result = DijkstraGraphSearch.internalSearch graph src dst weigher.total maxPaths := by
  rw [search] at h
  cases hcheck : checkArguments graph src dst with
  | error message =>
    rw [hcheck] at h
    cases h
  | ok u =>
    rw [hcheck] at h
    refine ⟨source_of_checkArguments hcheck, ?_⟩
    by_cases hweighs : ∀ e ∈ weighed graph src dst weigher.total maxPaths, weigher.Weighs e
    · rw [Except.bind, internalSearch_eq hweighs] at h
      exact (Except.ok.inj h).symm
    · simp only [not_forall, exists_prop] at hweighs
      obtain ⟨message, hmessage⟩ := internalSearch_fails hweighs
      rw [Except.bind, hmessage] at h
      cases h

end Search

section Reaching

variable {graph : DirectedGraph V E} {weigher : EdgeWeigher E M} {src : V} {dst : Option V}
  {maxPaths : ℤ} {e : E} {r : DefaultResult V E M} {order queue : List V} [IsOrderedAddMonoid M]

theorem reached_of_weighedInLoop (fuel : ℕ) (h : SearchInv graph weigher dst r order queue)
    (he : e ∈ weighedInLoop graph dst weigher fuel r queue) :
    e ∈ graph.getEdges ∧ ∃ p, IsRoute (network graph weigher) r.src p (Edge.src e) := by
  induction fuel generalizing r order queue with
  | zero => cases he
  | succ fuel ih =>
    rw [weighedInLoop] at he
    by_cases hne : queue = []
    · subst hne
      cases he
    · obtain ⟨nearest, rest, hextract, hperm, hleast⟩ := h.extract hne
      simp only [hextract] at he
      split_ifs at he with hdst
      · cases he
      · cases ha : r.cost nearest with
        | none =>
          simp only [ha] at he
          exact ih (h.step_unreached hperm hleast hdst ha) he
        | some a =>
          simp only [ha] at he
          obtain ⟨hinv, hkept⟩ := h.step_reached hperm hleast hdst ha
          rcases List.mem_append.mp he with he | he
          · obtain ⟨hmem, rfl⟩ := (graph.mem_edgesFrom nearest e).mp he
            obtain ⟨p, hp, -⟩ := h.labelled.realised _ a ha
            exact ⟨hmem, p, hp⟩
          · rw [← hkept.src]
            exact ih hinv he

theorem reached_of_weighed (hlimit : maxPaths = ALL_PATHS ∨ 1 ≤ maxPaths)
    (hsrc : src ∈ graph.getVertexes) (he : e ∈ weighed graph src dst weigher maxPaths) :
    e ∈ graph.getEdges ∧ ∃ p, IsRoute (network graph weigher) src p (Edge.src e) := by
  rw [weighed] at he
  split_ifs at he with hempty
  · cases he
  · have hstart := DijkstraGraphSearch.searchInv_start weigher dst hlimit hsrc
    exact reached_of_weighedInLoop _ hstart he

end Reaching

end DijkstraWithFailures

import Onos.GraphPathSearch
import Onos.Lib.HopDistance
import Onos.Lib.FallibleRun

/-! Breadth-first search. It only merges weights, viable or not: they are of any type with a sum.
The order in which the hash set of a frontier is iterated over is a parameter. -/
namespace BreadthFirstSearch

open DirectedWalk GraphPathSearch HopDistance
open FallibleRun (bind_eq_ok map_eq_ok)

universe u v

variable {V : Type u} {E : Type v} {W : Type*} [DecidableEq V] [DecidableEq E] [Edge V E] [Add W]

structure Weigher (E W : Type*) where
  weight : E → W
  getInitialWeight : W

def Weigher.totalCost (weigher : Weigher E W) (edges : List E) : W :=
  edges.foldl (fun cost edge => cost + weigher.weight edge) weigher.getInitialWeight

structure SearchState (V E W : Type*) where
  result : DefaultResult V E W
  next : List V
  reachedEnd : Bool

/-- Visits the egress edges of a vertex. When the end has been reached over another vertex, it
breaks after the first one. -/
def visitEdges (weigher : Weigher E W) (dst : Option V) (cost : Option W) :
    List E → SearchState V E W → Except String (SearchState V E W)
  | [], s => .ok s
  | edge :: edges, s =>
    if (s.result.cost (Edge.dst edge)).isSome then
      if s.reachedEnd then .ok s else visitEdges weigher dst cost edges s
    else match cost with
      | none => .error "NullPointerException"
      | some cost =>
        let result :=
          s.result.updateVertex (Edge.dst edge) (some edge) (cost + weigher.weight edge) true
        if some (Edge.dst edge) = dst then .ok { s with result := result, reachedEnd := true }
        else
          let s := { s with result := result, next := s.next.insert (Edge.dst edge) }
          if s.reachedEnd then .ok s else visitEdges weigher dst (some cost) edges s

def visit (graph : DirectedGraph V E) (weigher : Weigher E W) (dst : Option V)
    (s : SearchState V E W) (vertex : V) : Except String (SearchState V E W) :=
  visitEdges weigher dst (s.result.cost vertex) (graph.getEdgesFrom vertex) s

/-- Each round visits vertexes that no other round visits; the fuel bounds the number of rounds. -/
def searchLoop (order : List V → List V) (graph : DirectedGraph V E) (weigher : Weigher E W)
    (dst : Option V) : ℕ → List V → DefaultResult V E W → Except String (DefaultResult V E W)
  | 0, _, result => .ok result
  | fuel + 1, frontier, result =>
    if frontier = [] then .ok result
    else ((order frontier).foldlM (visit graph weigher dst) ⟨result, [], false⟩).bind fun s =>
      if s.reachedEnd then .ok s.result
      else searchLoop order graph weigher dst fuel s.next s.result

def internalSearch [DecidableEq W] (order : List V → List V) (graph : DirectedGraph V E) (src : V)
    (dst : Option V) (weigher : Weigher E W) (maxPaths : ℤ) : Except String (DefaultResult V E W) :=
  let result :=
    (defaultResult src dst maxPaths).updateVertex src none weigher.getInitialWeight true
  (searchLoop order graph weigher dst graph.getVertexes.length [src] result).map buildPaths

def search [DecidableEq W] (order : List V → List V) (graph : DirectedGraph V E) (src : V)
    (dst : Option V) (weigher : Weigher E W) (maxPaths : ℤ) : Except String (DefaultResult V E W) :=
  (checkArguments graph src dst).bind fun _ =>
    internalSearch order graph src dst weigher maxPaths

section Levels

variable (graph : DirectedGraph V E) (src : V)

abbrev IsReached (v : V) : Prop := Reaches Edge.src Edge.dst (fun e : E => e ∈ graph.getEdges) src v

noncomputable abbrev level (v : V) : ℕ :=
  hops Edge.src Edge.dst (fun e : E => e ∈ graph.getEdges) src v

variable (weigher : Weigher E W)

structure IsTree (r : DefaultResult V E W) : Prop where
  start : r.cost src = some weigher.getInitialWeight
  root : r.parentEdges src = []
  reached : ∀ v, r.cost v ≠ none → IsReached graph src v
  parent : ∀ v c, v ≠ src → r.cost v = some c → ∃ e a, r.parentEdges v = [e] ∧ Edge.dst e = v ∧
    e ∈ graph.getEdges ∧ r.cost (Edge.src e) = some a ∧ c = a + weigher.weight e ∧
    level graph src v = level graph src (Edge.src e) + 1
  unvisited : ∀ v, r.cost v = none → r.parentEdges v = []

/-- In a round, all vertexes of the levels up to it have a cost, and some of the next. -/
structure InRound (k : ℕ) (r : DefaultResult V E W) : Prop where
  tree : IsTree graph src weigher r
  limit : DefaultResult.withinLimit r.maxPaths 0 = true
  visited : ∀ v, IsReached graph src v → level graph src v ≤ k → r.cost v ≠ none
  bound : ∀ v, r.cost v ≠ none → level graph src v ≤ k + 1

structure Advances (dst : Option V) (k : ℕ) (s : SearchState V E W) : Prop where
  round : InRound graph src weigher k s.result
  next : ∀ v, v ∈ s.next → s.result.cost v ≠ none ∧ level graph src v = k + 1
  complete : s.reachedEnd = false → ∀ v, s.result.cost v ≠ none → level graph src v = k + 1 →
    v ∈ s.next
  ended : s.reachedEnd = true ↔ ∃ d, dst = some d ∧ s.result.cost d ≠ none

structure Grows (r r' : DefaultResult V E W) : Prop where
  src : r'.src = r.src
  dst : r'.dst = r.dst
  maxPaths : r'.maxPaths = r.maxPaths
  paths : r'.paths = r.paths
  cost : ∀ v, r.cost v ≠ none → r'.cost v = r.cost v

end Levels

section Visiting

variable {graph : DirectedGraph V E} {src : V} {weigher : Weigher E W} {dst : Option V} {k : ℕ}
  {r : DefaultResult V E W} {s : SearchState V E W} {u : V} {a : W} {e : E}

section

omit [DecidableEq E] [Edge V E] [Add W]

theorem Grows.refl (r : DefaultResult V E W) : Grows r r := ⟨rfl, rfl, rfl, rfl, fun _ _ => rfl⟩

theorem Grows.trans {r' r'' : DefaultResult V E W} (h : Grows r r') (h' : Grows r' r'') :
    Grows r r'' where
  src := h'.src.trans h.src
  dst := h'.dst.trans h.dst
  maxPaths := h'.maxPaths.trans h.maxPaths
  paths := h'.paths.trans h.paths
  cost v hv := by
    have hkept := h.cost v hv
    rw [h'.cost v (hkept ▸ hv), hkept]

end

omit [Edge V E] [Add W] in
theorem grows_updateVertex {v : V} (hv : r.cost v = none) (c : W) :
    Grows r (r.updateVertex v (some e) c true) where
  src := rfl
  dst := rfl
  maxPaths := rfl
  paths := rfl
  cost x hx := by
    rw [cost_updateVertex, if_neg]
    rintro rfl
    exact hx hv

omit [DecidableEq E] in
theorem InRound.level_new (h : InRound graph src weigher k r) (hu : r.cost u = some a)
    (hlevel : level graph src u = k) (he : e ∈ graph.getEdges) (hsrc : Edge.src e = u)
    (hnew : r.cost (Edge.dst e) = none) :
    IsReached graph src (Edge.dst e) ∧ level graph src (Edge.dst e) = k + 1 := by
  have hreached : IsReached graph src (Edge.src e) := by
    rw [hsrc]
    exact h.tree.reached u (by rw [hu]; exact Option.some_ne_none a)
  have hle := hops_next_le hreached he
  have hnext := hreached.next he
  have hgt : k < level graph src (Edge.dst e) := by
    by_contra hle
    exact h.visited _ hnext (not_lt.mp hle) hnew
  refine ⟨hnext, le_antisymm ?_ hgt⟩
  rw [hsrc] at hle
  exact hlevel ▸ hle

theorem InRound.update (h : InRound graph src weigher k r) (hu : r.cost u = some a)
    (hlevel : level graph src u = k) (he : e ∈ graph.getEdges) (hsrc : Edge.src e = u)
    (hnew : r.cost (Edge.dst e) = none) : InRound graph src weigher k
      (r.updateVertex (Edge.dst e) (some e) (a + weigher.weight e) true) := by
  obtain ⟨hreached, hnext⟩ := h.level_new hu hlevel he hsrc hnew
  have hgrows := grows_updateVertex (e := e) hnew (a + weigher.weight e)
  have hstart : src ≠ Edge.dst e := by
    rintro heq
    rw [← heq, h.tree.start] at hnew
    cases hnew
  have hcost : ∀ v, (r.updateVertex (Edge.dst e) (some e) (a + weigher.weight e) true).cost v ≠
      none → v = Edge.dst e ∨ r.cost v ≠ none := by
    intro v hv
    rw [cost_updateVertex] at hv
    split_ifs at hv with heq
    · exact Or.inl heq
    · exact Or.inr hv
  refine ⟨⟨?_, ?_, ?_, ?_, ?_⟩, h.limit, ?_, ?_⟩
  · rw [cost_updateVertex, if_neg hstart, h.tree.start]
  · rw [parentEdges_updateVertex_ne hstart, h.tree.root]
  · intro v hv
    rcases hcost v hv with rfl | hv
    · exact hreached
    · exact h.tree.reached v hv
  · intro v c hv hc
    by_cases heq : v = Edge.dst e
    · subst heq
      rw [cost_updateVertex, if_pos rfl] at hc
      refine ⟨e, a, ?_, rfl, he, ?_, (Option.some.inj hc).symm, ?_⟩
      · rw [parentEdges_replace, if_pos h.limit]
      · rw [hsrc, hgrows.cost u (by rw [hu]; exact Option.some_ne_none a), hu]
      · rw [hnext, hsrc, hlevel]
    · rw [cost_updateVertex, if_neg heq] at hc
      obtain ⟨f, b, hparent, hdst, hf, hb, hsum, hlevels⟩ := h.tree.parent v c hv hc
      refine ⟨f, b, ?_, hdst, hf, ?_, hsum, hlevels⟩
      · rw [parentEdges_updateVertex_ne heq, hparent]
      · rw [hgrows.cost _ (by rw [hb]; exact Option.some_ne_none b), hb]
  · intro v hv
    have hne : v ≠ Edge.dst e := by
      rintro rfl
      rw [cost_updateVertex, if_pos rfl] at hv
      cases hv
    rw [cost_updateVertex, if_neg hne] at hv
    rw [parentEdges_updateVertex_ne hne, h.tree.unvisited v hv]
  · intro v hv hle hnone
    have hold := h.visited v hv hle
    exact hold (hgrows.cost v hold ▸ hnone)
  · intro v hv
    rcases hcost v hv with rfl | hv
    · exact hnext.le
    · exact h.bound v hv

omit [Add W] in
theorem cost_update {v : V} {c : W} : (r.updateVertex (Edge.dst e) (some e) c true).cost v ≠ none ↔
      v = Edge.dst e ∨ r.cost v ≠ none := by
  rw [cost_updateVertex]
  split_ifs with heq
  · exact iff_of_true (Option.some_ne_none c) (Or.inl heq)
  · exact (or_iff_right heq).symm

theorem Advances.reach (h : Advances graph src weigher dst k s) (hu : s.result.cost u = some a)
    (hlevel : level graph src u = k) (he : e ∈ graph.getEdges) (hsrc : Edge.src e = u)
    (hnew : s.result.cost (Edge.dst e) = none) (hend : some (Edge.dst e) = dst) :
    Advances graph src weigher dst k { s with
      result := s.result.updateVertex (Edge.dst e) (some e) (a + weigher.weight e) true
      reachedEnd := true } where
  round := h.round.update hu hlevel he hsrc hnew
  next v hv := ⟨cost_update.mpr (Or.inr (h.next v hv).1), (h.next v hv).2⟩
  complete hfalse := by cases hfalse
  ended := iff_of_true rfl ⟨_, hend.symm, cost_update.mpr (Or.inl rfl)⟩

theorem Advances.insert (h : Advances graph src weigher dst k s) (hu : s.result.cost u = some a)
    (hlevel : level graph src u = k) (he : e ∈ graph.getEdges) (hsrc : Edge.src e = u)
    (hnew : s.result.cost (Edge.dst e) = none) (hend : some (Edge.dst e) ≠ dst) :
    Advances graph src weigher dst k { s with
      result := s.result.updateVertex (Edge.dst e) (some e) (a + weigher.weight e) true
      next := s.next.insert (Edge.dst e) } where
  round := h.round.update hu hlevel he hsrc hnew
  next v hv := by
    rcases List.mem_insert_iff.mp hv with rfl | hv
    · exact ⟨cost_update.mpr (Or.inl rfl), (h.round.level_new hu hlevel he hsrc hnew).2⟩
    · exact ⟨cost_update.mpr (Or.inr (h.next v hv).1), (h.next v hv).2⟩
  complete hfalse v hv hnext := by
    rcases cost_update.mp hv with rfl | hv
    · exact List.mem_insert_self
    · exact List.mem_insert_of_mem (h.complete hfalse v hv hnext)
  ended := by
    rw [h.ended]
    refine exists_congr fun d => and_congr_right fun hd => ?_
    rw [cost_update, or_iff_right]
    rintro rfl
    exact hend hd.symm

theorem visitEdges_spec {edges : List E} (hedges : ∀ e ∈ edges, e ∈ graph.getEdges ∧ Edge.src e = u)
    (h : Advances graph src weigher dst k s) (hu : s.result.cost u = some a)
    (hlevel : level graph src u = k) :
    ∃ s', visitEdges weigher dst (some a) edges s = .ok s' ∧
      Advances graph src weigher dst k s' ∧ Grows s.result s'.result ∧
      (s'.reachedEnd = false → ∀ e ∈ edges, s'.result.cost (Edge.dst e) ≠ none) := by
  induction edges generalizing s with
  | nil => exact ⟨s, rfl, h, Grows.refl _, fun _ e he => absurd he List.not_mem_nil⟩
  | cons e edges ih =>
    obtain ⟨⟨he, hsrc⟩, hedges⟩ := List.forall_mem_cons.mp hedges
    rw [visitEdges]
    cases hcost : s.result.cost (Edge.dst e) with
    | some c =>
      cases hended : s.reachedEnd with
      | true =>
        refine ⟨s, by simp, h, Grows.refl _, fun hfalse => ?_⟩
        rw [hended] at hfalse
        cases hfalse
      | false =>
        obtain ⟨s', hok, hadvances, hgrows, hall⟩ := ih hedges h hu
        refine ⟨s', by simpa using hok, hadvances, hgrows, fun hfalse => ?_⟩
        refine List.forall_mem_cons.mpr ⟨?_, hall hfalse⟩
        rw [hgrows.cost _ (by rw [hcost]; exact Option.some_ne_none c), hcost]
        exact Option.some_ne_none c
    | none =>
      have hgrows := grows_updateVertex (e := e) hcost (a + weigher.weight e)
      by_cases hend : some (Edge.dst e) = dst
      · refine ⟨_, by simp only [hend]; rfl, h.reach hu hlevel he hsrc hcost hend, hgrows, ?_⟩
        intro hfalse
        cases hfalse
      · have hinsert := h.insert hu hlevel he hsrc hcost hend
        cases hended : s.reachedEnd with
        | true =>
          refine ⟨_, by simp [hend, hended], hinsert, hgrows, fun hfalse => ?_⟩
          rw [hended] at hfalse
          cases hfalse
        | false =>
          have hu' : (s.result.updateVertex (Edge.dst e) (some e) (a + weigher.weight e)
              true).cost u = some a := by
            rw [hgrows.cost u (by rw [hu]; exact Option.some_ne_none a), hu]
          obtain ⟨s', hok, hadvances, hgrows', hall⟩ := ih hedges hinsert hu'
          refine ⟨s', by simpa [hend, hended] using hok, hadvances, hgrows.trans hgrows', ?_⟩
          refine fun hfalse => List.forall_mem_cons.mpr ⟨?_, hall hfalse⟩
          have hfound : (s.result.updateVertex (Edge.dst e) (some e) (a + weigher.weight e)
              true).cost (Edge.dst e) ≠ none := cost_update.mpr (Or.inl rfl)
          exact hgrows'.cost _ hfound ▸ hfound

theorem visitFrontier_spec {frontier : List V}
    (hfrontier : ∀ v ∈ frontier, s.result.cost v ≠ none ∧ level graph src v = k)
    (h : Advances graph src weigher dst k s) :
    ∃ s', frontier.foldlM (visit graph weigher dst) s = .ok s' ∧
      Advances graph src weigher dst k s' ∧ Grows s.result s'.result ∧
      (s'.reachedEnd = false → ∀ e ∈ graph.getEdges, Edge.src e ∈ frontier →
        s'.result.cost (Edge.dst e) ≠ none) := by
  induction frontier generalizing s with
  | nil => exact ⟨s, rfl, h, Grows.refl _, fun _ e _ he => absurd he List.not_mem_nil⟩
  | cons u frontier ih =>
    obtain ⟨⟨hu, hlevel⟩, hfrontier⟩ := List.forall_mem_cons.mp hfrontier
    obtain ⟨a, ha⟩ := Option.ne_none_iff_exists'.mp hu
    have hfrom : ∀ e ∈ graph.getEdgesFrom u, e ∈ graph.getEdges ∧ Edge.src e = u :=
      fun e he => (graph.mem_edgesFrom u e).mp he
    obtain ⟨s₁, hok, h₁, hgrows, hall⟩ := visitEdges_spec hfrom h ha hlevel
    obtain ⟨s', hok', h', hgrows', hall'⟩ := ih (fun v hv =>
      ⟨hgrows.cost v (hfrontier v hv).1 ▸ (hfrontier v hv).1, (hfrontier v hv).2⟩) h₁
    refine ⟨s', ?_, h', hgrows.trans hgrows', fun hfalse e he hsrc => ?_⟩
    · rw [List.foldlM_cons, visit, ha, hok]
      exact hok'
    · rcases List.mem_cons.mp hsrc with hsrc | hsrc
      · -- where the end has not been reached, it had not been before
        have hfalse₁ : s₁.reachedEnd = false := by
          cases hended : s₁.reachedEnd with
          | false => rfl
          | true =>
            obtain ⟨d, hd, hcost⟩ := h₁.ended.mp hended
            have htrue := h'.ended.mpr ⟨d, hd, hgrows'.cost d hcost ▸ hcost⟩
            rw [hfalse] at htrue
            cases htrue
        have hfound := hall hfalse₁ e ((graph.mem_edgesFrom u e).mpr ⟨he, hsrc⟩)
        exact hgrows'.cost _ hfound ▸ hfound
      · exact hall' hfalse e he hsrc

/-- Before a round, all levels up to it have been visited, and the frontier is its level. -/
structure AtLevel (graph : DirectedGraph V E) (src : V) (weigher : Weigher E W) (dst : Option V)
    (k : ℕ) (frontier : List V) (r : DefaultResult V E W) : Prop where
  tree : IsTree graph src weigher r
  limit : DefaultResult.withinLimit r.maxPaths 0 = true
  visited : ∀ v, IsReached graph src v → level graph src v ≤ k → r.cost v ≠ none
  bound : ∀ v, r.cost v ≠ none → level graph src v ≤ k
  frontier : ∀ v, v ∈ frontier ↔ r.cost v ≠ none ∧ level graph src v = k
  before : ∀ d, dst = some d → r.cost d = none

section

omit [DecidableEq E]

theorem AtLevel.start {frontier : List V} (h : AtLevel graph src weigher dst k frontier r) :
    Advances graph src weigher dst k ⟨r, [], false⟩ where
  round := ⟨h.tree, h.limit, h.visited, fun v hv => (h.bound v hv).trans (Nat.le_succ k)⟩
  next v hv := absurd hv List.not_mem_nil
  complete _ v hv hnext := by
    have hle := h.bound v hv
    rw [hnext] at hle
    exact absurd hle (Nat.not_succ_le_self k)
  ended := by
    refine iff_of_false Bool.false_ne_true ?_
    rintro ⟨d, hd, hcost⟩
    exact hcost (h.before d hd)

theorem AtLevel.advance {frontier : List V} (h : AtLevel graph src weigher dst k frontier r)
    (hs : Advances graph src weigher dst k s) (hfalse : s.reachedEnd = false)
    (hall : ∀ e ∈ graph.getEdges, Edge.src e ∈ frontier → s.result.cost (Edge.dst e) ≠ none) :
    AtLevel graph src weigher dst (k + 1) s.next s.result where
  tree := hs.round.tree
  limit := hs.round.limit
  visited v hv hle := by
    rcases Nat.lt_or_eq_of_le hle with hlt | heq
    · exact hs.round.visited v hv (Nat.lt_succ_iff.mp hlt)
    · obtain ⟨e, he, rfl, hreached, hlevel⟩ := exists_nearer hv heq
      exact hall e he ((h.frontier _).mpr ⟨h.visited _ hreached hlevel.le, hlevel⟩)
  bound := hs.round.bound
  frontier v := ⟨hs.next v, fun hv => hs.complete hfalse v hv.1 hv.2⟩
  before d hd := by
    by_contra hcost
    have htrue := hs.ended.mpr ⟨d, hd, hcost⟩
    rw [hfalse] at htrue
    cases htrue

end

theorem searchLoop_spec {order : List V → List V} (horder : ∀ l, (order l).Perm l) {d : V}
    (hreached : IsReached graph src d) (fuel : ℕ) {frontier : List V}
    (h : AtLevel graph src weigher (some d) k frontier r)
    (hfuel : level graph src d ≤ k + fuel) :
    ∃ r', searchLoop order graph weigher (some d) fuel frontier r = .ok r' ∧
      IsTree graph src weigher r' ∧ r'.cost d ≠ none ∧ Grows r r' := by
  induction fuel generalizing k frontier r with
  | zero => exact absurd (h.before d rfl) (h.visited d hreached hfuel)
  | succ fuel ih =>
    have hlt : k ≤ level graph src d := by
      by_contra hle
      exact h.visited d hreached (le_of_not_ge hle) (h.before d rfl)
    have hne : frontier ≠ [] := by
      obtain ⟨u, hu, hlevel⟩ := exists_at hreached hlt
      exact List.ne_nil_of_mem ((h.frontier u).mpr ⟨h.visited u hu hlevel.le, hlevel⟩)
    have hround : ∀ v ∈ order frontier, r.cost v ≠ none ∧ level graph src v = k :=
      fun v hv => (h.frontier v).mp ((horder frontier).mem_iff.mp hv)
    obtain ⟨s, hok, hs, hgrows, hall⟩ := visitFrontier_spec hround h.start
    rw [searchLoop, if_neg hne, hok]
    dsimp only [Except.bind]
    cases hended : s.reachedEnd with
    | true =>
      obtain ⟨d', hd', hcost⟩ := hs.ended.mp hended
      obtain rfl := Option.some.inj hd'
      exact ⟨s.result, rfl, hs.round.tree, hcost, hgrows⟩
    | false =>
      have hnext := h.advance hs hended fun e he hsrc =>
        hall hended e he ((horder frontier).mem_iff.mpr hsrc)
      obtain ⟨r', hok', htree, hcost, hgrows'⟩ := ih hnext (by omega)
      exact ⟨r', hok', htree, hcost, hgrows.trans hgrows'⟩

theorem atLevel_source {d : V} (hne : src ≠ d) {maxPaths : ℤ}
    (hlimit : maxPaths = ALL_PATHS ∨ 1 ≤ maxPaths) :
    AtLevel graph src weigher (some d) 0 [src] ((defaultResult src (some d) maxPaths).updateVertex
      src none weigher.getInitialWeight true) := by
  have hcost : ∀ v, ((defaultResult src (some d) maxPaths : DefaultResult V E W).updateVertex src
      none weigher.getInitialWeight true).cost v =
        if v = src then some weigher.getInitialWeight else none := fun v =>
    KeyedMap.lookup_insert (∅ : KeyedMap.Table V W) src v weigher.getInitialWeight
  have hsource : ∀ v, ((defaultResult src (some d) maxPaths : DefaultResult V E W).updateVertex src
      none weigher.getInitialWeight true).cost v ≠ none → v = src := by
    intro v hv
    by_contra hne
    rw [hcost, if_neg hne] at hv
    exact hv rfl
  have hparents : ∀ v, ((defaultResult src (some d) maxPaths : DefaultResult V E W).updateVertex
      src none weigher.getInitialWeight true).parentEdges v = [] := fun v => rfl
  refine ⟨⟨?_, hparents src, ?_, ?_, fun v _ => hparents v⟩, ?_, ?_, ?_, ?_, ?_⟩
  · rw [hcost, if_pos rfl]
  · intro v hv
    rw [hsource v hv]
    exact reaches_start
  · intro v c hv hc
    exact absurd (hsource v (by rw [hc]; exact Option.some_ne_none c)) hv
  · change DefaultResult.withinLimit maxPaths 0 = true
    simp only [DefaultResult.withinLimit, decide_eq_true_eq]
    exact hlimit.imp_right fun hle => by omega
  · intro v hv hle
    rw [eq_start_of_hops hv (Nat.le_zero.mp hle), hcost, if_pos rfl]
    exact Option.some_ne_none _
  · intro v hv
    rw [hsource v hv]
    exact hops_start.le
  · intro v
    rw [List.mem_singleton]
    constructor
    · rintro rfl
      rw [hcost, if_pos rfl]
      exact ⟨Option.some_ne_none _, hops_start⟩
    · exact fun hv => hsource v hv.1
  · intro d' hd'
    obtain rfl := Option.some.inj hd'
    rw [hcost, if_neg hne.symm]

end Visiting

section Building

variable {graph : DirectedGraph V E} {src : V} {weigher : Weigher E W} {r : DefaultResult V E W}
  {t : V} {c : W}

section

omit [DecidableEq E]

section

variable (h : IsTree graph src weigher r)

include h

theorem IsTree.mem_parents {v : V} {e : E}
    (he : e ∈ r.parentEdges v) : r.parentEdges v = [e] ∧ Edge.dst e = v ∧ e ∈ graph.getEdges ∧
      level graph src v = level graph src (Edge.src e) + 1 ∧
      ∃ a, r.cost (Edge.src e) = some a ∧ r.cost v = some (a + weigher.weight e) := by
  have hv : v ≠ src := by
    rintro rfl
    rw [h.root] at he
    cases he
  cases hcost : r.cost v with
  | none =>
    rw [h.unvisited v hcost] at he
    cases he
  | some c =>
    obtain ⟨f, a, hparent, hdst, hf, ha, rfl, hlevel⟩ := h.parent v c hv hcost
    rw [hparent] at he
    obtain rfl := List.mem_singleton.mp he
    exact ⟨hparent, hdst, hf, hlevel, a, ha, rfl⟩

/-- On the way back, the cost is what is left of that of the end, and the level what is left of its
level. -/
theorem IsTree.backward (ht : r.cost t = some c) {p : List E}
    (hp : Backward r.parentEdges src t p) :
    (∃ a, r.cost (firstVertex p t) = some a ∧
      c = p.foldl (fun cost edge => cost + weigher.weight edge) a) ∧
    level graph src t = level graph src (firstVertex p t) + p.length ∧
    ∀ e ∈ p, e ∈ graph.getEdges ∧
      level graph src (firstVertex p t) < level graph src (Edge.dst e) := by
  induction hp with
  | nil => exact ⟨⟨c, ht, rfl⟩, rfl, fun e he => absurd he List.not_mem_nil⟩
  | @cons e p _ _ he _ ih =>
    obtain ⟨⟨b, hb, hfold⟩, hlevel, hall⟩ := ih
    obtain ⟨-, hdst, hmem, hlevels, a, ha, hsum⟩ := h.mem_parents he
    have hfirst : firstVertex (e :: p) t = Edge.src e := rfl
    rw [hfirst]
    refine ⟨⟨a, ha, ?_⟩, ?_, List.forall_mem_cons.mpr ⟨⟨hmem, ?_⟩, fun f hf => ?_⟩⟩
    · obtain rfl := Option.some.inj (hb.symm.trans hsum)
      exact hfold
    · rw [List.length_cons]
      omega
    · rw [hdst]
      omega
    · obtain ⟨hf, hlt⟩ := hall f hf
      exact ⟨hf, by omega⟩

theorem IsTree.backward_unique {p q : List E}
    (hp : Backward r.parentEdges src t p) (hq : Backward r.parentEdges src t q)
    (hlength : p.length = q.length) : p = q := by
  induction hp generalizing q with
  | nil => exact (List.length_eq_zero_iff.mp hlength.symm).symm
  | @cons e p _ _ he _ ih =>
    cases hq with
    | nil => cases hlength
    | @cons f q hq _ hf _ =>
      obtain rfl := ih hq (Nat.succ.inj hlength)
      rw [(h.mem_parents he).1] at hf
      rw [List.mem_singleton.mp hf]

theorem IsTree.exists_backward (ht : r.cost t = some c) {k : ℕ}
    (hk : k ≤ level graph src t) : ∃ p, Backward r.parentEdges src t p ∧ p.length = k := by
  induction k with
  | zero => exact ⟨[], .nil, rfl⟩
  | succ k ih =>
    obtain ⟨p, hp, hlength⟩ := ih (Nat.le_of_succ_le hk)
    obtain ⟨⟨a, ha, -⟩, hlevel, hall⟩ := h.backward ht hp
    have hne : firstVertex p t ≠ src := by
      intro heq
      have hzero : level graph src (firstVertex p t) = 0 := by
        rw [heq]
        exact hops_start
      omega
    obtain ⟨e, b, hparent, hdst, he, -, -, hlevels⟩ := h.parent _ a hne ha
    refine ⟨e :: p, hp.cons hne (by rw [hparent]; exact List.mem_cons_self) ?_, ?_⟩
    · rw [isInPath_eq_false]
      intro hmem
      obtain ⟨f, hf, heq⟩ := List.mem_map.mp hmem
      have hlt := (hall f hf).2
      rw [heq] at hlt
      omega
    · rw [List.length_cons, hlength]

end

end

omit [Add W] in
theorem nodup_buildRounds [DecidableEq W] {parents : V → List E} {s : V} {cost : W} {maxPaths : ℤ}
    (fuel : ℕ) {pending : List (List E)} {paths : List (Path E W)} (h : paths.Nodup) :
    (buildRounds parents s t cost maxPaths fuel pending paths).Nodup := by
  induction fuel generalizing pending paths with
  | zero => exact h
  | succ fuel ih =>
    rw [buildRounds]
    split_ifs
    · exact ih (List.Nodup.union _ h)
    · exact h

theorem IsTree.buildAllPaths [DecidableEq W] (h : IsTree graph src weigher r)
    (ht : r.cost t = some c) (hpaths : r.paths = []) {maxPaths : ℤ}
    (hlimit : maxPaths = ALL_PATHS ∨ 1 ≤ maxPaths) :
    ∃ p, (GraphPathSearch.buildAllPaths r src t maxPaths).paths = [⟨p, c⟩] ∧
      Leads Edge.src Edge.dst (fun e => e ∈ graph.getEdges) src p t ∧
      p.length = level graph src t ∧ c = weigher.totalCost p := by
  have hparents : ∀ v, ∀ e ∈ r.parentEdges v, Edge.dst e = v := fun v e he =>
    (h.mem_parents he).2.1
  have hgo : ∀ p, Backward r.parentEdges src t p → firstVertex p t ≠ src →
      r.parentEdges (firstVertex p t) ≠ [] := by
    intro p hp hne
    obtain ⟨⟨a, ha, -⟩, -⟩ := h.backward ht hp
    obtain ⟨e, -, hparent, -⟩ := h.parent _ a hne ha
    rw [hparent]
    exact List.cons_ne_nil e []
  have hsource : ∀ p, Backward r.parentEdges src t p → firstVertex p t = src →
      p.length = level graph src t := by
    intro p hp hfirst
    obtain ⟨-, hlevel, -⟩ := h.backward ht hp
    rw [hfirst, level, level, hops_start, Nat.zero_add] at hlevel
    exact hlevel.symm
  obtain ⟨hsound, hcomplete⟩ := buildAllPaths_spec maxPaths hparents hgo ht hpaths
  obtain ⟨p, hp, hlength⟩ := h.exists_backward ht le_rfl
  obtain ⟨⟨a, ha, hfold⟩, hlevel, hall⟩ := h.backward ht hp
  have hfirst : firstVertex p t = src := by
    refine eq_start_of_hops (h.reached _ (by rw [ha]; exact Option.some_ne_none a)) ?_
    change level graph src (firstVertex p t) = 0
    omega
  have hone : ∀ P ∈ (GraphPathSearch.buildAllPaths r src t maxPaths).paths, P = ⟨p, c⟩ := by
    intro P hP
    obtain ⟨hback, hsrc, hcost⟩ := hsound P hP
    have hedges := h.backward_unique hback hp ((hsource _ hback hsrc).trans hlength.symm)
    obtain ⟨edges, cost⟩ := P
    obtain rfl : edges = p := hedges
    obtain rfl : cost = c := hcost
    rfl
  have hne : (GraphPathSearch.buildAllPaths r src t maxPaths).paths ≠ [] := by
    rcases hcomplete with hcomplete | ⟨hmax, hle⟩
    · exact List.ne_nil_of_mem (hcomplete p hp hfirst)
    · intro hnil
      rw [hnil, List.length_nil] at hle
      have := hlimit.resolve_left hmax
      omega
  have hnodup : (GraphPathSearch.buildAllPaths r src t maxPaths).paths.Nodup := by
    rw [GraphPathSearch.buildAllPaths, ht]
    exact nodup_buildRounds _ (by rw [hpaths]; exact List.nodup_nil)
  refine ⟨p, ?_, ⟨?_, fun e he => (hall e he).1⟩, hlength, ?_⟩
  · obtain ⟨P, rest, hcons⟩ := List.exists_cons_of_ne_nil hne
    rw [hcons] at hone hnodup ⊢
    obtain ⟨hP, hrest⟩ := List.forall_mem_cons.mp hone
    obtain ⟨hnot, -⟩ := List.nodup_cons.mp hnodup
    cases rest with
    | nil => rw [hP]
    | cons Q rest =>
      rw [hP, hrest Q List.mem_cons_self] at hnot
      exact absurd List.mem_cons_self hnot
  · have hwalk := hp.walk hparents
    rwa [hfirst] at hwalk
  · rw [hfirst, h.start] at ha
    obtain rfl := Option.some.inj ha
    exact hfold

end Building

section Result

variable (graph : DirectedGraph V E) (weigher : Weigher E W) [DecidableEq W]

/-- The one path that is found has the fewest edges, and the sum of their weights as its cost. -/
theorem search_fewest {order : List V → List V} (horder : ∀ l, (order l).Perm l) {src dst : V}
    (hne : src ≠ dst) (hreached : IsReached graph src dst) {maxPaths : ℤ}
    (hlimit : maxPaths = ALL_PATHS ∨ 1 ≤ maxPaths) :
    ∃ result P, search order graph src (some dst) weigher maxPaths = .ok result ∧
      result.paths = [P] ∧
      Leads Edge.src Edge.dst (fun e => e ∈ graph.getEdges) src P.edges dst ∧
      (∀ q, Leads Edge.src Edge.dst (fun e => e ∈ graph.getEdges) src q dst →
        P.edges.length ≤ q.length) ∧
      P.cost = weigher.totalCost P.edges := by
  have hvertexes : src ∈ graph.getVertexes ∧ dst ∈ graph.getVertexes := by
    obtain ⟨p, hp⟩ := hreached
    cases p with
    | nil => exact absurd (isWalk_nil.mp hp.walk) hne
    | cons e p =>
      refine ⟨hp.walk.1 ▸ graph.src_mem e (hp.usable e List.mem_cons_self), ?_⟩
      obtain ⟨f, hf, hdst⟩ :=
        List.mem_map.mp ((List.mem_cons.mp hp.walk.end_mem).resolve_left hne.symm)
      exact hdst ▸ graph.dst_mem f (hp.usable f hf)
  obtain ⟨hsrc, hdst⟩ := hvertexes
  have hlevel := hops_lt_length hsrc (fun e he => graph.dst_mem e he) hreached
  have hstart : AtLevel graph src weigher (some dst) 0 [src] _ := atLevel_source hne hlimit
  obtain ⟨r, hok, htree, hcost, hgrows⟩ := searchLoop_spec horder hreached graph.getVertexes.length
    hstart (hlevel.le.trans (Nat.le_add_left _ 0))
  obtain ⟨c, hc⟩ := Option.ne_none_iff_exists'.mp hcost
  obtain ⟨p, hpaths, hleads, hlength, hsum⟩ := htree.buildAllPaths hc hgrows.paths hlimit
  have hbuild : buildPaths r = buildAllPaths r src dst maxPaths := by
    have hd : r.dst = some dst := hgrows.dst
    have hs : r.src = src := hgrows.src
    have hmax : r.maxPaths = maxPaths := hgrows.maxPaths
    rw [buildPaths_some hd (by rw [hs]; exact hne.symm), hs, hmax]
  refine ⟨buildPaths r, ⟨p, c⟩, ?_, by rw [hbuild]; exact hpaths, hleads, fun q hq => ?_, hsum⟩
  · rw [search, checkArguments_ok hsrc hdst, Except.bind, internalSearch, hok]
    rfl
  · exact hlength.le.trans hq.hops_le

def diamond : DirectedGraph ℕ TestEdge := adjacencyListsGraph [0, 1, 2, 3]
  [⟨0, 1, 1⟩, ⟨0, 2, 4⟩, ⟨1, 3, 1⟩, ⟨2, 3, 1⟩]

def diamondWeigher : Weigher TestEdge ℤ := ⟨TestEdge.weight, 0⟩

theorem search_fewest_diamond :
    ∃ result P, search List.reverse diamond 0 (some 3) diamondWeigher 1 = .ok result ∧
      result.paths = [P] ∧
      Leads Edge.src Edge.dst (fun e => e ∈ diamond.getEdges) 0 P.edges 3 ∧
      (∀ q, Leads Edge.src Edge.dst (fun e => e ∈ diamond.getEdges) 0 q 3 →
        P.edges.length ≤ q.length) ∧
      P.cost = diamondWeigher.totalCost P.edges := by
  refine search_fewest diamond diamondWeigher List.reverse_perm (by decide)
    ⟨[⟨0, 1, 1⟩, ⟨1, 3, 1⟩], ⟨rfl, rfl, rfl⟩, by decide⟩ (Or.inr le_rfl)

example : (search List.reverse diamond 0 (some 3) diamondWeigher 1).map (fun r => r.paths) =
    .ok [⟨[⟨0, 1, 1⟩, ⟨1, 3, 1⟩], 2⟩] := by decide

end Result

end BreadthFirstSearch

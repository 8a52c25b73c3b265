import Onos.GraphPathSearch
import Onos.Lib.RelaxationOrder
import Mathlib.Algebra.Order.Group.Int

/-! The search of Bellman and Ford for the shortest paths: rounds over all edges, and one more round
that removes the parents of the vertexes whose cost still goes down. Weights may be negative. -/
namespace BellmanFordGraphSearch

open KeyedMap DirectedWalk ShortestPaths RelaxationOrder GraphPathSearch

universe u v

variable {V : Type u} {E : Type v} {M : Type*} [DecidableEq V] [DecidableEq E] [Edge V E]
variable [AddCommGroup M] [LinearOrder M]

section Model

def relaxFrom (weigher : EdgeWeigher E M) (result : DefaultResult V E M) (edge : E) :
    DefaultResult V E M × Bool :=
  match result.cost (Edge.src edge) with
  | some cost => result.relaxEdge edge cost weigher false
  | none => (result, false)

def relaxAll (weigher : EdgeWeigher E M) (edges : List E) (result : DefaultResult V E M) :
    DefaultResult V E M :=
  edges.foldl (fun r e => (relaxFrom weigher r e).1) result

def rounds (weigher : EdgeWeigher E M) (edges : List E) :
    ℕ → DefaultResult V E M → DefaultResult V E M
  | 0, result => result
  | n + 1, result => rounds weigher edges n (relaxAll weigher edges result)

def removeVertex (result : DefaultResult V E M) (v : V) : DefaultResult V E M :=
  { result with parents := result.parents.erase v }

def removeRelaxed (weigher : EdgeWeigher E M) (edges : List E) (result : DefaultResult V E M) :
    DefaultResult V E M :=
  edges.foldl (fun r e =>
    if (relaxFrom weigher r e).2 then removeVertex (relaxFrom weigher r e).1 (Edge.dst e)
    else (relaxFrom weigher r e).1) result

def startResult (src : V) (dst : Option V) (weigher : EdgeWeigher E M) (maxPaths : ℤ) :
    DefaultResult V E M :=
  (defaultResult src dst maxPaths).updateVertex src none weigher.getInitialWeight true

def labels (graph : DirectedGraph V E) (src : V) (dst : Option V) (weigher : EdgeWeigher E M)
    (maxPaths : ℤ) : DefaultResult V E M :=
  removeRelaxed weigher graph.getEdges (rounds weigher graph.getEdges
    (graph.getVertexes.length - 1) (startResult src dst weigher maxPaths))

def internalSearch (graph : DirectedGraph V E) (src : V) (dst : Option V)
    (weigher : EdgeWeigher E M) (maxPaths : ℤ) : DefaultResult V E M :=
  buildPaths (labels graph src dst weigher maxPaths)

def search (graph : DirectedGraph V E) (src : V) (dst : Option V) (weigher : EdgeWeigher E M)
    (maxPaths : ℤ) : Except String (DefaultResult V E M) :=
  (checkArguments graph src dst).map fun _ => internalSearch graph src dst weigher maxPaths

/-- The part of the graph that the search can see: the edges that are viable. -/
def viable (graph : DirectedGraph V E) (weigher : EdgeWeigher E M) : Network V E M where
  src := Edge.src
  dst := Edge.dst
  usable e := e ∈ graph.getEdges ∧ (weigher.weight e).isSome
  weight := weigher.hopCost

end Model

section Relaxing

variable {weigher : EdgeWeigher E M} {r : DefaultResult V E M} {e : E} {a : M}

/-- What relaxing an edge does: nothing, one more parent of the same cost, or a lower cost and a new
parent. -/
theorem relaxEdge_cases (r : DefaultResult V E M) (e : E) (a : M) (weigher : EdgeWeigher E M) :
    ((weigher.weight e).isSome = false ∧ r.relaxEdge e a weigher false = (r, false)) ∨
    ((weigher.weight e).isSome = true ∧
      (∃ old, r.cost (Edge.dst e) = some old ∧ old < a + weigher.hopCost e) ∧
      r.relaxEdge e a weigher false = (r, false)) ∨
    ((weigher.weight e).isSome = true ∧ r.cost (Edge.dst e) = some (a + weigher.hopCost e) ∧
      r.relaxEdge e a weigher false =
        (r.updateVertex (Edge.dst e) (some e) (a + weigher.hopCost e) false, false)) ∨
    ((weigher.weight e).isSome = true ∧
      (∀ old, r.cost (Edge.dst e) = some old → a + weigher.hopCost e < old) ∧
      r.relaxEdge e a weigher false =
        (r.updateVertex (Edge.dst e) (some e) (a + weigher.hopCost e) true, true)) := by
  cases hweight : weigher.weight e with
  | none => exact Or.inl ⟨rfl, by simp [DefaultResult.relaxEdge, hweight]⟩
  | some hopCost =>
    have hhop : weigher.hopCost e = hopCost := by rw [EdgeWeigher.hopCost, hweight]; rfl
    right
    rw [hhop]
    cases hcost : r.cost (Edge.dst e) with
    | none =>
      right; right
      refine ⟨rfl, by simp, ?_⟩
      simp [DefaultResult.relaxEdge, hweight, hcost]
    | some old =>
      rcases lt_trichotomy (a + hopCost) old with hlt | heq | hgt
      · right; right
        refine ⟨rfl, by simpa using hlt, ?_⟩
        simp [DefaultResult.relaxEdge, hweight, hcost, compare_lt_iff_lt.mpr hlt]
      · right; left
        subst heq
        refine ⟨rfl, rfl, ?_⟩
        simp [DefaultResult.relaxEdge, hweight, hcost]
      · left
        refine ⟨rfl, ⟨old, rfl, hgt⟩, ?_⟩
        simp [DefaultResult.relaxEdge, hweight, hcost, compare_gt_iff_gt.mpr hgt]

/-- An edge without effect, or the cost of its source and what the edge does with it. -/
inductive Relaxes (graph : DirectedGraph V E) (weigher : EdgeWeigher E M) (r : DefaultResult V E M)
    (e : E) : DefaultResult V E M × Bool → Prop where
  | skip (h : ¬(viable graph weigher).usable e ∨ r.cost (Edge.src e) = none) :
      Relaxes graph weigher r e (r, false)
  | stay {a old : M} (he : (viable graph weigher).usable e) (ha : r.cost (Edge.src e) = some a)
      (hold : r.cost (Edge.dst e) = some old) (hlt : old < a + weigher.hopCost e) :
      Relaxes graph weigher r e (r, false)
  | tie {a : M} (he : (viable graph weigher).usable e) (ha : r.cost (Edge.src e) = some a)
      (heq : r.cost (Edge.dst e) = some (a + weigher.hopCost e)) : Relaxes graph weigher r e
        (r.updateVertex (Edge.dst e) (some e) (a + weigher.hopCost e) false, false)
  | lower {a : M} (he : (viable graph weigher).usable e) (ha : r.cost (Edge.src e) = some a)
      (hlt : ∀ old, r.cost (Edge.dst e) = some old → a + weigher.hopCost e < old) :
      Relaxes graph weigher r e
        (r.updateVertex (Edge.dst e) (some e) (a + weigher.hopCost e) true, true)

theorem relaxes_relaxFrom (graph : DirectedGraph V E) (weigher : EdgeWeigher E M)
    (r : DefaultResult V E M) (he : e ∈ graph.getEdges) :
    Relaxes graph weigher r e (relaxFrom weigher r e) := by
  unfold relaxFrom
  cases ha : r.cost (Edge.src e) with
  | none => exact Relaxes.skip (Or.inr ha)
  | some a =>
    dsimp only
    rcases relaxEdge_cases r e a weigher with ⟨hnone, hr⟩ | ⟨hsome, ⟨old, hold, hlt⟩, hr⟩ |
      ⟨hsome, heq, hr⟩ | ⟨hsome, hlt, hr⟩
    · rw [hr]
      refine Relaxes.skip (Or.inl fun husable => ?_)
      rw [husable.2] at hnone
      cases hnone
    · rw [hr]
      exact Relaxes.stay ⟨he, hsome⟩ ha hold hlt
    · rw [hr]
      exact Relaxes.tie ⟨he, hsome⟩ ha heq
    · rw [hr]
      exact Relaxes.lower ⟨he, hsome⟩ ha hlt

omit [DecidableEq V] [DecidableEq E] [Edge V E] [AddCommGroup M] [LinearOrder M] in
theorem withinLimit_all (n : ℕ) : DefaultResult.withinLimit ALL_PATHS n = true :=
  decide_eq_true (Or.inl rfl)

end Relaxing

section Explaining

variable [IsOrderedAddMonoid M]
variable {graph : DirectedGraph V E} {weigher : EdgeWeigher E M} {r : DefaultResult V E M} {e f : E}
  {S : List E}

/-- The costs are those of the cheapest routes that follow the order in which edges were relaxed, and
the parents are the last edges of these routes. -/
structure Explained (graph : DirectedGraph V E) (weigher : EdgeWeigher E M) (S : List E)
    (r : DefaultResult V E M) : Prop where
  exact : IsExact (viable graph weigher) r.src weigher.getInitialWeight S r.cost
  sound : ∀ v, ∀ f ∈ r.parentEdges v, Edge.dst f = v ∧
    IsLast (viable graph weigher) r.src weigher.getInitialWeight S r.cost f
  complete : r.maxPaths = ALL_PATHS → ∀ f,
    IsLast (viable graph weigher) r.src weigher.getInitialWeight S r.cost f →
      f ∈ r.parentEdges (Edge.dst f)

structure SameSearch (r r' : DefaultResult V E M) : Prop where
  src : r'.src = r.src
  dst : r'.dst = r.dst
  maxPaths : r'.maxPaths = r.maxPaths
  paths : r'.paths = r.paths

omit [DecidableEq V] [DecidableEq E] [Edge V E] [AddCommGroup M] [LinearOrder M]
  [IsOrderedAddMonoid M] in
theorem SameSearch.refl (r : DefaultResult V E M) : SameSearch r r := ⟨rfl, rfl, rfl, rfl⟩

omit [DecidableEq V] [DecidableEq E] [Edge V E] [AddCommGroup M] [LinearOrder M]
  [IsOrderedAddMonoid M] in
theorem SameSearch.trans {r r' r'' : DefaultResult V E M} (h : SameSearch r r')
    (h' : SameSearch r' r'') : SameSearch r r'' :=
  ⟨h'.src.trans h.src, h'.dst.trans h.dst, h'.maxPaths.trans h.maxPaths, h'.paths.trans h.paths⟩

omit [IsOrderedAddMonoid M] in
theorem Relaxes.sameSearch {y : DefaultResult V E M × Bool} (h : Relaxes graph weigher r e y) :
    SameSearch r y.1 := by
  cases h <;> exact ⟨rfl, rfl, rfl, rfl⟩

omit [Edge V E] [AddCommGroup M] [LinearOrder M] [IsOrderedAddMonoid M] in
theorem cost_tie {v : V} {c : M} (hc : r.cost v = some c) :
    (r.updateVertex v (some e) c false).cost = r.cost := by
  funext x
  rw [cost_updateVertex]
  split_ifs with hx
  · rw [hx, hc]
  · rfl

theorem Relaxes.exact {y : DefaultResult V E M × Bool} (hy : Relaxes graph weigher r e y)
    (h : IsExact (viable graph weigher) r.src weigher.getInitialWeight S r.cost) :
    IsExact (viable graph weigher) y.1.src weigher.getInitialWeight (S ++ [e]) y.1.cost := by
  cases hy with
  | skip hskip => exact h.skip hskip
  | stay he ha hold hlt => exact h.relax he ha (fun _ _ => rfl) (Or.inl ⟨_, hold, hlt.le, hold⟩)
  | tie he ha heq =>
    rw [cost_tie heq]
    exact h.relax he ha (fun _ _ => rfl) (Or.inl ⟨_, heq, le_rfl, heq⟩)
  | lower he ha hlt =>
    refine h.relax he ha (fun v hv => ?_) (Or.inr ⟨fun old hold => (hlt old hold).le, ?_⟩)
    · rw [cost_updateVertex]
      exact if_neg hv
    · rw [cost_updateVertex]
      exact if_pos rfl

omit [IsOrderedAddMonoid M] in
theorem Relaxes.le {y : DefaultResult V E M × Bool} (hy : Relaxes graph weigher r e y) {v : V}
    {old : M} (hold : r.cost v = some old) : ∃ new, y.1.cost v = some new ∧ new ≤ old := by
  cases hy with
  | skip _ => exact ⟨old, hold, le_rfl⟩
  | stay _ _ _ _ => exact ⟨old, hold, le_rfl⟩
  | tie _ _ heq =>
    rw [cost_tie heq]
    exact ⟨old, hold, le_rfl⟩
  | lower _ _ hlt =>
    rw [cost_updateVertex]
    split_ifs with hv
    · exact ⟨_, rfl, (hlt old (hv ▸ hold)).le⟩
    · exact ⟨old, hold, le_rfl⟩

omit [DecidableEq V] [DecidableEq E] [AddCommGroup M] [LinearOrder M] [IsOrderedAddMonoid M]
  [Edge V E] in
theorem sublist_concat (S : List E) (e : E) : S.Sublist (S ++ [e]) := List.sublist_append_left S [e]

section

variable (h : Explained graph weigher S r)

include h

theorem Explained.relaxFrom (he : e ∈ graph.getEdges) :
    Explained graph weigher (S ++ [e]) (relaxFrom weigher r e).1 := by
  have hy := relaxes_relaxFrom graph weigher r he
  generalize BellmanFordGraphSearch.relaxFrom weigher r e = y at hy
  have hexact := hy.exact h.exact
  have hcases : ∀ f, IsLast (viable graph weigher) y.1.src weigher.getInitialWeight (S ++ [e])
      y.1.cost f → _ := fun f hf => by
    have hf' := hf
    rw [hy.sameSearch.src] at hf'
    rw [hy.sameSearch.src] at hexact
    exact h.exact.isLast_cases hexact (fun old hold => hy.le hold) hf'
  refine ⟨hexact, ?_, ?_⟩
  · -- the parents that stay have an end whose cost stays
    cases hy with
    | skip _ =>
      intro v f hf
      exact ⟨(h.sound v f hf).1, (h.sound v f hf).2.mono (sublist_concat S e) rfl⟩
    | stay _ _ _ _ =>
      intro v f hf
      exact ⟨(h.sound v f hf).1, (h.sound v f hf).2.mono (sublist_concat S e) rfl⟩
    | tie husable ha heq =>
      intro v f hf
      rw [cost_tie heq]
      rcases mem_of_mem_tie hf with hf | ⟨rfl, rfl⟩
      · exact ⟨(h.sound v f hf).1, (h.sound v f hf).2.mono (sublist_concat S e) rfl⟩
      · exact ⟨rfl, h.exact.isLast_concat husable ha heq⟩
    | @lower a husable ha hlt =>
      intro v f hf
      have hnew : (r.updateVertex (Edge.dst e) (some e) (a + weigher.hopCost e) true).cost
          (Edge.dst e) = some (a + weigher.hopCost e) := by rw [cost_updateVertex, if_pos rfl]
      by_cases hv : v = Edge.dst e
      · subst hv
        rw [parentEdges_replace] at hf
        split_ifs at hf
        · rw [List.mem_singleton.mp hf]
          exact ⟨rfl, h.exact.isLast_concat husable ha hnew⟩
        · cases hf
      · rw [parentEdges_updateVertex_ne hv] at hf
        obtain ⟨rfl, hlast⟩ := h.sound v f hf
        refine ⟨rfl, hlast.mono (sublist_concat S e) ?_⟩
        exact (cost_updateVertex _ _ _ _ _).trans (if_neg hv)
  · intro hmax f hf
    have hall := h.complete (hy.sameSearch.maxPaths.symm.trans hmax)
    rcases hcases f hf with ⟨hlast, hsame⟩ | ⟨rfl, husable, a', ha', hnew⟩
    · have hold := hall f hlast
      cases hy with
      | skip _ => exact hold
      | stay _ _ _ _ => exact hold
      | tie _ _ _ => exact mem_parentEdges_tie hold
      | @lower a _ _ hlt =>
        by_cases hv : Edge.dst f = Edge.dst e
        · have hcost : (r.updateVertex (Edge.dst e) (some e) (a + weigher.hopCost e) true).cost
              (Edge.dst f) = r.cost (Edge.dst f) := hsame
          rw [cost_updateVertex, if_pos hv, hv] at hcost
          exact absurd (hlt _ hcost.symm) (lt_irrefl _)
        · rw [parentEdges_updateVertex_ne hv]
          exact hold
    · have ha'' : r.cost (Edge.src f) = some a' := ha'
      have hnew' : y.1.cost (Edge.dst f) = some (a' + weigher.hopCost f) := hnew
      cases hy with
      | skip hskip =>
        rcases hskip with hun | hnone
        · exact absurd husable hun
        · rw [hnone] at ha''
          cases ha''
      | stay _ ha hold hlt =>
        obtain rfl := Option.some.inj (ha.symm.trans ha'')
        obtain rfl := Option.some.inj (hold.symm.trans hnew')
        exact absurd hlt (lt_irrefl _)
      | tie _ _ _ =>
        have hmax' : r.maxPaths = ALL_PATHS := hmax
        rw [parentEdges_tie, hmax', if_pos (withinLimit_all _)]
        exact List.mem_insert_self
      | lower _ _ _ =>
        have hmax' : r.maxPaths = ALL_PATHS := hmax
        rw [parentEdges_replace, hmax', if_pos (withinLimit_all _)]
        exact List.mem_singleton_self f

theorem Explained.relaxAll {edges : List E} (hedges : ∀ e ∈ edges, e ∈ graph.getEdges) :
    Explained graph weigher (S ++ edges) (relaxAll weigher edges r) ∧
      SameSearch r (relaxAll weigher edges r) := by
  induction edges generalizing S r with
  | nil => exact ⟨(List.append_nil S).symm ▸ h, SameSearch.refl r⟩
  | cons e edges ih =>
    have he := hedges e List.mem_cons_self
    obtain ⟨hrest, hsame⟩ := ih (h.relaxFrom he) fun f hf => hedges f (List.mem_cons_of_mem e hf)
    rw [List.append_cons]
    exact ⟨hrest, (relaxes_relaxFrom graph weigher r he).sameSearch.trans hsame⟩

theorem Explained.rounds {edges : List E} (hedges : ∀ e ∈ edges, e ∈ graph.getEdges) (n : ℕ) :
    Explained graph weigher (S ++ (List.replicate n edges).flatten) (rounds weigher edges n r) ∧
      SameSearch r (rounds weigher edges n r) := by
  induction n generalizing S r with
  | zero =>
    rw [List.replicate_zero, List.flatten_nil, List.append_nil]
    exact ⟨h, SameSearch.refl r⟩
  | succ n ih =>
    obtain ⟨hround, hsame⟩ := h.relaxAll hedges
    obtain ⟨hrest, hsame'⟩ := ih hround
    rw [List.replicate_succ, List.flatten_cons, ← List.append_assoc]
    exact ⟨hrest, hsame.trans hsame'⟩

end

variable {src : V} {dst : Option V} {maxPaths : ℤ}

omit [Edge V E] [AddCommGroup M] [LinearOrder M] [IsOrderedAddMonoid M] in
theorem cost_startResult (v : V) :
    (startResult src dst weigher maxPaths : DefaultResult V E M).cost v =
      if v = src then some weigher.getInitialWeight else none :=
  lookup_insert ∅ src v _

omit [IsOrderedAddMonoid M] in
variable (graph weigher src) in
theorem explained_start (dst : Option V) (maxPaths : ℤ) :
    Explained graph weigher [] (startResult src dst weigher maxPaths) := by
  refine ⟨isExact_nil ?_ ?_, ?_, ?_⟩
  · exact (cost_startResult src).trans (if_pos rfl)
  · intro v hv
    exact (cost_startResult v).trans (if_neg hv)
  · intro v f hf
    cases hf
  · rintro - f ⟨-, p, hp, -⟩
    exact absurd (List.sublist_nil.mp hp.sublist) (List.append_ne_nil_of_right_ne_nil p (by simp))

variable (graph weigher src dst maxPaths) in
theorem explained_rounds (n : ℕ) : Explained graph weigher (List.replicate n graph.getEdges).flatten
      (rounds weigher graph.getEdges n (startResult src dst weigher maxPaths)) ∧
    SameSearch (startResult src dst weigher maxPaths : DefaultResult V E M)
      (rounds weigher graph.getEdges n (startResult src dst weigher maxPaths)) := by
  have h := (explained_start graph weigher src dst maxPaths).rounds (fun _ he => he) n
  rwa [List.nil_append] at h

end Explaining

section Converging

variable [IsOrderedAddMonoid M]
variable {graph : DirectedGraph V E} {weigher : EdgeWeigher E M} {r : DefaultResult V E M} {e : E}
  {S : List E} {src t : V}

def Final (graph : DirectedGraph V E) (weigher : EdgeWeigher E M) (r : DefaultResult V E M) : Prop :=
  IsFinal (viable graph weigher) r.src weigher.getInitialWeight r.cost

omit [DecidableEq V] [DecidableEq E] [LinearOrder M] [IsOrderedAddMonoid M] in
theorem length_le_of_path {v : V} {p : List E} (hsrc : src ∈ graph.getVertexes)
    (hroute : IsRoute (viable graph weigher) src p v)
    (hp : IsPath (viable graph weigher).src (viable graph weigher).dst src p v) :
    p.length ≤ graph.getVertexes.length - 1 := by
  have hsub : src :: p.map Edge.dst ⊆ graph.getVertexes := by
    intro x hx
    rcases List.mem_cons.mp hx with rfl | hx
    · exact hsrc
    · obtain ⟨f, hf, rfl⟩ := List.mem_map.mp hx
      exact graph.dst_mem f (hroute.usable f hf).1
  have hlen := (List.subperm_of_subset hp.simple hsub).length_le
  rw [List.length_cons, List.length_map] at hlen
  omega

omit [IsOrderedAddMonoid M] in
theorem Relaxes.not_lowered {y : DefaultResult V E M × Bool} (hy : Relaxes graph weigher r e y)
    (h : Explained graph weigher S r) (hfinal : Final graph weigher r) : y.2 = false := by
  cases hy with
  | skip _ => rfl
  | stay _ _ _ _ => rfl
  | tie _ _ _ => rfl
  | lower he ha hlt =>
    obtain ⟨b, hb, hle⟩ := hfinal.le_edge h.exact he ha
    exact absurd (hlt b hb) (not_lt.mpr hle)

theorem Explained.removeRelaxed {edges : List E} (h : Explained graph weigher S r)
    (hfinal : Final graph weigher r) (hedges : ∀ e ∈ edges, e ∈ graph.getEdges) :
    Explained graph weigher (S ++ edges) (removeRelaxed weigher edges r) ∧
      Final graph weigher (removeRelaxed weigher edges r) ∧
      SameSearch r (removeRelaxed weigher edges r) := by
  induction edges generalizing S r with
  | nil => exact ⟨(List.append_nil S).symm ▸ h, hfinal, SameSearch.refl r⟩
  | cons e edges ih =>
    have he := hedges e List.mem_cons_self
    have hy := relaxes_relaxFrom graph weigher r he
    have hfinal' : Final graph weigher (BellmanFordGraphSearch.relaxFrom weigher r e).1 := by
      have hlower := hfinal.mono fun v old hold => hy.le hold
      rwa [Final, hy.sameSearch.src]
    obtain ⟨hrest, hfinal'', hsame⟩ := ih (h.relaxFrom he) hfinal'
      fun f hf => hedges f (List.mem_cons_of_mem e hf)
    rw [List.append_cons]
    unfold BellmanFordGraphSearch.removeRelaxed
    rw [List.foldl_cons, hy.not_lowered h hfinal]
    exact ⟨hrest, hfinal'', hy.sameSearch.trans hsame⟩

theorem labels_spec (hpos : HasPositiveCycles (viable graph weigher)) (hsrc : src ∈ graph.getVertexes)
    (dst : Option V) (maxPaths : ℤ) :
    (∃ S, (List.replicate (graph.getVertexes.length - 1) graph.getEdges).flatten.Sublist S ∧
      Explained graph weigher S (labels graph src dst weigher maxPaths)) ∧
    Final graph weigher (labels graph src dst weigher maxPaths) ∧
    SameSearch (startResult src dst weigher maxPaths : DefaultResult V E M)
      (labels graph src dst weigher maxPaths) := by
  obtain ⟨hrounds, hsame⟩ := explained_rounds graph weigher src dst maxPaths
    (graph.getVertexes.length - 1)
  have hfinal : Final graph weigher (rounds weigher graph.getEdges (graph.getVertexes.length - 1)
      (startResult src dst weigher maxPaths)) := by
    refine hrounds.exact.isFinal hpos (fun f hf => hf.1) fun v p hroute hp => ?_
    rw [hsame.src] at hroute hp
    exact length_le_of_path hsrc hroute hp
  obtain ⟨hlabels, hfinal', hsame'⟩ := hrounds.removeRelaxed hfinal fun _ he => he
  exact ⟨⟨_, List.sublist_append_left _ _, hlabels⟩, hfinal', hsame.trans hsame'⟩

end Converging

section Results

variable [IsOrderedAddMonoid M]
variable {graph : DirectedGraph V E} {weigher : EdgeWeigher E M} {r : DefaultResult V E M}
  {S : List E} {src t : V} {maxPaths : ℤ}

omit [DecidableEq E] [IsOrderedAddMonoid M] in
theorem Explained.mem_parents (h : Explained graph weigher S r) {v : V} {f : E}
    (hf : f ∈ r.parentEdges v) : Edge.dst f = v := (h.sound v f hf).1

omit [DecidableEq E] in
theorem Explained.tight (h : Explained graph weigher S r) (hfinal : Final graph weigher r) {v : V}
    {f : E} (hf : f ∈ r.parentEdges v) :
    (viable graph weigher).usable f ∧ Tight (viable graph weigher) r.cost f :=
  ⟨(h.sound v f hf).2.1, hfinal.tight_of_isLast h.exact (h.sound v f hf).2⟩

omit [DecidableEq E] [IsOrderedAddMonoid M] in
theorem Explained.exists_parent (h : Explained graph weigher S r) (hmax : r.maxPaths = ALL_PATHS)
    {v : V} {c : M} (hc : r.cost v = some c) (hv : v ≠ r.src) : r.parentEdges v ≠ [] := by
  obtain ⟨p, hp, rfl⟩ := ((h.exact v).1 c hc).followed
  rcases List.eq_nil_or_concat p with rfl | ⟨q, e, rfl⟩
  · exact absurd hp.route.walk.symm hv
  · rw [List.concat_eq_append] at hp hc
    obtain ⟨-, he, rfl⟩ := isRoute_concat.mp hp.route
    exact List.ne_nil_of_mem (h.complete hmax e ⟨he, q, hp, hc⟩)

section

omit [DecidableEq E]

section

variable (h : Explained graph weigher S r)

include h

theorem Explained.parent_of_firstVertex
    (hmax : r.maxPaths = ALL_PATHS) {c : M} (hc : r.cost t = some c) {p : List E}
    (hp : Backward r.parentEdges r.src t p) (hfirst : firstVertex p t ≠ r.src) :
    r.parentEdges (firstVertex p t) ≠ [] := by
  cases hp with
  | nil => exact h.exists_parent hmax hc hfirst
  | cons _ _ he _ =>
    obtain ⟨a, -, ha, -, -⟩ := h.exact.label_of_isLast (h.sound _ _ he).2
    exact h.exists_parent hmax ha hfirst

theorem Explained.cost_source (hfinal : Final graph weigher r)
    (hpos : HasPositiveCycles (viable graph weigher)) :
    r.cost r.src = some weigher.getInitialWeight := by
  obtain ⟨c, hc, hle⟩ := hfinal r.src [] ⟨rfl, by simp⟩
  obtain ⟨p, hp, rfl⟩ := ((h.exact _).1 c hc).followed
  obtain ⟨q, hq, -, hcost⟩ := IsRoute.exists_cheaper hpos hp.route
  obtain rfl := hq.eq_nil
  have hge : cost (viable graph weigher).weight [] ≤ cost (viable graph weigher).weight p :=
    hcost.elim (fun heq => heq ▸ le_rfl) le_of_lt
  rw [hc, Option.some.injEq]
  refine le_antisymm (by rwa [cost_nil, add_zero] at hle) ?_
  rw [cost_nil] at hge
  exact le_add_of_nonneg_right hge

theorem Explained.backward_iff (hfinal : Final graph weigher r)
    (hpos : HasPositiveCycles (viable graph weigher)) (hmax : r.maxPaths = ALL_PATHS)
    (hlong : ∀ v p, IsRoute (viable graph weigher) r.src p v →
      IsPath (viable graph weigher).src (viable graph weigher).dst r.src p v → p.Sublist S)
    {p : List E} : Backward r.parentEdges r.src t p ∧ firstVertex p t = r.src ↔
      IsShortest (viable graph weigher) r.src p t := by
  have hparents : ∀ v, ∀ e ∈ r.parentEdges v, Edge.dst e = v := fun v e he => h.mem_parents he
  constructor
  · rintro ⟨hp, hfirst⟩
    have hmem : ∀ e ∈ p, e ∈ r.parentEdges (Edge.dst e) := fun e he =>
      (hp.mem_parents hparents he).1
    have hwalk := hp.walk hparents
    rw [hfirst] at hwalk
    have hroute : IsRoute (viable graph weigher) r.src p t :=
      ⟨hwalk, fun e he => (h.tight hfinal (hmem e he)).1⟩
    exact hfinal.shortest_of_tight (h.cost_source hfinal hpos) hroute
      fun e he => (h.tight hfinal (hmem e he)).2
  · intro hp
    have hpath := IsShortest.isPath_of_positive hpos hp
    refine ⟨backward_of_path hpath (fun e he => ?_) (Or.inl rfl), firstVertex_eq hpath.walk⟩
    obtain ⟨p₁, p₂, rfl⟩ := List.append_of_mem he
    rw [List.append_cons] at hpath
    obtain ⟨x, hroute₁, -⟩ := isRoute_append.mp (List.append_cons p₁ e p₂ ▸ hp.route)
    have hpath₁ : IsPath (viable graph weigher).src (viable graph weigher).dst r.src (p₁ ++ [e]) x :=
      hpath.take hroute₁.walk
    exact h.complete hmax e (hfinal.isLast_of_shortest h.exact hp (hlong x _ hroute₁ hpath₁))

end

end

section

omit [IsOrderedAddMonoid M]

theorem internalSearch_eq (hne : src ≠ t)
    (hsame : SameSearch (startResult src (some t) weigher maxPaths : DefaultResult V E M)
      (labels graph src (some t) weigher maxPaths)) :
    internalSearch graph src (some t) weigher maxPaths =
      buildAllPaths (labels graph src (some t) weigher maxPaths) src t maxPaths := by
  have hs : (labels graph src (some t) weigher maxPaths).src = src := hsame.src
  have hd : (labels graph src (some t) weigher maxPaths).dst = some t := hsame.dst
  have hmax : (labels graph src (some t) weigher maxPaths).maxPaths = maxPaths := hsame.maxPaths
  rw [internalSearch, buildPaths_some hd (by rw [hs]; exact hne.symm), hs, hmax]

theorem paths_internalSearch_source (hsame : SameSearch
    (startResult src (some src) weigher maxPaths : DefaultResult V E M)
    (labels graph src (some src) weigher maxPaths)) :
    (internalSearch graph src (some src) weigher maxPaths).paths = [] := by
  have hs : (labels graph src (some src) weigher maxPaths).src = src := hsame.src
  have hd : (labels graph src (some src) weigher maxPaths).dst = some src := hsame.dst
  rw [internalSearch, buildPaths_source (by rw [hd, hs])]
  exact hsame.paths

theorem search_eq (dst : Option V) (hsrc : src ∈ graph.getVertexes)
    (hdst : ∀ t ∈ dst, t ∈ graph.getVertexes) :
    search graph src dst weigher maxPaths = .ok (internalSearch graph src dst weigher maxPaths) := by
  unfold search checkArguments
  rw [if_neg (not_not.mpr hsrc)]
  cases dst with
  | none => rfl
  | some t =>
    dsimp only
    rw [if_pos (hdst t rfl)]
    rfl

end

/-- Without cycles of weight zero or less, and with all paths asked for, the search returns exactly
the shortest paths. -/
theorem returns_shortest_paths (graph : DirectedGraph V E) (weigher : EdgeWeigher E M) {src dst : V}
    (hsrc : src ∈ graph.getVertexes) (hdst : dst ∈ graph.getVertexes) (hne : src ≠ dst)
    (hpos : HasPositiveCycles (viable graph weigher)) :
    ∃ result, search graph src (some dst) weigher ALL_PATHS = .ok result ∧
      ∀ P, P ∈ result.paths ↔ IsShortest (viable graph weigher) src P.edges dst ∧
        P.cost = weigher.totalCost P.edges := by
  obtain ⟨⟨S, hrounds, h⟩, hfinal, hsame⟩ := labels_spec hpos hsrc (some dst) ALL_PATHS
  refine ⟨_, search_eq _ hsrc (by simpa using hdst), ?_⟩
  rw [internalSearch_eq hne hsame]
  generalize hr : labels graph src (some dst) weigher ALL_PATHS = r at h hfinal hsame
  obtain rfl : r.src = src := hsame.src
  have hmax : r.maxPaths = ALL_PATHS := hsame.maxPaths
  have hpaths : r.paths = [] := hsame.paths
  have hlong : ∀ v p, IsRoute (viable graph weigher) r.src p v →
      IsPath (viable graph weigher).src (viable graph weigher).dst r.src p v → p.Sublist S := by
    intro v p hroute hp
    refine (sublist_rounds (fun f hf => (hroute.usable f hf).1) ?_).trans hrounds
    exact length_le_of_path hsrc hroute hp
  have hback : ∀ p, Backward r.parentEdges r.src dst p ∧ firstVertex p dst = r.src ↔ _ :=
    fun p => h.backward_iff hfinal hpos hmax hlong
  intro P
  cases ht : r.cost dst with
  | none =>
    have hnil : (buildAllPaths r r.src dst ALL_PATHS).paths = [] := by
      simp only [buildAllPaths, ht, hpaths]
    rw [hnil]
    refine ⟨fun hP => absurd hP List.not_mem_nil, fun hP => ?_⟩
    obtain ⟨b, hb, -⟩ := hfinal dst P.edges hP.1.route
    rw [ht] at hb
    cases hb
  | some c =>
    obtain ⟨hsound, hcomplete⟩ := buildAllPaths_spec ALL_PATHS (fun v e he => h.mem_parents he)
      (fun p hp hfirst => h.parent_of_firstVertex hmax ht hp hfirst) ht hpaths
    have hcost : ∀ p, IsShortest (viable graph weigher) r.src p dst → c = weigher.totalCost p := by
      intro p hp
      exact Option.some.inj (ht.symm.trans (hfinal.label_of_shortest h.exact hp))
    constructor
    · intro hP
      obtain ⟨hp, hfirst, rfl⟩ := hsound P hP
      have hshortest := (hback _).mp ⟨hp, hfirst⟩
      exact ⟨hshortest, hcost _ hshortest⟩
    · rintro ⟨hshortest, hPcost⟩
      have hp := (hback _).mpr hshortest
      have hmem := (hcomplete.resolve_right fun hlimit => hlimit.1 rfl) P.edges hp.1 hp.2
      rwa [hcost _ hshortest, ← hPcost] at hmem

/-- Two cheapest ways to 2, over an edge that gains and over none, and a way back from 2 to 1. -/
def gains : DirectedGraph ℕ TestEdge := adjacencyListsGraph [0, 1, 2, 3]
  [⟨2, 3, -4⟩, ⟨1, 2, -1⟩, ⟨2, 1, 3⟩, ⟨0, 2, 1⟩, ⟨0, 1, 2⟩]

theorem hasPositiveCycles_gains : HasPositiveCycles (viable gains testWeigher) := by
  refine hasPositiveCycles_of_potential (fun v => [0, 1, -1, -6].getD v 0) fun f hf => ?_
  have hall : ∀ f ∈ gains.getEdges, ([0, 1, -1, -6] : List ℤ).getD f.dst 0 <
      ([0, 1, -1, -6] : List ℤ).getD f.src 0 + f.weight := by decide
  exact hall f hf.1

theorem returns_shortest_paths_gains :
    ∃ result, search gains 0 (some 3) testWeigher ALL_PATHS = .ok result ∧
      ∀ P, P ∈ result.paths ↔ IsShortest (viable gains testWeigher) 0 P.edges 3 ∧
        P.cost = testWeigher.totalCost P.edges :=
  returns_shortest_paths gains testWeigher (by decide) (by decide) (by decide)
    hasPositiveCycles_gains

example : (internalSearch gains 0 (some 3) testWeigher ALL_PATHS).paths.map Path.edges =
    [[⟨0, 1, 2⟩, ⟨1, 2, -1⟩, ⟨2, 3, -4⟩], [⟨0, 2, 1⟩, ⟨2, 3, -4⟩]] := by decide

end Results

end BellmanFordGraphSearch

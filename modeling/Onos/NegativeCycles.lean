import Onos.BellmanFordGraphSearch

/-! What the search of Bellman and Ford returns in a graph with negative cycles. The extra round
removes the parents of the vertexes whose cost goes down in it; the edges that keep the balance of
their two ends throughout the round stay parents. -/
namespace NegativeCycles

open KeyedMap DirectedWalk ShortestPaths RelaxationOrder GraphPathSearch BellmanFordGraphSearch

universe u v

variable {V : Type u} {E : Type v} {M : Type*} [DecidableEq V] [DecidableEq E] [Edge V E]
variable [AddCommGroup M] [LinearOrder M]
variable {graph : DirectedGraph V E} {weigher : EdgeWeigher E M} {r : DefaultResult V E M} {e f : E}
  {S T rest : List E}

section Removing

/-- The parents that are left are balanced already, or their turn is to come. -/
structure Removing (graph : DirectedGraph V E) (weigher : EdgeWeigher E M) (S T rest : List E)
    (r : DefaultResult V E M) : Prop where
  exact : IsExact (viable graph weigher) r.src weigher.getInitialWeight (S ++ T) r.cost
  parents : ∀ v, ∀ f ∈ r.parentEdges v, Edge.dst f = v ∧
    (f ∈ rest ∧ IsLast (viable graph weigher) r.src weigher.getInitialWeight (S ++ T) r.cost f ∨
      IsBalancedAt (viable graph weigher) r.src weigher.getInitialWeight S T r.cost f)
  complete : r.maxPaths = ALL_PATHS → ∀ f,
    IsBalancedAt (viable graph weigher) r.src weigher.getInitialWeight S T r.cost f →
      f ∈ r.parentEdges (Edge.dst f)

def afterRelaxing (e : E) (y : DefaultResult V E M × Bool) : DefaultResult V E M :=
  if y.2 then removeVertex y.1 (Edge.dst e) else y.1

omit [DecidableEq E] [Edge V E] [AddCommGroup M] [LinearOrder M] in
theorem parentEdges_removeVertex (r : DefaultResult V E M) (v x : V) :
    (removeVertex r v).parentEdges x = if x = v then [] else r.parentEdges x := by
  unfold removeVertex DefaultResult.parentEdges
  rw [lookup_erase]
  split_ifs <;> rfl

section

omit [DecidableEq E] [AddCommGroup M] [LinearOrder M]

theorem cost_afterRelaxing (e : E) (y : DefaultResult V E M × Bool) :
    (afterRelaxing e y).cost = y.1.cost := by
  unfold afterRelaxing
  split_ifs <;> rfl

theorem sameSearch_afterRelaxing (e : E) (y : DefaultResult V E M × Bool) :
    SameSearch y.1 (afterRelaxing e y) := by
  unfold afterRelaxing
  split_ifs
  · exact ⟨rfl, rfl, rfl, rfl⟩
  · exact SameSearch.refl y.1

end

variable [IsOrderedAddMonoid M]

theorem Removing.parents_step (h : Removing graph weigher S T (e :: rest) r)
    {y : DefaultResult V E M × Bool} (hy : Relaxes graph weigher r e y) (v : V)
    (hf : f ∈ (afterRelaxing e y).parentEdges v) : Edge.dst f = v ∧
      (f ∈ rest ∧ IsLast (viable graph weigher) r.src weigher.getInitialWeight (S ++ (T ++ [e]))
        y.1.cost f ∨
      IsBalancedAt (viable graph weigher) r.src weigher.getInitialWeight S (T ++ [e]) y.1.cost f) := by
  -- a parent from before whose turn is not now
  have hkeep : f ∈ r.parentEdges v → y.1.cost (Edge.dst f) = r.cost (Edge.dst f) →
      (f = e → IsLast (viable graph weigher) r.src weigher.getInitialWeight (S ++ T) r.cost e →
        IsBalancedAt (viable graph weigher) r.src weigher.getInitialWeight S (T ++ [e]) y.1.cost e) →
      Edge.dst f = v ∧ (f ∈ rest ∧ IsLast (viable graph weigher) r.src weigher.getInitialWeight
        (S ++ (T ++ [e])) y.1.cost f ∨
      IsBalancedAt (viable graph weigher) r.src weigher.getInitialWeight S (T ++ [e]) y.1.cost f) := by
    intro hf hsame hturn
    obtain ⟨hv, ⟨hmem, hlast⟩ | hbalanced⟩ := h.parents v f hf
    · rcases List.mem_cons.mp hmem with rfl | hmem
      · exact ⟨hv, Or.inr (hturn rfl hlast)⟩
      · refine ⟨hv, Or.inl ⟨hmem, ?_⟩⟩
        rw [← List.append_assoc]
        exact hlast.mono (List.sublist_append_left _ _) hsame
    · exact ⟨hv, Or.inr (hbalanced.concat hsame)⟩
  cases hy with
  | skip hskip =>
    refine hkeep hf rfl fun _ hlast => ?_
    obtain ⟨a, -, ha, -, -⟩ := h.exact.label_of_isLast hlast
    rcases hskip with hun | hnone
    · exact absurd hlast.1 hun
    · rw [show r.cost (Edge.src e) = some a from ha] at hnone
      cases hnone
  | stay he ha hold hlt =>
    refine hkeep hf rfl fun _ hlast => ?_
    obtain ⟨a', b, ha', hb, hle⟩ := h.exact.label_of_isLast hlast
    obtain rfl := Option.some.inj (ha.symm.trans ha')
    obtain rfl := Option.some.inj (hold.symm.trans hb)
    exact absurd hlt (not_lt.mpr hle)
  | tie he ha heq =>
    have hcost := cost_tie (e := e) heq
    have hnew := h.exact.isBalancedAt_concat he ha heq (congrFun hcost _)
    rcases mem_of_mem_tie hf with hf | ⟨rfl, rfl⟩
    · exact hkeep hf (congrFun hcost _) fun _ _ => hnew
    · exact ⟨rfl, Or.inr hnew⟩
  | lower he ha hlt =>
    have hf' := hf
    unfold afterRelaxing at hf'
    rw [if_pos rfl, parentEdges_removeVertex] at hf'
    split_ifs at hf' with hv
    · cases hf'
    · rw [parentEdges_updateVertex_ne hv] at hf'
      have hdst := (h.parents v f hf').1
      refine hkeep hf' ?_ fun hfe _ => absurd (hfe ▸ hdst.symm) hv
      exact (cost_updateVertex _ _ _ _ _).trans (if_neg (hdst ▸ hv))

omit [IsOrderedAddMonoid M] in
theorem Removing.complete_step (h : Removing graph weigher S T (e :: rest) r)
    (hmax : r.maxPaths = ALL_PATHS) {y : DefaultResult V E M × Bool}
    (hy : Relaxes graph weigher r e y)
    (hf : IsBalancedAt (viable graph weigher) r.src weigher.getInitialWeight S (T ++ [e])
      y.1.cost f) : f ∈ (afterRelaxing e y).parentEdges (Edge.dst f) := by
  rcases h.exact.isBalancedAt_cases (fun old hold => hy.le hold) hf with
    ⟨hbalanced, hsame⟩ | ⟨rfl, husable, a', ha', hb'⟩
  · have hold := h.complete hmax f hbalanced
    cases hy with
    | skip _ => exact hold
    | stay _ _ _ _ => exact hold
    | tie _ _ _ => exact mem_parentEdges_tie hold
    | @lower a _ _ hlt =>
      have hv : Edge.dst f ≠ Edge.dst e := by
        intro hv
        have hcost : (r.updateVertex (Edge.dst e) (some e) (a + weigher.hopCost e) true).cost
            (Edge.dst f) = r.cost (Edge.dst f) := hsame
        rw [cost_updateVertex, if_pos hv, hv] at hcost
        exact absurd (hlt _ hcost.symm) (lt_irrefl _)
      unfold afterRelaxing
      rw [if_pos rfl, parentEdges_removeVertex, if_neg hv, parentEdges_updateVertex_ne hv]
      exact hold
  · have ha'' : r.cost (Edge.src f) = some a' := ha'
    have hb'' : r.cost (Edge.dst f) = some (a' + weigher.hopCost f) := hb'
    cases hy with
    | skip hskip =>
      rcases hskip with hun | hnone
      · exact absurd husable hun
      · rw [hnone] at ha''
        cases ha''
    | stay _ ha hold hlt =>
      obtain rfl := Option.some.inj (ha.symm.trans ha'')
      obtain rfl := Option.some.inj (hold.symm.trans hb'')
      exact absurd hlt (lt_irrefl _)
    | tie _ _ _ =>
      unfold afterRelaxing
      rw [if_neg (by simp), parentEdges_tie, hmax, if_pos (withinLimit_all _)]
      exact List.mem_insert_self
    | lower _ ha hlt =>
      obtain rfl := Option.some.inj (ha.symm.trans ha'')
      exact absurd (hlt _ hb'') (lt_irrefl _)

theorem Removing.step (h : Removing graph weigher S T (e :: rest) r) (he : e ∈ graph.getEdges) :
    Removing graph weigher S (T ++ [e]) rest (afterRelaxing e (relaxFrom weigher r e)) ∧
      SameSearch r (afterRelaxing e (relaxFrom weigher r e)) := by
  have hy := relaxes_relaxFrom graph weigher r he
  generalize relaxFrom weigher r e = y at hy
  have hsame := hy.sameSearch.trans (sameSearch_afterRelaxing e y)
  have hexact := hy.exact h.exact
  rw [hy.sameSearch.src, List.append_assoc] at hexact
  refine ⟨⟨?_, ?_, ?_⟩, hsame⟩
  · rw [cost_afterRelaxing, hsame.src]
    exact hexact
  · intro v f hf
    rw [cost_afterRelaxing, hsame.src]
    exact h.parents_step hy v hf
  · intro hmax f hf
    rw [cost_afterRelaxing, hsame.src] at hf
    exact h.complete_step (hsame.maxPaths.symm.trans hmax) hy hf

theorem Removing.run (h : Removing graph weigher S T rest r)
    (hrest : ∀ e ∈ rest, e ∈ graph.getEdges) :
    Removing graph weigher S (T ++ rest) [] (removeRelaxed weigher rest r) ∧
      SameSearch r (removeRelaxed weigher rest r) := by
  induction rest generalizing T r with
  | nil => exact ⟨(List.append_nil T).symm ▸ h, SameSearch.refl r⟩
  | cons e rest ih =>
    obtain ⟨hstep, hsame⟩ := h.step (hrest e List.mem_cons_self)
    obtain ⟨hrun, hsame'⟩ := ih hstep fun f hf => hrest f (List.mem_cons_of_mem e hf)
    rw [List.append_cons]
    exact ⟨hrun, hsame.trans hsame'⟩

omit [DecidableEq E] [IsOrderedAddMonoid M] in
theorem Explained.removing (h : Explained graph weigher S r) :
    Removing graph weigher S [] graph.getEdges r := by
  refine ⟨(List.append_nil S).symm ▸ h.exact, fun v f hf => ?_, ?_⟩
  · obtain ⟨hv, hlast⟩ := h.sound v f hf
    refine ⟨hv, Or.inl ⟨hlast.1.1, ?_⟩⟩
    rwa [List.append_nil]
  · rintro - f ⟨-, T₁, T₂, -, heq, -⟩
    exact absurd heq.symm (List.append_ne_nil_of_right_ne_nil T₁ (List.cons_ne_nil f T₂))

end Removing

section Balancing

def KeepsBalance (graph : DirectedGraph V E) (weigher : EdgeWeigher E M) (src : V) (e : E) : Prop :=
  IsBalanced (viable graph weigher) src weigher.getInitialWeight
    (List.replicate (graph.getVertexes.length - 1) graph.getEdges).flatten graph.getEdges e

variable [IsOrderedAddMonoid M] {src : V} {dst : Option V} {maxPaths : ℤ}

variable (graph weigher src dst maxPaths) in
theorem removing_labels :
    Removing graph weigher (List.replicate (graph.getVertexes.length - 1) graph.getEdges).flatten
      graph.getEdges [] (labels graph src dst weigher maxPaths) ∧
    SameSearch (startResult src dst weigher maxPaths : DefaultResult V E M)
      (labels graph src dst weigher maxPaths) := by
  obtain ⟨hrounds, hsame⟩ := explained_rounds graph weigher src dst maxPaths
    (graph.getVertexes.length - 1)
  obtain ⟨hlabels, hsame'⟩ := (Explained.removing hrounds).run fun _ he => he
  exact ⟨hlabels, hsame.trans hsame'⟩

theorem keepsBalance_of_mem {v : V}
    (hf : f ∈ (labels graph src dst weigher maxPaths).parentEdges v) :
    Edge.dst f = v ∧ KeepsBalance graph weigher src f := by
  obtain ⟨h, hsame⟩ := removing_labels graph weigher src dst maxPaths
  have hs : (labels graph src dst weigher maxPaths).src = src := hsame.src
  obtain ⟨hv, ⟨hmem, -⟩ | hbalanced⟩ := h.parents v f hf
  · cases hmem
  · rw [hs] at hbalanced
    have hexact := h.exact
    rw [hs] at hexact
    exact ⟨hv, hexact.isBalancedAt_iff.mp hbalanced⟩

theorem cost_of_keepsBalance (dst : Option V) (maxPaths : ℤ)
    (hf : KeepsBalance graph weigher src f) :
    ∃ c, (labels graph src dst weigher maxPaths).cost (Edge.dst f) = some c := by
  obtain ⟨h, hsame⟩ := removing_labels graph weigher src dst maxPaths
  have hexact := h.exact
  rw [show (labels graph src dst weigher maxPaths).src = src from hsame.src] at hexact
  obtain ⟨-, -, -, a, -, -, -, hlabel⟩ := hexact.isBalancedAt_iff.mpr hf
  exact ⟨_, hlabel⟩

theorem mem_of_keepsBalance (hf : KeepsBalance graph weigher src f) :
    f ∈ (labels graph src dst weigher ALL_PATHS).parentEdges (Edge.dst f) := by
  obtain ⟨h, hsame⟩ := removing_labels graph weigher src dst ALL_PATHS
  have hs : (labels graph src dst weigher ALL_PATHS).src = src := hsame.src
  have hexact := h.exact
  rw [hs] at hexact
  refine h.complete hsame.maxPaths f ?_
  rw [hs]
  exact hexact.isBalancedAt_iff.mpr hf

end Balancing

section Orders

variable [DecidableEq M]

/-- The passes of `buildAllPaths` when the pending paths, a set, may come in any order. -/
inductive Builds (parents : V → List E) (src dst : V) (cost : M) (maxPaths : ℤ) :
    List (List E) → List (Path E M) → List (Path E M) → Prop where
  | stop {pending : List (List E)} {paths : List (Path E M)}
      (h : ¬(pending ≠ [] ∧ DefaultResult.withinLimit maxPaths paths.length)) :
      Builds parents src dst cost maxPaths pending paths paths
  | pass {pending order : List (List E)} {paths result : List (Path E M)}
      (horder : order.Perm pending)
      (h : pending ≠ [] ∧ DefaultResult.withinLimit maxPaths paths.length)
      (hrest : Builds parents src dst cost maxPaths (scanPending parents src dst order).2
        ((scanPending parents src dst order).1.map (fun edges => ⟨edges, cost⟩) ∪ paths) result) :
      Builds parents src dst cost maxPaths pending paths result

variable {parents : V → List E} {s t : V} {cost : M} {maxPaths : ℤ} {pending : List (List E)}
  {paths result : List (Path E M)}

section

omit [AddCommGroup M] [LinearOrder M]

section

variable (h : Builds parents s t cost maxPaths pending paths result)

include h

theorem Builds.sound {k : ℕ}
    (hpending : ArePending parents s t k pending) {P : Path E M} (hP : P ∈ result) :
    P ∈ paths ∨ Backward parents s t P.edges ∧ firstVertex P.edges t = s := by
  induction h generalizing k with
  | stop _ => exact Or.inl hP
  | pass horder _ _ ih =>
    rcases ih (hpending.scan horder) hP with hP | hP
    · rcases List.mem_union_iff.mp hP with hP | hP
      · obtain ⟨q, hq, rfl⟩ := List.mem_map.mp hP
        obtain ⟨hq, hfirst⟩ := (of_mem_scanPending q).1 hq
        exact Or.inr ⟨(hpending q (horder.mem_iff.mp hq)).1, hfirst⟩
      · exact Or.inl hP
    · exact Or.inr hP

theorem Builds.subset : ∀ P ∈ paths, P ∈ result := by
  induction h with
  | stop _ => exact fun P hP => hP
  | pass _ _ _ ih => exact fun P hP => ih P (List.mem_union_iff.mpr (Or.inr hP))

end

theorem builds_buildRounds {all : List E} (hparents : ∀ v, ∀ e ∈ parents v, Edge.dst e = v)
    (hall : ∀ v, ∀ e ∈ parents v, e ∈ all) (fuel : ℕ) {k : ℕ}
    (hpending : ArePending parents s t k pending) (hfuel : all.length < k + fuel) :
    Builds parents s t cost maxPaths pending paths
      (buildRounds parents s t cost maxPaths fuel pending paths) := by
  induction fuel generalizing k pending paths with
  | zero =>
    refine Builds.stop fun hcont => ?_
    obtain ⟨p, rest, hp⟩ := List.exists_cons_of_ne_nil hcont.1
    obtain ⟨hback, hlen⟩ := hpending p (hp ▸ List.mem_cons_self)
    have := length_le_of_backward hparents hall hback
    omega
  | succ fuel ih =>
    rw [buildRounds]
    split
    case isTrue hcont =>
      exact Builds.pass (List.Perm.refl _) hcont
        (ih (hpending.scan (List.Perm.refl _)) (by omega))
    case isFalse hstop => exact Builds.stop hstop

end

omit [DecidableEq E] [DecidableEq M] [AddCommGroup M] [LinearOrder M] in
theorem Backward.of_append {l q : List E} (h : Backward parents s t (l ++ q)) :
    Backward parents s t q := by
  induction l with
  | nil => exact h
  | cons e l ih =>
    cases h with
    | cons hp _ _ _ => exact ih hp

omit [AddCommGroup M] [LinearOrder M] in
theorem exists_builds {all : List E} (hparents : ∀ v, ∀ e ∈ parents v, Edge.dst e = v)
    (hall : ∀ v, ∀ e ∈ parents v, e ∈ all) {l q : List E} (hp : Backward parents s t (l ++ q))
    (hfirst : firstVertex (l ++ q) t = s) (hpending : ArePending parents s t q.length pending)
    (hq : q ∈ pending) :
    ∃ result, Builds parents s t cost ALL_PATHS pending paths result ∧ ⟨l ++ q, cost⟩ ∈ result := by
  have horder : (q :: pending.erase q).Perm pending := (List.perm_cons_erase hq).symm
  have hcont : pending ≠ [] ∧ DefaultResult.withinLimit ALL_PATHS paths.length :=
    ⟨List.ne_nil_of_mem hq, withinLimit_all _⟩
  induction l using List.reverseRecOn generalizing q pending paths with
  | nil =>
    refine ⟨_, Builds.pass horder hcont (builds_buildRounds hparents hall (all.length + 1)
      (hpending.scan horder) (by omega)), ?_⟩
    refine (builds_buildRounds hparents hall (all.length + 1) (hpending.scan horder)
      (by omega)).subset _ (List.mem_union_iff.mpr (Or.inl (List.mem_map_of_mem ?_)))
    rw [List.nil_append] at hfirst ⊢
    rw [scanPending, if_pos hfirst]
    exact List.mem_cons_self
  | append_singleton l e ih =>
    rw [List.append_assoc, List.singleton_append] at hp hfirst
    have hmem : e :: q ∈ (scanPending parents s t (q :: pending.erase q)).2 := by
      cases Backward.of_append hp with
      | cons _ hne he hin =>
        obtain ⟨edge, edges, hedges⟩ := List.exists_cons_of_ne_nil (List.ne_nil_of_mem he)
        rw [scanPending, if_neg hne, hedges]
        rw [hedges] at he
        refine List.mem_append_left _ (List.mem_map.mpr ⟨e, List.mem_filter.mpr ⟨he, ?_⟩, rfl⟩)
        rw [hin]
        rfl
    have hnext := hpending.scan horder
    obtain ⟨result, hresult, hfound⟩ : ∃ result, Builds parents s t cost ALL_PATHS
        (scanPending parents s t (q :: pending.erase q)).2
        ((scanPending parents s t (q :: pending.erase q)).1.map (fun edges => ⟨edges, cost⟩) ∪
          paths) result ∧ ⟨l ++ e :: q, cost⟩ ∈ result :=
      ih hp hfirst hnext hmem (List.perm_cons_erase hmem).symm
        ⟨List.ne_nil_of_mem hmem, withinLimit_all _⟩
    refine ⟨result, Builds.pass horder hcont hresult, ?_⟩
    rwa [List.append_assoc, List.singleton_append]

end Orders

section Results

variable {src dst : V} {maxPaths : ℤ} {paths : List (Path E M)}

/-- What a search for a destination may return, the pending paths coming in any order. -/
inductive Returns (graph : DirectedGraph V E) (weigher : EdgeWeigher E M) (src dst : V)
    (maxPaths : ℤ) : List (Path E M) → Prop where
  | source (h : dst = src) : Returns graph weigher src dst maxPaths []
  | unreached (hne : dst ≠ src)
      (h : (labels graph src (some dst) weigher maxPaths).cost dst = none) :
      Returns graph weigher src dst maxPaths []
  | built {cost : M} {paths : List (Path E M)} (hne : dst ≠ src)
      (h : (labels graph src (some dst) weigher maxPaths).cost dst = some cost)
      (hbuilds : Builds (labels graph src (some dst) weigher maxPaths).parentEdges src dst cost
        maxPaths [[]] [] paths) : Returns graph weigher src dst maxPaths paths

variable [IsOrderedAddMonoid M]

variable (weigher maxPaths) in
theorem returns_internalSearch (graph : DirectedGraph V E) (src dst : V) :
    Returns graph weigher src dst maxPaths
      (internalSearch graph src (some dst) weigher maxPaths).paths := by
  obtain ⟨-, hsame⟩ := removing_labels graph weigher src (some dst) maxPaths
  by_cases hne : dst = src
  · subst hne
    rw [paths_internalSearch_source hsame]
    exact Returns.source rfl
  · rw [internalSearch_eq (Ne.symm hne) hsame]
    cases ht : (labels graph src (some dst) weigher maxPaths).cost dst with
    | none =>
      simp only [buildAllPaths, ht]
      have hpaths : (labels graph src (some dst) weigher maxPaths).paths = [] := hsame.paths
      rw [hpaths]
      exact Returns.unreached hne ht
    | some cost =>
      simp only [buildAllPaths, ht]
      have hpaths : (labels graph src (some dst) weigher maxPaths).paths = [] := hsame.paths
      rw [hpaths]
      refine Returns.built hne ht (builds_buildRounds (fun v f hf => (keepsBalance_of_mem hf).1)
        (fun v f hf => mem_flatMap_of_mem_parentEdges hf) _ arePending_nil (by omega))

/-- A search finds no path to a destination, whatever its limit and the order of its pending paths,
exactly when every path has an edge that does not keep the balance of its ends in the extra
round. -/
theorem returns_nothing_iff (graph : DirectedGraph V E) (weigher : EdgeWeigher E M) (src dst : V) :
    (∀ maxPaths paths, Returns graph weigher src dst maxPaths paths → paths = []) ↔
      ∀ p, IsPath Edge.src Edge.dst src p dst → p ≠ [] →
        ∃ e ∈ p, ¬KeepsBalance graph weigher src e := by
  constructor
  · intro hnone p hp hnil
    by_contra hall
    push Not at hall
    have hne : dst ≠ src := by
      rintro rfl
      exact hnil hp.eq_nil
    obtain ⟨c, hc⟩ : ∃ c, (labels graph src (some dst) weigher ALL_PATHS).cost dst = some c := by
      rcases List.eq_nil_or_concat p with rfl | ⟨q, e, rfl⟩
      · exact absurd rfl hnil
      · rw [List.concat_eq_append] at hp hall
        obtain ⟨-, rfl⟩ := isWalk_concat.mp hp.walk
        exact cost_of_keepsBalance _ _ (hall e (List.mem_append_right q List.mem_cons_self))
    have hback : Backward (labels graph src (some dst) weigher ALL_PATHS).parentEdges src dst p :=
      backward_of_path hp (fun e he => mem_of_keepsBalance (hall e he)) (Or.inl rfl)
    have hfirst := firstVertex_eq hp.walk
    rw [← List.append_nil p] at hback hfirst
    have hparents : ∀ v, ∀ f ∈ (labels graph src (some dst) weigher ALL_PATHS).parentEdges v,
      Edge.dst f = v := fun v f hf => (keepsBalance_of_mem hf).1
    obtain ⟨result, hbuilds, hmem⟩ : ∃ result,
        Builds (labels graph src (some dst) weigher ALL_PATHS).parentEdges src dst c ALL_PATHS [[]] []
          result ∧ ⟨p ++ [], c⟩ ∈ result :=
      exists_builds hparents (fun v f hf => mem_flatMap_of_mem_parentEdges hf) hback hfirst
        arePending_nil List.mem_cons_self
    rw [hnone _ _ (Returns.built hne hc hbuilds)] at hmem
    exact List.not_mem_nil hmem
  · intro hcond maxPaths paths hreturns
    cases hreturns with
    | source _ => rfl
    | unreached _ _ => rfl
    | built hne h hbuilds =>
      by_contra hnil
      obtain ⟨P, hP⟩ := List.exists_mem_of_ne_nil _ hnil
      obtain ⟨hback, hfirst⟩ := (hbuilds.sound arePending_nil hP).resolve_left List.not_mem_nil
      have hparents : ∀ v, ∀ f ∈ (labels graph src (some dst) weigher maxPaths).parentEdges v,
        Edge.dst f = v := fun v f hf => (keepsBalance_of_mem hf).1
      have hwalk := hback.walk hparents
      rw [hfirst] at hwalk
      obtain ⟨q, hq, hsub⟩ := hwalk.exists_path
      have hqnil : q ≠ [] := by
        rintro rfl
        exact hne hq.walk.symm
      obtain ⟨e, he, hnot⟩ := hcond q hq hqnil
      exact hnot (keepsBalance_of_mem (hback.mem_parents hparents (hsub.subset he)).1).2

/-- The destination is reachable through a vertex on a cycle that lowers the cost. -/
def IsUnbounded (graph : DirectedGraph V E) (weigher : EdgeWeigher E M) (src dst : V) : Prop :=
  ∃ v p c q, IsRoute (viable graph weigher) src p v ∧ IsRoute (viable graph weigher) v c v ∧
    DirectedWalk.cost weigher.hopCost c < 0 ∧ IsRoute (viable graph weigher) v q dst

/-- A cycle between 1 and 2 that leads to 3, and a cheap edge that goes to 3 directly. -/
def shortcut : DirectedGraph ℕ TestEdge := adjacencyListsGraph [0, 1, 2, 3]
  [⟨0, 1, 1⟩, ⟨1, 2, -2⟩, ⟨2, 1, 1⟩, ⟨2, 3, 1⟩, ⟨0, 3, -1000⟩]

theorem isUnbounded_shortcut : IsUnbounded shortcut testWeigher 0 3 := by
  refine ⟨1, [⟨0, 1, 1⟩], [⟨1, 2, -2⟩, ⟨2, 1, 1⟩], [⟨1, 2, -2⟩, ⟨2, 3, 1⟩], ⟨?_, ?_⟩, ⟨?_, ?_⟩, ?_,
    ⟨?_, ?_⟩⟩
  · exact ⟨rfl, rfl⟩
  · intro e he
    have hall : ∀ e ∈ ([⟨0, 1, 1⟩] : List TestEdge), e ∈ shortcut.getEdges := by decide
    exact ⟨hall e he, rfl⟩
  · exact ⟨rfl, rfl, rfl⟩
  · intro e he
    have hall : ∀ e ∈ ([⟨1, 2, -2⟩, ⟨2, 1, 1⟩] : List TestEdge), e ∈ shortcut.getEdges := by decide
    exact ⟨hall e he, rfl⟩
  · decide
  · exact ⟨rfl, rfl, rfl⟩
  · intro e he
    have hall : ∀ e ∈ ([⟨1, 2, -2⟩, ⟨2, 3, 1⟩] : List TestEdge), e ∈ shortcut.getEdges := by decide
    exact ⟨hall e he, rfl⟩

theorem paths_shortcut : (internalSearch shortcut 0 (some 3) testWeigher ALL_PATHS).paths =
    [⟨[⟨0, 3, -1000⟩], -1000⟩] := by decide

/-- The cheap edge keeps the balance of its ends in the extra round. -/
theorem shortcut_keepsBalance : ¬∀ p, IsPath Edge.src Edge.dst 0 p 3 → p ≠ [] →
    ∃ e ∈ p, ¬KeepsBalance shortcut testWeigher 0 e := by
  intro hbreaks
  have hnil := (returns_nothing_iff shortcut testWeigher 0 3).mpr hbreaks ALL_PATHS _
    (returns_internalSearch testWeigher ALL_PATHS shortcut 0 3)
  rw [paths_shortcut] at hnil
  exact absurd hnil (List.cons_ne_nil _ _)

theorem shortcut_found : ¬∀ (graph : DirectedGraph ℕ TestEdge) (src dst : ℕ)
    (result : DefaultResult ℕ TestEdge ℤ), IsUnbounded graph testWeigher src dst →
      search graph src (some dst) testWeigher ALL_PATHS = .ok result → result.paths = [] := by
  intro hnone
  have hsearch : search shortcut 0 (some 3) testWeigher ALL_PATHS =
      .ok (internalSearch shortcut 0 (some 3) testWeigher ALL_PATHS) :=
    search_eq _ (by decide) (by decide)
  have hnil := hnone _ _ _ _ isUnbounded_shortcut hsearch
  rw [paths_shortcut] at hnil
  exact absurd hnil (List.cons_ne_nil _ _)

example : (internalSearch (adjacencyListsGraph [0, 1, 2, 3]
    [⟨0, 1, 1⟩, ⟨1, 2, -2⟩, ⟨2, 1, 1⟩, ⟨2, 3, 1⟩] : DirectedGraph ℕ TestEdge) 0 (some 3) testWeigher
      ALL_PATHS).paths = [] := by decide

end Results

end NegativeCycles

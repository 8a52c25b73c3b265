import Onos.GraphPathSearch
import Onos.Heap
import Mathlib.Algebra.Order.Group.Int

/-! Dijkstra's search for the shortest paths. The queue of the vertexes is put in order anew
whenever the costs have changed. -/
namespace DijkstraGraphSearch

open KeyedMap DirectedWalk ShortestPaths GraphPathSearch

universe u v

variable {V : Type u} {E : Type v} {M : Type*} [DecidableEq V] [DecidableEq E] [Edge V E]
variable [AddCommGroup M] [LinearOrder M]

/-- `PathCostComparator.compare(v1, v2) < 0`: the first vertex comes after the second. -/
def farther (result : DefaultResult V E M) (v1 v2 : V) : Bool :=
  match result.cost v1, result.cost v2 with
  | none, none => false
  | none, some _ => true
  | some _, none => false
  | some cost1, some cost2 => compare cost2 cost1 = .lt

def relaxAll (weigher : EdgeWeigher E M) (cost : M) (edges : List E)
    (result : DefaultResult V E M) : DefaultResult V E M :=
  edges.foldl (fun r e => (r.relaxEdge e cost weigher true).1) result

def searchLoop (graph : DirectedGraph V E) (dst : Option V) (weigher : EdgeWeigher E M) :
    ℕ → DefaultResult V E M → List V → DefaultResult V E M
  | 0, result, _ => result
  | fuel + 1, result, minQueue =>
    match Heap.extractExtreme (farther result) minQueue with
    | none => result
    | some (nearest, rest) =>
      if some nearest = dst then result
      else
        let relaxed := match result.cost nearest with
          | some cost => relaxAll weigher cost (graph.getEdgesFrom nearest) result
          | none => result
        searchLoop graph dst weigher fuel relaxed (Heap.heapify (farther relaxed) rest)

def startResult (src : V) (dst : Option V) (weigher : EdgeWeigher E M) (maxPaths : ℤ) :
    DefaultResult V E M :=
  (defaultResult src dst maxPaths).updateVertex src none weigher.getInitialWeight false

def labels (graph : DirectedGraph V E) (src : V) (dst : Option V) (weigher : EdgeWeigher E M)
    (maxPaths : ℤ) : DefaultResult V E M :=
  let result := startResult src dst weigher maxPaths
  if graph.getEdges.isEmpty then result
  else
    let minQueue := Heap.heapify (farther result) graph.getVertexes
    searchLoop graph dst weigher graph.getVertexes.length result minQueue

def internalSearch (graph : DirectedGraph V E) (src : V) (dst : Option V)
    (weigher : EdgeWeigher E M) (maxPaths : ℤ) : DefaultResult V E M :=
  buildPaths (labels graph src dst weigher maxPaths)

def search (graph : DirectedGraph V E) (src : V) (dst : Option V) (weigher : EdgeWeigher E M)
    (maxPaths : ℤ) : Except String (DefaultResult V E M) :=
  (checkArguments graph src dst).map fun _ => internalSearch graph src dst weigher maxPaths

section Queue

omit [DecidableEq E] [Edge V E]

theorem farther_iff {result : DefaultResult V E M} {v1 v2 : V} : farther result v1 v2 = false ↔
      ∀ b, result.cost v2 = some b → ∃ a, result.cost v1 = some a ∧ a ≤ b := by
  unfold farther
  cases result.cost v1 <;> cases result.cost v2 <;> simp [compare_lt_iff_lt]

theorem farther_isOrder (result : DefaultResult V E M) : Heap.IsOrder (farther result) where
  asymm v1 v2 h := by
    rw [farther_iff]
    intro b hb
    unfold farther at h
    rw [hb] at h
    cases ha : result.cost v2 with
    | none => simp [ha] at h
    | some a =>
      rw [ha] at h
      exact ⟨a, rfl, (compare_lt_iff_lt.mp (of_decide_eq_true h)).le⟩
  trans v1 v2 v3 h12 h23 := by
    rw [farther_iff] at h12 h23 ⊢
    intro c hc
    obtain ⟨b, hb, hbc⟩ := h23 c hc
    obtain ⟨a, ha, hab⟩ := h12 b hb
    exact ⟨a, ha, hab.trans hbc⟩

end Queue

section Relaxing

variable [IsOrderedAddMonoid M]
variable (graph : DirectedGraph V E) (weigher : EdgeWeigher E M)

structure Labelled (r : DefaultResult V E M) (done : E → Prop) : Prop where
  limit : r.maxPaths = ALL_PATHS ∨ 1 ≤ r.maxPaths
  source : r.cost r.src = some weigher.getInitialWeight
  realised : Realised (network graph weigher) r.src weigher.getInitialWeight r.cost
  relaxed : ∀ e a, done e → weigher.IsUsable e → r.cost (Edge.src e) = some a →
    ∃ b, r.cost (Edge.dst e) = some b ∧ b ≤ a + weigher.hopCost e
  parents : ∀ v, ∀ e ∈ r.parentEdges v, Edge.dst e = v ∧ done e ∧ weigher.IsUsable e ∧
    Tight (network graph weigher) r.cost e
  all : r.maxPaths = ALL_PATHS → ∀ e, done e → weigher.IsUsable e →
    Tight (network graph weigher) r.cost e → e ∈ r.parentEdges (Edge.dst e)
  nonempty : ∀ v a, r.cost v = some a → v ≠ r.src → r.parentEdges v ≠ []

structure Kept (a : M) (r r' : DefaultResult V E M) : Prop where
  src : r'.src = r.src
  dst : r'.dst = r.dst
  maxPaths : r'.maxPaths = r.maxPaths
  paths : r'.paths = r.paths
  nearer : ∀ v b, r.cost v = some b → b ≤ a → r'.cost v = some b
  beyond : ∀ v b, r'.cost v = some b → r.cost v = some b ∨ a ≤ b
  parents : ∀ v b, r.cost v = some b → b ≤ a → ∀ e ∈ r.parentEdges v, e ∈ r'.parentEdges v

variable {graph weigher} {r : DefaultResult V E M} {done : E → Prop} {e : E} {a : M}

section

omit [DecidableEq E] [Edge V E] [AddCommGroup M] [IsOrderedAddMonoid M]

theorem Kept.refl (r : DefaultResult V E M) : Kept a r r :=
  ⟨rfl, rfl, rfl, rfl, fun _ _ h _ => h, fun _ _ h => .inl h, fun _ _ _ _ _ h => h⟩

theorem Kept.trans {r' r'' : DefaultResult V E M} (h : Kept a r r') (h' : Kept a r' r'') :
    Kept a r r'' where
  src := h'.src.trans h.src
  dst := h'.dst.trans h.dst
  maxPaths := h'.maxPaths.trans h.maxPaths
  paths := h'.paths.trans h.paths
  nearer v b hb hle := h'.nearer v b (h.nearer v b hb hle) hle
  beyond v b hb := (h'.beyond v b hb).elim (h.beyond v b) .inr
  parents v b hb hle e he := h'.parents v b (h.nearer v b hb hle) hle e (h.parents v b hb hle e he)

end

section

omit [Edge V E] [AddCommGroup M] [IsOrderedAddMonoid M]

theorem kept_of_tie {v : V} {c : M} (hcost : r.cost v = some c) :
    Kept a r (r.updateVertex v (some e) c false) where
  src := rfl
  dst := rfl
  maxPaths := rfl
  paths := rfl
  nearer x b hb _ := by
    rw [cost_updateVertex]
    split_ifs with hx
    · rw [← hcost, ← hx, hb]
    · exact hb
  beyond x b hb := by
    rw [cost_updateVertex] at hb
    split_ifs at hb with hx
    · exact .inl (by rw [hx, hcost, hb])
    · exact .inl hb
  parents x b _ _ f hf := mem_parentEdges_tie hf

theorem kept_of_lower {v : V} {c : M} (hlower : ∀ old, r.cost v = some old → c < old)
    (hle : a ≤ c) : Kept a r (r.updateVertex v (some e) c true) where
  src := rfl
  dst := rfl
  maxPaths := rfl
  paths := rfl
  nearer x b hb hba := by
    rw [cost_updateVertex]
    split_ifs with hx
    · exact absurd (hle.trans_lt (hlower b (hx ▸ hb))) (not_lt.mpr hba)
    · exact hb
  beyond x b hb := by
    rw [cost_updateVertex] at hb
    split_ifs at hb with hx
    · exact .inr (Option.some.inj hb ▸ hle)
    · exact .inl hb
  parents x b hb hba f hf := by
    by_cases hx : x = v
    · exact absurd (hle.trans_lt (hlower b (hx ▸ hb))) (not_lt.mpr hba)
    · rwa [parentEdges_updateVertex_ne hx]

end

theorem kept_relaxEdge (r : DefaultResult V E M) (e : E) (a : M) (weigher : EdgeWeigher E M) :
    Kept a r (r.relaxEdge e a weigher true).1 := by
  rcases relaxEdge_cases r e a weigher with h | h | ⟨-, heq, hr⟩ | ⟨husable, hlt, hr⟩
  · rw [h.2]
    exact Kept.refl r
  · rw [h.2.2]
    exact Kept.refl r
  · rw [hr]
    exact kept_of_tie heq
  · rw [hr]
    exact kept_of_lower hlt (le_add_of_nonneg_right (hopCost_nonneg husable))

omit [DecidableEq E] [IsOrderedAddMonoid M] in
theorem Labelled.add (h : Labelled graph weigher r done)
    (hrelaxed : ∀ a, weigher.IsUsable e → r.cost (Edge.src e) = some a →
      ∃ b, r.cost (Edge.dst e) = some b ∧ b ≤ a + weigher.hopCost e)
    (hall : weigher.IsUsable e → Tight (network graph weigher) r.cost e →
      e ∈ r.parentEdges (Edge.dst e)) :
    Labelled graph weigher r fun f => done f ∨ f = e where
  limit := h.limit
  source := h.source
  realised := h.realised
  relaxed f b hf husable hb := by
    rcases hf with hf | rfl
    · exact h.relaxed f b hf husable hb
    · exact hrelaxed b husable hb
  parents v f hf := by
    obtain ⟨hdst, hdone, hrest⟩ := h.parents v f hf
    exact ⟨hdst, .inl hdone, hrest⟩
  all hmax f hf husable htight := by
    rcases hf with hf | rfl
    · exact h.all hmax f hf husable htight
    · exact hall husable htight
  nonempty := h.nonempty

omit [IsOrderedAddMonoid M] in
theorem Labelled.tie (h : Labelled graph weigher r done) (husable : weigher.IsUsable e)
    (ha : r.cost (Edge.src e) = some a)
    (heq : r.cost (Edge.dst e) = some (a + weigher.hopCost e)) :
    Labelled graph weigher
      (r.updateVertex (Edge.dst e) (some e) (a + weigher.hopCost e) false)
      fun f => done f ∨ f = e := by
  have hcost : (r.updateVertex (Edge.dst e) (some e) (a + weigher.hopCost e) false).cost =
      r.cost := by
    funext x
    rw [cost_updateVertex]
    split_ifs with hx
    · rw [hx, heq]
    · rfl
  refine ⟨h.limit, ?_, ?_, ?_, ?_, ?_, ?_⟩
  · rw [hcost]
    exact h.source
  · rw [hcost]
    exact h.realised
  · rw [hcost]
    rintro f b (hf | rfl) hu hb
    · exact h.relaxed f b hf hu hb
    · obtain rfl : a = b := Option.some.inj (ha.symm.trans hb)
      exact ⟨_, heq, le_rfl⟩
  · rw [hcost]
    intro v f hf
    rcases mem_of_mem_tie hf with hf | ⟨rfl, rfl⟩
    · obtain ⟨hdst, hdone, hrest⟩ := h.parents v f hf
      exact ⟨hdst, .inl hdone, hrest⟩
    · exact ⟨rfl, .inr rfl, husable, a, ha, heq⟩
  · rw [hcost]
    rintro hmax f (hf | rfl) hu htight
    · exact mem_parentEdges_tie (h.all hmax f hf hu htight)
    · have hwithin : ∀ n, DefaultResult.withinLimit r.maxPaths n = true := fun n =>
        decide_eq_true (.inl hmax)
      rw [parentEdges_tie, if_pos (hwithin _)]
      exact List.mem_insert_self
  · rw [hcost]
    intro v b hb hv hnil
    obtain ⟨f, hf⟩ := List.exists_mem_of_ne_nil _ (h.nonempty v b hb hv)
    have hf' := mem_parentEdges_tie (v := Edge.dst e) (e := e) (c := a + weigher.hopCost e) hf
    rw [hnil] at hf'
    cases hf'

/-- A lower cost for the end of an edge; `hdone` says that it is no source of an edge relaxed
before. -/
theorem Labelled.lower (h : Labelled graph weigher r done) (he : e ∈ graph.getEdges)
    (husable : weigher.IsUsable e) (ha : r.cost (Edge.src e) = some a)
    (hlower : ∀ old, r.cost (Edge.dst e) = some old → a + weigher.hopCost e < old)
    (hdone : ∀ f, done f → ∃ b, r.cost (Edge.src f) = some b ∧ b ≤ a) :
    Labelled graph weigher
      (r.updateVertex (Edge.dst e) (some e) (a + weigher.hopCost e) true)
      fun f => done f ∨ f = e := by
  have hge : a ≤ a + weigher.hopCost e := le_add_of_nonneg_right (hopCost_nonneg husable)
  have hfar : ∀ v b, r.cost v = some b → b ≤ a → v ≠ Edge.dst e := by
    rintro v b hb hle rfl
    exact absurd ((hge.trans_lt (hlower b hb))) (not_lt.mpr hle)
  have hsrc : ∀ f, done f ∨ f = e → Edge.src f ≠ Edge.dst e := by
    rintro f (hf | rfl)
    · obtain ⟨b, hb, hle⟩ := hdone f hf
      exact hfar _ b hb hle
    · exact hfar _ a ha le_rfl
  have hwithin : DefaultResult.withinLimit r.maxPaths 0 = true := by
    apply decide_eq_true
    rcases h.limit with hmax | hmax
    · exact .inl hmax
    · exact .inr (by omega)
  have hnew : (r.updateVertex (Edge.dst e) (some e) (a + weigher.hopCost e) true).parentEdges
      (Edge.dst e) = [e] := by rw [parentEdges_replace, if_pos hwithin]
  have hcost : ∀ x, x ≠ Edge.dst e →
      (r.updateVertex (Edge.dst e) (some e) (a + weigher.hopCost e) true).cost x = r.cost x := by
    intro x hx
    rw [cost_updateVertex, if_neg hx]
  have hdst : (r.updateVertex (Edge.dst e) (some e) (a + weigher.hopCost e) true).cost
      (Edge.dst e) = some (a + weigher.hopCost e) := by rw [cost_updateVertex, if_pos rfl]
  obtain ⟨p, hp, hap⟩ := h.realised _ a ha
  refine ⟨h.limit, ?_, ?_, ?_, ?_, ?_, ?_⟩
  · have hstart : weigher.getInitialWeight ≤ a := by
      rw [hap]
      exact le_add_of_nonneg_right (cost_nonneg fun f hf => hopCost_nonneg (hp.usable f hf).2)
    exact (hcost _ (hfar _ _ h.source hstart)).trans h.source
  · intro v b hb
    by_cases hv : v = Edge.dst e
    · subst hv
      obtain rfl := Option.some.inj (hdst.symm.trans hb)
      refine ⟨p ++ [e], isRoute_append.mpr ⟨_, hp, isRoute_singleton ⟨he, husable⟩⟩, ?_⟩
      rw [cost_append, cost_cons, cost_nil, add_zero, ← add_assoc, ← hap]
      rfl
    · exact h.realised v b ((hcost v hv).symm.trans hb)
  · intro f b hf hu hb
    rw [hcost _ (hsrc f hf)] at hb
    rcases hf with hf | rfl
    · obtain ⟨c, hc, hle⟩ := h.relaxed f b hf hu hb
      by_cases hv : Edge.dst f = Edge.dst e
      · rw [hv] at hc ⊢
        exact ⟨_, hdst, (hlower c hc).le.trans hle⟩
      · exact ⟨c, (hcost _ hv).trans hc, hle⟩
    · obtain rfl := Option.some.inj (ha.symm.trans hb)
      exact ⟨_, hdst, le_rfl⟩
  · intro v f hf
    by_cases hv : v = Edge.dst e
    · subst hv
      rw [hnew, List.mem_singleton] at hf
      subst hf
      exact ⟨rfl, .inr rfl, husable, a, (hcost _ (hsrc f (.inr rfl))).trans ha, hdst⟩
    · rw [parentEdges_updateVertex_ne hv] at hf
      obtain ⟨rfl, hf, hu, b, hb, hbv⟩ := h.parents v f hf
      exact ⟨rfl, .inl hf, hu, b, (hcost _ (hsrc f (.inl hf))).trans hb, (hcost _ hv).trans hbv⟩
  · rintro hmax f hf hu ⟨b, hb, hbv⟩
    have hb' : r.cost (Edge.src f) = some b := (hcost _ (hsrc f hf)).symm.trans hb
    by_cases hv : Edge.dst f = Edge.dst e
    · rcases hf with hf | rfl
      · -- the lower cost would be that of an edge looked at before
        obtain ⟨c, hc, hle⟩ := h.relaxed f b hf hu hb'
        have hlt := hlower c (hv ▸ hc)
        have heq : a + weigher.hopCost e = b + weigher.hopCost f :=
          Option.some.inj (hdst.symm.trans (hv ▸ hbv))
        exact absurd (heq ▸ hlt) (not_lt.mpr hle)
      · rw [hnew]
        exact List.mem_singleton_self f
    · rw [parentEdges_updateVertex_ne hv]
      rcases hf with hf | rfl
      · exact h.all hmax f hf hu ⟨b, hb', (hcost _ hv).symm.trans hbv⟩
      · exact absurd rfl hv
  · intro v b hb hne
    by_cases hv : v = Edge.dst e
    · subst hv
      rw [hnew]
      exact List.cons_ne_nil e []
    · rw [parentEdges_updateVertex_ne hv]
      exact h.nonempty v b ((hcost v hv).symm.trans hb) hne

theorem Labelled.relaxEdge (h : Labelled graph weigher r done) (he : e ∈ graph.getEdges)
    (ha : r.cost (Edge.src e) = some a)
    (hdone : ∀ f, done f → ∃ b, r.cost (Edge.src f) = some b ∧ b ≤ a) :
    Labelled graph weigher (r.relaxEdge e a weigher true).1 fun f => done f ∨ f = e := by
  rcases relaxEdge_cases r e a weigher with ⟨hnot, hr⟩ | ⟨-, ⟨old, hold, hlt⟩, hr⟩ |
    ⟨husable, heq, hr⟩ | ⟨husable, hlower, hr⟩
  · rw [hr]
    exact h.add (fun b hu _ => absurd hu hnot) fun hu _ => absurd hu hnot
  · rw [hr]
    refine h.add (fun b _ hb => ?_) fun _ htight => ?_
    · obtain rfl := Option.some.inj (ha.symm.trans hb)
      exact ⟨old, hold, hlt.le⟩
    · obtain ⟨b, hb, hbv⟩ := htight
      obtain rfl := Option.some.inj (ha.symm.trans hb)
      exact absurd (Option.some.inj (hold.symm.trans hbv)) hlt.ne
  · rw [hr]
    exact h.tie husable ha heq
  · rw [hr]
    exact h.lower he husable ha hlower hdone

omit [IsOrderedAddMonoid M] [DecidableEq E] in
theorem Labelled.congr {done' : E → Prop} (h : Labelled graph weigher r done)
    (hiff : ∀ e, done e ↔ done' e) : Labelled graph weigher r done' := by
  obtain rfl : done = done' := funext fun e => propext (hiff e)
  exact h

theorem relaxAll_spec {u : V} {edges : List E} (h : Labelled graph weigher r done)
    (hedges : ∀ e ∈ edges, e ∈ graph.getEdges ∧ Edge.src e = u) (ha : r.cost u = some a)
    (hdone : ∀ f, done f → ∃ b, r.cost (Edge.src f) = some b ∧ b ≤ a) :
    Labelled graph weigher (relaxAll weigher a edges r) (fun f => done f ∨ f ∈ edges) ∧
    Kept a r (relaxAll weigher a edges r) := by
  induction edges generalizing r done with
  | nil => exact ⟨h.congr (by simp), Kept.refl r⟩
  | cons e edges ih =>
    obtain ⟨he, hsrc⟩ := hedges e List.mem_cons_self
    have hkept := kept_relaxEdge r e a weigher
    have hstep := h.relaxEdge he (hsrc ▸ ha) hdone
    have hnext := ih hstep (fun f hf => hedges f (List.mem_cons_of_mem e hf))
      (hkept.nearer u a ha le_rfl) ?_
    · refine ⟨hnext.1.congr fun f => ?_, hkept.trans hnext.2⟩
      rw [List.mem_cons, or_assoc]
    · rintro f (hf | rfl)
      · obtain ⟨b, hb, hle⟩ := hdone f hf
        exact ⟨b, hkept.nearer _ b hb hle, hle⟩
      · exact ⟨a, hkept.nearer _ a (hsrc ▸ ha) le_rfl, le_rfl⟩

end Relaxing

section Loop

variable (graph : DirectedGraph V E) (weigher : EdgeWeigher E M)

def Relaxed (r : DefaultResult V E M) (order : List V) (e : E) : Prop :=
  e ∈ graph.getEdges ∧ Edge.src e ∈ order ∧ r.cost (Edge.src e) ≠ none

/-- The invariant of the loop; `order` has the vertexes that have left the queue, the last one
first. -/
structure SearchInv (dst : Option V) (r : DefaultResult V E M) (order queue : List V) :
    Prop where
  perm : (order ++ queue).Perm graph.getVertexes
  source : r.src ∈ graph.getVertexes
  notDst : ∀ t, dst = some t → t ∉ order
  labelled : Labelled graph weigher r (Relaxed graph r order)
  nearer : ∀ u ∈ order, ∀ v ∈ queue, ∀ b, r.cost v = some b → ∃ a, r.cost u = some a ∧ a ≤ b
  heap : Heap.HeapFrom (farther r) 0 queue
  grounded : Grounded (network graph weigher) (fun v => r.cost v ≠ none)
    (fun e => e ∈ r.parentEdges (Edge.dst e)) r.src order

variable {graph weigher} {dst : Option V} {r : DefaultResult V E M} {order queue rest : List V}
  {nearest : V}

omit [DecidableEq E] in
theorem SearchInv.extract (h : SearchInv graph weigher dst r order queue) (hne : queue ≠ []) :
    ∃ nearest rest, Heap.extractExtreme (farther r) queue = some (nearest, rest) ∧
      (nearest :: rest).Perm queue ∧
      ∀ v ∈ queue, ∀ b, r.cost v = some b → ∃ a, r.cost nearest = some a ∧ a ≤ b := by
  obtain ⟨nearest, rest, hextract, hperm, hleast, -⟩ :=
    Heap.extractExtreme_spec (farther_isOrder r) h.heap hne
  exact ⟨nearest, rest, hextract, hperm.symm, fun v hv => farther_iff.mp (hleast v hv)⟩

omit [DecidableEq E] [AddCommGroup M] [Edge V E] in
theorem perm_step {r' : DefaultResult V E M} (hperm : (nearest :: rest).Perm queue) :
    (nearest :: order ++ Heap.heapify (farther r') rest).Perm (order ++ queue) := by
  have hheap : (nearest :: order ++ Heap.heapify (farther r') rest).Perm
      (nearest :: order ++ rest) :=
    (Heap.heapify_perm (farther r') rest).append_left _
  exact hheap.trans (List.perm_middle.symm.trans (hperm.append_left order))

theorem SearchInv.step_reached [IsOrderedAddMonoid M]
    (h : SearchInv graph weigher dst r order queue) (hperm : (nearest :: rest).Perm queue)
    (hleast : ∀ v ∈ queue, ∀ b, r.cost v = some b → ∃ a, r.cost nearest = some a ∧ a ≤ b)
    (hdst : some nearest ≠ dst) {a : M} (ha : r.cost nearest = some a) :
    SearchInv graph weigher dst (relaxAll weigher a (graph.getEdgesFrom nearest) r)
      (nearest :: order) (Heap.heapify
        (farther (relaxAll weigher a (graph.getEdgesFrom nearest) r)) rest) ∧
    Kept a r (relaxAll weigher a (graph.getEdgesFrom nearest) r) := by
  have hnearest : nearest ∈ queue := hperm.mem_iff.mp List.mem_cons_self
  have hrest : ∀ v ∈ rest, v ∈ queue := fun v hv =>
    hperm.mem_iff.mp (List.mem_cons_of_mem nearest hv)
  -- the vertexes taken out before are no farther
  have hbefore : ∀ u ∈ nearest :: order, ∃ c, r.cost u = some c ∧ c ≤ a := by
    intro u hu
    rcases List.mem_cons.mp hu with rfl | hu
    · exact ⟨a, ha, le_rfl⟩
    · exact h.nearer u hu nearest hnearest a ha
  have hedges : ∀ e ∈ graph.getEdgesFrom nearest, e ∈ graph.getEdges ∧ Edge.src e = nearest :=
    fun e he => (graph.mem_edgesFrom nearest e).mp he
  obtain ⟨hlabelled, hkept⟩ := relaxAll_spec h.labelled hedges ha
    fun f hf => hbefore _ (List.mem_cons_of_mem nearest hf.2.1)
  generalize hr' : relaxAll weigher a (graph.getEdgesFrom nearest) r = r' at hlabelled hkept ⊢
  have hafter : ∀ u ∈ nearest :: order, ∃ c, r'.cost u = some c ∧ c ≤ a := by
    intro u hu
    obtain ⟨c, hc, hle⟩ := hbefore u hu
    exact ⟨c, hkept.nearer u c hc hle, hle⟩
  refine ⟨⟨(perm_step hperm).trans h.perm, hkept.src ▸ h.source, ?_, ?_, ?_,
    Heap.heapify_heapFrom (farther_isOrder r') rest, ?_⟩, hkept⟩
  · rintro t rfl ht
    rcases List.mem_cons.mp ht with rfl | ht
    · exact hdst rfl
    · exact h.notDst t rfl ht
  · refine hlabelled.congr fun e => ?_
    constructor
    · rintro (⟨he, hsrc, -⟩ | he)
      · obtain ⟨c, hc, -⟩ := hafter _ (List.mem_cons_of_mem nearest hsrc)
        exact ⟨he, List.mem_cons_of_mem nearest hsrc, by simp [hc]⟩
      · obtain ⟨he, hsrc⟩ := hedges e he
        obtain ⟨c, hc, -⟩ := hafter nearest List.mem_cons_self
        exact ⟨he, hsrc ▸ List.mem_cons_self, by simp [hsrc, hc]⟩
    · rintro ⟨he, hsrc, -⟩
      rcases List.mem_cons.mp hsrc with hsrc | hsrc
      · exact .inr ((graph.mem_edgesFrom nearest e).mpr ⟨he, hsrc⟩)
      · obtain ⟨c, hc, -⟩ := hbefore _ (List.mem_cons_of_mem nearest hsrc)
        exact .inl ⟨he, hsrc, by simp [hc]⟩
  · intro u hu v hv b hb
    obtain ⟨c, hc, hle⟩ := hafter u hu
    refine ⟨c, hc, hle.trans ?_⟩
    rcases hkept.beyond v b hb with hb | hb
    · obtain ⟨a', ha', hab⟩ := hleast v (hrest v ((Heap.heapify_perm _ rest).mem_iff.mp hv)) b hb
      exact (Option.some.inj (ha.symm.trans ha')).symm ▸ hab
    · exact hb
  · rw [hkept.src]
    refine ⟨fun _ hne => ?_, h.grounded.mono (fun v hv => ?_) fun e he hv => ?_⟩
    · obtain ⟨e, he⟩ := List.exists_mem_of_ne_nil _ (h.labelled.nonempty nearest a ha hne)
      obtain ⟨hv, ⟨hmem, hsrc, hcost⟩, -⟩ := h.labelled.parents nearest e he
      obtain ⟨c, hc, -⟩ := hafter _ (List.mem_cons_of_mem nearest hsrc)
      have hkeep : e ∈ r'.parentEdges (Edge.dst e) := by
        rw [hv]
        exact hkept.parents nearest a ha le_rfl e he
      exact ⟨e, hkeep, hv, by simp [network, hc], hsrc⟩
    · obtain ⟨c, hc, -⟩ := hafter v (List.mem_cons_of_mem nearest hv)
      obtain ⟨c', hc', -⟩ := hbefore v (List.mem_cons_of_mem nearest hv)
      simp [hc, hc']
    · obtain ⟨c, hc, hle⟩ := hbefore _ (List.mem_cons_of_mem nearest hv)
      exact hkept.parents _ c hc hle e he

omit [DecidableEq E] in
theorem SearchInv.step_unreached (h : SearchInv graph weigher dst r order queue)
    (hperm : (nearest :: rest).Perm queue)
    (hleast : ∀ v ∈ queue, ∀ b, r.cost v = some b → ∃ a, r.cost nearest = some a ∧ a ≤ b)
    (hdst : some nearest ≠ dst) (hnone : r.cost nearest = none) :
    SearchInv graph weigher dst r (nearest :: order) (Heap.heapify (farther r) rest) := by
  have hrest : ∀ v ∈ Heap.heapify (farther r) rest, v ∈ queue := fun v hv =>
    hperm.mem_iff.mp (List.mem_cons_of_mem nearest ((Heap.heapify_perm _ rest).mem_iff.mp hv))
  refine ⟨(perm_step hperm).trans h.perm, h.source, ?_, ?_, ?_,
    Heap.heapify_heapFrom (farther_isOrder r) rest, fun hreached => absurd hnone hreached,
    h.grounded⟩
  · rintro t rfl ht
    rcases List.mem_cons.mp ht with rfl | ht
    · exact hdst rfl
    · exact h.notDst t rfl ht
  · refine h.labelled.congr fun e => ?_
    refine ⟨fun ⟨he, hsrc, hcost⟩ => ⟨he, List.mem_cons_of_mem nearest hsrc, hcost⟩, ?_⟩
    rintro ⟨he, hsrc, hcost⟩
    refine ⟨he, (List.mem_cons.mp hsrc).resolve_left fun heq => hcost (heq ▸ hnone), hcost⟩
  · intro u hu v hv b hb
    rcases List.mem_cons.mp hu with rfl | hu
    · exact hleast v (hrest v hv) b hb
    · exact h.nearer u hu v (hrest v hv) b hb

variable (graph weigher) in
/-- What holds when the loop has ended: at the destination, or when every vertex has left the
queue. -/
structure Finished (dst : Option V) (r : DefaultResult V E M) (order : List V) : Prop where
  nodup : order.Nodup
  labelled : Labelled graph weigher r (Relaxed graph r order)
  frontier : Frontier (network graph weigher) r.src weigher.getInitialWeight (· ∈ order) r.cost
  grounded : Grounded (network graph weigher) (fun v => r.cost v ≠ none)
    (fun e => e ∈ r.parentEdges (Edge.dst e)) r.src order
  nearest : ∀ t, dst = some t → Nearest (· ∈ order) r.cost t
  everywhere : dst = none → ∀ v ∈ graph.getVertexes, v ∈ order

section

omit [DecidableEq E]

theorem Labelled.mem_vertexes {done : E → Prop} (h : Labelled graph weigher r done)
    (hsrc : r.src ∈ graph.getVertexes) {v : V} {a : M} (hv : r.cost v = some a) :
    v ∈ graph.getVertexes := by
  obtain ⟨p, hp, -⟩ := h.realised v a hv
  rcases List.mem_cons.mp hp.walk.end_mem with rfl | hmem
  · exact hsrc
  · obtain ⟨e, he, rfl⟩ := List.mem_map.mp hmem
    exact graph.dst_mem e (hp.usable e he).1

section

variable (h : SearchInv graph weigher dst r order queue)

include h

theorem SearchInv.mem_queue {v : V} {a : M}
    (hv : r.cost v = some a) (hnot : v ∉ order) : v ∈ queue := by
  have hmem := h.perm.mem_iff.mpr (h.labelled.mem_vertexes h.source hv)
  exact (List.mem_append.mp hmem).resolve_left hnot

theorem SearchInv.frontier :
    Frontier (network graph weigher) r.src weigher.getInitialWeight (· ∈ order) r.cost where
  source := h.labelled.source
  relaxed e a husable hsrc ha :=
    h.labelled.relaxed e a ⟨husable.1, hsrc, fun hnone => by simp [network, hnone] at ha⟩
      husable.2 ha
  nearer u v b hu hv hb := h.nearer u hu v (h.mem_queue hb hv) b hb

theorem SearchInv.finished (hnearest : ∀ t, dst = some t →
      ∀ v ∈ queue, ∀ b, r.cost v = some b → ∃ a, r.cost t = some a ∧ a ≤ b)
    (heverywhere : dst = none → queue = []) : Finished graph weigher dst r order where
  nodup := by
    have hnodup := h.perm.nodup_iff.mpr graph.nodup_vertexes
    exact (List.nodup_append.mp hnodup).1
  labelled := h.labelled
  frontier := h.frontier
  grounded := h.grounded
  nearest t ht := ⟨h.notDst t ht, fun x a hx ha => hnearest t ht x (h.mem_queue ha hx) a ha⟩
  everywhere hnone v hv := by
    have hmem := h.perm.mem_iff.mpr hv
    rwa [heverywhere hnone, List.append_nil] at hmem

end

end

theorem searchLoop_spec [IsOrderedAddMonoid M] (fuel : ℕ)
    (h : SearchInv graph weigher dst r order queue) (hfuel : queue.length ≤ fuel) :
    (∃ order', Finished graph weigher dst (searchLoop graph dst weigher fuel r queue) order') ∧
    (searchLoop graph dst weigher fuel r queue).src = r.src ∧
    (searchLoop graph dst weigher fuel r queue).dst = r.dst ∧
    (searchLoop graph dst weigher fuel r queue).maxPaths = r.maxPaths ∧
    (searchLoop graph dst weigher fuel r queue).paths = r.paths := by
  induction fuel generalizing r order queue with
  | zero =>
    obtain rfl := List.eq_nil_of_length_eq_zero (Nat.le_zero.mp hfuel)
    exact ⟨⟨order, h.finished (fun t _ v hv => by cases hv) fun _ => rfl⟩, rfl, rfl, rfl, rfl⟩
  | succ fuel ih =>
    by_cases hne : queue = []
    · subst hne
      exact ⟨⟨order, h.finished (fun t _ v hv => by cases hv) fun _ => rfl⟩, rfl, rfl, rfl, rfl⟩
    · obtain ⟨nearest, rest, hextract, hperm, hleast⟩ := h.extract hne
      simp only [searchLoop, hextract]
      have hlen : ∀ r' : DefaultResult V E M,
          (Heap.heapify (farther r') rest).length ≤ fuel := by
        intro r'
        have := hperm.length_eq
        rw [(Heap.heapify_perm (farther r') rest).length_eq]
        simp only [List.length_cons] at this
        omega
      split
      case isTrue hdst =>
        refine ⟨⟨order, h.finished (fun t ht => ?_) fun hnone => ?_⟩, rfl, rfl, rfl, rfl⟩
        · obtain rfl : nearest = t := Option.some.inj (hdst.trans ht)
          exact hleast
        · rw [hnone] at hdst
          cases hdst
      case isFalse hdst =>
        cases ha : r.cost nearest with
        | none => exact ih (h.step_unreached hperm hleast hdst ha) (hlen r)
        | some a =>
          obtain ⟨hinv, hkept⟩ := h.step_reached hperm hleast hdst ha
          obtain ⟨hfinished, hsrc, hdst', hmax, hpaths⟩ := ih hinv (hlen _)
          exact ⟨hfinished, hsrc.trans hkept.src, hdst'.trans hkept.dst,
            hmax.trans hkept.maxPaths, hpaths.trans hkept.paths⟩

end Loop

section Results

variable {weigher : EdgeWeigher E M} {src t : V} {dst : Option V} {maxPaths : ℤ}

omit [Edge V E] [AddCommGroup M] [LinearOrder M] in
theorem cost_startResult (x : V) : (startResult (E := E) src dst weigher maxPaths).cost x =
    if x = src then some weigher.getInitialWeight else none := by
  have h := lookup_insert (∅ : Table V M) src x weigher.getInitialWeight
  rwa [AList.lookup_empty] at h

variable {graph : DirectedGraph V E}

variable (graph) in
theorem labelled_start {done : E → Prop} (hlimit : maxPaths = ALL_PATHS ∨ 1 ≤ maxPaths)
    (hnone : ∀ e, ¬ done e) :
    Labelled graph weigher (startResult src dst weigher maxPaths) done where
  limit := hlimit
  source := by
    rw [cost_startResult]
    exact if_pos rfl
  realised v a ha := by
    rw [cost_startResult] at ha
    split_ifs at ha with hv
    obtain rfl := Option.some.inj ha
    refine ⟨[], ⟨hv.symm, by simp⟩, ?_⟩
    rw [cost_nil, add_zero]
  relaxed e _ he := absurd he (hnone e)
  parents v e he := by
    have hnil : (startResult (E := E) src dst weigher maxPaths).parentEdges v = [] := rfl
    rw [hnil] at he
    cases he
  all _ e he := absurd he (hnone e)
  nonempty v a ha hv := by
    have hv' : ¬ v = src := hv
    rw [cost_startResult, if_neg hv'] at ha
    cases ha

variable (weigher dst) in
theorem searchInv_start (hlimit : maxPaths = ALL_PATHS ∨ 1 ≤ maxPaths)
    (hsrc : src ∈ graph.getVertexes) :
    SearchInv graph weigher dst (startResult src dst weigher maxPaths) []
      (Heap.heapify (farther (startResult src dst weigher maxPaths)) graph.getVertexes) where
  perm := Heap.heapify_perm _ _
  source := hsrc
  notDst _ _ := List.not_mem_nil
  labelled := labelled_start graph hlimit fun _ he => List.not_mem_nil he.2.1
  nearer _ hu := absurd hu List.not_mem_nil
  heap := Heap.heapify_heapFrom (farther_isOrder _) _
  grounded := trivial

theorem finished_start (hlimit : maxPaths = ALL_PATHS ∨ 1 ≤ maxPaths)
    (hsrc : src ∈ graph.getVertexes) (hne : dst ≠ some src) (hedges : graph.getEdges = []) :
    Finished graph weigher dst (startResult src dst weigher maxPaths)
      (graph.getVertexes.filter fun v => some v ≠ dst) := by
  have hnone : ∀ e, ¬ Relaxed graph (startResult src dst weigher maxPaths)
      (graph.getVertexes.filter fun v => some v ≠ dst) e := by
    intro e he
    have hmem := he.1
    rw [hedges] at hmem
    cases hmem
  have honly : ∀ v a, (startResult (E := E) src dst weigher maxPaths).cost v = some a →
      v = src := by
    intro v a ha
    rw [cost_startResult] at ha
    split_ifs at ha with hv
    exact hv
  have hin : ∀ v, v ∈ graph.getVertexes.filter (fun v => some v ≠ dst) ↔
      v ∈ graph.getVertexes ∧ some v ≠ dst := fun v => by simp
  refine ⟨graph.nodup_vertexes.filter _, labelled_start graph hlimit hnone, ⟨?_, ?_, ?_⟩,
    ?_, ?_, ?_⟩
  · exact (labelled_start graph hlimit hnone).source
  · intro e a husable
    have hmem := husable.1
    rw [hedges] at hmem
    cases hmem
  · intro _ v b _ hv hb
    obtain rfl := honly v b hb
    exact absurd ((hin v).mpr ⟨hsrc, hne.symm⟩) hv
  · generalize graph.getVertexes.filter _ = order
    induction order with
    | nil => trivial
    | cons v order ih =>
      refine ⟨fun hreached hne => ?_, ih⟩
      obtain ⟨a, ha⟩ := Option.ne_none_iff_exists'.mp hreached
      exact absurd (honly v a ha) hne
  · rintro t rfl
    refine ⟨fun ht => ((hin t).mp ht).2 rfl, fun x a hx ha => ?_⟩
    obtain rfl := honly x a ha
    exact absurd ((hin x).mpr ⟨hsrc, hne.symm⟩) hx
  · rintro rfl v hv
    exact (hin v).mpr ⟨hv, by simp⟩

variable [IsOrderedAddMonoid M]

variable (weigher dst) in
theorem labels_spec (hlimit : maxPaths = ALL_PATHS ∨ 1 ≤ maxPaths)
    (hsrc : src ∈ graph.getVertexes) (hne : dst ≠ some src) :
    (∃ order, Finished graph weigher dst (labels graph src dst weigher maxPaths) order) ∧
    (labels graph src dst weigher maxPaths).src = src ∧
    (labels graph src dst weigher maxPaths).dst = dst ∧
    (labels graph src dst weigher maxPaths).maxPaths = maxPaths ∧
    (labels graph src dst weigher maxPaths).paths = [] := by
  unfold labels
  dsimp only
  split
  case isTrue hempty =>
    exact ⟨⟨_, finished_start hlimit hsrc hne (List.isEmpty_iff.mp hempty)⟩, rfl, rfl, rfl, rfl⟩
  case isFalse =>
    have hstart := searchInv_start weigher dst hlimit hsrc
    exact searchLoop_spec _ hstart (Heap.heapify_perm _ _).length_eq.le

variable {r : DefaultResult V E M} {order : List V}

section

omit [DecidableEq E] [IsOrderedAddMonoid M]

theorem Finished.mem_parents (h : Finished graph weigher dst r order) {v : V} {e : E}
    (he : e ∈ r.parentEdges v) : Edge.dst e = v ∧ (network graph weigher).usable e ∧
      Edge.src e ∈ order ∧ Tight (network graph weigher) r.cost e := by
  obtain ⟨hv, ⟨hmem, hsrc, -⟩, husable, htight⟩ := h.labelled.parents v e he
  exact ⟨hv, ⟨hmem, husable⟩, hsrc, htight⟩

theorem Finished.cost_firstVertex (h : Finished graph weigher dst r order) {s : V} {c : M}
    (ht : r.cost t = some c) {p : List E} (hp : Backward r.parentEdges s t p) :
    ∃ a, r.cost (firstVertex p t) = some a := by
  cases hp with
  | nil => exact ⟨c, ht⟩
  | cons _ _ he _ =>
    obtain ⟨a, ha, -⟩ := (h.mem_parents he).2.2.2
    exact ⟨a, ha⟩

end

omit [DecidableEq E] in
theorem Finished.shortest_of_backward (h : Finished graph weigher dst r order)
    (hdst : dst = some t) {p : List E} (hp : Backward r.parentEdges r.src t p)
    (hfirst : firstVertex p t = r.src) : IsShortest (network graph weigher) r.src p t ∧
      r.cost t = some (weigher.totalCost p) := by
  have hparents : ∀ v, ∀ e ∈ r.parentEdges v, Edge.dst e = v := fun v e he =>
    (h.mem_parents he).1
  have hmem : ∀ e ∈ p, e ∈ r.parentEdges (Edge.dst e) := fun e he =>
    (hp.mem_parents hparents he).1
  refine h.frontier.shortest_of_tight (fun e he => hopCost_nonneg he.2) (h.nearest t hdst)
    ⟨?_, fun e he => (h.mem_parents (hmem e he)).2.1⟩ fun e he => (h.mem_parents (hmem e he)).2.2.2
  have hwalk := hp.walk hparents
  rwa [hfirst] at hwalk

omit [DecidableEq E] [IsOrderedAddMonoid M] in
theorem Finished.exists_backward (h : Finished graph weigher dst r order) (hdst : dst = some t)
    (hne : t ≠ r.src) {c : M} (ht : r.cost t = some c) :
    ∃ p, Backward r.parentEdges r.src t p ∧ firstVertex p t = r.src := by
  obtain ⟨e, he⟩ := List.exists_mem_of_ne_nil _ (h.labelled.nonempty t c ht hne)
  obtain ⟨rfl, -, hsrc, a, ha, -⟩ := h.mem_parents he
  have hreached : r.cost (Edge.src e) ≠ none := Option.ne_none_iff_exists'.mpr ⟨a, ha⟩
  obtain ⟨p, hp, hparent, hin⟩ := h.grounded.exists_path h.nodup hsrc hreached
  have hpath : IsPath Edge.src Edge.dst r.src (p ++ [e]) (Edge.dst e) :=
    hp.concat fun hmem => (h.nearest _ hdst).unsettled (hin _ hmem)
  refine ⟨p ++ [e], backward_of_path hpath ?_ (.inl rfl), firstVertex_eq hpath.walk⟩
  intro f hf
  rcases List.mem_append.mp hf with hf | hf
  · exact hparent f hf
  · exact List.mem_singleton.mp hf ▸ he

structure FindsShortest (graph : DirectedGraph V E) (weigher : EdgeWeigher E M) (src t : V)
    (maxPaths : ℤ) (paths : List (Path E M)) : Prop where
  sound : ∀ P ∈ paths, IsShortest (network graph weigher) src P.edges t ∧
    P.cost = weigher.totalCost P.edges ∧ P.edges.Nodup ∧ ∀ e ∈ P.edges, Edge.dst e ≠ src
  found : (∃ p, IsRoute (network graph weigher) src p t) → paths ≠ []
  all : maxPaths = ALL_PATHS → (∀ e ∈ graph.getEdges, weigher.weight e ≠ some 0) →
    ∀ p, IsShortest (network graph weigher) src p t → ⟨p, weigher.totalCost p⟩ ∈ paths

omit [DecidableEq V] [DecidableEq E] [IsOrderedAddMonoid M] in
theorem hopCost_pos (hweights : ∀ e ∈ graph.getEdges, weigher.weight e ≠ some 0) :
    ∀ e, (network graph weigher).usable e → 0 < weigher.hopCost e := by
  rintro e ⟨he, hopCost, hweight, hnonneg⟩
  rw [EdgeWeigher.hopCost, hweight]
  have hne : (0 : M) ≠ hopCost := fun h0 => hweights e he (by rw [hweight, h0])
  exact lt_of_le_of_ne hnonneg hne

theorem Finished.findsShortest (h : Finished graph weigher (some t) r order)
    (hne : t ≠ r.src) (hpaths : r.paths = []) :
    FindsShortest graph weigher r.src t r.maxPaths
      (buildAllPaths r r.src t r.maxPaths).paths := by
  have hnonneg : ∀ e, (network graph weigher).usable e → 0 ≤ weigher.hopCost e :=
    fun e he => hopCost_nonneg he.2
  cases ht : r.cost t with
  | none =>
    have hroute : ∀ p, ¬ IsRoute (network graph weigher) r.src p t := by
      intro p hp
      obtain ⟨b, hb, -⟩ := h.frontier.nearest_le hnonneg (h.nearest t rfl) hp
      rw [ht] at hb
      cases hb
    have hnil : (buildAllPaths r r.src t r.maxPaths).paths = [] := by
      simp only [buildAllPaths, ht, hpaths]
    rw [hnil]
    refine ⟨fun P hP => absurd hP List.not_mem_nil, ?_, fun _ _ p hp => absurd hp.route (hroute p)⟩
    rintro ⟨p, hp⟩
    exact absurd hp (hroute p)
  | some c =>
    have hparents : ∀ v, ∀ e ∈ r.parentEdges v, Edge.dst e = v := fun v e he =>
      (h.mem_parents he).1
    have hgo : ∀ p, Backward r.parentEdges r.src t p → firstVertex p t ≠ r.src →
        r.parentEdges (firstVertex p t) ≠ [] := by
      intro p hp hfirst
      obtain ⟨a, ha⟩ := h.cost_firstVertex ht hp
      exact h.labelled.nonempty _ a ha hfirst
    obtain ⟨hsound, hcomplete⟩ := buildAllPaths_spec r.maxPaths hparents hgo ht hpaths
    refine ⟨fun P hP => ?_, fun _ hnil => ?_, fun hmax hweights p hp => ?_⟩
    · obtain ⟨hback, hfirst, hcost⟩ := hsound P hP
      obtain ⟨hshortest, hlabel⟩ := h.shortest_of_backward rfl hback hfirst
      refine ⟨hshortest, ?_, hback.nodup hparents, fun e he => (hback.mem_parents hparents he).2⟩
      rw [hcost]
      exact Option.some.inj (ht.symm.trans hlabel)
    · obtain ⟨p, hp, hfirst⟩ := h.exists_backward rfl hne ht
      rcases hcomplete with hall | ⟨hmax, hlen⟩
      · exact List.not_mem_nil (hnil ▸ hall p hp hfirst)
      · rw [hnil] at hlen
        have hone := h.labelled.limit.resolve_left hmax
        simp only [List.length_nil] at hlen
        omega
    · have hpos := hopCost_pos hweights
      have hpath : IsPath Edge.src Edge.dst r.src p t := hp.isPath hpos
      have htight := fun e he => h.frontier.tight_of_shortest hpos h.labelled.realised
        (h.nearest t rfl) hp (e := e) he
      have hback : Backward r.parentEdges r.src t p := by
        refine backward_of_path hpath (fun e he => ?_) (.inl rfl)
        obtain ⟨hsrc, a, ha, hv⟩ := htight e he
        have husable := hp.route.usable e he
        have hreached : r.cost (Edge.src e) ≠ none := Option.ne_none_iff_exists'.mpr ⟨a, ha⟩
        exact h.labelled.all hmax e ⟨husable.1, hsrc, hreached⟩ husable.2 ⟨a, ha, hv⟩
      have hfirst := firstVertex_eq hpath.walk
      obtain ⟨-, hlabel⟩ := h.shortest_of_backward rfl hback hfirst
      obtain rfl := Option.some.inj (ht.symm.trans hlabel)
      exact (hcomplete.resolve_right fun hlimit => hlimit.1 hmax) p hback hfirst

variable (weigher) in
theorem internalSearch_findsShortest (hlimit : maxPaths = ALL_PATHS ∨ 1 ≤ maxPaths)
    (hsrc : src ∈ graph.getVertexes) (hne : src ≠ t) :
    FindsShortest graph weigher src t maxPaths
      (internalSearch graph src (some t) weigher maxPaths).paths := by
  obtain ⟨⟨order, hfinished⟩, hs, hd, hmax, hpaths⟩ := labels_spec weigher
    (some t) hlimit hsrc fun h => hne (Option.some.inj h).symm
  have hfind := hfinished.findsShortest (by rw [hs]; exact hne.symm) hpaths
  have hbuild : internalSearch graph src (some t) weigher maxPaths =
      buildAllPaths (labels graph src (some t) weigher maxPaths) src t maxPaths := by
    rw [internalSearch, buildPaths_some hd (by rw [hs]; exact hne.symm), hs, hmax]
  rw [hbuild]
  rwa [hs, hmax] at hfind

omit [IsOrderedAddMonoid M] in
theorem search_eq (hsrc : src ∈ graph.getVertexes) (ht : t ∈ graph.getVertexes) :
    search graph src (some t) weigher maxPaths =
      .ok (internalSearch graph src (some t) weigher maxPaths) := by
  unfold search checkArguments
  rw [if_neg (not_not.mpr hsrc)]
  dsimp only
  rw [if_pos ht]
  rfl

/-- With all paths asked for and no edge of weight zero, the search returns exactly the shortest
paths. -/
theorem all_shortest_paths (graph : DirectedGraph V E) (weigher : EdgeWeigher E M) {src dst : V}
    (hsrc : src ∈ graph.getVertexes) (hdst : dst ∈ graph.getVertexes) (hne : src ≠ dst)
    (hweights : ∀ e ∈ graph.getEdges, weigher.weight e ≠ some 0) :
    ∃ result, search graph src (some dst) weigher ALL_PATHS = .ok result ∧
      (∀ P, P ∈ result.paths ↔ IsShortest (network graph weigher) src P.edges dst ∧
        P.cost = weigher.totalCost P.edges) ∧
      (result.paths = [] ↔ ∀ p, ¬ IsRoute (network graph weigher) src p dst) := by
  have hfind := internalSearch_findsShortest weigher (.inl rfl) hsrc hne
  refine ⟨_, search_eq hsrc hdst, fun P => ⟨fun hP => ?_, fun ⟨hshortest, hcost⟩ => ?_⟩, ?_⟩
  · obtain ⟨hshortest, hcost, -⟩ := hfind.sound P hP
    exact ⟨hshortest, hcost⟩
  · have hmem := hfind.all rfl hweights P.edges hshortest
    rwa [← hcost] at hmem
  · constructor
    · exact fun hnil p hp => hfind.found ⟨p, hp⟩ hnil
    · intro hnone
      apply List.eq_nil_iff_forall_not_mem.mpr
      exact fun P hP => hnone _ (hfind.sound P hP).1.route

/-- Two ways from 0 to 3 of two hops each, and a direct edge that weighs more. -/
def diamond : DirectedGraph ℕ TestEdge := adjacencyListsGraph [0, 1, 2, 3]
  [⟨0, 1, 1⟩, ⟨0, 2, 1⟩, ⟨1, 3, 1⟩, ⟨2, 3, 1⟩, ⟨0, 3, 3⟩]

theorem all_shortest_paths_diamond :
    ∃ result, search diamond 0 (some 3) testWeigher ALL_PATHS = .ok result ∧
      (∀ P, P ∈ result.paths ↔ IsShortest (network diamond testWeigher) 0 P.edges 3 ∧
        P.cost = testWeigher.totalCost P.edges) ∧
      (result.paths = [] ↔ ∀ p, ¬ IsRoute (network diamond testWeigher) 0 p 3) :=
  all_shortest_paths diamond testWeigher (by decide) (by decide) (by decide) (by decide)

example : (internalSearch diamond 0 (some 3) testWeigher ALL_PATHS).paths.map Path.cost =
    [2, 2] := by decide

end Results

end DijkstraGraphSearch

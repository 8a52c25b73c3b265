import Onos.DijkstraGraphSearch
import Onos.NegativeCycles
import Mathlib.Data.Set.Card

/-! How many paths a search returns when their number is limited. The limit is looked at before a
pass over the pending paths only, and one pass may find more paths than are missing. -/
namespace PathLimit

open KeyedMap DirectedWalk ShortestPaths GraphPathSearch
open BellmanFordGraphSearch (SameSearch)

universe u v

variable {V : Type u} {E : Type v} {M : Type*} [DecidableEq V] [DecidableEq E] [Edge V E]

section Passes

def pendingAt (parents : V → List E) (s t : V) : ℕ → List (List E)
  | 0 => [[]]
  | n + 1 => (scanPending parents s t (pendingAt parents s t n)).2

def arrived (parents : V → List E) (s t : V) : ℕ → List (List E)
  | 0 => []
  | n + 1 => (scanPending parents s t (pendingAt parents s t n)).1 ++ arrived parents s t n

def Overshoots (count : ℕ → ℕ) (limit : ℕ) : Prop := ∃ n, count n < limit ∧ limit < count (n + 1)

variable {parents : V → List E} {s t : V}

section

omit [DecidableEq E]

theorem arePending_pendingAt (n : ℕ) : ArePending parents s t n (pendingAt parents s t n) := by
  induction n with
  | zero => exact arePending_nil
  | succ n ih => exact ih.scan (List.Perm.refl _)

theorem nodup_scanPending (hnodup : ∀ v, (parents v).Nodup) {pending : List (List E)}
    (h : pending.Nodup) : (scanPending parents s t pending).1.Nodup ∧
      (scanPending parents s t pending).2.Nodup := by
  induction pending with
  | nil => exact ⟨List.nodup_nil, List.nodup_nil⟩
  | cons path rest ih =>
    obtain ⟨hpath, hrest⟩ := List.nodup_cons.mp h
    obtain ⟨hfound, hfrontier⟩ := ih hrest
    rw [scanPending]
    split_ifs with hfirst
    · refine ⟨List.nodup_cons.mpr ⟨fun hmem => ?_, hfound⟩, hfrontier⟩
      exact hpath ((of_mem_scanPending path).1 hmem).1
    · cases hedges : parents (firstVertex path t) with
      | nil => exact ⟨List.nodup_nil, List.nodup_nil⟩
      | cons edge edges =>
        have hparents := hnodup (firstVertex path t)
        rw [hedges] at hparents
        refine ⟨hfound, List.nodup_append.mpr ⟨?_, hfrontier, ?_⟩⟩
        · exact (hparents.filter _).map fun e f hef => List.head_eq_of_cons_eq hef
        · -- the path before the new edge tells them apart
          rintro _ hq _ hq' rfl
          obtain ⟨e, -, rfl⟩ := List.mem_map.mp hq
          obtain ⟨e', p, heq, hp, -⟩ := (of_mem_scanPending _).2 hq'
          rw [List.tail_eq_of_cons_eq heq] at hpath
          exact hpath hp

theorem nodup_pendingAt (hnodup : ∀ v, (parents v).Nodup) (n : ℕ) :
    (pendingAt parents s t n).Nodup := by
  induction n with
  | zero => exact List.nodup_singleton []
  | succ n ih => exact (nodup_scanPending hnodup ih).2

theorem of_mem_arrived {n : ℕ} {p : List E} (h : p ∈ arrived parents s t n) :
    Backward parents s t p ∧ firstVertex p t = s ∧ p.length < n := by
  induction n with
  | zero => cases h
  | succ n ih =>
    rcases List.mem_append.mp h with h | h
    · obtain ⟨hp, hfirst⟩ := (of_mem_scanPending p).1 h
      obtain ⟨hback, hlen⟩ := arePending_pendingAt n p hp
      exact ⟨hback, hfirst, by omega⟩
    · obtain ⟨hback, hfirst, hlen⟩ := ih h
      exact ⟨hback, hfirst, by omega⟩

theorem nodup_arrived (hnodup : ∀ v, (parents v).Nodup) (n : ℕ) :
    (arrived parents s t n).Nodup := by
  induction n with
  | zero => exact List.nodup_nil
  | succ n ih =>
    refine List.nodup_append.mpr ⟨(nodup_scanPending hnodup (nodup_pendingAt hnodup n)).1, ih, ?_⟩
    rintro p hp _ hq rfl
    have hlen := (arePending_pendingAt n p ((of_mem_scanPending p).1 hp).1).2
    have := (of_mem_arrived hq).2.2
    omega

theorem length_arrived_succ (n : ℕ) : (arrived parents s t (n + 1)).length =
    (scanPending parents s t (pendingAt parents s t n)).1.length + (arrived parents s t n).length :=
  List.length_append

theorem length_arrived_mono {m n : ℕ} (h : m ≤ n) :
    (arrived parents s t m).length ≤ (arrived parents s t n).length := by
  induction h with
  | refl => exact le_rfl
  | @step n _ ih =>
    have hnext : (arrived parents s t (n + 1)).length = _ := length_arrived_succ n
    exact ih.trans (hnext ▸ Nat.le_add_left _ _)

theorem arrived_of_empty {m n : ℕ} (h : pendingAt parents s t m = []) (hmn : m ≤ n) :
    pendingAt parents s t n = [] ∧ arrived parents s t n = arrived parents s t m := by
  induction hmn with
  | refl => exact ⟨h, rfl⟩
  | @step n _ ih =>
    obtain ⟨hpending, harrived⟩ := ih
    have hscan : scanPending parents s t (pendingAt parents s t n) = ([], []) := by
      rw [hpending]
      rfl
    refine ⟨congrArg Prod.snd hscan, ?_⟩
    show (scanPending parents s t (pendingAt parents s t n)).1 ++ arrived parents s t n = _
    rw [hscan, harrived]
    rfl

end

/-- How many paths back to the source have fewer than so many edges. -/
noncomputable def pathsBack (parents : V → List E) (s t : V) (n : ℕ) : ℕ :=
  Set.ncard {p | Backward parents s t p ∧ firstVertex p t = s ∧ p.length < n}

section

omit [DecidableEq E]

section

variable (hgo : ∀ p, Backward parents s t p → firstVertex p t ≠ s → parents (firstVertex p t) ≠ [])

include hgo

theorem mem_pendingAt {n : ℕ} (p : List E) :
    p ∈ pendingAt parents s t n ↔ Backward parents s t p ∧ p.length = n := by
  induction n generalizing p with
  | zero =>
    refine ⟨arePending_pendingAt 0 p, fun h => ?_⟩
    rw [List.length_eq_zero_iff.mp h.2]
    exact List.mem_singleton_self []
  | succ n ih =>
    have hready : ∀ q ∈ pendingAt parents s t n, firstVertex q t ≠ s →
        parents (firstVertex q t) ≠ [] := fun q hq => hgo q ((ih q).mp hq).1
    rw [pendingAt, (mem_scanPending hready p).2, backward_succ]
    simp only [ih]

theorem mem_arrived {n : ℕ} (p : List E) :
    p ∈ arrived parents s t n ↔ Backward parents s t p ∧ firstVertex p t = s ∧ p.length < n := by
  refine ⟨of_mem_arrived, fun h => ?_⟩
  obtain ⟨hback, hfirst, hlen⟩ := h
  induction n with
  | zero => exact absurd hlen (Nat.not_lt_zero _)
  | succ n ih =>
    rcases Nat.lt_succ_iff_lt_or_eq.mp hlen with hlt | heq
    · exact List.mem_append_right _ (ih hlt)
    · refine List.mem_append_left _ ?_
      have hready : ∀ q ∈ pendingAt parents s t n, firstVertex q t ≠ s →
          parents (firstVertex q t) ≠ [] := fun q hq => hgo q ((mem_pendingAt hgo q).mp hq).1
      exact (mem_scanPending hready p).1.mpr ⟨(mem_pendingAt hgo p).mpr ⟨hback, heq⟩, hfirst⟩

end

end

theorem length_arrived_eq (hnodup : ∀ v, (parents v).Nodup)
    (hgo : ∀ p, Backward parents s t p → firstVertex p t ≠ s → parents (firstVertex p t) ≠ [])
    : (fun n => (arrived parents s t n).length) = pathsBack parents s t := by
  funext n
  have hset : {p | Backward parents s t p ∧ firstVertex p t = s ∧ p.length < n} =
      ((arrived parents s t n).toFinset : Set (List E)) := by
    ext p
    rw [Finset.mem_coe, List.mem_toFinset, mem_arrived hgo]
    rfl
  rw [pathsBack, hset, Set.ncard_coe_finset, List.toFinset_card_of_nodup (nodup_arrived hnodup n)]

omit [DecidableEq E]

theorem pathsBack_eq_zero (h : ∀ p, Backward parents s t p → firstVertex p t ≠ s) (n : ℕ) :
    pathsBack parents s t n = 0 := by
  have hset : {p | Backward parents s t p ∧ firstVertex p t = s ∧ p.length < n} = ∅ :=
    Set.eq_empty_of_forall_notMem fun p hp => h p hp.1 hp.2.1
  rw [pathsBack, hset, Set.ncard_empty]

theorem backward_source {p : List E} (h : Backward parents s s p) : p = [] := by
  induction h with
  | nil => rfl
  | cons _ hne _ _ ih => exact absurd (by rw [ih]; rfl) hne

end Passes

section Limit

variable [DecidableEq M] {parents : V → List E} {s t : V} {cost : M} {limit : ℕ}

variable {n : ℕ} {paths : List (Path E M)}

theorem length_union_found (hnodup : ∀ v, (parents v).Nodup)
    (hpaths : ∀ P ∈ paths, P.edges ∈ arrived parents s t n) :
    ((scanPending parents s t (pendingAt parents s t n)).1.map
      (fun edges => (⟨edges, cost⟩ : Path E M)) ∪ paths).length =
      (scanPending parents s t (pendingAt parents s t n)).1.length + paths.length := by
  have hfound : (scanPending parents s t (pendingAt parents s t n)).1.Nodup :=
    (nodup_scanPending hnodup (nodup_pendingAt hnodup n)).1
  have hmap : ((scanPending parents s t (pendingAt parents s t n)).1.map
      (fun edges => (⟨edges, cost⟩ : Path E M))).Nodup :=
    hfound.map fun p q hpq => congrArg Path.edges hpq
  have hdisjoint : List.Disjoint ((scanPending parents s t (pendingAt parents s t n)).1.map
      (fun edges => (⟨edges, cost⟩ : Path E M))) paths := by
    intro P hP hP'
    obtain ⟨p, hp, rfl⟩ := List.mem_map.mp hP
    have hlen := (arePending_pendingAt n p ((of_mem_scanPending p).1 hp).1).2
    have hlt := (of_mem_arrived (hpaths _ hP')).2.2
    exact absurd (show p.length < n from hlt) (by omega)
  rw [hdisjoint.union_eq, hmap.dedup, List.length_append, List.length_map]

omit [DecidableEq V] [DecidableEq E] [Edge V E] [DecidableEq M] in
theorem withinLimit_iff {size : ℕ} :
    DefaultResult.withinLimit (limit : ℤ) size = true ↔ size < limit := by
  rw [DefaultResult.withinLimit, decide_eq_true_eq, ALL_PATHS]
  omega

theorem buildRounds_full (fuel : ℕ) {pending : List (List E)} (h : limit ≤ paths.length) :
    buildRounds parents s t cost limit fuel pending paths = paths := by
  cases fuel with
  | zero => rfl
  | succ fuel =>
    rw [buildRounds, if_neg]
    rintro ⟨-, hwithin⟩
    exact absurd (withinLimit_iff.mp hwithin) (not_lt.mpr h)

omit [DecidableEq E] [DecidableEq M] in
theorem not_overshoots_of_empty (h : pendingAt parents s t n = []) :
    ¬∃ m, n ≤ m ∧ (arrived parents s t m).length < limit ∧
      limit < (arrived parents s t (m + 1)).length := by
  rintro ⟨m, hm, hlt, hgt⟩
  rw [(arrived_of_empty h hm).2] at hlt
  rw [(arrived_of_empty h (Nat.le_succ_of_le hm)).2] at hgt
  omega

/-- From a pass on that starts with the paths that have arrived, no more than the limit are found
exactly when no later pass overshoots. -/
theorem length_buildRounds_le_iff {all : List E} (hparents : ∀ v, ∀ e ∈ parents v, Edge.dst e = v)
    (hall : ∀ v, ∀ e ∈ parents v, e ∈ all) (hnodup : ∀ v, (parents v).Nodup) (fuel : ℕ)
    (hpaths : ∀ P ∈ paths, P.edges ∈ arrived parents s t n)
    (hlen : paths.length = (arrived parents s t n).length) (hle : paths.length ≤ limit)
    (hfuel : all.length < n + fuel) :
    (buildRounds parents s t cost limit fuel (pendingAt parents s t n) paths).length ≤ limit ↔
      ¬∃ m, n ≤ m ∧ (arrived parents s t m).length < limit ∧
        limit < (arrived parents s t (m + 1)).length := by
  induction fuel generalizing n paths with
  | zero =>
    have hnil : pendingAt parents s t n = [] := by
      refine List.eq_nil_iff_forall_not_mem.mpr fun p hp => ?_
      obtain ⟨hback, hp⟩ := arePending_pendingAt n p hp
      have := length_le_of_backward hparents hall hback
      omega
    exact iff_of_true hle (not_overshoots_of_empty hnil)
  | succ fuel ih =>
    rw [buildRounds]
    split
    case isTrue hcont =>
      have hbelow : paths.length < limit := withinLimit_iff.mp hcont.2
      have hnext : ((scanPending parents s t (pendingAt parents s t n)).1.map
          (fun edges => (⟨edges, cost⟩ : Path E M)) ∪ paths).length = _ :=
        length_union_found hnodup hpaths
      have hlen' : (arrived parents s t (n + 1)).length = _ := length_arrived_succ n
      have hsome : ∀ P ∈ (scanPending parents s t (pendingAt parents s t n)).1.map
          (fun edges => (⟨edges, cost⟩ : Path E M)) ∪ paths,
          P.edges ∈ arrived parents s t (n + 1) := by
        intro P hP
        rcases List.mem_union_iff.mp hP with hP | hP
        · obtain ⟨p, hp, rfl⟩ := List.mem_map.mp hP
          exact List.mem_append_left _ hp
        · exact List.mem_append_right _ (hpaths P hP)
      show (buildRounds parents s t cost limit fuel (pendingAt parents s t (n + 1)) _).length ≤ _ ↔ _
      generalize (scanPending parents s t (pendingAt parents s t n)).1.map
        (fun edges => (⟨edges, cost⟩ : Path E M)) ∪ paths = paths' at hnext hsome ⊢
      rw [hlen, ← hlen'] at hnext
      by_cases hover : limit < (arrived parents s t (n + 1)).length
      · -- this pass overshoots, and it is the last one
        rw [buildRounds_full fuel (by omega)]
        exact iff_of_false (by omega) (not_not.mpr ⟨n, le_rfl, hlen ▸ hbelow, hover⟩)
      · refine (ih hsome hnext (by omega) (by omega)).trans (not_congr ?_)
        -- this pass does not overshoot
        constructor
        · rintro ⟨m, hm, h⟩
          exact ⟨m, Nat.le_of_succ_le hm, h⟩
        · rintro ⟨m, hm, hlt, hgt⟩
          refine ⟨m, Nat.lt_of_le_of_ne hm ?_, hlt, hgt⟩
          rintro rfl
          exact hover hgt
    case isFalse hstop =>
      refine iff_of_true hle ?_
      by_cases hnil : pendingAt parents s t n = []
      · exact not_overshoots_of_empty hnil
      · rintro ⟨m, hm, hlt, -⟩
        have hfull : ¬paths.length < limit := fun h => hstop ⟨hnil, withinLimit_iff.mpr h⟩
        rw [hlen] at hfull
        exact hfull ((length_arrived_mono hm).trans_lt hlt)

omit [DecidableEq E] [DecidableEq M] in
theorem not_overshoots_of_first (hlimit : 1 ≤ limit) (h : pendingAt parents s t 1 = [])
    (hone : (arrived parents s t 1).length ≤ 1) :
    ¬Overshoots (fun n => (arrived parents s t n).length) limit := by
  rintro ⟨n, hlt, hgt⟩
  dsimp only at hlt hgt
  rw [(arrived_of_empty h (Nat.succ_le_succ (Nat.zero_le n))).2] at hgt
  omega

theorem length_buildAllPaths_le_iff {r : DefaultResult V E M} (hlimit : 1 ≤ limit)
    (hparents : ∀ v, ∀ e ∈ r.parentEdges v, Edge.dst e = v)
    (hnodup : ∀ v, (r.parentEdges v).Nodup) (hcost : r.cost t = none → r.parentEdges t = [])
    (hpaths : r.paths = []) (hne : t ≠ s) : (buildAllPaths r s t limit).paths.length ≤ limit ↔
      ¬Overshoots (fun n => (arrived r.parentEdges s t n).length) limit := by
  cases ht : r.cost t with
  | none =>
    have hscan : scanPending r.parentEdges s t [[]] = ([], []) := by
      rw [scanPending, if_neg (show ¬firstVertex [] t = s from hne)]
      simp only [firstVertex, hcost ht]
    simp only [buildAllPaths, ht, hpaths]
    refine iff_of_true (Nat.zero_le _) (not_overshoots_of_first hlimit (congrArg Prod.snd hscan) ?_)
    rw [length_arrived_succ, show (scanPending r.parentEdges s t (pendingAt r.parentEdges s t 0)).1 =
      [] from congrArg Prod.fst hscan]
    exact Nat.zero_le _
  | some cost =>
    simp only [buildAllPaths, ht, hpaths]
    refine (length_buildRounds_le_iff hparents (fun v e he => mem_flatMap_of_mem_parentEdges he)
      hnodup _ (n := 0) ?_ rfl (Nat.zero_le _) (by omega)).trans (not_congr ?_)
    · exact fun P hP => absurd hP List.not_mem_nil
    · constructor
      · rintro ⟨m, -, h⟩
        exact ⟨m, h⟩
      · rintro ⟨m, h⟩
        exact ⟨m, Nat.zero_le m, h⟩

omit [DecidableEq E] [DecidableEq M] in
theorem not_overshoots_source (hlimit : 1 ≤ limit) :
    ¬Overshoots (fun n => (arrived parents s s n).length) limit := by
  have hscan : scanPending parents s s [[]] = ([[]], []) := by
    rw [scanPending, if_pos (show firstVertex [] s = s from rfl)]
    rfl
  refine not_overshoots_of_first hlimit (congrArg Prod.snd hscan) ?_
  rw [length_arrived_succ, show (scanPending parents s s (pendingAt parents s s 0)).1 = [[]] from
    congrArg Prod.fst hscan]
  exact le_rfl

end Limit

section Distinct

variable [AddCommGroup M] [LinearOrder M] {r : DefaultResult V E M}

def HasDistinctParents (r : DefaultResult V E M) : Prop := ∀ v, (r.parentEdges v).Nodup

omit [AddCommGroup M] [LinearOrder M] [Edge V E] in
theorem HasDistinctParents.updateVertex (h : HasDistinctParents r) (x : V) (e : E) (c : M)
    (replace : Bool) : HasDistinctParents (r.updateVertex x (some e) c replace) := by
  intro v
  by_cases hv : v = x
  · subst hv
    cases replace with
    | true =>
      rw [parentEdges_replace]
      split_ifs
      · exact List.nodup_singleton e
      · exact List.nodup_nil
    | false =>
      rw [parentEdges_tie]
      split_ifs
      · exact (h v).insert
      · exact h v
  · rw [parentEdges_updateVertex_ne hv]
    exact h v

theorem HasDistinctParents.relaxEdge (h : HasDistinctParents r) (e : E) (c : M)
    (weigher : EdgeWeigher E M) (forbidNegatives : Bool) :
    HasDistinctParents (r.relaxEdge e c weigher forbidNegatives).1 := by
  unfold DefaultResult.relaxEdge
  cases weigher.weight e with
  | none => exact h
  | some hopCost =>
    dsimp only
    split_ifs
    · exact h
    · exact h.updateVertex _ _ _ _
    · exact h

theorem HasDistinctParents.relaxFrom (h : HasDistinctParents r) (weigher : EdgeWeigher E M)
    (e : E) : HasDistinctParents (BellmanFordGraphSearch.relaxFrom weigher r e).1 := by
  unfold BellmanFordGraphSearch.relaxFrom
  split
  · exact h.relaxEdge _ _ _ _
  · exact h

omit [DecidableEq E] [Edge V E] [AddCommGroup M] [LinearOrder M] in
theorem HasDistinctParents.foldl {α : Type*} {f : DefaultResult V E M → α → DefaultResult V E M}
    (hf : ∀ r x, HasDistinctParents r → HasDistinctParents (f r x)) (h : HasDistinctParents r)
    (xs : List α) : HasDistinctParents (xs.foldl f r) := by
  induction xs generalizing r with
  | nil => exact h
  | cons x xs ih => exact ih (hf r x h)

variable {graph : DirectedGraph V E} {weigher : EdgeWeigher E M} {src : V} {dst : Option V}
  {maxPaths : ℤ}

theorem HasDistinctParents.rounds (h : HasDistinctParents r) (edges : List E) (n : ℕ) :
    HasDistinctParents (BellmanFordGraphSearch.rounds weigher edges n r) := by
  induction n generalizing r with
  | zero => exact h
  | succ n ih => exact ih (foldl (fun r e hr => hr.relaxFrom weigher e) h edges)

theorem distinct_bellmanFord :
    HasDistinctParents (BellmanFordGraphSearch.labels graph src dst weigher maxPaths) := by
  have hstart : HasDistinctParents (BellmanFordGraphSearch.startResult src dst weigher maxPaths :
    DefaultResult V E M) := fun _ => List.nodup_nil
  refine HasDistinctParents.foldl (fun r e hr => ?_) (hstart.rounds _ _) _
  split_ifs
  · intro v
    rw [NegativeCycles.parentEdges_removeVertex]
    split_ifs
    · exact List.nodup_nil
    · exact hr.relaxFrom weigher e v
  · exact hr.relaxFrom weigher e

theorem searchLoop_induction {P : DefaultResult V E M → Prop}
    (hrelax : ∀ r e c, P r → P (r.relaxEdge e c weigher true).1) (h : P r) (fuel : ℕ)
    (queue : List V) : P (DijkstraGraphSearch.searchLoop graph dst weigher fuel r queue) := by
  have hall : ∀ c edges r, P r → P (DijkstraGraphSearch.relaxAll weigher c edges r) := by
    intro c edges
    induction edges with
    | nil => exact fun r hr => hr
    | cons e edges ih => exact fun r hr => ih _ (hrelax r e c hr)
  induction fuel generalizing r queue with
  | zero => exact h
  | succ fuel ih =>
    rw [DijkstraGraphSearch.searchLoop]
    split
    · exact h
    · split_ifs
      · exact h
      · refine ih ?_ _
        split
        · exact hall _ _ _ h
        · exact h

theorem labels_induction {P : DefaultResult V E M → Prop}
    (hrelax : ∀ r e c, P r → P (r.relaxEdge e c weigher true).1)
    (hstart : P (DijkstraGraphSearch.startResult src dst weigher maxPaths)) :
    P (DijkstraGraphSearch.labels graph src dst weigher maxPaths) := by
  unfold DijkstraGraphSearch.labels
  dsimp only
  split_ifs
  · exact hstart
  · exact searchLoop_induction hrelax hstart _ _

theorem distinct_dijkstra :
    HasDistinctParents (DijkstraGraphSearch.labels graph src dst weigher maxPaths) :=
  labels_induction (fun _ e c hr => hr.relaxEdge e c weigher true) fun _ => List.nodup_nil

theorem sameSearch_relaxEdge (r : DefaultResult V E M) (e : E) (c : M)
    (forbidNegatives : Bool) : SameSearch r (r.relaxEdge e c weigher forbidNegatives).1 := by
  unfold DefaultResult.relaxEdge
  cases weigher.weight e with
  | none => exact SameSearch.refl r
  | some hopCost =>
    dsimp only
    split_ifs
    · exact SameSearch.refl r
    · exact ⟨rfl, rfl, rfl, rfl⟩
    · exact SameSearch.refl r

theorem sameSearch_dijkstra :
    SameSearch (DijkstraGraphSearch.startResult src dst weigher maxPaths : DefaultResult V E M)
      (DijkstraGraphSearch.labels graph src dst weigher maxPaths) :=
  labels_induction (fun r e c hr => hr.trans (sameSearch_relaxEdge r e c true)) (SameSearch.refl _)

end Distinct

section Results

variable [AddCommGroup M] [LinearOrder M] [IsOrderedAddMonoid M]
variable (graph : DirectedGraph V E) (weigher : EdgeWeigher E M) (src dst : V) {limit : ℕ}

/-- The parents that Dijkstra's search keeps for a destination: no more than the limit for each
vertex. -/
def dijkstraParents (limit : ℕ) : V → List E :=
  (DijkstraGraphSearch.labels graph src (some dst) weigher limit).parentEdges

def bellmanFordParents (limit : ℕ) : V → List E :=
  (BellmanFordGraphSearch.labels graph src (some dst) weigher limit).parentEdges

omit [IsOrderedAddMonoid M] in
theorem paths_source (maxPaths : ℤ) :
    (DijkstraGraphSearch.internalSearch graph src (some src) weigher maxPaths).paths = [] := by
  have hsame : SameSearch (DijkstraGraphSearch.startResult src (some src) weigher maxPaths :
    DefaultResult V E M) (DijkstraGraphSearch.labels graph src (some src) weigher maxPaths) :=
    sameSearch_dijkstra
  have hs : (DijkstraGraphSearch.labels graph src (some src) weigher maxPaths).src = src :=
    hsame.src
  have hd : (DijkstraGraphSearch.labels graph src (some src) weigher maxPaths).dst = some src :=
    hsame.dst
  rw [DijkstraGraphSearch.internalSearch, buildPaths_source (by rw [hd, hs])]
  exact hsame.paths

theorem dijkstra_le_iff (hlimit : 1 ≤ limit) (hsrc : src ∈ graph.getVertexes) :
    (DijkstraGraphSearch.internalSearch graph src (some dst) weigher limit).paths.length ≤ limit ↔
      ¬Overshoots (pathsBack (dijkstraParents graph weigher src dst limit) src dst) limit := by
  have hnodup : ∀ v, (dijkstraParents graph weigher src dst limit v).Nodup := distinct_dijkstra
  by_cases hne : dst = src
  · subst hne
    have hpaths : (DijkstraGraphSearch.internalSearch graph dst (some dst) weigher limit).paths =
        [] := paths_source graph weigher dst limit
    rw [hpaths, ← length_arrived_eq hnodup fun p hp hfirst => ?_]
    · exact iff_of_true (Nat.zero_le _) (not_overshoots_source hlimit)
    · rw [backward_source hp] at hfirst
      exact absurd rfl hfirst
  · have hlimit' : 1 ≤ (limit : ℤ) := by omega
    obtain ⟨⟨order, h⟩, hs, hd, hmax, hpaths⟩ := DijkstraGraphSearch.labels_spec weigher (some dst)
      (Or.inr hlimit') hsrc fun heq => hne (Option.some.inj heq)
    have hbuild : DijkstraGraphSearch.internalSearch graph src (some dst) weigher limit =
        buildAllPaths (DijkstraGraphSearch.labels graph src (some dst) weigher limit) src dst
          limit := by
      rw [DijkstraGraphSearch.internalSearch, buildPaths_some hd (by rw [hs]; exact hne), hs, hmax]
    rw [hbuild]
    cases hdst : (DijkstraGraphSearch.labels graph src (some dst) weigher limit).cost dst with
    | none =>
      -- a destination without a cost has no parents
      have hnone : ∀ p, Backward (dijkstraParents graph weigher src dst limit) src dst p →
          firstVertex p dst ≠ src := by
        intro p hp
        rcases List.eq_nil_or_concat p with rfl | ⟨q, f, rfl⟩
        · exact hne
        · rw [List.concat_eq_append] at hp
          have hmem := (hp.mem_parents (fun v e he => (h.mem_parents he).1)
            (List.mem_append_right q List.mem_cons_self)).1
          obtain ⟨-, -, -, a, -, hf⟩ := h.mem_parents hmem
          obtain ⟨-, hlast⟩ := isWalk_concat.mp (hp.walk fun v e he => (h.mem_parents he).1)
          rw [show (network graph weigher).dst f = dst from hlast, hdst] at hf
          cases hf
      rw [show pathsBack (dijkstraParents graph weigher src dst limit) src dst = fun _ => 0 from
        funext fun n => pathsBack_eq_zero hnone n]
      simp only [buildAllPaths, hdst, hpaths]
      refine iff_of_true (Nat.zero_le _) ?_
      rintro ⟨n, -, hgt⟩
      exact absurd hgt (Nat.not_lt_zero _)
    | some c =>
      have hgo : ∀ p, Backward (dijkstraParents graph weigher src dst limit) src dst p →
          firstVertex p dst ≠ src →
          dijkstraParents graph weigher src dst limit (firstVertex p dst) ≠ [] := by
        intro p hp hfirst
        obtain ⟨a, ha⟩ := h.cost_firstVertex hdst hp
        exact h.labelled.nonempty _ a ha (by rw [hs]; exact hfirst)
      rw [← length_arrived_eq hnodup hgo]
      refine length_buildAllPaths_le_iff hlimit (fun v f hf => (h.mem_parents hf).1) hnodup ?_ hpaths
        hne
      rw [hdst]
      exact fun hnone => absurd hnone (Option.some_ne_none c)

theorem bellmanFord_le_iff (hlimit : 1 ≤ limit) :
    (BellmanFordGraphSearch.internalSearch graph src (some dst) weigher limit).paths.length ≤ limit ↔
      ¬Overshoots (fun n => (arrived (bellmanFordParents graph weigher src dst limit) src dst n).length)
        limit := by
  obtain ⟨-, hsame⟩ := NegativeCycles.removing_labels graph weigher src (some dst) limit
  by_cases hne : dst = src
  · subst hne
    rw [BellmanFordGraphSearch.paths_internalSearch_source hsame]
    exact iff_of_true (Nat.zero_le _) (not_overshoots_source hlimit)
  · rw [BellmanFordGraphSearch.internalSearch_eq (Ne.symm hne) hsame]
    refine length_buildAllPaths_le_iff hlimit
      (fun v f hf => (NegativeCycles.keepsBalance_of_mem hf).1) distinct_bellmanFord ?_ hsame.paths hne
    intro hnone
    refine List.eq_nil_iff_forall_not_mem.mpr fun f hf => ?_
    obtain ⟨rfl, hbalance⟩ := NegativeCycles.keepsBalance_of_mem hf
    obtain ⟨c, hc⟩ := NegativeCycles.cost_of_keepsBalance (some (Edge.dst f)) limit hbalance
    rw [hnone] at hc
    cases hc

/-- The searches keep to the limit exactly when no pass overshoots it: a pass that starts with fewer
paths than the limit and ends with more. -/
theorem keepsLimit_iff (hlimit : 1 ≤ limit) :
    (∀ result, DijkstraGraphSearch.search graph src (some dst) weigher limit = .ok result →
      (result.paths.length ≤ limit ↔
        ¬Overshoots (pathsBack (dijkstraParents graph weigher src dst limit) src dst) limit)) ∧
    ∀ result, BellmanFordGraphSearch.search graph src (some dst) weigher limit = .ok result →
      (result.paths.length ≤ limit ↔ ¬Overshoots (fun n =>
        (arrived (bellmanFordParents graph weigher src dst limit) src dst n).length) limit) := by
  refine ⟨fun result hresult => ?_, fun result hresult => ?_⟩
  · unfold DijkstraGraphSearch.search at hresult
    cases hargs : checkArguments graph src (some dst) with
    | error message =>
      rw [hargs] at hresult
      cases hresult
    | ok =>
      rw [hargs] at hresult
      cases hresult
      exact dijkstra_le_iff graph weigher src dst hlimit (source_of_checkArguments hargs)
  · unfold BellmanFordGraphSearch.search at hresult
    cases hargs : checkArguments graph src (some dst) with
    | error message =>
      rw [hargs] at hresult
      cases hresult
    | ok =>
      rw [hargs] at hresult
      cases hresult
      exact bellmanFord_le_iff graph weigher src dst hlimit

theorem keepsLimit_iff_diamond :
    ((DijkstraGraphSearch.internalSearch DijkstraGraphSearch.diamond 0 (some 3) testWeigher
        (1 : ℕ)).paths.length ≤ 1 ↔ ¬Overshoots (pathsBack
          (dijkstraParents DijkstraGraphSearch.diamond testWeigher 0 3 1) 0 3) 1) ∧
      ((BellmanFordGraphSearch.internalSearch DijkstraGraphSearch.diamond 0 (some 3) testWeigher
        (1 : ℕ)).paths.length ≤ 1 ↔ ¬Overshoots (fun n => (arrived
          (bellmanFordParents DijkstraGraphSearch.diamond testWeigher 0 3 1) 0 3 n).length) 1) :=
  ⟨(keepsLimit_iff _ _ _ _ (by decide)).1 _ (DijkstraGraphSearch.search_eq (by decide) (by decide)),
    (keepsLimit_iff _ _ _ _ (by decide)).2 _
      (BellmanFordGraphSearch.search_eq _ (by decide) (by decide))⟩

def twoDiamonds : DirectedGraph ℕ TestEdge := adjacencyListsGraph [0, 1, 2, 3, 4, 5, 6]
  [⟨0, 1, 1⟩, ⟨0, 2, 1⟩, ⟨1, 3, 1⟩, ⟨2, 3, 1⟩, ⟨3, 4, 1⟩, ⟨3, 5, 1⟩, ⟨4, 6, 1⟩, ⟨5, 6, 1⟩]

theorem twoDiamonds_exceeds :
    (¬∀ (graph : DirectedGraph ℕ TestEdge) (src dst limit : ℕ) (result : DefaultResult ℕ TestEdge ℤ),
      1 ≤ limit → DijkstraGraphSearch.search graph src (some dst) testWeigher limit = .ok result →
        result.paths.length ≤ limit) ∧
    ¬∀ (graph : DirectedGraph ℕ TestEdge) (src dst limit : ℕ) (result : DefaultResult ℕ TestEdge ℤ),
      1 ≤ limit → BellmanFordGraphSearch.search graph src (some dst) testWeigher limit = .ok result →
        result.paths.length ≤ limit := by
  constructor
  · intro hall
    have hle := hall twoDiamonds 0 6 2 _ (by decide)
      (DijkstraGraphSearch.search_eq (by decide) (by decide))
    have hfour : (DijkstraGraphSearch.internalSearch twoDiamonds 0 (some 6) testWeigher
      (2 : ℕ)).paths.length = 4 := by decide
    omega
  · intro hall
    have hle := hall twoDiamonds 0 6 2 _ (by decide)
      (BellmanFordGraphSearch.search_eq _ (by decide) (by decide))
    have hfour : (BellmanFordGraphSearch.internalSearch twoDiamonds 0 (some 6) testWeigher
      (2 : ℕ)).paths.length = 4 := by decide +kernel
    omega

end Results

end PathLimit

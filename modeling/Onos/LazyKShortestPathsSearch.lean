import Onos.SpurPaths

/-! The stream of the paths between two vertexes, cheapest first. A path is only searched for when
the stream is asked for it; what the searches found meanwhile waits in a priority queue. -/
namespace LazyKShortestPathsSearch

open DirectedWalk ShortestPaths GraphPathSearch DeviationSearch SpurPaths

universe u v

variable {V : Type u} {E : Type v} {M : Type*} [DecidableEq V] [DecidableEq E] [Edge V E]
variable [AddCommGroup M] [LinearOrder M]

def comesBefore (pathOne pathTwo : Path E M) : Bool :=
  pathOne.cost < pathTwo.cost ∨
    (pathOne.cost = pathTwo.cost ∧ pathOne.edges.length < pathTwo.edges.length)

structure PriorityQueue (E M : Type*) [LinearOrder M] where
  poll : List (Path E M) → Option (Path E M × List (Path E M))
  poll_nil : poll [] = none
  poll_ne_nil : ∀ queue, queue ≠ [] → ∃ path rest, poll queue = some (path, rest) ∧
    queue.Perm (path :: rest) ∧ ∀ other ∈ queue, comesBefore other path = false

def pollFirst : List (Path E M) → Option (Path E M × List (Path E M))
  | [] => none
  | path :: queue => match pollFirst queue with
    | none => some (path, [])
    | some (best, rest) =>
      if comesBefore best path then some (best, path :: rest) else some (path, best :: rest)

inductive Next (E M : Type*) where
  | known (path : Option (Path E M))
  | computed (lastPath : Path E M)

structure ShortestPathIterator (E M : Type*) where
  resultPaths : List (Path E M)
  potentialPaths : List (Path E M)
  next : Next E M

section Queue

omit [AddCommGroup M] [DecidableEq E]

theorem comesBefore_eq_false {P Q : Path E M} : comesBefore Q P = false ↔
    P.cost < Q.cost ∨ (P.cost = Q.cost ∧ P.edges.length ≤ Q.edges.length) := by
  unfold comesBefore
  rw [decide_eq_false_iff_not]
  rcases lt_trichotomy P.cost Q.cost with h | h | h
  · simp [h, h.not_gt, h.ne']
  · simp [h]
  · simp [h, h.not_gt, h.ne']

theorem cost_le_of_not_comesBefore {P Q : Path E M} (h : comesBefore Q P = false) :
    P.cost ≤ Q.cost := by
  rcases comesBefore_eq_false.mp h with h | h
  · exact h.le
  · exact h.1.le

theorem comesBefore_trans {P Q R : Path E M} (h : comesBefore Q P = false)
    (h' : comesBefore R Q = false) : comesBefore R P = false := by
  rw [comesBefore_eq_false] at *
  rcases h with h | ⟨heq, hle⟩
  · rcases h' with h' | h'
    · exact .inl (h.trans h')
    · exact .inl (h'.1 ▸ h)
  · rcases h' with h' | h'
    · exact .inl (heq ▸ h')
    · exact .inr ⟨heq.trans h'.1, hle.trans h'.2⟩

theorem comesBefore_asymm {P Q : Path E M} (h : comesBefore P Q = true) :
    comesBefore Q P = false := by
  rw [comesBefore_eq_false]
  unfold comesBefore at h
  rcases of_decide_eq_true h with h | ⟨heq, hlt⟩
  · exact .inl h
  · exact .inr ⟨heq, hlt.le⟩

theorem pollFirst_spec (queue : List (Path E M)) (hne : queue ≠ []) :
    ∃ path rest, pollFirst queue = some (path, rest) ∧ queue.Perm (path :: rest) ∧
      ∀ other ∈ queue, comesBefore other path = false := by
  induction queue with
  | nil => exact absurd rfl hne
  | cons path queue ih =>
    have hself : comesBefore path path = false := comesBefore_eq_false.mpr (.inr ⟨rfl, le_rfl⟩)
    by_cases hnil : queue = []
    · subst hnil
      exact ⟨path, [], rfl, List.Perm.refl _, by simpa using hself⟩
    · obtain ⟨best, rest, hpoll, hperm, hleast⟩ := ih hnil
      cases hcmp : comesBefore best path with
      | true =>
        refine ⟨best, path :: rest, by simp [pollFirst, hpoll, hcmp],
          (hperm.cons path).trans (List.Perm.swap best path rest), fun other hother => ?_⟩
        rcases List.mem_cons.mp hother with rfl | hother
        · exact comesBefore_asymm hcmp
        · exact hleast other hother
      | false =>
        refine ⟨path, best :: rest, by simp [pollFirst, hpoll, hcmp], hperm.cons path,
          fun other hother => ?_⟩
        rcases List.mem_cons.mp hother with rfl | hother
        · exact hself
        · exact comesBefore_trans hcmp (hleast other hother)

end Queue

def leastFirst (E M : Type*) [LinearOrder M] : PriorityQueue E M where
  poll := pollFirst
  poll_nil := rfl
  poll_ne_nil := pollFirst_spec

variable (queue : PriorityQueue E M) (graph : DirectedGraph V E) (src dst : V)
  (weigher : EdgeWeigher E M)

def shortestPathIterator : Except String (ShortestPathIterator E M) :=
  (DijkstraGraphSearch.search graph src (some dst) weigher 1).map fun result =>
    ⟨[], [], .known result.paths.head?⟩

def computeNext (it : ShortestPathIterator E M) (lastPath : Path E M) :
    Except String (ShortestPathIterator E M × Option (Path E M)) :=
  (spurPaths graph dst weigher it.resultPaths [] lastPath.edges).map fun found =>
    match queue.poll (it.potentialPaths ++ found) with
    | none => ({ it with potentialPaths := it.potentialPaths ++ found }, none)
    | some (path, rest) => ({ it with potentialPaths := rest }, some path)

def getNext (it : ShortestPathIterator E M) :
    Except String (ShortestPathIterator E M × Option (Path E M)) :=
  match it.next with
  | .known path => .ok (it, path)
  | .computed lastPath => (computeNext queue graph dst weigher it lastPath).map
    fun (it', path) => ({ it' with next := .known path }, path)

def hasNext (it : ShortestPathIterator E M) : Except String (ShortestPathIterator E M × Bool) :=
  (getNext queue graph dst weigher it).map fun (it', path) => (it', path.isSome)

def nextPath (it : ShortestPathIterator E M) :
    Except String (ShortestPathIterator E M × Path E M) :=
  (getNext queue graph dst weigher it).bind fun (it', path) => match path with
    | none => .error "NoSuchElementException"
    | some lastPath =>
      .ok ({ it' with resultPaths := it'.resultPaths ++ [lastPath], next := .computed lastPath },
        lastPath)

def takePaths : ℕ → ShortestPathIterator E M →
    Except String (ShortestPathIterator E M × List (Path E M))
  | 0, it => .ok (it, [])
  | n + 1, it => (hasNext queue graph dst weigher it).bind fun (it', more) =>
    if more then
      (nextPath queue graph dst weigher it').bind fun (it'', path) =>
        (takePaths n it'').map fun (last, paths) => (last, path :: paths)
    else .ok (it', [])

/-- What the stream and its iterator are after `n` paths have been asked for. -/
def lazyPathSearch (n : ℕ) : Except String (ShortestPathIterator E M × List (Path E M)) :=
  (shortestPathIterator graph src dst weigher).bind (takePaths queue graph dst weigher n)

section Order

def IterInv (it : ShortestPathIterator E M) : Prop :=
  match it.next with
  | .known none => Ranked graph src dst weigher it.resultPaths [] ∧ it.potentialPaths = [] ∧
    ∀ q, IsSimplePath graph src q dst → q ∈ it.resultPaths.map Path.edges
  | .known (some path) =>
    Ranked graph src dst weigher it.resultPaths (path :: it.potentialPaths) ∧
    (∀ Q ∈ it.potentialPaths, path.cost ≤ Q.cost) ∧
    (∀ q, IsSimplePath graph src q dst → q ∉ it.resultPaths.map Path.edges →
      path.cost ≤ weigher.totalCost q) ∧
    (it.resultPaths ≠ [] → Covered (fun p => IsSimplePath graph src p dst) weigher.totalCost
      (it.resultPaths.map Path.edges) ((path :: it.potentialPaths).map Path.edges))
  | .computed lastPath => Ranked graph src dst weigher it.resultPaths it.potentialPaths ∧
    lastPath ∈ it.resultPaths ∧
    CoveredBut (fun p => IsSimplePath graph src p dst) weigher.totalCost
      (it.resultPaths.map Path.edges) (it.potentialPaths.map Path.edges) lastPath.edges

variable {queue graph src dst weigher}
  {it : ShortestPathIterator E M}

variable [IsOrderedAddMonoid M]

/-- The path computed next is as cheap as any not returned yet; the paths found on the way wait
with those found before. -/
theorem computeNext_spec (queue : PriorityQueue E M) (hweights : PositiveWeights graph weigher)
    (h : IterInv graph src dst weigher it) {lastPath : Path E M}
    (hnext : it.next = .computed lastPath) :
    ∃ it' path found, getNext queue graph dst weigher it = .ok (it', path) ∧
      spurPaths graph dst weigher it.resultPaths [] lastPath.edges = .ok found ∧
      SpursOf graph weigher src dst (it.resultPaths.map Path.edges) [] lastPath.edges found ∧
      it'.next = .known path ∧ it'.resultPaths = it.resultPaths ∧
      (it.potentialPaths ++ found).Perm (path.toList ++ it'.potentialPaths) ∧
      IterInv graph src dst weigher it' := by
  simp only [IterInv, hnext] at h
  obtain ⟨hranked, hlast, hcovered⟩ := h
  obtain ⟨found, hok, hspurs, hadd, hall⟩ := hranked.spurPaths hweights hlast hcovered
  have hne : it.resultPaths ≠ [] := List.ne_nil_of_mem hlast
  by_cases hempty : it.potentialPaths ++ found = []
  · refine ⟨{ it with potentialPaths := it.potentialPaths ++ found, next := .known none }, none,
      found, ?_, hok, hspurs, rfl, rfl, by simp, ?_⟩
    · simp only [getNext, hnext, computeNext, hok, Except.map, hempty, queue.poll_nil]
    · rw [hempty] at hadd hall
      exact ⟨hadd, hempty, fun q hq => hadd.complete hall hne hq⟩
  · obtain ⟨path, rest, hpoll, hperm, hfirst⟩ := queue.poll_ne_nil _ hempty
    have hleast : ∀ Q ∈ it.potentialPaths ++ found, path.cost ≤ Q.cost := fun Q hQ =>
      cost_le_of_not_comesBefore (hfirst Q hQ)
    have hpath : path ∈ it.potentialPaths ++ found := hperm.mem_iff.mpr List.mem_cons_self
    refine ⟨{ it with potentialPaths := rest, next := .known (some path) }, some path, found, ?_,
      hok, hspurs, rfl, rfl, hperm, hadd.perm hperm, fun Q hQ => ?_, fun q hq hnot => ?_,
      fun _ r q hr hq => ?_⟩
    · simp only [getNext, hnext, computeNext, hok, Except.map, hpoll]
    · exact hleast Q (hperm.mem_iff.mpr (List.mem_cons_of_mem path hQ))
    · exact hadd.least hall hne hpath hleast hq hnot
    · obtain ⟨x, hx, hdev⟩ := hall r q hr hq
      exact ⟨x, (hperm.map Path.edges).mem_iff.mp hx, hdev⟩

theorem getNext_spec (queue : PriorityQueue E M) (hweights : PositiveWeights graph weigher)
    (h : IterInv graph src dst weigher it) :
    ∃ it' path, getNext queue graph dst weigher it = .ok (it', path) ∧ it'.next = .known path ∧
      it'.resultPaths = it.resultPaths ∧ IterInv graph src dst weigher it' := by
  cases hnext : it.next with
  | known path => exact ⟨it, path, by rw [getNext, hnext], hnext, rfl, h⟩
  | computed lastPath =>
    obtain ⟨it', path, _, hget, -, -, hknown, hresult, -, hinv⟩ :=
      computeNext_spec queue hweights h hnext
    exact ⟨it', path, hget, hknown, hresult, hinv⟩

section

omit [IsOrderedAddMonoid M] [DecidableEq V] [DecidableEq E]

theorem IterInv.ranked (h : IterInv graph src dst weigher it) :
    ∃ waiting, Ranked graph src dst weigher it.resultPaths waiting := by
  unfold IterInv at h
  split at h
  · exact ⟨_, h.1⟩
  · exact ⟨_, h.1⟩
  · exact ⟨_, h.1⟩

theorem IterInv.returned (h : IterInv graph src dst weigher it) {path : Path E M}
    (hnext : it.next = .known (some path)) : IterInv graph src dst weigher
      { it with resultPaths := it.resultPaths ++ [path], next := .computed path } := by
  simp only [IterInv, hnext] at h
  obtain ⟨hranked, hleast, houtside, hcovered⟩ := h
  refine ⟨hranked.take hleast houtside, List.mem_append_right _ (List.mem_singleton_self path), ?_⟩
  rw [List.map_append]
  by_cases hnil : it.resultPaths = []
  · intro r q hr hnot
    rw [hnil] at hr
    exact absurd hr hnot
  · exact (hcovered hnil).take (List.Perm.refl _)

end

section

omit [IsOrderedAddMonoid M]

theorem takePaths_succ_none {it' : ShortestPathIterator E M}
    (hget : getNext queue graph dst weigher it = .ok (it', none)) (n : ℕ) :
    takePaths queue graph dst weigher (n + 1) it = .ok (it', []) := by
  simp [takePaths, hasNext, hget, Except.map, Except.bind]

theorem takePaths_succ_some {it' : ShortestPathIterator E M} {path : Path E M}
    (hget : getNext queue graph dst weigher it = .ok (it', some path))
    (hknown : it'.next = .known (some path)) (n : ℕ) :
    takePaths queue graph dst weigher (n + 1) it = (takePaths queue graph dst weigher n
      { it' with resultPaths := it'.resultPaths ++ [path], next := .computed path }).map
        fun (last, paths) => (last, path :: paths) := by
  have hagain : getNext queue graph dst weigher it' = .ok (it', some path) := by
    rw [getNext, hknown]
  simp [takePaths, hasNext, nextPath, hget, hagain, Except.map, Except.bind]

theorem takePaths_succ_eq_ok {it₁ it' : ShortestPathIterator E M} {path : Path E M}
    {paths : List (Path E M)} (hget : getNext queue graph dst weigher it = .ok (it₁, some path))
    (hknown : it₁.next = .known (some path)) {n : ℕ}
    (htake : takePaths queue graph dst weigher (n + 1) it = .ok (it', paths)) :
    ∃ rest, paths = path :: rest ∧ takePaths queue graph dst weigher n
      { it₁ with resultPaths := it₁.resultPaths ++ [path], next := .computed path } =
        .ok (it', rest) := by
  rw [takePaths_succ_some hget hknown] at htake
  cases hrest : takePaths queue graph dst weigher n
      { it₁ with resultPaths := it₁.resultPaths ++ [path], next := .computed path } with
  | error e =>
    rw [hrest] at htake
    cases htake
  | ok result =>
    rw [hrest] at htake
    obtain ⟨rfl, rfl⟩ := Prod.mk.inj (Except.ok.inj htake)
    exact ⟨result.2, rfl, rfl⟩

end

theorem takePaths_spec (queue : PriorityQueue E M) (hweights : PositiveWeights graph weigher)
    (n : ℕ) (h : IterInv graph src dst weigher it) :
    ∃ it' paths, takePaths queue graph dst weigher n it = .ok (it', paths) ∧
      it'.resultPaths = it.resultPaths ++ paths ∧ IterInv graph src dst weigher it' ∧
      (paths.length < n → it'.next = .known none) ∧ paths.length ≤ n := by
  induction n generalizing it with
  | zero => exact ⟨it, [], rfl, (List.append_nil _).symm, h, by simp, le_rfl⟩
  | succ n ih =>
    obtain ⟨it₁, path, hget, hknown, hresult, hinv⟩ := getNext_spec queue hweights h
    cases path with
    | none =>
      exact ⟨it₁, [], takePaths_succ_none hget n, by rw [hresult, List.append_nil], hinv,
        fun _ => hknown, Nat.zero_le _⟩
    | some path =>
      obtain ⟨it', paths, htake, hresult', hinv', hend, hlen⟩ := ih (hinv.returned hknown)
      refine ⟨it', path :: paths, ?_, ?_, hinv', fun hlt => hend ?_, ?_⟩
      · rw [takePaths_succ_some hget hknown, htake]
        rfl
      · rw [hresult', hresult, List.append_assoc, List.singleton_append]
      · exact Nat.lt_of_succ_lt_succ hlt
      · exact Nat.succ_le_succ hlen

theorem shortestPathIterator_spec (hsrc : src ∈ graph.getVertexes)
    (hdst : dst ∈ graph.getVertexes) (hne : src ≠ dst)
    (hweights : PositiveWeights graph weigher) :
    ∃ it, shortestPathIterator graph src dst weigher = .ok it ∧ it.resultPaths = [] ∧
      it.potentialPaths = [] ∧ (∃ path, it.next = .known path) ∧
      IterInv graph src dst weigher it := by
  refine ⟨⟨[], [], .known (DijkstraGraphSearch.internalSearch graph src (some dst) weigher
    1).paths.head?⟩, ?_, rfl, rfl, ⟨_, rfl⟩, ?_⟩
  · rw [shortestPathIterator, DijkstraGraphSearch.search_eq hsrc hdst]
    rfl
  have hfirst := first_spec hweights hsrc hne
  unfold IterInv
  split at hfirst
  case h_1 hnone =>
    rw [hnone]
    exact ⟨⟨by simp, List.Pairwise.nil, by simp, by simp⟩, rfl, fun q hq => absurd hq (hfirst q)⟩
  case h_2 path hsome =>
    rw [hsome]
    exact ⟨hfirst.1, by simp, fun q hq _ => hfirst.2 q hq, fun hnil => absurd rfl hnil⟩

/-- The stream lists simple paths in the order of their costs and leaves no cheaper one out; it
ends when all have been listed. -/
theorem stream_in_cost_order (queue : PriorityQueue E M) (hsrc : src ∈ graph.getVertexes)
    (hdst : dst ∈ graph.getVertexes) (hne : src ≠ dst)
    (hweights : PositiveWeights graph weigher) (n : ℕ) :
    ∃ it paths, lazyPathSearch queue graph src dst weigher n = .ok (it, paths) ∧
      paths.length ≤ n ∧
      (∀ P ∈ paths, IsSimplePath graph src P.edges dst ∧ P.cost = weigher.totalCost P.edges) ∧
      paths.Pairwise (fun P Q => P.cost ≤ Q.cost) ∧
      (∀ q, IsSimplePath graph src q dst → q ∉ paths.map Path.edges →
        ∀ P ∈ paths, P.cost ≤ weigher.totalCost q) ∧
      (paths.length < n → ∀ q, IsSimplePath graph src q dst → q ∈ paths.map Path.edges) := by
  obtain ⟨start, hstart, hnil, -, -, hinv⟩ := shortestPathIterator_spec hsrc hdst hne hweights
  obtain ⟨it, paths, htake, hresult, hinv', hend, hlen⟩ := takePaths_spec queue hweights n hinv
  rw [hnil, List.nil_append] at hresult
  obtain ⟨waiting, hranked⟩ := hinv'.ranked
  rw [hresult] at hranked
  refine ⟨it, paths, ?_, hlen, fun P hP => ?_, hranked.sorted, fun q hq hnot P hP => ?_,
    fun hlt q hq => ?_⟩
  · rw [lazyPathSearch, hstart]
    exact htake
  · exact hranked.simple P (List.mem_append_left _ hP)
  · exact hranked.outside P hP q hq hnot
  · have hnone := hend hlt
    simp only [IterInv, hnone] at hinv'
    exact hresult ▸ hinv'.2.2 q hq

theorem stream_in_cost_order_twoByTwo :
    ∃ it paths, lazyPathSearch (leastFirst TestEdge ℤ) twoByTwo 0 3 testWeigher 5 =
        .ok (it, paths) ∧ paths.length ≤ 5 ∧
      (∀ P ∈ paths, IsSimplePath twoByTwo 0 P.edges 3 ∧ P.cost = testWeigher.totalCost P.edges) ∧
      paths.Pairwise (fun P Q => P.cost ≤ Q.cost) ∧
      (∀ q, IsSimplePath twoByTwo 0 q 3 → q ∉ paths.map Path.edges →
        ∀ P ∈ paths, P.cost ≤ testWeigher.totalCost q) ∧
      (paths.length < 5 → ∀ q, IsSimplePath twoByTwo 0 q 3 → q ∈ paths.map Path.edges) :=
  stream_in_cost_order (leastFirst TestEdge ℤ) (by decide) (by decide) (by decide)
    (positiveWeights_test (by decide)) 5

end Order

section Distinct

variable {queue : PriorityQueue E M} {graph : DirectedGraph V E} {src dst : V}
  {weigher : EdgeWeigher E M} {it : ShortestPathIterator E M}

def FindsWaiting (graph : DirectedGraph V E) (dst : V) (weigher : EdgeWeigher E M)
    (it : ShortestPathIterator E M) : Prop :=
  ∃ lastPath found, it.next = .computed lastPath ∧
    spurPaths graph dst weigher it.resultPaths [] lastPath.edges = .ok found ∧
    ∃ x ∈ found, x ∈ it.potentialPaths

def held (it : ShortestPathIterator E M) : List (Path E M) :=
  it.resultPaths ++ ((match it.next with
    | .known path => path.toList
    | .computed _ => []) ++ it.potentialPaths)

section

omit [DecidableEq E] [AddCommGroup M] [LinearOrder M]

theorem held_known {path : Option (Path E M)} (hnext : it.next = .known path) :
    held it = it.resultPaths ++ (path.toList ++ it.potentialPaths) := by
  rw [held, hnext]

theorem held_computed {lastPath : Path E M} (hnext : it.next = .computed lastPath) :
    held it = it.resultPaths ++ it.potentialPaths := by
  rw [held, hnext]
  rfl

theorem held_returned {path : Path E M} (hnext : it.next = .known (some path)) :
    held { it with resultPaths := it.resultPaths ++ [path], next := .computed path } =
      held it := by
  rw [held_known hnext, held_computed rfl]
  simp

end

variable [IsOrderedAddMonoid M]

section

variable (hweights : PositiveWeights graph weigher)

include hweights

section

variable (h : IterInv graph src dst weigher it)

include h

theorem held_getNext {it' : ShortestPathIterator E M}
    {path : Option (Path E M)} (hget : getNext queue graph dst weigher it = .ok (it', path)) :
    ∃ found, (held it').Perm (held it ++ found) ∧
      (∀ lastPath, it.next = .computed lastPath →
        spurPaths graph dst weigher it.resultPaths [] lastPath.edges = .ok found) ∧
      (¬ FindsWaiting graph dst weigher it → ((held it).map Path.edges).Nodup →
        ((held it').map Path.edges).Nodup) := by
  cases hnext : it.next with
  | known path' =>
    rw [getNext, hnext] at hget
    obtain ⟨rfl, -⟩ := Prod.mk.inj (Except.ok.inj hget)
    exact ⟨[], by simp, by simp, fun _ hnodup => hnodup⟩
  | computed lastPath =>
    obtain ⟨it₁, path₁, found, hget₁, hok, hspurs, hknown, hresult, hperm, hinv⟩ :=
      computeNext_spec queue hweights h hnext
    obtain ⟨rfl, rfl⟩ := Prod.mk.inj (Except.ok.inj (hget₁.symm.trans hget))
    have hheld : (held it₁).Perm (held it ++ found) := by
      rw [held_known hknown, held_computed hnext, hresult, List.append_assoc]
      exact hperm.symm.append_left _
    refine ⟨found, hheld, fun last hlast => ?_, fun hnew hnodup => ?_⟩
    · obtain rfl := Next.computed.inj hlast
      exact hok
    · rw [(hheld.map Path.edges).nodup_iff, List.map_append, List.nodup_append]
      refine ⟨hnodup, hspurs.nodup, ?_⟩
      rintro p hp q hq rfl
      obtain ⟨P, hP, rfl⟩ := List.mem_map.mp hp
      obtain ⟨x, hx, hxP⟩ := List.mem_map.mp hq
      rw [held_computed hnext] at hP
      simp only [IterInv, hnext] at h
      rcases List.mem_append.mp hP with hP | hP
      · obtain ⟨r, e, a, -, hdev⟩ := hspurs.part x hx
        exact hdev.not_mem (hxP ▸ List.mem_map_of_mem hP)
      · have hcost : x.cost = P.cost := by
          rw [hspurs.costs x hx, hxP, (h.1.simple P (List.mem_append_right _ hP)).2]
        have heq : x = P := by
          cases x
          cases P
          simp_all
        exact hnew ⟨lastPath, found, hnext, hok, x, hx, heq ▸ hP⟩

theorem takePaths_add {n m : ℕ} {it₁ it₂ : ShortestPathIterator E M} {paths more : List (Path E M)}
    (hfirst : takePaths queue graph dst weigher n it = .ok (it₁, paths))
    (hsecond : takePaths queue graph dst weigher m it₁ = .ok (it₂, more)) :
    takePaths queue graph dst weigher (n + m) it = .ok (it₂, paths ++ more) := by
  induction n generalizing it paths with
  | zero =>
    obtain ⟨rfl, rfl⟩ := Prod.mk.inj (Except.ok.inj hfirst)
    rwa [Nat.zero_add]
  | succ n ih =>
    obtain ⟨it', path, hget, hknown, -, hinv⟩ := getNext_spec queue hweights h
    rw [Nat.succ_add]
    cases path with
    | none =>
      rw [takePaths_succ_none hget] at hfirst ⊢
      obtain ⟨rfl, rfl⟩ := Prod.mk.inj (Except.ok.inj hfirst)
      cases m with
      | zero =>
        obtain ⟨rfl, rfl⟩ := Prod.mk.inj (Except.ok.inj hsecond)
        rfl
      | succ m =>
        have hagain : getNext queue graph dst weigher it' = .ok (it', none) := by
          rw [getNext, hknown]
        rw [takePaths_succ_none hagain] at hsecond
        obtain ⟨rfl, rfl⟩ := Prod.mk.inj (Except.ok.inj hsecond)
        rfl
    | some path =>
      obtain ⟨rest, rfl, htake⟩ := takePaths_succ_eq_ok hget hknown hfirst
      rw [takePaths_succ_some hget hknown, ih (hinv.returned hknown) htake]
      rfl

theorem held_takePaths {n : ℕ} {it' : ShortestPathIterator E M}
    {paths : List (Path E M)} (htake : takePaths queue graph dst weigher n it = .ok (it', paths)) :
    (held it).Subperm (held it') ∧ (0 < n → ∀ lastPath found, it.next = .computed lastPath →
      spurPaths graph dst weigher it.resultPaths [] lastPath.edges = .ok found →
      (held it ++ found).Subperm (held it')) := by
  induction n generalizing it paths with
  | zero =>
    obtain ⟨rfl, rfl⟩ := Prod.mk.inj (Except.ok.inj htake)
    exact ⟨List.Subperm.refl _, fun hlt => absurd hlt (lt_irrefl 0)⟩
  | succ n ih =>
    obtain ⟨it₁, path, hget, hknown, -, hinv⟩ := getNext_spec queue hweights h
    obtain ⟨found, hheld, hfound, -⟩ := held_getNext hweights h hget
    have hafter : (held it₁).Subperm (held it') := by
      cases path with
      | none =>
        rw [takePaths_succ_none hget] at htake
        obtain ⟨rfl, rfl⟩ := Prod.mk.inj (Except.ok.inj htake)
        exact List.Subperm.refl _
      | some path =>
        obtain ⟨rest, rfl, hrest⟩ := takePaths_succ_eq_ok hget hknown htake
        have hstep := (ih (hinv.returned hknown) hrest).1
        rwa [held_returned hknown] at hstep
    have hall := (hheld.symm.subperm.trans hafter)
    refine ⟨(List.sublist_append_left _ found).subperm.trans hall, ?_⟩
    intro _ last found' hlast hok
    obtain rfl := Except.ok.inj ((hfound last hlast).symm.trans hok)
    exact hall

theorem nodup_takePaths {n : ℕ} (hnodup : ((held it).map Path.edges).Nodup)
    (hnew : ∀ m it' paths, takePaths queue graph dst weigher m it = .ok (it', paths) →
      ¬ FindsWaiting graph dst weigher it')
    {it' : ShortestPathIterator E M} {paths : List (Path E M)}
    (htake : takePaths queue graph dst weigher n it = .ok (it', paths)) :
    ((held it').map Path.edges).Nodup := by
  induction n generalizing it paths with
  | zero =>
    obtain ⟨rfl, rfl⟩ := Prod.mk.inj (Except.ok.inj htake)
    exact hnodup
  | succ n ih =>
    obtain ⟨it₁, path, hget, hknown, -, hinv⟩ := getNext_spec queue hweights h
    obtain ⟨found, -, -, hkeep⟩ := held_getNext hweights h hget
    have hnodup₁ := hkeep (hnew 0 it [] rfl) hnodup
    cases path with
    | none =>
      rw [takePaths_succ_none hget] at htake
      obtain ⟨rfl, rfl⟩ := Prod.mk.inj (Except.ok.inj htake)
      exact hnodup₁
    | some path =>
      obtain ⟨rest, rfl, hrest⟩ := takePaths_succ_eq_ok hget hknown htake
      refine ih (hinv.returned hknown) (by rwa [held_returned hknown]) (fun m it₂ more hm => ?_)
        hrest
      refine hnew (m + 1) it₂ (path :: more) ?_
      rw [takePaths_succ_some hget hknown, hm]
      rfl

end

end

variable (queue) in
theorem exists_held_takePaths (hweights : PositiveWeights graph weigher)
    (h : IterInv graph src dst weigher it) (hnil : it.resultPaths = []) :
    ∃ bound, ∀ n it' paths, bound < n →
      takePaths queue graph dst weigher n it = .ok (it', paths) → (paths.map Path.edges).Nodup →
      held it' = paths := by
  obtain ⟨bound, hbound⟩ := exists_simple_bound graph src dst
  refine ⟨bound, fun n it' paths hlt htake hnodup => ?_⟩
  obtain ⟨it'', paths', htake', hres, hinv, hend, -⟩ := takePaths_spec queue hweights n h
  obtain ⟨rfl, rfl⟩ := Prod.mk.inj (Except.ok.inj (htake'.symm.trans htake))
  rw [hnil, List.nil_append] at hres
  obtain ⟨waiting, hranked⟩ := hinv.ranked
  have hsimple : ∀ p ∈ paths'.map Path.edges, IsSimplePath graph src p dst := by
    intro p hp
    obtain ⟨P, hP, rfl⟩ := List.mem_map.mp hp
    rw [← hres] at hP
    exact (hranked.simple P (List.mem_append_left _ hP)).1
  have hlen := hbound _ hnodup hsimple
  rw [List.length_map] at hlen
  have hknown := hend (by omega)
  simp only [IterInv, hknown] at hinv
  rw [held_known hknown, hinv.2.1, hres]
  simp

/-- All paths of the stream are different if and only if no search finds a path that waits
already. -/
theorem stream_distinct_iff (queue : PriorityQueue E M) (hsrc : src ∈ graph.getVertexes)
    (hdst : dst ∈ graph.getVertexes) (hne : src ≠ dst)
    (hweights : PositiveWeights graph weigher) :
    (∀ n it paths, lazyPathSearch queue graph src dst weigher n = .ok (it, paths) →
      (paths.map Path.edges).Nodup) ↔
    ∀ n it paths, lazyPathSearch queue graph src dst weigher n = .ok (it, paths) →
      ¬ FindsWaiting graph dst weigher it := by
  obtain ⟨start, hstart, hnil, hempty, ⟨first, hnext⟩, hinv⟩ :=
    shortestPathIterator_spec hsrc hdst hne hweights
  have hrun : ∀ n, lazyPathSearch queue graph src dst weigher n =
      takePaths queue graph dst weigher n start := fun n => by rw [lazyPathSearch, hstart]; rfl
  have hresult : ∀ n it paths, takePaths queue graph dst weigher n start = .ok (it, paths) →
      it.resultPaths = paths ∧ IterInv graph src dst weigher it := by
    intro n it paths htake
    obtain ⟨it', paths', htake', hres, hinv', -, -⟩ := takePaths_spec queue hweights n hinv
    obtain ⟨rfl, rfl⟩ := Prod.mk.inj (Except.ok.inj (htake'.symm.trans htake))
    exact ⟨by rw [hres, hnil, List.nil_append], hinv'⟩
  simp only [hrun]
  constructor
  · rintro hdistinct n it paths htake ⟨lastPath, found, hlast, hok, x, hx, hwaits⟩
    obtain ⟨bound, hbound⟩ := exists_held_takePaths queue hweights hinv hnil
    obtain ⟨hres, hinv'⟩ := hresult n it paths htake
    -- by then the stream has ended, and all that was held has been returned
    obtain ⟨it', more, hmore, -⟩ := takePaths_spec queue hweights (bound + 1) hinv'
    have hall := takePaths_add hweights hinv htake hmore
    have hnodup := hdistinct _ _ _ hall
    have hheld : held it' = paths ++ more := hbound _ _ _ (by omega) hall hnodup
    have htwice : [x, x].Subperm (paths ++ more) := by
      rw [← hheld]
      refine List.Subperm.trans ?_
        ((held_takePaths hweights hinv' hmore).2 (Nat.succ_pos _) lastPath found hlast hok)
      have hin : x ∈ held it := by
        rw [held_computed hlast]
        exact List.mem_append_right _ hwaits
      exact (List.singleton_subperm_iff.mpr hin).append (List.singleton_subperm_iff.mpr hx)
    obtain ⟨l, hperm, hsub⟩ := htwice
    have htwo := hperm.nodup_iff.mp ((List.Nodup.of_map Path.edges hnodup).sublist hsub)
    exact absurd htwo (by simp)
  · intro hnew n it paths htake
    have hheld : ((held start).map Path.edges).Nodup := by
      rw [held_known hnext, hnil, hempty]
      cases first <;> simp
    have hnodup := nodup_takePaths hweights hinv hheld hnew htake
    rw [held, List.map_append, (hresult n it paths htake).1] at hnodup
    exact (List.nodup_append.mp hnodup).1

theorem stream_distinct_iff_diamond :
    (∀ n it paths, lazyPathSearch (leastFirst TestEdge ℤ) DijkstraGraphSearch.diamond 0 3
      testWeigher n = .ok (it, paths) → (paths.map Path.edges).Nodup) ↔
    ∀ n it paths, lazyPathSearch (leastFirst TestEdge ℤ) DijkstraGraphSearch.diamond 0 3
      testWeigher n = .ok (it, paths) →
        ¬ FindsWaiting DijkstraGraphSearch.diamond 3 testWeigher it :=
  stream_distinct_iff (leastFirst TestEdge ℤ) (by decide) (by decide) (by decide)
    (positiveWeights_test (by decide))

omit [DecidableEq V] [DecidableEq E] [IsOrderedAddMonoid M] [AddCommGroup M] [LinearOrder M] in
theorem twice_of_edges {result : Except String (ShortestPathIterator E M × List (Path E M))}
    (edges : List (List E)) (h : result.map (fun r => r.2.map Path.edges) = .ok edges)
    (htwice : ¬ edges.Nodup) : ∃ it paths, result = .ok (it, paths) ∧
      ¬ (paths.map Path.edges).Nodup := by
  cases result with
  | error e => cases h
  | ok r =>
    obtain rfl := Except.ok.inj h
    exact ⟨r.1, r.2, rfl, htwice⟩

/-- The way over 2 is found again when the second way over 1 is returned, and is then returned
twice. -/
theorem path_returned_twice : ∃ it paths,
    lazyPathSearch (leastFirst TestEdge ℤ) twoByTwo 0 3 testWeigher 4 = .ok (it, paths) ∧
      ¬ (paths.map Path.edges).Nodup :=
  twice_of_edges [[⟨0, 1, 1⟩, ⟨1, 3, 1⟩], [⟨0, 1, 1⟩, ⟨1, 3, 2⟩],
    [⟨0, 2, 5⟩, ⟨2, 3, 5⟩], [⟨0, 2, 5⟩, ⟨2, 3, 5⟩]] (by decide) (by decide)

end Distinct

end LazyKShortestPathsSearch

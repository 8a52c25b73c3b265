import Onos.DagTaskQueue
import Mathlib.Data.Fintype.Card

/-! The routes of the scheduler: Dijkstra's search over the links with room, the way back along the
predecessors, and what is reserved on it. The search does not stop at nodes it cannot reach: it
goes on from one of them as if it were the start, and its predecessor is the default, node 0. -/
namespace DagRoutes

open DagTaskQueue (N Node Failure)

def MAX_VALUE : ℕ := 2147483647

abbrev Matrix := Node → Node → ℕ

def readLink (topology : List (Node × Node)) : Matrix := fun i j =>
  if topology.any fun link => link.1 == i && link.2 == j || link.1 == j && link.2 == i then 1 else 0

structure Search where
  visited : Node → Bool
  weights : Node → ℕ
  prevs : Node → Option Node

variable (matrix : Matrix) (room : Node → Node → Bool)

def newWeight (weights : Node → ℕ) (fromNode i : Node) : ℕ :=
  if weights fromNode = MAX_VALUE then matrix fromNode i
  else weights fromNode + matrix fromNode i

def visit (s : Search) (fromNode i : Node) : Bool := decide (i = fromNode) || s.visited i

/-- The neighbour is not visited, the link to it has room, and the way over it is shorter. -/
def better (s : Search) (fromNode i : Node) : Bool :=
  !visit s fromNode i && decide (0 < matrix fromNode i) &&
    decide (newWeight matrix s.weights fromNode i < s.weights i) && room fromNode i

/-- The node is visited and its neighbours are looked at; none of them depends on another. -/
def relax (s : Search) (fromNode : Node) : Search where
  visited := visit s fromNode
  weights i := if better matrix room s fromNode i then newWeight matrix s.weights fromNode i
    else s.weights i
  prevs i := if better matrix room s fromNode i then some fromNode else s.prevs i

def isAllVisited (s : Search) : Bool := (List.finRange N).all s.visited

def indexOfMin (s : Search) : Node :=
  match (List.finRange N).filter fun i => !s.visited i with
  | [] => 0
  | first :: remain => remain.foldl (fun minIndex j =>
    if s.weights j < s.weights minIndex then j else minIndex) first

def rounds : ℕ → Search → Node → Search
  | 0, s, _ => s
  | n + 1, s, fromNode =>
    if isAllVisited s then s
    else rounds n (relax matrix room s fromNode) (indexOfMin (relax matrix room s fromNode))

def dijkstra (index : Node) : Search :=
  rounds matrix room N
    ⟨fun _ => false, fun _ => MAX_VALUE, fun i => if i = index then none else some 0⟩ index

def follow (prevs : Node → Option Node) : ℕ → Node → Except Failure (List Node)
  | 0, _ => .error .endless
  | fuel + 1, prev => match prevs prev with
    | none => .ok []
    | some next => (follow prevs fuel next).map (prev :: ·)

def allPrevs (prevs : Node → Option Node) (index : Node) : Except Failure (List Node) :=
  match prevs index with
  | none => .error (.exception "ArrayIndexOutOfBoundsException")
  | some prev => (follow prevs (N + 1) prev).map List.reverse

def reserve (slice : Matrix) (a b : Node) (trans : ℕ) : Matrix := fun i j =>
  slice i j + (if i = a ∧ j = b then trans else 0) + if i = b ∧ j = a then trans else 0

def reserveAll (prevs : Node → Option Node) (trans : ℕ) :
    ℕ → Node → Matrix → Except Failure Matrix
  | 0, _, _ => .error .endless
  | fuel + 1, prev, slice => match prevs prev with
    | none => .ok slice
    | some next => reserveAll prevs trans fuel next (reserve slice next prev trans)

section Searching

variable {matrix : Matrix} {room : Node → Node → Bool} {index : Node}

def Usable (matrix : Matrix) (room : Node → Node → Bool) (a b : Node) : Prop :=
  0 < matrix a b ∧ room a b = true

def Reaches (matrix : Matrix) (room : Node → Node → Bool) : Node → Node → Prop :=
  Relation.ReflTransGen (Usable matrix room)

def Preceded (matrix : Matrix) (room : Node → Node → Bool) (index : Node) (s : Search) (y : Node) :
    Prop :=
  ∃ p, s.prevs y = some p ∧ Usable matrix room p y ∧ Reaches matrix room index p

structure Searched (matrix : Matrix) (room : Node → Node → Bool) (index : Node) (s : Search) :
    Prop where
  start : ∀ y, s.prevs y = none ↔ y = index
  preceded : ∀ y, Reaches matrix room index y → y ≠ index → Preceded matrix room index s y

structure Growing (matrix : Matrix) (room : Node → Node → Bool) (index : Node) (s : Search)
    (fromNode : Node) : Prop where
  found : ∀ y, s.visited y ∨ y = fromNode → y = index ∨ s.weights y ≠ MAX_VALUE
  preceded : ∀ y, s.weights y ≠ MAX_VALUE → Preceded matrix room index s y
  closed : ∀ p y, s.visited p → Usable matrix room p y → s.visited y ∨ s.weights y ≠ MAX_VALUE
  first : s.visited index ∨ index = fromNode

def Finished (matrix : Matrix) (room : Node → Node → Bool) (index : Node) (s : Search) : Prop :=
  ∀ y, Reaches matrix room index y →
    s.visited y ∧ (y ≠ index → Preceded matrix room index s y)

structure SearchInv (matrix : Matrix) (room : Node → Node → Bool) (index : Node) (k : ℕ)
    (s : Search) (fromNode : Node) : Prop where
  start : ∀ y, s.prevs y = none ↔ y = index
  bound : ∀ y, s.weights y = MAX_VALUE ∨ s.weights y ≤ k
  phase : Growing matrix room index s fromNode ∨ Finished matrix room index s

variable {s : Search} {fromNode : Node} {k : ℕ}

theorem visited_relax {y : Node} :
    (relax matrix room s fromNode).visited y = true ↔ y = fromNode ∨ s.visited y = true := by
  simp [relax, visit]

theorem better_iff {y : Node} : better matrix room s fromNode y = true ↔
    (y ≠ fromNode ∧ s.visited y = false) ∧ Usable matrix room fromNode y ∧
      newWeight matrix s.weights fromNode y < s.weights y := by
  unfold better visit Usable
  simp only [Bool.and_eq_true, Bool.not_eq_true', Bool.or_eq_false_iff, decide_eq_false_iff_not,
    decide_eq_true_eq, ne_eq]
  tauto

theorem relax_cases (matrix : Matrix) (room : Node → Node → Bool) (s : Search) (fromNode y : Node) :
    ((y ≠ fromNode ∧ s.visited y = false) ∧ Usable matrix room fromNode y ∧
      newWeight matrix s.weights fromNode y < s.weights y ∧
      (relax matrix room s fromNode).weights y = newWeight matrix s.weights fromNode y ∧
      (relax matrix room s fromNode).prevs y = some fromNode) ∨
    ((y ≠ fromNode → s.visited y = false → Usable matrix room fromNode y →
        s.weights y ≤ newWeight matrix s.weights fromNode y) ∧
      (relax matrix room s fromNode).weights y = s.weights y ∧
      (relax matrix room s fromNode).prevs y = s.prevs y) := by
  by_cases hbetter : better matrix room s fromNode y = true
  · obtain ⟨hnew, husable, hlt⟩ := better_iff.mp hbetter
    exact .inl ⟨hnew, husable, hlt, if_pos hbetter, if_pos hbetter⟩
  · refine .inr ⟨fun hne hnew husable => ?_, if_neg hbetter, if_neg hbetter⟩
    by_contra hle
    exact hbetter (better_iff.mpr ⟨⟨hne, hnew⟩, husable, not_le.mp hle⟩)

section Least

theorem foldl_min {α : Type*} [LinearOrder α] (weights : Node → α) (nodes : List Node) (minIndex : Node) :
    nodes.foldl (fun minIndex j => if weights j < weights minIndex then j else minIndex) minIndex ∈
        minIndex :: nodes ∧
      ∀ y ∈ minIndex :: nodes, weights (nodes.foldl (fun minIndex j =>
        if weights j < weights minIndex then j else minIndex) minIndex) ≤ weights y := by
  induction nodes generalizing minIndex with
  | nil => simp
  | cons j nodes ih =>
    rw [List.foldl_cons]
    split_ifs with hlt
    · obtain ⟨hmem, hle⟩ := ih j
      rw [List.forall_mem_cons] at hle
      refine ⟨List.mem_cons_of_mem _ hmem, ?_⟩
      simp only [List.forall_mem_cons]
      exact ⟨hle.1.trans hlt.le, hle⟩
    · obtain ⟨hmem, hle⟩ := ih minIndex
      rw [List.forall_mem_cons] at hle
      refine ⟨?_, ?_⟩
      · rcases List.mem_cons.mp hmem with heq | hmem
        · rw [heq]
          exact List.mem_cons_self
        · exact List.mem_cons_of_mem _ (List.mem_cons_of_mem _ hmem)
      · simp only [List.forall_mem_cons]
        exact ⟨hle.1, hle.1.trans (not_lt.mp hlt), hle.2⟩

theorem indexOfMin_spec {y : Node} (hy : s.visited y = false) : s.visited (indexOfMin s) = false ∧
      ∀ x, s.visited x = false → s.weights (indexOfMin s) ≤ s.weights x := by
  have hmem : ∀ x, x ∈ (List.finRange N).filter (fun i => !s.visited i) ↔ s.visited x = false := by
    intro x
    simp [List.mem_filter]
  rw [indexOfMin]
  cases hfilter : (List.finRange N).filter fun i => !s.visited i with
  | nil =>
    have hnil := (hmem y).mpr hy
    rw [hfilter] at hnil
    exact absurd hnil List.not_mem_nil
  | cons first remain =>
    rw [hfilter] at hmem
    obtain ⟨hin, hle⟩ := foldl_min s.weights remain first
    exact ⟨(hmem _).mp hin, fun x hx => hle x ((hmem x).mpr hx)⟩

end Least

section

variable (h : Growing matrix room index s fromNode)

include h

theorem Growing.reaches {y : Node}
    (hy : s.visited y ∨ y = fromNode) : Reaches matrix room index y := by
  rcases h.found y hy with rfl | hweight
  · exact .refl
  · obtain ⟨p, -, husable, hp⟩ := h.preceded y hweight
    exact hp.tail husable

theorem Growing.visited_index : (relax matrix room s fromNode).visited index := by
  rw [visited_relax]
  exact h.first.symm

theorem Growing.preceded_relax {y : Node}
    (hy : (relax matrix room s fromNode).weights y ≠ MAX_VALUE) :
    Preceded matrix room index (relax matrix room s fromNode) y := by
  rcases relax_cases matrix room s fromNode y with
    ⟨-, husable, -, -, hprevs⟩ | ⟨-, hweights, hprevs⟩
  · exact ⟨fromNode, hprevs, husable, h.reaches (.inr rfl)⟩
  · rw [hweights] at hy
    obtain ⟨p, hp, hrest⟩ := h.preceded y hy
    exact ⟨p, hprevs.trans hp, hrest⟩

end

theorem weights_relax_ne {y : Node} (hy : s.weights y ≠ MAX_VALUE)
    (hbound : s.weights y = MAX_VALUE ∨ s.weights y ≤ k) (hk : k < MAX_VALUE) :
    (relax matrix room s fromNode).weights y ≠ MAX_VALUE := by
  have hle := hbound.resolve_left hy
  rcases relax_cases matrix room s fromNode y with
    ⟨-, -, hlt, hweights, -⟩ | ⟨-, hweights, -⟩
  · rw [hweights]
    omega
  · rw [hweights]
    exact hy

theorem newWeight_le (hlinks : ∀ a b, matrix a b ≤ 1) {y : Node}
    (hbound : s.weights fromNode = MAX_VALUE ∨ s.weights fromNode ≤ k) :
    newWeight matrix s.weights fromNode y ≤ k + 1 := by
  have hlink := hlinks fromNode y
  rw [newWeight]
  split_ifs with hmax
  · omega
  · have hle := hbound.resolve_left hmax
    omega

theorem Growing.closed_relax (h : Growing matrix room index s fromNode)
    (hlinks : ∀ a b, matrix a b ≤ 1) (hbound : ∀ y, s.weights y = MAX_VALUE ∨ s.weights y ≤ k)
    (hk : k + 1 < MAX_VALUE) {p y : Node} (hp : (relax matrix room s fromNode).visited p)
    (husable : Usable matrix room p y) : (relax matrix room s fromNode).visited y ∨
      (relax matrix room s fromNode).weights y ≠ MAX_VALUE := by
  rw [visited_relax] at hp ⊢
  by_cases hy : y = fromNode ∨ s.visited y = true
  · exact .inl hy
  · right
    rw [not_or, Bool.not_eq_true] at hy
    rcases hp with rfl | hp
    · rcases relax_cases matrix room s p y with
        ⟨-, -, -, hweights, -⟩ | ⟨hle, hweights, -⟩
      · rw [hweights]
        have hnew := newWeight_le hlinks (y := y) (hbound p)
        omega
      · have hnew := newWeight_le hlinks (y := y) (hbound p)
        have hweight := hle hy.1 hy.2 husable
        rw [hweights]
        omega
    · refine weights_relax_ne ?_ (hbound y) (by omega)
      refine (h.closed p y hp husable).resolve_left ?_
      rw [hy.2]
      exact Bool.false_ne_true

theorem Finished.relax (h : Finished matrix room index s) :
    Finished matrix room index (relax matrix room s fromNode) := by
  intro y hy
  obtain ⟨hvisited, hpreceded⟩ := h y hy
  refine ⟨visited_relax.mpr (.inr hvisited), fun hne => ?_⟩
  rcases relax_cases matrix room s fromNode y with
    ⟨⟨-, hnew⟩, -⟩ | ⟨-, -, hprevs⟩
  · rw [hvisited] at hnew
    cases hnew
  · obtain ⟨p, hp, hrest⟩ := hpreceded hne
    exact ⟨p, hprevs.trans hp, hrest⟩

theorem finished_of_closed (hindex : s.visited index)
    (hfound : ∀ y, s.visited y → y = index ∨ s.weights y ≠ MAX_VALUE)
    (hpreceded : ∀ y, s.weights y ≠ MAX_VALUE → Preceded matrix room index s y)
    (hclosed : ∀ p y, s.visited p → Usable matrix room p y →
      s.visited y ∨ s.weights y ≠ MAX_VALUE)
    (hnone : ∀ y, s.visited y = false → s.weights y = MAX_VALUE) :
    Finished matrix room index s := by
  intro y hy
  have hvisited : s.visited y = true := by
    induction hy with
    | refl => exact hindex
    | tail _ husable ih =>
      rcases hclosed _ _ ih husable with hnext | hnext
      · exact hnext
      · by_contra hnot
        exact hnext (hnone _ (Bool.not_eq_true _ ▸ hnot))
  exact ⟨hvisited, fun hne => hpreceded y ((hfound y hvisited).resolve_left hne)⟩

theorem Growing.relax (h : Growing matrix room index s fromNode) (hlinks : ∀ a b, matrix a b ≤ 1)
    (hbound : ∀ y, s.weights y = MAX_VALUE ∨ s.weights y ≤ k) (hk : k + 1 < MAX_VALUE)
    (hbound' : ∀ y, (relax matrix room s fromNode).weights y = MAX_VALUE ∨
      (relax matrix room s fromNode).weights y ≤ k + 1) :
    Growing matrix room index (relax matrix room s fromNode)
        (indexOfMin (relax matrix room s fromNode)) ∨
      Finished matrix room index (relax matrix room s fromNode) := by
  have hfound : ∀ y, (DagRoutes.relax matrix room s fromNode).visited y → y = index ∨
      (DagRoutes.relax matrix room s fromNode).weights y ≠ MAX_VALUE := by
    intro y hy
    rw [visited_relax] at hy
    exact (h.found y hy.symm).imp_right fun hne => weights_relax_ne hne (hbound y) (by omega)
  have hclosed := fun p y => h.closed_relax hlinks hbound hk (p := p) (y := y)
  by_cases hnone : ∀ y, (DagRoutes.relax matrix room s fromNode).visited y = false →
      (DagRoutes.relax matrix room s fromNode).weights y = MAX_VALUE
  · exact .inr (finished_of_closed h.visited_index hfound (fun y => h.preceded_relax) hclosed hnone)
  · left
    obtain ⟨x, hx, hweight⟩ : ∃ x, (DagRoutes.relax matrix room s fromNode).visited x = false ∧
        (DagRoutes.relax matrix room s fromNode).weights x ≠ MAX_VALUE := by
      simpa using hnone
    have hle := (indexOfMin_spec hx).2 x hx
    have hlt := (hbound' x).resolve_left hweight
    refine ⟨fun y hy => ?_, fun y => h.preceded_relax, hclosed, .inl h.visited_index⟩
    rcases hy with hy | rfl
    · exact hfound y hy
    · right
      omega

theorem SearchInv.step (h : SearchInv matrix room index k s fromNode)
    (hlinks : ∀ a b, matrix a b ≤ 1) (hk : k + 1 < MAX_VALUE) :
    SearchInv matrix room index (k + 1) (relax matrix room s fromNode)
      (indexOfMin (relax matrix room s fromNode)) := by
  have hindex : s.visited index ∨ index = fromNode := by
    rcases h.phase with hgrowing | hfinished
    · exact hgrowing.first
    · exact .inl (hfinished index .refl).1
  have hbound : ∀ y, (relax matrix room s fromNode).weights y = MAX_VALUE ∨
      (relax matrix room s fromNode).weights y ≤ k + 1 := by
    intro y
    rcases relax_cases matrix room s fromNode y with
      ⟨-, -, -, hweights, -⟩ | ⟨-, hweights, -⟩
    · rw [hweights]
      exact .inr (newWeight_le hlinks (h.bound fromNode))
    · rw [hweights]
      exact (h.bound y).imp_right fun hle => by omega
  refine ⟨fun y => ?_, hbound, ?_⟩
  · rcases relax_cases matrix room s fromNode y with
      ⟨⟨hne, hnew⟩, -, -, -, hprevs⟩ | ⟨-, -, hprevs⟩
    · rw [hprevs]
      refine iff_of_false (Option.some_ne_none _) ?_
      rintro rfl
      rcases hindex with hvisited | heq
      · rw [hvisited] at hnew
        cases hnew
      · exact hne heq
    · rw [hprevs]
      exact h.start y
  · rcases h.phase with hgrowing | hfinished
    · exact hgrowing.relax hlinks h.bound hk hbound
    · exact .inr hfinished.relax

theorem SearchInv.searched (h : SearchInv matrix room index k s fromNode)
    (hall : ∀ y, s.visited y = true) : Searched matrix room index s := by
  refine ⟨h.start, fun y hy hne => ?_⟩
  rcases h.phase with hgrowing | hfinished
  · exact hgrowing.preceded y ((hgrowing.found y (.inl (hall y))).resolve_left hne)
  · exact (hfinished y hy).2 hne

theorem isAllVisited_iff : isAllVisited s = true ↔ ∀ y, s.visited y = true := by
  simp [isAllVisited]

def unvisited (s : Search) : Finset Node := Finset.univ.filter fun i => s.visited i = false

theorem card_unvisited_lt {visited visited' : Node → Bool} (h : visited fromNode = false)
    (hvisited : ∀ {y}, visited' y = true ↔ y = fromNode ∨ visited y = true) :
    (Finset.univ.filter fun i => visited' i = false).card <
      (Finset.univ.filter fun i => visited i = false).card := by
  refine Finset.card_lt_card ((Finset.ssubset_iff_of_subset fun y hy => ?_).mpr ⟨fromNode, ?_⟩)
  · simp only [Finset.mem_filter, Finset.mem_univ, true_and] at hy ⊢
    by_contra hnot
    rw [hvisited.mpr (.inr (Bool.not_eq_false _ ▸ hnot))] at hy
    cases hy
  · simp [h, hvisited.mpr (.inl rfl)]

theorem card_unvisited_relax (matrix : Matrix) (room : Node → Node → Bool)
    (h : s.visited fromNode = false) :
    (unvisited (relax matrix room s fromNode)).card < (unvisited s).card :=
  card_unvisited_lt h visited_relax

theorem rounds_spec {inv : ℕ → Search → Node → Prop} {m n : ℕ}
    (hstep : ∀ k s fromNode, k < m → inv k s fromNode → s.visited fromNode = false →
      inv (k + 1) (relax matrix room s fromNode) (indexOfMin (relax matrix room s fromNode)))
    (h : inv k s fromNode) (hk : k + n ≤ m) (hn : (unvisited s).card ≤ n)
    (hfrom : (∃ y, s.visited y = false) → s.visited fromNode = false) :
    ∃ k' fromNode', k' ≤ m ∧ inv k' (rounds matrix room n s fromNode) fromNode' ∧
      ∀ y, (rounds matrix room n s fromNode).visited y = true := by
  induction n generalizing k s fromNode with
  | zero =>
    have hempty : unvisited s = ∅ := Finset.card_eq_zero.mp (Nat.le_zero.mp hn)
    have hall : ∀ y, s.visited y = true := by
      intro y
      by_contra hnot
      have hmem : y ∈ unvisited s := by simpa [unvisited] using hnot
      rw [hempty] at hmem
      exact absurd hmem (Finset.notMem_empty y)
    exact ⟨k, fromNode, by omega, h, hall⟩
  | succ n ih =>
    rw [rounds]
    split_ifs with hall
    · exact ⟨k, fromNode, by omega, h, isAllVisited_iff.mp hall⟩
    · have hsome : ∃ y, s.visited y = false := by
        simpa [isAllVisited_iff] using hall
      have hcard := card_unvisited_relax matrix room (hfrom hsome)
      refine ih (hstep k s fromNode (by omega) h (hfrom hsome)) (by omega) (by omega) ?_
      rintro ⟨y, hy⟩
      exact (indexOfMin_spec hy).1

def start (index : Node) : Search :=
  ⟨fun _ => false, fun _ => MAX_VALUE, fun i => if i = index then none else some 0⟩

theorem dijkstra_spec {inv : ℕ → Search → Node → Prop}
    (hstep : ∀ k s fromNode, k < N → inv k s fromNode → s.visited fromNode = false →
      inv (k + 1) (relax matrix room s fromNode) (indexOfMin (relax matrix room s fromNode)))
    (h : inv 0 (start index) index) :
    ∃ k fromNode, k ≤ N ∧ inv k (dijkstra matrix room index) fromNode ∧
      ∀ y, (dijkstra matrix room index).visited y = true :=
  rounds_spec hstep h (Nat.zero_add N).le
    ((Finset.card_le_univ _).trans_eq (Fintype.card_fin N)) fun _ => rfl

theorem searchInv_start (matrix : Matrix) (room : Node → Node → Bool) (index : Node) :
    SearchInv matrix room index 0 (start index) index := by
  refine ⟨fun y => ?_, fun y => .inl rfl, .inl ?_⟩
  · rw [start]
    dsimp only
    split_ifs with hy <;> simp [hy]
  · refine ⟨fun y hy => ?_, fun y hy => absurd rfl hy, fun p y hp => ?_, .inr rfl⟩
    · exact .inl (hy.resolve_left Bool.false_ne_true)
    · cases hp

theorem add_one_lt_of_lt (h : k < N) : k + 1 < MAX_VALUE := by
  have hmax : N < MAX_VALUE := by decide
  omega

theorem searched_dijkstra (hlinks : ∀ a b, matrix a b ≤ 1) (room : Node → Node → Bool)
    (index : Node) : Searched matrix room index (dijkstra matrix room index) ∧
      isAllVisited (dijkstra matrix room index) = true := by
  obtain ⟨k, fromNode, -, h, hall⟩ := dijkstra_spec
    (fun k s fromNode hk h _ => h.step hlinks (add_one_lt_of_lt hk))
    (searchInv_start matrix room index)
  exact ⟨h.searched hall, isAllVisited_iff.mpr hall⟩

/-- What a node is reached with: a weight that counts the links there, and less than the greatest
one if the search could go there. -/
theorem weights_dijkstra (hlinks : ∀ a b, matrix a b ≤ 1) (room : Node → Node → Bool)
    (index y : Node) :
    ((dijkstra matrix room index).weights y = MAX_VALUE ∨
      (dijkstra matrix room index).weights y ≤ N) ∧
    (Reaches matrix room index y → y ≠ index →
      (dijkstra matrix room index).weights y ≠ MAX_VALUE) := by
  let inv : ℕ → Search → Node → Prop := fun k s fromNode =>
    SearchInv matrix room index k s fromNode ∧
      ∀ y, s.visited y = true → Reaches matrix room index y → y ≠ index → s.weights y ≠ MAX_VALUE
  have hstep : ∀ k s fromNode, k < N → inv k s fromNode → s.visited fromNode = false →
      inv (k + 1) (relax matrix room s fromNode)
        (indexOfMin (relax matrix room s fromNode)) := by
    rintro k s fromNode hk ⟨h, hfound⟩ hfrom
    have hmax := add_one_lt_of_lt hk
    refine ⟨h.step hlinks hmax, fun y hy hreaches hne => ?_⟩
    refine weights_relax_ne ?_ (h.bound y) (by omega)
    rcases visited_relax.mp hy with rfl | hy
    · rcases h.phase with hgrowing | hfinished
      · exact (hgrowing.found y (.inr rfl)).resolve_left hne
      · rw [(hfinished y hreaches).1] at hfrom
        cases hfrom
    · exact hfound y hy hreaches hne
  obtain ⟨k, fromNode, hk, ⟨h, hfound⟩, hall⟩ := dijkstra_spec hstep
    ⟨searchInv_start matrix room index, fun y hy => by cases hy⟩
  exact ⟨(h.bound y).imp_right fun hle => hle.trans hk, hfound y (hall y)⟩

theorem rounds_settled (h : ∀ p y, 0 < matrix p y → s.visited y = true) (n : ℕ) (fromNode : Node) :
    (rounds matrix room n s fromNode).weights = s.weights ∧
      (rounds matrix room n s fromNode).prevs = s.prevs := by
  induction n generalizing s fromNode with
  | zero => exact ⟨rfl, rfl⟩
  | succ n ih =>
    rw [rounds]
    split_ifs
    · exact ⟨rfl, rfl⟩
    · have hkept : ∀ y, (relax matrix room s fromNode).weights y = s.weights y ∧
          (relax matrix room s fromNode).prevs y = s.prevs y := by
        intro y
        rcases relax_cases matrix room s fromNode y with
          ⟨⟨-, hnew⟩, ⟨hlink, -⟩, -⟩ | ⟨-, hweights, hprevs⟩
        · rw [h fromNode y hlink] at hnew
          cases hnew
        · exact ⟨hweights, hprevs⟩
      have hvisited : ∀ p y, 0 < matrix p y → (relax matrix room s fromNode).visited y = true :=
        fun p y hlink => visited_relax.mpr (.inr (h p y hlink))
      obtain ⟨hweights, hprevs⟩ := ih hvisited (indexOfMin (relax matrix room s fromNode))
      rw [hweights, hprevs]
      exact ⟨funext fun y => (hkept y).1, funext fun y => (hkept y).2⟩

theorem dijkstra_three_rounds {a b c : Node}
    (hvisited : ∀ p y, 0 < matrix p y → y = a ∨ y = b ∨ y = c)
    (hfirst : indexOfMin (relax matrix room (start a) a) = b)
    (hsecond : indexOfMin (relax matrix room (relax matrix room (start a) a) b) = c) :
    (dijkstra matrix room a).weights =
        (relax matrix room (relax matrix room (relax matrix room (start a) a) b) c).weights ∧
      (dijkstra matrix room a).prevs =
        (relax matrix room (relax matrix room (relax matrix room (start a) a) b) c).prevs := by
  -- one of the many other nodes is still left in each of the rounds
  obtain ⟨y, -, hy⟩ : ∃ y ∈ (Finset.univ : Finset Node), y ∉ ({a, b, c} : Finset Node) := by
    refine Finset.exists_mem_notMem_of_card_lt_card ?_
    rw [Finset.card_univ, Fintype.card_fin]
    exact Finset.card_le_three.trans_lt (by decide)
  simp only [Finset.mem_insert, Finset.mem_singleton, not_or] at hy
  have hleft : ∀ {s : Search}, s.visited y = false → ¬isAllVisited s = true := by
    intro s hs hall
    rw [isAllVisited_iff.mp hall y] at hs
    cases hs
  have hnext : ∀ {s : Search} {n : Node}, s.visited y = false → y ≠ n →
      (relax matrix room s n).visited y = false := by
    intro s n hs hne
    rw [← Bool.not_eq_true, visited_relax, not_or, Bool.not_eq_true]
    exact ⟨hne, hs⟩
  have hstart : (start a).visited y = false := rfl
  have hone := hnext hstart hy.1
  have htwo := hnext hone hy.2.1
  have hrounds : dijkstra matrix room a = rounds matrix room 40 (start a) a := rfl
  rw [rounds, if_neg (hleft hstart), hfirst, rounds, if_neg (hleft hone), hsecond, rounds,
    if_neg (hleft htwo)] at hrounds
  rw [hrounds]
  refine rounds_settled (fun p y hlink => ?_) 37 _
  rw [visited_relax, visited_relax, visited_relax]
  rcases hvisited p y hlink with rfl | rfl | rfl
  · exact .inr (.inr (.inl rfl))
  · exact .inr (.inl rfl)
  · exact .inl rfl

end Searching

section Ways

variable {prevs : Node → Option Node} {x p : Node} {way : List Node} {fuel : ℕ}

def Way (prevs : Node → Option Node) : Node → List Node → Prop
  | x, [] => prevs x = none
  | x, y :: way => y = x ∧ ∃ p, prevs x = some p ∧ Way prevs p way

theorem follow_eq_ok : follow prevs fuel x = .ok way ↔ Way prevs x way ∧ way.length < fuel := by
  induction fuel generalizing x way with
  | zero => simp [follow]
  | succ fuel ih =>
    rw [follow]
    cases hx : prevs x with
    | none =>
      cases way with
      | nil => simp [Way, hx]
      | cons y way => simp [Way, hx]
    | some p =>
      dsimp only
      cases way with
      | nil =>
        simp only [Way, hx, reduceCtorEq, false_and, iff_false]
        intro h
        cases hp : follow prevs fuel p with
        | error e => rw [hp] at h; cases h
        | ok l => rw [hp] at h; cases h
      | cons y way =>
        have hmap : (follow prevs fuel p).map (x :: ·) = .ok (y :: way) ↔
            y = x ∧ follow prevs fuel p = .ok way := by
          cases follow prevs fuel p with
          | error e => simp [Except.map]
          | ok l => simp [Except.map, eq_comm]
        rw [hmap, ih, Way, hx]
        simp [and_assoc]

section

variable (h : Way prevs x way)

include h

theorem Way.unique {way' : List Node} (h' : Way prevs x way') : way = way' := by
  induction way generalizing x way' with
  | nil =>
    cases way' with
    | nil => rfl
    | cons y way' =>
      obtain ⟨-, p, hp, -⟩ := h'
      rw [Way, hp] at h
      cases h
  | cons y way ih =>
    obtain ⟨rfl, p, hp, hway⟩ := h
    cases way' with
    | nil =>
      rw [Way, hp] at h'
      cases h'
    | cons y' way' =>
      obtain ⟨rfl, p', hp', hway'⟩ := h'
      rw [hp] at hp'
      cases hp'
      rw [ih hway hway']

theorem Way.of_mem {y : Node} (hy : y ∈ way) :
    ∃ rest, Way prevs y rest ∧ rest.length ≤ way.length ∧ prevs y ≠ none := by
  induction way generalizing x with
  | nil => cases hy
  | cons z way ih =>
    have hall := h
    obtain ⟨rfl, p, hp, hway⟩ := h
    rcases List.mem_cons.mp hy with rfl | hy
    · exact ⟨y :: way, hall, le_rfl, by rw [hp]; exact Option.some_ne_none p⟩
    · obtain ⟨rest, hrest, hle, hne⟩ := ih hway hy
      exact ⟨rest, hrest, hle.trans (Nat.le_succ _), hne⟩

theorem Way.nodup : way.Nodup := by
  induction way generalizing x with
  | nil => exact List.nodup_nil
  | cons y way ih =>
    have hall := h
    obtain ⟨rfl, p, hp, hway⟩ := h
    refine List.nodup_cons.mpr ⟨fun hy => ?_, ih hway⟩
    obtain ⟨rest, hrest, hle, -⟩ := hway.of_mem hy
    obtain rfl := hall.unique hrest
    exact absurd hle (by simp)

theorem Way.length_le : way.length ≤ N :=
  h.nodup.length_le_card.trans_eq (Fintype.card_fin N)

end

def links : List Node → List (Node × Node)
  | b :: a :: nodes => (a, b) :: links (a :: nodes)
  | _ => []

def reserved (trans : ℕ) (hops : List (Node × Node)) (i j : Node) : ℕ :=
  (hops.map fun hop => (if i = hop.1 ∧ j = hop.2 then trans else 0) +
    if i = hop.2 ∧ j = hop.1 then trans else 0).sum

theorem Way.exists_append {index : Node} (hstart : ∀ y, prevs y = none ↔ y = index)
    (h : Way prevs x way) : ∃ rest, way ++ [index] = x :: rest := by
  cases way with
  | nil =>
    obtain rfl := (hstart x).mp h
    exact ⟨[], rfl⟩
  | cons y way =>
    obtain ⟨rfl, -⟩ := h
    exact ⟨way ++ [index], rfl⟩

theorem Way.links_cons {index : Node} (hstart : ∀ y, prevs y = none ↔ y = index)
    (h : Way prevs p way) : links (x :: way ++ [index]) = (p, x) :: links (way ++ [index]) := by
  obtain ⟨rest, hrest⟩ := h.exists_append hstart
  rw [List.cons_append, hrest, links]

theorem reserveAll_eq_ok {index : Node} (hstart : ∀ y, prevs y = none ↔ y = index)
    (h : Way prevs x way) (hfuel : way.length < fuel) (trans : ℕ) (slice : Matrix) :
    reserveAll prevs trans fuel x slice =
      .ok fun i j => slice i j + reserved trans (links (way ++ [index])) i j := by
  induction fuel generalizing x way slice with
  | zero => exact absurd hfuel (Nat.not_lt_zero _)
  | succ fuel ih =>
    cases way with
    | nil =>
      have hx : prevs x = none := h
      rw [reserveAll, hx]
      rfl
    | cons y way =>
      obtain ⟨rfl, p, hp, hway⟩ := h
      rw [reserveAll, hp]
      dsimp only
      rw [ih hway (by simpa using hfuel), hway.links_cons hstart]
      simp [reserve, reserved, Nat.add_assoc]

def Uses (hops : List (Node × Node)) (i j : Node) : Prop := (i, j) ∈ hops ∨ (j, i) ∈ hops

instance (hops : List (Node × Node)) (i j : Node) : Decidable (Uses hops i j) :=
  inferInstanceAs (Decidable (_ ∨ _))

theorem uses_symm {hops : List (Node × Node)} {i j : Node} : Uses hops i j ↔ Uses hops j i :=
  or_comm

theorem mem_of_mem_links {nodes : List Node} {hop : Node × Node} (h : hop ∈ links nodes) :
    hop.1 ∈ nodes ∧ hop.2 ∈ nodes := by
  induction nodes with
  | nil => cases h
  | cons b nodes ih =>
    cases nodes with
    | nil => cases h
    | cons a nodes =>
      rcases List.mem_cons.mp h with rfl | h
      · exact ⟨List.mem_cons_of_mem _ List.mem_cons_self, List.mem_cons_self⟩
      · exact ⟨List.mem_cons_of_mem b (ih h).1, List.mem_cons_of_mem b (ih h).2⟩

theorem reserved_links {nodes : List Node} (hnodup : nodes.Nodup) (trans : ℕ) (i j : Node) :
    reserved trans (links nodes) i j = if Uses (links nodes) i j then trans else 0 := by
  induction nodes with
  | nil => rfl
  | cons b nodes ih =>
    obtain ⟨hb, hnodup⟩ := List.nodup_cons.mp hnodup
    cases nodes with
    | nil => rfl
    | cons a nodes =>
      have hne : a ≠ b := by
        rintro rfl
        exact hb List.mem_cons_self
      have hout : ∀ c, ¬ Uses (links (a :: nodes)) b c := by
        rintro c (hc | hc)
        · exact hb (mem_of_mem_links hc).1
        · exact hb (mem_of_mem_links hc).2
      have hstep : reserved trans (links (b :: a :: nodes)) i j =
          ((if i = a ∧ j = b then trans else 0) + if i = b ∧ j = a then trans else 0) +
            reserved trans (links (a :: nodes)) i j := rfl
      have huses : Uses (links (b :: a :: nodes)) i j ↔
          (i = a ∧ j = b) ∨ (i = b ∧ j = a) ∨ Uses (links (a :: nodes)) i j := by
        simp only [Uses, links, List.mem_cons, Prod.mk.injEq]
        tauto
      rw [hstep, ih hnodup]
      by_cases hforth : i = a ∧ j = b
      · obtain ⟨rfl, rfl⟩ := hforth
        have hnot : ¬ Uses (links (i :: nodes)) i j := fun h => hout i (uses_symm.mp h)
        simp [huses, hnot, hne]
      · by_cases hback : i = b ∧ j = a
        · obtain ⟨rfl, rfl⟩ := hback
          simp [huses, hout, hne.symm]
        · simp [huses, hforth, hback]

theorem Searched.reaches_iff {matrix : Matrix} {room : Node → Node → Bool} {index : Node}
    {s : Search} (hs : Searched matrix room index s) (h : Way s.prevs x way) :
    Reaches matrix room index x ↔
      ∀ hop ∈ links (way ++ [index]), Usable matrix room hop.1 hop.2 := by
  induction way generalizing x with
  | nil =>
    obtain rfl := (hs.start x).mp h
    exact iff_of_true .refl fun hop hhop => absurd hhop List.not_mem_nil
  | cons y way ih =>
    obtain ⟨rfl, p, hp, hway⟩ := h
    have hne : y ≠ index := by
      intro heq
      rw [(hs.start y).mpr heq] at hp
      cases hp
    rw [hway.links_cons hs.start, List.forall_mem_cons, ← ih hway]
    constructor
    · intro hreaches
      obtain ⟨p', hp', husable, hreached⟩ := hs.preceded y hreaches hne
      rw [hp] at hp'
      cases hp'
      exact ⟨husable, hreached⟩
    · rintro ⟨husable, hreached⟩
      exact hreached.tail husable

theorem Way.nodup_append {index : Node} (hstart : ∀ y, prevs y = none ↔ y = index)
    (h : Way prevs x way) : (way ++ [index]).Nodup := by
  refine List.nodup_append.mpr ⟨h.nodup, List.nodup_singleton index, ?_⟩
  rintro y hy z hz rfl
  obtain ⟨-, -, -, hne⟩ := h.of_mem hy
  exact hne ((hstart y).mpr (List.mem_singleton.mp hz))

theorem allPrevs_eq_ok {nodesInPath : List Node} (h : allPrevs prevs x = .ok nodesInPath) :
    Way prevs x (x :: nodesInPath.reverse) := by
  rw [allPrevs] at h
  cases hx : prevs x with
  | none =>
    rw [hx] at h
    cases h
  | some prev =>
    rw [hx] at h
    dsimp only at h
    cases hfollow : follow prevs (N + 1) prev with
    | error e =>
      rw [hfollow] at h
      cases h
    | ok way =>
      rw [hfollow] at h
      obtain rfl := Except.ok.inj h
      rw [List.reverse_reverse]
      exact ⟨rfl, prev, hx, (follow_eq_ok.mp hfollow).1⟩

end Ways

end DagRoutes

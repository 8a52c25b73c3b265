import Onos.DagRoutes
import Onos.Lib.ShortestPaths
import Mathlib.Algebra.Order.Group.Int

/-! The search for a route to reserve, over links of any weight and in the ints of the code. As the
greatest int stands for "not reached", a search that has no nodes left that it reached goes on from
one that it did not, as if the routes started there. -/
namespace DagReservedRoutes

open DagTaskQueue (N Node Failure)
open DagRoutes (allPrevs allPrevs_eq_ok card_unvisited_lt follow_eq_ok foldl_min links Way)
open DirectedWalk FallibleRun ShortestPaths

def MAX_VALUE : Int32 := 2147483647
def MAX_SLICE : Int32 := 100

abbrev IntMatrix := Node → Node → Int32

structure Search where
  visited : Node → Bool
  weights : Node → Int32
  prevs : Node → Option Node

/-- What a route computation leaves: the slices that are used, and the nodes on the route. -/
structure Answer where
  slice : IntMatrix
  nodesInPath : List Node
  weight : Int32

variable (matrix slice : IntMatrix) (trans : Int32)

def newWeight (weights : Node → Int32) (fromNode i : Node) : Int32 :=
  if weights fromNode = MAX_VALUE then matrix fromNode i
  else weights fromNode + matrix fromNode i

def visit (s : Search) (fromNode i : Node) : Bool := decide (i = fromNode) || s.visited i

def better (s : Search) (fromNode i : Node) : Bool :=
  !visit s fromNode i && decide (0 < matrix fromNode i) &&
    decide (newWeight matrix s.weights fromNode i < s.weights i) &&
    decide (slice fromNode i + trans ≤ MAX_SLICE)

/-- The node is visited and its neighbours are looked at; none of them depends on another. -/
def relax (s : Search) (fromNode : Node) : Search where
  visited := visit s fromNode
  weights i := if better matrix slice trans s fromNode i then newWeight matrix s.weights fromNode i
    else s.weights i
  prevs i := if better matrix slice trans s fromNode i then some fromNode else s.prevs i

def isAllVisited (s : Search) : Bool := (List.finRange N).all s.visited

def indexOfMin (s : Search) : Node :=
  match (List.finRange N).filter fun i => !s.visited i with
  | [] => 0
  | first :: remain => remain.foldl (fun minIndex j =>
    if s.weights j < s.weights minIndex then j else minIndex) first

def rounds : ℕ → Search → Node → Except Failure Search
  | 0, s, _ => if isAllVisited s then .ok s else .error .endless
  | fuel + 1, s, fromNode =>
    if isAllVisited s then .ok s
    else rounds fuel (relax matrix slice trans s fromNode)
      (indexOfMin (relax matrix slice trans s fromNode))

def start (index : Node) : Search where
  visited _ := false
  weights _ := MAX_VALUE
  prevs i := if i = index then none else some 0

def reserve (slice : IntMatrix) (a b : Node) (trans : Int32) : IntMatrix := fun i j =>
  slice i j + (if i = a ∧ j = b then trans else 0) + if i = b ∧ j = a then trans else 0

def reserveAll (prevs : Node → Option Node) (trans : Int32) :
    ℕ → Node → IntMatrix → Except Failure IntMatrix
  | 0, _, _ => .error .endless
  | fuel + 1, prev, slice => match prevs prev with
    | none => .ok slice
    | some next => reserveAll prevs trans fuel next (reserve slice next prev trans)

def dijkstraPath (index taskNode : Node) : Except Failure Answer :=
  (rounds matrix slice trans N (start index) index).bind fun s =>
    (allPrevs s.prevs taskNode).bind fun nodesInPath =>
      (reserveAll s.prevs trans (N + 1) taskNode slice).map fun slice =>
        ⟨slice, nodesInPath, s.weights taskNode⟩

def HasRoom (a b : Node) : Prop :=
  0 < (matrix a b).toInt ∧ (slice a b).toInt + trans.toInt ≤ MAX_SLICE.toInt

def network : Network Node (Node × Node) ℤ where
  src := Prod.fst
  dst := Prod.snd
  usable hop := HasRoom matrix slice trans hop.1 hop.2
  weight hop := (matrix hop.1 hop.2).toInt

def walk (index : Node) (nodesInPath : List Node) (taskNode : Node) : List (Node × Node) :=
  (links (taskNode :: nodesInPath.reverse ++ [index])).reverse

/-- The computation ends; what it returns is a shortest walk over links with room and its weight,
and it returns nothing where there is no such walk. -/
structure FindsShortest (index taskNode : Node) : Prop where
  ends : dijkstraPath matrix slice trans index taskNode ≠ .error .endless
  shortest : ∀ a, dijkstraPath matrix slice trans index taskNode = .ok a →
    IsShortest (network matrix slice trans) index (walk index a.nodesInPath taskNode) taskNode ∧
      a.weight.toInt =
        cost (network matrix slice trans).weight (walk index a.nodesInPath taskNode)
  unreported : (∀ p, ¬IsRoute (network matrix slice trans) index p taskNode) →
    ∀ a, dijkstraPath matrix slice trans index taskNode ≠ .ok a

/-- The node at the end of the shortest walk `p` is looked at no later than `taskNode`, and not
after `b`. -/
structure LooksFrom (index taskNode : Node) (p : List (Node × Node)) (a b : Node) : Prop where
  shortest : IsShortest (network matrix slice trans) index p a
  going : a ≠ taskNode
  target : ∀ q, IsRoute (network matrix slice trans) index q taskNode →
    cost (network matrix slice trans).weight p ≤ cost (network matrix slice trans).weight q
  next : ∀ q, IsRoute (network matrix slice trans) index q b →
    cost (network matrix slice trans).weight p ≤ cost (network matrix slice trans).weight q

/-- The sums that the search comes to on its way to `taskNode` are ints, and its weights less than
the greatest one. -/
structure Fits (index taskNode : Node) : Prop where
  room : ∀ p a b, LooksFrom matrix slice trans index taskNode p a b → 0 < matrix a b →
    -2147483648 ≤ (slice a b).toInt + trans.toInt ∧
      (slice a b).toInt + trans.toInt < 2147483648
  weight : ∀ p a b, LooksFrom matrix slice trans index taskNode p a b →
    HasRoom matrix slice trans a b →
    cost (network matrix slice trans).weight p + (matrix a b).toInt < MAX_VALUE.toInt

section Rounds

variable {matrix slice : IntMatrix} {trans : Int32} {index : Node} {s : Search} {fromNode : Node}

theorem visited_relax {y : Node} :
    (relax matrix slice trans s fromNode).visited y = true ↔ y = fromNode ∨ s.visited y = true := by
  simp [relax, visit]

theorem better_iff {y : Node} : better matrix slice trans s fromNode y = true ↔
    (y ≠ fromNode ∧ s.visited y = false) ∧ 0 < matrix fromNode y ∧
      newWeight matrix s.weights fromNode y < s.weights y ∧
      slice fromNode y + trans ≤ MAX_SLICE := by
  unfold better visit
  simp only [Bool.and_eq_true, Bool.not_eq_true', Bool.or_eq_false_iff, decide_eq_false_iff_not,
    decide_eq_true_eq, ne_eq]
  tauto

theorem relax_cases (matrix slice : IntMatrix) (trans : Int32) (s : Search) (fromNode y : Node) :
    ((y ≠ fromNode ∧ s.visited y = false) ∧ 0 < matrix fromNode y ∧
      newWeight matrix s.weights fromNode y < s.weights y ∧
      slice fromNode y + trans ≤ MAX_SLICE ∧
      (relax matrix slice trans s fromNode).weights y = newWeight matrix s.weights fromNode y ∧
      (relax matrix slice trans s fromNode).prevs y = some fromNode) ∨
    ((y ≠ fromNode → s.visited y = false → 0 < matrix fromNode y →
        slice fromNode y + trans ≤ MAX_SLICE →
        s.weights y ≤ newWeight matrix s.weights fromNode y) ∧
      (relax matrix slice trans s fromNode).weights y = s.weights y ∧
      (relax matrix slice trans s fromNode).prevs y = s.prevs y) := by
  by_cases hbetter : better matrix slice trans s fromNode y = true
  · obtain ⟨hnew, hlink, hlt, hroom⟩ := better_iff.mp hbetter
    exact .inl ⟨hnew, hlink, hlt, hroom, if_pos hbetter, if_pos hbetter⟩
  · refine .inr ⟨fun hne hnew hlink hroom => ?_, if_neg hbetter, if_neg hbetter⟩
    by_contra hle
    exact hbetter (better_iff.mpr ⟨⟨hne, hnew⟩, hlink, Int32.not_le.mp hle, hroom⟩)

theorem relax_visited {y : Node} (hy : y = fromNode ∨ s.visited y = true) :
    (relax matrix slice trans s fromNode).weights y = s.weights y ∧
      (relax matrix slice trans s fromNode).prevs y = s.prevs y := by
  rcases relax_cases matrix slice trans s fromNode y with ⟨⟨hne, hnew⟩, -⟩ | ⟨-, hweights, hprevs⟩
  · rcases hy with heq | hvisited
    · exact absurd heq hne
    · rw [hnew] at hvisited
      cases hvisited
  · exact ⟨hweights, hprevs⟩

theorem indexOfMin_spec {y : Node} (hy : s.visited y = false) : s.visited (indexOfMin s) = false ∧
      ∀ x, s.visited x = false → (s.weights (indexOfMin s)).toInt ≤ (s.weights x).toInt := by
  have hmem : ∀ x, x ∈ (List.finRange N).filter (fun i => !s.visited i) ↔ s.visited x = false := by
    intro x
    simp [List.mem_filter]
  have hless : (fun minIndex j : Node => if s.weights j < s.weights minIndex then j else minIndex) =
      fun minIndex j => if (s.weights j).toInt < (s.weights minIndex).toInt then j
        else minIndex := by
    funext minIndex j
    exact if_congr Int32.lt_iff_toInt_lt rfl rfl
  rw [indexOfMin, hless]
  cases hfilter : (List.finRange N).filter fun i => !s.visited i with
  | nil =>
    have hnil := (hmem y).mpr hy
    rw [hfilter] at hnil
    exact absurd hnil List.not_mem_nil
  | cons first remain =>
    rw [hfilter] at hmem
    obtain ⟨hin, hle⟩ := foldl_min (fun x => (s.weights x).toInt) remain first
    exact ⟨(hmem _).mp hin, fun x hx => hle x ((hmem x).mpr hx)⟩

theorem isAllVisited_iff : isAllVisited s = true ↔ ∀ y, s.visited y = true := by
  simp [isAllVisited]

def unvisited (s : Search) : Finset Node := Finset.univ.filter fun i => s.visited i = false

theorem card_unvisited_relax (matrix slice : IntMatrix) (trans : Int32)
    (h : s.visited fromNode = false) :
    (unvisited (relax matrix slice trans s fromNode)).card < (unvisited s).card :=
  card_unvisited_lt h visited_relax

/-- The loop ends when as many rounds are allowed as there are nodes left, and keeps what each of
its rounds keeps. -/
theorem rounds_spec {inv : Search → Node → Prop} {fuel : ℕ}
    (hstep : ∀ s fromNode, inv s fromNode → s.visited fromNode = false →
      inv (relax matrix slice trans s fromNode) (indexOfMin (relax matrix slice trans s fromNode)))
    (h : inv s fromNode) (hfuel : (unvisited s).card ≤ fuel)
    (hfrom : (∃ y, s.visited y = false) → s.visited fromNode = false) :
    ∃ s' fromNode', rounds matrix slice trans fuel s fromNode = .ok s' ∧ inv s' fromNode' ∧
      ∀ y, s'.visited y = true := by
  induction fuel generalizing s fromNode with
  | zero =>
    have hall : ∀ y, s.visited y = true := by
      intro y
      by_contra hnot
      have hmem : y ∈ unvisited s := by simpa [unvisited] using hnot
      rw [Finset.card_eq_zero.mp (Nat.le_zero.mp hfuel)] at hmem
      exact absurd hmem (Finset.notMem_empty y)
    exact ⟨s, fromNode, if_pos (isAllVisited_iff.mpr hall), h, hall⟩
  | succ fuel ih =>
    rw [rounds]
    split_ifs with hall
    · exact ⟨s, fromNode, rfl, h, isAllVisited_iff.mp hall⟩
    · have hsome : ∃ y, s.visited y = false := by
        simpa [isAllVisited_iff] using hall
      have hcard := card_unvisited_relax matrix slice trans (hfrom hsome)
      refine ih (hstep s fromNode h (hfrom hsome)) (by omega) ?_
      rintro ⟨y, hy⟩
      exact (indexOfMin_spec hy).1

theorem rounds_start (inv : Search → Node → Prop)
    (hstep : ∀ s fromNode, inv s fromNode → s.visited fromNode = false →
      inv (relax matrix slice trans s fromNode) (indexOfMin (relax matrix slice trans s fromNode)))
    (h : inv (start index) index) :
    ∃ s' fromNode', rounds matrix slice trans N (start index) index = .ok s' ∧ inv s' fromNode' ∧
      ∀ y, s'.visited y = true :=
  rounds_spec hstep h ((Finset.card_le_univ _).trans_eq (Fintype.card_fin N)) fun _ => rfl

structure Started (index : Node) (s : Search) (fromNode : Node) : Prop where
  start : ∀ y, s.prevs y = none ↔ y = index
  first : s.visited index = true ∨ index = fromNode

theorem started_start (index : Node) : Started index (start index) index := by
  refine ⟨fun y => ?_, .inr rfl⟩
  rw [start]
  dsimp only
  split_ifs with hy <;> simp [hy]

theorem Started.relax (matrix slice : IntMatrix) (trans : Int32) (h : Started index s fromNode)
    (next : Node) :
    Started index (relax matrix slice trans s fromNode) next := by
  have hindex : index = fromNode ∨ s.visited index = true := h.first.symm
  refine ⟨fun y => ?_, .inl (visited_relax.mpr hindex)⟩
  rcases relax_cases matrix slice trans s fromNode y with ⟨⟨hne, hnew⟩, -, -, -, -, hprevs⟩ |
    ⟨-, -, hprevs⟩
  · rw [hprevs]
    refine iff_of_false (Option.some_ne_none _) ?_
    rintro rfl
    rcases hindex with heq | hvisited
    · exact hne heq
    · rw [hnew] at hvisited
      cases hvisited
  · rw [hprevs]
    exact h.start y

end Rounds

section Searching

variable {matrix slice : IntMatrix} {trans : Int32} {index taskNode : Node} {s : Search}
  {fromNode : Node}

/-- What the search knows of the distances: that of the start is not written down. -/
def label (index : Node) (s : Search) (y : Node) : Option ℤ :=
  if y = index then some 0
  else if s.weights y = MAX_VALUE then none
  else some (s.weights y).toInt

def Found (matrix slice : IntMatrix) (trans : Int32) (index : Node) (s : Search) (y : Node)
    (a : ℤ) : Prop :=
  ∃ way, Way s.prevs y way ∧ (∀ z ∈ way, z = y ∨ s.visited z = true) ∧
    IsRoute (network matrix slice trans) index (links (way ++ [index])).reverse y ∧
    a = cost (network matrix slice trans).weight (links (way ++ [index])).reverse

structure Growing (matrix slice : IntMatrix) (trans : Int32) (index taskNode : Node) (s : Search)
    (fromNode : Node) : Prop where
  unsettled : s.visited taskNode = false
  source : s.weights index = MAX_VALUE
  frontier : Frontier (network matrix slice trans) index 0 (fun y => s.visited y = true)
    (label index s)
  nearest : Nearest (fun y => s.visited y = true) (label index s) fromNode
  found : ∀ y a, label index s y = some a → Found matrix slice trans index s y a

def Settled (matrix slice : IntMatrix) (trans : Int32) (index taskNode : Node) (s : Search) :
    Prop :=
  ∃ way, Way s.prevs taskNode way ∧ s.visited taskNode = true ∧ (∀ z ∈ way, s.visited z = true) ∧
    IsShortest (network matrix slice trans) index (links (way ++ [index])).reverse taskNode ∧
    (s.weights taskNode).toInt =
      cost (network matrix slice trans).weight (links (way ++ [index])).reverse

theorem label_index (index : Node) (s : Search) : label index s index = some 0 := if_pos rfl

theorem label_eq_some {y : Node} (hy : y ≠ index) {a : ℤ} :
    label index s y = some a ↔ s.weights y ≠ MAX_VALUE ∧ (s.weights y).toInt = a := by
  rw [label, if_neg hy]
  split_ifs with hmax <;> simp [hmax]

theorem toInt_lt_of_ne {w : Int32} (h : w ≠ MAX_VALUE) : w.toInt < MAX_VALUE.toInt := by
  have hne : w.toInt ≠ MAX_VALUE.toInt := fun heq => h (Int32.toInt_inj.mp heq)
  have hle : w.toInt ≤ MAX_VALUE.toInt := w.toInt_le
  omega

theorem toInt_add_of_fits {x y : Int32} (hle : -2147483648 ≤ x.toInt + y.toInt)
    (hlt : x.toInt + y.toInt < 2147483648) : (x + y).toInt = x.toInt + y.toInt := by
  rw [Int32.toInt_add]
  exact Int.bmod_eq_of_le (by simpa using hle) (by simpa using hlt)

theorem nonneg_weight (matrix slice : IntMatrix) (trans : Int32) (hop : Node × Node)
    (h : (network matrix slice trans).usable hop) : 0 ≤ (network matrix slice trans).weight hop :=
  h.1.le

theorem toInt_newWeight {a : ℤ} {y : Node} (hsource : s.weights index = MAX_VALUE)
    (ha : label index s fromNode = some a) (hnonneg : 0 ≤ a) (hlink : 0 < (matrix fromNode y).toInt)
    (hlt : a + (matrix fromNode y).toInt < MAX_VALUE.toInt) :
    (newWeight matrix s.weights fromNode y).toInt = a + (matrix fromNode y).toInt := by
  have hmax : MAX_VALUE.toInt = 2147483647 := rfl
  rw [newWeight]
  by_cases hindex : fromNode = index
  · subst hindex
    rw [label_index] at ha
    obtain rfl := Option.some.inj ha
    rw [if_pos hsource, zero_add]
  · obtain ⟨hne, rfl⟩ := (label_eq_some hindex).mp ha
    rw [if_neg hne]
    exact toInt_add_of_fits (by omega) (by omega)

theorem way_congr {prevs prevs' : Node → Option Node} {x : Node} {way : List Node}
    (h : Way prevs x way) (hstart : ∀ z, prevs z = none → prevs' z = none)
    (hsame : ∀ z ∈ way, prevs' z = prevs z) : Way prevs' x way := by
  induction way generalizing x with
  | nil => exact hstart x h
  | cons z way ih =>
    obtain ⟨rfl, p, hp, hway⟩ := h
    exact ⟨rfl, p, (hsame z List.mem_cons_self).trans hp,
      ih hway fun y hy => hsame y (List.mem_cons_of_mem z hy)⟩

/-- The node that is looked at next has been found on a shortest walk, and no other one that is not
visited is nearer. -/
theorem Growing.exists_shortest (h : Growing matrix slice trans index taskNode s fromNode)
    (hreach : ∃ q, IsRoute (network matrix slice trans) index q taskNode) :
    ∃ way, Way s.prevs fromNode way ∧ (∀ z ∈ way, z = fromNode ∨ s.visited z = true) ∧
      IsShortest (network matrix slice trans) index (links (way ++ [index])).reverse fromNode ∧
      label index s fromNode =
        some (cost (network matrix slice trans).weight (links (way ++ [index])).reverse) ∧
      ∀ v q, s.visited v = false → IsRoute (network matrix slice trans) index q v →
        cost (network matrix slice trans).weight (links (way ++ [index])).reverse ≤
          cost (network matrix slice trans).weight q := by
  have hnear : ∀ v q, s.visited v = false → IsRoute (network matrix slice trans) index q v →
      ∃ b, label index s fromNode = some b ∧ b ≤ cost (network matrix slice trans).weight q := by
    intro v q hv hq
    have hbound := h.frontier.bound (nonneg_weight matrix slice trans) hq
    obtain ⟨x, a, hx, ha, hle⟩ := hbound.2 (by rw [hv]; exact Bool.false_ne_true)
    obtain ⟨b, hb, hba⟩ := h.nearest.least x a hx ha
    exact ⟨b, hb, hba.trans (hle.trans_eq (zero_add _))⟩
  obtain ⟨q, hq⟩ := hreach
  obtain ⟨b, hb, -⟩ := hnear taskNode q h.unsettled hq
  obtain ⟨way, hway, hvisited, hroute, rfl⟩ := h.found fromNode b hb
  have hleast : ∀ v q, s.visited v = false → IsRoute (network matrix slice trans) index q v →
      cost (network matrix slice trans).weight (links (way ++ [index])).reverse ≤
        cost (network matrix slice trans).weight q := by
    intro v q hv hq
    obtain ⟨b, hb', hle⟩ := hnear v q hv hq
    rw [hb] at hb'
    exact Option.some.inj hb' ▸ hle
  refine ⟨way, hway, hvisited, ⟨hroute, fun q hq => ?_⟩, hb, hleast⟩
  exact hleast fromNode q (Bool.not_eq_true _ ▸ h.nearest.unsettled) hq

theorem Growing.settled (h : Growing matrix slice trans index taskNode s taskNode)
    (hne : taskNode ≠ index) (hstart : Started index s taskNode)
    (hreach : ∃ q, IsRoute (network matrix slice trans) index q taskNode) :
    Settled matrix slice trans index taskNode (relax matrix slice trans s taskNode) := by
  obtain ⟨way, hway, hvisited, hshortest, hlabel, -⟩ := h.exists_shortest hreach
  have hstart' := hstart.relax matrix slice trans taskNode
  refine ⟨way, ?_, visited_relax.mpr (.inl rfl), fun z hz => visited_relax.mpr (hvisited z hz),
    hshortest, ?_⟩
  · refine way_congr hway (fun z hz => (hstart'.start z).mpr ((hstart.start z).mp hz)) ?_
    exact fun z hz => (relax_visited (hvisited z hz)).2
  · rw [(relax_visited (.inl rfl)).1]
    exact ((label_eq_some hne).mp hlabel).2

theorem Settled.relax (h : Settled matrix slice trans index taskNode s)
    (hstart : Started index s fromNode) :
    Settled matrix slice trans index taskNode (relax matrix slice trans s fromNode) := by
  obtain ⟨way, hway, htask, hvisited, hshortest, hweight⟩ := h
  have hstart' := hstart.relax matrix slice trans fromNode
  refine ⟨way, ?_, visited_relax.mpr (.inr htask),
    fun z hz => visited_relax.mpr (.inr (hvisited z hz)), hshortest, ?_⟩
  · refine way_congr hway (fun z hz => (hstart'.start z).mpr ((hstart.start z).mp hz)) ?_
    exact fun z hz => (relax_visited (.inr (hvisited z hz))).2
  · rw [(relax_visited (.inr htask)).1]
    exact hweight

section

variable (h : Growing matrix slice trans index taskNode s fromNode)

include h

section

variable (hfits : Fits matrix slice trans index taskNode)

include hfits

theorem Growing.relax_label (hne : fromNode ≠ taskNode)
    {p : List (Node × Node)} (hp : IsShortest (network matrix slice trans) index p fromNode)
    (hlabel : label index s fromNode = some (cost (network matrix slice trans).weight p))
    (hleast : ∀ v q, s.visited v = false → IsRoute (network matrix slice trans) index q v →
      cost (network matrix slice trans).weight p ≤ cost (network matrix slice trans).weight q)
    (hstart : Started index s fromNode) (y : Node) :
    (y ≠ fromNode ∧ s.visited y = false ∧ HasRoom matrix slice trans fromNode y ∧
      label index (relax matrix slice trans s fromNode) y =
        some (cost (network matrix slice trans).weight p + (matrix fromNode y).toInt) ∧
      (relax matrix slice trans s fromNode).prevs y = some fromNode ∧
      ∀ b, label index s y = some b →
        cost (network matrix slice trans).weight p + (matrix fromNode y).toInt ≤ b) ∨
    (label index (relax matrix slice trans s fromNode) y = label index s y ∧
      (relax matrix slice trans s fromNode).prevs y = s.prevs y ∧
      (y ≠ fromNode → s.visited y = false → HasRoom matrix slice trans fromNode y →
        ∃ b, label index s y = some b ∧
          b ≤ cost (network matrix slice trans).weight p + (matrix fromNode y).toInt)) := by
  have hnonneg : 0 ≤ cost (network matrix slice trans).weight p :=
    cost_nonneg fun e he => nonneg_weight matrix slice trans e (hp.route.usable e he)
  have hindex : ∀ {y}, y ≠ fromNode → s.visited y = false → y ≠ index := by
    rintro y hy hnew rfl
    rcases hstart.first with hvisited | heq
    · rw [hnew] at hvisited
      cases hvisited
    · exact hy heq
  have hlooks : s.visited y = false →
      LooksFrom matrix slice trans index taskNode p fromNode y := fun hnew =>
    ⟨hp, hne, fun q hq => hleast taskNode q h.unsettled hq, fun q hq => hleast y q hnew hq⟩
  have hroom : s.visited y = false → 0 < matrix fromNode y →
      (slice fromNode y + trans ≤ MAX_SLICE ↔ HasRoom matrix slice trans fromNode y) := by
    intro hnew hlink
    obtain ⟨hle, hlt⟩ := hfits.room p fromNode y (hlooks hnew) hlink
    rw [Int32.le_iff_toInt_le, toInt_add_of_fits hle hlt]
    exact (and_iff_right (Int32.lt_iff_toInt_lt.mp hlink)).symm
  have hnewWeight : s.visited y = false → HasRoom matrix slice trans fromNode y →
      (newWeight matrix s.weights fromNode y).toInt =
        cost (network matrix slice trans).weight p + (matrix fromNode y).toInt := fun hnew hy =>
    toInt_newWeight h.source hlabel hnonneg hy.1 (hfits.weight p fromNode y (hlooks hnew) hy)
  rcases relax_cases matrix slice trans s fromNode y with
    ⟨⟨hy, hnew⟩, hlink, hlt, hslice, hweights, hprevs⟩ | ⟨hkept, hweights, hprevs⟩
  · have husable := (hroom hnew hlink).mp hslice
    have hsum := hnewWeight hnew husable
    refine .inl ⟨hy, hnew, husable, ?_, hprevs, fun b hb => ?_⟩
    · refine (label_eq_some (hindex hy hnew)).mpr ⟨?_, ?_⟩
      · rw [hweights]
        intro hmax
        rw [hmax, Int32.lt_iff_toInt_lt] at hlt
        exact absurd (s.weights y).toInt_le (not_le.mpr hlt)
      · rw [hweights, hsum]
    · obtain ⟨-, rfl⟩ := (label_eq_some (hindex hy hnew)).mp hb
      rw [← hsum]
      exact (Int32.lt_iff_toInt_lt.mp hlt).le
  · refine .inr ⟨?_, hprevs, fun hy hnew husable => ?_⟩
    · rw [label, label, hweights]
    · have hlink : 0 < matrix fromNode y := Int32.lt_iff_toInt_lt.mpr husable.1
      have hle := hkept hy hnew hlink ((hroom hnew hlink).mpr husable)
      rw [Int32.le_iff_toInt_le, hnewWeight hnew husable] at hle
      refine ⟨_, (label_eq_some (hindex hy hnew)).mpr ⟨fun hmax => ?_, rfl⟩, hle⟩
      have hlt := hfits.weight p fromNode y (hlooks hnew) husable
      rw [hmax] at hle
      exact absurd hle (not_le.mpr hlt)

theorem Growing.frontier_relax (hne : fromNode ≠ taskNode) (hstart : Started index s fromNode)
    (hreach : ∃ q, IsRoute (network matrix slice trans) index q taskNode) :
    Frontier (network matrix slice trans) index 0
      (fun y => (relax matrix slice trans s fromNode).visited y = true)
      (label index (relax matrix slice trans s fromNode)) := by
  obtain ⟨way, -, -, hp, hlabel, hleast⟩ := h.exists_shortest hreach
  have hcases := h.relax_label hfits hne hp hlabel hleast hstart
  generalize cost (network matrix slice trans).weight (links (way ++ [index])).reverse = a at *
  have hsame : ∀ {y}, y = fromNode ∨ s.visited y = true →
      label index (relax matrix slice trans s fromNode) y = label index s y := by
    intro y hy
    rw [label, label, (relax_visited hy).1]
  have hnew : ∀ {y}, ¬(relax matrix slice trans s fromNode).visited y = true →
      y ≠ fromNode ∧ s.visited y = false := by
    intro y hy
    rw [visited_relax, not_or, Bool.not_eq_true] at hy
    exact hy
  have hfar : ∀ {y b}, y ≠ fromNode → s.visited y = false →
      label index (relax matrix slice trans s fromNode) y = some b → a ≤ b := by
    intro y b hy hunvisited hb
    rcases hcases y with ⟨-, -, husable, hfound, -, -⟩ | ⟨hkept, -, -⟩
    · rw [hfound] at hb
      have hpos := husable.1
      have heq := Option.some.inj hb
      omega
    · rw [hkept] at hb
      obtain ⟨c, hc, hle⟩ := h.nearest.least y b (by rw [hunvisited]; exact Bool.false_ne_true) hb
      rw [hlabel] at hc
      exact Option.some.inj hc ▸ hle
  have hnearer : ∀ {u}, s.visited u = true → ∃ c, label index s u = some c ∧ c ≤ a :=
    fun {u} hu => h.frontier.nearer u fromNode a hu h.nearest.unsettled hlabel
  refine ⟨label_index index _, ?_, ?_⟩
  · rintro ⟨x, y⟩ c husable hx hc
    dsimp only [network] at husable hx hc ⊢
    rw [visited_relax] at hx
    rw [hsame hx] at hc
    have hpos := husable.1
    rcases hx with rfl | hx
    · rw [hlabel] at hc
      obtain rfl := Option.some.inj hc
      by_cases hy : y = x ∨ s.visited y = true
      · rw [hsame hy]
        rcases hy with rfl | hy
        · exact ⟨_, hlabel, by omega⟩
        · obtain ⟨b, hb, hle⟩ := hnearer hy
          exact ⟨b, hb, by omega⟩
      · rw [not_or, Bool.not_eq_true] at hy
        rcases hcases y with ⟨-, -, -, hfound, -, -⟩ | ⟨hkept, -, hbest⟩
        · exact ⟨_, hfound, le_rfl⟩
        · rw [hkept]
          exact hbest hy.1 hy.2 husable
    · obtain ⟨b, hb, hle⟩ := h.frontier.relaxed (x, y) c husable hx hc
      rcases hcases y with ⟨-, -, -, hfound, -, hbetter⟩ | ⟨hkept, -, -⟩
      · exact ⟨_, hfound, (hbetter b hb).trans hle⟩
      · exact ⟨b, hkept.trans hb, hle⟩
  · intro u v b hu hv hb
    obtain ⟨hvne, hvnew⟩ := hnew hv
    have hle := hfar hvne hvnew hb
    rw [visited_relax] at hu
    rw [hsame hu]
    rcases hu with rfl | hu
    · exact ⟨a, hlabel, hle⟩
    · obtain ⟨c, hc, hca⟩ := hnearer hu
      exact ⟨c, hc, hca.trans hle⟩

theorem Growing.found_relax (hne : fromNode ≠ taskNode) (hstart : Started index s fromNode)
    (hreach : ∃ q, IsRoute (network matrix slice trans) index q taskNode) {y : Node} {a : ℤ}
    (ha : label index (relax matrix slice trans s fromNode) y = some a) :
    Found matrix slice trans index (relax matrix slice trans s fromNode) y a := by
  obtain ⟨way, hway, hvisited, hp, hlabel, hleast⟩ := h.exists_shortest hreach
  have hstart' := hstart.relax matrix slice trans fromNode
  have hnone : ∀ z, s.prevs z = none → (relax matrix slice trans s fromNode).prevs z = none :=
    fun z hz => (hstart'.start z).mpr ((hstart.start z).mp hz)
  rcases h.relax_label hfits hne hp hlabel hleast hstart y with
    ⟨-, -, husable, hfound, hprevs, -⟩ | ⟨hkept, hprevs, -⟩
  · rw [hfound] at ha
    obtain rfl := Option.some.inj ha
    have hway' : Way (relax matrix slice trans s fromNode).prevs fromNode way :=
      way_congr hway hnone fun z hz => (relax_visited (hvisited z hz)).2
    have hlinks : (links (y :: way ++ [index])).reverse =
        (links (way ++ [index])).reverse ++ [(fromNode, y)] := by
      rw [hway'.links_cons hstart'.start, List.reverse_cons]
    refine ⟨y :: way, ⟨rfl, fromNode, hprevs, hway'⟩, ?_, ?_, ?_⟩
    · intro z hz
      rcases List.mem_cons.mp hz with rfl | hz
      · exact .inl rfl
      · exact .inr (visited_relax.mpr (hvisited z hz))
    · rw [hlinks]
      exact isRoute_append.mpr ⟨fromNode, hp.route, isRoute_singleton (e := (fromNode, y)) husable⟩
    · rw [hlinks, cost_append, cost_cons, cost_nil, add_zero]
      rfl
  · rw [hkept] at ha
    obtain ⟨way', hway', hvisited', hroute, hcost⟩ := h.found y a ha
    refine ⟨way', ?_, fun z hz => (hvisited' z hz).imp_right fun hz => visited_relax.mpr (.inr hz),
      hroute, hcost⟩
    refine way_congr hway' hnone fun z hz => ?_
    rcases hvisited' z hz with rfl | hz
    · exact hprevs
    · exact (relax_visited (.inr hz)).2

theorem Growing.step (hne : fromNode ≠ taskNode) (hstart : Started index s fromNode)
    (hreach : ∃ q, IsRoute (network matrix slice trans) index q taskNode) :
    Growing matrix slice trans index taskNode (relax matrix slice trans s fromNode)
      (indexOfMin (relax matrix slice trans s fromNode)) := by
  have hfrontier := h.frontier_relax hfits hne hstart hreach
  have hstart' := hstart.relax matrix slice trans fromNode
  have hunsettled : (relax matrix slice trans s fromNode).visited taskNode = false := by
    rw [← Bool.not_eq_true, visited_relax, not_or, Bool.not_eq_true]
    exact ⟨hne.symm, h.unsettled⟩
  have hindex : (relax matrix slice trans s fromNode).visited index = true :=
    visited_relax.mpr hstart.first.symm
  obtain ⟨hnext, hleast⟩ := indexOfMin_spec hunsettled
  have hnot : ∀ {y}, (relax matrix slice trans s fromNode).visited y = false → y ≠ index := by
    rintro y hy rfl
    rw [hindex] at hy
    cases hy
  refine ⟨hunsettled, ?_, hfrontier, ⟨by rw [hnext]; exact Bool.false_ne_true, fun x a hx ha => ?_⟩,
    fun y a ha => h.found_relax hfits hne hstart hreach ha⟩
  · rw [(relax_visited hstart.first.symm).1]
    exact h.source
  · rw [Bool.not_eq_true] at hx
    obtain ⟨hmax, rfl⟩ := (label_eq_some (hnot hx)).mp ha
    have hle := hleast x hx
    refine ⟨_, (label_eq_some (hnot hnext)).mpr ⟨fun heq => ?_, rfl⟩, hle⟩
    rw [heq] at hle
    exact absurd hle (not_le.mpr (toInt_lt_of_ne hmax))

end

end

theorem growing_start (hne : index ≠ taskNode) :
    Growing matrix slice trans index taskNode (start index) index := by
  have hlabel : ∀ {y a}, label index (start index) y = some a → y = index ∧ a = 0 := by
    intro y a ha
    by_cases hy : y = index
    · subst hy
      rw [label_index] at ha
      exact ⟨rfl, (Option.some.inj ha).symm⟩
    · exact absurd rfl ((label_eq_some hy).mp ha).1
  have hunvisited : ∀ y, ¬(start index).visited y = true := fun _ => Bool.false_ne_true
  refine ⟨rfl, rfl, ⟨label_index index _, fun e a _ he => absurd he (hunvisited _),
    fun u v b hu => absurd hu (hunvisited _)⟩, ⟨hunvisited _, fun x a _ ha => ?_⟩, fun y a ha => ?_⟩
  · obtain ⟨rfl, rfl⟩ := hlabel ha
    exact ⟨0, label_index x _, le_rfl⟩
  · obtain ⟨rfl, rfl⟩ := hlabel ha
    have hway := ((started_start y).start y).mpr rfl
    refine ⟨[], hway, fun z hz => absurd hz List.not_mem_nil, ?_, rfl⟩
    exact ⟨rfl, fun e he => absurd he List.not_mem_nil⟩

structure SearchInv (matrix slice : IntMatrix) (trans : Int32) (index taskNode : Node) (s : Search)
    (fromNode : Node) : Prop where
  started : Started index s fromNode
  phase : Growing matrix slice trans index taskNode s fromNode ∨
    Settled matrix slice trans index taskNode s

theorem SearchInv.step (h : SearchInv matrix slice trans index taskNode s fromNode)
    (hne : index ≠ taskNode)
    (hreach : ∃ q, IsRoute (network matrix slice trans) index q taskNode)
    (hfits : Fits matrix slice trans index taskNode) :
    SearchInv matrix slice trans index taskNode (relax matrix slice trans s fromNode)
      (indexOfMin (relax matrix slice trans s fromNode)) := by
  refine ⟨h.started.relax matrix slice trans _, ?_⟩
  rcases h.phase with hgrowing | hsettled
  · by_cases hfrom : fromNode = taskNode
    · subst hfrom
      exact .inr (hgrowing.settled hne.symm h.started hreach)
    · exact .inl (hgrowing.step hfits hfrom h.started hreach)
  · exact .inr (hsettled.relax h.started)

end Searching

section Answers

variable {matrix slice : IntMatrix} {trans : Int32} {index taskNode : Node}

variable {prevs : Node → Option Node} {x : Node}

theorem reserveAll_ok {way : List Node} {fuel : ℕ}
    (h : Way prevs x way) (hfuel : way.length < fuel) (trans : Int32) (slice : IntMatrix) :
    ∃ slice', reserveAll prevs trans fuel x slice = .ok slice' := by
  induction fuel generalizing x way slice with
  | zero => exact absurd hfuel (Nat.not_lt_zero _)
  | succ fuel ih =>
    cases way with
    | nil =>
      have hx : prevs x = none := h
      rw [reserveAll, hx]
      exact ⟨slice, rfl⟩
    | cons y way =>
      obtain ⟨rfl, p, hp, hway⟩ := h
      rw [reserveAll, hp]
      exact ih hway (by simpa using hfuel) (reserve slice p y trans)

theorem allPrevs_of_way {way : List Node}
    (h : Way prevs x (x :: way)) : allPrevs prevs x = .ok way.reverse := by
  have hlen := h.length_le
  obtain ⟨-, p, hp, hway⟩ := h
  rw [allPrevs, hp]
  dsimp only
  rw [follow_eq_ok.mpr ⟨hway, by rw [List.length_cons] at hlen; omega⟩]
  rfl

/-- Only the node that the routes start from is without a predecessor, so that the way back from
another one ends, if it does, with an answer. -/
theorem exists_search (matrix slice : IntMatrix) (trans : Int32) (index : Node) :
    ∃ s, rounds matrix slice trans N (start index) index = .ok s ∧
      ∀ y, s.prevs y = none ↔ y = index := by
  obtain ⟨s, fromNode, hrounds, hstart, -⟩ := rounds_start (Started index)
    (fun s fromNode h _ => h.relax matrix slice trans _) (started_start index)
  exact ⟨s, hrounds, hstart.start⟩

theorem follow_error {fuel : ℕ} {e : Failure}
    (h : DagRoutes.follow prevs fuel x = .error e) : e = .endless := by
  induction fuel generalizing x with
  | zero => exact (Except.error.inj h).symm
  | succ fuel ih =>
    rw [DagRoutes.follow] at h
    cases hx : prevs x with
    | none =>
      rw [hx] at h
      cases h
    | some next =>
      rw [hx] at h
      exact ih (map_eq_error.mp h)

theorem dijkstraPath_cases (matrix slice : IntMatrix) (trans : Int32) (h : index ≠ taskNode) :
    dijkstraPath matrix slice trans index taskNode = .error .endless ∨
      ∃ a, dijkstraPath matrix slice trans index taskNode = .ok a := by
  obtain ⟨s, hrounds, hstart⟩ := exists_search matrix slice trans index
  rw [dijkstraPath, hrounds]
  dsimp only [Except.bind]
  obtain ⟨p, hp⟩ : ∃ p, s.prevs taskNode = some p :=
    Option.ne_none_iff_exists'.mp fun hnone => h ((hstart taskNode).mp hnone).symm
  cases hprevs : allPrevs s.prevs taskNode with
  | error e =>
    left
    rw [allPrevs, hp] at hprevs
    rw [follow_error (map_eq_error.mp hprevs)]
  | ok nodesInPath =>
    right
    have hway := allPrevs_eq_ok hprevs
    have hlen := hway.length_le
    obtain ⟨slice', hslice⟩ := reserveAll_ok hway (Nat.lt_succ_of_le hlen) trans slice
    rw [hslice]
    exact ⟨_, rfl⟩

theorem FindsShortest.reachable (h : FindsShortest matrix slice trans index taskNode)
    (hne : index ≠ taskNode) : ∃ p, IsRoute (network matrix slice trans) index p taskNode := by
  rcases dijkstraPath_cases matrix slice trans hne with hendless | ⟨a, ha⟩
  · exact absurd hendless h.ends
  · exact ⟨_, (h.shortest a ha).1.route⟩

theorem exists_settled (hne : index ≠ taskNode)
    (hreach : ∃ p, IsRoute (network matrix slice trans) index p taskNode)
    (hfits : Fits matrix slice trans index taskNode) :
    ∃ s, rounds matrix slice trans N (start index) index = .ok s ∧
      Settled matrix slice trans index taskNode s := by
  obtain ⟨s, fromNode, hrounds, h, hall⟩ := rounds_start
    (SearchInv matrix slice trans index taskNode) (fun s fromNode h _ => h.step hne hreach hfits)
    ⟨started_start index, .inl (growing_start hne)⟩
  refine ⟨s, hrounds, h.phase.resolve_left fun hgrowing => ?_⟩
  have hunsettled := hgrowing.unsettled
  rw [hall taskNode] at hunsettled
  cases hunsettled

theorem findsShortest_of_settled {s : Search} (hne : index ≠ taskNode)
    (hrounds : rounds matrix slice trans N (start index) index = .ok s)
    (h : Settled matrix slice trans index taskNode s) :
    FindsShortest matrix slice trans index taskNode := by
  obtain ⟨way, hway, -, -, hshortest, hweight⟩ := h
  obtain ⟨s', hrounds', hstart⟩ := exists_search matrix slice trans index
  obtain rfl := Except.ok.inj (hrounds.symm.trans hrounds')
  obtain ⟨rest, rfl⟩ : ∃ rest, way = taskNode :: rest := by
    cases way with
    | nil => exact absurd ((hstart taskNode).mp hway) hne.symm
    | cons y rest =>
      obtain ⟨rfl, -⟩ := hway
      exact ⟨rest, rfl⟩
  have hlen := hway.length_le
  obtain ⟨slice', hslice⟩ := reserveAll_ok hway (Nat.lt_succ_of_le hlen) trans slice
  have hok : dijkstraPath matrix slice trans index taskNode =
      .ok ⟨slice', rest.reverse, s.weights taskNode⟩ := by
    rw [dijkstraPath, hrounds, Except.bind, allPrevs_of_way hway, Except.bind, hslice]
    rfl
  refine ⟨fun h => ?_, fun a ha => ?_, fun hnone => absurd hshortest.route (hnone _)⟩
  · rw [hok] at h
    cases h
  · obtain rfl := Except.ok.inj (hok.symm.trans ha)
    dsimp only [walk]
    rw [List.reverse_reverse]
    exact ⟨hshortest, hweight⟩

def oneLink : IntMatrix := fun a b => if a.val + b.val = 3 ∧ a.val * b.val = 2 then 1 else 0

theorem hasRoom_oneLink {a b : Node} (h : HasRoom oneLink (fun _ _ => 0) 1 a b) :
    a.val + b.val = 3 ∧ a.val * b.val = 2 := by
  obtain ⟨hlink, -⟩ := h
  rw [oneLink] at hlink
  split_ifs at hlink with hab
  · exact hab
  · exact absurd hlink (by decide)

/-- The search from node 0: in the second round it goes on from node 1, and finds node 2 there. -/
def Detoured (s : Search) (fromNode : Node) : Prop :=
  s = start 0 ∧ fromNode = 0 ∨
    s = relax oneLink (fun _ _ => 0) 1 (start 0) 0 ∧ fromNode = 1 ∨
    (s.visited 0 = true ∧ s.visited 1 = true) ∧
      (s.prevs 0 = none ∧ s.prevs 1 = some 0 ∧ s.prevs 2 = some 1) ∧ s.weights 2 = 1

theorem Detoured.step {s : Search} {fromNode : Node} (h : Detoured s fromNode)
    (hfrom : s.visited fromNode = false) :
    Detoured (relax oneLink (fun _ _ => 0) 1 s fromNode)
      (indexOfMin (relax oneLink (fun _ _ => 0) 1 s fromNode)) := by
  obtain ⟨rfl, rfl⟩ | ⟨rfl, rfl⟩ | ⟨⟨hzero, hone⟩, hprevs, hweight⟩ := h
  · exact .inr (.inl ⟨rfl, by decide +kernel⟩)
  · exact .inr (.inr (by decide))
  · -- node 1 is visited, and no other node is linked to node 2
    have htwo : (relax oneLink (fun _ _ => 0) 1 s fromNode).prevs 2 = s.prevs 2 ∧
        (relax oneLink (fun _ _ => 0) 1 s fromNode).weights 2 = s.weights 2 := by
      rcases relax_cases oneLink (fun _ _ => 0) 1 s fromNode 2 with
        ⟨-, hlink, -⟩ | ⟨-, hweights, hkept⟩
      · rw [oneLink] at hlink
        split_ifs at hlink with hsum
        · have heq : fromNode = 1 := Fin.ext (Nat.add_right_cancel hsum.1)
          rw [heq, hone] at hfrom
          cases hfrom
        · exact absurd hlink (by decide)
      · exact ⟨hkept, hweights⟩
    refine .inr (.inr ⟨⟨visited_relax.mpr (.inr hzero), visited_relax.mpr (.inr hone)⟩, ?_, ?_⟩)
    · rw [(relax_visited (.inr hzero)).2, (relax_visited (.inr hone)).2, htwo.1]
      exact hprevs
    · rw [htwo.2]
      exact hweight

end Answers

end DagReservedRoutes

import Mathlib.Data.List.Basic
import Mathlib.Data.List.Perm.Basic
import Mathlib.Order.Nat

/-! The array-backed heap. The items are compared from outside, so that the order may change under
the heap; `heapify` then restores it. The node with index `i` has the nodes `2 * i` and
`2 * i + 1` below it, and node zero only the first of all. -/
namespace Heap

variable {α : Type*} (less : α → α → Bool)

/-- `comparator.compare(data.get(i), data.get(k)) < 0`, for two indices of the list. -/
def isLess (data : List α) (i k : ℕ) : Bool :=
  match data[i]?, data[k]? with
  | some a, some b => less a b
  | _, _ => false

def swap (data : List α) (i k : ℕ) : List α :=
  match data[i]?, data[k]? with
  | some a, some b => (data.set i b).set k a
  | _, _ => data

def extremeOf (data : List α) (i : ℕ) : ℕ :=
  let left := 2 * i + 1
  let right := 2 * i
  let extreme := if left < data.length ∧ isLess less data i left then left else i
  if right < data.length ∧ isLess less data extreme right then right else extreme

def heapifyFrom : ℕ → List α → ℕ → List α
  | 0, data, _ => data
  | fuel + 1, data, i =>
    let extreme := extremeOf less data i
    if extreme ≠ i then heapifyFrom fuel (swap data i extreme) extreme else data

def heapify (data : List α) : List α :=
  (List.range (data.length / 2 + 1)).reverse.foldl
    (fun data i => heapifyFrom less data.length data i) data

def extreme (data : List α) : Option α := data.head?

def extractExtreme (data : List α) : Option (α × List α) :=
  match extreme data, data.getLast? with
  | some a, some last => some (a, heapify less ((data.set 0 last).dropLast))
  | _, _ => none

/-- Moves the item of a node up, as long as it is at least the item above it. -/
def bubbleUp (data : List α) (child : ℕ) : List α :=
  if 0 < child then
    if isLess less data child (child / 2) then data
    else bubbleUp (swap data child (child / 2)) (child / 2)
  else data
termination_by child

def insert (data : List α) (item : α) : List α :=
  bubbleUp less (data ++ [item]) data.length

section Positions

def IsBelow (c p : ℕ) : Prop := 0 < c ∧ c / 2 = p

theorem below_cases {c p : ℕ} (h : IsBelow c p) : c = 2 * p + 1 ∨ (c = 2 * p ∧ 0 < p) := by
  obtain ⟨hpos, hdiv⟩ := h
  omega

theorem lt_of_below {c p : ℕ} (h : IsBelow c p) : p < c := by
  obtain ⟨hpos, hdiv⟩ := h
  omega

theorem getElem?_swap {data : List α} {i k : ℕ} (hi : i < data.length) (hk : k < data.length)
    (j : ℕ) : (swap data i k)[j]? =
      if j = k then data[i]? else if j = i then data[k]? else data[j]? := by
  unfold swap
  rw [List.getElem?_eq_getElem hi, List.getElem?_eq_getElem hk]
  dsimp only
  rw [List.getElem?_set, List.getElem?_set, List.length_set]
  by_cases hjk : j = k
  · subst hjk
    simp [hk]
  · rw [if_neg (Ne.symm hjk), if_neg hjk]
    by_cases hji : j = i
    · subst hji
      simp [hi]
    · rw [if_neg (Ne.symm hji), if_neg hji]

theorem swap_perm (data : List α) (i k : ℕ) : (swap data i k).Perm data := by
  unfold swap
  split
  case h_1 a b ha hb =>
    obtain ⟨hi, rfl⟩ := List.getElem?_eq_some_iff.mp ha
    obtain ⟨hk, rfl⟩ := List.getElem?_eq_some_iff.mp hb
    exact List.set_set_perm hi hk
  case h_2 => exact List.Perm.refl data

theorem heapifyFrom_perm (fuel : ℕ) (data : List α) (i : ℕ) :
    (heapifyFrom less fuel data i).Perm data := by
  induction fuel generalizing data i with
  | zero => exact List.Perm.refl data
  | succ fuel ih =>
    simp only [heapifyFrom]
    split
    · exact (ih _ _).trans (swap_perm _ _ _)
    · exact List.Perm.refl data

theorem foldl_heapifyFrom_perm (nodes : List ℕ) (data : List α) :
    (nodes.foldl (fun data i => heapifyFrom less data.length data i) data).Perm data := by
  induction nodes generalizing data with
  | nil => exact List.Perm.refl data
  | cons i nodes ih => exact (ih _).trans (heapifyFrom_perm less _ _ _)

theorem heapify_perm (data : List α) : (heapify less data).Perm data :=
  foldl_heapifyFrom_perm less _ _

end Positions

section Order

/-- What the heap needs of its comparator: `less` is the strict part of a total preorder. -/
structure IsOrder : Prop where
  asymm : ∀ a b, less a b = true → less b a = false
  trans : ∀ a b c, less a b = false → less b c = false → less a c = false

def AtLeast (data : List α) (i k : ℕ) : Prop := isLess less data i k = false

def HeapFrom (k : ℕ) (data : List α) : Prop :=
  ∀ p c, k ≤ p → IsBelow c p → AtLeast less data p c

/-- As `HeapFrom`, with the node `i` out of order; the node above `i` is at least the nodes
below `i`. -/
structure HeapBut (k i : ℕ) (data : List α) : Prop where
  others : ∀ p c, k ≤ p → p ≠ i → IsBelow c p → AtLeast less data p c
  above : ∀ p c, k ≤ p → IsBelow i p → IsBelow c i → AtLeast less data p c

variable {less}

variable {data : List α} {i k : ℕ}

theorem isLess_iff : isLess less data i k = true ↔
    ∃ a b, data[i]? = some a ∧ data[k]? = some b ∧ less a b = true := by
  unfold isLess
  cases data[i]? <;> cases data[k]? <;> simp

theorem atLeast_iff : AtLeast less data i k ↔
    ∀ a b, data[i]? = some a → data[k]? = some b → less a b = false := by
  unfold AtLeast isLess
  cases data[i]? <;> cases data[k]? <;> simp

theorem atLeast_of_length_le (h : data.length ≤ k) : AtLeast less data i k := by
  rw [atLeast_iff]
  intro a b _ hb
  rw [List.getElem?_eq_none h] at hb
  cases hb

section

variable (hord : IsOrder less)

include hord

theorem IsOrder.irrefl (a : α) : less a a = false := by
  cases h : less a a with
  | false => rfl
  | true => exact h.symm.trans (hord.asymm a a h)

theorem IsOrder.atLeast_refl (data : List α) (i : ℕ) : AtLeast less data i i := by
  rw [atLeast_iff]
  intro a b ha hb
  obtain rfl : a = b := Option.some.inj (ha.symm.trans hb)
  exact hord.irrefl a

theorem IsOrder.atLeast_of_isLess (h : isLess less data i k = true) : AtLeast less data k i := by
  obtain ⟨a, b, ha, hb, hab⟩ := isLess_iff.mp h
  rw [atLeast_iff]
  intro b' a' hb' ha'
  obtain rfl : a = a' := Option.some.inj (ha.symm.trans ha')
  obtain rfl : b = b' := Option.some.inj (hb.symm.trans hb')
  exact hord.asymm a b hab

theorem IsOrder.atLeast_trans {i j k : ℕ}
    (hj : j < data.length) (hij : AtLeast less data i j) (hjk : AtLeast less data j k) :
    AtLeast less data i k := by
  rw [atLeast_iff] at hij hjk ⊢
  intro a c ha hc
  have hb : data[j]? = some data[j] := List.getElem?_eq_getElem hj
  exact hord.trans a _ c (hij a _ ha hb) (hjk _ c hb hc)

/-- The node `extremeOf` names is in place, at most one layer down, and at least the node and
both nodes below it. -/
theorem extremeOf_spec (hi : i < data.length) : extremeOf less data i < data.length ∧
    (extremeOf less data i = i ∨ IsBelow (extremeOf less data i) i) ∧
    AtLeast less data (extremeOf less data i) i ∧
    ∀ c, IsBelow c i → AtLeast less data (extremeOf less data i) c := by
  -- the first comparison, against `2 * i + 1`
  obtain ⟨e, he, hlt, hcase, hei, hel⟩ : ∃ e,
      (if 2 * i + 1 < data.length ∧ isLess less data i (2 * i + 1) then 2 * i + 1 else i) = e ∧
      e < data.length ∧ (e = i ∨ e = 2 * i + 1) ∧ AtLeast less data e i ∧
      AtLeast less data e (2 * i + 1) := by
    by_cases h : 2 * i + 1 < data.length ∧ isLess less data i (2 * i + 1)
    · exact ⟨_, if_pos h, h.1, .inr rfl, hord.atLeast_of_isLess h.2, hord.atLeast_refl _ _⟩
    · refine ⟨_, if_neg h, hi, .inl rfl, hord.atLeast_refl _ _, ?_⟩
      by_cases hlen : 2 * i + 1 < data.length
      · exact Bool.eq_false_iff.mpr fun hless => h ⟨hlen, hless⟩
      · exact atLeast_of_length_le (Nat.le_of_not_lt hlen)
  have hval : extremeOf less data i =
      if 2 * i < data.length ∧ isLess less data e (2 * i) then 2 * i else e := by
    simp only [extremeOf, he]
  rw [hval]
  by_cases h : 2 * i < data.length ∧ isLess less data e (2 * i)
  · -- for node zero the second comparison is against node zero again, and never holds
    rw [if_pos h]
    have her : AtLeast less data (2 * i) e := hord.atLeast_of_isLess h.2
    have hpos : 0 < i := by
      apply Nat.pos_of_ne_zero
      rintro rfl
      exact Bool.noConfusion (h.2.symm.trans hei)
    refine ⟨h.1, .inr ⟨by omega, by omega⟩, hord.atLeast_trans hlt her hei, fun c hc => ?_⟩
    obtain rfl | ⟨rfl, -⟩ := below_cases hc
    · exact hord.atLeast_trans hlt her hel
    · exact hord.atLeast_refl _ _
  · rw [if_neg h]
    have her : AtLeast less data e (2 * i) := by
      by_cases hlen : 2 * i < data.length
      · exact Bool.eq_false_iff.mpr fun hless => h ⟨hlen, hless⟩
      · exact atLeast_of_length_le (Nat.le_of_not_lt hlen)
    refine ⟨hlt, ?_, hei, fun c hc => ?_⟩
    · obtain rfl | rfl := hcase
      · exact .inl rfl
      · exact .inr ⟨by omega, by omega⟩
    · obtain rfl | ⟨rfl, -⟩ := below_cases hc
      · exact hel
      · exact her

end

theorem length_swap (data : List α) (i k : ℕ) : (swap data i k).length = data.length :=
  (swap_perm data i k).length_eq

theorem HeapBut.swap_extreme (h : HeapBut less k i data) (hk : k ≤ i) (hi : i < data.length) {e : ℕ}
    (he : e < data.length) (hbelow : IsBelow e i) (hei : AtLeast less data e i)
    (hec : ∀ c, IsBelow c i → AtLeast less data e c) :
    HeapBut less k e (swap data i e) := by
  have hie : i < e := lt_of_below hbelow
  have hget := getElem?_swap hi he
  -- what the exchange does to a comparison, node by node
  have hat : ∀ p c p' c', (swap data i e)[p]? = data[p']? → (swap data i e)[c]? = data[c']? →
      AtLeast less data p' c' → AtLeast less (swap data i e) p c := by
    intro p c p' c' hp hc hpc
    rw [atLeast_iff, hp, hc]
    exact atLeast_iff.mp hpc
  have hati : (swap data i e)[i]? = data[e]? := by
    rw [hget, if_neg (by omega), if_pos rfl]
  have hate : (swap data i e)[e]? = data[i]? := by
    rw [hget, if_pos rfl]
  have hato : ∀ j, j ≠ i → j ≠ e → (swap data i e)[j]? = data[j]? := by
    intro j hji hje
    rw [hget, if_neg hje, if_neg hji]
  refine ⟨fun p c hkp hpe hcp => ?_, fun p c hkp hep hce => ?_⟩
  · by_cases hpi : p = i
    · subst hpi
      by_cases hce : c = e
      · exact hat _ _ _ _ hati (hce ▸ hate) hei
      · exact hat _ _ _ _ hati (hato c (lt_of_below hcp).ne' hce) (hec c hcp)
    · have hp := hato p hpi hpe
      by_cases hci : c = i
      · exact hat _ _ _ _ hp (hci ▸ hati) (h.above p e hkp (hci ▸ hcp) hbelow)
      · have hce : c ≠ e := by
          rintro rfl
          exact hpi (hcp.2.symm.trans hbelow.2)
        exact hat _ _ _ _ hp (hato c hci hce) (h.others p c hkp hpi hcp)
  · obtain rfl : p = i := hep.2.symm.trans hbelow.2
    have hc : e < c := lt_of_below hce
    exact hat _ _ _ _ hati (hato c (by omega) hc.ne') (h.others e c (by omega) hie.ne' hce)

section

variable (hord : IsOrder less)

include hord

theorem heapifyFrom_spec (fuel : ℕ)
    (h : HeapBut less k i data) (hk : k ≤ i) (hfuel : data.length ≤ i + fuel) :
    HeapFrom less k (heapifyFrom less fuel data i) := by
  induction fuel generalizing data i with
  | zero =>
    intro p c hkp hcp
    rw [heapifyFrom]
    by_cases hpi : p = i
    · exact atLeast_of_length_le (by have := lt_of_below hcp; omega)
    · exact h.others p c hkp hpi hcp
  | succ fuel ih =>
    by_cases hi : i < data.length
    · obtain ⟨he, hcase, hei, hec⟩ := extremeOf_spec hord hi
      simp only [heapifyFrom]
      split
      case isTrue hne =>
        have hbelow := hcase.resolve_left hne
        have hlt := lt_of_below hbelow
        refine ih (h.swap_extreme hk hi he hbelow hei hec) (by omega) ?_
        rw [length_swap]
        omega
      case isFalse heq =>
        rw [Decidable.not_not] at heq
        intro p c hkp hcp
        by_cases hpi : p = i
        · rw [hpi, ← heq]
          exact hec c (hpi ▸ hcp)
        · exact h.others p c hkp hpi hcp
    · -- a node past the end has nothing below it and nothing to be exchanged with
      have hnone : data[i]? = none := List.getElem?_eq_none (Nat.le_of_not_lt hi)
      have hsame : extremeOf less data i = i := by
        have hleft : ¬ 2 * i + 1 < data.length := by omega
        by_cases hr : 2 * i < data.length ∧ isLess less data i (2 * i)
        · obtain ⟨a, b, ha, -, -⟩ := isLess_iff.mp hr.2
          rw [hnone] at ha
          cases ha
        · simp only [extremeOf, hleft, false_and, if_false, hr]
      simp only [heapifyFrom, hsame, ne_eq, not_true_eq_false, if_false]
      intro p c hkp hcp
      by_cases hpi : p = i
      · exact atLeast_of_length_le (by have := lt_of_below hcp; omega)
      · exact h.others p c hkp hpi hcp

/-- Going down from the last node with something below it puts every node in order, whatever the
order was before. -/
theorem foldl_heapifyFrom_heapFrom (n : ℕ) (h : HeapFrom less n data) :
    HeapFrom less 0 ((List.range n).reverse.foldl
      (fun data i => heapifyFrom less data.length data i) data) := by
  induction n generalizing data with
  | zero => exact h
  | succ n ih =>
    rw [List.range_succ, List.reverse_append]
    apply ih
    apply heapifyFrom_spec hord _ _ le_rfl (by omega)
    refine ⟨fun p c hkp hpn hcp => h p c (by omega) hcp, fun p c hkp hnp _ => ?_⟩
    have := lt_of_below hnp
    omega

theorem heapify_heapFrom (data : List α) : HeapFrom less 0 (heapify less data) := by
  apply foldl_heapifyFrom_heapFrom hord
  intro p c hkp hcp
  obtain ⟨-, hdiv⟩ := hcp
  apply atLeast_of_length_le
  omega

theorem HeapFrom.root_atLeast
    (h : HeapFrom less 0 data) (j : ℕ) (hj : j < data.length) : AtLeast less data 0 j := by
  induction j using Nat.strongRecOn with
  | ind j ih =>
    rcases Nat.eq_zero_or_pos j with rfl | hpos
    · exact hord.atLeast_refl data 0
    · have hup := ih (j / 2) (by omega) (by omega)
      exact hord.atLeast_trans (by omega) hup (h _ j (Nat.zero_le _) ⟨hpos, rfl⟩)

/-- Extracting from a heap in order gives an item no other item is more extreme than, and a heap
of the others. -/
theorem extractExtreme_spec (h : HeapFrom less 0 data)
    (hne : data ≠ []) : ∃ a rest, extractExtreme less data = some (a, rest) ∧
      data.Perm (a :: rest) ∧ (∀ b ∈ data, less a b = false) ∧ HeapFrom less 0 rest := by
  obtain ⟨a, tail, rfl⟩ := List.exists_cons_of_ne_nil hne
  have hroot : ∀ b ∈ a :: tail, less a b = false := by
    intro b hb
    obtain ⟨j, hj, rfl⟩ := List.getElem_of_mem hb
    exact atLeast_iff.mp (h.root_atLeast hord j hj) a _ rfl (List.getElem?_eq_getElem hj)
  refine ⟨a, _, rfl, ?_, hroot, heapify_heapFrom hord _⟩
  refine List.Perm.cons a (List.Perm.trans ?_ (heapify_perm less _).symm)
  cases hlast : tail.getLast? with
  | none => simp [List.getLast?_eq_none_iff.mp hlast]
  | some last =>
    obtain ⟨init, rfl⟩ := List.getLast?_eq_some_iff.mp hlast
    have hdrop : (last :: (init ++ [last])).dropLast = last :: init := by
      rw [← List.cons_append, List.dropLast_concat]
    simp [hdrop]

end

theorem bubbleUp_perm (data : List α) (child : ℕ) : (bubbleUp less data child).Perm data := by
  induction data, child using bubbleUp.induct less with
  | case1 data child hpos hless =>
    rw [bubbleUp, if_pos hpos, if_pos hless]
  | case2 data child hpos hless ih =>
    rw [bubbleUp, if_pos hpos, if_neg hless]
    exact ih.trans (swap_perm _ _ _)
  | case3 data child hpos =>
    rw [bubbleUp, if_neg hpos]

structure HeapUp (less : α → α → Bool) (i : ℕ) (data : List α) : Prop where
  others : ∀ p c, c ≠ i → IsBelow c p → AtLeast less data p c
  above : ∀ p c, IsBelow i p → IsBelow c i → AtLeast less data p c

theorem HeapUp.swap_above (hord : IsOrder less) (h : HeapUp less i data)
    (hpos : 0 < i) (hi : i < data.length) (hip : AtLeast less data i (i / 2)) :
    HeapUp less (i / 2) (swap data i (i / 2)) := by
  have hlt : i / 2 < i := by omega
  have hp : i / 2 < data.length := by omega
  have hget := getElem?_swap hi hp
  have hat : ∀ j k j' k', (swap data i (i / 2))[j]? = data[j']? →
      (swap data i (i / 2))[k]? = data[k']? → AtLeast less data j' k' →
        AtLeast less (swap data i (i / 2)) j k := by
    intro j k j' k' hj hk hjk
    rw [atLeast_iff, hj, hk]
    exact atLeast_iff.mp hjk
  have hatp : (swap data i (i / 2))[i / 2]? = data[i]? := by rw [hget, if_pos rfl]
  have hati : (swap data i (i / 2))[i]? = data[i / 2]? := by
    rw [hget, if_neg (by omega), if_pos rfl]
  have hato : ∀ j, j ≠ i → j ≠ i / 2 → (swap data i (i / 2))[j]? = data[j]? := by
    intro j hji hjp
    rw [hget, if_neg hjp, if_neg hji]
  constructor
  · intro p c hc hcp
    have hcpos := hcp.1
    by_cases hpp : p = i / 2
    · subst hpp
      by_cases hci : c = i
      · exact hat _ _ _ _ hatp (hci ▸ hati) hip
      · -- another node below the same one
        have hsibling := h.others _ c hci hcp
        exact hat _ _ _ _ hatp (hato c hci hc) (hord.atLeast_trans hp hip hsibling)
    · have hci : c ≠ i := by
        rintro rfl
        exact hpp hcp.2.symm
      by_cases hpi : p = i
      · subst hpi
        exact hat _ _ _ _ hati (hato c hci hc) (h.above _ c ⟨hpos, rfl⟩ hcp)
      · exact hat _ _ _ _ (hato p hpi hpp) (hato c hci hc) (h.others p c hci hcp)
  · intro g c hg hc
    have hgrand := h.others g (i / 2) (by omega) hg
    have hgp := lt_of_below hg
    have hatg := hato g (by omega) (by omega)
    by_cases hci : c = i
    · exact hat _ _ _ _ hatg (hci ▸ hati) hgrand
    · have hcp := lt_of_below hc
      exact hat _ _ _ _ hatg (hato c hci (by omega))
        (hord.atLeast_trans hp hgrand (h.others _ c hci hc))

theorem bubbleUp_heapFrom (hord : IsOrder less) (h : HeapUp less i data)
    (hi : i < data.length) : HeapFrom less 0 (bubbleUp less data i) := by
  induction data, i using bubbleUp.induct less with
  | case1 data i hpos hless =>
    rw [bubbleUp, if_pos hpos, if_pos hless]
    intro p c _ hcp
    by_cases hci : c = i
    · subst hci
      rw [← hcp.2]
      exact hord.atLeast_of_isLess hless
    · exact h.others p c hci hcp
  | case2 data i hpos hless ih =>
    rw [bubbleUp, if_pos hpos, if_neg hless]
    refine ih (h.swap_above hord hpos hi (Bool.eq_false_iff.mpr hless)) ?_
    rw [length_swap]
    omega
  | case3 data i hpos =>
    rw [bubbleUp, if_neg hpos]
    intro p c _ hcp
    exact h.others p c (by have := hcp.1; omega) hcp

theorem insert_heapFrom (hord : IsOrder less) (h : HeapFrom less 0 data) (item : α) :
    HeapFrom less 0 (insert less data item) := by
  apply bubbleUp_heapFrom hord
  · constructor
    · intro p c hc hcp
      by_cases hlen : c < data.length
      · have hp := lt_of_below hcp
        have hpc := atLeast_iff.mp (h p c (Nat.zero_le p) hcp)
        rw [atLeast_iff, List.getElem?_append_left hlen, List.getElem?_append_left (by omega)]
        exact hpc
      · exact atLeast_of_length_le (by rw [List.length_append, List.length_singleton]; omega)
    · intro p c _ hc
      have := lt_of_below hc
      exact atLeast_of_length_le (by rw [List.length_append, List.length_singleton]; omega)
  · rw [List.length_append, List.length_singleton]
    omega

end Order

section Runs

structure IsTotalPreorder (compare : α → α → ℤ) : Prop where
  flip : ∀ a b, compare a b < 0 ↔ 0 < compare b a
  trans : ∀ a b c, compare a b ≤ 0 → compare b c ≤ 0 → compare a c ≤ 0

def lessOf (compare : α → α → ℤ) (a b : α) : Bool := compare a b < 0

theorem IsTotalPreorder.isOrder {compare : α → α → ℤ} (h : IsTotalPreorder compare) :
    IsOrder (lessOf compare) where
  asymm a b hab := by
    have hpos := (h.flip a b).mp (of_decide_eq_true hab)
    exact decide_eq_false (by omega)
  trans a b c hab hbc := by
    rw [lessOf, decide_eq_false_iff_not] at *
    have hba : compare b a ≤ 0 := by
      by_contra hpos
      exact hab ((h.flip a b).mpr (by omega))
    have hcb : compare c b ≤ 0 := by
      by_contra hpos
      exact hbc ((h.flip b c).mpr (by omega))
    have hca := h.trans c b a hcb hba
    intro hac
    have := (h.flip a c).mp hac
    omega

structure State (α : Type*) where
  compare : α → α → ℤ
  data : List α

/-- The items may have got another order before they are put in order again. -/
inductive Call (α : Type*) where
  | insert (item : α)
  | extractExtreme
  | heapify (compare : α → α → ℤ)

def construct (compare : α → α → ℤ) (data : List α) : State α :=
  ⟨compare, heapify (lessOf compare) data⟩

namespace Call

def run (h : State α) : Call α → State α × List α
  | insert item => (⟨h.compare, Heap.insert (lessOf h.compare) h.data item⟩, [])
  | extractExtreme => match Heap.extractExtreme (lessOf h.compare) h.data with
    | some (a, rest) => (⟨h.compare, rest⟩, [a])
    | none => (h, [])
  | heapify compare => (construct compare h.data, [])

def inserted : Call α → List α
  | insert item => [item]
  | extractExtreme => []
  | heapify _ => []

def IsOrdered : Call α → Prop
  | insert _ => True
  | extractExtreme => True
  | heapify compare => IsTotalPreorder compare

end Call

def runCalls (h : State α) : List (Call α) → State α × List α
  | [] => (h, [])
  | call :: calls =>
    let (h, extracted) := call.run h
    let (h, later) := runCalls h calls
    (h, extracted ++ later)

/-- The heap is in order: no item exceeds the one above it, and none the extreme one, which is what is
extracted next. -/
structure State.IsMaxHeap (h : State α) : Prop where
  order : ∀ i, 1 ≤ i → ∀ a b, h.data[i]? = some a → h.data[i / 2]? = some b → 0 ≤ h.compare b a
  empty : h.data = [] → extreme h.data = none ∧ extractExtreme (lessOf h.compare) h.data = none
  extreme : h.data ≠ [] → ∃ a rest, Heap.extreme h.data = some a ∧
    extractExtreme (lessOf h.compare) h.data = some (a, rest) ∧ h.data.Perm (a :: rest) ∧
      ∀ b ∈ h.data, 0 ≤ h.compare a b

structure State.IsHeap (h : State α) : Prop where
  ordered : IsTotalPreorder h.compare
  heap : HeapFrom (lessOf h.compare) 0 h.data

variable {h : State α} {compare : α → α → ℤ} {data : List α} {call : Call α} {calls : List (Call α)}

theorem lessOf_eq_false {a b : α} : lessOf compare a b = false ↔ 0 ≤ compare a b := by
  rw [lessOf, decide_eq_false_iff_not, Int.not_lt]

theorem State.IsHeap.isMaxHeap (hh : h.IsHeap) : h.IsMaxHeap where
  order i hi a b ha hb :=
    lessOf_eq_false.mp (atLeast_iff.mp (hh.heap (i / 2) i (Nat.zero_le _) ⟨hi, rfl⟩) b a hb ha)
  empty hnil := by
    rw [hnil]
    exact ⟨rfl, rfl⟩
  extreme hne := by
    obtain ⟨a, rest, hextract, hperm, hall, -⟩ := extractExtreme_spec hh.ordered.isOrder hh.heap hne
    refine ⟨a, rest, ?_, hextract, hperm, fun b hb => lessOf_eq_false.mp (hall b hb)⟩
    rw [extractExtreme] at hextract
    split at hextract
    · rename_i a' last ha' _
      rw [ha', (Prod.mk.inj (Option.some.inj hextract)).1]
    · cases hextract

theorem isHeap_construct (hcompare : IsTotalPreorder compare) (data : List α) :
    (construct compare data).IsHeap :=
  ⟨hcompare, heapify_heapFrom hcompare.isOrder data⟩

theorem Call.run_spec (hh : h.IsHeap) (hcall : call.IsOrdered) : (call.run h).1.IsHeap ∧
    ((call.run h).1.data ++ (call.run h).2).Perm (h.data ++ call.inserted) := by
  cases call with
  | insert item =>
    refine ⟨⟨hh.ordered, insert_heapFrom hh.ordered.isOrder hh.heap item⟩, ?_⟩
    rw [Call.run, List.append_nil]
    exact bubbleUp_perm _ _
  | extractExtreme =>
    rw [Call.run, Call.inserted, List.append_nil]
    by_cases hnil : h.data = []
    · have hnone : Heap.extractExtreme (lessOf h.compare) h.data = none := by rw [hnil]; rfl
      rw [hnone, List.append_nil]
      exact ⟨hh, List.Perm.refl _⟩
    · obtain ⟨a, rest, hextract, hperm, -, hrest⟩ :=
        extractExtreme_spec hh.ordered.isOrder hh.heap hnil
      rw [hextract]
      exact ⟨⟨hh.ordered, hrest⟩, (List.perm_append_singleton a rest).trans hperm.symm⟩
  | heapify compare =>
    refine ⟨isHeap_construct hcall h.data, ?_⟩
    rw [Call.run, Call.inserted, List.append_nil, List.append_nil]
    exact heapify_perm _ _

theorem runCalls_spec (hh : h.IsHeap) (hcalls : ∀ call ∈ calls, call.IsOrdered) :
    (runCalls h calls).1.IsHeap ∧ ((runCalls h calls).1.data ++ (runCalls h calls).2).Perm
      (h.data ++ calls.flatMap Call.inserted) := by
  induction calls generalizing h with
  | nil => exact ⟨hh, List.Perm.refl _⟩
  | cons call calls ih =>
    rw [List.forall_mem_cons] at hcalls
    obtain ⟨hnext, hperm⟩ := call.run_spec hh hcalls.1
    obtain ⟨hlast, hrest⟩ := ih hnext hcalls.2
    refine ⟨hlast, ?_⟩
    -- what was extracted first may be put at the end
    have hswap : ((runCalls h (call :: calls)).1.data ++ (runCalls h (call :: calls)).2).Perm
        ((runCalls (call.run h).1 calls).1.data ++ (runCalls (call.run h).1 calls).2 ++
          (call.run h).2) := by
      rw [List.append_assoc]
      exact List.Perm.append_left _ List.perm_append_comm
    refine hswap.trans ((hrest.append_right _).trans ?_)
    rw [List.flatMap_cons, ← List.append_assoc]
    refine (List.Perm.trans ?_ (hperm.append_right _))
    rw [List.append_assoc, List.append_assoc]
    exact List.Perm.append_left _ List.perm_append_comm

/-- After every sequence of calls the heap is in order and has what was inserted and not extracted. -/
theorem runCalls_isMaxHeap (hcompare : IsTotalPreorder compare) (data : List α)
    (hcalls : ∀ call ∈ calls, call.IsOrdered) :
    (runCalls (construct compare data) calls).1.IsMaxHeap ∧
      ((runCalls (construct compare data) calls).1.data ++
        (runCalls (construct compare data) calls).2).Perm (data ++ calls.flatMap Call.inserted) := by
  obtain ⟨hheap, hperm⟩ := runCalls_spec (isHeap_construct hcompare data) hcalls
  exact ⟨hheap.isMaxHeap, hperm.trans ((heapify_perm _ data).append_right _)⟩

theorem runCalls_extract (hh : h.IsHeap) :
    (runCalls h (List.replicate h.data.length .extractExtreme)).1.data = [] ∧
      (runCalls h (List.replicate h.data.length .extractExtreme)).2.Perm h.data ∧
      (runCalls h (List.replicate h.data.length .extractExtreme)).2.Pairwise
        fun a b => 0 ≤ h.compare a b := by
  generalize hn : h.data.length = n
  induction n generalizing h with
  | zero =>
    have hnil : h.data = [] := List.length_eq_zero_iff.mp hn
    exact ⟨hnil, hnil ▸ List.Perm.refl _, List.Pairwise.nil⟩
  | succ n ih =>
    have hne : h.data ≠ [] := List.ne_nil_of_length_eq_add_one hn
    obtain ⟨a, rest, hextract, hperm, hmax, hrest⟩ :=
      extractExtreme_spec hh.ordered.isOrder hh.heap hne
    have hlength : rest.length = n := Nat.succ.inj (hperm.length_eq.symm.trans hn)
    obtain ⟨hempty, hlater, hsorted⟩ := ih (h := ⟨h.compare, rest⟩) ⟨hh.ordered, hrest⟩ hlength
    rw [List.replicate_succ, runCalls, Call.run, hextract]
    refine ⟨hempty, (hlater.cons a).trans hperm.symm, List.pairwise_cons.mpr ⟨fun b hb => ?_, hsorted⟩⟩
    have hmem := hperm.mem_iff.mpr (List.mem_cons_of_mem a (hlater.mem_iff.mp hb))
    exact lessOf_eq_false.mp (hmax b hmem)

/-- The extreme items of a heap, extracted until it is empty, are all its items in order. -/
theorem extracted_in_order (hcompare : IsTotalPreorder compare) (data : List α) :
    let r := runCalls (construct compare data) (List.replicate data.length .extractExtreme)
    r.1.data = [] ∧ r.2.Perm data ∧ r.2.Pairwise fun a b => 0 ≤ compare a b := by
  have hperm := heapify_perm (lessOf compare) data
  obtain ⟨hempty, hall, hsorted⟩ := runCalls_extract (isHeap_construct hcompare data)
  rw [show (construct compare data).data.length = data.length from hperm.length_eq] at *
  exact ⟨hempty, hall.trans hperm, hsorted⟩

def ascending (a b : ℕ) : ℤ := a - b

def descending (a b : ℕ) : ℤ := b - a

def descendingCalls : List (Call ℕ) :=
  [.insert 7, .extractExtreme, .heapify descending, .extractExtreme]

theorem isTotalPreorder_ascending : IsTotalPreorder ascending :=
  ⟨fun a b => by simp only [ascending]; omega, fun a b c => by simp only [ascending]; omega⟩

theorem extracted_in_order_once :
    (runCalls (construct ascending [2, 7, 3]) (List.replicate 3 .extractExtreme)).2.Pairwise
      fun a b => 0 ≤ ascending a b :=
  (extracted_in_order isTotalPreorder_ascending [2, 7, 3]).2.2

theorem runCalls_descendingCalls : (runCalls (construct ascending [2, 7, 3])
    descendingCalls).1.IsMaxHeap := by
  have hascending : IsTotalPreorder ascending :=
    ⟨fun a b => by simp only [ascending]; omega, fun a b c => by simp only [ascending]; omega⟩
  have hdescending : IsTotalPreorder descending :=
    ⟨fun a b => by simp only [descending]; omega, fun a b c => by simp only [descending]; omega⟩
  have hcalls : ∀ call ∈ descendingCalls, call.IsOrdered := by
    simp [descendingCalls, Call.IsOrdered, hdescending]
  exact (runCalls_isMaxHeap hascending [2, 7, 3] hcalls).1

end Runs

end Heap

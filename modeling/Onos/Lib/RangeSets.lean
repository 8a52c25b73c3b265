import Mathlib.Data.List.Basic
import Mathlib.Data.List.Pairwise
import Mathlib.Order.MinMax
import Mathlib.Order.WithBot

/-! Sets of a linear order that are kept as ranges, closed below and open above. The ranges of a set
are in ascending order and do not touch; a range that is added joins those it touches, and one that
is removed may split a range in two. -/
namespace RangeSets

structure Range (α : Type*) [LinearOrder α] where
  lower : α
  upper : WithTop α
  nonempty : (lower : WithTop α) < upper

variable {α : Type*} [LinearOrder α]

namespace Range

def Contains (r : Range α) (x : α) : Prop := (r.lower : WithTop α) ≤ x ∧ (x : WithTop α) < r.upper

instance decidableContains (r : Range α) (x : α) : Decidable (r.Contains x) :=
  inferInstanceAs (Decidable (_ ∧ _))

def Before (r s : Range α) : Prop := r.upper < s.lower

instance decidableBefore (r s : Range α) : Decidable (r.Before s) :=
  inferInstanceAs (Decidable (r.upper < s.lower))

def span (r s : Range α) : Range α where
  lower := min r.lower s.lower
  upper := max r.upper s.upper
  nonempty := by
    rw [WithTop.coe_min]
    exact (min_le_left _ _).trans_lt (r.nonempty.trans_le (le_max_left _ _))

def below (r : Range α) (x : WithTop α) : Option (Range α) :=
  if h : (r.lower : WithTop α) < min r.upper x then some ⟨r.lower, min r.upper x, h⟩ else none

def above (r : Range α) : WithTop α → Option (Range α)
  | ⊤ => none
  | (x : α) =>
    if h : ((max r.lower x : α) : WithTop α) < r.upper then some ⟨max r.lower x, r.upper, h⟩
    else none

def cut (r s : Range α) : List (Range α) := (r.below s.lower).toList ++ (r.above s.upper).toList

theorem contains_lower (r : Range α) : r.Contains r.lower := ⟨le_rfl, r.nonempty⟩

theorem Before.trans {r s t : Range α} (h : r.Before s) (h' : s.Before t) : r.Before t :=
  lt_trans h (lt_trans s.nonempty h')

variable {r s : Range α}

theorem contains_span (h : ¬r.Before s) (h' : ¬s.Before r) (x : α) :
    (r.span s).Contains x ↔ r.Contains x ∨ s.Contains x := by
  unfold Before at h h'
  unfold Contains span
  dsimp only
  rw [WithTop.coe_min, min_le_iff, lt_max_iff]
  constructor
  · rintro ⟨hlower | hlower, hupper | hupper⟩
    · exact Or.inl ⟨hlower, hupper⟩
    · rcases lt_or_ge (x : WithTop α) r.upper with hlt | hge
      · exact Or.inl ⟨hlower, hlt⟩
      · exact Or.inr ⟨(not_lt.mp h).trans hge, hupper⟩
    · rcases lt_or_ge (x : WithTop α) s.upper with hlt | hge
      · exact Or.inr ⟨hlower, hlt⟩
      · exact Or.inl ⟨(not_lt.mp h').trans hge, hupper⟩
    · exact Or.inr ⟨hlower, hupper⟩
  · rintro (⟨hlower, hupper⟩ | ⟨hlower, hupper⟩)
    · exact ⟨Or.inl hlower, Or.inl hupper⟩
    · exact ⟨Or.inr hlower, Or.inr hupper⟩

variable {x : WithTop α}

theorem mem_below : s ∈ (r.below x).toList ↔ s.lower = r.lower ∧ s.upper = min r.upper x := by
  unfold below
  split_ifs with h
  · rw [Option.toList_some, List.mem_singleton]
    constructor
    · rintro rfl
      exact ⟨rfl, rfl⟩
    · rintro ⟨hlower, hupper⟩
      obtain ⟨lower, upper, hs⟩ := s
      obtain rfl : lower = r.lower := hlower
      obtain rfl : upper = min r.upper x := hupper
      rfl
  · refine iff_of_false List.not_mem_nil ?_
    rintro ⟨hlower, hupper⟩
    rw [← hlower, ← hupper] at h
    exact h s.nonempty

theorem mem_above : s ∈ (r.above x).toList ↔
    (s.lower : WithTop α) = max (r.lower : WithTop α) x ∧ s.upper = r.upper := by
  cases x with
  | top =>
    refine iff_of_false List.not_mem_nil ?_
    rintro ⟨hlower, -⟩
    exact WithTop.coe_ne_top (hlower.trans (max_eq_right le_top))
  | coe x =>
    rw [← WithTop.coe_max, WithTop.coe_eq_coe]
    unfold above
    dsimp only
    split_ifs with h
    · rw [Option.toList_some, List.mem_singleton]
      constructor
      · rintro rfl
        exact ⟨rfl, rfl⟩
      · rintro ⟨hlower, hupper⟩
        obtain ⟨lower, upper, hs⟩ := s
        obtain rfl : lower = max r.lower x := hlower
        obtain rfl : upper = r.upper := hupper
        rfl
    · refine iff_of_false List.not_mem_nil ?_
      rintro ⟨hlower, hupper⟩
      rw [← hlower, ← hupper] at h
      exact h s.nonempty

theorem contains_below {y : α} :
    (∃ s ∈ (r.below x).toList, s.Contains y) ↔ r.Contains y ∧ (y : WithTop α) < x := by
  constructor
  · rintro ⟨s, hs, hlower, hupper⟩
    obtain ⟨hslower, hsupper⟩ := mem_below.mp hs
    rw [hslower] at hlower
    rw [hsupper, lt_min_iff] at hupper
    exact ⟨⟨hlower, hupper.1⟩, hupper.2⟩
  · rintro ⟨⟨hlower, hupper⟩, hx⟩
    have hlt : (y : WithTop α) < min r.upper x := lt_min hupper hx
    exact ⟨⟨r.lower, min r.upper x, hlower.trans_lt hlt⟩, mem_below.mpr ⟨rfl, rfl⟩, hlower, hlt⟩

theorem contains_above {y : α} :
    (∃ s ∈ (r.above x).toList, s.Contains y) ↔ r.Contains y ∧ x ≤ (y : WithTop α) := by
  constructor
  · rintro ⟨s, hs, hlower, hupper⟩
    obtain ⟨hslower, hsupper⟩ := mem_above.mp hs
    rw [hslower, max_le_iff] at hlower
    rw [hsupper] at hupper
    exact ⟨⟨hlower.1, hupper⟩, hlower.2⟩
  · rintro ⟨⟨hlower, hupper⟩, hx⟩
    cases x with
    | top => exact absurd (top_le_iff.mp hx) WithTop.coe_ne_top
    | coe x =>
      have hle : ((max r.lower x : α) : WithTop α) ≤ y := by
        rw [WithTop.coe_max]
        exact max_le hlower hx
      exact ⟨⟨max r.lower x, r.upper, hle.trans_lt hupper⟩,
        mem_above.mpr ⟨WithTop.coe_max _ _, rfl⟩, hle, hupper⟩

theorem contains_cut {x : α} : (∃ t ∈ r.cut s, t.Contains x) ↔ r.Contains x ∧ ¬s.Contains x := by
  have hsplit : (∃ t ∈ r.cut s, t.Contains x) ↔
      (∃ t ∈ (r.below s.lower).toList, t.Contains x) ∨
        ∃ t ∈ (r.above s.upper).toList, t.Contains x := by
    simp only [cut, List.mem_append, or_and_right, exists_or]
  rw [hsplit, contains_below, contains_above, ← and_or_left]
  refine and_congr_right fun _ => ?_
  unfold Contains
  rw [not_and_or, not_le, not_lt]

theorem within_cut {r s t : Range α} (h : t ∈ r.cut s) :
    (r.lower : WithTop α) ≤ t.lower ∧ t.upper ≤ r.upper := by
  rcases List.mem_append.mp h with h | h
  · obtain ⟨hlower, hupper⟩ := mem_below.mp h
    rw [hlower, hupper]
    exact ⟨le_rfl, min_le_left _ _⟩
  · obtain ⟨hlower, hupper⟩ := mem_above.mp h
    rw [hlower, hupper]
    exact ⟨le_max_left _ _, le_rfl⟩

theorem pairwise_toList {β : Type*} {R : β → β → Prop} (o : Option β) : o.toList.Pairwise R := by
  cases o with
  | none => exact List.Pairwise.nil
  | some b => exact List.pairwise_singleton R b

theorem pairwise_cut (r s : Range α) : (r.cut s).Pairwise Before := by
  refine List.pairwise_append.mpr ⟨pairwise_toList _, pairwise_toList _, fun t ht u hu => ?_⟩
  have hupper : t.upper ≤ s.lower := (mem_below.mp ht).2.le.trans (min_le_right _ _)
  have hlower : s.upper ≤ u.lower := (le_max_right _ _).trans (mem_above.mp hu).1.ge
  exact hupper.trans_lt (s.nonempty.trans_le hlower)

end Range

def addTo (r : Range α) : List (Range α) → List (Range α)
  | [] => [r]
  | x :: rest =>
    if x.Before r then x :: addTo r rest
    else if r.Before x then r :: x :: rest
    else addTo (r.span x) rest

attribute [local simp] addTo

theorem contains_addTo (r : Range α) (l : List (Range α)) (x : α) :
    (∃ s ∈ addTo r l, s.Contains x) ↔ r.Contains x ∨ ∃ s ∈ l, s.Contains x := by
  induction l generalizing r with
  | nil => simp [addTo]
  | cons y rest ih =>
    rw [addTo]
    split_ifs with hbefore hafter
    · simp only [List.exists_mem_cons_iff, ih]
      exact or_left_comm
    · simp only [List.exists_mem_cons_iff]
    · rw [ih, Range.contains_span hafter hbefore, List.exists_mem_cons_iff, or_assoc]

theorem before_addTo {r y : Range α} {l : List (Range α)} (hr : y.Before r)
    (hl : ∀ s ∈ l, y.Before s) : ∀ s ∈ addTo r l, y.Before s := by
  induction l generalizing r with
  | nil => exact fun s hs => List.mem_singleton.mp hs ▸ hr
  | cons x rest ih =>
    obtain ⟨hx, hrest⟩ := List.forall_mem_cons.mp hl
    rw [addTo]
    split_ifs
    · exact List.forall_mem_cons.mpr ⟨hx, ih hr hrest⟩
    · exact List.forall_mem_cons.mpr ⟨hr, hl⟩
    · refine ih ?_ hrest
      change y.upper < ((min r.lower x.lower : α) : WithTop α)
      rw [WithTop.coe_min]
      exact lt_min hr hx

theorem pairwise_addTo {r : Range α} {l : List (Range α)} (h : l.Pairwise Range.Before) :
    (addTo r l).Pairwise Range.Before := by
  induction l generalizing r with
  | nil => exact List.pairwise_singleton _ r
  | cons x rest ih =>
    obtain ⟨hx, hrest⟩ := List.pairwise_cons.mp h
    rw [addTo]
    split_ifs with hbefore hafter
    · exact List.pairwise_cons.mpr ⟨before_addTo hbefore hx, ih hrest⟩
    · refine List.pairwise_cons.mpr ⟨List.forall_mem_cons.mpr ⟨hafter, fun s hs => ?_⟩, h⟩
      exact hafter.trans (hx s hs)
    · exact ih hrest

structure RangeSet (α : Type*) [LinearOrder α] where
  ranges : List (Range α)
  separated : ranges.Pairwise Range.Before

namespace RangeSet

def empty : RangeSet α := ⟨[], List.Pairwise.nil⟩

def Contains (s : RangeSet α) (x : α) : Prop := ∃ r ∈ s.ranges, r.Contains x

instance decidableContains (s : RangeSet α) (x : α) : Decidable (s.Contains x) :=
  inferInstanceAs (Decidable (∃ r ∈ s.ranges, r.Contains x))

def isEmpty (s : RangeSet α) : Bool := s.ranges.isEmpty

def add (s : RangeSet α) (r : Range α) : RangeSet α :=
  ⟨addTo r s.ranges, pairwise_addTo s.separated⟩

def remove (s : RangeSet α) (r : Range α) : RangeSet α where
  ranges := s.ranges.flatMap fun x => x.cut r
  separated := by
    refine List.pairwise_flatMap.mpr ⟨fun x _ => Range.pairwise_cut x r, ?_⟩
    refine s.separated.imp fun h t ht u hu => ?_
    exact (Range.within_cut ht).2.trans_lt (h.trans_le (Range.within_cut hu).1)

def addAll (s t : RangeSet α) : RangeSet α := t.ranges.foldl add s

def removeAll (s t : RangeSet α) : RangeSet α := t.ranges.foldl remove s

@[simp] theorem not_contains_empty (x : α) : ¬(empty : RangeSet α).Contains x := by
  rintro ⟨r, hr, -⟩
  exact List.not_mem_nil hr

@[simp] theorem contains_add {s : RangeSet α} {r : Range α} {x : α} :
    (s.add r).Contains x ↔ r.Contains x ∨ s.Contains x := contains_addTo r s.ranges x

@[simp] theorem contains_remove {s : RangeSet α} {r : Range α} {x : α} :
    (s.remove r).Contains x ↔ s.Contains x ∧ ¬r.Contains x := by
  have hpieces : (s.remove r).Contains x ↔ ∃ y ∈ s.ranges, ∃ t ∈ y.cut r, t.Contains x := by
    simp only [Contains, remove, List.mem_flatMap]
    constructor
    · rintro ⟨t, ⟨y, hy, ht⟩, hx⟩
      exact ⟨y, hy, t, ht, hx⟩
    · rintro ⟨y, hy, t, ht, hx⟩
      exact ⟨t, ⟨y, hy, ht⟩, hx⟩
  rw [hpieces]
  constructor
  · rintro ⟨y, hy, hcut⟩
    obtain ⟨hx, hnot⟩ := Range.contains_cut.mp hcut
    exact ⟨⟨y, hy, hx⟩, hnot⟩
  · rintro ⟨⟨y, hy, hx⟩, hnot⟩
    exact ⟨y, hy, Range.contains_cut.mpr ⟨hx, hnot⟩⟩

@[simp] theorem contains_addAll {s t : RangeSet α} {x : α} :
    (s.addAll t).Contains x ↔ s.Contains x ∨ t.Contains x := by
  have hfold : ∀ (l : List (Range α)) (s : RangeSet α),
      (l.foldl add s).Contains x ↔ s.Contains x ∨ ∃ r ∈ l, r.Contains x := by
    intro l
    induction l with
    | nil => simp
    | cons r rest ih =>
      intro s
      rw [List.foldl_cons, ih, contains_add, List.exists_mem_cons_iff, or_assoc, or_left_comm]
  exact hfold t.ranges s

@[simp] theorem contains_removeAll {s t : RangeSet α} {x : α} :
    (s.removeAll t).Contains x ↔ s.Contains x ∧ ¬t.Contains x := by
  have hfold : ∀ (l : List (Range α)) (s : RangeSet α),
      (l.foldl remove s).Contains x ↔ s.Contains x ∧ ¬∃ r ∈ l, r.Contains x := by
    intro l
    induction l with
    | nil => simp
    | cons r rest ih =>
      intro s
      rw [List.foldl_cons, ih, contains_remove, List.exists_mem_cons_iff, not_or, and_assoc]
  exact hfold t.ranges s

theorem isEmpty_iff {s : RangeSet α} : s.isEmpty ↔ ∀ x, ¬s.Contains x := by
  rw [isEmpty, List.isEmpty_iff]
  constructor
  · rintro h x ⟨r, hr, -⟩
    rw [h] at hr
    exact List.not_mem_nil hr
  · intro h
    rw [List.eq_nil_iff_forall_not_mem]
    exact fun r hr => h r.lower ⟨r, hr, r.contains_lower⟩

end RangeSet

end RangeSets

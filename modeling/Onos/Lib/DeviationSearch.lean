import Mathlib.Data.List.Perm.Basic
import Mathlib.Order.Basic

/-! Taking the words of a prefix-free set one after the other, cheapest first. After each prefix
of a word that has been taken, a cheapest word that parts there from all those taken waits; the
word taken next is the cheapest that waits. -/
namespace DeviationSearch

variable {E M : Type*} (word : List E → Prop)

def PrefixFree : Prop := ∀ p q, word p → word (p ++ q) → q = []

def IsRoot (taken : List (List E)) (r : List E) : Prop := ∃ e a, r ++ e :: a ∈ taken

structure Deviates (taken : List (List E)) (r q : List E) : Prop where
  word : word q
  parts : ∃ f q', q = r ++ f :: q' ∧ ∀ a, r ++ f :: a ∉ taken

def Covered [LE M] (cost : List E → M) (taken waiting : List (List E)) : Prop :=
  ∀ r q, IsRoot taken r → Deviates word taken r q →
    ∃ x ∈ waiting, Deviates word taken r x ∧ cost x ≤ cost q

def CoveredBut [LE M] (cost : List E → M) (taken waiting : List (List E)) (p : List E) : Prop :=
  ∀ r q, IsRoot taken r → ¬ IsRoot [p] r → Deviates word taken r q →
    ∃ x ∈ waiting, Deviates word taken r x ∧ cost x ≤ cost q

variable {word} {taken waiting : List (List E)}

theorem Deviates.not_mem {r q : List E} (h : Deviates word taken r q) : q ∉ taken := by
  obtain ⟨f, q', rfl, hnot⟩ := h.parts
  exact hnot q'

theorem Deviates.isRoot {r q : List E} (h : Deviates word taken r q) : IsRoot [q] r := by
  obtain ⟨f, q', rfl, -⟩ := h.parts
  exact ⟨f, q', List.mem_singleton_self _⟩

theorem Deviates.mono {taken' : List (List E)} (hsub : ∀ a ∈ taken', a ∈ taken) {r q : List E}
    (h : Deviates word taken r q) : Deviates word taken' r q := by
  obtain ⟨f, q', rfl, hnot⟩ := h.parts
  exact ⟨h.word, f, q', rfl, fun a ha => hnot a (hsub _ ha)⟩

theorem Deviates.root_length_le {r r' q : List E} (h : Deviates word taken r q)
    (h' : Deviates word taken r' q) (hroot : IsRoot taken r') : r'.length ≤ r.length := by
  by_contra hlt
  obtain ⟨f, s, rfl, hnone⟩ := h.parts
  obtain ⟨f', s', heq, -⟩ := h'.parts
  obtain ⟨e, a, ha⟩ := hroot
  obtain ⟨t, rfl, ht⟩ | ⟨t, rfl, ht⟩ := List.append_eq_append_iff.mp heq
  · cases t with
    | nil => simp at hlt
    | cons g t =>
      obtain ⟨rfl, -⟩ := List.cons.inj ht
      rw [List.append_assoc] at ha
      exact hnone _ ha
  · rw [List.length_append] at hlt
    exact hlt (Nat.le_add_right _ _)

/-- A word that has not been taken parts from the taken ones where it has the longest prefix in
common with one of them. -/
theorem exists_deviation_from (hfree : PrefixFree word) (hwords : ∀ a ∈ taken, word a)
    {r q : List E} (hq : word (r ++ q)) (hnot : r ++ q ∉ taken) {s : List E}
    (hs : r ++ s ∈ taken) : ∃ r', IsRoot taken r' ∧ Deviates word taken r' (r ++ q) := by
  induction q generalizing r s with
  | nil =>
    rw [List.append_nil] at hq hnot
    obtain rfl := hfree r s hq (hwords _ hs)
    rw [List.append_nil] at hs
    exact absurd hs hnot
  | cons f q ih =>
    by_cases hnext : ∃ a, r ++ f :: a ∈ taken
    · obtain ⟨a, ha⟩ := hnext
      rw [List.append_cons] at hq hnot ha ⊢
      exact ih hq hnot ha
    · have hnone : ∀ a, r ++ f :: a ∉ taken := fun a ha => hnext ⟨a, ha⟩
      refine ⟨r, ?_, hq, f, q, rfl, hnone⟩
      cases s with
      | nil =>
        rw [List.append_nil] at hs
        exact absurd (hfree r (f :: q) (hwords r hs) hq) (List.cons_ne_nil f q)
      | cons e s => exact ⟨e, s, hs⟩

theorem exists_deviation (hfree : PrefixFree word) (hwords : ∀ a ∈ taken, word a)
    (hne : taken ≠ []) {q : List E} (hq : word q) (hnot : q ∉ taken) :
    ∃ r, IsRoot taken r ∧ Deviates word taken r q := by
  obtain ⟨s, hs⟩ := List.exists_mem_of_ne_nil taken hne
  exact exists_deviation_from hfree hwords (r := []) hq hnot hs

section Costs

variable [Preorder M] {cost : List E → M} {p : List E}

theorem Covered.least (h : Covered word cost taken waiting) (hfree : PrefixFree word)
    (hwords : ∀ a ∈ taken, word a) (hne : taken ≠ []) (hp : ∀ x ∈ waiting, cost p ≤ cost x)
    {q : List E} (hq : word q) (hnot : q ∉ taken) : cost p ≤ cost q := by
  obtain ⟨r, hr, hdev⟩ := exists_deviation hfree hwords hne hq hnot
  obtain ⟨x, hx, -, hle⟩ := h r q hr hdev
  exact (hp x hx).trans hle

theorem Covered.complete (h : Covered word cost taken []) (hfree : PrefixFree word)
    (hwords : ∀ a ∈ taken, word a) (hne : taken ≠ []) {q : List E} (hq : word q) :
    q ∈ taken := by
  by_contra hnot
  obtain ⟨r, hr, hdev⟩ := exists_deviation hfree hwords hne hq hnot
  obtain ⟨x, hx, -⟩ := h r q hr hdev
  cases hx

theorem Covered.take (h : Covered word cost taken waiting) {rest : List (List E)}
    (hperm : waiting.Perm (p :: rest)) : CoveredBut word cost (taken ++ [p]) rest p := by
  intro r q hr hnot hq
  have hsub : ∀ a ∈ taken, a ∈ taken ++ [p] := fun a ha => List.mem_append_left [p] ha
  have hroot : IsRoot taken r := by
    obtain ⟨e, a, ha⟩ := hr
    rcases List.mem_append.mp ha with ha | ha
    · exact ⟨e, a, ha⟩
    · exact absurd ⟨e, a, ha⟩ hnot
  obtain ⟨x, hx, hdev, hle⟩ := h r q hroot (hq.mono hsub)
  have hxp : x ≠ p := by
    rintro rfl
    exact hnot hdev.isRoot
  have hrest := (List.mem_cons.mp (hperm.mem_iff.mp hx)).resolve_left hxp
  obtain ⟨f, x', rfl, hnone⟩ := hdev.parts
  refine ⟨_, hrest, ⟨hdev.word, f, x', rfl, fun a ha => ?_⟩, hle⟩
  rcases List.mem_append.mp ha with ha | ha
  · exact hnone a ha
  · exact hnot ⟨f, a, ha⟩

theorem CoveredBut.add (h : CoveredBut word cost taken waiting p) {spurs : List (List E)}
    (hspurs : ∀ r q, IsRoot [p] r → Deviates word taken r q →
      ∃ x ∈ spurs, Deviates word taken r x ∧ cost x ≤ cost q) :
    Covered word cost taken (waiting ++ spurs) := by
  intro r q hr hq
  by_cases hroot : IsRoot [p] r
  · obtain ⟨x, hx, hdev⟩ := hspurs r q hroot hq
    exact ⟨x, List.mem_append_right waiting hx, hdev⟩
  · obtain ⟨x, hx, hdev⟩ := h r q hr hroot hq
    exact ⟨x, List.mem_append_left spurs hx, hdev⟩

end Costs

end DeviationSearch

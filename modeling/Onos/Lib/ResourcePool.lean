import Mathlib.Data.Finset.Insert
import Mathlib.Data.Finset.Erase

/-! Resources that are free or held, each by one holder, and what taking and giving back does to
that. -/
namespace ResourcePool

variable {α κ : Type*}

/-- The resources of the range, and no others, are free or held. A held one is not free and has one
holder only. -/
structure Partitions (range : α → Prop) (free : Finset α) (held : κ → Option α) : Prop where
  distinct : ∀ h h' a, held h = some a → held h' = some a → h = h'
  apart : ∀ h a, held h = some a → a ∉ free
  all : ∀ a, range a ↔ a ∈ free ∨ ∃ h, held h = some a

variable {range : α → Prop} {free : Finset α} {held : κ → Option α}

theorem Partitions.congr {held' : κ → Option α} (h : Partitions range free held)
    (hheld : ∀ k, held' k = held k) : Partitions range free held' := by
  rw [funext hheld]
  exact h

theorem Partitions.exists_unique (h : Partitions range free held) {a : α} (ha : range a)
    (hfree : a ∉ free) : ∃! k, held k = some a := by
  obtain ⟨k, hk⟩ := ((h.all a).mp ha).resolve_left hfree
  exact ⟨k, hk, fun k' hk' => h.distinct k' k a hk' hk⟩

variable [DecidableEq α]

theorem partitions_insert_iff (h : Partitions range free held) {a : α} (ha : range a) :
    Partitions range (insert a free) held ↔ a ∈ free := by
  constructor
  · intro hafter
    by_contra hfree
    obtain ⟨k, hk, _⟩ := h.exists_unique ha hfree
    exact hafter.apart k a hk (Finset.mem_insert_self a free)
  · intro hfree
    rw [Finset.insert_eq_of_mem hfree]
    exact h

variable [DecidableEq κ]

theorem Partitions.take (h : Partitions range free held) {k : κ} {a : α} (hk : held k = none)
    (ha : a ∈ free) : Partitions range (free.erase a) (Function.update held k (some a)) where
  distinct := by
    intro i j b hi hj
    have hother : ∀ i, i ≠ k → Function.update held k (some a) i = some b → held i = some b ∧ b ≠ a := by
      intro i hik hupdated
      have hheld : held i = some b := (Function.update_of_ne hik _ _).symm.trans hupdated
      refine ⟨hheld, ?_⟩
      rintro rfl
      exact h.apart i b hheld ha
    by_cases hik : i = k
    · by_cases hjk : j = k
      · rw [hik, hjk]
      · rw [hik, Function.update_self] at hi
        cases hi
        exact absurd rfl (hother j hjk hj).2
    · by_cases hjk : j = k
      · rw [hjk, Function.update_self] at hj
        cases hj
        exact absurd rfl (hother i hik hi).2
      · exact h.distinct i j b (hother i hik hi).1 (hother j hjk hj).1
  apart := by
    intro i b hi
    rw [Function.update_apply] at hi
    split at hi
    · cases hi
      exact Finset.notMem_erase a free
    · intro hb
      exact h.apart i b hi (Finset.mem_of_mem_erase hb)
  all := by
    intro b
    rw [h.all b]
    constructor
    · rintro (hb | ⟨i, hi⟩)
      · by_cases hba : b = a
        · subst hba
          exact .inr ⟨k, Function.update_self k (some b) held⟩
        · exact .inl (Finset.mem_erase.mpr ⟨hba, hb⟩)
      · refine .inr ⟨i, ?_⟩
        rw [Function.update_of_ne ?_, hi]
        rintro rfl
        rw [hk] at hi
        cases hi
    · rintro (hb | ⟨i, hi⟩)
      · exact .inl (Finset.mem_of_mem_erase hb)
      · rw [Function.update_apply] at hi
        split at hi
        · cases hi
          exact .inl ha
        · exact .inr ⟨i, hi⟩

theorem Partitions.giveBack (h : Partitions range free held) {k : κ} {a : α} (hk : held k = some a) :
    Partitions range (insert a free) (Function.update held k none) where
  distinct := by
    intro i j b hi hj
    rw [Function.update_apply] at hi hj
    split at hi
    · cases hi
    · split at hj
      · cases hj
      · exact h.distinct i j b hi hj
  apart := by
    intro i b hi
    rw [Function.update_apply] at hi
    split at hi
    · cases hi
    · rename_i hne
      rw [Finset.mem_insert]
      rintro (rfl | hb)
      · exact hne (h.distinct i k b hi hk)
      · exact h.apart i b hi hb
  all := by
    intro b
    rw [h.all b, Finset.mem_insert]
    constructor
    · rintro (hb | ⟨i, hi⟩)
      · exact .inl (.inr hb)
      · by_cases hik : i = k
        · rw [hik, hk] at hi
          cases hi
          exact .inl (.inl rfl)
        · exact .inr ⟨i, (Function.update_of_ne hik none held).trans hi⟩
    · rintro ((rfl | hb) | ⟨i, hi⟩)
      · exact .inr ⟨k, hk⟩
      · exact .inl hb
      · rw [Function.update_apply] at hi
        split at hi
        · cases hi
        · exact .inr ⟨i, hi⟩

end ResourcePool

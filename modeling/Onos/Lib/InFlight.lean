import Mathlib.Data.List.Perm.Basic

/-! Messages in flight. A message is taken out by its position, so that any of them may be the
next to arrive and each arrives at most once; new messages join at the end. -/
namespace InFlight

variable {μ : Type*}

def takeAt (k : ℕ) (network : List μ) : Option (μ × List μ) :=
  match network[k]? with
  | none => none
  | some msg => some (msg, network.eraseIdx k)

variable {k : ℕ} {network rest : List μ} {msg : μ}

theorem takeAt_isSome (h : k < network.length) : ∃ msg rest, takeAt k network = some (msg, rest) :=
  ⟨network[k], network.eraseIdx k, by simp [takeAt, h]⟩

theorem takeAt_perm (h : takeAt k network = some (msg, rest)) : network.Perm (msg :: rest) := by
  unfold takeAt at h
  cases hk : network[k]? with
  | none => rw [hk] at h; cases h
  | some first =>
    rw [hk] at h
    obtain ⟨hlt, rfl⟩ := List.getElem?_eq_some_iff.mp hk
    cases h
    exact (List.getElem_cons_eraseIdx_perm hlt).symm

theorem mem_takeAt (h : takeAt k network = some (msg, rest)) (other : μ) :
    other ∈ network ↔ other = msg ∨ other ∈ rest :=
  (takeAt_perm h).mem_iff.trans List.mem_cons

end InFlight

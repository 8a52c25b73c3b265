import Mathlib.Algebra.GroupWithZero.Nat
import Mathlib.Logic.Function.Iterate

/-! A counter that runs from zero to a top value and starts again, and the number of its turns, which
is kept in a word and so starts again too. -/
namespace Odometer

structure Reading (top w : ℕ) where
  digit : ℕ
  turns : BitVec w
  digit_le : digit ≤ top

variable {top w : ℕ}

def Reading.tick (o : Reading top w) : Reading top w :=
  if h : o.digit = top then ⟨0, o.turns + 1, Nat.zero_le top⟩
  else ⟨o.digit + 1, o.turns, by have := o.digit_le; omega⟩

theorem digit_tick (o : Reading top w) : o.tick.digit = (o.digit + 1) % (top + 1) := by
  unfold Reading.tick
  by_cases h : o.digit = top
  · simp [h]
  · have := o.digit_le
    simp only [h, ↓reduceDIte]
    rw [Nat.mod_eq_of_lt (by omega)]

theorem turns_tick (o : Reading top w) :
    o.tick.turns = o.turns + BitVec.ofNat w ((o.digit + 1) / (top + 1)) := by
  unfold Reading.tick
  by_cases h : o.digit = top
  · simp only [h, ↓reduceDIte]
    rw [Nat.div_self (Nat.succ_pos top)]
    rfl
  · have := o.digit_le
    simp only [h, ↓reduceDIte]
    rw [Nat.div_eq_of_lt (by omega)]
    exact (BitVec.add_zero _).symm

theorem add_mod_add_one (d n m : ℕ) : ((d + n) % m + 1) % m = (d + (n + 1)) % m := by
  rw [Nat.mod_add_mod, Nat.add_assoc]

theorem add_div_add_one (d n : ℕ) {m : ℕ} (hm : 0 < m) :
    (d + n) / m + ((d + n) % m + 1) / m = (d + (n + 1)) / m := by
  have h := Nat.div_add_mod (d + n) m
  have e : d + (n + 1) = (d + n) % m + 1 + m * ((d + n) / m) := by omega
  rw [e, Nat.add_mul_div_left _ _ hm, Nat.add_comm]

theorem read_iterate (n : ℕ) (o : Reading top w) :
    (Reading.tick^[n] o).digit = (o.digit + n) % (top + 1) ∧
      (Reading.tick^[n] o).turns = o.turns + BitVec.ofNat w ((o.digit + n) / (top + 1)) := by
  induction n with
  | zero =>
    have := o.digit_le
    constructor
    · exact (Nat.mod_eq_of_lt (by simpa using Nat.lt_succ_of_le this)).symm
    · simp only [Function.iterate_zero, id_eq]
      rw [Nat.div_eq_of_lt (by omega)]
      exact (BitVec.add_zero _).symm
  | succ n ih =>
    obtain ⟨hd, ht⟩ := ih
    rw [Function.iterate_succ_apply']
    constructor
    · rw [digit_tick, hd, add_mod_add_one]
    · rw [turns_tick, hd, ht, BitVec.add_assoc, ← BitVec.ofNat_add,
        add_div_add_one _ _ (Nat.succ_pos top)]

end Odometer

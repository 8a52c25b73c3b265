import Mathlib.Data.Int.ModEq
import Mathlib.Tactic.LinearCombination
import Mathlib.Tactic.Ring

/-! Fletcher's check: a running sum of digits, and the running sum of these sums. Two check digits at
neighbouring places make both sums multiples of a modulus. -/
namespace Fletcher

def advance (sums : ℕ × ℕ) (d : ℕ) : ℕ × ℕ := (sums.1 + d, sums.2 + (sums.1 + d))

def runningSums (ds : List ℕ) : ℕ × ℕ := ds.foldl advance (0, 0)

def Passes (m : ℕ) (ds : List ℕ) : Prop := m ∣ (runningSums ds).1 ∧ m ∣ (runningSums ds).2

instance (m : ℕ) (ds : List ℕ) : Decidable (Passes m ds) :=
  inferInstanceAs (Decidable (_ ∧ _))

theorem foldl_advance (ds : List ℕ) (a b : ℕ) : ds.foldl advance (a, b) =
    (a + (runningSums ds).1, b + ds.length * a + (runningSums ds).2) := by
  induction ds generalizing a b with
  | nil => simp [runningSums]
  | cons d ds ih =>
    rw [runningSums, List.foldl_cons, List.foldl_cons, advance, advance, ih, ih (0 + d),
      List.length_cons]
    ext <;> dsimp only <;> ring

theorem runningSums_append (xs ys : List ℕ) : runningSums (xs ++ ys) =
    ((runningSums xs).1 + (runningSums ys).1,
      (runningSums xs).2 + ys.length * (runningSums xs).1 + (runningSums ys).2) := by
  rw [runningSums, List.foldl_append]
  exact foldl_advance ys _ _

theorem runningSums_cons (d : ℕ) (ds : List ℕ) : runningSums (d :: ds) =
    (d + (runningSums ds).1, d + ds.length * d + (runningSums ds).2) := by
  rw [runningSums, List.foldl_cons, advance, foldl_advance, Nat.zero_add, Nat.zero_add]

theorem runningSums_checks (xs zs : List ℕ) (x y : ℕ) : runningSums (xs ++ x :: y :: zs) =
    ((runningSums (xs ++ 0 :: 0 :: zs)).1 + (x + y),
      (runningSums (xs ++ 0 :: 0 :: zs)).2 + ((zs.length + 2) * x + (zs.length + 1) * y)) := by
  simp only [runningSums_append, runningSums_cons, List.length_cons]
  ext <;> dsimp only <;> ring

theorem passes_iff (m : ℕ) (xs zs : List ℕ) (x y : ℕ) : Passes m (xs ++ x :: y :: zs) ↔
    (x : ℤ) ≡ (zs.length + 1) * (runningSums (xs ++ 0 :: 0 :: zs)).1 -
      (runningSums (xs ++ 0 :: 0 :: zs)).2 [ZMOD m] ∧
    (x + y : ℤ) ≡ -(runningSums (xs ++ 0 :: 0 :: zs)).1 [ZMOD m] := by
  rw [Passes, runningSums_checks]
  generalize (runningSums (xs ++ 0 :: 0 :: zs)).1 = c₀
  generalize (runningSums (xs ++ 0 :: 0 :: zs)).2 = c₁
  dsimp only
  rw [← Int.natCast_dvd_natCast, ← Int.natCast_dvd_natCast, Int.modEq_iff_dvd, Int.modEq_iff_dvd]
  push_cast
  generalize (zs.length : ℤ) = k
  constructor
  · rintro ⟨⟨a, ha⟩, b, hb⟩
    refine ⟨⟨(k + 1) * a - b, ?_⟩, ⟨-a, ?_⟩⟩
    · linear_combination (k + 1) * ha - hb
    · linear_combination -ha
  · rintro ⟨⟨a, ha⟩, b, hb⟩
    refine ⟨⟨-b, ?_⟩, ⟨-a - (k + 1) * b, ?_⟩⟩
    · linear_combination -hb
    · linear_combination -ha - (k + 1) * hb

theorem runningSums_le {ds : List ℕ} {greatest : ℕ} (h : ∀ d ∈ ds, d ≤ greatest) :
    (runningSums ds).1 ≤ ds.length * greatest ∧
      2 * (runningSums ds).2 ≤ ds.length * (ds.length + 1) * greatest := by
  induction ds with
  | nil => exact ⟨Nat.zero_le _, Nat.zero_le _⟩
  | cons d ds ih =>
    obtain ⟨hfirst, hsecond⟩ := ih fun e he => h e (List.mem_cons_of_mem d he)
    have hd := h d List.mem_cons_self
    have hmul : ds.length * d ≤ ds.length * greatest := Nat.mul_le_mul_left _ hd
    rw [runningSums_cons, List.length_cons]
    dsimp only
    constructor
    · calc d + (runningSums ds).1 ≤ greatest + ds.length * greatest := Nat.add_le_add hd hfirst
        _ = (ds.length + 1) * greatest := by ring
    · calc 2 * (d + ds.length * d + (runningSums ds).2)
          = 2 * (d + ds.length * d) + 2 * (runningSums ds).2 := by ring
        _ ≤ 2 * (greatest + ds.length * greatest) + ds.length * (ds.length + 1) * greatest :=
            Nat.add_le_add (Nat.mul_le_mul_left 2 (Nat.add_le_add hd hmul)) hsecond
        _ = (ds.length + 1) * (ds.length + 1 + 1) * greatest := by ring

end Fletcher

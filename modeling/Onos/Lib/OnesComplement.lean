import Mathlib.Algebra.BigOperators.Group.List.Basic
import Mathlib.Data.Nat.ModEq
import Mathlib.Tactic.Ring

/-! One's complement sums of digits in base `β`: a carry out of the highest place is added at the
lowest one. A field is filled with the complement of such a sum to make the sum of everything the
greatest digit. -/
namespace OnesComplement

variable (β : ℕ)

def addCarry (a b : ℕ) : ℕ := if a + b < β then a + b else a + b - (β - 1)

def onesSum (ds : List ℕ) : ℕ := ds.foldl (addCarry β) 0

def foldOnce (n : ℕ) : ℕ := n / β + n % β

def complement (n : ℕ) : ℕ := β - 1 - n % β

variable {β}

theorem addCarry_lt {a b : ℕ} (ha : a < β) (hb : b < β) : addCarry β a b < β := by
  rw [addCarry]
  split_ifs <;> omega

theorem addCarry_modEq {a b : ℕ} (hb : b < β) : addCarry β a b ≡ a + b [MOD β - 1] := by
  rw [addCarry]
  split_ifs with h
  · rfl
  · have hle : β - 1 ≤ a + b := by omega
    exact ((Nat.modEq_sub_modulus_iff hle).mpr rfl).symm

theorem addCarry_eq_zero {a b : ℕ} (hβ : 1 < β) : addCarry β a b = 0 ↔ a + b = 0 := by
  rw [addCarry]
  split_ifs <;> omega

theorem foldl_addCarry {ds : List ℕ} (hds : ∀ d ∈ ds, d < β) (hβ : 1 < β) {acc : ℕ} (ha : acc < β) :
    ds.foldl (addCarry β) acc < β ∧ ds.foldl (addCarry β) acc ≡ acc + ds.sum [MOD β - 1] ∧
      (ds.foldl (addCarry β) acc = 0 ↔ acc + ds.sum = 0) := by
  induction ds generalizing acc with
  | nil => exact ⟨ha, rfl, Iff.rfl⟩
  | cons d ds ih =>
    have hd := hds d List.mem_cons_self
    obtain ⟨hlt, hmod, hzero⟩ := ih (fun e he => hds e (List.mem_cons_of_mem d he))
      (addCarry_lt ha hd)
    rw [List.foldl_cons, List.sum_cons, ← add_assoc]
    refine ⟨hlt, hmod.trans ((addCarry_modEq hd).add_right ds.sum), ?_⟩
    rw [hzero, Nat.add_eq_zero_iff, addCarry_eq_zero hβ, ← Nat.add_eq_zero_iff]

theorem onesSum_eq_iff {ds : List ℕ} (hds : ∀ d ∈ ds, d < β) (hβ : 1 < β) :
    onesSum β ds = β - 1 ↔ ds.sum ≠ 0 ∧ β - 1 ∣ ds.sum := by
  have hacc : 0 < β := by omega
  obtain ⟨hlt, hmod, hzero⟩ := foldl_addCarry hds hβ hacc
  rw [zero_add] at hmod hzero
  rw [onesSum]
  constructor
  · intro h
    rw [h] at hmod hzero
    refine ⟨fun hsum => ?_, ?_⟩
    · have := hzero.mpr hsum
      omega
    · exact (Nat.modEq_zero_iff_dvd.mp ((hmod.symm.trans (Nat.modEq_zero_iff_dvd.mpr dvd_rfl))))
  · rintro ⟨hsum, hdvd⟩
    have hzero' := mt hzero.mp hsum
    have hdvd' := Nat.modEq_zero_iff_dvd.mp (hmod.trans (Nat.modEq_zero_iff_dvd.mpr hdvd))
    have hle := Nat.le_of_dvd (Nat.pos_of_ne_zero hzero') hdvd'
    omega

theorem foldOnce_add (n : ℕ) (hβ : 0 < β) : foldOnce β n + (β - 1) * (n / β) = n := by
  have hdiv := Nat.div_add_mod n β
  have hmul : β * (n / β) = n / β + (β - 1) * (n / β) := by
    calc β * (n / β) = (1 + (β - 1)) * (n / β) := by congr 1; omega
      _ = n / β + (β - 1) * (n / β) := by ring
  rw [foldOnce]
  omega

/-- Filled with the complement of a sum whose carry was added once, a field makes the sum of
everything the greatest digit if and only if no second carry was left. -/
theorem onesSum_complement_iff {ds : List ℕ} (hds : ∀ d ∈ ds, d < β) (hβ : 2 < β) {n : ℕ}
    (hn : n < β * β) (hsum : ds.sum = n + complement β (foldOnce β n)) :
    onesSum β ds = β - 1 ↔ foldOnce β n < β := by
  have hpos : 0 < β := by omega
  have hfold := foldOnce_add n hpos
  have hquotient : n / β < β := Nat.div_lt_of_lt_mul hn
  have hremainder : n % β < β := Nat.mod_lt n hpos
  have hbound : foldOnce β n < 2 * β := by
    rw [foldOnce]
    omega
  rw [onesSum_eq_iff hds (by omega), hsum]
  constructor
  · rintro ⟨-, hdvd⟩
    by_contra hcarry
    have hlow : foldOnce β n % β = foldOnce β n - β := by
      rw [Nat.mod_eq_sub_mod (by omega), Nat.mod_eq_of_lt (by omega)]
    -- What is left over the multiples of `β - 1` is the carry itself.
    have hone : n + complement β (foldOnce β n) = (β - 1) * (n / β + 2) + 1 := by
      rw [complement, hlow, mul_add]
      omega
    rw [hone, Nat.dvd_add_right (Dvd.intro _ rfl)] at hdvd
    have := Nat.le_of_dvd Nat.one_pos hdvd
    omega
  · intro hlt
    have hall : n + complement β (foldOnce β n) = (β - 1) * (n / β + 1) := by
      rw [complement, Nat.mod_eq_of_lt hlt, mul_add]
      omega
    rw [hall]
    refine ⟨?_, Dvd.intro _ rfl⟩
    have : 0 < (β - 1) * (n / β + 1) := Nat.mul_pos (by omega) (Nat.succ_pos _)
    omega

end OnesComplement

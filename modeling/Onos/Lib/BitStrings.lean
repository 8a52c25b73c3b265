import Onos.Lib.WireBytes

/-! Strings of octets as strings of bits, the highest bit of the first octet first. -/
namespace BitStrings

open WireBytes

def bitAt (octets : List Byte) (i : ℕ) : Bool := (octets.getD (i / 8) 0).getMsbD (i % 8)

theorem bitAt_of_le {octets : List Byte} {i : ℕ} (h : 8 * octets.length ≤ i) :
    bitAt octets i = false := by
  have hend : octets.length ≤ i / 8 := by omega
  rw [bitAt, List.getD_eq_getElem?_getD, List.getElem?_eq_none hend]
  exact BitVec.getMsbD_zero

theorem bitAt_cons {b : Byte} {octets : List Byte} {i : ℕ} :
    bitAt (b :: octets) i = if i < 8 then b.getMsbD i else bitAt octets (i - 8) := by
  by_cases hi : i < 8
  · rw [if_pos hi, bitAt, Nat.div_eq_of_lt hi, Nat.mod_eq_of_lt hi]
    rfl
  · obtain ⟨j, rfl⟩ : ∃ j, i = j + 8 := ⟨i - 8, by omega⟩
    rw [if_neg hi, bitAt, Nat.add_div_right j (by decide), Nat.add_mod_right, Nat.add_sub_cancel]
    rfl

theorem ext {xs ys : List Byte} (hlength : xs.length = ys.length)
    (h : ∀ i < 8 * xs.length, bitAt xs i = bitAt ys i) : xs = ys := by
  apply List.ext_getElem hlength
  intro k hx hy
  apply BitVec.eq_of_getMsbD_eq
  intro j hj
  have hbit := h (8 * k + j) (by omega)
  have hdiv : (8 * k + j) / 8 = k := by omega
  have hmod : (8 * k + j) % 8 = j := by omega
  rwa [bitAt, bitAt, hdiv, hmod, List.getD_eq_getElem?_getD, List.getD_eq_getElem?_getD,
    List.getElem?_eq_getElem hx, List.getElem?_eq_getElem hy] at hbit

theorem bitAt_zipWith_and {xs ys : List Byte} (hlength : xs.length = ys.length) (i : ℕ) :
    bitAt (List.zipWith (· &&& ·) xs ys) i = (bitAt xs i && bitAt ys i) := by
  induction xs generalizing ys i with
  | nil => rw [List.zipWith_nil_left, bitAt_of_le (Nat.zero_le i), Bool.false_and]
  | cons x xs ih =>
    cases ys with
    | nil => cases hlength
    | cons y ys =>
      rw [List.zipWith_cons_cons, bitAt_cons, bitAt_cons, bitAt_cons]
      split
      · exact BitVec.getMsbD_and
      · exact ih (Nat.succ.inj hlength) _

theorem bitAt_map_not {xs : List Byte} {i : ℕ} (hi : i < 8 * xs.length) :
    bitAt (xs.map (~~~ ·)) i = !bitAt xs i := by
  have hj : i % 8 < 8 := Nat.mod_lt i (by decide)
  have hin : i / 8 < xs.length := by omega
  simp [bitAt, List.getD_eq_getElem?_getD, hin, hj]

theorem bitAt_bytesOf {n i : ℕ} (v : ℕ) (hi : i < 8 * n) :
    bitAt (bytesOf n v) i = v.testBit (8 * n - 1 - i) := by
  induction n generalizing i with
  | zero => omega
  | succ n ih =>
    rw [bytesOf, bitAt_cons]
    split
    · next hfirst =>
      have hpow : 256 ^ n = 2 ^ (8 * n) := by rw [pow_mul, show 2 ^ 8 = 256 from rfl]
      rw [BitVec.getMsbD, hpow, BitVec.getLsbD_ofNat, Nat.testBit_div_two_pow]
      simp only [hfirst, decide_true, Bool.true_and, show 8 - 1 - i < 8 by omega]
      congr 1
      omega
    · next hfirst =>
      rw [ih (by omega)]
      congr 1
      omega

theorem bitAt_bytesOf_toNat {w n i : ℕ} (x : BitVec w) (hw : w = 8 * n) (hi : i < w) :
    bitAt (bytesOf n x.toNat) i = x.getMsbD i := by
  rw [bitAt_bytesOf _ (hw ▸ hi), BitVec.getMsbD, decide_eq_true hi, Bool.true_and, ← hw,
    BitVec.getLsbD]

/-- Whole octets of one value, then octets of its complement, with one of both at the border. -/
def bordered (n p : ℕ) (v border : Byte) : List Byte :=
  let filled := List.replicate (p / 8) v ++ List.replicate (n - p / 8) (~~~v)
  if p % 8 = 0 then filled else filled.set (p / 8) border

theorem length_bordered {n p : ℕ} (v border : Byte) (hp : p ≤ 8 * n) :
    (bordered n p v border).length = n := by
  have hfilled : (List.replicate (p / 8) v ++ List.replicate (n - p / 8) (~~~v)).length = n := by
    rw [List.length_append, List.length_replicate, List.length_replicate]
    omega
  rw [bordered]
  split
  · exact hfilled
  · rw [List.length_set, hfilled]

theorem bitAt_bordered {n p i : ℕ} {v border : Byte} (bit : Bool) (hi : i < 8 * n)
    (hv : ∀ j < 8, v.getMsbD j = bit)
    (hborder : ∀ j < 8, border.getMsbD j = if j < p % 8 then bit else !bit) :
    bitAt (bordered n p v border) i = if i < p then bit else !bit := by
  have hj : i % 8 < 8 := Nat.mod_lt i (by decide)
  have hnot : (~~~v).getMsbD (i % 8) = !bit := by
    rw [BitVec.getMsbD_not, hv _ hj, decide_eq_true hj, Bool.true_and]
  have hfilled : (List.replicate (p / 8) v ++ List.replicate (n - p / 8) (~~~v))[i / 8]? =
      if i / 8 < p / 8 then some v else some (~~~v) := by
    rw [List.getElem?_append, List.length_replicate]
    split
    · rw [List.getElem?_replicate_of_lt ‹_›]
    · rw [List.getElem?_replicate_of_lt (by omega)]
  rw [bitAt, bordered, List.getD_eq_getElem?_getD]
  by_cases hwhole : p % 8 = 0
  · rw [if_pos hwhole, hfilled]
    by_cases hip : i < p
    · rw [if_pos hip, if_pos (by omega), Option.getD_some, hv _ hj]
    · rw [if_neg hip, if_neg (by omega), Option.getD_some, hnot]
  · rw [if_neg hwhole, List.getElem?_set, hfilled]
    by_cases hsame : p / 8 = i / 8
    · rw [if_pos hsame, if_pos (by simp; omega), Option.getD_some, hborder _ hj]
      exact if_congr (by omega) rfl rfl
    · rw [if_neg hsame]
      by_cases hip : i < p
      · rw [if_pos hip, if_pos (by omega), Option.getD_some, hv _ hj]
      · rw [if_neg hip, if_neg (by omega), Option.getD_some, hnot]

end BitStrings

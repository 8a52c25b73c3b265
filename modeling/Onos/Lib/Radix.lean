import Mathlib.Data.List.Basic
import Mathlib.Tactic.Ring

/-! Texts of numbers in a base of 16 at most: the digits of a number, the number of a text, zeros in
front of it, and digits that are turned around. -/
namespace Radix

variable {b : ℕ}

def digitValue (c : Char) : ℕ :=
  if '0' ≤ c ∧ c ≤ '9' then c.toNat - 48
  else if 'a' ≤ c ∧ c ≤ 'f' then c.toNat - 87
  else if 'A' ≤ c ∧ c ≤ 'F' then c.toNat - 55
  else 36

def value (b : ℕ) (cs : List Char) : ℕ := cs.foldl (fun n c => b * n + digitValue c) 0

def parse (b : ℕ) (cs : List Char) : Option ℕ :=
  if cs ≠ [] ∧ (cs.all fun c => digitValue c < b) ∧ value b cs < 2 ^ 31 then some (value b cs)
  else none

def pad (width : ℕ) (cs : List Char) : List Char := List.replicate (width - cs.length) '0' ++ cs

theorem foldl_value (cs : List Char) (n : ℕ) :
    cs.foldl (fun n c => b * n + digitValue c) n = n * b ^ cs.length + value b cs := by
  induction cs generalizing n with
  | nil => rw [List.foldl_nil, List.length_nil, value, List.foldl_nil, pow_zero, mul_one, add_zero]
  | cons c cs ih =>
    rw [value, List.foldl_cons, List.foldl_cons, ih, ih (b * 0 + _), List.length_cons]
    ring

theorem value_append (xs ys : List Char) :
    value b (xs ++ ys) = value b xs * b ^ ys.length + value b ys := by
  rw [value, List.foldl_append]
  exact foldl_value ys _

theorem value_cons (c : Char) (cs : List Char) :
    value b (c :: cs) = digitValue c * b ^ cs.length + value b cs := by
  rw [value, List.foldl_cons, Nat.mul_zero, Nat.zero_add]
  exact foldl_value cs _

theorem value_singleton (c : Char) : value b [c] = digitValue c := by
  rw [value_cons, List.length_nil, pow_zero, mul_one]
  exact Nat.add_zero _

theorem digitValue_digitChar {n : ℕ} (h : n < 16) : digitValue n.digitChar = n := by
  have hall : ∀ n < 16, digitValue n.digitChar = n := by decide
  exact hall n h

theorem value_toDigits (hb : 1 < b) (hb' : b ≤ 16) (n : ℕ) : value b (Nat.toDigits b n) = n := by
  induction n using Nat.strongRecOn with
  | ind n ih =>
    rw [Nat.toDigits_eq_if hb]
    split_ifs with h
    · rw [value_singleton, digitValue_digitChar (by omega)]
    · have hmod := Nat.mod_lt n (show 0 < b by omega)
      rw [value_append, ih _ (Nat.div_lt_self (by omega) hb), value_singleton,
        digitValue_digitChar (by omega), List.length_singleton, pow_one, Nat.div_add_mod']

theorem digits_toDigits (hb : 1 < b) (hb' : b ≤ 16) (n : ℕ) :
    ∀ c ∈ Nat.toDigits b n, digitValue c < b := by
  induction n using Nat.strongRecOn with
  | ind n ih =>
    rw [Nat.toDigits_eq_if hb]
    split_ifs with h
    · intro c hc
      rw [List.mem_singleton.mp hc, digitValue_digitChar (by omega)]
      exact h
    · intro c hc
      have hmod := Nat.mod_lt n (show 0 < b by omega)
      rcases List.mem_append.mp hc with hc | hc
      · exact ih _ (Nat.div_lt_self (by omega) hb) c hc
      · rw [List.mem_singleton.mp hc, digitValue_digitChar (by omega)]
        exact hmod

theorem value_zeros (n : ℕ) : value b (List.replicate n '0') = 0 := by
  induction n with
  | zero => rfl
  | succ n ih =>
    rw [List.replicate_succ, value_cons, ih, show digitValue '0' = 0 from rfl, Nat.zero_mul]

theorem value_pad (width : ℕ) (cs : List Char) : value b (pad width cs) = value b cs := by
  rw [pad, value_append, value_zeros, Nat.zero_mul, Nat.zero_add]

theorem length_pad {width : ℕ} {cs : List Char} (h : cs.length ≤ width) :
    (pad width cs).length = width := by
  rw [pad, List.length_append, List.length_replicate]
  omega

theorem digits_pad (hb : 0 < b) (width : ℕ) {cs : List Char} (h : ∀ c ∈ cs, digitValue c < b) :
    ∀ c ∈ pad width cs, digitValue c < b := by
  intro c hc
  rcases List.mem_append.mp hc with hc | hc
  · rw [(List.mem_replicate.mp hc).2]
    exact hb
  · exact h c hc

theorem value_lt {cs : List Char} (h : ∀ c ∈ cs, digitValue c < b) :
    value b cs < b ^ cs.length := by
  induction cs with
  | nil => exact Nat.one_pos
  | cons c cs ih =>
    have hc := h c List.mem_cons_self
    have hcs := ih fun d hd => h d (List.mem_cons_of_mem c hd)
    rw [value_cons, List.length_cons, pow_succ']
    calc digitValue c * b ^ cs.length + value b cs
        < digitValue c * b ^ cs.length + b ^ cs.length := Nat.add_lt_add_left hcs _
      _ = (digitValue c + 1) * b ^ cs.length := by ring
      _ ≤ b * b ^ cs.length := Nat.mul_le_mul_right _ hc

theorem parse_eq_some {cs : List Char} {n : ℕ} (hne : cs ≠ []) (h : ∀ c ∈ cs, digitValue c < b)
    (hvalue : value b cs = n) (hlt : n < 2 ^ 31) : parse b cs = some n := by
  subst hvalue
  exact if_pos ⟨hne, List.all_eq_true.mpr fun c hc => decide_eq_true (h c hc), hlt⟩

theorem value_split (hb : 1 < b) (hb' : b ≤ 16) (n k : ℕ) (hk : k ≤ (Nat.toDigits b n).length) :
    value b ((Nat.toDigits b n).take ((Nat.toDigits b n).length - k)) = n / b ^ k ∧
      value b ((Nat.toDigits b n).drop ((Nat.toDigits b n).length - k)) = n % b ^ k := by
  have hdigits := digits_toDigits hb hb' n
  have hvalue := value_toDigits hb hb' n
  generalize Nat.toDigits b n = cs at *
  have hlen : (cs.drop (cs.length - k)).length = k := by
    rw [List.length_drop]
    omega
  have hsplit := value_append (b := b) (cs.take (cs.length - k)) (cs.drop (cs.length - k))
  rw [List.take_append_drop, hvalue, hlen] at hsplit
  have hlow : value b (cs.drop (cs.length - k)) < b ^ (cs.drop (cs.length - k)).length :=
    value_lt fun c hc => hdigits c (List.mem_of_mem_drop hc)
  rw [hlen] at hlow
  have hpos : 0 < b ^ k := Nat.pow_pos (by omega)
  subst hsplit
  constructor
  · rw [Nat.add_comm, Nat.add_mul_div_right _ _ hpos, Nat.div_eq_of_lt hlow, Nat.zero_add]
  · rw [Nat.add_comm, Nat.add_mul_mod_self_right, Nat.mod_eq_of_lt hlow]

theorem binary_cases {c : Char} (h : digitValue c < 2) : c = '0' ∨ c = '1' := by
  unfold digitValue at h
  split_ifs at h with hdigit hlower hupper
  · have hlow : 48 ≤ c.toNat := hdigit.1
    rcases (show c.toNat = 48 ∨ c.toNat = 49 by omega) with hc | hc
    · exact Or.inl (Char.toNat_inj.mp hc)
    · exact Or.inr (Char.toNat_inj.mp hc)
  · have hlow : 97 ≤ c.toNat := hlower.1
    omega
  · have hlow : 65 ≤ c.toNat := hupper.1
    omega
  · omega

theorem value_negate {cs : List Char} (h : ∀ c ∈ cs, digitValue c < 2) :
    value 2 (cs.map fun c => if c = '1' then '0' else '1') = 2 ^ cs.length - 1 - value 2 cs := by
  induction cs with
  | nil => rfl
  | cons c cs ih =>
    have hcs := value_lt fun d hd => h d (List.mem_cons_of_mem c hd)
    rw [List.map_cons, value_cons, value_cons, List.length_map, List.length_cons, pow_succ',
      ih fun d hd => h d (List.mem_cons_of_mem c hd)]
    generalize value 2 cs = v at *
    generalize 2 ^ cs.length = p at *
    rcases binary_cases (h c List.mem_cons_self) with rfl | rfl
    · rw [if_neg (by decide), show digitValue '1' = 1 from rfl, show digitValue '0' = 0 from rfl]
      omega
    · rw [if_pos rfl, show digitValue '1' = 1 from rfl, show digitValue '0' = 0 from rfl]
      omega

theorem digits_negate (cs : List Char) :
    ∀ c ∈ cs.map (fun c => if c = '1' then '0' else '1'), digitValue c < 2 := by
  intro c hc
  obtain ⟨d, -, rfl⟩ := List.mem_map.mp hc
  split_ifs
  · exact Nat.zero_lt_two
  · exact Nat.one_lt_two

end Radix

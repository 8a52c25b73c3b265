import Mathlib.Data.List.DropRight
import Onos.Lib.WireBytes

/-! Texts as their bytes in UTF-8, where what is malformed is replaced when it is read, and numbers as
their decimal texts. -/
namespace Texts

open WireBytes

section Bytes

def bytesOfChar (c : Char) : List Byte := (String.utf8EncodeChar c).map UInt8.toBitVec

def getBytes (s : String) : List Byte := s.toList.flatMap bytesOfChar

/-- How many units a text has: characters that need four bytes are two of them. -/
def utf16Length (s : String) : ℕ := (s.toList.map fun c => if c.utf8Size = 4 then 2 else 1).sum

def isContinuation (b : Byte) : Bool := b &&& 0xc0 = 0x80

def malformedTail : List Byte → ℕ
  | b₁ :: b₂ :: bs =>
    if b₁.toNat < 0xe0 ∨ 0xf5 ≤ b₁.toNat ∨ ¬ isContinuation b₂ ∨ b₁ = 0xe0 ∧ b₂.toNat < 0xa0 ∨
        b₁ = 0xf0 ∧ b₂.toNat < 0x90 ∨ b₁ = 0xf4 ∧ 0x90 ≤ b₂.toNat then 0
    else if bs.head?.any isContinuation then 2 else 1
  | _ => 0

def firstChar (bs : List Byte) : Option Char :=
  (bs.map UInt8.ofBitVec).toByteArray.utf8DecodeChar? 0

def decode : List Byte → List Char
  | [] => []
  | b :: bs => match firstChar (b :: bs) with
    | some c => c :: decode (bs.drop (c.utf8Size - 1))
    | none => Char.ofNat 0xfffd :: decode (bs.drop (malformedTail (b :: bs)))
termination_by bs => bs.length
decreasing_by all_goals simp only [List.length_drop, List.length_cons]; omega

def fromBytes (bs : List Byte) : String := String.ofList (decode bs)

theorem length_bytesOfChar (c : Char) : (bytesOfChar c).length = c.utf8Size := by
  rw [bytesOfChar, List.length_map, String.length_utf8EncodeChar]

theorem firstChar_append (c : Char) (bs : List Byte) : firstChar (bytesOfChar c ++ bs) = some c := by
  have hchar : (bytesOfChar c).map UInt8.ofBitVec = String.utf8EncodeChar c := by
    rw [bytesOfChar, List.map_map]
    exact List.map_id _
  rw [firstChar, List.map_append, hchar, List.toByteArray_append]
  exact ByteArray.utf8DecodeChar?_utf8EncodeChar_append

theorem decode_append (c : Char) (bs : List Byte) : decode (bytesOfChar c ++ bs) = c :: decode bs := by
  have hlen := length_bytesOfChar c
  have hfirst := firstChar_append c bs
  have hpos := c.utf8Size_pos
  cases hbytes : bytesOfChar c with
  | nil =>
    rw [hbytes] at hlen
    simp only [List.length_nil] at hlen
    omega
  | cons b rest =>
    rw [hbytes] at hlen hfirst
    have hrest : c.utf8Size - 1 = rest.length := by
      rw [List.length_cons] at hlen
      omega
    rw [List.cons_append] at hfirst ⊢
    rw [decode, hfirst]
    change c :: decode ((rest ++ bs).drop (c.utf8Size - 1)) = c :: decode bs
    rw [hrest, List.drop_left]

theorem fromBytes_getBytes (s : String) : fromBytes (getBytes s) = s := by
  have hdecode (cs : List Char) : decode (cs.flatMap bytesOfChar) = cs := by
    induction cs with
    | nil => rw [List.flatMap_nil, decode]
    | cons c cs ih => rw [List.flatMap_cons, decode_append, ih]
  rw [fromBytes, getBytes, hdecode, String.ofList_toList]

theorem fromBytes_ne_empty {bs : List Byte} (h : bs ≠ []) : fromBytes bs ≠ "" := by
  obtain ⟨b, rest, rfl⟩ := List.exists_cons_of_ne_nil h
  intro hempty
  have hdecode := congrArg String.toList hempty
  rw [fromBytes, String.toList_ofList, decode] at hdecode
  split at hdecode <;> cases hdecode

theorem length_getBytes (s : String) : (getBytes s).length = (s.toList.map Char.utf8Size).sum := by
  rw [getBytes, List.length_flatMap]
  congr 1
  exact List.map_congr_left fun c _ => length_bytesOfChar c

theorem getBytes_eq_nil_iff {s : String} : getBytes s = [] ↔ s = "" := by
  constructor
  · intro hnil
    rw [← fromBytes_getBytes s, hnil, fromBytes, decode]
  · rintro rfl
    rfl

theorem utf8Size_eq_one_iff (c : Char) : c.utf8Size = 1 ↔ c.toNat < 128 := by
  rw [Char.utf8Size_eq_one_iff, UInt32.le_iff_toNat_le]
  exact Nat.lt_succ_iff.symm

theorem sum_units_le (cs : List Char) :
    (cs.map fun c => if c.utf8Size = 4 then 2 else 1).sum ≤ (cs.map Char.utf8Size).sum := by
  induction cs with
  | nil => rfl
  | cons c cs ih =>
    have hpos := c.utf8Size_pos
    rw [List.map_cons, List.map_cons, List.sum_cons, List.sum_cons]
    split_ifs <;> omega

theorem utf16Length_le (s : String) : utf16Length s ≤ (getBytes s).length := by
  rw [utf16Length, length_getBytes]
  exact sum_units_le s.toList

theorem utf16Length_eq_iff (s : String) :
    utf16Length s = (getBytes s).length ↔ ∀ c ∈ s.toList, c.toNat < 128 := by
  rw [utf16Length, length_getBytes]
  induction s.toList with
  | nil => simp
  | cons c cs ih =>
    have hrest := sum_units_le cs
    have hpos := c.utf8Size_pos
    rw [List.forall_mem_cons, ← ih, ← utf8Size_eq_one_iff, List.map_cons, List.map_cons,
      List.sum_cons, List.sum_cons]
    split_ifs <;> omega

theorem length_getBytes_le (s : String) : (getBytes s).length ≤ 4 * s.toList.length := by
  rw [length_getBytes]
  induction s.toList with
  | nil => rfl
  | cons c cs ih =>
    have hfour := c.utf8Size_le_four
    rw [List.map_cons, List.sum_cons, List.length_cons]
    omega

end Bytes

section Decimals

def ofInt (n : ℤ) : String :=
  let digits := Nat.toDigits 10 n.natAbs
  String.ofList (if n < 0 then '-' :: digits else digits)

def parseInt (s : String) : Option (BitVec 32) :=
  let digits := if s.toList.head? = some '-' ∨ s.toList.head? = some '+' then s.toList.tail
    else s.toList
  let magnitude : ℤ := Nat.ofDigitChars 10 digits 0
  let value := if s.toList.head? = some '-' then -magnitude else magnitude
  if digits ≠ [] ∧ digits.all Char.isDigit ∧ -2 ^ 31 ≤ value ∧ value < 2 ^ 31 then
    some (BitVec.ofInt 32 value)
  else none

theorem head_toDigits (n : ℕ) :
    (Nat.toDigits 10 n).head? ≠ some '-' ∧ (Nat.toDigits 10 n).head? ≠ some '+' := by
  have hdigit {c : Char} (h : (Nat.toDigits 10 n).head? = some c) : c.isDigit :=
    Nat.isDigit_of_mem_toDigits (by decide) (by decide) (List.mem_of_head? h)
  constructor
  · intro h
    exact absurd (hdigit h) (by decide)
  · intro h
    exact absurd (hdigit h) (by decide)

theorem parseInt_ofInt (x : BitVec 32) : parseInt (ofInt x.toInt) = some x := by
  have hrange : -2 ^ 31 ≤ x.toInt ∧ x.toInt < 2 ^ 31 := ⟨BitVec.le_toInt x, BitVec.toInt_lt⟩
  obtain ⟨n, hn⟩ : ∃ n, x.toInt.natAbs = n := ⟨_, rfl⟩
  have hall : (Nat.toDigits 10 n).all Char.isDigit = true := by
    rw [List.all_eq_true]
    intro c hc
    exact Nat.isDigit_of_mem_toDigits (by decide) (by decide) hc
  have hhead := head_toDigits n
  rw [parseInt, ofInt, hn]
  by_cases hneg : x.toInt < 0
  · have habs : -(n : ℤ) = x.toInt := by omega
    simp [hneg, hall, habs, Nat.toDigits_ne_nil]
    exact hrange
  · have habs : (n : ℤ) = x.toInt := by omega
    simp [hneg, hall, habs, hhead, Nat.toDigits_ne_nil]
    exact hrange

theorem length_ofInt_le (x : BitVec 32) : (ofInt x.toInt).toList.length ≤ 11 := by
  have hlow := BitVec.le_toInt x
  have hhigh := BitVec.toInt_lt (x := x)
  have hdigits : (Nat.toDigits 10 x.toInt.natAbs).length ≤ 10 := by
    rw [Nat.length_toDigits_le_iff (by decide) (by decide)]
    omega
  rw [ofInt, String.toList_ofList]
  split_ifs
  · rw [List.length_cons]
    omega
  · omega

theorem digits_ofInt {n : ℤ} (hn : 0 ≤ n) : ∀ c ∈ (ofInt n).toList, c.isDigit = true := by
  intro c hc
  rw [ofInt, String.toList_ofList, if_neg (by omega)] at hc
  exact Nat.isDigit_of_mem_toDigits (by decide) (by decide) hc

theorem ofInt_ne_empty (n : ℤ) : (ofInt n).toList ≠ [] := by
  rw [ofInt, String.toList_ofList]
  split_ifs
  · simp
  · exact Nat.toDigits_ne_nil

theorem ofInt_injective {m n : ℤ} (h : ofInt m = ofInt n) : m = n := by
  have hchars := congrArg String.toList h
  have hdigits (k : ℕ) : Nat.ofDigitChars 10 (Nat.toDigits 10 k) 0 = k := by simp
  have hm := hdigits m.natAbs
  have hn := hdigits n.natAbs
  have hno := fun k : ℕ => (head_toDigits k).1
  simp only [ofInt, String.toList_ofList] at hchars
  split_ifs at hchars with h1 h2 h2
  · rw [List.cons.inj hchars |>.2, hn] at hm
    omega
  · exact absurd (hchars ▸ rfl) (hno n.natAbs)
  · exact absurd (hchars ▸ rfl) (hno m.natAbs)
  · rw [hchars, hn] at hm
    omega

end Decimals

section Parts

/-- The parts of a text between separators, without the empty ones at its end. A text without a
separator is its own part. -/
def split (sep : Char) (s : String) : List String :=
  let parts := (s.toList.splitOn sep).map String.ofList
  if parts.length = 1 then parts else parts.rdropWhile (· = "")

theorem append_inj_of_notMem {sep : Char} {a b c d : List Char} (ha : sep ∉ a) (hb : sep ∉ b)
    (h : a ++ sep :: c = b ++ sep :: d) : a = b ∧ c = d := by
  have hsplit := congrArg (List.splitOn sep) h
  rw [List.splitOn_append_cons_self_of_not_mem ha, List.splitOn_append_cons_self_of_not_mem hb] at hsplit
  have hab := (List.cons.inj hsplit).1
  rw [hab] at h
  exact ⟨hab, (List.cons.inj (List.append_cancel_left h)).2⟩

theorem append_inj_of_notMem_right {sep : Char} {a b c d : List Char} (hc : sep ∉ c) (hd : sep ∉ d)
    (h : a ++ sep :: c = b ++ sep :: d) : a = b ∧ c = d := by
  have hr := congrArg List.reverse h
  simp only [List.reverse_append, List.reverse_cons, List.append_assoc, List.singleton_append] at hr
  obtain ⟨hcd, hab⟩ := append_inj_of_notMem (by simpa using hc) (by simpa using hd) hr
  exact ⟨List.reverse_injective hab, List.reverse_injective hcd⟩

theorem split_append {sep : Char} {a c : List Char} (b : List Char) (ha : sep ∉ a) (hc : sep ∉ c)
    (hne : c ≠ []) :
    split sep (String.ofList (a ++ sep :: (b ++ sep :: c))) =
      String.ofList a :: ((b.splitOn sep).map String.ofList ++ [String.ofList c]) := by
  have hparts : (a ++ sep :: (b ++ sep :: c)).splitOn sep = a :: (b.splitOn sep ++ [c]) := by
    rw [List.splitOn_append_cons_self_of_not_mem ha, List.splitOn_append_cons_self,
      List.splitOn_eq_singleton hc]
  have hlast : String.ofList c ≠ "" := by
    intro h
    exact hne (by simpa using congrArg String.toList h)
  unfold split
  rw [String.toList_ofList, hparts]
  simp only [List.map_cons, List.map_append, List.map_nil, List.length_cons, List.length_append]
  rw [if_neg (by omega), ← List.cons_append, List.rdropWhile_concat_neg]
  simpa using hlast

end Parts

end Texts

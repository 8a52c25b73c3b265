import Mathlib.Algebra.Group.Int.Defs
import Mathlib.Data.List.Basic
import Mathlib.Algebra.Group.Nat.Defs

/-! The texts of port numbers. A text is printed in one of five forms, and read by its first character. -/
namespace PortNumbers

abbrev CodeUnit := BitVec 16

abbrev Text := List CodeUnit

def unit (c : Char) : CodeUnit := BitVec.ofNat 16 c.toNat

def text (s : String) : Text := s.toList.map unit

def decimal (n : ℕ) : Text := (Nat.toDigits 10 n).map unit

def isAsciiDecimal (c : CodeUnit) : Bool := unit '0' ≤ c && c ≤ unit '9'

def isLineTerminator (c : CodeUnit) : Bool :=
  c = 0x000a || c = 0x000d || c = 0x0085 || c = 0x2028 || c = 0x2029

/-- The texts of unsigned numbers, from outside; a text that is none throws. -/
structure UnsignedLongs where
  toString : BitVec 64 → Text
  decode : Text → Option (BitVec 64)
  parseUnsignedLong : Text → Option (BitVec 64)
  toString_eq : ∀ x, toString x = decimal x.toNat
  decode_decimal : ∀ x : BitVec 64, decode (decimal x.toNat) = some x
  parse_decimal : ∀ x : BitVec 64, parseUnsignedLong (decimal x.toNat) = some x

inductive IllegalArgumentException where
  | empty
  | invalidNamedPortNumber (s : Text)
  | numberFormat
  | noEnumConstant (s : Text)
  deriving DecidableEq

def MAX_NUMBER : ℤ := 2 * (2 ^ 31 - 1) + 1

def NO_DISPLAY_NUMBER : ℤ := -1

inductive Logical where
  | IN_PORT | TABLE | NORMAL | FLOOD | ALL | LOCAL | CONTROLLER | ANY
  deriving DecidableEq

namespace Logical

def number : Logical → BitVec 64
  | IN_PORT => -8
  | TABLE => -7
  | NORMAL => -6
  | FLOOD => -5
  | ALL => -4
  | LOCAL => -2
  | CONTROLLER => -3
  | ANY => -1

def toText : Logical → Text
  | IN_PORT => text "IN_PORT"
  | TABLE => text "TABLE"
  | NORMAL => text "NORMAL"
  | FLOOD => text "FLOOD"
  | ALL => text "ALL"
  | LOCAL => text "LOCAL"
  | CONTROLLER => text "CONTROLLER"
  | ANY => text "ANY"

def values : List Logical := [IN_PORT, TABLE, NORMAL, FLOOD, ALL, LOCAL, CONTROLLER, ANY]

def valueOf (s : Text) : Except IllegalArgumentException Logical :=
  match values.find? fun lp => lp.toText = s with
  | some lp => .ok lp
  | none => .error (.noEnumConstant s)

end Logical

def LOGICAL (number : BitVec 64) : Option Logical :=
  Logical.values.find? fun lp => lp.number = number

structure PortNumber (longs : UnsignedLongs) where
  number : BitVec 64
  name : Text
  hasName : Bool
  name_eq : hasName = false → name = longs.toString number

variable {longs : UnsignedLongs}

def portNumber (longs : UnsignedLongs) (number : BitVec 64) : PortNumber longs :=
  ⟨number, longs.toString number, false, fun _ => rfl⟩

def namedPortNumber (longs : UnsignedLongs) (number : BitVec 64) (name : Text) : PortNumber longs :=
  ⟨number, name, true, nofun⟩

def decodedPortNumber (longs : UnsignedLongs) (s : Text) :
    Except IllegalArgumentException (PortNumber longs) :=
  match longs.decode s with
  | none => .error .numberFormat
  | some number => .ok (portNumber longs number)

namespace PortNumber

def isLogical (p : PortNumber longs) : Bool :=
  if p.hasName then false else p.number.toInt < 0 || p.number.toInt > MAX_NUMBER

def decodeLogicalPortExtended (p : PortNumber longs) : Text :=
  match LOGICAL p.number with
  | some logical => logical.toText
  | none => text "UNKNOWN(" ++ longs.toString p.number ++ text ")"

def formatted (number : BitVec 64) : Text :=
  if number.toInt < 0 then unit '-' :: decimal number.toInt.natAbs else decimal number.toInt.natAbs

def toText (p : PortNumber longs) : Text :=
  if p.isLogical then p.decodeLogicalPortExtended
  else if p.hasName then
    if p.number.toInt = NO_DISPLAY_NUMBER then unit '[' :: (p.name ++ text "]")
    else unit '[' :: (p.name ++ (text "](" ++ formatted p.number ++ text ")"))
  else p.name

def exactlyEquals (p that : PortNumber longs) : Bool :=
  p.number = that.number && p.hasName = that.hasName && p.name = that.name

end PortNumber

def numOf : Text → Option Text
  | c :: d :: rest =>
    if c = unit ']' ∧ d = unit '(' ∧ rest.getLast? = some (unit ')') ∧ rest.dropLast ≠ [] ∧
        rest.dropLast.all isAsciiDecimal then some rest.dropLast
    else none
  | _ => none

/-- The match of the pattern for named port numbers, with the longest name: its name and its number. -/
def NAMED : Text → Option (Text × Text)
  | [] => none
  | c :: body =>
    if c = unit '[' then
      (List.range (body.length + 1)).reverse.findSome? fun k =>
        if (body.take k).any isLineTerminator then none
        else (numOf (body.drop k)).map (body.take k, ·)
    else none

def fromString (longs : UnsignedLongs) (s : Text) :
    Except IllegalArgumentException (PortNumber longs) :=
  match s with
  | [] => .error .empty
  | c :: _ =>
    if isAsciiDecimal c then decodedPortNumber longs s
    else if c = unit '[' then
      match NAMED s with
      | none => .error (.invalidNamedPortNumber s)
      | some (name, num) => match longs.parseUnsignedLong num with
        | none => .error .numberFormat
        | some number => .ok (namedPortNumber longs number name)
    else if text "UNKNOWN(" <+: s ∧ s.getLast? = some (unit ')') then
      decodedPortNumber longs ((s.take (s.length - 1)).drop (text "UNKNOWN(").length)
    else (Logical.valueOf s).map fun lp => portNumber longs lp.number

section Decimals

theorem toNat_unit_of_mem {n : ℕ} {c : Char} (h : c ∈ Nat.toDigits 10 n) :
    (unit c).toNat = c.toNat ∧ 48 ≤ c.toNat ∧ c.toNat ≤ 57 := by
  have hdigit := Nat.isDigit_of_mem_toDigits (by decide) (by decide) h
  have hrange : 48 ≤ c.toNat ∧ c.toNat ≤ 57 := Char.isDigit_iff_toNat.mp hdigit
  refine ⟨?_, hrange⟩
  rw [unit, BitVec.toNat_ofNat]
  omega

theorem isAsciiDecimal_of_mem_decimal {n : ℕ} : ∀ c ∈ decimal n, isAsciiDecimal c = true := by
  intro c hc
  obtain ⟨d, hd, rfl⟩ := List.mem_map.mp hc
  obtain ⟨hunit, hrange⟩ := toNat_unit_of_mem hd
  rw [isAsciiDecimal, Bool.and_eq_true, decide_eq_true_eq, decide_eq_true_eq, BitVec.le_def,
    BitVec.le_def, hunit]
  exact hrange

theorem decimal_ne_nil (n : ℕ) : decimal n ≠ [] :=
  fun h => Nat.toDigits_ne_nil (List.map_eq_nil_iff.mp h)

end Decimals

section Named

theorem append_cons_inj {α : Type*} {p : α → Bool} {xs ys us vs : List α} {a b : α}
    (hxs : ∀ c ∈ xs, p c = true) (hys : ∀ c ∈ ys, p c = true) (ha : p a = false) (hb : p b = false)
    (h : xs ++ a :: us = ys ++ b :: vs) : xs = ys ∧ a = b ∧ us = vs := by
  induction xs generalizing ys with
  | nil =>
    cases ys with
    | nil =>
      obtain ⟨rfl, rfl⟩ := List.cons.inj h
      exact ⟨rfl, rfl, rfl⟩
    | cons y ys =>
      obtain ⟨rfl, -⟩ := List.cons.inj h
      rw [hys a List.mem_cons_self] at ha
      cases ha
  | cons x xs ih =>
    cases ys with
    | nil =>
      obtain ⟨rfl, -⟩ := List.cons.inj h
      rw [hxs x List.mem_cons_self] at hb
      cases hb
    | cons y ys =>
      obtain ⟨rfl, hrest⟩ := List.cons.inj h
      rw [List.forall_mem_cons] at hxs hys
      obtain ⟨rfl, hab, huv⟩ := ih hxs.2 hys.2 hrest
      exact ⟨rfl, hab, huv⟩

def numbered (num : Text) : Text := text "](" ++ num ++ text ")"

theorem numOf_eq_some {rest num : Text} : numOf rest = some num ↔
      rest = numbered num ∧ num ≠ [] ∧ ∀ c ∈ num, isAsciiDecimal c = true := by
  constructor
  · intro h
    obtain _ | ⟨c, _ | ⟨d, rest⟩⟩ := rest
    · cases h
    · cases h
    · rw [numOf] at h
      split_ifs at h with hmatch
      obtain ⟨rfl, rfl, hlast, hne, hdigits⟩ := hmatch
      obtain rfl := Option.some.inj h
      refine ⟨?_, hne, List.all_eq_true.mp hdigits⟩
      have hsplit := List.dropLast_append_getLast? _ hlast
      conv_lhs => rw [← hsplit]
      rfl
  · rintro ⟨rfl, hne, hdigits⟩
    have hlast : (num ++ [unit ')']).getLast? = some (unit ')') := List.getLast?_concat
    have hinit : (num ++ [unit ')']).dropLast = num := List.dropLast_concat
    have hmatch : unit ']' = unit ']' ∧ unit '(' = unit '(' ∧
        (num ++ [unit ')']).getLast? = some (unit ')') ∧ (num ++ [unit ')']).dropLast ≠ [] ∧
          (num ++ [unit ')']).dropLast.all isAsciiDecimal = true := by
      rw [hinit]
      exact ⟨rfl, rfl, hlast, hne, List.all_eq_true.mpr hdigits⟩
    exact (if_pos hmatch).trans (congrArg some hinit)

theorem numbered_inj {name' num : Text} (name tail : Text) (sign : CodeUnit) (digits : Text)
    (hnum : ∀ c ∈ num, isAsciiDecimal c = true) (hdigits : ∀ c ∈ digits, isAsciiDecimal c = true)
    (hsign : isAsciiDecimal sign = false)
    (h : name' ++ numbered num = name ++ tail ++ [sign] ++ digits ++ text ")") :
    num = digits ∧ unit '(' = sign ∧ name' ++ [unit ']'] = name ++ tail := by
  have hreverse := congrArg List.reverse h
  simp only [numbered, List.reverse_append, List.append_assoc] at hreverse
  have hcut : num.reverse ++ unit '(' :: (unit ']' :: name'.reverse) =
      digits.reverse ++ sign :: (tail.reverse ++ name.reverse) :=
    (List.cons.inj hreverse).2
  obtain ⟨hnums, rfl, hrest⟩ := append_cons_inj (fun c hc => hnum c (List.mem_reverse.mp hc))
    (fun c hc => hdigits c (List.mem_reverse.mp hc)) (by decide) hsign hcut
  refine ⟨List.reverse_injective hnums, rfl, List.reverse_injective ?_⟩
  rw [List.reverse_append, List.reverse_append]
  exact hrest

theorem NAMED_eq_some {body name num : Text} (h : NAMED (unit '[' :: body) = some (name, num)) :
    body = name ++ numbered num ∧ (∀ c ∈ name, isLineTerminator c = false) ∧
      ∀ c ∈ num, isAsciiDecimal c = true := by
  rw [NAMED, if_pos rfl] at h
  obtain ⟨k, _, hk⟩ := List.exists_of_findSome?_eq_some h
  split_ifs at hk with hterminator
  obtain ⟨num', hnum, heq⟩ := Option.map_eq_some_iff.mp hk
  obtain ⟨rfl, rfl⟩ := Prod.mk.inj heq
  obtain ⟨hrest, _, hdigits⟩ := numOf_eq_some.mp hnum
  refine ⟨?_, ?_, hdigits⟩
  · rw [← hrest, List.take_append_drop]
  · simpa using hterminator

theorem NAMED_ne_none {name num : Text} (hname : ∀ c ∈ name, isLineTerminator c = false)
    (hne : num ≠ []) (hnum : ∀ c ∈ num, isAsciiDecimal c = true) :
    NAMED (unit '[' :: (name ++ numbered num)) ≠ none := by
  intro h
  rw [NAMED, if_pos rfl, List.findSome?_eq_none_iff] at h
  have hk := h name.length (by
    rw [List.mem_reverse, List.mem_range, List.length_append]
    omega)
  rw [List.take_left, List.drop_left, if_neg (by simpa using hname),
    numOf_eq_some.mpr ⟨rfl, hne, hnum⟩] at hk
  cases hk

theorem NAMED_decimal (name : Text) (n : ℕ) : NAMED (unit '[' :: (name ++ numbered (decimal n))) =
      if name.any isLineTerminator then none else some (name, decimal n) := by
  have hfound : ∀ name' num, NAMED (unit '[' :: (name ++ numbered (decimal n))) = some (name', num) →
      name.any isLineTerminator = false ∧ name' = name ∧ num = decimal n := by
    intro name' num h
    obtain ⟨hbody, hname, hnum⟩ := NAMED_eq_some h
    obtain ⟨rfl, -, hsplit⟩ := numbered_inj name [unit ']'] (unit '(') (decimal n) hnum
      isAsciiDecimal_of_mem_decimal (by decide) (hbody.symm.trans (by simp [numbered, text]))
    obtain rfl := List.append_cancel_right hsplit
    exact ⟨by simpa using hname, rfl, rfl⟩
  cases h : NAMED (unit '[' :: (name ++ numbered (decimal n))) with
  | some found =>
    obtain ⟨hclean, hname, hnum⟩ := hfound found.1 found.2 h
    rw [hclean, if_neg Bool.false_ne_true, ← hname, ← hnum]
  | none =>
    rw [if_pos]
    by_contra hclean
    refine NAMED_ne_none ?_ (decimal_ne_nil n) isAsciiDecimal_of_mem_decimal h
    simpa using hclean

theorem NAMED_negative (name : Text) (n : ℕ) :
    NAMED (unit '[' :: (name ++ numbered (unit '-' :: decimal n))) = none := by
  cases h : NAMED (unit '[' :: (name ++ numbered (unit '-' :: decimal n))) with
  | none => rfl
  | some found =>
    obtain ⟨name', num⟩ := found
    obtain ⟨hbody, _, hnum⟩ := NAMED_eq_some h
    obtain ⟨-, hsign, -⟩ := numbered_inj name (text "](") (unit '-') (decimal n) hnum
      isAsciiDecimal_of_mem_decimal (by decide) (hbody.symm.trans (by simp [numbered, text]))
    exact absurd hsign (by decide)

theorem NAMED_bare (name : Text) : NAMED (unit '[' :: (name ++ text "]")) = none := by
  cases h : NAMED (unit '[' :: (name ++ text "]")) with
  | none => rfl
  | some found =>
    obtain ⟨name', num⟩ := found
    obtain ⟨hbody, -, -⟩ := NAMED_eq_some h
    have hlast := congrArg List.getLast? hbody
    rw [numbered, ← List.append_assoc] at hlast
    have hbracket : (name ++ text "]").getLast? = some (unit ']') := List.getLast?_concat
    have hparenthesis : (name' ++ (text "](" ++ num) ++ text ")").getLast? = some (unit ')') :=
      List.getLast?_concat
    rw [hbracket, hparenthesis] at hlast
    exact absurd (Option.some.inj hlast) (by decide)

end Named

section RoundTrip

variable (p : PortNumber longs)

def RoundTrips : Prop :=
  ∃ q, fromString longs p.toText = .ok q ∧ q.exactlyEquals p = true

theorem decoded_decimal (longs : UnsignedLongs) (x : BitVec 64) :
    decodedPortNumber longs (decimal x.toNat) = .ok (portNumber longs x) := by
  rw [decodedPortNumber, longs.decode_decimal]

theorem fromString_decimal (longs : UnsignedLongs) (x : BitVec 64) :
    fromString longs (decimal x.toNat) = .ok (portNumber longs x) := by
  have hdecoded := decoded_decimal longs x
  have hdigits := isAsciiDecimal_of_mem_decimal (n := x.toNat)
  obtain ⟨c, rest, hcons⟩ := List.exists_cons_of_ne_nil (decimal_ne_nil x.toNat)
  rw [hcons] at hdecoded hdigits ⊢
  rw [fromString, if_pos (hdigits c List.mem_cons_self), hdecoded]

theorem fromString_unknown (longs : UnsignedLongs) (x : BitVec 64) :
    fromString longs (text "UNKNOWN(" ++ decimal x.toNat ++ text ")") = .ok (portNumber longs x) := by
  have hcons : text "UNKNOWN(" ++ decimal x.toNat ++ text ")" =
      unit 'U' :: (text "NKNOWN(" ++ decimal x.toNat ++ text ")") := rfl
  have hunknown : text "UNKNOWN(" <+: text "UNKNOWN(" ++ decimal x.toNat ++ text ")" := by
    rw [List.append_assoc]
    exact List.prefix_append _ _
  have hlast : (text "UNKNOWN(" ++ decimal x.toNat ++ text ")").getLast? = some (unit ')') :=
    List.getLast?_concat
  have hinner : ((text "UNKNOWN(" ++ decimal x.toNat ++ text ")").take
      ((text "UNKNOWN(" ++ decimal x.toNat ++ text ")").length - 1)).drop (text "UNKNOWN(").length =
        decimal x.toNat := by
    rw [← List.dropLast_eq_take]
    exact (congrArg (List.drop _) List.dropLast_concat).trans List.drop_left
  rw [hcons] at hunknown hlast hinner ⊢
  rw [fromString, if_neg (by decide), if_neg (by decide), if_pos ⟨hunknown, hlast⟩, hinner,
    decoded_decimal]

theorem fromString_logical (longs : UnsignedLongs) (lp : Logical) :
    fromString longs lp.toText = .ok (portNumber longs lp.number) := by
  cases lp <;> rfl

theorem fromString_named (longs : UnsignedLongs) (s : Text) :
    fromString longs (unit '[' :: s) = match NAMED (unit '[' :: s) with
      | none => .error (.invalidNamedPortNumber (unit '[' :: s))
      | some (name, num) => match longs.parseUnsignedLong num with
        | none => .error .numberFormat
        | some number => .ok (namedPortNumber longs number name) := by
  rw [fromString, if_neg (by decide), if_pos rfl]

variable {p}

theorem exactlyEquals_portNumber (h : p.hasName = false) :
    (portNumber longs p.number).exactlyEquals p = true := by
  simp [PortNumber.exactlyEquals, portNumber, h, p.name_eq h]

theorem fromString_toText_unnamed (h : p.hasName = false) :
    fromString longs p.toText = .ok (portNumber longs p.number) := by
  rw [PortNumber.toText, h, if_neg Bool.false_ne_true]
  split_ifs
  · rw [PortNumber.decodeLogicalPortExtended]
    cases hlogical : LOGICAL p.number with
    | some lp =>
      rw [LOGICAL] at hlogical
      have hnumber : lp.number = p.number := by simpa using List.find?_some hlogical
      rw [← hnumber]
      exact fromString_logical longs lp
    | none =>
      rw [longs.toString_eq]
      exact fromString_unknown longs p.number
  · rw [p.name_eq h, longs.toString_eq, fromString_decimal]

theorem fromString_toText_named (h : p.hasName = true) : fromString longs p.toText =
      if 0 ≤ p.number.toInt ∧ p.name.any isLineTerminator = false then
        .ok (namedPortNumber longs p.number p.name)
      else .error (.invalidNamedPortNumber p.toText) := by
  have hlogical : p.isLogical = false := if_pos h
  rw [PortNumber.toText, hlogical, if_neg Bool.false_ne_true, if_pos h]
  by_cases hbare : p.number.toInt = NO_DISPLAY_NUMBER
  · have hneg : ¬0 ≤ p.number.toInt := by
      rw [hbare]
      decide
    rw [if_pos hbare, fromString_named, NAMED_bare, if_neg fun hread => hneg hread.1]
  · have hnumbered : text "](" ++ PortNumber.formatted p.number ++ text ")" =
        numbered (PortNumber.formatted p.number) := rfl
    rw [if_neg hbare, hnumbered, fromString_named, PortNumber.formatted]
    by_cases hneg : p.number.toInt < 0
    · rw [if_pos hneg, NAMED_negative, if_neg fun hread => by omega]
    · have hnat : p.number.toInt.natAbs = p.number.toNat := by
        have hcond := BitVec.toInt_eq_toNat_cond p.number
        have hlt := p.number.isLt
        split_ifs at hcond <;> omega
      rw [if_neg hneg, hnat, NAMED_decimal]
      cases hclean : p.name.any isLineTerminator with
      | false =>
        rw [if_neg Bool.false_ne_true, if_pos ⟨by omega, rfl⟩]
        simp only [longs.parse_decimal]
      | true => rw [if_pos rfl, if_neg fun hread => Bool.false_ne_true hread.2.symm]

/-- A port number comes back from its text, if it has no name, or a number that is not negative and a
name on one line. -/
theorem numberRoundTrips_iff (p : PortNumber longs) : RoundTrips p ↔ p.hasName = false ∨
      0 ≤ p.number.toInt ∧ ∀ c ∈ p.name, isLineTerminator c = false := by
  cases hname : p.hasName with
  | false => exact ⟨fun _ => Or.inl rfl, fun _ => ⟨_, fromString_toText_unnamed hname,
      exactlyEquals_portNumber hname⟩⟩
  | true =>
    have hclean : p.name.any isLineTerminator = false ↔ ∀ c ∈ p.name, isLineTerminator c = false := by
      simp
    rw [RoundTrips, fromString_toText_named hname, ← hclean]
    constructor
    · rintro ⟨q, hq, -⟩
      split_ifs at hq with hread
      exact Or.inr hread
    · intro hread
      rw [if_pos (hread.resolve_left Bool.noConfusion)]
      exact ⟨_, rfl, by simp [PortNumber.exactlyEquals, namedPortNumber, hname]⟩

def readDecimal (s : Text) : Option (BitVec 64) :=
  let value := s.foldl (fun n c => 10 * n + (c.toNat - 48)) 0
  if s ≠ [] ∧ s.all isAsciiDecimal ∧ value < 2 ^ 64 then some (BitVec.ofNat 64 value) else none

theorem readDecimal_decimal (x : BitVec 64) : readDecimal (decimal x.toNat) = some x := by
  have hvalue : (decimal x.toNat).foldl (fun n c => 10 * n + (c.toNat - 48)) 0 = x.toNat := by
    rw [decimal, List.foldl_map]
    refine Eq.trans (List.foldl_ext _ _ _ fun n c hc => ?_) Nat.ofDigitChars_ten_toDigits
    rw [(toNat_unit_of_mem hc).1]
    rfl
  have hall : (decimal x.toNat).all isAsciiDecimal = true :=
    List.all_eq_true.mpr isAsciiDecimal_of_mem_decimal
  rw [readDecimal, hvalue, if_pos ⟨decimal_ne_nil _, hall, x.isLt⟩, BitVec.ofNat_toNat,
    BitVec.setWidth_eq]

def decimalLongs : UnsignedLongs where
  toString x := decimal x.toNat
  decode := readDecimal
  parseUnsignedLong := readDecimal
  toString_eq _ := rfl
  decode_decimal := readDecimal_decimal
  parse_decimal := readDecimal_decimal

/-- Its text is `[eth0](-5)`. -/
theorem not_roundTrips_negative : ¬RoundTrips (namedPortNumber decimalLongs (-5) (text "eth0")) := by
  rintro ⟨q, hq, -⟩
  rw [fromString_toText_named rfl, if_neg (by decide)] at hq
  cases hq

end RoundTrip

end PortNumbers

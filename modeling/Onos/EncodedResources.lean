import Onos.Lib.FailingMap
import Onos.Lib.FallibleRun
import Onos.Lib.KeyedMap
import Onos.Lib.RangeSets
import Mathlib.Algebra.Ring.Int.Defs
import Mathlib.Data.List.Dedup
import Mathlib.Order.BooleanAlgebra.Set

/-! Sets of discrete resources. The values of some classes are encoded as integers, and their sets
are kept as ranges; the others are kept as they are. Classes, values and codecs are parameters. Sets
are lists without order; an exception of the source is an error with its name. -/
namespace EncodedResources

open KeyedMap RangeSets
open FallibleRun (map_eq_ok bind_eq_ok)

abbrev DiscreteResourceId (T : Type*) := List T

structure DiscreteResource (T : Type*) where
  parent : DiscreteResourceId T
  value : T
  deriving DecidableEq

def MIN_VALUE : ℤ := -2147483648

def MAX_VALUE : ℤ := 2147483647

abbrev Code := {n : ℤ // MIN_VALUE ≤ n ∧ n ≤ MAX_VALUE}

def toCode (n : ℤ) : Option Code := if h : MIN_VALUE ≤ n ∧ n ≤ MAX_VALUE then some ⟨n, h⟩ else none

structure Codecs (K T : Type*) where
  getClass : T → K
  containsKey : K → Bool
  encode : T → Code
  decode : K → Code → Except String T

structure EncodedDiscreteResources (K : Type*) where
  rangeSet : RangeSet Code
  codec : K

inductive DiscreteResources (K T : Type*) where
  | empty
  | generic (values : List (DiscreteResource T))
  | encodable (parent : DiscreteResourceId T) (map : Table K (EncodedDiscreteResources K))
  | unified (generics encodables : DiscreteResources K T)

variable {K T : Type*} [DecidableEq K] [DecidableEq T] (codecs : Codecs K T)

def resource (id : DiscreteResourceId T) : Option (DiscreteResource T) :=
  id.getLast?.map fun value => ⟨id.dropLast, value⟩

def Codecs.isEncodable (x : DiscreteResource T) : Bool :=
  codecs.containsKey (codecs.getClass x.value)

/-- `Range.singleton` in its canonical form: after the greatest integer there is no end. -/
def singleton (n : Code) : Range Code :=
  if h : n.1 < MAX_VALUE then
    ⟨n, (⟨n.1 + 1, by omega, by omega⟩ : Code),
      WithTop.coe_lt_coe.mpr (Subtype.mk_lt_mk.mpr (by omega))⟩
  else ⟨n, ⊤, WithTop.coe_lt_top n⟩

/-- `IntStream.range` between the ends of a range; a range without an upper end has no endpoint. -/
def codesOf (r : Range Code) : Except String (List Code) :=
  match r.upper with
  | ⊤ => .error "IllegalStateException"
  | (upper : Code) =>
    .ok ((List.range (upper.1 - r.lower.1).toNat).filterMap fun (i : ℕ) => toCode (r.lower.1 + i))

namespace EncodedDiscreteResources

def of (resources : List (DiscreteResource T)) (codec : K) : EncodedDiscreteResources K where
  rangeSet := resources.foldl (fun s x => s.add (singleton (codecs.encode x.value))) .empty
  codec := codec

def decodeRange (parent : DiscreteResourceId T) (codec : K) (r : Range Code) :
    Except String (List (DiscreteResource T)) :=
  (codesOf r).bind fun codes =>
    codes.mapM fun n => (codecs.decode codec n).map fun value => ⟨parent, value⟩

def values (e : EncodedDiscreteResources K) (parent : DiscreteResourceId T) :
    Except String (List (DiscreteResource T)) :=
  (e.rangeSet.ranges.mapM (decodeRange codecs parent e.codec)).map List.flatten

def contains (e : EncodedDiscreteResources K) (x : DiscreteResource T) : Bool :=
  e.rangeSet.Contains (codecs.encode x.value)

def difference (e other : EncodedDiscreteResources K) :
    Except String (EncodedDiscreteResources K) :=
  if e.codec = other.codec then .ok { e with rangeSet := e.rangeSet.removeAll other.rangeSet }
  else .error "IllegalArgumentException"

def add (e other : EncodedDiscreteResources K) : Except String (EncodedDiscreteResources K) :=
  if e.codec = other.codec then .ok { e with rangeSet := e.rangeSet.addAll other.rangeSet }
  else .error "IllegalArgumentException"

def isEmpty (e : EncodedDiscreteResources K) : Bool := e.rangeSet.isEmpty

end EncodedDiscreteResources

namespace GenericDiscreteResources

def of (resources : List (DiscreteResource T)) : DiscreteResources K T :=
  if resources = [] then .empty else .generic resources

end GenericDiscreteResources

namespace EncodableDiscreteResources

def ofParent (parent : DiscreteResourceId T) (resources : List (DiscreteResource T)) :
    Except String (DiscreteResources K T) :=
  if ∃ x ∈ resources, codecs.isEncodable x = false then .error "NullPointerException"
  else
    let classes := (resources.map fun x => codecs.getClass x.value).dedup
    .ok (.encodable parent (classes.foldl (fun values cls => values.insert cls
      (.of codecs (resources.filter fun x => codecs.getClass x.value = cls) cls)) ∅))

def of (resources : List (DiscreteResource T)) : Except String (DiscreteResources K T) :=
  match resources with
  | [] => .ok .empty
  | x :: _ => ofParent codecs x.parent resources

def isEmptyMap (map : Table K (EncodedDiscreteResources K)) : Bool :=
  (KeyedMap.values map).all EncodedDiscreteResources.isEmpty

def ofMap (parent : DiscreteResourceId T) (map : Table K (EncodedDiscreteResources K)) :
    DiscreteResources K T :=
  if isEmptyMap map then .empty else .encodable parent map

def putDifference (other newMap : Table K (EncodedDiscreteResources K))
    (entry : Sigma fun _ : K => EncodedDiscreteResources K) :
    Except String (Table K (EncodedDiscreteResources K)) :=
  match other.lookup entry.1 with
  | none => .ok (newMap.insert entry.1 entry.2)
  | some otherValues => (entry.2.difference otherValues).map fun diff =>
    if diff.isEmpty then newMap else newMap.insert entry.1 diff

def differenceMap (map other : Table K (EncodedDiscreteResources K)) :
    Except String (Table K (EncodedDiscreteResources K)) :=
  map.entries.foldlM (putDifference other) ∅

def merge (newMap : Table K (EncodedDiscreteResources K))
    (entry : Sigma fun _ : K => EncodedDiscreteResources K) :
    Except String (Table K (EncodedDiscreteResources K)) :=
  match newMap.lookup entry.1 with
  | none => .ok (newMap.insert entry.1 entry.2)
  | some values => (values.add entry.2).map fun sum => newMap.insert entry.1 sum

def addMap (map other : Table K (EncodedDiscreteResources K)) :
    Except String (Table K (EncodedDiscreteResources K)) :=
  other.entries.foldlM merge map

end EncodableDiscreteResources

namespace UnifiedDiscreteResources

def of (resources : List (DiscreteResource T)) : Except String (DiscreteResources K T) :=
  if resources = [] then .ok .empty
  else
    let generics := resources.filter fun x => !codecs.isEncodable x
    (EncodableDiscreteResources.of codecs (resources.filter codecs.isEncodable)).map
      fun encodables => .unified (GenericDiscreteResources.of generics) encodables

end UnifiedDiscreteResources

namespace DiscreteResources

def of (resources : List (DiscreteResource T)) : Except String (DiscreteResources K T) :=
  UnifiedDiscreteResources.of codecs resources

def lookup : DiscreteResources K T → DiscreteResourceId T → Option (DiscreteResource T)
  | .empty, _ => none
  | .generic values, id => (resource id).filter fun x => x ∈ values
  | .encodable parent map, id => (resource id).filter fun x => x.parent = parent &&
    (map.lookup (codecs.getClass x.value)).any fun e => e.contains codecs x
  | .unified generics encodables, id =>
    if (resource id).any codecs.isEncodable then encodables.lookup id else generics.lookup id

def isEmpty : DiscreteResources K T → Bool
  | .empty => true
  | .generic values => values.isEmpty
  | .encodable _ map => EncodableDiscreteResources.isEmptyMap map
  | .unified generics encodables => generics.isEmpty && encodables.isEmpty

def containsAny : DiscreteResources K T → List (DiscreteResource T) → Bool
  | .empty, _ => false
  | .generic values, other => values.any fun x => x ∈ other
  | .encodable _ map, other => other.any fun x =>
    (map.lookup (codecs.getClass x.value)).any fun e => e.contains codecs x
  | .unified generics encodables, other =>
    generics.containsAny (other.filter fun x => !codecs.isEncodable x) ||
      encodables.containsAny (other.filter codecs.isEncodable)

def values : DiscreteResources K T → Except String (List (DiscreteResource T))
  | .empty => .ok []
  | .generic values => .ok values
  | .encodable parent map =>
    ((KeyedMap.values map).mapM fun (e : EncodedDiscreteResources K) =>
      EncodedDiscreteResources.values codecs e parent).map List.flatten
  | .unified generics encodables => encodables.values.bind fun encoded =>
    generics.values.map fun others => encoded ++ others

def difference :
    DiscreteResources K T → DiscreteResources K T → Except String (DiscreteResources K T)
  | .empty, _ => .ok .empty
  | this, .empty => .ok this
  | .generic values, .generic other =>
    .ok (GenericDiscreteResources.of (values.filter fun x => x ∉ other))
  | .encodable parent map, .encodable _ other =>
    (EncodableDiscreteResources.differenceMap map other).map
      (EncodableDiscreteResources.ofMap parent)
  | .unified generics encodables, .unified generics' encodables' =>
    (generics.difference generics').bind fun generics =>
      (encodables.difference encodables').map fun encodables => .unified generics encodables
  | this, other => (this.values codecs).bind fun values => (other.values codecs).bind fun others =>
    of codecs (values.filter fun x => x ∉ others)

def add : DiscreteResources K T → DiscreteResources K T → Except String (DiscreteResources K T)
  | .empty, other => .ok other
  | this, .empty => .ok this
  | .generic values, .generic other => .ok (GenericDiscreteResources.of (values ∪ other))
  | .encodable parent map, .encodable _ other =>
    (EncodableDiscreteResources.addMap map other).map (EncodableDiscreteResources.ofMap parent)
  | .unified generics encodables, .unified generics' encodables' =>
    (generics.add generics').bind fun generics =>
      (encodables.add encodables').map fun encodables => .unified generics encodables
  | this, other => (this.values codecs).bind fun values => (other.values codecs).bind fun others =>
    of codecs (values ∪ others)

end DiscreteResources

section Codes

def maxCode : Code := ⟨MAX_VALUE, by decide, le_rfl⟩

theorem le_maxCode (n : Code) : n ≤ maxCode := n.2.2

theorem toCode_eq_some {m : ℤ} {n : Code} : toCode m = some n ↔ m = n.1 := by
  unfold toCode
  split_ifs with h
  · rw [Option.some.injEq, Subtype.ext_iff]
  · constructor
    · intro hnone
      cases hnone
    · rintro rfl
      exact absurd n.2 h

theorem contains_singleton {m n : Code} : (singleton m).Contains n ↔ n = m := by
  unfold singleton
  split_ifs with h
  · simp only [Range.Contains, WithTop.coe_le_coe, WithTop.coe_lt_coe, ← Subtype.coe_le_coe,
      ← Subtype.coe_lt_coe, Subtype.ext_iff]
    omega
  · have hle := n.2.2
    have hm := m.2.2
    simp only [Range.Contains, WithTop.coe_le_coe, WithTop.coe_lt_top, and_true,
      ← Subtype.coe_le_coe, Subtype.ext_iff]
    omega

theorem contains_maxCode {r : Range Code} : r.Contains maxCode ↔ r.upper = ⊤ := by
  constructor
  · rintro ⟨-, hlt⟩
    by_contra hne
    obtain ⟨u, hu⟩ := WithTop.ne_top_iff_exists.mp hne
    rw [← hu, WithTop.coe_lt_coe] at hlt
    exact absurd (le_maxCode u) (not_le.mpr hlt)
  · intro h
    refine ⟨WithTop.coe_le_coe.mpr (le_maxCode r.lower), ?_⟩
    rw [h]
    exact WithTop.coe_lt_top _

theorem codesOf_ok {r : Range Code} (h : ¬r.Contains maxCode) :
    ∃ codes, codesOf r = .ok codes ∧ ∀ n, n ∈ codes ↔ r.Contains n := by
  obtain ⟨lower, upper, hnonempty⟩ := r
  rw [contains_maxCode] at h
  obtain ⟨u, rfl⟩ := WithTop.ne_top_iff_exists.mp h
  refine ⟨(List.range (u.1 - lower.1).toNat).filterMap fun (i : ℕ) => toCode (lower.1 + i), rfl,
    fun n => ?_⟩
  simp only [List.mem_filterMap, List.mem_range, toCode_eq_some, Range.Contains,
    WithTop.coe_le_coe, WithTop.coe_lt_coe, ← Subtype.coe_le_coe, ← Subtype.coe_lt_coe]
  constructor
  · rintro ⟨i, hi, heq⟩
    omega
  · rintro ⟨hlower, hupper⟩
    exact ⟨(n.1 - lower.1).toNat, by omega, by omega⟩

theorem codesOf_fails {r : Range Code} (h : r.Contains maxCode) :
    codesOf r = .error "IllegalStateException" := by
  rw [codesOf, contains_maxCode.mp h]

end Codes

section Maps

omit [DecidableEq T]

variable {codecs} {map other : Table K (EncodedDiscreteResources K)}

def HasCode (map : Table K (EncodedDiscreteResources K)) (cls : K) (n : Code) : Prop :=
  ∃ e, map.lookup cls = some e ∧ e.rangeSet.Contains n

def HasOwnCodecs (map : Table K (EncodedDiscreteResources K)) : Prop :=
  ∀ cls e, map.lookup cls = some e → e.codec = cls

theorem any_contains {x : DiscreteResource T} :
    (map.lookup (codecs.getClass x.value)).any (fun e => e.contains codecs x) = true ↔
      HasCode map (codecs.getClass x.value) (codecs.encode x.value) := by
  cases hlookup : map.lookup (codecs.getClass x.value) with
  | none => simp [HasCode, hlookup]
  | some e => simp [HasCode, hlookup, EncodedDiscreteResources.contains]

variable {cls : K}

omit [DecidableEq K] in
theorem contains_of {resources : List (DiscreteResource T)} {n : Code} :
    (EncodedDiscreteResources.of codecs resources cls).rangeSet.Contains n ↔
      ∃ x ∈ resources, codecs.encode x.value = n := by
  have hfold : ∀ s : RangeSet Code,
      (resources.foldl (fun s x => s.add (singleton (codecs.encode x.value))) s).Contains n ↔
        s.Contains n ∨ ∃ x ∈ resources, codecs.encode x.value = n := by
    induction resources with
    | nil => simp
    | cons x resources ih =>
      intro s
      rw [List.foldl_cons, ih, RangeSet.contains_add, contains_singleton,
        List.exists_mem_cons_iff, or_assoc, or_left_comm, eq_comm]
  refine (hfold .empty).trans ?_
  simp

theorem isEmptyMap_iff :
    EncodableDiscreteResources.isEmptyMap map = true ↔ ∀ cls n, ¬HasCode map cls n := by
  simp only [EncodableDiscreteResources.isEmptyMap, List.all_eq_true, KeyedMap.mem_values_iff,
    EncodedDiscreteResources.isEmpty, RangeSet.isEmpty_iff]
  constructor
  · rintro hall cls n ⟨e, he, hn⟩
    exact hall e ⟨cls, he⟩ n hn
  · rintro hnone e ⟨cls, he⟩ n hn
    exact hnone cls n ⟨e, he, hn⟩

def leftOf (other : Table K (EncodedDiscreteResources K)) (cls : K)
    (e : EncodedDiscreteResources K) : Option (EncodedDiscreteResources K) :=
  (other.lookup cls).elim (some e) fun others =>
    let diff := { e with rangeSet := e.rangeSet.removeAll others.rangeSet }
    if diff.isEmpty then none else some diff

variable {e : EncodedDiscreteResources K}

theorem putDifference_ok {newMap : Table K (EncodedDiscreteResources K)}
    (h : HasOwnCodecs other) (he : e.codec = cls)
    (hnone : newMap.lookup cls = none) :
    ∃ newMap', EncodableDiscreteResources.putDifference other newMap ⟨cls, e⟩ = .ok newMap' ∧
      ∀ j, newMap'.lookup j = if j = cls then leftOf other cls e else newMap.lookup j := by
  rw [EncodableDiscreteResources.putDifference, leftOf]
  dsimp only
  cases hother : other.lookup cls with
  | none => exact ⟨_, rfl, fun j => lookup_insert newMap cls j e⟩
  | some others =>
    have hsame : e.codec = others.codec := he.trans (h cls others hother).symm
    have hdiff : e.difference others =
      .ok { e with rangeSet := e.rangeSet.removeAll others.rangeSet } := if_pos hsame
    dsimp only
    rw [hdiff]
    refine ⟨_, rfl, fun j => ?_⟩
    dsimp only [Option.elim_some]
    split_ifs with hempty hj hj
    · rw [hj, hnone]
    · rfl
    · rw [lookup_insert, if_pos hj]
    · rw [lookup_insert, if_neg hj]

theorem leftOf_codec {e left : EncodedDiscreteResources K}
    (h : leftOf other cls e = some left) : left.codec = e.codec := by
  unfold leftOf at h
  cases hother : other.lookup cls with
  | none =>
    rw [hother] at h
    rw [← Option.some.inj h]
  | some others =>
    rw [hother, Option.elim_some] at h
    dsimp only at h
    split_ifs at h
    rw [← Option.some.inj h]

theorem contains_leftOf {n : Code} :
    (∃ left, leftOf other cls e = some left ∧ left.rangeSet.Contains n) ↔
      e.rangeSet.Contains n ∧ ¬HasCode other cls n := by
  unfold leftOf HasCode
  cases other.lookup cls with
  | none => simp
  | some others =>
    have hremove : (e.rangeSet.removeAll others.rangeSet).Contains n ↔
        e.rangeSet.Contains n ∧ ¬others.rangeSet.Contains n := RangeSet.contains_removeAll
    simp only [Option.elim_some, Option.some.injEq, exists_eq_left', ← hremove]
    split_ifs with hempty
    · refine iff_of_false ?_ (RangeSet.isEmpty_iff.mp hempty n)
      rintro ⟨left, hnone, -⟩
      cases hnone
    · simp

theorem differenceMap_ok (h : HasOwnCodecs map) (h' : HasOwnCodecs other) :
    ∃ newMap, EncodableDiscreteResources.differenceMap map other = .ok newMap ∧
      HasOwnCodecs newMap ∧
      ∀ cls n, HasCode newMap cls n ↔ HasCode map cls n ∧ ¬HasCode other cls n := by
  obtain ⟨newMap, hok, hlookup⟩ := lookup_foldlM map ∅ (leftOf other)
    fun t cls e he (ht : t.lookup cls = (∅ : Table K (EncodedDiscreteResources K)).lookup cls) =>
      putDifference_ok h' (h cls e he) (ht.trans (AList.lookup_empty cls))
  refine ⟨newMap, hok, fun cls left hleft => ?_, fun cls n => ?_⟩
  · rw [hlookup] at hleft
    cases hcls : map.lookup cls with
    | none =>
      rw [hcls] at hleft
      cases hleft
    | some e =>
      rw [hcls] at hleft
      exact (leftOf_codec hleft).trans (h cls e hcls)
  · unfold HasCode
    rw [hlookup]
    cases map.lookup cls with
    | none => simp
    | some e =>
      refine contains_leftOf.trans ?_
      simp [HasCode]

def together (map : Table K (EncodedDiscreteResources K)) (cls : K)
    (e : EncodedDiscreteResources K) : EncodedDiscreteResources K :=
  (map.lookup cls).elim e fun values =>
    { values with rangeSet := values.rangeSet.addAll e.rangeSet }

theorem merge_ok {newMap : Table K (EncodedDiscreteResources K)}
    (h : HasOwnCodecs map) (he : e.codec = cls)
    (hsame : newMap.lookup cls = map.lookup cls) :
    ∃ newMap', EncodableDiscreteResources.merge newMap ⟨cls, e⟩ = .ok newMap' ∧
      ∀ j, newMap'.lookup j = if j = cls then some (together map cls e) else newMap.lookup j := by
  rw [EncodableDiscreteResources.merge, together]
  dsimp only
  rw [hsame]
  cases hmap : map.lookup cls with
  | none => exact ⟨_, rfl, fun j => lookup_insert newMap cls j e⟩
  | some values =>
    have hcodec : values.codec = e.codec := (h cls values hmap).trans he.symm
    have hadd : values.add e =
      .ok { values with rangeSet := values.rangeSet.addAll e.rangeSet } := if_pos hcodec
    dsimp only
    rw [hadd]
    refine ⟨_, rfl, fun j => ?_⟩
    exact lookup_insert newMap cls j _

theorem addMap_ok (h : HasOwnCodecs map) (h' : HasOwnCodecs other) :
    ∃ newMap, EncodableDiscreteResources.addMap map other = .ok newMap ∧
      HasOwnCodecs newMap ∧
      ∀ cls n, HasCode newMap cls n ↔ HasCode map cls n ∨ HasCode other cls n := by
  obtain ⟨newMap, hok, hlookup⟩ := lookup_foldlM other map (fun cls e => some (together map cls e))
    fun t cls e he ht => merge_ok h (h' cls e he) ht
  have hcases : ∀ cls, newMap.lookup cls = (other.lookup cls).elim (map.lookup cls)
      fun e => some (together map cls e) := hlookup
  refine ⟨newMap, hok, fun cls sum hsum => ?_, fun cls n => ?_⟩
  · rw [hcases] at hsum
    cases hother : other.lookup cls with
    | none =>
      rw [hother] at hsum
      exact h cls sum hsum
    | some e =>
      rw [hother] at hsum
      obtain rfl := Option.some.inj hsum
      unfold together
      cases hmap : map.lookup cls with
      | none => exact h' cls e hother
      | some values => exact h cls values hmap
  · unfold HasCode
    rw [hcases]
    cases other.lookup cls with
    | none => simp
    | some e =>
      unfold together
      cases map.lookup cls with
      | none => simp
      | some values => simp

end Maps

section Encodables

omit [DecidableEq T]

variable {codecs} {parent : DiscreteResourceId T} {used : Set T} {S S' : Set (DiscreteResource T)}
  {map map' : Table K (EncodedDiscreteResources K)}

def Lawful (codecs : Codecs K T) (used : Set T) : Prop :=
  ∀ v ∈ used, codecs.containsKey (codecs.getClass v) = true →
    codecs.decode (codecs.getClass v) (codecs.encode v) = .ok v

def Under (parent : DiscreteResourceId T) (used : Set T) (S : Set (DiscreteResource T)) : Prop :=
  ∀ x ∈ S, x.parent = parent ∧ x.value ∈ used

def AreEncodable (codecs : Codecs K T) (S : Set (DiscreteResource T)) : Prop :=
  ∀ x ∈ S, codecs.isEncodable x = true

structure HoldsCodes (codecs : Codecs K T) (map : Table K (EncodedDiscreteResources K))
    (S : Set (DiscreteResource T)) : Prop where
  codec : HasOwnCodecs map
  codes : ∀ cls n, HasCode map cls n ↔
    ∃ x ∈ S, codecs.getClass x.value = cls ∧ codecs.encode x.value = n

omit [DecidableEq K] in
theorem eq_of_encode (hlawful : Lawful codecs used) {x y : DiscreteResource T}
    (hx : x.parent = parent ∧ x.value ∈ used) (hy : y.parent = parent ∧ y.value ∈ used)
    (hy' : codecs.isEncodable y = true)
    (hclass : codecs.getClass y.value = codecs.getClass x.value)
    (hcode : codecs.encode y.value = codecs.encode x.value) : y = x := by
  have hdecode := hlawful y.value hy.2 hy'
  have hkey : codecs.containsKey (codecs.getClass x.value) = true := hclass ▸ hy'
  rw [hclass, hcode, hlawful x.value hx.2 hkey] at hdecode
  obtain ⟨xparent, xvalue⟩ := x
  obtain ⟨yparent, yvalue⟩ := y
  obtain rfl : xparent = yparent := hx.1.trans hy.1.symm
  obtain rfl : xvalue = yvalue := Except.ok.inj hdecode
  rfl

section

variable (h : HoldsCodes codecs map S)

include h

theorem HoldsCodes.mem_iff (hlawful : Lawful codecs used)
    (hS : Under parent used S) (hS' : AreEncodable codecs S) {x : DiscreteResource T}
    (hx : x.parent = parent ∧ x.value ∈ used) :
    HasCode map (codecs.getClass x.value) (codecs.encode x.value) ↔ x ∈ S := by
  rw [h.codes]
  constructor
  · rintro ⟨y, hy, hclass, hcode⟩
    exact eq_of_encode hlawful hx (hS y hy) (hS' y hy) hclass hcode ▸ hy
  · intro hmem
    exact ⟨x, hmem, rfl, rfl⟩

theorem HoldsCodes.isEmpty_iff : EncodableDiscreteResources.isEmptyMap map = true ↔ S = ∅ := by
  rw [isEmptyMap_iff, Set.eq_empty_iff_forall_notMem]
  simp only [h.codes]
  constructor
  · intro hnone x hx
    exact hnone _ _ ⟨x, hx, rfl, rfl⟩
  · rintro hnone cls n ⟨x, hx, -⟩
    exact hnone x hx

theorem HoldsCodes.difference (h' : HoldsCodes codecs map' S')
    (hlawful : Lawful codecs used) (hS : Under parent used S) (hS' : Under parent used S')
    (hencodable : AreEncodable codecs S') :
    ∃ newMap, EncodableDiscreteResources.differenceMap map map' = .ok newMap ∧
      HoldsCodes codecs newMap (S \ S') := by
  obtain ⟨newMap, hok, hcodec, hcodes⟩ := differenceMap_ok h.codec h'.codec
  refine ⟨newMap, hok, hcodec, fun cls n => ?_⟩
  rw [hcodes, h.codes]
  constructor
  · rintro ⟨⟨x, hx, rfl, rfl⟩, hnot⟩
    rw [h'.mem_iff hlawful hS' hencodable (hS x hx)] at hnot
    exact ⟨x, ⟨hx, hnot⟩, rfl, rfl⟩
  · rintro ⟨x, ⟨hx, hnot⟩, rfl, rfl⟩
    rw [h'.mem_iff hlawful hS' hencodable (hS x hx)]
    exact ⟨⟨x, hx, rfl, rfl⟩, hnot⟩

theorem HoldsCodes.add (h' : HoldsCodes codecs map' S') :
    ∃ newMap, EncodableDiscreteResources.addMap map map' = .ok newMap ∧
      HoldsCodes codecs newMap (S ∪ S') := by
  obtain ⟨newMap, hok, hcodec, hcodes⟩ := addMap_ok h.codec h'.codec
  refine ⟨newMap, hok, hcodec, fun cls n => ?_⟩
  rw [hcodes, h.codes, h'.codes]
  simp only [Set.mem_union, or_and_right, exists_or]

end

variable (codecs parent) in
omit [DecidableEq K] in
theorem values_ok {e : EncodedDiscreteResources K} (hmax : ¬e.rangeSet.Contains maxCode)
    (hdecode : ∀ n, e.rangeSet.Contains n → ∃ v, codecs.decode e.codec n = .ok v) :
    ∃ xs, e.values codecs parent = .ok xs ∧ ∀ x, x ∈ xs ↔
      ∃ n, e.rangeSet.Contains n ∧ codecs.decode e.codec n = .ok x.value ∧ x.parent = parent := by
  have hrange : ∀ r ∈ e.rangeSet.ranges, ∃ xs,
      EncodedDiscreteResources.decodeRange codecs parent e.codec r = .ok xs ∧
      ∀ x, x ∈ xs ↔
        ∃ n, r.Contains n ∧ codecs.decode e.codec n = .ok x.value ∧ x.parent = parent := by
    intro r hr
    obtain ⟨codes, hcodes, hmem⟩ := codesOf_ok fun hcontains => hmax ⟨r, hr, hcontains⟩
    obtain ⟨xs, hxs, hdecoded⟩ := FailingMap.mapM_ok (l := codes)
      (f := fun n => (codecs.decode e.codec n).map fun value => DiscreteResource.mk parent value)
      fun n hn => by
        obtain ⟨v, hv⟩ := hdecode n ⟨r, hr, (hmem n).mp hn⟩
        exact ⟨⟨parent, v⟩, by rw [hv]; rfl⟩
    refine ⟨xs, by rw [EncodedDiscreteResources.decodeRange, hcodes]; exact hxs, fun x => ?_⟩
    rw [hdecoded]
    constructor
    · rintro ⟨n, hn, hx⟩
      obtain ⟨v, hv, rfl⟩ := map_eq_ok.mp hx
      exact ⟨n, (hmem n).mp hn, hv, rfl⟩
    · rintro ⟨n, hn, hv, rfl⟩
      exact ⟨n, (hmem n).mpr hn, by rw [hv]; rfl⟩
  obtain ⟨xs, hok, hmem⟩ := FailingMap.flatten_ok hrange
  refine ⟨xs, hok, fun x => (hmem x).trans ?_⟩
  constructor
  · rintro ⟨r, hr, n, hn, hx⟩
    exact ⟨n, ⟨r, hr, hn⟩, hx⟩
  · rintro ⟨n, ⟨r, hr, hn⟩, hx⟩
    exact ⟨r, hr, n, hn, hx⟩

variable (codecs parent) in
omit [DecidableEq K] in
theorem values_fails {e : EncodedDiscreteResources K} (hmax : e.rangeSet.Contains maxCode) :
    ∃ message, e.values codecs parent = .error message := by
  obtain ⟨r, hr, hmax⟩ := hmax
  obtain ⟨message, hfails⟩ := FailingMap.mapM_fails
    (f := EncodedDiscreteResources.decodeRange codecs parent e.codec) ⟨r, hr, _, by
      rw [EncodedDiscreteResources.decodeRange, codesOf_fails hmax]
      rfl⟩
  exact ⟨message, by rw [EncodedDiscreteResources.values, hfails]; rfl⟩

theorem HoldsCodes.values_ok (h : HoldsCodes codecs map S) (hlawful : Lawful codecs used)
    (hS : Under parent used S) (hencodable : AreEncodable codecs S)
    (hmax : ∀ x ∈ S, codecs.encode x.value ≠ maxCode) :
    ∃ xs, (DiscreteResources.encodable parent map).values codecs = .ok xs ∧
      ∀ x, x ∈ xs ↔ x ∈ S := by
  have hclass : ∀ e ∈ KeyedMap.values map, ∃ xs, e.values codecs parent = .ok xs ∧
      ∀ x, x ∈ xs ↔ x ∈ S ∧ codecs.getClass x.value = e.codec := by
    intro e he
    obtain ⟨cls, hlookup⟩ := (KeyedMap.mem_values_iff map e).mp he
    obtain rfl := h.codec cls e hlookup
    have hcode : ∀ n, e.rangeSet.Contains n →
        ∃ x ∈ S, codecs.getClass x.value = e.codec ∧ codecs.encode x.value = n :=
      fun n hn => (h.codes e.codec n).mp ⟨e, hlookup, hn⟩
    have hdecode : ∀ x ∈ S, codecs.getClass x.value = e.codec →
        codecs.decode e.codec (codecs.encode x.value) = .ok x.value := by
      intro x hx hcodec
      rw [← hcodec]
      exact hlawful x.value (hS x hx).2 (hencodable x hx)
    obtain ⟨xs, hok, hmem⟩ := EncodedResources.values_ok codecs parent
      (e := e) (fun hcontains => by
        obtain ⟨x, hx, -, hcode⟩ := hcode _ hcontains
        exact hmax x hx hcode)
      (fun n hn => by
        obtain ⟨x, hx, hcodec, rfl⟩ := hcode n hn
        exact ⟨x.value, hdecode x hx hcodec⟩)
    refine ⟨xs, hok, fun x => ?_⟩
    rw [hmem]
    constructor
    · rintro ⟨n, hn, hx, hparent⟩
      obtain ⟨y, hy, hcodec, rfl⟩ := hcode n hn
      rw [hdecode y hy hcodec] at hx
      obtain ⟨xparent, xvalue⟩ := x
      obtain ⟨yparent, yvalue⟩ := y
      obtain rfl : yvalue = xvalue := Except.ok.inj hx
      obtain rfl : yparent = xparent := (hS _ hy).1.trans hparent.symm
      exact ⟨hy, hcodec⟩
    · rintro ⟨hx, hcodec⟩
      obtain ⟨e', he', hn⟩ := (h.codes e.codec _).mpr ⟨x, hx, hcodec, rfl⟩
      obtain rfl := Option.some.inj (he'.symm.trans hlookup)
      exact ⟨_, hn, hdecode x hx hcodec, (hS x hx).1⟩
  obtain ⟨xs, hok, hmem⟩ := FailingMap.flatten_ok hclass
  refine ⟨xs, hok, fun x => (hmem x).trans ?_⟩
  constructor
  · rintro ⟨e, -, hx, -⟩
    exact hx
  · intro hx
    obtain ⟨e, he, -⟩ := (h.codes _ _).mpr ⟨x, hx, rfl, rfl⟩
    exact ⟨e, (KeyedMap.mem_values_iff map e).mpr ⟨_, he⟩, hx, (h.codec _ e he).symm⟩

variable (parent) in
theorem HoldsCodes.values_fails (h : HoldsCodes codecs map S)
    (hmax : ∃ x ∈ S, codecs.encode x.value = maxCode) :
    ∃ message, (DiscreteResources.encodable parent map).values codecs = .error message := by
  obtain ⟨x, hx, hmax⟩ := hmax
  obtain ⟨e, he, hcontains⟩ := (h.codes _ maxCode).mpr ⟨x, hx, rfl, hmax⟩
  obtain ⟨message, hfails⟩ := EncodedResources.values_fails codecs parent hcontains
  obtain ⟨message', hall⟩ := FailingMap.mapM_fails
    (f := fun e : EncodedDiscreteResources K => EncodedDiscreteResources.values codecs e parent)
    ⟨e, (KeyedMap.mem_values_iff map e).mpr ⟨_, he⟩, message, hfails⟩
  exact ⟨message', by rw [DiscreteResources.values, hall]; rfl⟩

end Encodables

section Sets

variable {codecs} {parent : DiscreteResourceId T} {used : Set T} {S S' : Set (DiscreteResource T)}
  {d d' : DiscreteResources K T}

inductive HoldsGenerics : DiscreteResources K T → Set (DiscreteResource T) → Prop where
  | empty {S : Set (DiscreteResource T)} (h : S = ∅) : HoldsGenerics .empty S
  | generic {values : List (DiscreteResource T)} {S : Set (DiscreteResource T)}
    (h : ∀ x, x ∈ values ↔ x ∈ S) : HoldsGenerics (.generic values) S

inductive HoldsEncodables (codecs : Codecs K T) (parent : DiscreteResourceId T) :
    DiscreteResources K T → Set (DiscreteResource T) → Prop where
  | empty {S : Set (DiscreteResource T)} (h : S = ∅) : HoldsEncodables codecs parent .empty S
  | encodable {map : Table K (EncodedDiscreteResources K)} {S : Set (DiscreteResource T)}
    (h : HoldsCodes codecs map S) :
    HoldsEncodables codecs parent (.encodable parent map) S

inductive Holds (codecs : Codecs K T) (parent : DiscreteResourceId T) :
    DiscreteResources K T → Set (DiscreteResource T) → Prop where
  | empty {S : Set (DiscreteResource T)} (h : S = ∅) : Holds codecs parent .empty S
  | unified {generics encodables : DiscreteResources K T} {S : Set (DiscreteResource T)}
    (hgenerics : HoldsGenerics generics {x ∈ S | codecs.isEncodable x = false})
    (hencodables : HoldsEncodables codecs parent encodables
      {x ∈ S | codecs.isEncodable x = true}) :
    Holds codecs parent (.unified generics encodables) S

omit [DecidableEq K] [DecidableEq T] in
theorem holdsGenerics_of {values : List (DiscreteResource T)} (h : ∀ x, x ∈ values ↔ x ∈ S) :
    HoldsGenerics (K := K) (GenericDiscreteResources.of values) S := by
  unfold GenericDiscreteResources.of
  split_ifs with hnil
  · refine .empty (Set.eq_empty_iff_forall_notMem.mpr fun x hx => ?_)
    have hmem := (h x).mpr hx
    rw [hnil] at hmem
    exact List.not_mem_nil hmem
  · exact .generic h

attribute [local simp] DiscreteResources.difference DiscreteResources.add

theorem empty_difference : DiscreteResources.difference codecs .empty d = .ok .empty := by
  simp

theorem difference_empty : DiscreteResources.difference codecs d .empty = .ok d := by
  cases d with
  | _ => simp

theorem empty_add : DiscreteResources.add codecs .empty d = .ok d := by
  simp

theorem add_empty : DiscreteResources.add codecs d .empty = .ok d := by
  cases d with
  | _ => simp

variable (codecs) in
theorem HoldsGenerics.difference (h : HoldsGenerics d S) (h' : HoldsGenerics d' S') :
    ∃ r, d.difference codecs d' = .ok r ∧ HoldsGenerics r (S \ S') := by
  cases h with
  | empty h =>
    subst h
    exact ⟨.empty, empty_difference, .empty (Set.empty_sdiff S')⟩
  | @generic values S h =>
    cases h' with
    | empty h' =>
      subst h'
      rw [Set.sdiff_empty]
      exact ⟨_, difference_empty, .generic h⟩
    | @generic values' S' h' =>
      refine ⟨_, by rw [DiscreteResources.difference], holdsGenerics_of fun x => ?_⟩
      simp [h, h']

variable (codecs) in
theorem HoldsGenerics.add (h : HoldsGenerics d S) (h' : HoldsGenerics d' S') :
    ∃ r, d.add codecs d' = .ok r ∧ HoldsGenerics r (S ∪ S') := by
  cases h with
  | empty h =>
    subst h
    rw [Set.empty_union]
    exact ⟨d', empty_add, h'⟩
  | @generic values S h =>
    cases h' with
    | empty h' =>
      subst h'
      rw [Set.union_empty]
      exact ⟨_, add_empty, .generic h⟩
    | @generic values' S' h' =>
      refine ⟨_, by rw [DiscreteResources.add], holdsGenerics_of fun x => ?_⟩
      simp [h, h']

omit [DecidableEq T] in
theorem holdsEncodables_ofMap {map : Table K (EncodedDiscreteResources K)}
    (h : HoldsCodes codecs map S) :
    HoldsEncodables codecs parent (EncodableDiscreteResources.ofMap parent map) S := by
  unfold EncodableDiscreteResources.ofMap
  split_ifs with hempty
  · exact .empty (h.isEmpty_iff.mp hempty)
  · exact .encodable h

theorem HoldsEncodables.difference (h : HoldsEncodables codecs parent d S)
    (h' : HoldsEncodables codecs parent d' S') (hlawful : Lawful codecs used)
    (hS : Under parent used S) (hS' : Under parent used S') (hencodable : AreEncodable codecs S') :
    ∃ r, d.difference codecs d' = .ok r ∧ HoldsEncodables codecs parent r (S \ S') := by
  cases h with
  | empty h =>
    subst h
    exact ⟨.empty, empty_difference, .empty (Set.empty_sdiff S')⟩
  | @encodable map S h =>
    cases h' with
    | empty h' =>
      subst h'
      rw [Set.sdiff_empty]
      exact ⟨_, difference_empty, .encodable h⟩
    | @encodable map' S' h' =>
      obtain ⟨newMap, hok, hnew⟩ := h.difference h' hlawful hS hS' hencodable
      exact ⟨_, by rw [DiscreteResources.difference, hok]; rfl, holdsEncodables_ofMap hnew⟩

theorem HoldsEncodables.add (h : HoldsEncodables codecs parent d S)
    (h' : HoldsEncodables codecs parent d' S') :
    ∃ r, d.add codecs d' = .ok r ∧ HoldsEncodables codecs parent r (S ∪ S') := by
  cases h with
  | empty h =>
    subst h
    rw [Set.empty_union]
    exact ⟨d', empty_add, h'⟩
  | @encodable map S h =>
    cases h' with
    | empty h' =>
      subst h'
      rw [Set.union_empty]
      exact ⟨_, add_empty, .encodable h⟩
    | @encodable map' S' h' =>
      obtain ⟨newMap, hok, hnew⟩ := h.add h'
      exact ⟨_, by rw [DiscreteResources.add, hok]; rfl, holdsEncodables_ofMap hnew⟩

variable (codecs) in
omit [DecidableEq T] in
theorem holdsEncodables_of (resources : List (DiscreteResource T))
    (hparent : ∀ x ∈ resources, x.parent = parent)
    (hencodable : ∀ x ∈ resources, codecs.isEncodable x = true) :
    ∃ d, EncodableDiscreteResources.of codecs resources = .ok d ∧
      HoldsEncodables codecs parent d {x | x ∈ resources} := by
  cases hresources : resources with
  | nil => exact ⟨.empty, rfl, .empty (by simp)⟩
  | cons first rest =>
    rw [← hresources]
    have hnot : ¬∃ x ∈ resources, codecs.isEncodable x = false := by
      rintro ⟨x, hx, hfalse⟩
      rw [hencodable x hx] at hfalse
      cases hfalse
    have hfirst : first.parent = parent := by
      apply hparent
      rw [hresources]
      exact List.mem_cons_self
    have hof : EncodableDiscreteResources.of codecs resources =
        EncodableDiscreteResources.ofParent codecs parent resources := by
      rw [← hfirst, hresources]
      rfl
    rw [hof, EncodableDiscreteResources.ofParent, if_neg hnot]
    refine ⟨_, rfl, .encodable ⟨fun cls e he => ?_, fun cls n => ?_⟩⟩
    · rw [KeyedMap.lookup_foldl_insert] at he
      split_ifs at he
      · obtain rfl := Option.some.inj he
        rfl
      · cases he
    · unfold HasCode
      rw [KeyedMap.lookup_foldl_insert]
      split_ifs with hcls
      · simp only [Option.some.injEq, exists_eq_left', contains_of, List.mem_filter,
          decide_eq_true_eq, Set.mem_ofPred_eq, and_assoc]
      · refine iff_of_false ?_ ?_
        · rintro ⟨e, hnone, -⟩
          cases hnone
        · rintro ⟨x, hx, rfl, -⟩
          exact hcls (List.mem_dedup.mpr (List.mem_map.mpr ⟨x, hx, rfl⟩))

omit [DecidableEq T] in
theorem holds_of {resources : List (DiscreteResource T)}
    (hparent : ∀ x ∈ resources, x.parent = parent) :
    ∃ d, DiscreteResources.of codecs resources = .ok d ∧
      Holds codecs parent d {x | x ∈ resources} := by
  rw [DiscreteResources.of, UnifiedDiscreteResources.of]
  split_ifs with hnil
  · subst hnil
    exact ⟨.empty, rfl, .empty (by simp)⟩
  · obtain ⟨encodables, hok, hencodables⟩ := holdsEncodables_of codecs
      (resources.filter codecs.isEncodable)
      (fun x hx => hparent x (List.mem_filter.mp hx).1) (fun x hx => (List.mem_filter.mp hx).2)
    refine ⟨_, by rw [hok]; rfl, .unified (holdsGenerics_of fun x => ?_) ?_⟩
    · simp
    · simpa [List.mem_filter] using hencodables

theorem Holds.difference (h : Holds codecs parent d S) (h' : Holds codecs parent d' S')
    (hlawful : Lawful codecs used) (hS : Under parent used S) (hS' : Under parent used S') :
    ∃ r, d.difference codecs d' = .ok r ∧ Holds codecs parent r (S \ S') := by
  have hpart : ∀ b, {x ∈ S | codecs.isEncodable x = b} \ {x ∈ S' | codecs.isEncodable x = b} =
      {x ∈ S \ S' | codecs.isEncodable x = b} := by
    intro b
    ext x
    simp only [Set.mem_sdiff, Set.mem_ofPred_eq]
    tauto
  cases h with
  | empty h =>
    subst h
    exact ⟨.empty, empty_difference, .empty (Set.empty_sdiff S')⟩
  | @unified generics encodables S hgenerics hencodables =>
    cases h' with
    | empty h' =>
      subst h'
      rw [Set.sdiff_empty]
      exact ⟨_, difference_empty, .unified hgenerics hencodables⟩
    | @unified generics' encodables' S' hgenerics' hencodables' =>
      obtain ⟨g, hg, hgholds⟩ := hgenerics.difference codecs hgenerics'
      obtain ⟨e, he, heholds⟩ := hencodables.difference hencodables' hlawful
        (fun x hx => hS x hx.1) (fun x hx => hS' x hx.1) fun x hx => hx.2
      rw [hpart] at hgholds heholds
      exact ⟨_, by rw [DiscreteResources.difference, hg, he]; rfl, .unified hgholds heholds⟩

theorem Holds.add (h : Holds codecs parent d S) (h' : Holds codecs parent d' S') :
    ∃ r, d.add codecs d' = .ok r ∧ Holds codecs parent r (S ∪ S') := by
  have hpart : ∀ b, {x ∈ S | codecs.isEncodable x = b} ∪ {x ∈ S' | codecs.isEncodable x = b} =
      {x ∈ S ∪ S' | codecs.isEncodable x = b} := by
    intro b
    ext x
    simp only [Set.mem_union, Set.mem_ofPred_eq]
    tauto
  cases h with
  | empty h =>
    subst h
    rw [Set.empty_union]
    exact ⟨d', empty_add, h'⟩
  | @unified generics encodables S hgenerics hencodables =>
    cases h' with
    | empty h' =>
      subst h'
      rw [Set.union_empty]
      exact ⟨_, add_empty, .unified hgenerics hencodables⟩
    | @unified generics' encodables' S' hgenerics' hencodables' =>
      obtain ⟨g, hg, hgholds⟩ := hgenerics.add codecs hgenerics'
      obtain ⟨e, he, heholds⟩ := hencodables.add hencodables'
      rw [hpart] at hgholds heholds
      exact ⟨_, by rw [DiscreteResources.add, hg, he]; rfl, .unified hgholds heholds⟩

end Sets

section Queries

variable {codecs} {parent : DiscreteResourceId T} {used : Set T} {S : Set (DiscreteResource T)}
  {d : DiscreteResources K T}

/-- What is asked of a set: that its queries are answered as its members have it. -/
structure AnswersAs (codecs : Codecs K T) (parent : DiscreteResourceId T) (used : Set T)
    (d : DiscreteResources K T) (S : Set (DiscreteResource T)) : Prop where
  lookup : ∀ id, (∀ x, resource id = some x → x.value ∈ used) →
    ∀ x, d.lookup codecs id = some x ↔ resource id = some x ∧ x ∈ S
  containsAny : ∀ other : List (DiscreteResource T),
    (∀ x ∈ other, x.parent = parent ∧ x.value ∈ used) →
      (d.containsAny codecs other = true ↔ ∃ x ∈ other, x ∈ S)
  isEmpty : d.isEmpty = true ↔ S = ∅

def ListsAs (codecs : Codecs K T) (d : DiscreteResources K T) (S : Set (DiscreteResource T)) :
    Prop :=
  ∃ xs, d.values codecs = .ok xs ∧ ∀ x, x ∈ xs ↔ x ∈ S

theorem answersAs_empty : AnswersAs codecs parent used .empty ∅ where
  lookup id _ x := by simp [DiscreteResources.lookup]
  containsAny other _ := by simp [DiscreteResources.containsAny]
  isEmpty := by simp [DiscreteResources.isEmpty]

omit [DecidableEq K] [DecidableEq T] in
theorem listsAs_empty : ListsAs codecs (.empty : DiscreteResources K T) ∅ :=
  ⟨[], by rw [DiscreteResources.values], by simp⟩

variable (codecs parent used) in
theorem HoldsGenerics.answersAs (h : HoldsGenerics d S) : AnswersAs codecs parent used d S := by
  cases h with
  | empty h =>
    subst h
    exact answersAs_empty
  | @generic values S h =>
    refine ⟨fun id _ x => ?_, fun other _ => ?_, ?_⟩
    · simp [DiscreteResources.lookup, Option.filter_eq_some_iff, h]
    · simp only [DiscreteResources.containsAny, List.any_eq_true, decide_eq_true_eq, h]
      exact exists_congr fun x => and_comm
    · rw [DiscreteResources.isEmpty, List.isEmpty_iff, List.eq_nil_iff_forall_not_mem,
        Set.eq_empty_iff_forall_notMem]
      simp only [h]

variable (codecs) in
omit [DecidableEq K] [DecidableEq T] in
theorem HoldsGenerics.listsAs (h : HoldsGenerics d S) : ListsAs codecs d S := by
  cases h with
  | empty h =>
    subst h
    exact listsAs_empty
  | @generic values S h => exact ⟨values, by rw [DiscreteResources.values], h⟩

theorem HoldsEncodables.answersAs (h : HoldsEncodables codecs parent d S)
    (hlawful : Lawful codecs used) (hS : Under parent used S) (hencodable : AreEncodable codecs S) :
    AnswersAs codecs parent used d S := by
  cases h with
  | empty h =>
    subst h
    exact answersAs_empty
  | @encodable map S h =>
    refine ⟨fun id hid x => ?_, fun other hother => ?_, h.isEmpty_iff⟩
    · simp only [DiscreteResources.lookup, Option.filter_eq_some_iff, Bool.and_eq_true,
        decide_eq_true_eq, any_contains]
      refine and_congr_right fun hx => ?_
      constructor
      · rintro ⟨hparent, hcode⟩
        exact (h.mem_iff hlawful hS hencodable ⟨hparent, hid x hx⟩).mp hcode
      · intro hmem
        exact ⟨(hS x hmem).1, (h.mem_iff hlawful hS hencodable (hS x hmem)).mpr hmem⟩
    · simp only [DiscreteResources.containsAny, List.any_eq_true, any_contains]
      exact exists_congr fun x => and_congr_right fun hx =>
        h.mem_iff hlawful hS hencodable (hother x hx)

section

omit [DecidableEq T]

theorem HoldsEncodables.ne_maxCode (h : HoldsEncodables codecs parent d S)
    {xs : List (DiscreteResource T)} (hok : d.values codecs = .ok xs) :
    ∀ x ∈ S, codecs.encode x.value ≠ maxCode := by
  intro x hx hmax
  cases h with
  | empty h =>
    subst h
    exact hx
  | @encodable map S h =>
    obtain ⟨message, hfails⟩ := h.values_fails parent ⟨x, hx, hmax⟩
    rw [hok] at hfails
    cases hfails

theorem HoldsEncodables.listsAs (h : HoldsEncodables codecs parent d S)
    (hlawful : Lawful codecs used) (hS : Under parent used S) (hencodable : AreEncodable codecs S)
    (hmax : ∀ x ∈ S, codecs.encode x.value ≠ maxCode) : ListsAs codecs d S := by
  cases h with
  | empty h =>
    subst h
    exact listsAs_empty
  | @encodable map S h => exact h.values_ok hlawful hS hencodable hmax

end

theorem Holds.answersAs (h : Holds codecs parent d S) (hlawful : Lawful codecs used)
    (hS : Under parent used S) : AnswersAs codecs parent used d S := by
  cases h with
  | empty h =>
    subst h
    exact answersAs_empty
  | @unified generics encodables S hgenerics hencodables =>
    have hg := hgenerics.answersAs codecs parent used
    have he := hencodables.answersAs hlawful (fun x hx => hS x hx.1) fun x hx => hx.2
    refine ⟨fun id hid x => ?_, fun other hother => ?_, ?_⟩
    · rw [DiscreteResources.lookup]
      split_ifs with hany
      · rw [he.lookup id hid x, Set.mem_ofPred_eq]
        refine and_congr_right fun hx => and_iff_left ?_
        simpa [hx] using hany
      · rw [hg.lookup id hid x, Set.mem_ofPred_eq]
        refine and_congr_right fun hx => and_iff_left ?_
        simpa [hx] using hany
    · rw [DiscreteResources.containsAny, Bool.or_eq_true,
        hg.containsAny _ fun x hx => hother x (List.mem_filter.mp hx).1,
        he.containsAny _ fun x hx => hother x (List.mem_filter.mp hx).1]
      simp only [List.mem_filter, Set.mem_ofPred_eq]
      constructor
      · rintro (⟨x, ⟨hx, -⟩, hmem, -⟩ | ⟨x, ⟨hx, -⟩, hmem, -⟩)
        · exact ⟨x, hx, hmem⟩
        · exact ⟨x, hx, hmem⟩
      · rintro ⟨x, hx, hmem⟩
        cases hencodable : codecs.isEncodable x with
        | false => exact Or.inl ⟨x, ⟨hx, by rw [hencodable]; rfl⟩, hmem, hencodable⟩
        | true => exact Or.inr ⟨x, ⟨hx, hencodable⟩, hmem, hencodable⟩
    · rw [DiscreteResources.isEmpty, Bool.and_eq_true, hg.isEmpty, he.isEmpty]
      simp only [Set.eq_empty_iff_forall_notMem, Set.mem_ofPred_eq]
      constructor
      · rintro ⟨hg, he⟩ x hx
        cases hencodable : codecs.isEncodable x with
        | false => exact hg x ⟨hx, hencodable⟩
        | true => exact he x ⟨hx, hencodable⟩
      · intro hnone
        exact ⟨fun x hx => hnone x hx.1, fun x hx => hnone x hx.1⟩

omit [DecidableEq T] in
theorem Holds.listsAs_iff (h : Holds codecs parent d S) (hlawful : Lawful codecs used)
    (hS : Under parent used S) : ListsAs codecs d S ↔
      ∀ x ∈ S, codecs.isEncodable x = true → codecs.encode x.value ≠ maxCode := by
  cases h with
  | empty h =>
    subst h
    exact iff_of_true listsAs_empty fun x hx => absurd hx (Set.notMem_empty x)
  | @unified generics encodables S hgenerics hencodables =>
    obtain ⟨others, hothers, hmem⟩ := hgenerics.listsAs codecs
    constructor
    · rintro ⟨xs, hok, -⟩ x hx hencodable
      obtain ⟨encoded, hencoded, -⟩ := bind_eq_ok.mp hok
      exact hencodables.ne_maxCode hencoded x ⟨hx, hencodable⟩
    · intro hmax
      obtain ⟨encoded, hencoded, hmem'⟩ := hencodables.listsAs hlawful (fun x hx => hS x hx.1)
        (fun x hx => hx.2) fun x hx => hmax x hx.1 hx.2
      refine ⟨encoded ++ others, by rw [DiscreteResources.values, hencoded, hothers]; rfl, ?_⟩
      intro x
      rw [List.mem_append, hmem, hmem', Set.mem_ofPred_eq, Set.mem_ofPred_eq, ← and_or_left]
      cases codecs.isEncodable x <;> simp

end Queries

section Expressions

inductive SetExpr (T : Type*) where
  | of (resources : List (DiscreteResource T))
  | add (a b : SetExpr T)
  | difference (a b : SetExpr T)

namespace SetExpr

def eval (codecs : Codecs K T) : SetExpr T → Except String (DiscreteResources K T)
  | of resources => DiscreteResources.of codecs resources
  | add a b => (a.eval codecs).bind fun x => (b.eval codecs).bind fun y => x.add codecs y
  | difference a b =>
    (a.eval codecs).bind fun x => (b.eval codecs).bind fun y => x.difference codecs y

def contents : SetExpr T → Set (DiscreteResource T)
  | of resources => {x | x ∈ resources}
  | add a b => a.contents ∪ b.contents
  | difference a b => a.contents \ b.contents

def IsBuiltFrom (parent : DiscreteResourceId T) (used : Set T) : SetExpr T → Prop
  | of resources => ∀ x ∈ resources, x.parent = parent ∧ x.value ∈ used
  | add a b => a.IsBuiltFrom parent used ∧ b.IsBuiltFrom parent used
  | difference a b => a.IsBuiltFrom parent used ∧ b.IsBuiltFrom parent used

variable {codecs} {parent : DiscreteResourceId T} {used : Set T} {e : SetExpr T}

omit [DecidableEq T] in
theorem under_contents (h : e.IsBuiltFrom parent used) : Under parent used e.contents := by
  induction e with
  | of resources => exact h
  | add a b iha ihb =>
    rintro x (hx | hx)
    · exact iha h.1 x hx
    · exact ihb h.2 x hx
  | difference a b iha ihb => exact fun x hx => iha h.1 x hx.1

theorem holds_eval (hlawful : Lawful codecs used) (h : e.IsBuiltFrom parent used) :
    ∃ d, e.eval codecs = .ok d ∧ Holds codecs parent d e.contents := by
  induction e with
  | of resources => exact holds_of fun x hx => (h x hx).1
  | add a b iha ihb =>
    obtain ⟨x, hx, hxholds⟩ := iha h.1
    obtain ⟨y, hy, hyholds⟩ := ihb h.2
    obtain ⟨r, hr, hrholds⟩ := hxholds.add hyholds
    exact ⟨r, by rw [eval, hx, hy]; exact hr, hrholds⟩
  | difference a b iha ihb =>
    obtain ⟨x, hx, hxholds⟩ := iha h.1
    obtain ⟨y, hy, hyholds⟩ := ihb h.2
    obtain ⟨r, hr, hrholds⟩ := hxholds.difference hyholds hlawful (under_contents h.1)
      (under_contents h.2)
    exact ⟨r, by rw [eval, hx, hy]; exact hr, hrholds⟩

def BehavesAsSet (codecs : Codecs K T) (parent : DiscreteResourceId T) (used : Set T)
    (e : SetExpr T) : Prop :=
  ∃ d, e.eval codecs = .ok d ∧ ListsAs codecs d e.contents ∧
    AnswersAs codecs parent used d e.contents

/-- The queries are always answered; the members are listed unless the greatest integer is the code
of one of them. -/
theorem behavesAsSet_iff (hlawful : Lawful codecs used) (h : e.IsBuiltFrom parent used) :
    e.BehavesAsSet codecs parent used ↔
      ∀ x ∈ e.contents, codecs.isEncodable x = true → (codecs.encode x.value).1 ≠ MAX_VALUE := by
  obtain ⟨d, hok, hholds⟩ := holds_eval hlawful h
  have hlists := hholds.listsAs_iff hlawful (under_contents h)
  have hanswers := hholds.answersAs hlawful (under_contents h)
  have hmax : ∀ n : Code, n ≠ maxCode ↔ n.1 ≠ MAX_VALUE := fun n => Subtype.ext_iff.not
  simp only [← hmax, ← hlists]
  constructor
  · rintro ⟨d', hok', hlists, -⟩
    obtain rfl := Except.ok.inj (hok.symm.trans hok')
    exact hlists
  · intro hlists
    exact ⟨d, hok, hlists, hanswers⟩

end SetExpr

end Expressions

section OnosCodecs

inductive ValueClass where
  | PortNumber
  | VlanId
  | MplsLabel
  | other
  deriving DecidableEq

inductive ResourceValue where
  | portNumber (number : ℤ)
  | vlanId (value : ℤ)
  | mplsLabel (value : ℤ)
  | other (text : String)
  deriving DecidableEq

def toInt (n : ℤ) : Code where
  val := n.bmod 4294967296
  property := by
    have hlower := Int.le_bmod (x := n) (m := 4294967296) (by omega)
    have hupper := Int.bmod_lt (x := n) (m := 4294967296) (by omega)
    unfold MIN_VALUE MAX_VALUE
    omega

namespace VlanId

def vlanId (value : ℤ) : Except String ResourceValue :=
  if value = -1 ∨ value = 4096 ∨ value ≤ 4095 then .ok (.vlanId value)
  else .error "IllegalArgumentException"

end VlanId

namespace MplsLabel

def mplsLabel (value : ℤ) : Except String ResourceValue :=
  if value < 0 ∨ value > 1048575 then .error "IllegalArgumentException" else .ok (.mplsLabel value)

end MplsLabel

def onosCodecs : Codecs ValueClass ResourceValue where
  getClass
    | .portNumber _ => .PortNumber
    | .vlanId _ => .VlanId
    | .mplsLabel _ => .MplsLabel
    | .other _ => .other
  containsKey cls := cls ≠ .other
  encode
    | .portNumber number => toInt number
    | .vlanId value => toInt value
    | .mplsLabel value => toInt value
    | .other _ => toInt 0
  decode
    | .PortNumber, n => .ok (.portNumber n)
    | .VlanId, n => VlanId.vlanId (n.1.bmod 65536)
    | .MplsLabel, n => MplsLabel.mplsLabel n
    | .other, _ => .error "NullPointerException"

def mixed : SetExpr ResourceValue :=
  .difference
    (.add (.of [⟨[.other "device"], .portNumber 1⟩, ⟨[.other "device"], .vlanId 10⟩])
      (.of [⟨[.other "device"], .portNumber 2⟩, ⟨[.other "device"], .portNumber 3⟩,
        ⟨[.other "device"], .mplsLabel 16⟩, ⟨[.other "device"], .other "queue"⟩]))
    (.of [⟨[.other "device"], .portNumber 2⟩])

def mixedValues : List ResourceValue :=
  [.portNumber 1, .vlanId 10, .portNumber 2, .portNumber 3, .mplsLabel 16, .other "queue"]

theorem behavesAsSet_iff_mixed :
    mixed.BehavesAsSet onosCodecs [.other "device"] {v | v ∈ mixedValues} ↔
      ∀ x ∈ mixed.contents, onosCodecs.isEncodable x = true →
        (onosCodecs.encode x.value).1 ≠ MAX_VALUE := by
  apply SetExpr.behavesAsSet_iff
  · change ∀ v ∈ mixedValues, _
    decide
  · refine ⟨⟨?_, ?_⟩, ?_⟩
    · change ∀ x ∈ (_ : List (DiscreteResource ResourceValue)), x.parent = _ ∧ x.value ∈ mixedValues
      decide
    · change ∀ x ∈ (_ : List (DiscreteResource ResourceValue)), x.parent = _ ∧ x.value ∈ mixedValues
      decide
    · change ∀ x ∈ (_ : List (DiscreteResource ResourceValue)), x.parent = _ ∧ x.value ∈ mixedValues
      decide

def lastPort : SetExpr ResourceValue := .of [⟨[.other "device"], .portNumber 2147483647⟩]

/-- Its port number is encoded and decoded, but the set cannot be listed. -/
theorem lastPort_not_listed : Lawful onosCodecs {v | v ∈ [.portNumber 2147483647]} ∧
    lastPort.IsBuiltFrom [.other "device"] {v | v ∈ [.portNumber 2147483647]} ∧
    ¬lastPort.BehavesAsSet onosCodecs [.other "device"] {v | v ∈ [.portNumber 2147483647]} := by
  refine ⟨?_, ?_, ?_⟩
  · change ∀ v ∈ [ResourceValue.portNumber 2147483647], _
    decide
  · change ∀ x ∈ (_ : List (DiscreteResource ResourceValue)),
      x.parent = _ ∧ x.value ∈ [.portNumber 2147483647]
    decide
  · rintro ⟨d, hok, ⟨xs, hvalues, -⟩, -⟩
    have hfails : (lastPort.eval onosCodecs).bind (fun d => d.values onosCodecs) =
      .error "IllegalStateException" := by decide
    rw [hok] at hfails
    rw [Except.bind, hvalues] at hfails
    cases hfails

end OnosCodecs

end EncodedResources

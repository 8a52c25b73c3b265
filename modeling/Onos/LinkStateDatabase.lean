import Onos.Lib.KeyedMap
import Onos.Lib.Odometer
import Onos.LinkStateHeaders

/-! The link state database of an area and its ageing. Wrappers are objects: the map of a type, an
age bin and the MaxAge bin can hold the same one. The age of an advertisement is told from the
age counter, which every second moves by one, and the sweep of a second looks at the bins that
the counter names. -/
namespace LinkStateDatabase

open KeyedMap LinkStateHeaders Odometer

abbrev Ref := ℕ

structure LsaWrapper where
  lsaHeader : LsaHeader
  lsaAgeReceived : ℤ
  ageCounterWhenReceived : ℤ
  ageCounterRollOverWhenAdded : BitVec 32
  isSelfOriginated : Bool
  binNumber : ℤ

abbrev LsaBin := Table String Ref

def LsaBin.addOspfLsa (bin : LsaBin) (lsaKey : String) (lsaWrapper : Ref) : LsaBin :=
  if bin.lookup lsaKey = none then bin.insert lsaKey lsaWrapper else bin

def LsaBin.removeOspfLsa (bin : LsaBin) (lsaKey : String) : LsaBin := bin.erase lsaKey

inductive LsaProcessing where
  | VERIFYCHECKSUM
  | REFRESHLSA
  | MAXAGELSA
  deriving DecidableEq, Repr

/-- The counter and the bins of the ageing. There is a bin for every number from 0 to
`MAXAGE - 1`. The counter of the code is a static field; here it belongs to the one database that
runs. -/
structure LsdbAge where
  clock : Reading MAXAGE 32
  ageBins : ℤ → LsaBin
  maxAgeBin : LsaBin

def LsdbAge.ageCounter (a : LsdbAge) : ℤ := a.clock.digit

def LsdbAge.ageCounterRollOver (a : LsdbAge) : BitVec 32 := a.clock.turns

def LsdbAge.age2Bin (a : LsdbAge) (x : ℤ) : ℤ :=
  if x ≤ a.ageCounter then a.ageCounter - x else (MAXAGE - 1) + (a.ageCounter - x)

def IsBin (b : ℤ) : Prop := 0 ≤ b ∧ b < MAXAGE

instance (b : ℤ) : Decidable (IsBin b) := inferInstanceAs (Decidable (0 ≤ b ∧ b < MAXAGE))

def LsdbAge.changeBin (a : LsdbAge) (b : ℤ) (f : LsaBin → LsaBin) : LsdbAge :=
  if IsBin b then { a with ageBins := Function.update a.ageBins b (f (a.ageBins b)) } else a

def LsaWrapper.currentAge (w : LsaWrapper) (a : LsdbAge) : ℤ :=
  let currentAge :=
    if a.ageCounter ≥ w.ageCounterWhenReceived then
      w.lsaAgeReceived + (a.ageCounter - w.ageCounterWhenReceived)
    else w.lsaAgeReceived + ((MAXAGE + a.ageCounter) - w.ageCounterWhenReceived)
  if currentAge ≥ MAXAGE then MAXAGE
  else if currentAge = w.lsaAgeReceived ∧ w.ageCounterRollOverWhenAdded ≠ a.ageCounterRollOver then
    MAXAGE
  else currentAge

/-- The database. What a map or a bin holds was allocated, and a map holds an advertisement under
its own key. -/
structure OspfLsdb where
  wrappers : Ref → LsaWrapper
  next : Ref
  lsas : OspfLsaType → Table String Ref
  routerLsaSeqNo : ℤ
  networkLsaSeqNo : ℤ
  lsdbAge : LsdbAge
  named : ∀ t k r, (lsas t).lookup k = some r →
    r < next ∧ getLsaKey (wrappers r).lsaHeader = k ∧ (wrappers r).lsaHeader.getOspfLsaType = t
  binned : ∀ b k r, (lsdbAge.ageBins b).lookup k = some r → r < next
  retired : ∀ k r, lsdbAge.maxAgeBin.lookup k = some r → r < next

def STARTLSSEQUENCENUM : ℤ := -2147483647

def OspfLsdb.initial (clock : Reading MAXAGE 32) : OspfLsdb where
  wrappers _ := ⟨⟨0, 0, 0, "", 0, 0, ⟨0, 0, 0, 0⟩, 0, 0, 0⟩, 0, 0, 0, false, -1⟩
  next := 0
  lsas _ := ∅
  routerLsaSeqNo := STARTLSSEQUENCENUM
  networkLsaSeqNo := STARTLSSEQUENCENUM
  lsdbAge := ⟨clock, fun _ => ∅, ∅⟩
  named t k r h := by simp at h
  binned b k r h := by simp at h
  retired k r h := by simp at h

section Parts

variable (s : OspfLsdb)

def OspfLsdb.withAge (a : LsdbAge)
    (hb : ∀ b k r, (a.ageBins b).lookup k = some r → r < s.next)
    (hm : ∀ k r, a.maxAgeBin.lookup k = some r → r < s.next) : OspfLsdb where
  wrappers := s.wrappers
  next := s.next
  lsas := s.lsas
  routerLsaSeqNo := s.routerLsaSeqNo
  networkLsaSeqNo := s.networkLsaSeqNo
  lsdbAge := a
  named := s.named
  binned := hb
  retired := hm

def OspfLsdb.mutate (r : Ref) (f : LsaWrapper → LsaWrapper)
    (hf : ∀ w, (f w).lsaHeader = w.lsaHeader) : OspfLsdb where
  wrappers := Function.update s.wrappers r (f (s.wrappers r))
  next := s.next
  lsas := s.lsas
  routerLsaSeqNo := s.routerLsaSeqNo
  networkLsaSeqNo := s.networkLsaSeqNo
  lsdbAge := s.lsdbAge
  named t k q h := by
    obtain ⟨hq, hk, ht⟩ := s.named t k q h
    by_cases e : q = r
    · subst e
      simp only [Function.update_self, hf]
      exact ⟨hq, hk, ht⟩
    · simp only [Function.update_of_ne e]
      exact ⟨hq, hk, ht⟩
  binned := s.binned
  retired := s.retired

/-- Put a new wrapper in the map of its type. One of an unknown type is in no map. -/
def OspfLsdb.putLsa (w : LsaWrapper) : OspfLsdb where
  wrappers := Function.update s.wrappers s.next w
  next := s.next + 1
  lsas t := if t = w.lsaHeader.getOspfLsaType ∧ t ≠ .UNDEFINED then
      (s.lsas t).insert (getLsaKey w.lsaHeader) s.next
    else s.lsas t
  routerLsaSeqNo := s.routerLsaSeqNo
  networkLsaSeqNo := s.networkLsaSeqNo
  lsdbAge := s.lsdbAge
  named t k r h := by
    have old : (s.lsas t).lookup k = some r → r < s.next + 1 ∧
        getLsaKey (Function.update s.wrappers s.next w r).lsaHeader = k ∧
        (Function.update s.wrappers s.next w r).lsaHeader.getOspfLsaType = t := by
      intro h
      obtain ⟨hr, hk, ht⟩ := s.named t k r h
      rw [Function.update_of_ne (Nat.ne_of_lt hr)]
      exact ⟨Nat.lt_succ_of_lt hr, hk, ht⟩
    split at h
    · rename_i hw
      rw [lookup_insert] at h
      by_cases hk : k = getLsaKey w.lsaHeader
      · rw [if_pos hk, Option.some.injEq] at h
        subst h
        rw [Function.update_self]
        exact ⟨Nat.lt_succ_self _, hk.symm, hw.1.symm⟩
      · rw [if_neg hk] at h
        exact old h
    · exact old h
  binned b k r h := Nat.lt_succ_of_lt (s.binned b k r h)
  retired k r h := Nat.lt_succ_of_lt (s.retired k r h)

def OspfLsdb.eraseLsa (t : OspfLsaType) (k : String) : OspfLsdb where
  wrappers := s.wrappers
  next := s.next
  lsas := Function.update s.lsas t ((s.lsas t).erase k)
  routerLsaSeqNo := s.routerLsaSeqNo
  networkLsaSeqNo := s.networkLsaSeqNo
  lsdbAge := s.lsdbAge
  named u j r h := by
    by_cases e : u = t
    · subst e
      rw [Function.update_self, lookup_erase] at h
      split at h
      · cases h
      · exact s.named u j r h
    · rw [Function.update_of_ne e] at h
      exact s.named u j r h
  binned := s.binned
  retired := s.retired

end Parts

theorem lookup_addOspfLsa (bin : LsaBin) (k j : String) (r : Ref) :
    (bin.addOspfLsa k r).lookup j = if j = k then some ((bin.lookup k).getD r) else bin.lookup j := by
  unfold LsaBin.addOspfLsa
  cases h : bin.lookup k with
  | none =>
    rw [if_pos rfl, lookup_insert]
    rfl
  | some q =>
    rw [if_neg (by simp)]
    split
    · rename_i e
      rw [e, h]
      rfl
    · rfl

theorem lookup_removeOspfLsa (bin : LsaBin) (k j : String) :
    (bin.removeOspfLsa k).lookup j = if j = k then none else bin.lookup j :=
  lookup_erase bin k j

theorem ageBins_changeBin (a : LsdbAge) (b c : ℤ) (f : LsaBin → LsaBin) :
    (a.changeBin b f).ageBins c = if IsBin b ∧ c = b then f (a.ageBins b) else a.ageBins c := by
  unfold LsdbAge.changeBin
  by_cases h : IsBin b
  · simp only [h, ↓reduceIte, true_and, Function.update_apply]
  · simp only [h, ↓reduceIte, false_and]

@[simp] theorem maxAgeBin_changeBin (a : LsdbAge) (b : ℤ) (f : LsaBin → LsaBin) :
    (a.changeBin b f).maxAgeBin = a.maxAgeBin := by
  unfold LsdbAge.changeBin
  split <;> rfl

@[simp] theorem clock_changeBin (a : LsdbAge) (b : ℤ) (f : LsaBin → LsaBin) :
    (a.changeBin b f).clock = a.clock := by
  unfold LsdbAge.changeBin
  split <;> rfl

theorem changeBin_lt {a : LsdbAge} {b : ℤ} {f : LsaBin → LsaBin} {n : Ref}
    (ha : ∀ c k r, (a.ageBins c).lookup k = some r → r < n)
    (hf : ∀ k r, (f (a.ageBins b)).lookup k = some r → r < n) (c : ℤ) (k : String) (r : Ref)
    (h : ((a.changeBin b f).ageBins c).lookup k = some r) : r < n := by
  rw [ageBins_changeBin] at h
  split at h
  · exact hf k r h
  · exact ha c k r h

theorem removeOspfLsa_lt {bin : LsaBin} {n : Ref} (hb : ∀ k r, bin.lookup k = some r → r < n)
    (j k : String) (r : Ref) (h : (bin.removeOspfLsa j).lookup k = some r) : r < n := by
  rw [lookup_removeOspfLsa] at h
  split at h
  · cases h
  · exact hb k r h

theorem addOspfLsa_lt {bin : LsaBin} {n q : Ref} (hb : ∀ k r, bin.lookup k = some r → r < n)
    (hq : q < n) (j k : String) (r : Ref) (h : (bin.addOspfLsa j q).lookup k = some r) : r < n := by
  rw [lookup_addOspfLsa] at h
  split at h
  · cases e : bin.lookup j with
    | none =>
      rw [e] at h
      cases h
      exact hq
    | some p =>
      rw [e] at h
      cases h
      exact hb j _ e
  · exact hb k r h

section Operations

variable (s : OspfLsdb)

def OspfLsdb.findLsa (lsType : ℤ) (lsaKey : String) : Option Ref :=
  match OspfLsaType.ofValue lsType with
  | .UNDEFINED => none
  | t => (s.lsas t).lookup lsaKey

def OspfLsdb.lsaLookup (lsaHeader : LsaHeader) : Option Ref :=
  s.findLsa lsaHeader.lsType (getLsaKey lsaHeader)

def OspfLsdb.lsaHeader (r : Ref) : LsaHeader :=
  (s.wrappers r).lsaHeader.setAge ((s.wrappers r).currentAge s.lsdbAge)

def OspfLsdb.removeLsaFromBin (r : Ref) : OspfLsdb :=
  s.withAge
    (s.lsdbAge.changeBin (s.wrappers r).binNumber
      (LsaBin.removeOspfLsa · (getLsaKey (s.wrappers r).lsaHeader)))
    (changeBin_lt s.binned (removeOspfLsa_lt (s.binned _) _))
    (by simpa using s.retired)

/-- Place a wrapper in the bin of its age, which another one of its key can hold already. -/
def OspfLsdb.placeInBin (r : Ref) : OspfLsdb :=
  let binNumber := s.lsdbAge.age2Bin (s.lsaHeader r).age
  if h : r < s.next ∧ IsBin binNumber then
    (s.withAge
      (s.lsdbAge.changeBin binNumber (LsaBin.addOspfLsa · (getLsaKey (s.lsaHeader r)) r))
      (changeBin_lt s.binned (addOspfLsa_lt (s.binned _) h.1 _))
      (by simpa using s.retired)).mutate r (fun w => { w with binNumber := binNumber }) fun _ => rfl
  else s

def OspfLsdb.newWrapper (newLsa : LsaHeader) (isSelfOriginated : Bool) : LsaWrapper where
  lsaHeader := newLsa
  lsaAgeReceived := newLsa.age
  ageCounterWhenReceived := s.lsdbAge.ageCounter
  ageCounterRollOverWhenAdded := s.lsdbAge.ageCounterRollOver
  isSelfOriginated := isSelfOriginated
  binNumber := -1

def OspfLsdb.removeOld (newLsa : LsaHeader) : OspfLsdb :=
  match s.lsaLookup newLsa with
  | some old => s.removeLsaFromBin old
  | none => s

def OspfLsdb.addLsa (newLsa : LsaHeader) (isSelfOriginated : Bool) : OspfLsdb :=
  ((s.removeOld newLsa).putLsa (s.newWrapper newLsa isSelfOriginated)).placeInBin s.next

def OspfLsdb.deleteLsa (lsaHeader : LsaHeader) : OspfLsdb :=
  match lsaHeader.getOspfLsaType with
  | .UNDEFINED => s
  | t => s.eraseLsa t (getLsaKey lsaHeader)

def OspfLsdb.setLsaAgeReceived (r : Ref) (age : ℤ) : OspfLsdb :=
  s.mutate r (fun w => { w with lsaAgeReceived := age }) fun _ => rfl

def OspfLsdb.addLsaToMaxAgeBin (r : Ref) : OspfLsdb :=
  let key := getLsaKey (s.wrappers r).lsaHeader
  if h : r < s.next ∧ s.lsdbAge.maxAgeBin.lookup key = none then
    (s.withAge { s.lsdbAge with maxAgeBin := s.lsdbAge.maxAgeBin.addOspfLsa key r }
      s.binned (addOspfLsa_lt s.retired h.1 key)).mutate r
        (fun w => { w with binNumber := MAXAGE }) fun _ => rfl
  else s

end Operations

def LsaBin.handOver (bin : LsaBin) (due : Ref → Bool) : LsaBin × List Ref :=
  let picked := bin.entries.filter fun e => due e.2
  (picked.foldl (fun b e => b.removeOspfLsa e.1) bin, picked.map fun e => e.2)

theorem lookup_foldl_removeOspfLsa (l : List (Sigma fun _ : String => Ref)) (bin : LsaBin)
    (k : String) :
    (l.foldl (fun b e => LsaBin.removeOspfLsa b e.1) bin).lookup k =
      if k ∈ l.map Sigma.fst then none else bin.lookup k := by
  induction l generalizing bin with
  | nil => simp
  | cons e l ih =>
    rw [List.foldl_cons, ih, lookup_removeOspfLsa, List.map_cons]
    by_cases hk : k = e.1
    · simp [hk]
    · simp only [hk, List.mem_cons, false_or, ↓reduceIte]

theorem mem_picked_iff (bin : LsaBin) (due : Ref → Bool) (k : String) :
    k ∈ (bin.entries.filter fun e => due e.2).map Sigma.fst ↔
      ∃ r, bin.lookup k = some r ∧ due r = true := by
  simp only [List.mem_map, List.mem_filter]
  constructor
  · rintro ⟨⟨j, r⟩, ⟨hm, hd⟩, rfl⟩
    exact ⟨r, (mem_entries_iff bin j r).mp hm, hd⟩
  · rintro ⟨r, hr, hd⟩
    exact ⟨⟨k, r⟩, ⟨(mem_entries_iff bin k r).mpr hr, hd⟩, rfl⟩

theorem lookup_handOver (bin : LsaBin) (due : Ref → Bool) (k : String) :
    (bin.handOver due).1.lookup k = (bin.lookup k).filter fun r => !due r := by
  have hm := mem_picked_iff bin due k
  unfold LsaBin.handOver
  rw [lookup_foldl_removeOspfLsa]
  cases h : bin.lookup k with
  | none => simp
  | some r =>
    simp only [h, Option.some.injEq, exists_eq_left'] at hm
    by_cases hd : due r = true
    · rw [if_pos (hm.mpr hd)]
      exact (if_neg (by simp [hd])).symm
    · rw [if_neg fun hk => hd (hm.mp hk)]
      exact (if_pos (by simp [hd])).symm

theorem lookup_of_handOver {bin : LsaBin} (due : Ref → Bool) {k : String} {r : Ref}
    (h : (bin.handOver due).1.lookup k = some r) : bin.lookup k = some r := by
  rw [lookup_handOver] at h
  exact (Option.filter_eq_some_iff.mp h).1

section Unchanged

variable (s : OspfLsdb)

@[simp] theorem wrappers_withAge (a : LsdbAge) (hb hm) : (s.withAge a hb hm).wrappers = s.wrappers :=
  rfl

@[simp] theorem next_withAge (a : LsdbAge) (hb hm) : (s.withAge a hb hm).next = s.next := rfl

@[simp] theorem lsdbAge_withAge (a : LsdbAge) (hb hm) : (s.withAge a hb hm).lsdbAge = a := rfl

@[simp] theorem lsas_withAge (a : LsdbAge) (hb hm) : (s.withAge a hb hm).lsas = s.lsas := rfl

@[simp] theorem next_mutate (r : Ref) (f : LsaWrapper → LsaWrapper) (hf) :
    (s.mutate r f hf).next = s.next := rfl

@[simp] theorem lsdbAge_mutate (r : Ref) (f : LsaWrapper → LsaWrapper) (hf) :
    (s.mutate r f hf).lsdbAge = s.lsdbAge := rfl

@[simp] theorem lsas_mutate (r : Ref) (f : LsaWrapper → LsaWrapper) (hf) :
    (s.mutate r f hf).lsas = s.lsas := rfl

theorem wrappers_mutate (r q : Ref) (f : LsaWrapper → LsaWrapper) (hf) :
    (s.mutate r f hf).wrappers q = if q = r then f (s.wrappers r) else s.wrappers q := by
  simp [OspfLsdb.mutate, Function.update_apply]

@[simp] theorem next_putLsa (w : LsaWrapper) : (s.putLsa w).next = s.next + 1 := rfl

@[simp] theorem lsdbAge_putLsa (w : LsaWrapper) : (s.putLsa w).lsdbAge = s.lsdbAge := rfl

theorem wrappers_putLsa (w : LsaWrapper) (q : Ref) :
    (s.putLsa w).wrappers q = if q = s.next then w else s.wrappers q := by
  simp [OspfLsdb.putLsa, Function.update_apply]

@[simp] theorem wrappers_eraseLsa (t : OspfLsaType) (k : String) :
    (s.eraseLsa t k).wrappers = s.wrappers := rfl

@[simp] theorem next_eraseLsa (t : OspfLsaType) (k : String) : (s.eraseLsa t k).next = s.next := rfl

@[simp] theorem lsdbAge_eraseLsa (t : OspfLsaType) (k : String) :
    (s.eraseLsa t k).lsdbAge = s.lsdbAge := rfl

@[simp] theorem wrappers_removeLsaFromBin (r : Ref) :
    (s.removeLsaFromBin r).wrappers = s.wrappers := rfl

@[simp] theorem next_removeLsaFromBin (r : Ref) : (s.removeLsaFromBin r).next = s.next := rfl

@[simp] theorem lsas_removeLsaFromBin (r : Ref) : (s.removeLsaFromBin r).lsas = s.lsas := rfl

@[simp] theorem clock_removeLsaFromBin (r : Ref) :
    (s.removeLsaFromBin r).lsdbAge.clock = s.lsdbAge.clock := by
  simp [OspfLsdb.removeLsaFromBin]

theorem removeOld_unchanged (h : LsaHeader) :
    (s.removeOld h).wrappers = s.wrappers ∧ (s.removeOld h).next = s.next ∧
      (s.removeOld h).lsas = s.lsas ∧ (s.removeOld h).lsdbAge.clock = s.lsdbAge.clock := by
  unfold OspfLsdb.removeOld
  split <;> simp

theorem placeInBin_unchanged (r : Ref) :
    (s.placeInBin r).next = s.next ∧ (s.placeInBin r).lsas = s.lsas ∧
      (s.placeInBin r).lsdbAge.clock = s.lsdbAge.clock ∧
      ∀ q, q ≠ r → (s.placeInBin r).wrappers q = s.wrappers q := by
  unfold OspfLsdb.placeInBin
  dsimp only
  split
  · refine ⟨rfl, rfl, by simp, ?_⟩
    intro q hq
    exact Function.update_of_ne hq _ _
  · exact ⟨rfl, rfl, rfl, fun _ _ => rfl⟩

theorem addLsaToMaxAgeBin_unchanged (r : Ref) :
    (s.addLsaToMaxAgeBin r).next = s.next ∧ (s.addLsaToMaxAgeBin r).lsas = s.lsas ∧
      (s.addLsaToMaxAgeBin r).lsdbAge.clock = s.lsdbAge.clock ∧
      (s.addLsaToMaxAgeBin r).lsdbAge.ageBins = s.lsdbAge.ageBins ∧
      ∀ q, q ≠ r → (s.addLsaToMaxAgeBin r).wrappers q = s.wrappers q := by
  unfold OspfLsdb.addLsaToMaxAgeBin
  dsimp only
  split
  · refine ⟨rfl, rfl, rfl, rfl, ?_⟩
    intro q hq
    exact Function.update_of_ne hq _ _
  · exact ⟨rfl, rfl, rfl, rfl, fun _ _ => rfl⟩

theorem lsaHeader_addLsaToMaxAgeBin (r q : Ref) :
    ((s.addLsaToMaxAgeBin r).wrappers q).lsaHeader = (s.wrappers q).lsaHeader := by
  unfold OspfLsdb.addLsaToMaxAgeBin
  dsimp only
  split
  · rw [wrappers_mutate]
    split
    · rename_i h
      rw [h, wrappers_withAge]
    · rfl
  · rfl

theorem deleteLsa_unchanged (h : LsaHeader) :
    (s.deleteLsa h).wrappers = s.wrappers ∧ (s.deleteLsa h).next = s.next ∧
      (s.deleteLsa h).lsdbAge = s.lsdbAge := by
  unfold OspfLsdb.deleteLsa
  split <;> simp

end Unchanged

abbrev HandedOver := List (LsaProcessing × Ref)

section Ageing

variable (s : OspfLsdb)

def OspfLsdb.sweep (b : ℤ) (due : LsaWrapper → Bool) (lsaProcessing : LsaProcessing) :
    OspfLsdb × HandedOver :=
  let swept := LsaBin.handOver (s.lsdbAge.ageBins b) fun r => due (s.wrappers r)
  (s.withAge (s.lsdbAge.changeBin b fun _ => swept.1)
      (changeBin_lt s.binned fun k r h => s.binned b k r (lookup_of_handOver _ h))
      (by simpa using s.retired),
    if IsBin b then swept.2.map fun r => (lsaProcessing, r) else [])

def OspfLsdb.sweepMaxAgeBin : OspfLsdb × HandedOver :=
  let swept := LsaBin.handOver s.lsdbAge.maxAgeBin fun _ => true
  (s.withAge { s.lsdbAge with maxAgeBin := swept.1 } s.binned
      fun k r h => s.retired k r (lookup_of_handOver (fun _ => true) h),
    swept.2.map fun r => (.MAXAGELSA, r))

def agesFrom (age : ℕ) : List ℕ :=
  if age < MAXAGE then age :: agesFrom (age + CHECKAGE) else []
termination_by MAXAGE - age
decreasing_by simp only [MAXAGE, CHECKAGE] at *; omega

def OspfLsdb.checkAges : HandedOver :=
  (agesFrom CHECKAGE).flatMap fun age =>
    let b := s.lsdbAge.age2Bin age
    if IsBin b then (s.lsdbAge.ageBins b).entries.map fun e => (.VERIFYCHECKSUM, e.2) else []

def OspfLsdb.refreshLsa : OspfLsdb × HandedOver :=
  let binNumber := if s.lsdbAge.ageCounter < LSREFRESHTIME then s.lsdbAge.ageCounter + LSREFRESHTIME
    else s.lsdbAge.ageCounter - LSREFRESHTIME
  s.sweep binNumber (fun w => w.isSelfOriginated) .REFRESHLSA

def OspfLsdb.maxAgeLsa : OspfLsdb × HandedOver :=
  if s.lsdbAge.ageCounter = 0 then (s, [])
  else if IsBin (s.lsdbAge.ageCounter - 1) then
    let aged := s.sweep (s.lsdbAge.ageCounter - 1)
      (fun w => decide (w.currentAge s.lsdbAge = MAXAGE)) .MAXAGELSA
    let retired := aged.1.sweepMaxAgeBin
    (retired.1, aged.2 ++ retired.2)
  else (s, [])

def OspfLsdb.moveCounter : OspfLsdb :=
  s.withAge { s.lsdbAge with clock := s.lsdbAge.clock.tick } s.binned s.retired

def OspfLsdb.ageLsaAndFlood : OspfLsdb × HandedOver :=
  let refreshed := s.refreshLsa
  let aged := refreshed.1.maxAgeLsa
  (aged.1.moveCounter, s.checkAges ++ refreshed.2 ++ aged.2)

end Ageing

/-- What happens to a database: a second passes, an advertisement is installed or deleted, or one
that was received at MaxAge puts a wrapper in the MaxAge bin. -/
inductive Event where
  | tick
  | addLsa (newLsa : LsaHeader) (isSelfOriginated : Bool)
  | deleteLsa (lsaHeader : LsaHeader)
  | addLsaToMaxAgeBin (r : Ref) (age : Option ℤ)

def OspfLsdb.step (s : OspfLsdb) : Event → OspfLsdb × HandedOver
  | .tick => s.ageLsaAndFlood
  | .addLsa newLsa isSelfOriginated => (s.addLsa newLsa isSelfOriginated, [])
  | .deleteLsa lsaHeader => (s.deleteLsa lsaHeader, [])
  | .addLsaToMaxAgeBin r age =>
    let aged := age.elim s (s.setLsaAgeReceived r)
    ((aged.addLsaToMaxAgeBin r).removeLsaFromBin r, [])

def OspfLsdb.run (s : OspfLsdb) : List Event → OspfLsdb × HandedOver
  | [] => (s, [])
  | e :: es =>
    let after := (s.step e).1.run es
    (after.1, (s.step e).2 ++ after.2)

end LinkStateDatabase

import Onos.LinkStateDatabase

/-! The age of a stored advertisement while the seconds pass. The counter has one reading more than
the age has, so an advertisement that is stored while the counter makes a turn loses a second, and
after a whole turn it looks new again. -/
namespace LsaAging

open LinkStateDatabase LinkStateHeaders Odometer

def ticks : List Event → ℕ
  | [] => 0
  | .tick :: es => ticks es + 1
  | .addLsa _ _ :: es => ticks es
  | .deleteLsa _ :: es => ticks es
  | .addLsaToMaxAgeBin _ _ :: es => ticks es

def LeavesAlone (s : OspfLsdb) (key : String) : Event → Prop
  | .tick => True
  | .addLsa newLsa _ => getLsaKey newLsa ≠ key
  | .deleteLsa lsaHeader => getLsaKey lsaHeader ≠ key
  | .addLsaToMaxAgeBin r _ => getLsaKey (s.wrappers r).lsaHeader ≠ key

def Undisturbed (key : String) : OspfLsdb → List Event → Prop
  | _, [] => True
  | s, e :: es => LeavesAlone s key e ∧ Undisturbed key (s.step e).1 es

def Kept (s : OspfLsdb) (r : Ref) (w : LsaWrapper) : Prop := r < s.next ∧ s.wrappers r = w

section Steps

variable (s : OspfLsdb)

theorem sweep_unchanged (b : ℤ) (due : LsaWrapper → Bool) (p : LsaProcessing) :
    (s.sweep b due p).1.wrappers = s.wrappers ∧ (s.sweep b due p).1.next = s.next ∧
      (s.sweep b due p).1.lsas = s.lsas ∧
      (s.sweep b due p).1.lsdbAge.clock = s.lsdbAge.clock := by
  refine ⟨rfl, rfl, rfl, ?_⟩
  simp [OspfLsdb.sweep]

theorem maxAgeLsa_unchanged : s.maxAgeLsa.1.wrappers = s.wrappers ∧ s.maxAgeLsa.1.next = s.next ∧
      s.maxAgeLsa.1.lsas = s.lsas ∧ s.maxAgeLsa.1.lsdbAge.clock = s.lsdbAge.clock := by
  unfold OspfLsdb.maxAgeLsa
  split
  · exact ⟨rfl, rfl, rfl, rfl⟩
  · split
    · refine ⟨rfl, rfl, rfl, ?_⟩
      simp [OspfLsdb.sweepMaxAgeBin, OspfLsdb.sweep]
    · exact ⟨rfl, rfl, rfl, rfl⟩

theorem refreshLsa_unchanged : s.refreshLsa.1.wrappers = s.wrappers ∧ s.refreshLsa.1.next = s.next ∧
      s.refreshLsa.1.lsas = s.lsas ∧ s.refreshLsa.1.lsdbAge.clock = s.lsdbAge.clock := by
  unfold OspfLsdb.refreshLsa
  apply sweep_unchanged

theorem ageLsaAndFlood_unchanged :
    s.ageLsaAndFlood.1.wrappers = s.wrappers ∧ s.ageLsaAndFlood.1.next = s.next ∧
      s.ageLsaAndFlood.1.lsas = s.lsas ∧
      s.ageLsaAndFlood.1.lsdbAge.clock = s.lsdbAge.clock.tick := by
  obtain ⟨hw, hn, hl, hc⟩ := maxAgeLsa_unchanged s.refreshLsa.1
  obtain ⟨hw', hn', hl', hc'⟩ := refreshLsa_unchanged s
  unfold OspfLsdb.ageLsaAndFlood OspfLsdb.moveCounter
  simp only [wrappers_withAge, next_withAge, lsas_withAge, lsdbAge_withAge]
  refine ⟨hw.trans hw', hn.trans hn', hl.trans hl', ?_⟩
  rw [hc, hc']

theorem addLsa_unchanged (newLsa : LsaHeader) (self : Bool) :
    (s.addLsa newLsa self).next = s.next + 1 ∧
      (s.addLsa newLsa self).lsdbAge.clock = s.lsdbAge.clock ∧
      ∀ q < s.next, (s.addLsa newLsa self).wrappers q = s.wrappers q := by
  obtain ⟨hw, hn, _, hc⟩ := removeOld_unchanged s newLsa
  have hp := placeInBin_unchanged ((s.removeOld newLsa).putLsa (s.newWrapper newLsa self)) s.next
  obtain ⟨hn', _, hc', hw'⟩ := hp
  refine ⟨?_, ?_, ?_⟩
  · exact hn'.trans (congrArg (· + 1) hn)
  · exact hc'.trans hc
  · intro q hq
    refine (hw' q (Nat.ne_of_lt hq)).trans ?_
    rw [wrappers_putLsa, hn, if_neg (Nat.ne_of_lt hq), hw]

theorem toMaxAgeBin_unchanged (r : Ref) (age : Option ℤ) :
    (s.step (.addLsaToMaxAgeBin r age)).1.next = s.next ∧
      (s.step (.addLsaToMaxAgeBin r age)).1.lsdbAge.clock = s.lsdbAge.clock ∧
      (s.step (.addLsaToMaxAgeBin r age)).1.lsas = s.lsas ∧
      ∀ q, q ≠ r → (s.step (.addLsaToMaxAgeBin r age)).1.wrappers q = s.wrappers q := by
  obtain ⟨hn, hl, hc, _, hw⟩ := addLsaToMaxAgeBin_unchanged (age.elim s (s.setLsaAgeReceived r)) r
  have hage : (age.elim s (s.setLsaAgeReceived r)).next = s.next ∧
      (age.elim s (s.setLsaAgeReceived r)).lsdbAge = s.lsdbAge ∧
      (age.elim s (s.setLsaAgeReceived r)).lsas = s.lsas ∧
      ∀ q, q ≠ r → (age.elim s (s.setLsaAgeReceived r)).wrappers q = s.wrappers q := by
    cases age with
    | none => exact ⟨rfl, rfl, rfl, fun _ _ => rfl⟩
    | some age => exact ⟨rfl, rfl, rfl, fun q hq => Function.update_of_ne hq _ _⟩
  obtain ⟨hn', ha', hl', hw'⟩ := hage
  refine ⟨hn.trans hn', ?_, hl.trans hl', ?_⟩
  · simp only [OspfLsdb.step, clock_removeLsaFromBin]
    rw [hc, ha']
  · intro q hq
    exact (hw q hq).trans (hw' q hq)

end Steps

theorem clock_step (s : OspfLsdb) (e : Event) :
    (s.step e).1.lsdbAge.clock = Reading.tick^[ticks [e]] s.lsdbAge.clock := by
  cases e with
  | tick =>
    simp only [OspfLsdb.step, ticks, Function.iterate_succ, Function.iterate_zero, id_eq,
      Function.comp_apply]
    exact (ageLsaAndFlood_unchanged s).2.2.2
  | addLsa newLsa self =>
    simp only [OspfLsdb.step, ticks, Function.iterate_zero, id_eq]
    exact (addLsa_unchanged s newLsa self).2.1
  | deleteLsa h =>
    simp only [OspfLsdb.step, ticks, Function.iterate_zero, id_eq]
    rw [(deleteLsa_unchanged s h).2.2]
  | addLsaToMaxAgeBin r age =>
    simp only [ticks, Function.iterate_zero, id_eq]
    exact (toMaxAgeBin_unchanged s r age).2.1

theorem kept_step {s : OspfLsdb} {r : Ref} {w : LsaWrapper} (hk : Kept s r w) {e : Event}
    (he : LeavesAlone s (getLsaKey w.lsaHeader) e) : Kept (s.step e).1 r w := by
  obtain ⟨hr, hw⟩ := hk
  cases e with
  | tick =>
    obtain ⟨hw', hn, _⟩ := ageLsaAndFlood_unchanged s
    exact ⟨Nat.lt_of_lt_of_eq hr hn.symm, (congrFun hw' r).trans hw⟩
  | addLsa newLsa self =>
    obtain ⟨hn, _, hw'⟩ := addLsa_unchanged s newLsa self
    exact ⟨Nat.lt_of_lt_of_eq (Nat.lt_succ_of_lt hr) hn.symm, (hw' r hr).trans hw⟩
  | deleteLsa h =>
    obtain ⟨hw', hn, _⟩ := deleteLsa_unchanged s h
    exact ⟨Nat.lt_of_lt_of_eq hr hn.symm, (congrFun hw' r).trans hw⟩
  | addLsaToMaxAgeBin q age =>
    obtain ⟨hn, _, _, hw'⟩ := toMaxAgeBin_unchanged s q age
    have hq : r ≠ q := by
      rintro rfl
      exact he (by rw [hw])
    exact ⟨Nat.lt_of_lt_of_eq hr hn.symm, (hw' r hq).trans hw⟩

theorem ticks_cons (e : Event) (es : List Event) : ticks (e :: es) = ticks [e] + ticks es := by
  cases e <;> simp [ticks, Nat.add_comm]

theorem kept_run {r : Ref} {w : LsaWrapper} (es : List Event) :
    ∀ s : OspfLsdb, Kept s r w → Undisturbed (getLsaKey w.lsaHeader) s es →
      Kept (s.run es).1 r w ∧
        (s.run es).1.lsdbAge.clock = Reading.tick^[ticks es] s.lsdbAge.clock := by
  induction es with
  | nil =>
    intro s hk _
    exact ⟨hk, rfl⟩
  | cons e es ih =>
    intro s hk hu
    obtain ⟨hk', hc'⟩ := ih (s.step e).1 (kept_step hk hu.1) hu.2
    refine ⟨hk', hc'.trans ?_⟩
    rw [ticks_cons e es, Nat.add_comm, Function.iterate_add_apply, clock_step]

theorem kept_addLsa (s : OspfLsdb) (newLsa : LsaHeader) (self : Bool) :
    ∃ b, Kept (s.addLsa newLsa self) s.next { s.newWrapper newLsa self with binNumber := b } := by
  have hn := (addLsa_unchanged s newLsa self).1
  have hn' := (removeOld_unchanged s newLsa).2.1
  have hput : ((s.removeOld newLsa).putLsa (s.newWrapper newLsa self)).wrappers s.next =
      s.newWrapper newLsa self := by
    rw [wrappers_putLsa, if_pos hn'.symm]
  unfold Kept
  rw [hn]
  unfold OspfLsdb.addLsa OspfLsdb.placeInBin
  dsimp only
  split
  · rw [wrappers_mutate, if_pos rfl, wrappers_withAge, hput]
    exact ⟨_, Nat.lt_succ_self _, rfl⟩
  · rw [hput]
    exact ⟨-1, Nat.lt_succ_self _, rfl⟩

/-- The seconds that the counter shows of `n` that passed since it read `c`. -/
def counted (c n : ℕ) : ℕ :=
  if c + n % (MAXAGE + 1) ≤ MAXAGE then n % (MAXAGE + 1) else n % (MAXAGE + 1) - 1

def turns (c n : ℕ) : ℕ := (c + n) / (MAXAGE + 1)

def ageTold (c : ℕ) (a : ℤ) (n : ℕ) : ℤ :=
  if a + counted c n ≥ MAXAGE then MAXAGE
  else if counted c n = 0 ∧ turns c n % 2 ^ 32 ≠ 0 then MAXAGE
  else a + counted c n

theorem counted_eq {c d n : ℕ} (hc : c ≤ MAXAGE) (hd : d = (c + n) % (MAXAGE + 1)) :
    (counted c n : ℤ) = if (d : ℤ) ≥ c then (d : ℤ) - c else MAXAGE + d - c := by
  unfold counted MAXAGE at *
  split <;> split <;> omega

theorem turns_ne_iff (o : BitVec 32) (q : ℕ) : o ≠ o + BitVec.ofNat 32 q ↔ q % 2 ^ 32 ≠ 0 := by
  rw [Ne, BitVec.self_eq_add_right, ← BitVec.toNat_inj, BitVec.toNat_ofNat]
  rfl

theorem currentAge_eq {w : LsaWrapper} {a : LsdbAge} {o : Reading MAXAGE 32} (n : ℕ)
    (hc : w.ageCounterWhenReceived = o.digit) (ht : w.ageCounterRollOverWhenAdded = o.turns)
    (ha : a.clock = Reading.tick^[n] o) :
    w.currentAge a = ageTold o.digit w.lsaAgeReceived n := by
  obtain ⟨hdigit, hturns⟩ := read_iterate n o
  have hd : a.ageCounter = ((o.digit + n) % (MAXAGE + 1) : ℕ) := by
    rw [LsdbAge.ageCounter, ha, hdigit]
  have hr : a.ageCounterRollOver = o.turns + BitVec.ofNat 32 (turns o.digit n) := by
    rw [LsdbAge.ageCounterRollOver, ha, hturns]
    rfl
  have hcount := counted_eq (n := n) o.digit_le rfl
  rw [← hd] at hcount
  have hage : (if a.ageCounter ≥ w.ageCounterWhenReceived then
      w.lsaAgeReceived + (a.ageCounter - w.ageCounterWhenReceived)
      else w.lsaAgeReceived + ((MAXAGE + a.ageCounter) - w.ageCounterWhenReceived)) =
      w.lsaAgeReceived + counted o.digit n := by
    rw [hcount, hc]
    split <;> rfl
  have hzero : w.lsaAgeReceived + counted o.digit n = w.lsaAgeReceived ↔ counted o.digit n = 0 := by
    omega
  unfold LsaWrapper.currentAge ageTold
  simp only [hage, hzero, ht, hr, turns_ne_iff]

/-- The counter did not pass its top since, or what it shows takes the age to its end anyway, or
it shows nothing, of a number of turns that the count of the turns can tell from none. -/
def AgesExactly (c : ℕ) (a : ℤ) (n : ℕ) : Prop :=
  c + n ≤ MAXAGE ∨ (MAXAGE : ℤ) ≤ a + counted c n ∨
    ((MAXAGE : ℤ) ≤ a + n ∧ counted c n = 0 ∧ turns c n % 2 ^ 32 ≠ 0)

theorem counted_le (c n : ℕ) : counted c n ≤ n := by
  unfold counted
  have := Nat.mod_le n (MAXAGE + 1)
  split <;> omega

theorem counted_of_le {c n : ℕ} (h : c + n ≤ MAXAGE) : counted c n = n ∧ turns c n = 0 := by
  have hn : n % (MAXAGE + 1) = n := Nat.mod_eq_of_lt (by omega)
  refine ⟨?_, Nat.div_eq_of_lt (by omega)⟩
  rw [counted, hn, if_pos h]

theorem counted_lt {c n : ℕ} (hc : c ≤ MAXAGE) (h : MAXAGE < c + n) : counted c n < n := by
  unfold counted MAXAGE at *
  split <;> omega

theorem ageTold_eq_iff {c : ℕ} (hc : c ≤ MAXAGE) (a : ℤ) (n : ℕ) :
    ageTold c a n = min (MAXAGE : ℤ) (a + n) ↔ AgesExactly c a n := by
  have hle := counted_le c n
  unfold AgesExactly ageTold
  by_cases h : c + n ≤ MAXAGE
  · obtain ⟨hn, ht⟩ := counted_of_le h
    rw [hn, ht]
    split <;> omega
  · have hlt : counted c n < n := counted_lt hc (by omega)
    split
    · omega
    · split <;> omega

theorem lsas_putLsa (s : OspfLsdb) (w : LsaWrapper) (t : OspfLsaType) :
    (s.putLsa w).lsas t = if t = w.lsaHeader.getOspfLsaType ∧ t ≠ .UNDEFINED then
      (s.lsas t).insert (getLsaKey w.lsaHeader) s.next else s.lsas t := rfl

theorem findLsa_eq (s : OspfLsdb) {v : ℤ} (hk : OspfLsaType.ofValue v ≠ .UNDEFINED) (k : String) :
    s.findLsa v k = (s.lsas (OspfLsaType.ofValue v)).lookup k := by
  unfold OspfLsdb.findLsa
  split
  · rename_i h
    exact absurd h hk
  · rfl

theorem lookup_addLsa (s : OspfLsdb) (newLsa : LsaHeader) (self : Bool)
    (hk : newLsa.getOspfLsaType ≠ .UNDEFINED) :
    (s.addLsa newLsa self).lsaLookup newLsa = some s.next := by
  have hp := placeInBin_unchanged ((s.removeOld newLsa).putLsa (s.newWrapper newLsa self)) s.next
  rw [OspfLsdb.lsaLookup, findLsa_eq _ hk, OspfLsdb.addLsa, hp.2.1, lsas_putLsa,
    if_pos ⟨rfl, hk⟩, KeyedMap.lookup_insert]
  exact (if_pos rfl).trans (congrArg some (removeOld_unchanged s newLsa).2.1)

theorem lookup_step {s : OspfLsdb} {key : String} {e : Event} (he : LeavesAlone s key e)
    (t : OspfLsaType) : ((s.step e).1.lsas t).lookup key = (s.lsas t).lookup key := by
  cases e with
  | tick => exact congrArg (fun l => (l t).lookup key) (ageLsaAndFlood_unchanged s).2.2.1
  | addLsa newLsa self =>
    have hp := placeInBin_unchanged ((s.removeOld newLsa).putLsa (s.newWrapper newLsa self)) s.next
    simp only [OspfLsdb.step, OspfLsdb.addLsa]
    rw [hp.2.1, lsas_putLsa, (removeOld_unchanged s newLsa).2.2.1]
    split
    · rw [KeyedMap.lookup_insert]
      exact if_neg fun hk => he hk.symm
    · rfl
  | deleteLsa h =>
    simp only [OspfLsdb.step, OspfLsdb.deleteLsa]
    split
    · rfl
    · simp only [OspfLsdb.eraseLsa, Function.update_apply]
      split
      · rename_i ht
        rw [ht, KeyedMap.lookup_erase]
        exact if_neg fun hk => he hk.symm
      · rfl
  | addLsaToMaxAgeBin r age =>
    exact congrArg (fun l => (l t).lookup key) (toMaxAgeBin_unchanged s r age).2.2.1

theorem lookup_run {key : String} (t : OspfLsaType) (es : List Event) :
    ∀ s : OspfLsdb, Undisturbed key s es →
      ((s.run es).1.lsas t).lookup key = (s.lsas t).lookup key := by
  induction es with
  | nil =>
    intro s _
    rfl
  | cons e es ih =>
    intro s hu
    exact (ih (s.step e).1 hu.2).trans (lookup_step hu.1 t)

/-- What a run that leaves an installed advertisement alone leaves of it: it is still the stored
instance, and its age is the one that the counter tells. -/
theorem stored_run (s : OspfLsdb) (newLsa : LsaHeader) (self : Bool) (es : List Event)
    (hk : newLsa.getOspfLsaType ≠ .UNDEFINED)
    (hu : Undisturbed (getLsaKey newLsa) (s.addLsa newLsa self) es) :
    ((s.addLsa newLsa self).run es).1.lsaLookup newLsa = some s.next ∧
      (((s.addLsa newLsa self).run es).1.wrappers s.next).currentAge
        ((s.addLsa newLsa self).run es).1.lsdbAge =
          ageTold s.lsdbAge.clock.digit newLsa.age (ticks es) := by
  obtain ⟨b, hb⟩ := kept_addLsa s newLsa self
  obtain ⟨⟨_, hw⟩, hc⟩ := kept_run es _ hb hu
  constructor
  · have hl := lookup_addLsa s newLsa self hk
    rw [OspfLsdb.lsaLookup, findLsa_eq _ hk] at hl ⊢
    rw [lookup_run _ es _ hu, hl]
  · rw [(addLsa_unchanged s newLsa self).2.1] at hc
    rw [hw]
    exact currentAge_eq (ticks es) rfl rfl hc

def routerLsa (age : ℤ) : LsaHeader :=
  ⟨age, 2, 1, "10.0.0.1", 0, 0, ⟨10, 0, 0, 1⟩, STARTLSSEQUENCENUM, 0x1234, 36⟩

def atTop : Reading MAXAGE 32 := ⟨MAXAGE, 0, Nat.le_refl _⟩

end LsaAging

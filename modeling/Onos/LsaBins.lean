import Mathlib.Data.Nat.Count
import Onos.LsaAging

/-! Which bin an advertisement is in while the seconds pass, and when a sweep hands it over. The
place of an advertisement is the number of its bin, or none; each second can only take it out. -/
namespace LsaBins

open KeyedMap LinkStateDatabase LinkStateHeaders LsaAging Odometer

/-- A wrapper is in the bin of the number and in no other, or in no bin. -/
structure Placed (a : LsdbAge) (key : String) (r : Ref) (place : Option ℤ) : Prop where
  bin : ∀ b, place = some b → IsBin b
  held : ∀ b k, (a.ageBins b).lookup k = some r ↔ place = some b ∧ k = key
  fresh : ∀ k, a.maxAgeBin.lookup k ≠ some r

section Frames

variable {a : LsdbAge} {key : String} {r : Ref} {place : Option ℤ}

theorem placed_changeBin (h : Placed a key r place) (b : ℤ) (f : LsaBin → LsaBin)
    (hf : ∀ k, (f (a.ageBins b)).lookup k = some r ↔ (a.ageBins b).lookup k = some r) :
    Placed (a.changeBin b f) key r place where
  bin := h.bin
  held c k := by
    rw [ageBins_changeBin]
    split
    · rename_i hc
      rw [hf, h.held, hc.2]
    · exact h.held c k
  fresh := by
    rw [maxAgeBin_changeBin]
    exact h.fresh

theorem placed_removeOspfLsa (h : Placed a key r place) (b : ℤ) {k : String} (hk : k ≠ key) :
    Placed (a.changeBin b (LsaBin.removeOspfLsa · k)) key r place := by
  apply placed_changeBin h
  intro j
  rw [lookup_removeOspfLsa]
  split
  · rename_i hj
    constructor
    · intro e
      cases e
    · intro e
      exact absurd (hj ▸ ((h.held b j).mp e).2) hk
  · exact Iff.rfl

theorem placed_addOspfLsa (h : Placed a key r place) (b : ℤ) {k : String} {q : Ref} (hk : k ≠ key)
    (hq : q ≠ r) : Placed (a.changeBin b (LsaBin.addOspfLsa · k q)) key r place := by
  apply placed_changeBin h
  intro j
  rw [lookup_addOspfLsa]
  split
  · rename_i hj
    have hno : (a.ageBins b).lookup j ≠ some r := by
      intro e
      exact hk (hj ▸ ((h.held b j).mp e).2)
    rw [hj] at hno ⊢
    constructor
    · intro e
      cases hl : (a.ageBins b).lookup k with
      | none =>
        rw [hl] at e
        exact absurd (Option.some.inj e) hq
      | some p =>
        rw [hl] at e hno
        exact absurd e hno
    · intro e
      exact absurd e hno
  · exact Iff.rfl

end Frames

theorem key_of_lookup {s : OspfLsdb} {h : LsaHeader} {old : Ref} (hl : s.lsaLookup h = some old) :
    getLsaKey (s.wrappers old).lsaHeader = getLsaKey h := by
  unfold OspfLsdb.lsaLookup OspfLsdb.findLsa at hl
  split at hl
  · cases hl
  · exact (s.named _ _ _ hl).2.1

section Others

variable {s : OspfLsdb} {key : String} {r : Ref} {place : Option ℤ}

section

variable (h : Placed s.lsdbAge key r place)

include h

theorem placed_removeLsaFromBin {q : Ref} (hq : getLsaKey (s.wrappers q).lsaHeader ≠ key) :
    Placed (s.removeLsaFromBin q).lsdbAge key r place :=
  placed_removeOspfLsa h _ hq

theorem placed_removeOld {newLsa : LsaHeader}
    (hk : getLsaKey newLsa ≠ key) : Placed (s.removeOld newLsa).lsdbAge key r place := by
  unfold OspfLsdb.removeOld
  split
  · rename_i old hl
    exact placed_removeLsaFromBin h (key_of_lookup hl ▸ hk)
  · exact h

theorem placed_placeInBin {q : Ref} (hk : getLsaKey (s.lsaHeader q) ≠ key) (hq : q ≠ r) :
    Placed (s.placeInBin q).lsdbAge key r place := by
  unfold OspfLsdb.placeInBin
  dsimp only
  split
  · exact placed_addOspfLsa h _ hk hq
  · exact h

theorem placed_addLsaToMaxAgeBin {q : Ref} (hq : q ≠ r) :
    Placed (s.addLsaToMaxAgeBin q).lsdbAge key r place := by
  unfold OspfLsdb.addLsaToMaxAgeBin
  dsimp only
  split
  · refine ⟨h.bin, h.held, ?_⟩
    intro k
    rw [lsdbAge_mutate, lsdbAge_withAge, lookup_addOspfLsa]
    split
    · rename_i hl _
      rw [hl.2]
      exact fun e => hq (Option.some.inj e)
    · exact h.fresh k
  · exact h

theorem placed_step {w : LsaWrapper} (hw : Kept s r w)
    (hkey : getLsaKey w.lsaHeader = key) {e : Event} (he : LeavesAlone s key e) (ht : e ≠ .tick) :
    Placed (s.step e).1.lsdbAge key r place ∧ (s.step e).2 = [] := by
  cases e with
  | tick => exact absurd rfl ht
  | addLsa newLsa self =>
    refine ⟨?_, rfl⟩
    have hn := (removeOld_unchanged s newLsa).2.1
    have hput : Placed ((s.removeOld newLsa).putLsa (s.newWrapper newLsa self)).lsdbAge key r place :=
      placed_removeOld h he
    apply placed_placeInBin hput
    · unfold OspfLsdb.lsaHeader
      rw [getLsaKey_setAge, wrappers_putLsa, if_pos hn.symm]
      exact he
    · exact Nat.ne_of_gt hw.1
  | deleteLsa lsaHeader =>
    refine ⟨?_, rfl⟩
    simp only [OspfLsdb.step, (deleteLsa_unchanged s lsaHeader).2.2]
    exact h
  | addLsaToMaxAgeBin q age =>
    refine ⟨?_, rfl⟩
    have hq : q ≠ r := by
      rintro rfl
      exact he (by rw [hw.2, hkey])
    have haged : (age.elim s (s.setLsaAgeReceived q)).lsdbAge = s.lsdbAge ∧
        getLsaKey ((age.elim s (s.setLsaAgeReceived q)).wrappers q).lsaHeader ≠ key := by
      cases age with
      | none => exact ⟨rfl, he⟩
      | some age =>
        refine ⟨rfl, ?_⟩
        simp only [Option.elim_some, OspfLsdb.setLsaAgeReceived, wrappers_mutate, ↓reduceIte]
        exact he
    have hmax := placed_addLsaToMaxAgeBin (haged.1 ▸ h) hq
    apply placed_removeLsaFromBin hmax
    rw [lsaHeader_addLsaToMaxAgeBin]
    exact haged.2

end

end Others

theorem count_handOver {bin : LsaBin} {due : Ref → Bool} {key : String} {r : Ref}
    (h : ∀ k, bin.lookup k = some r → k = key) :
    (bin.handOver due).2.count r = if bin.lookup key = some r ∧ due r = true then 1 else 0 := by
  have hcount : (bin.handOver due).2.count r =
      bin.entries.countP fun e => decide (e.2 = r) && due e.2 := by
    rw [LsaBin.handOver, List.count_eq_countP, List.countP_map, List.countP_filter]
    rfl
  rw [hcount]
  cases hd : due r with
  | false =>
    rw [if_neg (by simp)]
    apply List.countP_eq_zero.mpr
    intro e _ he
    obtain ⟨hr, hdue⟩ := Bool.and_eq_true_iff.mp he
    rw [of_decide_eq_true hr, hd] at hdue
    cases hdue
  | true =>
    have hkey : bin.entries.countP (fun e => decide (e.2 = r) && due e.2) =
        bin.entries.count ⟨key, r⟩ := by
      rw [List.count_eq_countP]
      apply List.countP_congr
      rintro ⟨k, q⟩ hm
      have hq : bin.lookup k = some q := (mem_entries_iff bin k q).mp hm
      constructor
      · intro e
        have hr : q = r := of_decide_eq_true (Bool.and_eq_true_iff.mp e).1
        subst hr
        rw [h k hq]
        exact beq_self_eq_true _
      · intro e
        cases eq_of_beq e
        simp [hd]
    have hm : (⟨key, r⟩ : Sigma fun _ : String => Ref) ∈ bin.entries ↔
        bin.lookup key = some r ∧ true = true := by
      rw [mem_entries_iff]
      exact (and_iff_left rfl).symm
    rw [hkey, bin.nodupKeys.nodup.count]
    simp only [hm]

def refreshBin (d : ℕ) : ℤ := if d < LSREFRESHTIME then d + LSREFRESHTIME else d - LSREFRESHTIME

/-- The place after a second that began with the counter at `d` and the advertisement at `age`. -/
def nextPlace (d : ℕ) (age : ℤ) (self : Bool) (place : Option ℤ) : Option ℤ :=
  if place = some (refreshBin d) ∧ self = true then none
  else if place = some ((d : ℤ) - 1) ∧ age = MAXAGE then none
  else place

theorem nextPlace_eq (d : ℕ) (age : ℤ) (self : Bool) (place : Option ℤ) :
    nextPlace d age self place =
      if (if place = some (refreshBin d) ∧ self = true then none else place) = some ((d : ℤ) - 1) ∧
        age = MAXAGE then none
      else if place = some (refreshBin d) ∧ self = true then none else place := by
  unfold nextPlace
  split
  · simp
  · rfl

theorem isBin_refreshBin {d : ℕ} (hd : d ≤ MAXAGE) : IsBin (refreshBin d) := by
  unfold refreshBin IsBin MAXAGE LSREFRESHTIME at *
  split <;> omega

theorem refreshBin_ne (d : ℕ) : refreshBin d ≠ d - 1 := by
  unfold refreshBin LSREFRESHTIME
  split <;> omega

section Seconds

variable {s : OspfLsdb} {key : String} {r : Ref} {place : Option ℤ} {w : LsaWrapper}

theorem placed_sweep (h : Placed s.lsdbAge key r place) (hw : s.wrappers r = w) {b : ℤ}
    (hb : IsBin b) (due : LsaWrapper → Bool) (p : LsaProcessing) :
    Placed (s.sweep b due p).1.lsdbAge key r
      (if place = some b ∧ due w = true then none else place) where
  bin c hc := by
    split at hc
    · cases hc
    · exact h.bin c hc
  held c k := by
    unfold OspfLsdb.sweep
    rw [lsdbAge_withAge, ageBins_changeBin]
    by_cases hcb : c = b
    · rw [if_pos ⟨hb, hcb⟩, lookup_handOver, hcb, Option.filter_eq_some_iff, h.held, hw]
      cases hd : due w with
      | true =>
        constructor
        · intro e
          cases e.2
        · rintro ⟨e, hk⟩
          split at e
          · cases e
          · rename_i hne
            exact absurd ⟨e, rfl⟩ hne
      | false => simp
    · rw [if_neg (fun e => hcb e.2), h.held]
      split
      · rename_i hp
        rw [hp.1]
        simp [Ne.symm hcb]
      · exact Iff.rfl
  fresh := by
    unfold OspfLsdb.sweep
    rw [lsdbAge_withAge, maxAgeBin_changeBin]
    exact h.fresh

theorem count_sweep (h : Placed s.lsdbAge key r place) (hw : s.wrappers r = w) {b : ℤ}
    (hb : IsBin b) (due : LsaWrapper → Bool) (p q : LsaProcessing) :
    (s.sweep b due p).2.count (q, r) =
      if q = p ∧ place = some b ∧ due w = true then 1 else 0 := by
  unfold OspfLsdb.sweep
  simp only [hb, ↓reduceIte]
  by_cases hq : q = p
  · subst hq
    rw [List.count_map_of_injective _ _ (fun _ _ e => congrArg Prod.snd e),
      count_handOver fun k hk => ((h.held b k).mp hk).2]
    have hl : (s.lsdbAge.ageBins b).lookup key = some r ↔ place = some b := by simp [h.held]
    simp only [hl, hw, true_and]
  · rw [if_neg fun e => hq e.1]
    apply List.count_eq_zero.mpr
    intro hm
    obtain ⟨_, _, e⟩ := List.mem_map.mp hm
    exact hq (congrArg Prod.fst e).symm

theorem currentAge_congr (w : LsaWrapper) {a b : LsdbAge} (h : a.clock = b.clock) :
    w.currentAge a = w.currentAge b := by
  unfold LsaWrapper.currentAge LsdbAge.ageCounter LsdbAge.ageCounterRollOver
  rw [h]

theorem refreshLsa_eq (s : OspfLsdb) :
    s.refreshLsa = s.sweep (refreshBin s.lsdbAge.clock.digit) (fun w => w.isSelfOriginated)
      .REFRESHLSA := by
  unfold OspfLsdb.refreshLsa refreshBin LsdbAge.ageCounter
  simp only [Nat.cast_lt]

theorem count_checkAges (s : OspfLsdb) (r : Ref) {q : LsaProcessing} (hq : q ≠ .VERIFYCHECKSUM) :
    s.checkAges.count (q, r) = 0 := by
  apply List.count_eq_zero.mpr
  intro hm
  obtain ⟨age, _, hage⟩ := List.mem_flatMap.mp hm
  dsimp only at hage
  split at hage
  · obtain ⟨e, _, he⟩ := List.mem_map.mp hage
    exact hq (congrArg Prod.fst he).symm
  · cases hage

section

variable (h : Placed s.lsdbAge key r place)

include h

theorem placed_sweepMaxAgeBin : Placed s.sweepMaxAgeBin.1.lsdbAge key r place ∧
      ∀ q, s.sweepMaxAgeBin.2.count (q, r) = 0 := by
  constructor
  · refine ⟨h.bin, h.held, ?_⟩
    intro k hk
    exact h.fresh k (lookup_of_handOver (fun _ => true) hk)
  · intro q
    apply List.count_eq_zero.mpr
    intro hm
    obtain ⟨p, hp, e⟩ := List.mem_map.mp hm
    cases e
    obtain ⟨⟨k, _⟩, he, rfl⟩ := List.mem_map.mp hp
    exact h.fresh k ((mem_entries_iff _ k _).mp (List.mem_of_mem_filter he))

theorem placed_maxAgeLsa (hw : s.wrappers r = w) : Placed s.maxAgeLsa.1.lsdbAge key r
        (if place = some ((s.lsdbAge.clock.digit : ℤ) - 1) ∧ w.currentAge s.lsdbAge = MAXAGE then none
          else place) ∧
      ∀ q, s.maxAgeLsa.2.count (q, r) =
        if q = .MAXAGELSA ∧ place = some ((s.lsdbAge.clock.digit : ℤ) - 1) ∧
          w.currentAge s.lsdbAge = MAXAGE then 1 else 0 := by
  have hd := s.lsdbAge.clock.digit_le
  unfold OspfLsdb.maxAgeLsa LsdbAge.ageCounter
  by_cases h0 : s.lsdbAge.clock.digit = 0
  · have hno : place ≠ some ((s.lsdbAge.clock.digit : ℤ) - 1) := by
      intro e
      have := (h.bin _ e).1
      omega
    simp only [h0, Nat.cast_zero, ↓reduceIte, List.count_nil] at hno ⊢
    simp only [hno, false_and, and_false, ↓reduceIte, implies_true, and_true]
    exact h
  · have hb : IsBin ((s.lsdbAge.clock.digit : ℤ) - 1) := ⟨by omega, by omega⟩
    rw [if_neg (by omega), if_pos hb]
    have hswept := placed_sweep h hw hb (fun w => decide (w.currentAge s.lsdbAge = MAXAGE)) .MAXAGELSA
    have hcount := count_sweep h hw hb (fun w => decide (w.currentAge s.lsdbAge = MAXAGE)) .MAXAGELSA
    simp only [decide_eq_true_eq] at hswept hcount
    obtain ⟨hout, hnone⟩ := placed_sweepMaxAgeBin hswept
    refine ⟨hout, ?_⟩
    intro q
    rw [List.count_append, hnone, hcount, Nat.add_zero]

theorem placed_moveCounter : Placed s.moveCounter.lsdbAge key r place :=
  ⟨h.bin, h.held, h.fresh⟩

theorem placed_tick (hw : s.wrappers r = w) : Placed s.ageLsaAndFlood.1.lsdbAge key r
        (nextPlace s.lsdbAge.clock.digit (w.currentAge s.lsdbAge) w.isSelfOriginated place) ∧
      s.ageLsaAndFlood.2.count (.REFRESHLSA, r) =
        (if place = some (refreshBin s.lsdbAge.clock.digit) ∧ w.isSelfOriginated = true then 1 else 0) ∧
      s.ageLsaAndFlood.2.count (.MAXAGELSA, r) =
        if place = some ((s.lsdbAge.clock.digit : ℤ) - 1) ∧ w.currentAge s.lsdbAge = MAXAGE then 1
          else 0 := by
  have hb := isBin_refreshBin s.lsdbAge.clock.digit_le
  have hrefresh := placed_sweep h hw hb (fun w => w.isSelfOriginated) .REFRESHLSA
  have hcount := count_sweep h hw hb (fun w => w.isSelfOriginated) .REFRESHLSA
  rw [← refreshLsa_eq] at hrefresh hcount
  obtain ⟨hw', _, _, hc'⟩ := refreshLsa_unchanged s
  have haged := placed_maxAgeLsa hrefresh ((congrFun hw' r).trans hw)
  rw [hc', currentAge_congr w hc'] at haged
  obtain ⟨hplaced, hmax⟩ := haged
  have hne := refreshBin_ne s.lsdbAge.clock.digit
  unfold OspfLsdb.ageLsaAndFlood
  simp only [List.count_append, hcount, hmax, count_checkAges s r (q := .REFRESHLSA) (by decide),
    count_checkAges s r (q := .MAXAGELSA) (by decide)]
  refine ⟨?_, ?_, ?_⟩
  · rw [nextPlace_eq]
    exact placed_moveCounter hplaced
  · simp
  · by_cases hself : place = some (refreshBin s.lsdbAge.clock.digit) ∧ w.isSelfOriginated = true
    · have hno : ¬ (place = some ((s.lsdbAge.clock.digit : ℤ) - 1) ∧
          w.currentAge s.lsdbAge = MAXAGE) := by
        rw [hself.1]
        exact fun e => hne (Option.some.inj e.1)
      rw [if_neg hno]
      simp only [if_pos hself]
      simp
    · simp [hself]

end

end Seconds

section Insertion

variable (s : OspfLsdb) (newLsa : LsaHeader) (self : Bool)

/-- No wrapper of the advertisement's key is left in the bin of its age, once the stored one is
taken out of its bin. -/
def BinFree : Prop :=
  (s.lsdbAge.ageBins (s.lsdbAge.age2Bin newLsa.age)).lookup (getLsaKey newLsa) = none ∨
    ∃ old, s.lsaLookup newLsa = some old ∧
      (s.wrappers old).binNumber = s.lsdbAge.age2Bin newLsa.age

theorem binFree_iff (hb : IsBin (s.lsdbAge.age2Bin newLsa.age)) :
    BinFree s newLsa ↔ ((s.removeOld newLsa).lsdbAge.ageBins
      (s.lsdbAge.age2Bin newLsa.age)).lookup (getLsaKey newLsa) = none := by
  unfold BinFree OspfLsdb.removeOld
  cases hl : s.lsaLookup newLsa with
  | none => simp
  | some old =>
    simp only [Option.some.injEq, exists_eq_left', OspfLsdb.removeLsaFromBin, lsdbAge_withAge,
      ageBins_changeBin, key_of_lookup hl]
    by_cases hold : (s.wrappers old).binNumber = s.lsdbAge.age2Bin newLsa.age
    · simp [hold, hb, lookup_removeOspfLsa]
    · simp [hold, Ne.symm hold]

theorem removeOld_lt (b : ℤ) (k : String) (r : Ref)
    (h : ((s.removeOld newLsa).lsdbAge.ageBins b).lookup k = some r) : r < s.next :=
  (removeOld_unchanged s newLsa).2.1 ▸ (s.removeOld newLsa).binned b k r h

theorem age2Bin_congr {a b : LsdbAge} (h : a.clock = b.clock) (x : ℤ) : a.age2Bin x = b.age2Bin x := by
  unfold LsdbAge.age2Bin LsdbAge.ageCounter
  rw [h]

/-- The database while it installs an advertisement, before the wrapper is placed in a bin. -/
def entered : OspfLsdb := (s.removeOld newLsa).putLsa (s.newWrapper newLsa self)

theorem clock_entered : (entered s newLsa self).lsdbAge.clock = s.lsdbAge.clock :=
  (removeOld_unchanged s newLsa).2.2.2

theorem lsaHeader_entered (ha : newLsa.age < MAXAGE) :
    (entered s newLsa self).lsaHeader s.next = newLsa := by
  have hw : (entered s newLsa self).wrappers s.next = s.newWrapper newLsa self := by
    unfold entered
    rw [wrappers_putLsa, if_pos (removeOld_unchanged s newLsa).2.1.symm]
  have hage : (s.newWrapper newLsa self).currentAge (entered s newLsa self).lsdbAge = newLsa.age := by
    rw [currentAge_eq (o := s.lsdbAge.clock) 0 rfl rfl (clock_entered s newLsa self)]
    have hz : counted s.lsdbAge.clock.digit 0 = 0 ∧ turns s.lsdbAge.clock.digit 0 = 0 :=
      counted_of_le s.lsdbAge.clock.digit_le
    unfold ageTold
    rw [hz.1, hz.2]
    have h0 : ¬ (s.newWrapper newLsa self).lsaAgeReceived ≥ MAXAGE := by
      exact Int.not_le.mpr ha
    simp only [Nat.cast_zero, Int.add_zero, if_neg h0]
    rfl
  unfold OspfLsdb.lsaHeader
  rw [hw, hage]
  rfl

theorem held_addLsa_iff (ha : newLsa.age < MAXAGE) (b : ℤ) (k : String) :
    ((s.addLsa newLsa self).lsdbAge.ageBins b).lookup k = some s.next ↔
      IsBin (s.lsdbAge.age2Bin newLsa.age) ∧ BinFree s newLsa ∧
        b = s.lsdbAge.age2Bin newLsa.age ∧ k = getLsaKey newLsa := by
  have hold : ∀ c j, ((entered s newLsa self).lsdbAge.ageBins c).lookup j ≠ some s.next := by
    intro c j h
    exact Nat.lt_irrefl _ (removeOld_lt s newLsa c j s.next h)
  have hbin : (entered s newLsa self).lsdbAge.age2Bin newLsa.age = s.lsdbAge.age2Bin newLsa.age :=
    age2Bin_congr (clock_entered s newLsa self) _
  change (((entered s newLsa self).placeInBin s.next).lsdbAge.ageBins b).lookup k = _ ↔ _
  unfold OspfLsdb.placeInBin
  simp only [lsaHeader_entered s newLsa self ha, hbin]
  have hnext : s.next < (entered s newLsa self).next :=
    Nat.lt_of_lt_of_eq (Nat.lt_succ_self _)
      (congrArg (· + 1) (removeOld_unchanged s newLsa).2.1).symm
  by_cases hb : IsBin (s.lsdbAge.age2Bin newLsa.age)
  · rw [dif_pos ⟨hnext, hb⟩, lsdbAge_mutate, lsdbAge_withAge, ageBins_changeBin,
      binFree_iff s newLsa hb]
    by_cases hc : b = s.lsdbAge.age2Bin newLsa.age
    · rw [if_pos ⟨hb, hc⟩, lookup_addOspfLsa]
      by_cases hk : k = getLsaKey newLsa
      · simp only [hk, ↓reduceIte, hb, hc, true_and, and_true, Option.some.injEq]
        cases hl : ((s.removeOld newLsa).lsdbAge.ageBins
            (s.lsdbAge.age2Bin newLsa.age)).lookup (getLsaKey newLsa) with
        | none =>
          have hl' : ((entered s newLsa self).lsdbAge.ageBins
            (s.lsdbAge.age2Bin newLsa.age)).lookup (getLsaKey newLsa) = none := hl
          simp [hl']
        | some q =>
          have hl' : ((entered s newLsa self).lsdbAge.ageBins
            (s.lsdbAge.age2Bin newLsa.age)).lookup (getLsaKey newLsa) = some q := hl
          have hq := removeOld_lt s newLsa _ _ _ hl
          simp [hl', Nat.ne_of_lt hq]
      · simp only [hk, ↓reduceIte, and_false, iff_false]
        exact hold _ _
    · simp only [hc, and_false, false_and, ↓reduceIte, iff_false]
      exact hold b k
  · rw [dif_neg fun e => hb e.2]
    simp only [hb, false_and, iff_false]
    exact hold b k

theorem maxAgeBin_addLsa : (s.addLsa newLsa self).lsdbAge.maxAgeBin = s.lsdbAge.maxAgeBin := by
  have hremoved : (s.removeOld newLsa).lsdbAge.maxAgeBin = s.lsdbAge.maxAgeBin := by
    unfold OspfLsdb.removeOld
    split
    · simp [OspfLsdb.removeLsaFromBin]
    · rfl
  rw [← hremoved]
  change ((entered s newLsa self).placeInBin s.next).lsdbAge.maxAgeBin = _
  unfold OspfLsdb.placeInBin
  dsimp only
  split
  · rw [lsdbAge_mutate, lsdbAge_withAge, maxAgeBin_changeBin]
    rfl
  · rfl

/-- Once it is installed the new wrapper is in the bin of its age or in none, and never in the
MaxAge bin. -/
theorem placed_addLsa (ha : newLsa.age < MAXAGE) (hb : IsBin (s.lsdbAge.age2Bin newLsa.age))
    (hf : BinFree s newLsa) :
    Placed (s.addLsa newLsa self).lsdbAge (getLsaKey newLsa) s.next
      (some (s.lsdbAge.age2Bin newLsa.age)) where
  bin b hbin := Option.some.inj hbin ▸ hb
  held b k := by
    rw [held_addLsa_iff s newLsa self ha]
    simp only [hb, hf, true_and, Option.some.injEq]
    constructor
    · rintro ⟨rfl, rfl⟩
      exact ⟨rfl, rfl⟩
    · rintro ⟨rfl, rfl⟩
      exact ⟨rfl, rfl⟩
  fresh k := by
    rw [maxAgeBin_addLsa]
    intro h
    exact Nat.lt_irrefl _ (s.retired k s.next h)

end Insertion

section Life

variable (c : ℕ) (a : ℤ) (self : Bool) (b : ℤ)

def digitAt (n : ℕ) : ℕ := (c + n) % (MAXAGE + 1)

/-- The place of an advertisement after `n` seconds. It was installed with the age `a` in the bin
`b` while the counter read `c`. -/
def placeAt : ℕ → Option ℤ
  | 0 => some b
  | n + 1 => nextPlace (digitAt c n) (ageTold c a n) self (placeAt n)

/-- The second that begins after `n` seconds hands the advertisement over for refresh. -/
def RefreshedAt (n : ℕ) : Prop := placeAt c a self b n = some (refreshBin (digitAt c n)) ∧ self = true

/-- The second that begins after `n` seconds hands the advertisement over at MaxAge. -/
def FlushedAt (n : ℕ) : Prop :=
  placeAt c a self b n = some ((digitAt c n : ℤ) - 1) ∧ ageTold c a n = MAXAGE

instance (n : ℕ) : Decidable (RefreshedAt c a self b n) :=
  inferInstanceAs (Decidable (_ = _ ∧ _ = _))

instance (n : ℕ) : Decidable (FlushedAt c a self b n) :=
  inferInstanceAs (Decidable (_ = _ ∧ _ = _))

/-- The database `n` seconds after the advertisement of the wrapper `w` was installed. -/
structure Stage (s : OspfLsdb) (r : Ref) (w : LsaWrapper) (o : Reading MAXAGE 32) (n : ℕ) : Prop where
  kept : Kept s r w
  clock : s.lsdbAge.clock = Reading.tick^[n] o
  placed : Placed s.lsdbAge (getLsaKey w.lsaHeader) r
    (placeAt o.digit w.lsaAgeReceived w.isSelfOriginated b n)

variable {b} {s : OspfLsdb} {r : Ref} {w : LsaWrapper} {o : Reading MAXAGE 32} {n : ℕ}

theorem stage_step (h : Stage b s r w o n) (hc : w.ageCounterWhenReceived = o.digit)
    (ht : w.ageCounterRollOverWhenAdded = o.turns) {e : Event}
    (he : LeavesAlone s (getLsaKey w.lsaHeader) e) :
    Stage b (s.step e).1 r w o (n + ticks [e]) ∧
      (s.step e).2.count (.REFRESHLSA, r) +
          Nat.count (RefreshedAt o.digit w.lsaAgeReceived w.isSelfOriginated b) n =
        Nat.count (RefreshedAt o.digit w.lsaAgeReceived w.isSelfOriginated b) (n + ticks [e]) ∧
      (s.step e).2.count (.MAXAGELSA, r) +
          Nat.count (FlushedAt o.digit w.lsaAgeReceived w.isSelfOriginated b) n =
        Nat.count (FlushedAt o.digit w.lsaAgeReceived w.isSelfOriginated b) (n + ticks [e]) := by
  have hkept := kept_step h.kept he
  have hclock : (s.step e).1.lsdbAge.clock = Reading.tick^[n + ticks [e]] o := by
    rw [clock_step, h.clock, ← Function.iterate_add_apply, Nat.add_comm]
  by_cases htick : e = .tick
  · subst htick
    have hd : s.lsdbAge.clock.digit = digitAt o.digit n := by
      rw [h.clock]
      exact (read_iterate n o).1
    obtain ⟨hplaced, hrefresh, hmax⟩ := placed_tick h.placed h.kept.2
    rw [hd] at hplaced hrefresh hmax
    rw [currentAge_eq n hc ht h.clock] at hplaced hmax
    refine ⟨⟨hkept, hclock, hplaced⟩, ?_, ?_⟩
    · exact (congrArg (· + _) hrefresh).trans ((Nat.add_comm _ _).trans (Nat.count_succ _ n).symm)
    · exact (congrArg (· + _) hmax).trans ((Nat.add_comm _ _).trans (Nat.count_succ _ n).symm)
  · obtain ⟨hplaced, hnone⟩ := placed_step h.placed h.kept rfl he htick
    have h0 : ticks [e] = 0 := by
      cases e with
      | tick => exact absurd rfl htick
      | addLsa newLsa self => rfl
      | deleteLsa lsaHeader => rfl
      | addLsaToMaxAgeBin q age => rfl
    rw [h0] at hclock ⊢
    refine ⟨⟨hkept, hclock, hplaced⟩, ?_, ?_⟩
    · simp [hnone]
    · simp [hnone]

theorem stage_run (hc : w.ageCounterWhenReceived = o.digit)
    (ht : w.ageCounterRollOverWhenAdded = o.turns) (es : List Event) :
    ∀ (s : OspfLsdb) (n : ℕ), Stage b s r w o n → Undisturbed (getLsaKey w.lsaHeader) s es →
      (s.run es).2.count (.REFRESHLSA, r) +
          Nat.count (RefreshedAt o.digit w.lsaAgeReceived w.isSelfOriginated b) n =
        Nat.count (RefreshedAt o.digit w.lsaAgeReceived w.isSelfOriginated b) (n + ticks es) ∧
      (s.run es).2.count (.MAXAGELSA, r) +
          Nat.count (FlushedAt o.digit w.lsaAgeReceived w.isSelfOriginated b) n =
        Nat.count (FlushedAt o.digit w.lsaAgeReceived w.isSelfOriginated b) (n + ticks es) := by
  induction es with
  | nil =>
    intro s n _ _
    exact ⟨Nat.zero_add _, Nat.zero_add _⟩
  | cons e es ih =>
    intro s n h hu
    obtain ⟨hstage, hrefresh, hmax⟩ := stage_step h hc ht hu.1
    obtain ⟨hrefresh', hmax'⟩ := ih (s.step e).1 (n + ticks [e]) hstage hu.2
    have htotal : n + ticks (e :: es) = n + ticks [e] + ticks es := by
      rw [ticks_cons e es]
      omega
    simp only [OspfLsdb.run, List.count_append]
    rw [htotal]
    constructor
    · omega
    · omega

end Life

section Times

variable {c a : ℕ} {self : Bool} {b : ℤ}

theorem place_eq (c a : ℕ) (self : Bool) (b : ℤ) (n : ℕ) :
    placeAt c a self b n = some b ∨ placeAt c a self b n = none := by
  induction n with
  | zero => exact Or.inl rfl
  | succ n ih =>
    rw [placeAt, nextPlace]
    split
    · exact Or.inr rfl
    · split
      · exact Or.inr rfl
      · exact ih

theorem place_none {m n : ℕ} (hm : placeAt c a self b m = none) (h : m ≤ n) :
    placeAt c a self b n = none := by
  induction n, h using Nat.le_induction with
  | base => exact hm
  | succ n _ ih =>
    rw [placeAt, ih]
    simp [nextPlace]

theorem place_kept {n : ℕ} (h : ∀ i < n, ¬ (refreshBin (digitAt c i) = b ∧ self = true) ∧
      ¬ ((digitAt c i : ℤ) - 1 = b ∧ ageTold c a i = MAXAGE)) : placeAt c a self b n = some b := by
  induction n with
  | zero => rfl
  | succ n ih =>
    have hn := ih fun i hi => h i (Nat.lt_succ_of_lt hi)
    obtain ⟨hr, hf⟩ := h n (Nat.lt_succ_self n)
    rw [placeAt, hn, nextPlace, if_neg, if_neg]
    · rintro ⟨e, hage⟩
      exact hf ⟨(Option.some.inj e).symm, hage⟩
    · rintro ⟨e, hself⟩
      exact hr ⟨(Option.some.inj e).symm, hself⟩

theorem flushedAt_bin {n : ℕ} (h : FlushedAt c a self b n) : (digitAt c n : ℤ) - 1 = b := by
  obtain hp | hp := place_eq c a self b n
  · exact Option.some.inj (h.1.symm.trans hp)
  · exact absurd (hp.symm.trans h.1) (by simp)

theorem refreshedAt_bin {n : ℕ} (h : RefreshedAt c a self b n) : refreshBin (digitAt c n) = b := by
  obtain hp | hp := place_eq c a self b n
  · exact Option.some.inj (h.1.symm.trans hp)
  · exact absurd (hp.symm.trans h.1) (by simp)

theorem count_unique {p : ℕ → Prop} [DecidablePred p] {d : ℕ} (h : ∀ i, p i ↔ i = d) (m : ℕ) :
    Nat.count p m = if d < m then 1 else 0 := by
  induction m with
  | zero => rfl
  | succ m ih =>
    rw [Nat.count_succ, ih]
    by_cases hm : m = d
    · subst hm
      simp [(h m).mpr rfl]
    · have hno : ¬ p m := fun e => hm ((h m).mp e)
      simp only [hno, ↓reduceIte, Nat.add_zero]
      by_cases hd : d < m
      · rw [if_pos hd, if_pos (Nat.lt_succ_of_lt hd)]
      · rw [if_neg hd, if_neg (by omega)]

def binOf (c a : ℕ) : ℤ := if (a : ℤ) ≤ c then (c : ℤ) - a else (MAXAGE - 1) + ((c : ℤ) - a)

theorem flushedAt_iff (ha : a < MAXAGE) (hca : c < a) (n : ℕ) :
    FlushedAt c a false (binOf c a) n ↔ n = MAXAGE - a := by
  have hdue : (digitAt c (MAXAGE - a) : ℤ) - 1 = binOf c a := by
    unfold digitAt binOf MAXAGE at *
    split <;> omega
  have hbefore : ∀ i < MAXAGE - a, (digitAt c i : ℤ) - 1 ≠ binOf c a := by
    intro i hi
    unfold digitAt binOf MAXAGE at *
    split <;> omega
  have hplace : placeAt c a false (binOf c a) (MAXAGE - a) = some (binOf c a) :=
    place_kept fun i hi => ⟨by simp, fun e => hbefore i hi e.1⟩
  have hage : ageTold c a (MAXAGE - a) = MAXAGE := by
    have hn : counted c (MAXAGE - a) = MAXAGE - a := (counted_of_le (by omega)).1
    unfold ageTold
    rw [hn, if_pos (by omega)]
  have hflush : FlushedAt c a false (binOf c a) (MAXAGE - a) := ⟨hdue ▸ hplace, hage⟩
  constructor
  · intro h
    obtain hlt | heq | hgt := Nat.lt_trichotomy n (MAXAGE - a)
    · exact absurd (flushedAt_bin h) (hbefore n hlt)
    · exact heq
    · have hnone : placeAt c a false (binOf c a) (MAXAGE - a + 1) = none := by
        rw [placeAt, nextPlace, if_neg (by simp)]
        exact if_pos hflush
      have hn := place_none hnone (n := n) hgt
      exact absurd (hn.symm.trans h.1) (by simp)
  · rintro rfl
    exact hflush

theorem lt_of_flushedAt (ha : a < MAXAGE)
    (h : FlushedAt c a false (binOf c a) (MAXAGE - a)) : c < a := by
  have hb := flushedAt_bin h
  unfold digitAt binOf MAXAGE at *
  split at hb <;> omega

def refreshDue (a : ℕ) : ℕ := if a ≤ LSREFRESHTIME then LSREFRESHTIME - a else MAXAGE - a

theorem refreshedAt_due (hca : a ≤ c) (hc : c ≤ a + LSREFRESHTIME) (ha : a ≤ LSREFRESHTIME) :
    RefreshedAt c a true (binOf c a) (refreshDue a) ∧
      ∀ i < refreshDue a, ¬ RefreshedAt c a true (binOf c a) i := by
  have hbin : binOf c a = (c : ℤ) - a := if_pos (by omega)
  have hdue : refreshDue a = LSREFRESHTIME - a := if_pos ha
  rw [hbin, hdue]
  have hat : ∀ i ≤ LSREFRESHTIME - a, digitAt c i = c + i := by
    intro i hi
    apply Nat.mod_eq_of_lt
    unfold MAXAGE LSREFRESHTIME at *
    omega
  have hthen : refreshBin (digitAt c (LSREFRESHTIME - a)) = (c : ℤ) - a := by
    rw [hat _ (Nat.le_refl _)]
    unfold refreshBin LSREFRESHTIME at *
    split <;> omega
  have hbefore : ∀ i < LSREFRESHTIME - a, refreshBin (digitAt c i) ≠ (c : ℤ) - a := by
    intro i hi
    rw [hat i (Nat.le_of_lt hi)]
    unfold refreshBin LSREFRESHTIME at *
    split <;> omega
  have hyoung : ∀ i < LSREFRESHTIME - a,
      ¬ ((digitAt c i : ℤ) - 1 = (c : ℤ) - a ∧ ageTold c a i = MAXAGE) := by
    intro i hi
    have hturn : c + i ≤ MAXAGE := by
      unfold MAXAGE LSREFRESHTIME at *
      omega
    obtain ⟨hcount, hzero⟩ := counted_of_le hturn
    rw [hat i (Nat.le_of_lt hi), ageTold, hcount, hzero]
    rintro ⟨hb, hage⟩
    unfold MAXAGE LSREFRESHTIME at *
    split at hage <;> omega
  have hplace : placeAt c a true ((c : ℤ) - a) (LSREFRESHTIME - a) = some ((c : ℤ) - a) :=
    place_kept fun i hi => ⟨fun e => hbefore i hi e.1, hyoung i hi⟩
  refine ⟨⟨hthen ▸ hplace, rfl⟩, ?_⟩
  intro i hi h
  exact hbefore i hi (refreshedAt_bin h)

theorem of_refreshedAt_due (ha : a < MAXAGE) (hc : c ≤ MAXAGE)
    (h : RefreshedAt c a true (binOf c a) (refreshDue a)) :
    a ≤ LSREFRESHTIME ∧ a ≤ c ∧ c ≤ a + LSREFRESHTIME := by
  have hb := refreshedAt_bin h
  unfold refreshBin digitAt binOf refreshDue MAXAGE LSREFRESHTIME at *
  split at hb <;> split at hb <;> omega

theorem flushed_in_time_iff (ha : a < MAXAGE) :
    (∀ n, Nat.count (FlushedAt c a false (binOf c a)) n = if MAXAGE - a < n then 1 else 0) ↔
      c < a := by
  constructor
  · intro h
    have hnow := h (MAXAGE - a)
    have hthen := h (MAXAGE - a + 1)
    rw [if_neg (Nat.lt_irrefl _)] at hnow
    rw [if_pos (Nat.lt_succ_self _), Nat.count_succ, hnow] at hthen
    have hflush : FlushedAt c a false (binOf c a) (MAXAGE - a) := by
      by_contra hno
      rw [if_neg hno] at hthen
      cases hthen
    exact lt_of_flushedAt ha hflush
  · intro h n
    exact count_unique (flushedAt_iff ha h) n

theorem refreshed_in_time_iff (ha : a < MAXAGE) (hc : c ≤ MAXAGE) :
    (∀ n, 0 < Nat.count (RefreshedAt c a true (binOf c a)) n ↔ refreshDue a < n) ↔
      a ≤ LSREFRESHTIME ∧ a ≤ c ∧ c ≤ a + LSREFRESHTIME := by
  constructor
  · intro h
    have hnow := (h (refreshDue a)).not.mpr (Nat.lt_irrefl _)
    have hthen := (h (refreshDue a + 1)).mpr (Nat.lt_succ_self _)
    have hrefresh : RefreshedAt c a true (binOf c a) (refreshDue a) := by
      by_contra hno
      rw [Nat.count_succ, if_neg hno] at hthen
      exact hnow hthen
    exact of_refreshedAt_due ha hc hrefresh
  · rintro ⟨hyoung, hca, hc'⟩ n
    obtain ⟨hat, hbefore⟩ := refreshedAt_due hca hc' hyoung
    constructor
    · intro hpos
      by_contra hno
      have hzero := (Nat.count_iff_forall_not (n := n)).mpr fun i hi =>
        hbefore i (Nat.lt_of_lt_of_le hi (Nat.le_of_not_lt hno))
      omega
    · intro hlt
      by_contra hno
      exact Nat.count_iff_forall_not.mp (Nat.eq_zero_of_not_pos hno) (refreshDue a) hlt hat

end Times

/-- What is handed over, in `n` seconds, of an advertisement that was installed at the age `a`:
MaxAge once its time has come and not again, or the refresh. -/
def HandedInTime (a : ℕ) (self : Bool) (n : ℕ) (handed : HandedOver) (r : Ref) : Prop :=
  (self = false → handed.count (.MAXAGELSA, r) = if MAXAGE - a < n then 1 else 0) ∧
    (self = true → ((.REFRESHLSA, r) ∈ handed ↔ refreshDue a < n))

section Runs

variable (s : OspfLsdb) (newLsa : LsaHeader) (self : Bool)

theorem handed_run (ha : newLsa.age < MAXAGE) (hb : IsBin (s.lsdbAge.age2Bin newLsa.age))
    (hf : BinFree s newLsa) {es : List Event}
    (hu : Undisturbed (getLsaKey newLsa) (s.addLsa newLsa self) es) :
    ((s.addLsa newLsa self).run es).2.count (.REFRESHLSA, s.next) =
        Nat.count (RefreshedAt s.lsdbAge.clock.digit newLsa.age self
          (s.lsdbAge.age2Bin newLsa.age)) (ticks es) ∧
      ((s.addLsa newLsa self).run es).2.count (.MAXAGELSA, s.next) =
        Nat.count (FlushedAt s.lsdbAge.clock.digit newLsa.age self
          (s.lsdbAge.age2Bin newLsa.age)) (ticks es) := by
  obtain ⟨b, hkept⟩ := kept_addLsa s newLsa self
  have hstage : Stage (s.lsdbAge.age2Bin newLsa.age) (s.addLsa newLsa self) s.next
      { s.newWrapper newLsa self with binNumber := b } s.lsdbAge.clock 0 :=
    ⟨hkept, (addLsa_unchanged s newLsa self).2.1, placed_addLsa s newLsa self ha hb hf⟩
  obtain ⟨hrefresh, hmax⟩ := stage_run rfl rfl es _ 0 hstage hu
  rw [Nat.zero_add] at hrefresh hmax
  exact ⟨hrefresh, hmax⟩

def seconds (n : ℕ) : List Event := List.replicate n .tick

theorem ticks_seconds (n : ℕ) : ticks (seconds n) = n := by
  unfold seconds
  induction n with
  | zero => rfl
  | succ n ih => rw [List.replicate_succ, ticks, ih]

theorem undisturbed_seconds (key : String) (n : ℕ) :
    ∀ s : OspfLsdb, Undisturbed key s (seconds n) := by
  unfold seconds
  induction n with
  | zero =>
    intro s
    trivial
  | succ n ih =>
    intro s
    exact ⟨trivial, ih _⟩

end Runs

end LsaBins

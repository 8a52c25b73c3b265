import Onos.LsaAging
import Onos.ReceivedLsas

/-! The instance of an advertisement that is stored while advertisements are received: when it is
the newest of them. -/
namespace NewestLsas

open KeyedMap LinkStateDatabase LinkStateHeaders LsaAging ReceivedLsas

section Stored

variable (s : OspfLsdb)

def stored (t : OspfLsaType) (k : String) : Option LsaHeader := ((s.lsas t).lookup k).map s.lsaHeader

def Dated : Prop := ∀ r < s.next, (s.wrappers r).ageCounterWhenReceived ≤ MAXAGE

variable {s} {s' : OspfLsdb}

theorem stored_lsaLookup {h : LsaHeader} (hknown : h.getOspfLsaType ≠ .UNDEFINED) :
    (s.lsaLookup h).map s.lsaHeader = stored s h.getOspfLsaType (getLsaKey h) := by
  rw [OspfLsdb.lsaLookup, findLsa_eq s hknown, stored]
  rfl

theorem lsaHeader_congr {q : Ref} (hclock : s'.lsdbAge.clock = s.lsdbAge.clock)
    (hw : ∃ b, s'.wrappers q = { s.wrappers q with binNumber := b }) :
    s'.lsaHeader q = s.lsaHeader q := by
  obtain ⟨b, hb⟩ := hw
  rw [OspfLsdb.lsaHeader, OspfLsdb.lsaHeader, hb]
  have hage : ({ s.wrappers q with binNumber := b } : LsaWrapper).currentAge s'.lsdbAge =
      (s.wrappers q).currentAge s.lsdbAge := by
    unfold LsaWrapper.currentAge LsdbAge.ageCounter LsdbAge.ageCounterRollOver
    rw [hclock]
  rw [hage]

theorem stored_congr (hclock : s'.lsdbAge.clock = s.lsdbAge.clock) {t : OspfLsaType} {k : String}
    (hlookup : (s'.lsas t).lookup k = (s.lsas t).lookup k)
    (hw : ∀ q, (s.lsas t).lookup k = some q →
      ∃ b, s'.wrappers q = { s.wrappers q with binNumber := b }) : stored s' t k = stored s t k := by
  rw [stored, stored, hlookup]
  cases h : (s.lsas t).lookup k with
  | none => rfl
  | some q => exact congrArg some (lsaHeader_congr hclock (hw q h))

theorem wrappers_addLsaToMaxAgeBin (r q : Ref) :
    ∃ b, (s.addLsaToMaxAgeBin r).wrappers q = { s.wrappers q with binNumber := b } := by
  unfold OspfLsdb.addLsaToMaxAgeBin
  dsimp only
  split
  · rw [wrappers_mutate]
    split
    · rename_i hq
      rw [hq]
      exact ⟨_, rfl⟩
    · exact ⟨_, rfl⟩
  · exact ⟨_, rfl⟩

theorem stored_retire (r : Ref) (t : OspfLsaType) (k : String) :
    stored (retire s r) t k = stored s t k := by
  obtain ⟨_, hlsas, hclock, _, _⟩ := addLsaToMaxAgeBin_unchanged s r
  apply stored_congr
  · rw [retire, clock_removeLsaFromBin, hclock]
  · rw [retire, lsas_removeLsaFromBin, hlsas]
  · intro q _
    rw [retire, wrappers_removeLsaFromBin]
    exact wrappers_addLsaToMaxAgeBin r q

theorem currentAge_newWrapper (newLsa : LsaHeader) (self : Bool) :
    (s.newWrapper newLsa self).currentAge s.lsdbAge =
      if newLsa.age ≥ MAXAGE then (MAXAGE : ℤ) else newLsa.age := by
  unfold LsaWrapper.currentAge OspfLsdb.newWrapper
  simp

theorem stored_addLsa {newLsa : LsaHeader} (hknown : newLsa.getOspfLsaType ≠ .UNDEFINED) (self : Bool)
    (t : OspfLsaType) (k : String) :
    stored (s.addLsa newLsa self) t k =
      if t = newLsa.getOspfLsaType ∧ k = getLsaKey newLsa then
        some (newLsa.setAge (if newLsa.age ≥ MAXAGE then (MAXAGE : ℤ) else newLsa.age))
      else stored s t k := by
  obtain ⟨_, hclock, hwrappers⟩ := addLsa_unchanged s newLsa self
  by_cases hkey : t = newLsa.getOspfLsaType ∧ k = getLsaKey newLsa
  · obtain ⟨rfl, rfl⟩ := hkey
    obtain ⟨b, _, hnew⟩ := kept_addLsa s newLsa self
    rw [if_pos ⟨rfl, rfl⟩, ← stored_lsaLookup hknown, lookup_addLsa s newLsa self hknown, Option.map_some,
      OspfLsdb.lsaHeader, hnew, ← currentAge_newWrapper newLsa self]
    have hage : ({ s.newWrapper newLsa self with binNumber := b } : LsaWrapper).currentAge
        (s.addLsa newLsa self).lsdbAge = (s.newWrapper newLsa self).currentAge s.lsdbAge := by
      unfold LsaWrapper.currentAge LsdbAge.ageCounter LsdbAge.ageCounterRollOver
      rw [hclock]
    rw [hage]
    rfl
  · rw [if_neg hkey]
    apply stored_congr hclock
    · have hplaced := placeInBin_unchanged
        ((s.removeOld newLsa).putLsa (s.newWrapper newLsa self)) s.next
      rw [OspfLsdb.addLsa, hplaced.2.1, lsas_putLsa, (removeOld_unchanged s newLsa).2.2.1]
      split
      · rename_i ht
        rw [lookup_insert, if_neg]
        exact fun hk => hkey ⟨ht.1, hk⟩
      · rfl
    · intro q hq
      rw [hwrappers q (s.named t k q hq).1]
      exact ⟨_, rfl⟩

theorem stored_setLsaAgeReceived (hdated : Dated s) {h : LsaHeader} {r : Ref}
    (hknown : h.getOspfLsaType ≠ .UNDEFINED) (hr : s.lsaLookup h = some r) (t : OspfLsaType)
    (k : String) :
    stored (s.setLsaAgeReceived r MAXAGE) t k =
      if t = h.getOspfLsaType ∧ k = getLsaKey h then some ((s.lsaHeader r).setAge MAXAGE)
      else stored s t k := by
  rw [OspfLsdb.lsaLookup, findLsa_eq s hknown] at hr
  by_cases hkey : t = h.getOspfLsaType ∧ k = getLsaKey h
  · obtain ⟨rfl, rfl⟩ := hkey
    have hr' : (s.lsas h.getOspfLsaType).lookup (getLsaKey h) = some r := hr
    have hage : ({ s.wrappers r with lsaAgeReceived := (MAXAGE : ℤ) } : LsaWrapper).currentAge s.lsdbAge =
        (MAXAGE : ℤ) := by
      have hcounter : 0 ≤ s.lsdbAge.ageCounter := Int.natCast_nonneg _
      have hreceived := hdated r (s.named _ _ r hr).1
      unfold LsaWrapper.currentAge
      dsimp only
      split
      · rw [if_pos (by omega)]
      · rw [if_pos (by omega)]
    rw [if_pos ⟨rfl, rfl⟩, stored, OspfLsdb.setLsaAgeReceived, lsas_mutate, hr', Option.map_some,
      OspfLsdb.lsaHeader, wrappers_mutate, if_pos rfl, lsdbAge_mutate, hage]
    rfl
  · rw [if_neg hkey]
    apply stored_congr
    · rfl
    · rfl
    · intro q hq
      have hne : q ≠ r := by
        rintro rfl
        obtain ⟨_, hk, ht⟩ := s.named t k q hq
        obtain ⟨_, hk', ht'⟩ := s.named _ _ q hr
        exact hkey ⟨ht.symm.trans ht', hk.symm.trans hk'⟩
      rw [OspfLsdb.setLsaAgeReceived, wrappers_mutate, if_neg hne]
      exact ⟨_, rfl⟩

end Stored

section Initially

variable (clock : Odometer.Reading MAXAGE 32)

theorem stored_initial (t : OspfLsaType) (k : String) : stored (OspfLsdb.initial clock) t k = none := rfl

theorem lsaLookup_initial (h : LsaHeader) : (OspfLsdb.initial clock).lsaLookup h = none := by
  unfold OspfLsdb.lsaLookup OspfLsdb.findLsa
  split <;> rfl

end Initially

section Dates

variable {s : OspfLsdb} (h : Dated s)

theorem dated_initial (clock : Odometer.Reading MAXAGE 32) : Dated (OspfLsdb.initial clock) := by
  intro r hr
  exact absurd hr (Nat.not_lt_zero r)

include h

theorem dated_congr {s' : OspfLsdb} (hnext : s'.next = s.next)
    (hw : ∀ q < s.next, (s'.wrappers q).ageCounterWhenReceived =
      (s.wrappers q).ageCounterWhenReceived) : Dated s' := by
  intro q hq
  rw [hnext] at hq
  rw [hw q hq]
  exact h q hq

theorem dated_addLsa (newLsa : LsaHeader) (self : Bool) : Dated (s.addLsa newLsa self) := by
  obtain ⟨hnext, _, hwrappers⟩ := addLsa_unchanged s newLsa self
  intro q hq
  rw [hnext] at hq
  obtain rfl | hold := Nat.eq_or_lt_of_le (Nat.lt_succ_iff.mp hq)
  · obtain ⟨b, _, hnew⟩ := kept_addLsa s newLsa self
    rw [hnew]
    have hdigit := s.lsdbAge.clock.digit_le
    have hcounter : s.lsdbAge.ageCounter ≤ MAXAGE := Int.ofNat_le.mpr hdigit
    exact hcounter
  · rw [hwrappers q hold]
    exact h q hold

theorem dated_retire (r : Ref) : Dated (retire s r) := by
  apply dated_congr h
  · rw [retire, next_removeLsaFromBin, (addLsaToMaxAgeBin_unchanged s r).1]
  · intro q _
    obtain ⟨b, hb⟩ := wrappers_addLsaToMaxAgeBin (s := s) r q
    rw [retire, wrappers_removeLsaFromBin, hb]

theorem dated_setLsaAgeReceived (r : Ref) (age : ℤ) : Dated (s.setLsaAgeReceived r age) := by
  apply dated_congr h
  · rfl
  · intro q _
    rw [OspfLsdb.setLsaAgeReceived, wrappers_mutate]
    split
    · rename_i hq
      rw [hq]
    · rfl

theorem dated_ageLsaAndFlood : Dated s.ageLsaAndFlood.1 := by
  obtain ⟨hwrappers, hnext, _⟩ := ageLsaAndFlood_unchanged s
  apply dated_congr h hnext
  intro q _
  rw [hwrappers]

end Dates

section Comparing

/-- Which of two instances of an advertisement is newer, by section 13.1 of RFC 2328. -/
def IsNewer (lsa1 lsa2 : LsaHeader) : Prop :=
  lsa1.lsSequenceNo > lsa2.lsSequenceNo ∨ (lsa1.lsSequenceNo = lsa2.lsSequenceNo ∧
    (lsa1.lsCheckSum > lsa2.lsCheckSum ∨ (lsa1.lsCheckSum = lsa2.lsCheckSum ∧
      ((lsa1.age = MAXAGE ∧ lsa2.age ≠ MAXAGE) ∨
        (lsa1.age ≠ MAXAGE ∧ lsa2.age ≠ MAXAGE ∧ lsa2.age - lsa1.age > MAXAGEDIFF)))))

/-- What stays comparable while the ages grow: the sequence number, and then the checksum. -/
def IsAtLeast (lsa1 lsa2 : LsaHeader) : Prop :=
  lsa1.lsSequenceNo > lsa2.lsSequenceNo ∨
    (lsa1.lsSequenceNo = lsa2.lsSequenceNo ∧ lsa1.lsCheckSum ≥ lsa2.lsCheckSum)

variable {lsa1 lsa2 lsa3 : LsaHeader}

theorem isAtLeast_of_isNewer (h : IsNewer lsa1 lsa2) : IsAtLeast lsa1 lsa2 := by
  unfold IsNewer at h
  unfold IsAtLeast
  omega

theorem isAtLeast_of_not_isNewer (h : ¬ IsNewer lsa1 lsa2) : IsAtLeast lsa2 lsa1 := by
  unfold IsNewer at h
  unfold IsAtLeast
  omega

theorem IsAtLeast.trans (h₁ : IsAtLeast lsa1 lsa2) (h₂ : IsAtLeast lsa2 lsa3) :
    IsAtLeast lsa1 lsa3 := by
  unfold IsAtLeast at *
  omega

theorem isAtLeast_setAge (age : ℤ) : IsAtLeast (lsa1.setAge age) lsa1 :=
  .inr ⟨rfl, Int.le_refl _⟩

end Comparing

section Conditions

variable (c : Surroundings) (s : OspfLsdb) (recLsa : LsaHeader)

def IsOwnRouterLsa : Prop :=
  recLsa.lsType = OspfLsaType.ROUTER.value ∧ recLsa.advertisingRouter = c.routerId

def IsOwnNetworkLsa : Prop :=
  recLsa.lsType = OspfLsaType.NETWORK.value ∧
    isLinkStateMatchesOwnRouterId c recLsa.linkStateId = true

/-- The advertisement is not to be stored: it fails a check, nobody asked for it at its age, or the
router once sent it for a network and has it flushed. -/
def IsTurnedAway : Prop :=
  IsDiscarded c recLsa ∨ IsUnrequested c s recLsa ∨
    (IsOwnNetworkLsa c recLsa ∧ (c.state ≠ .DR ∨ recLsa.advertisingRouter ≠ c.routerId) ∧
      s.lsaLookup recLsa = none)

/-- The component for devices and links throws nothing, and a backup router knows the designated one
of its neighbor. -/
structure Shows : Prop where
  addLocalDevice : ∀ lsa, c.addLocalDevice lsa = true
  callDeviceAndLinkAdding : ∀ lsas, c.callDeviceAndLinkAdding lsas = true
  neighborDr : c.state = .BDR → c.neighborDr ≠ none

def instanceOf : Option LsaHeader := stored s recLsa.getOspfLsaType (getLsaKey recLsa)

/-- The network advertisement that the router answers with is newer than the one that is stored. -/
def NetworkAdvances : Prop :=
  c.state = .DR → c.hasNeighbors = true →
    ∀ h, stored s .NETWORK (keyOf OspfLsaType.NETWORK.value c.ipAddress.text c.routerId.text) = some h →
      h.lsSequenceNo < s.networkLsaSeqNo

inductive Sound : Prop where
  | turnedAway (h : IsTurnedAway c s recLsa)
  | known {h : LsaHeader} (hstored : instanceOf s recLsa = some h)
      (hold : isNewerOrSameLsa recLsa h ≠ .latest) (hnot : ¬ IsNewer recLsa h) (hshows : Shows c)
  | answered {h : LsaHeader} (hstored : instanceOf s recLsa = some h) (hown : IsOwnRouterLsa c recLsa)
      (hseq : recLsa.lsSequenceNo > h.lsSequenceNo) (hid : recLsa.linkStateId = c.routerId.text)
      (hbuilt : ∀ lsa, c.encode lsa ≠ none) (hnetwork : NetworkAdvances c s)
  | aged {h : LsaHeader} (hstored : instanceOf s recLsa = some h)
      (hlatest : isNewerOrSameLsa recLsa h = .latest) (hrouter : ¬ IsOwnRouterLsa c recLsa)
      (hown : ¬ IsOwnNetworkLsa c recLsa) (hage : recLsa.age = MAXAGE)
      (hseq : recLsa.lsSequenceNo = h.lsSequenceNo) (hsum : recLsa.lsCheckSum = h.lsCheckSum)
  | installed (hlatest : ∀ h, instanceOf s recLsa = some h → isNewerOrSameLsa recLsa h = .latest)
      (hrouter : ¬ IsOwnRouterLsa c recLsa) (hown : ¬ IsOwnNetworkLsa c recLsa)
      (hage : recLsa.age ≠ MAXAGE) (hshows : Shows c)

/-- What may become of the instance of a key: it stays, a newer one comes, or it is aged by an
instance of age MaxAge. -/
inductive IsSuccessor (t : OspfLsaType) (k : String) (old : Option LsaHeader) :
    Option LsaHeader → Prop where
  | kept : IsSuccessor t k old old
  | newer {h' : LsaHeader} (h : ∀ h, old = some h → IsNewer h' h) : IsSuccessor t k old (some h')
  | aged {h : LsaHeader} (hold : old = some h) (hage : recLsa.age = MAXAGE)
      (htype : t = recLsa.getOspfLsaType) (hkey : k = getLsaKey recLsa) :
      IsSuccessor t k old (some (h.setAge MAXAGE))

structure Progress : Prop where
  returns : (processReceivedLsa c s recLsa).thrown = none
  successor : ∀ t k,
    IsSuccessor recLsa t k (stored s t k) (stored (processReceivedLsa c s recLsa).database t k)
  newest : ¬ IsTurnedAway c s recLsa →
    ∃ h, instanceOf (processReceivedLsa c s recLsa).database recLsa = some h ∧ ¬ IsNewer recLsa h

end Conditions

section Outcomes

variable {c : Surroundings} {s s' s'' : OspfLsdb} {recLsa : LsaHeader}

def Leaves (o : Outcome) (s : OspfLsdb) : Prop := o.thrown = none ∧ o.database = s

theorem leaves_returned (effects : List Effect) : Leaves (.returned s effects) s := ⟨rfl, rfl⟩

theorem Leaves.andThen {o : Outcome} {next : OspfLsdb → Outcome} (h : Leaves o s)
    (hnext : Leaves (next s) s') : Leaves (o.andThen next) s' := by
  obtain ⟨hthrown, rfl⟩ := h
  unfold Outcome.andThen
  rw [hthrown]
  exact hnext

theorem leaves_addDevices (h : Shows c) (lsas : List LsaHeader) : Leaves (addDevices c s lsas) s := by
  have hall : lsas.all c.addLocalDevice = true := List.all_eq_true.mpr fun lsa _ => h.addLocalDevice lsa
  rw [addDevices, if_pos ⟨hall, h.callDeviceAndLinkAdding lsas⟩]
  exact leaves_returned []

theorem leaves_acknowledgeAtBdr (h : Shows c) (hstate : c.state = .BDR) (address : Ip4Address) :
    Leaves (acknowledgeAtBdr c s recLsa address) s := by
  obtain ⟨neighborDr, hdr⟩ := Option.ne_none_iff_exists'.mp (h.neighborDr hstate)
  rw [acknowledgeAtBdr, hdr]
  exact leaves_returned _

theorem leaves_receiveSame (h : Shows c) : Leaves (receiveSame c s recLsa) s := by
  unfold receiveSame
  by_cases hpending : getLsaKey recLsa ∈ c.pendingReTxList
  · have hack : Leaves (if c.state = .BDR then acknowledgeAtBdr c s recLsa recLsa.advertisingRouter
        else .returned s []) s := by
      split_ifs with hstate
      · exact leaves_acknowledgeAtBdr h hstate _
      · exact leaves_returned []
    rw [if_pos hpending]
    exact ((leaves_returned _).andThen hack).andThen (leaves_addDevices h _)
  · rw [if_neg hpending]
    exact leaves_returned _

theorem leaves_receiveOld (h : Shows c) (r : Ref) : Leaves (receiveOld c s (some r) recLsa) s := by
  unfold receiveOld
  split_ifs with hend
  · exact leaves_returned []
  · exact (leaves_returned _).andThen (leaves_addDevices h _)

theorem leaves_installReceived (h : Shows c) :
    Leaves (installReceived c s recLsa) (s.addLsa recLsa false) := by
  have hack : Leaves (if c.state = .BDR then
      acknowledgeAtBdr c (s.addLsa recLsa false) recLsa c.sourceIp
      else .returned (s.addLsa recLsa false) [.addLsaHeaderForDelayAck recLsa])
      (s.addLsa recLsa false) := by
    split_ifs with hstate
    · exact leaves_acknowledgeAtBdr h hstate _
    · exact leaves_returned _
  exact (leaves_addDevices h _).andThen (hack.andThen
    ((leaves_returned _).andThen (leaves_addDevices h _)))

end Outcomes

section Answers

variable {c : Surroundings} {s : OspfLsdb}

theorem routerLsaSeqNo_addLsa (newLsa : LsaHeader) (self : Bool) :
    (s.addLsa newLsa self).routerLsaSeqNo = s.routerLsaSeqNo := by
  have hold : (s.removeOld newLsa).routerLsaSeqNo = s.routerLsaSeqNo := by
    unfold OspfLsdb.removeOld
    split <;> rfl
  rw [← hold]
  unfold OspfLsdb.addLsa OspfLsdb.placeInBin
  dsimp only
  split <;> rfl

section

variable (hbuilt : ∀ lsa, c.encode lsa ≠ none)

include hbuilt

theorem installOwn_encoded (lsa : LsaHeader) (hknown : lsa.getOspfLsaType ≠ .UNDEFINED) :
    ∃ s', Leaves (installOwn s (encoded c lsa)) s' ∧ s'.routerLsaSeqNo = s.routerLsaSeqNo ∧
      (Dated s → Dated s') ∧
      (∃ h', stored s' lsa.getOspfLsaType (getLsaKey lsa) = some h' ∧
        h'.lsSequenceNo = lsa.lsSequenceNo) ∧
      ∀ t k, ¬ (t = lsa.getOspfLsaType ∧ k = getLsaKey lsa) → stored s' t k = stored s t k := by
  obtain ⟨e, he⟩ := Option.ne_none_iff_exists'.mp (hbuilt lsa)
  have hencoded : encoded c lsa = some { lsa with lsPacketLen := e.1, lsCheckSum := e.2 } := by
    rw [encoded, he]
    rfl
  have hknown' : ({ lsa with lsPacketLen := e.1, lsCheckSum := e.2 } : LsaHeader).getOspfLsaType ≠
      .UNDEFINED := hknown
  refine ⟨_, ?_, routerLsaSeqNo_addLsa { lsa with lsPacketLen := e.1, lsCheckSum := e.2 } true, ?_,
    ?_, ?_⟩
  · rw [hencoded]
    exact leaves_returned _
  · intro hdated
    exact dated_addLsa hdated _ true
  · exact ⟨_, (stored_addLsa hknown' true _ _).trans (if_pos ⟨rfl, rfl⟩), rfl⟩
  · intro t k hother
    exact (stored_addLsa hknown' true t k).trans (if_neg hother)

theorem refreshNetwork_cases :
    ∃ s', Leaves (refreshNetwork c s) s' ∧ s'.routerLsaSeqNo = s.routerLsaSeqNo ∧
      (Dated s → Dated s') ∧ ∀ t k, stored s' t k = stored s t k ∨
        (t = .NETWORK ∧ k = keyOf OspfLsaType.NETWORK.value c.ipAddress.text c.routerId.text ∧
          c.state = .DR ∧ c.hasNeighbors = true ∧
          ∃ h', stored s' t k = some h' ∧ h'.lsSequenceNo = s.networkLsaSeqNo) := by
  by_cases hsends : c.state = .DR ∧ c.hasNeighbors = true
  · obtain ⟨s', hleaves, hseq, hdated, hown, hother⟩ := installOwn_encoded hbuilt
      (s := { s with networkLsaSeqNo := s.networkLsaSeqNo + 1 })
      ⟨1, 2, OspfLsaType.NETWORK.value, c.ipAddress.text, 0, 0, c.routerId, s.networkLsaSeqNo, 0, 0⟩
      (by intro hno; cases hno)
    refine ⟨s', ?_, hseq, hdated, ?_⟩
    · rw [refreshNetwork, if_pos hsends]
      exact hleaves
    · intro t k
      by_cases hkey : t = .NETWORK ∧
          k = keyOf OspfLsaType.NETWORK.value c.ipAddress.text c.routerId.text
      · obtain ⟨rfl, rfl⟩ := hkey
        exact .inr ⟨rfl, rfl, hsends.1, hsends.2, hown⟩
      · exact .inl (hother t k hkey)
  · refine ⟨s, ?_, rfl, id, fun t k => .inl rfl⟩
    rw [refreshNetwork, if_neg hsends]
    exact leaves_returned []

theorem refreshRouter_cases : ∃ s', Leaves (refreshRouter c s) s' ∧ (Dated s → Dated s') ∧
      (∃ h', stored s' .ROUTER (keyOf OspfLsaType.ROUTER.value c.routerId.text c.routerId.text) =
        some h' ∧ h'.lsSequenceNo = s.routerLsaSeqNo) ∧
      ∀ t k, ¬ (t = .ROUTER ∧ k = keyOf OspfLsaType.ROUTER.value c.routerId.text c.routerId.text) →
        stored s' t k = stored s t k := by
  obtain ⟨s', hleaves, _, hdated, hown, hother⟩ := installOwn_encoded hbuilt
    (s := { s with routerLsaSeqNo := s.routerLsaSeqNo + 1 })
    ⟨1, c.options, OspfLsaType.ROUTER.value, c.routerId.text, 0, 0, c.routerId, s.routerLsaSeqNo, 0, 0⟩
    (by intro hno; cases hno)
  exact ⟨s', hleaves, hdated, hown, hother⟩

theorem refreshArea_cases (hnetwork : NetworkAdvances c s) :
    ∃ s', Leaves (refreshArea c s) s' ∧ (Dated s → Dated s') ∧
      (∃ h', stored s' .ROUTER (keyOf OspfLsaType.ROUTER.value c.routerId.text c.routerId.text) =
        some h' ∧ h'.lsSequenceNo = s.routerLsaSeqNo) ∧
      ∀ t k, ¬ (t = .ROUTER ∧ k = keyOf OspfLsaType.ROUTER.value c.routerId.text c.routerId.text) →
        stored s' t k = stored s t k ∨
          ∃ h', stored s' t k = some h' ∧ ∀ h, stored s t k = some h → IsNewer h' h := by
  obtain ⟨s₁, hleaves₁, hseq₁, hdated₁, hstored₁⟩ := refreshNetwork_cases (s := s) hbuilt
  obtain ⟨s₂, hleaves₂, hdated₂, hown, hother⟩ := refreshRouter_cases (s := s₁) hbuilt
  rw [hseq₁] at hown
  refine ⟨s₂, hleaves₁.andThen hleaves₂, fun hdated => hdated₂ (hdated₁ hdated), hown, ?_⟩
  intro t k hkey
  rw [hother t k hkey]
  obtain hsame | ⟨rfl, rfl, hstate, hneighbors, h', hh', hseq⟩ := hstored₁ t k
  · exact .inl hsame
  · refine .inr ⟨h', hh', ?_⟩
    intro h hh
    have hlt := hnetwork hstate hneighbors h hh
    exact .inl (by omega)

end

end Answers

section Receptions

variable {c : Surroundings} {s s' : OspfLsdb} {recLsa : LsaHeader}

theorem known_of_not_isDiscarded (h : ¬ IsDiscarded c recLsa) : recLsa.getOspfLsaType ≠ .UNDEFINED := by
  intro hundefined
  apply h
  refine .inr (.inl (.inr ?_))
  rw [hundefined]
  decide

theorem process_eq (hdiscarded : ¬ IsDiscarded c recLsa) (hrequested : ¬ IsUnrequested c s recLsa) :
    processReceivedLsa c s recLsa = match isNullorLatest s (s.lsaLookup recLsa) recLsa with
      | .latest => receiveLatest c s (s.lsaLookup recLsa) recLsa
      | .same => receiveSame c s recLsa
      | .old => receiveOld c s (s.lsaLookup recLsa) recLsa := by
  unfold processReceivedLsa
  exact (if_neg hdiscarded).trans (if_neg hrequested)

theorem process_latest (hdiscarded : ¬ IsDiscarded c recLsa) (hrequested : ¬ IsUnrequested c s recLsa)
    (hlatest : isNullorLatest s (s.lsaLookup recLsa) recLsa = .latest) :
    processReceivedLsa c s recLsa = receiveLatest c s (s.lsaLookup recLsa) recLsa := by
  rw [process_eq hdiscarded hrequested, hlatest]

theorem receiveLatest_router (h : IsOwnRouterLsa c recLsa) (lsWrapper : Option Ref) :
    receiveLatest c s lsWrapper recLsa = receiveOwnRouterLsa c s lsWrapper recLsa := if_pos h

theorem receiveLatest_network (hrouter : ¬ IsOwnRouterLsa c recLsa) (h : IsOwnNetworkLsa c recLsa)
    (lsWrapper : Option Ref) :
    receiveLatest c s lsWrapper recLsa = receiveOwnNetworkLsa c s lsWrapper recLsa :=
  (if_neg hrouter).trans (if_pos h)

theorem receiveLatest_other (hrouter : ¬ IsOwnRouterLsa c recLsa) (hown : ¬ IsOwnNetworkLsa c recLsa)
    (lsWrapper : Option Ref) : receiveLatest c s lsWrapper recLsa =
      if recLsa.age = MAXAGE then receiveMaxAgeLsa s lsWrapper recLsa
      else installReceived c s recLsa :=
  (if_neg hrouter).trans (if_neg hown)

theorem lookup_of_instanceOf (hknown : recLsa.getOspfLsaType ≠ .UNDEFINED) {h : LsaHeader}
    (hstored : instanceOf s recLsa = some h) : ∃ r, s.lsaLookup recLsa = some r ∧ s.lsaHeader r = h := by
  rw [instanceOf, ← stored_lsaLookup hknown] at hstored
  exact Option.map_eq_some_iff.mp hstored

theorem progress_of_leaves (hleaves : Leaves (processReceivedLsa c s recLsa) s')
    (hsuccessor : ∀ t k, IsSuccessor recLsa t k (stored s t k) (stored s' t k))
    (hnewest : ¬ IsTurnedAway c s recLsa → ∃ h, instanceOf s' recLsa = some h ∧ ¬ IsNewer recLsa h) :
    Progress c s recLsa := by
  obtain ⟨hthrown, rfl⟩ := hleaves
  exact ⟨hthrown, hsuccessor, hnewest⟩

theorem isSuccessor_of_eq {t : OspfLsaType} {k : String} {old new : Option LsaHeader} (h : new = old) :
    IsSuccessor recLsa t k old new := by
  rw [h]
  exact .kept

theorem leaves_turnedAway (h : IsTurnedAway c s recLsa) : Leaves (processReceivedLsa c s recLsa) s := by
  by_cases hdiscarded : IsDiscarded c recLsa
  · rw [processReceivedLsa, if_pos hdiscarded]
    exact leaves_returned []
  by_cases hrequested : IsUnrequested c s recLsa
  · rw [processReceivedLsa, if_neg hdiscarded, if_pos hrequested]
    exact leaves_returned _
  obtain hno | hno | ⟨hown, hflush, hnone⟩ := h
  · exact absurd hno hdiscarded
  · exact absurd hno hrequested
  · have hrouter : ¬ IsOwnRouterLsa c recLsa := by
      rintro ⟨hrouter, _⟩
      have hnetwork := hown.1
      rw [hrouter] at hnetwork
      exact absurd hnetwork (by decide)
    rw [process_latest hdiscarded hrequested (by rw [hnone]; rfl), hnone,
      receiveLatest_network hrouter hown, receiveOwnNetworkLsa, if_pos hflush]
    exact leaves_returned _

theorem leaves_known (hdiscarded : ¬ IsDiscarded c recLsa) (hrequested : ¬ IsUnrequested c s recLsa)
    {r : Ref} (hr : s.lsaLookup recLsa = some r)
    (hold : isNewerOrSameLsa recLsa (s.lsaHeader r) ≠ .latest) (hshows : Shows c) :
    Leaves (processReceivedLsa c s recLsa) s := by
  rw [process_eq hdiscarded hrequested, hr]
  have hstatus : isNullorLatest s (some r) recLsa = isNewerOrSameLsa recLsa (s.lsaHeader r) := rfl
  rw [hstatus]
  cases hcase : isNewerOrSameLsa recLsa (s.lsaHeader r) with
  | latest => exact absurd hcase hold
  | same => exact leaves_receiveSame hshows
  | old => exact leaves_receiveOld hshows r

theorem leaves_answered (hdiscarded : ¬ IsDiscarded c recLsa) (hrequested : ¬ IsUnrequested c s recLsa)
    {r : Ref} (hr : s.lsaLookup recLsa = some r) (hown : IsOwnRouterLsa c recLsa)
    (hseq : recLsa.lsSequenceNo > (s.lsaHeader r).lsSequenceNo)
    (hleaves : Leaves (refreshArea c { s with routerLsaSeqNo := recLsa.lsSequenceNo + 1 }) s') :
    Leaves (processReceivedLsa c s recLsa) (if recLsa.age = MAXAGE then retire s' r else s') := by
  have hlatest : isNullorLatest s (some r) recLsa = .latest := by
    have hstatus : isNullorLatest s (some r) recLsa = isNewerOrSameLsa recLsa (s.lsaHeader r) := rfl
    rw [hstatus, isNewerOrSameLsa, if_pos hseq]
  rw [process_latest hdiscarded hrequested (by rw [hr]; exact hlatest), hr,
    receiveLatest_router hown, receiveOwnRouterLsa, if_pos hseq]
  exact hleaves.andThen (leaves_returned [])

theorem isNewer_setAge {lsa1 lsa2 : LsaHeader} (h : isNewerOrSameLsa lsa1 lsa2 = .latest)
    (hage : lsa1.age ≠ MAXAGE) (age : ℤ) : IsNewer (lsa1.setAge age) lsa2 := by
  rcases latest_iff.mp h with hseq | ⟨hseq, hsum | ⟨-, hmax, -⟩⟩
  · exact Or.inl hseq
  · exact Or.inr ⟨hseq, Or.inl hsum⟩
  · exact absurd hmax hage

theorem not_isNewer_setAge {lsa : LsaHeader} {age : ℤ} (h : age = lsa.age ∨ age = MAXAGE) :
    ¬ IsNewer lsa (lsa.setAge age) := by
  unfold IsNewer LsaHeader.setAge MAXAGEDIFF
  simp only
  omega

theorem progress_answered (hdated : Dated s) (hdiscarded : ¬ IsDiscarded c recLsa)
    (hrequested : ¬ IsUnrequested c s recLsa) {h : LsaHeader}
    (hstored : instanceOf s recLsa = some h) (hown : IsOwnRouterLsa c recLsa)
    (hseq : recLsa.lsSequenceNo > h.lsSequenceNo) (hid : recLsa.linkStateId = c.routerId.text)
    (hbuilt : ∀ lsa, c.encode lsa ≠ none) (hnetwork : NetworkAdvances c s) :
    Progress c s recLsa ∧ Dated (processReceivedLsa c s recLsa).database := by
  have hknown := known_of_not_isDiscarded hdiscarded
  obtain ⟨r, hr, rfl⟩ := lookup_of_instanceOf hknown hstored
  obtain ⟨s', hrefresh, hdated', ⟨h', hh', hseq'⟩, hother⟩ := refreshArea_cases
    (s := { s with routerLsaSeqNo := recLsa.lsSequenceNo + 1 }) hbuilt hnetwork
  have hseq' : h'.lsSequenceNo = recLsa.lsSequenceNo + 1 := hseq'
  have hleaves := leaves_answered hdiscarded hrequested hr hown hseq hrefresh
  have hsame : ∀ t k, stored (if recLsa.age = MAXAGE then retire s' r else s') t k = stored s' t k := by
    intro t k
    split_ifs with hage
    · exact stored_retire r t k
    · rfl
  have htype : recLsa.getOspfLsaType = .ROUTER := by
    rw [LsaHeader.getOspfLsaType, hown.1]
    rfl
  have hkey : getLsaKey recLsa = keyOf OspfLsaType.ROUTER.value c.routerId.text c.routerId.text := by
    rw [getLsaKey, htype, hown.1, hown.2, hid]
  refine ⟨progress_of_leaves hleaves ?_ ?_, ?_⟩
  · intro t k
    rw [hsame]
    by_cases hrouter : t = .ROUTER ∧
        k = keyOf OspfLsaType.ROUTER.value c.routerId.text c.routerId.text
    · obtain ⟨rfl, rfl⟩ := hrouter
      rw [hh']
      refine .newer ?_
      intro h hh
      rw [instanceOf, htype, hkey, hh] at hstored
      cases hstored
      exact .inl (by omega)
    · obtain hkept | ⟨h'', hh'', hnewer⟩ := hother t k hrouter
      · exact isSuccessor_of_eq hkept
      · rw [hh'']
        exact .newer hnewer
  · intro _
    refine ⟨h', ?_, ?_⟩
    · rw [instanceOf, hsame, htype, hkey, hh']
    · unfold IsNewer
      omega
  · rw [hleaves.2]
    split_ifs with hage
    · exact dated_retire (hdated' hdated) r
    · exact hdated' hdated

theorem progress_aged (hdated : Dated s) (hdiscarded : ¬ IsDiscarded c recLsa)
    (hrequested : ¬ IsUnrequested c s recLsa) {h : LsaHeader}
    (hstored : instanceOf s recLsa = some h) (hlatest : isNewerOrSameLsa recLsa h = .latest)
    (hrouter : ¬ IsOwnRouterLsa c recLsa) (hown : ¬ IsOwnNetworkLsa c recLsa)
    (hage : recLsa.age = MAXAGE) (hseq : recLsa.lsSequenceNo = h.lsSequenceNo)
    (hsum : recLsa.lsCheckSum = h.lsCheckSum) :
    Progress c s recLsa ∧ Dated (processReceivedLsa c s recLsa).database := by
  have hknown := known_of_not_isDiscarded hdiscarded
  obtain ⟨r, hr, rfl⟩ := lookup_of_instanceOf hknown hstored
  have hprocess : processReceivedLsa c s recLsa = receiveMaxAgeLsa s (some r) recLsa := by
    rw [process_latest hdiscarded hrequested (by rw [hr]; exact hlatest), hr,
      receiveLatest_other hrouter hown, if_pos hage]
  have hleaves : Leaves (processReceivedLsa c s recLsa)
      (retire (s.setLsaAgeReceived r MAXAGE) r) := by
    rw [hprocess]
    exact leaves_returned _
  have hafter := stored_setLsaAgeReceived hdated hknown hr
  refine ⟨progress_of_leaves hleaves ?_ ?_, ?_⟩
  · intro t k
    rw [stored_retire, hafter]
    split_ifs with hkey
    · obtain ⟨rfl, rfl⟩ := hkey
      exact .aged hstored hage rfl rfl
    · exact .kept
  · intro _
    refine ⟨(s.lsaHeader r).setAge MAXAGE, ?_, ?_⟩
    · rw [instanceOf, stored_retire, hafter, if_pos ⟨rfl, rfl⟩]
    · unfold IsNewer LsaHeader.setAge
      simp only
      omega
  · rw [hleaves.2]
    exact dated_retire (dated_setLsaAgeReceived hdated r MAXAGE) r

theorem progress_installed (hdated : Dated s) (hdiscarded : ¬ IsDiscarded c recLsa)
    (hrequested : ¬ IsUnrequested c s recLsa)
    (hlatest : ∀ h, instanceOf s recLsa = some h → isNewerOrSameLsa recLsa h = .latest)
    (hrouter : ¬ IsOwnRouterLsa c recLsa) (hown : ¬ IsOwnNetworkLsa c recLsa)
    (hage : recLsa.age ≠ MAXAGE) (hshows : Shows c) :
    Progress c s recLsa ∧ Dated (processReceivedLsa c s recLsa).database := by
  have hknown := known_of_not_isDiscarded hdiscarded
  have hstatus : isNullorLatest s (s.lsaLookup recLsa) recLsa = .latest := by
    cases hr : s.lsaLookup recLsa with
    | none => rfl
    | some r =>
      apply hlatest
      rw [instanceOf, ← stored_lsaLookup hknown, hr]
      rfl
  have hprocess : processReceivedLsa c s recLsa = installReceived c s recLsa := by
    rw [process_latest hdiscarded hrequested hstatus, receiveLatest_other hrouter hown, if_neg hage]
  have hleaves : Leaves (processReceivedLsa c s recLsa) (s.addLsa recLsa false) := by
    rw [hprocess]
    exact leaves_installReceived hshows
  have hafter := stored_addLsa (s := s) hknown false
  refine ⟨progress_of_leaves hleaves ?_ ?_, ?_⟩
  · intro t k
    rw [hafter]
    split_ifs with hkey hold
    · obtain ⟨rfl, rfl⟩ := hkey
      exact .newer fun h hh => isNewer_setAge (hlatest h hh) hage _
    · obtain ⟨rfl, rfl⟩ := hkey
      exact .newer fun h hh => isNewer_setAge (hlatest h hh) hage _
    · exact .kept
  · intro _
    refine ⟨_, (hafter _ _).trans (if_pos ⟨rfl, rfl⟩), not_isNewer_setAge ?_⟩
    split_ifs with hold
    · exact .inr rfl
    · exact .inl rfl
  · rw [hleaves.2]
    exact dated_addLsa hdated recLsa false

theorem progress_of_sound (hdated : Dated s) (h : Sound c s recLsa) :
    Progress c s recLsa ∧ Dated (processReceivedLsa c s recLsa).database := by
  by_cases haway : IsTurnedAway c s recLsa
  · have hleaves := leaves_turnedAway haway
    refine ⟨progress_of_leaves hleaves (fun _ _ => .kept) (fun hnot => absurd haway hnot), ?_⟩
    rw [hleaves.2]
    exact hdated
  have hdiscarded : ¬ IsDiscarded c recLsa := fun hno => haway (.inl hno)
  have hrequested : ¬ IsUnrequested c s recLsa := fun hno => haway (.inr (.inl hno))
  cases h with
  | turnedAway hno => exact absurd hno haway
  | known hstored hold hnot hshows =>
    obtain ⟨r, hr, rfl⟩ := lookup_of_instanceOf (known_of_not_isDiscarded hdiscarded) hstored
    have hleaves := leaves_known hdiscarded hrequested hr hold hshows
    refine ⟨progress_of_leaves hleaves (fun _ _ => .kept) (fun _ => ⟨_, hstored, hnot⟩), ?_⟩
    rw [hleaves.2]
    exact hdated
  | answered hstored hown hseq hid hbuilt hnetwork =>
    exact progress_answered hdated hdiscarded hrequested hstored hown hseq hid hbuilt hnetwork
  | aged hstored hlatest hrouter hown hage hseq hsum =>
    exact progress_aged hdated hdiscarded hrequested hstored hlatest hrouter hown hage hseq hsum
  | installed hlatest hrouter hown hage hshows =>
    exact progress_installed hdated hdiscarded hrequested hlatest hrouter hown hage hshows

end Receptions

section Runs

/-- A second passes, or an advertisement is received by some neighbor, as that is then. -/
inductive Event where
  | second
  | receive (c : Surroundings) (recLsa : LsaHeader)

def step (s : OspfLsdb) : Event → OspfLsdb
  | .second => s.ageLsaAndFlood.1
  | .receive c recLsa => (processReceivedLsa c s recLsa).database

def run (s : OspfLsdb) (es : List Event) : OspfLsdb := es.foldl step s

def SoundEvent (s : OspfLsdb) : Event → Prop
  | .second => True
  | .receive c recLsa => Sound c s recLsa

def SoundRun : OspfLsdb → List Event → Prop
  | _, [] => True
  | s, e :: es => SoundEvent s e ∧ SoundRun (step s e) es

def Raises (s s' : OspfLsdb) : Prop :=
  ∀ t k h, stored s t k = some h → ∃ h', stored s' t k = some h' ∧ IsAtLeast h' h

variable {s s' s'' : OspfLsdb}

theorem raises_refl (s : OspfLsdb) : Raises s s := by
  intro t k h hh
  exact ⟨h, hh, .inr ⟨rfl, Int.le_refl _⟩⟩

theorem Raises.trans (h₁ : Raises s s') (h₂ : Raises s' s'') : Raises s s'' := by
  intro t k h hh
  obtain ⟨h', hh', hat⟩ := h₁ t k h hh
  obtain ⟨h'', hh'', hat'⟩ := h₂ t k h' hh'
  exact ⟨h'', hh'', hat'.trans hat⟩

theorem raises_second (s : OspfLsdb) : Raises s (step s .second) := by
  obtain ⟨hwrappers, _, hlsas, _⟩ := ageLsaAndFlood_unchanged s
  intro t k h hh
  obtain ⟨q, hq, rfl⟩ := Option.map_eq_some_iff.mp hh
  refine ⟨(step s .second).lsaHeader q, ?_, ?_⟩
  · rw [stored, step, hlsas, hq]
    rfl
  · rw [OspfLsdb.lsaHeader, step, hwrappers]
    exact isAtLeast_setAge _

theorem raises_of_progress {c : Surroundings} {recLsa : LsaHeader} (h : Progress c s recLsa) :
    Raises s (step s (.receive c recLsa)) := by
  intro t k old hold
  have hsuccessor := h.successor t k
  rw [hold] at hsuccessor
  generalize hnew : stored (processReceivedLsa c s recLsa).database t k = new at hsuccessor
  cases hsuccessor with
  | kept => exact ⟨old, hnew, .inr ⟨rfl, Int.le_refl _⟩⟩
  | newer hnewer => exact ⟨_, hnew, isAtLeast_of_isNewer (hnewer old rfl)⟩
  | aged hsame =>
    cases hsame
    exact ⟨_, hnew, isAtLeast_setAge _⟩

theorem soundRun_append {es es' : List Event} (h : SoundRun s (es ++ es')) :
    SoundRun s es ∧ SoundRun (run s es) es' := by
  induction es generalizing s with
  | nil => exact ⟨trivial, h⟩
  | cons e es ih =>
    obtain ⟨hbefore, hafter⟩ := ih h.2
    exact ⟨⟨h.1, hbefore⟩, hafter⟩

theorem raises_step {e : Event} (hdated : Dated s) (h : SoundEvent s e) :
    Raises s (step s e) ∧ Dated (step s e) := by
  cases e with
  | second => exact ⟨raises_second s, dated_ageLsaAndFlood hdated⟩
  | receive c recLsa =>
    obtain ⟨hprogress, hdated'⟩ := progress_of_sound hdated h
    exact ⟨raises_of_progress hprogress, hdated'⟩

theorem raises_run {es : List Event} (hdated : Dated s) (h : SoundRun s es) :
    Raises s (run s es) ∧ Dated (run s es) := by
  induction es generalizing s with
  | nil => exact ⟨raises_refl s, hdated⟩
  | cons e es ih =>
    obtain ⟨hfirst, hdated₁⟩ := raises_step hdated h.1
    obtain ⟨hraises, hdated'⟩ := ih hdated₁ h.2
    exact ⟨hfirst.trans hraises, hdated'⟩

end Runs

/-- In a run whose receptions all go well each of them is progress, and what is stored in the end is
not older than what was stored before nor than any of the instances that were received. -/
theorem newest_stored {s : OspfLsdb} (hdated : Dated s) {es : List Event} (h : SoundRun s es) :
    Raises s (run s es) ∧ ∀ before c recLsa after, es = before ++ .receive c recLsa :: after →
      Progress c (run s before) recLsa ∧ (¬ IsTurnedAway c (run s before) recLsa →
        ∃ lsa, instanceOf (run s es) recLsa = some lsa ∧ IsAtLeast lsa recLsa) := by
  refine ⟨(raises_run hdated h).1, ?_⟩
  rintro before c recLsa after rfl
  obtain ⟨hbefore, hsound, hafter⟩ := soundRun_append h
  obtain ⟨hprogress, hdated'⟩ := progress_of_sound (raises_run hdated hbefore).2 hsound
  refine ⟨hprogress, ?_⟩
  intro haway
  obtain ⟨lsa, hlsa, hnot⟩ := hprogress.newest haway
  have hraises := (raises_run hdated' hafter).1
  have hrun : run s (before ++ .receive c recLsa :: after) =
      run (processReceivedLsa c (run s before) recLsa).database after := by
    rw [run, List.foldl_append]
    rfl
  obtain ⟨lsa', hlsa', hat⟩ := hraises _ _ lsa hlsa
  rw [hrun]
  exact ⟨lsa', hlsa', hat.trans (isAtLeast_of_not_isNewer hnot)⟩

def quiet : Surroundings where
  isValidLsaCheckSum _ := true
  routerId := ⟨10, 0, 0, 9⟩
  options := 2
  externalRoutingCapability := true
  ospfInterfaceList := [⟨192, 168, 0, 9⟩]
  noNeighborInLsaExchangeProcess := true
  state := .DR
  ipAddress := ⟨192, 168, 0, 9⟩
  hasNeighbors := true
  neighborDr := some ⟨192, 168, 0, 9⟩
  sourceIp := ⟨192, 168, 0, 1⟩
  pendingReTxList := []
  encode _ := some (36, 0x1234)
  addLocalDevice _ := true
  callDeviceAndLinkAdding _ := true

theorem newest_stored_first : ∃ lsa,
    instanceOf (run (OspfLsdb.initial atTop) [.receive quiet (routerLsa 5), .second]) (routerLsa 5) =
      some lsa ∧ IsAtLeast lsa (routerLsa 5) := by
  have hrouter : ¬ IsOwnRouterLsa quiet (routerLsa 5) := by
    intro h
    exact absurd h.2 (by decide)
  have hown : ¬ IsOwnNetworkLsa quiet (routerLsa 5) := by
    intro h
    exact absurd h.1 (by decide)
  have haway : ¬ IsTurnedAway quiet (OspfLsdb.initial atTop) (routerLsa 5) := by
    rintro (h | h | h)
    · exact absurd h (by decide)
    · exact absurd h.1 (by decide)
    · exact hown h.1
  have hsound : SoundRun (OspfLsdb.initial atTop) [.receive quiet (routerLsa 5), .second] := by
    refine ⟨.installed ?_ hrouter hown (by decide) ⟨fun _ => rfl, fun _ => rfl, by decide⟩, trivial,
      trivial⟩
    intro h hh
    rw [instanceOf, stored_initial] at hh
    cases hh
  exact ((newest_stored (dated_initial atTop) hsound).2 [] quiet (routerLsa 5) [.second] rfl).2 haway

/-- An advertisement of the router itself that is not stored ends in an exception. -/
theorem own_router_lsa_throws :
    ¬ ∀ (c : Surroundings) (s : OspfLsdb) (recLsa : LsaHeader), Dated s →
      c.isValidLsaCheckSum recLsa = true → (processReceivedLsa c s recLsa).thrown = none := by
  intro h
  have hreturns := h { quiet with routerId := ⟨10, 0, 0, 1⟩ } (OspfLsdb.initial atTop) (routerLsa 5)
    (dated_initial atTop) rfl
  have hlatest : isNullorLatest (OspfLsdb.initial atTop)
      ((OspfLsdb.initial atTop).lsaLookup (routerLsa 5)) (routerLsa 5) = .latest := by
    rw [lsaLookup_initial]
    rfl
  have hrequested : ¬ IsUnrequested { quiet with routerId := ⟨10, 0, 0, 1⟩ } (OspfLsdb.initial atTop)
      (routerLsa 5) := by
    intro hno
    exact absurd hno.1 (by decide)
  rw [process_latest (by decide) hrequested hlatest, receiveLatest_router ⟨rfl, rfl⟩,
    lsaLookup_initial] at hreturns
  cases hreturns

end NewestLsas

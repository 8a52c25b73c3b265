import Onos.FlowRuleViews

/-! What a report repairs: the rules of the switch, and those that the store was to forget. -/
namespace FlowRulePush

open CoordinateFold FlowStoreBucket KeyedMap Push

variable {M T : Type*} [DecidableEq M] [DecidableEq T]

def Wanted (e : Entry M T) : Prop := e.data.state = .ADDED ∨ e.data.state = .PENDING_ADD

def Unwanted (e : Entry M T) : Prop := e.data.state = .PENDING_REMOVE ∨ e.data.state = .REMOVED

/-- The switch has the rules that were to be added, and the reported ones that the store has exactly
so; no rule that was to be removed is sent, and each that is not reported is gone from the store. -/
structure Repaired (store : FlowTable M T) (report : List (Entry M T)) (s : Push M T) : Prop where
  table : ∀ m id treatment, executeAll (reported report) s.commands m = some (id, treatment) ↔
    (∃ e ∈ store.entries, e.rule = m ∧ e.id = id ∧ e.data.treatment = treatment ∧ Wanted e) ∨
    ∃ rule ∈ report, rule.rule = m ∧ rule.id = id ∧ rule.data.treatment = treatment ∧
      ∃ e ∈ store.entries, exactMatch e rule = true
  neverSent : ∀ e ∈ store.entries, Unwanted e →
    ∀ rule, .applyFlowRule rule ∈ s.commands → isEntryOf e rule = false
  removed : ∀ e ∈ store.entries, Unwanted e → (∀ rule ∈ report, exactMatch e rule = false) →
    ∀ e' ∈ s.store.entries, isEntryOf e e' = false

/-- The entry that `storedRules` hands out for a match: the value if the match is reported, the key
if not. -/
def handedOut (store : FlowTable M T) (report : List (Entry M T)) (m : M) : Option (Entry M T) :=
  ((storedRulesOf store).lookup m).map fun pair =>
    if ∃ rule ∈ report, rule.rule = m then pair.2 else pair.1

def OthersFailed (store : FlowTable M T) (report : List (Entry M T)) : Prop :=
  ∀ e ∈ store.entries, handedOut store report e.rule = some e ∨
    e.data.state = .FAILED ∧ ∀ rule ∈ report, exactMatch e rule = false

variable {store : FlowTable M T} {report : List (Entry M T)} {m : M}

structure RepairedAt (es : List (Entry M T)) (report : List (Entry M T)) (m : M) (v : View M T) :
    Prop where
  table : ∀ id treatment, v.2.2 = some (id, treatment) ↔
    (∃ e ∈ es, e.id = id ∧ e.data.treatment = treatment ∧ Wanted e) ∨
    ∃ rule ∈ report, rule.rule = m ∧ rule.id = id ∧ rule.data.treatment = treatment ∧
      ∃ e ∈ es, exactMatch e rule = true
  removed : ∀ e ∈ es, Unwanted e → (∀ rule ∈ report, exactMatch e rule = false) →
    ∀ e' ∈ v.2.1, isEntryOf e e' = false

omit [DecidableEq M] [DecidableEq T] in
theorem state_cases (e : Entry M T) : Wanted e ∨ Unwanted e ∨ e.data.state = .FAILED := by
  unfold Wanted Unwanted
  cases e.data.state <;> simp

variable {e : Entry M T}

section

omit [DecidableEq M] [DecidableEq T]

theorem not_unwanted_of_wanted (h : Wanted e) : ¬ Unwanted e := by
  rw [Wanted] at h
  rw [Unwanted]
  cases hstate : e.data.state <;> simp [hstate] at h ⊢

theorem not_wanted_of_failed (h : e.data.state = .FAILED) : ¬ Wanted e := by
  rintro (hstate | hstate)
  · rw [h] at hstate
    cases hstate
  · rw [h] at hstate
    cases hstate

theorem not_unwanted_of_failed (h : e.data.state = .FAILED) : ¬ Unwanted e := by
  rintro (hstate | hstate)
  · rw [h] at hstate
    cases hstate
  · rw [h] at hstate
    cases hstate

theorem entry_eq {e e' : Entry M T} (he : e ∈ store.entries) (he' : e' ∈ store.entries)
    (hid : e.id = e'.id) (hrule : e.rule = e'.rule) : e = e' :=
  List.inj_on_of_nodup_map store.distinct he he' (Prod.ext hid hrule)

end

variable {rule : Entry M T}

theorem exactMatch_iff : exactMatch e rule = true ↔
    e.rule = rule.rule ∧ e.id = rule.id ∧ e.data.treatment = rule.data.treatment := by
  simp [exactMatch, and_assoc]

def NeverSent (store : FlowTable M T) (s : Push M T) : Prop :=
  ∀ e ∈ store.entries, Unwanted e →
    ∀ rule, .applyFlowRule rule ∈ s.commands → isEntryOf e rule = false

theorem exists_exact_iff (hrule : rule.rule = m) :
    (∃ e ∈ ofMatch m store.entries, exactMatch e rule = true) ↔
      ∃ e ∈ store.entries, exactMatch e rule = true := by
  constructor
  · rintro ⟨e, he, hexact⟩
    exact ⟨e, (mem_ofMatch.mp he).1, hexact⟩
  · rintro ⟨e, he, hexact⟩
    exact ⟨e, mem_ofMatch.mpr ⟨he, (exactMatch_iff.mp hexact).1.trans hrule⟩, hexact⟩

variable {id : FlowId} {treatment : T}

omit [DecidableEq T] in
theorem exists_wanted_iff :
    (∃ e ∈ ofMatch m store.entries, e.id = id ∧ e.data.treatment = treatment ∧ Wanted e) ↔
      ∃ e ∈ store.entries, e.rule = m ∧ e.id = id ∧ e.data.treatment = treatment ∧ Wanted e := by
  simp only [mem_ofMatch, and_assoc]

theorem exists_reported_iff :
    (∃ rule ∈ report, rule.rule = m ∧ rule.id = id ∧ rule.data.treatment = treatment ∧
      ∃ e ∈ ofMatch m store.entries, exactMatch e rule = true) ↔
    ∃ rule ∈ report, rule.rule = m ∧ rule.id = id ∧ rule.data.treatment = treatment ∧
      ∃ e ∈ store.entries, exactMatch e rule = true := by
  constructor
  · rintro ⟨rule, hrule, hm, hid, htreatment, hexact⟩
    exact ⟨rule, hrule, hm, hid, htreatment, (exists_exact_iff hm).mp hexact⟩
  · rintro ⟨rule, hrule, hm, hid, htreatment, hexact⟩
    exact ⟨rule, hrule, hm, hid, htreatment, (exists_exact_iff hm).mpr hexact⟩

variable {s : Push M T}

theorem repaired_iff : Repaired store report s ↔ NeverSent store s ∧
    ∀ m, RepairedAt (ofMatch m store.entries) report m (view (reported report) s m) := by
  constructor
  · intro h
    refine ⟨h.neverSent, fun m => ⟨fun id treatment => ?_, fun e he hunwanted hlacks e' he' => ?_⟩⟩
    · rw [exists_wanted_iff, exists_reported_iff]
      exact h.table m id treatment
    · exact h.removed e (mem_ofMatch.mp he).1 hunwanted hlacks e' (mem_ofMatch.mp he').1
  · rintro ⟨hsent, hat⟩
    refine ⟨fun m id treatment => ?_, hsent, fun e he hunwanted hlacks e' he' => ?_⟩
    · rw [← exists_wanted_iff, ← exists_reported_iff]
      exact (hat m).table id treatment
    · rw [← Bool.not_eq_true]
      intro hentry
      have hsame := (isEntryOf_iff.mp hentry).2
      have hgone := (hat e.rule).removed e (mem_ofMatch.mpr ⟨he, rfl⟩) hunwanted hlacks e'
        (mem_ofMatch.mpr ⟨he', hsame⟩)
      exact absurd hentry (hgone ▸ Bool.false_ne_true)

def OthersFailedAt (es report : List (Entry M T)) (handed : Entry M T) : Prop :=
  ∀ e ∈ es, e = handed ∨ e.data.state = .FAILED ∧ ∀ rule ∈ report, exactMatch e rule = false

variable {handed : Entry M T} {es : List (Entry M T)}

section

omit [DecidableEq T]

theorem missingEffect_switch (pair : Option (Entry M T × Entry M T)) :
    (missingEffect handed (pair, es, none)).2.2 = some (id, treatment) ↔
      Wanted handed ∧ handed.id = id ∧ handed.data.treatment = treatment := by
  unfold missingEffect Wanted
  cases handed.data.state <;> simp

theorem mem_missingEffect (pair : Option (Entry M T × Entry M T)) (cell : Option (FlowId × T))
    : e ∈ (missingEffect handed (pair, es, cell)).2.1 ↔
      e ∈ es ∧ ¬ (Unwanted handed ∧ isEntryOf handed e = true ∧ e.created ≤ handed.created) := by
  unfold missingEffect Unwanted
  cases handed.data.state <;> simp [mem_removeEntries]

end

section Match

variable (hdistinct : ∀ e ∈ es, ∀ e' ∈ es, e.id = e'.id → e = e') (hrules : ∀ e ∈ es, e.rule = m)
  (hhanded : handed ∈ es)

include hdistinct hrules hhanded

/-- The switch lacks the match, and the entry handed out is not reported: it is sent if it is wanted,
and removed if it is not. -/
theorem repairedAt_missing (hexact : ∀ rule ∈ report, exactMatch handed rule = false)
    (pair : Option (Entry M T × Entry M T)) :
    RepairedAt es report m (missingEffect handed (pair, es, none)) ↔
      OthersFailedAt es report handed := by
  constructor
  · intro h e he
    by_cases hsame : e = handed
    · exact .inl hsame
    have hlacks : ∀ rule ∈ report, exactMatch e rule = false := by
      intro rule hrule
      rw [← Bool.not_eq_true]
      intro hmatch
      obtain ⟨hkey, hid, htreatment⟩ := exactMatch_iff.mp hmatch
      have hcell := (h.table e.id e.data.treatment).mpr (.inr ⟨rule, hrule,
        hkey.symm.trans (hrules e he), hid.symm, htreatment.symm, e, he, hmatch⟩)
      have hids := ((missingEffect_switch pair).mp hcell).2.1
      exact hsame (hdistinct e he handed hhanded hids.symm)
    rcases state_cases e with hwanted | hunwanted | hfailed
    · have hcell := (h.table e.id e.data.treatment).mpr (.inl ⟨e, he, rfl, rfl, hwanted⟩)
      have hids := ((missingEffect_switch pair).mp hcell).2.1
      exact absurd (hdistinct e he handed hhanded hids.symm) hsame
    · have hstays : e ∈ (missingEffect handed (pair, es, none)).2.1 := by
        refine (mem_missingEffect pair none).mpr ⟨he, fun hgone => hsame ?_⟩
        exact hdistinct e he handed hhanded (isEntryOf_iff.mp hgone.2.1).1
      have hself := h.removed e he hunwanted hlacks e hstays
      exact absurd (isEntryOf_iff.mpr ⟨rfl, rfl⟩) (hself ▸ Bool.false_ne_true)
    · exact .inr ⟨hfailed, hlacks⟩
  · intro h
    constructor
    · intro id treatment
      rw [missingEffect_switch]
      constructor
      · rintro ⟨hwanted, hid, htreatment⟩
        exact .inl ⟨handed, hhanded, hid, htreatment, hwanted⟩
      · rintro (⟨e, he, hid, htreatment, hwanted⟩ | ⟨rule, hrule, _, _, _, e, he, hmatch⟩)
        · rcases h e he with rfl | ⟨hfailed, _⟩
          · exact ⟨hwanted, hid, htreatment⟩
          · exact absurd hwanted (not_wanted_of_failed hfailed)
        · rcases h e he with rfl | ⟨_, hlacks⟩
          · exact absurd hmatch (hexact rule hrule ▸ Bool.false_ne_true)
          · exact absurd hmatch (hlacks rule hrule ▸ Bool.false_ne_true)
    · intro e he hunwanted _ e' he'
      rcases h e he with rfl | ⟨hfailed, _⟩
      · obtain ⟨hmem, hstays⟩ := (mem_missingEffect pair none).mp he'
        rw [← Bool.not_eq_true]
        intro hentry
        apply hstays
        rw [hdistinct e' hmem e he (isEntryOf_iff.mp hentry).1]
        exact ⟨hunwanted, isEntryOf_iff.mpr ⟨rfl, rfl⟩, le_rfl⟩
      · exact absurd hunwanted (not_unwanted_of_failed hfailed)

theorem repairedAt_exact (hreport : (report.map FlowEntry.rule).Nodup) {rule : Entry M T}
    (hrule : rule ∈ report) (hexact : exactMatch handed rule = true) (currentTime : ℕ) :
    RepairedAt es report m
      (none, updateEntries rule currentTime es, some (rule.id, rule.data.treatment)) ↔
      OthersFailedAt es report handed := by
  obtain ⟨hkey, hid, htreatment⟩ := exactMatch_iff.mp hexact
  have honly : ∀ rule' ∈ report, rule'.rule = m → rule' = rule := fun rule' hrule' hm =>
    List.inj_on_of_nodup_map hreport hrule' hrule (hm.trans ((hrules handed hhanded).symm.trans hkey))
  have hlacks : ∀ e ∈ es, e ≠ handed → ∀ rule' ∈ report, exactMatch e rule' = false := by
    intro e he hne rule' hrule'
    rw [← Bool.not_eq_true]
    intro hmatch
    obtain ⟨hkey', hid', _⟩ := exactMatch_iff.mp hmatch
    rw [honly rule' hrule' (hkey'.symm.trans (hrules e he))] at hid'
    exact hne (hdistinct e he handed hhanded (hid'.trans hid.symm))
  constructor
  · intro h e he
    by_cases hsame : e = handed
    · exact .inl hsame
    rcases state_cases e with hwanted | hunwanted | hfailed
    · have hcell := (h.table e.id e.data.treatment).mpr (.inl ⟨e, he, rfl, rfl, hwanted⟩)
      have hids : rule.id = e.id := congrArg Prod.fst (Option.some.inj hcell)
      exact absurd (hdistinct e he handed hhanded (hids.symm.trans hid.symm)) hsame
    · have hstays : ∃ e' ∈ updateEntries rule currentTime es, isEntryOf e e' = true := by
        refine ⟨_, List.mem_map_of_mem he, ?_⟩
        split_ifs
        · exact isEntryOf_iff.mpr ⟨rfl, rfl⟩
        · exact isEntryOf_iff.mpr ⟨rfl, rfl⟩
      obtain ⟨e', he', hentry⟩ := hstays
      have hgone := h.removed e he hunwanted (hlacks e he hsame) e' he'
      exact absurd hentry (hgone ▸ Bool.false_ne_true)
    · exact .inr ⟨hfailed, hlacks e he hsame⟩
  · intro h
    constructor
    · intro id treatment
      constructor
      · intro hcell
        obtain ⟨rfl, rfl⟩ := Prod.mk.inj (Option.some.inj hcell)
        exact .inr ⟨rule, hrule, hkey.symm.trans (hrules handed hhanded), rfl, rfl, handed, hhanded,
          hexact⟩
      · rintro (⟨e, he, rfl, rfl, hwanted⟩ | ⟨rule', hrule', hm, rfl, rfl, _⟩)
        · rcases h e he with rfl | ⟨hfailed, _⟩
          · rw [← hid, ← htreatment]
          · exact absurd hwanted (not_wanted_of_failed hfailed)
        · rw [honly rule' hrule' hm]
    · intro e he hunwanted hunreported
      rcases h e he with rfl | ⟨hfailed, _⟩
      · exact absurd hexact (hunreported rule hrule ▸ Bool.false_ne_true)
      · exact absurd hunwanted (not_unwanted_of_failed hfailed)

end Match

structure Issued (store : FlowTable M T) (s : Push M T) : Prop where
  sent : ∀ rule, .applyFlowRule rule ∈ s.commands → rule ∈ store.entries ∧ Wanted rule
  handed : HandsOut store.entries s.storedRules

section

omit [DecidableEq T]

theorem issued_flowMissing (h : Issued store s)
    (hrule : rule ∈ store.entries) (isFlowOnlyInStore : Bool) :
    Issued store (s.flowMissing rule isFlowOnlyInStore) := by
  have happly : Wanted rule → ∀ rule', .applyFlowRule rule' ∈ s.commands ++ [.applyFlowRule rule] →
      rule' ∈ store.entries ∧ Wanted rule' := by
    intro hwanted rule' hrule'
    rcases List.mem_append.mp hrule' with hold | hnew
    · exact h.sent rule' hold
    · obtain ⟨⟩ := List.mem_singleton.mp hnew
      exact ⟨hrule, hwanted⟩
  obtain ⟨posted, hmissing⟩ := flowMissing_eq s rule isFlowOnlyInStore
  rw [hmissing]
  cases hstate : rule.data.state with
  | PENDING_ADD => exact ⟨happly (.inr hstate), h.handed⟩
  | ADDED => exact ⟨happly (.inl hstate), h.handed⟩
  | PENDING_REMOVE => exact ⟨h.sent, h.handed⟩
  | REMOVED => exact ⟨h.sent, h.handed⟩
  | FAILED => exact ⟨h.sent, h.handed⟩

theorem issued_extraneousFlow (h : Issued store s) (rule : Entry M T) :
    Issued store (s.extraneousFlow rule) := by
  refine ⟨fun rule' hrule' => ?_, h.handed⟩
  rcases List.mem_append.mp hrule' with hold | hnew
  · exact h.sent rule' hold
  · cases List.mem_singleton.mp hnew

theorem issued_taken (h : Issued store s) (rule : Entry M T) : Issued store (taken s rule) := by
  refine ⟨h.sent, fun m pair hpair => h.handed m pair ?_⟩
  rw [taken, lookup_erase] at hpair
  split_ifs at hpair
  exact hpair

end

variable {importExtraneousRules : Bool} {now : Entry M T → ℕ} {firstSeen lastSeen : M → Option ℕ}

theorem issued_pushRule (hs : Consistent s) (h : Issued store s) (rule : Entry M T) :
    Issued store (s.pushRule ⟨false, importExtraneousRules⟩ now rule) := by
  have htaken := issued_taken h rule
  rcases pushRule_cases s rule with ⟨-, hpush⟩ | ⟨pair, hpair, ⟨-, hpush⟩ | ⟨-, hpush⟩⟩
  · rw [hpush]
    exact issued_extraneousFlow htaken rule
  · obtain ⟨-, hrules, hcommands⟩ := flowAdded_eq (taken_keeps hs rule) rule (now rule)
    rw [hpush]
    constructor
    · rw [hcommands]
      exact htaken.sent
    · rw [hrules]
      exact htaken.handed
  · rw [hpush]
    exact issued_flowMissing (issued_extraneousFlow htaken rule) (h.handed _ pair hpair).2.1 false

section

variable (h : ∀ e ∈ store.entries, e.data.isPermanent = true)

include h

theorem issued_afterReport (report : List (Entry M T)) :
    Issued store (afterReport importExtraneousRules now store firstSeen lastSeen report) := by
  have hinitial : Issued store (start store firstSeen lastSeen) :=
    ⟨fun rule hrule => absurd hrule List.not_mem_nil, handsOut_storedRulesOf store⟩
  have hloop : ∀ (rules : List (Entry M T)) (s : Push M T), Consistent s → Issued store s →
      Issued store (rules.foldl (pushRule ⟨false, importExtraneousRules⟩ now) s) := by
    intro rules
    induction rules with
    | nil => exact fun s _ hissued => hissued
    | cons rule rules ih =>
      intro s hs hissued
      exact ih _ (pushRule_keeps hs rule) (issued_pushRule hs hissued rule)
  exact hloop report _ (consistent_start h) hinitial

theorem issued_push (report : List (Entry M T)) :
    Issued store (pushFlowMetrics ⟨false, importExtraneousRules⟩ now store firstSeen lastSeen
      report) := by
  have hreported : Issued store (afterReport importExtraneousRules now store firstSeen lastSeen
      report) := issued_afterReport h report
  have hloop : ∀ (rules : List (Entry M T)) (s : Push M T), (∀ rule ∈ rules, rule ∈ store.entries) →
      Issued store s → Issued store (rules.foldl (fun s rule => s.flowMissing rule true) s) := by
    intro rules
    induction rules with
    | nil => exact fun s _ hissued => hissued
    | cons rule rules ih =>
      intro s hrules hissued
      rw [List.forall_mem_cons] at hrules
      exact ih _ hrules.2 (issued_flowMissing hissued hrules.1 true)
  refine hloop _ _ (fun rule hrule => ?_) hreported
  obtain ⟨⟨m, pair⟩, hpair, rfl⟩ := List.mem_map.mp hrule
  exact (hreported.handed m pair ((mem_entries_iff _ m pair).mp hpair)).1.1

theorem neverSent_push (report : List (Entry M T)) :
    NeverSent store (pushFlowMetrics ⟨false, importExtraneousRules⟩ now store firstSeen lastSeen
      report) := by
  intro e he hunwanted rule hrule
  obtain ⟨hmem, hwanted⟩ := (issued_push h report).sent rule hrule
  rw [← Bool.not_eq_true, isEntryOf_iff]
  rintro ⟨hid, hkey⟩
  rw [entry_eq hmem he hid hkey] at hwanted
  exact not_unwanted_of_wanted hwanted hunwanted

end

theorem repairedAt_nil (report : List (Entry M T)) (m : M)
    (pair : Option (Entry M T × Entry M T)) : RepairedAt [] report m (pair, [], none) := by
  refine ⟨fun id treatment => ⟨fun hcell => ?_, fun hsource => ?_⟩, fun e he => ?_⟩
  · cases hcell
  · rcases hsource with ⟨e, he, _⟩ | ⟨_, _, _, _, _, e, he, _⟩
    · exact absurd he List.not_mem_nil
    · exact absurd he List.not_mem_nil
  · exact absurd he List.not_mem_nil

theorem repairedAt_push (h : ∀ e ∈ store.entries, e.data.isPermanent = true)
    (hreport : (report.map FlowEntry.rule).Nodup) (m : M) :
    RepairedAt (ofMatch m store.entries) report m (view (reported report)
      (pushFlowMetrics ⟨false, importExtraneousRules⟩ now store firstSeen lastSeen report) m) ↔
    ∀ e ∈ ofMatch m store.entries, handedOut store report m = some e ∨
      e.data.state = .FAILED ∧ ∀ rule ∈ report, exactMatch e rule = false := by
  have hrules : ∀ e ∈ ofMatch m store.entries, e.rule = m := fun e he => (mem_ofMatch.mp he).2
  have hdistinct : ∀ e ∈ ofMatch m store.entries, ∀ e' ∈ ofMatch m store.entries,
      e.id = e'.id → e = e' := fun e he e' he' hid =>
    entry_eq (mem_ofMatch.mp he).1 (mem_ofMatch.mp he').1 hid
      ((hrules e he).trans (hrules e' he').symm)
  have hothers : ∀ handed : Entry M T, handedOut store report m = some handed →
      (OthersFailedAt (ofMatch m store.entries) report handed ↔
        ∀ e ∈ ofMatch m store.entries, handedOut store report m = some e ∨
          e.data.state = .FAILED ∧ ∀ rule ∈ report, exactMatch e rule = false) := by
    intro handed hhanded
    rw [hhanded]
    simp only [OthersFailedAt, Option.some.injEq, eq_comm]
  cases hlookup : (storedRulesOf store).lookup m with
  | none =>
    have hnil := ofMatch_eq_nil hlookup
    refine iff_of_true ?_ fun e he => absurd (hnil ▸ he) List.not_mem_nil
    by_cases hm : ∃ rule ∈ report, rule.rule = m
    · obtain ⟨rule, hrule, rfl⟩ := hm
      rw [view_push_of_mem h hreport hrule, hlookup, hnil]
      exact repairedAt_nil report rule.rule none
    · rw [view_push_of_notMem h fun rule hrule hsame => hm ⟨rule, hrule, hsame⟩, hlookup, hnil]
      exact repairedAt_nil report m none
  | some pair =>
    obtain ⟨⟨hkey, hkeyRule⟩, hvalue, hvalueRule⟩ := handsOut_storedRulesOf store m pair hlookup
    by_cases hm : ∃ rule ∈ report, rule.rule = m
    · have hhanded : handedOut store report m = some pair.2 := by
        rw [handedOut, hlookup, Option.map_some, if_pos hm]
      have hmem := mem_ofMatch.mpr ⟨hvalue, hvalueRule⟩
      obtain ⟨rule, hrule, rfl⟩ := hm
      rw [← hothers pair.2 hhanded, view_push_of_mem h hreport hrule, hlookup, ruleEffect]
      cases hexact : exactMatch pair.2 rule with
      | true =>
        simp only [hexact, if_true]
        exact repairedAt_exact hdistinct hrules hmem hreport hrule hexact (now rule)
      | false =>
        simp only [hexact, Bool.false_eq_true, if_false]
        refine repairedAt_missing hdistinct hrules hmem (fun rule' hrule' => ?_) none
        rw [← Bool.not_eq_true]
        intro hmatch
        have hsame : rule'.rule = rule.rule := (exactMatch_iff.mp hmatch).1.symm.trans hvalueRule
        rw [List.inj_on_of_nodup_map hreport hrule' hrule hsame, hexact] at hmatch
        cases hmatch
    · have hhanded : handedOut store report m = some pair.1 := by
        rw [handedOut, hlookup, Option.map_some, if_neg hm]
      have hmem := mem_ofMatch.mpr ⟨hkey, hkeyRule⟩
      rw [← hothers pair.1 hhanded,
        view_push_of_notMem h fun rule hrule hsame => hm ⟨rule, hrule, hsame⟩, hlookup]
      refine repairedAt_missing hdistinct hrules hmem (fun rule hrule => ?_) (some pair)
      rw [← Bool.not_eq_true]
      intro hmatch
      exact hm ⟨rule, hrule, (exactMatch_iff.mp hmatch).1.symm.trans hkeyRule⟩

/-- A report repairs the switch just when, of any stored entries with equal rules, all but the one
that is handed out have failed and are not reported. -/
theorem push_repairs_iff (importExtraneousRules : Bool) (now : Entry M T → ℕ) (store : FlowTable M T)
    (firstSeen lastSeen : M → Option ℕ) (report : List (Entry M T))
    (h : ∀ e ∈ store.entries, e.data.isPermanent = true)
    (hreport : (report.map FlowEntry.rule).Nodup) :
    Repaired store report (pushFlowMetrics ⟨false, importExtraneousRules⟩ now store firstSeen
      lastSeen report) ↔ OthersFailed store report := by
  rw [repaired_iff, and_iff_right (neverSent_push h report)]
  constructor
  · intro hall e he
    exact (repairedAt_push h hreport e.rule).mp (hall e.rule) e (mem_ofMatch.mpr ⟨he, rfl⟩)
  · intro hothers m
    refine (repairedAt_push h hreport m).mpr fun e he => ?_
    obtain ⟨hmem, rfl⟩ := mem_ofMatch.mp he
    exact hothers e hmem

omit [DecidableEq T] in
theorem handedOut_of_nodup (hstore : (store.entries.map FlowEntry.rule).Nodup)
    (he : e ∈ store.entries) (report : List (Entry M T)) : handedOut store report e.rule = some e := by
  cases hlookup : (storedRulesOf store).lookup e.rule with
  | none =>
    have hmem : e ∈ ofMatch e.rule store.entries := mem_ofMatch.mpr ⟨he, rfl⟩
    rw [ofMatch_eq_nil hlookup] at hmem
    exact absurd hmem List.not_mem_nil
  | some pair =>
    obtain ⟨⟨hkey, hkeyRule⟩, hvalue, hvalueRule⟩ :=
      handsOut_storedRulesOf store e.rule pair hlookup
    rw [handedOut, hlookup, Option.map_some]
    split_ifs
    · rw [List.inj_on_of_nodup_map hstore hvalue he hvalueRule]
    · rw [List.inj_on_of_nodup_map hstore hkey he hkeyRule]

theorem othersFailed_of_nodup (hstore : (store.entries.map FlowEntry.rule).Nodup)
    (report : List (Entry M T)) : OthersFailed store report :=
  fun _ he => .inl (handedOut_of_nodup hstore he report)

def permanentRule (id : FlowId) (rule treatment : ℕ) (state : FlowEntryState) : Entry ℕ ℕ :=
  ⟨id, rule, 0, ⟨treatment, state, 0, .UNKNOWN, 0, 0, 0, true, 0, 0⟩⟩

def fourRules : FlowTable ℕ ℕ where
  entries := [permanentRule 1 1 0 .ADDED, permanentRule 2 2 0 .PENDING_ADD,
    permanentRule 3 3 0 .PENDING_REMOVE, permanentRule 4 4 0 .REMOVED]
  distinct := by decide

/-- The third rule is reported with another treatment; the fifth one is unknown. -/
theorem push_repairs_iff_four :
    Repaired fourRules [permanentRule 1 1 0 .ADDED, permanentRule 3 3 9 .ADDED,
      permanentRule 5 5 0 .ADDED] (pushFlowMetrics ⟨false, false⟩ (fun _ => 0) fourRules
        (fun _ => none) (fun _ => none) [permanentRule 1 1 0 .ADDED, permanentRule 3 3 9 .ADDED,
          permanentRule 5 5 0 .ADDED]) :=
  (push_repairs_iff false (fun _ => 0) fourRules (fun _ => none) (fun _ => none) _
    (by decide) (by decide)).mpr (othersFailed_of_nodup (by decide) _)

def twoApplications : FlowTable ℕ ℕ where
  entries := [permanentRule (2 * 2 ^ 48 + 7) 5 0 .PENDING_REMOVE,
    permanentRule (2 ^ 48 + 7) 5 0 .ADDED]
  distinct := by decide

/-- The rule of application 1 is added and reported, and taken off the switch. -/
theorem added_rule_removed : executeAll (reported [permanentRule (2 ^ 48 + 7) 5 0 .ADDED])
      (pushFlowMetrics ⟨false, false⟩ (fun _ => 0) twoApplications (fun _ => none) (fun _ => none)
        [permanentRule (2 ^ 48 + 7) 5 0 .ADDED]).commands 5 = none ∧
    ¬ Repaired twoApplications [permanentRule (2 ^ 48 + 7) 5 0 .ADDED]
      (pushFlowMetrics ⟨false, false⟩ (fun _ => 0) twoApplications (fun _ => none) (fun _ => none)
        [permanentRule (2 ^ 48 + 7) 5 0 .ADDED]) := by
  have hnone : executeAll (reported [permanentRule (2 ^ 48 + 7) 5 0 .ADDED])
      (pushFlowMetrics ⟨false, false⟩ (fun _ => 0) twoApplications (fun _ => none) (fun _ => none)
        [permanentRule (2 ^ 48 + 7) 5 0 .ADDED]).commands 5 = none := by decide
  refine ⟨hnone, fun h => ?_⟩
  have hsome := (h.table 5 (2 ^ 48 + 7) 0).mpr
    (.inl ⟨permanentRule (2 ^ 48 + 7) 5 0 .ADDED, by decide, rfl, rfl, rfl, .inl rfl⟩)
  rw [hnone] at hsome
  cases hsome

end FlowRulePush

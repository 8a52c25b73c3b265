import Onos.FlowRulePush

/-! What a report does to the switch. A report is worked on match by match; for each match only the
one entry that `storedRules` hands out is looked at. -/
namespace FlowRulePush

open CoordinateFold FlowStoreBucket KeyedMap Push

variable {M T : Type*} [DecidableEq M]

section Entries

variable {rule e : Entry M T} {es : List (Entry M T)} {m : M}

def ofMatch (m : M) (es : List (Entry M T)) : List (Entry M T) := es.filter fun e => e.rule = m

theorem mem_ofMatch : e ∈ ofMatch m es ↔ e ∈ es ∧ e.rule = m := by
  rw [ofMatch, List.mem_filter, decide_eq_true_iff]

theorem ofMatch_updateEntries (rule : Entry M T) (currentTime : ℕ) (es : List (Entry M T)) (m : M) :
    ofMatch m (updateEntries rule currentTime es) =
      if m = rule.rule then updateEntries rule currentTime (ofMatch m es) else ofMatch m es := by
  have hkey : ∀ e : Entry M T,
      (if isEntryOf rule e then updated rule currentTime e else e).rule = e.rule := fun e => by
    split_ifs <;> rfl
  have hpush : ofMatch m (updateEntries rule currentTime es) =
      updateEntries rule currentTime (ofMatch m es) := by
    rw [ofMatch, updateEntries, List.filter_map, updateEntries, ofMatch]
    simp only [Function.comp_def, hkey]
  rw [hpush]
  split_ifs with hm
  · rfl
  · rw [updateEntries]
    refine (List.map_congr_left fun e he => ?_).trans (List.map_id _)
    rw [if_neg]
    · rfl
    · intro hentry
      rw [isEntryOf_iff, (mem_ofMatch.mp he).2] at hentry
      exact hm hentry.2

theorem ofMatch_removeEntries (rule : Entry M T) (es : List (Entry M T)) (m : M) :
    ofMatch m (removeEntries rule es) =
      if m = rule.rule then removeEntries rule (ofMatch m es) else ofMatch m es := by
  split_ifs with hm
  · rw [ofMatch, removeEntries, List.filter_filter, removeEntries, ofMatch, List.filter_filter]
    simp only [Bool.and_comm]
  · rw [ofMatch, removeEntries, List.filter_filter]
    apply List.filter_congr
    intro e _
    by_cases he : e.rule = m
    · have hne : isEntryOf rule e = false := by
        rw [← Bool.not_eq_true, isEntryOf_iff, he]
        exact fun hentry => hm hentry.2
      simp [he, hne]
    · simp [he]

theorem mem_updateEntries {currentTime : ℕ} (h : e ∈ updateEntries rule currentTime es) :
    ∃ stored ∈ es, e.id = stored.id ∧ e.rule = stored.rule ∧
      e.data.isPermanent = stored.data.isPermanent := by
  obtain ⟨stored, hstored, rfl⟩ := List.mem_map.mp h
  refine ⟨stored, hstored, ?_⟩
  split_ifs <;> exact ⟨rfl, rfl, rfl⟩

end Entries

variable [DecidableEq T]

section Views

/-- What is known of a match: the entries that `storedRules` hands out, those in the store, and the
rule on the switch. -/
abbrev View (M T : Type*) := Option (Entry M T × Entry M T) × List (Entry M T) × Option (FlowId × T)

def view (table : SwitchTable M T) (s : Push M T) (m : M) : View M T :=
  (s.storedRules.lookup m, ofMatch m s.store.entries, executeAll table s.commands m)

def missingEffect (rule : Entry M T) (v : View M T) : View M T :=
  match rule.data.state with
  | .PENDING_REMOVE | .REMOVED => (v.1, removeEntries rule v.2.1, v.2.2)
  | .ADDED | .PENDING_ADD => (v.1, v.2.1, some (rule.id, rule.data.treatment))
  | .FAILED => v

def ruleEffect (now : Entry M T → ℕ) (rule : Entry M T) (v : View M T) : View M T :=
  match v.1 with
  | some (_, storedRule) =>
    if exactMatch storedRule rule then (none, updateEntries rule (now rule) v.2.1, v.2.2)
    else missingEffect storedRule (none, v.2.1, none)
  | none => (none, v.2.1, none)

variable {table : SwitchTable M T} {s : Push M T} {rule : Entry M T}

section

omit [DecidableEq T]

theorem executeAll_append (table : SwitchTable M T) (commands : List (Command M T))
    (command : Command M T) : executeAll table (commands ++ [command]) =
      execute (executeAll table commands) command := by
  rw [executeAll, List.foldl_append]
  rfl

theorem flowMissing_eq (s : Push M T) (rule : Entry M T) (isFlowOnlyInStore : Bool) :
    ∃ posted, s.flowMissing rule isFlowOnlyInStore = match rule.data.state with
      | .PENDING_REMOVE | .REMOVED =>
        { s with store := (s.store.removeFlowRule rule).1, posted := posted }
      | .ADDED | .PENDING_ADD =>
        { s with commands := s.commands ++ [.applyFlowRule rule], posted := posted }
      | .FAILED => { s with posted := posted } := by
  rw [flowMissing]
  cases rule.data.state with
  | PENDING_ADD => exact ⟨_, rfl⟩
  | ADDED => exact ⟨_, rfl⟩
  | PENDING_REMOVE => exact ⟨_, rfl⟩
  | REMOVED => exact ⟨_, rfl⟩
  | FAILED => exact ⟨s.posted, rfl⟩

theorem view_flowMissing (s : Push M T) (rule : Entry M T) (isFlowOnlyInStore : Bool) (m : M) :
    view table (s.flowMissing rule isFlowOnlyInStore) m =
      if m = rule.rule then missingEffect rule (view table s m) else view table s m := by
  obtain ⟨posted, hmissing⟩ := flowMissing_eq s rule isFlowOnlyInStore
  rw [hmissing, missingEffect]
  have hremoved : ofMatch m (s.store.removeFlowRule rule).1.entries =
      if m = rule.rule then removeEntries rule (ofMatch m s.store.entries)
      else ofMatch m s.store.entries := ofMatch_removeEntries rule s.store.entries m
  cases rule.data.state with
  | PENDING_ADD =>
    simp only [view, executeAll_append, execute, Function.update_apply]
    split_ifs <;> rfl
  | ADDED =>
    simp only [view, executeAll_append, execute, Function.update_apply]
    split_ifs <;> rfl
  | PENDING_REMOVE =>
    simp only [view, hremoved]
    split_ifs <;> rfl
  | REMOVED =>
    simp only [view, hremoved]
    split_ifs <;> rfl
  | FAILED =>
    simp only [view, ite_self]

end

/-- No entry of the store can time out, and `storedRules` has the entries under their own rules. -/
structure Consistent (s : Push M T) : Prop where
  permanent : ∀ e ∈ s.store.entries, e.data.isPermanent = true
  keys : ∀ m pair, s.storedRules.lookup m = some pair → pair.1.rule = m ∧ pair.2.rule = m

section

omit [DecidableEq T]

theorem updateEntries_of_none {es : List (Entry M T)} (h : es.find? (isEntryOf rule) = none)
    (currentTime : ℕ) : updateEntries rule currentTime es = es := by
  refine (List.map_congr_left fun e he => ?_).trans (List.map_id es)
  exact if_neg (List.find?_eq_none.mp h e he)

theorem flowAdded_eq (h : Consistent s) (rule : Entry M T) (currentTime : ℕ) :
    (s.flowAdded rule currentTime).store.entries =
      updateEntries rule currentTime s.store.entries ∧
    (s.flowAdded rule currentTime).storedRules = s.storedRules ∧
    (s.flowAdded rule currentTime).commands = s.commands := by
  cases hstored : s.store.getFlowEntry rule with
  | none =>
    simp only [flowAdded, hstored, checkRuleLiveness]
    exact ⟨(updateEntries_of_none hstored currentTime).symm, rfl, rfl⟩
  | some stored =>
    have hpermanent := h.permanent stored (List.mem_of_find?_eq_some hstored)
    simp only [flowAdded, hstored, checkRuleLiveness, hpermanent, if_true]
    exact ⟨FlowTable.entries_update hstored currentTime, rfl, rfl⟩

theorem flowMissing_keeps (h : Consistent s) (rule : Entry M T) (isFlowOnlyInStore : Bool) :
    Consistent (s.flowMissing rule isFlowOnlyInStore) := by
  obtain ⟨posted, hmissing⟩ := flowMissing_eq s rule isFlowOnlyInStore
  have hremoved : ∀ e ∈ removeEntries rule s.store.entries, e.data.isPermanent = true :=
    fun e he => h.permanent e (mem_removeEntries.mp he).1
  rw [hmissing]
  cases rule.data.state with
  | PENDING_ADD => exact ⟨h.permanent, h.keys⟩
  | ADDED => exact ⟨h.permanent, h.keys⟩
  | PENDING_REMOVE => exact ⟨hremoved, h.keys⟩
  | REMOVED => exact ⟨hremoved, h.keys⟩
  | FAILED => exact ⟨h.permanent, h.keys⟩

end

def taken (s : Push M T) (rule : Entry M T) : Push M T :=
  { s with storedRules := s.storedRules.erase rule.rule }

section

omit [DecidableEq T]

theorem taken_keeps (h : Consistent s) (rule : Entry M T) : Consistent (taken s rule) := by
  refine ⟨h.permanent, fun m pair hpair => h.keys m pair ?_⟩
  rw [taken, lookup_erase] at hpair
  split_ifs at hpair
  exact hpair

theorem view_extraneousFlow (s : Push M T) (rule : Entry M T) (m : M) :
    view table ((taken s rule).extraneousFlow rule) m =
      if m = rule.rule then (none, (view table s m).2.1, none) else view table s m := by
  simp only [taken, extraneousFlow, view, executeAll_append, execute, Function.update_apply,
    lookup_erase]
  split_ifs <;> rfl

end

variable {importExtraneousRules : Bool} {now : Entry M T → ℕ}

theorem pushRule_cases (s : Push M T) (rule : Entry M T) : (s.storedRules.lookup rule.rule = none ∧
      s.pushRule ⟨false, importExtraneousRules⟩ now rule = (taken s rule).extraneousFlow rule) ∨
    ∃ pair, s.storedRules.lookup rule.rule = some pair ∧
      (exactMatch pair.2 rule = true ∧ s.pushRule ⟨false, importExtraneousRules⟩ now rule =
        (taken s rule).flowAdded rule (now rule) ∨
      exactMatch pair.2 rule = false ∧ s.pushRule ⟨false, importExtraneousRules⟩ now rule =
        ((taken s rule).extraneousFlow rule).flowMissing pair.2 false) := by
  rw [pushRule]
  cases s.storedRules.lookup rule.rule with
  | none => exact .inl ⟨rfl, rfl⟩
  | some pair =>
    refine .inr ⟨pair, rfl, ?_⟩
    cases hexact : exactMatch pair.2 rule with
    | true =>
      dsimp only [Option.map_some]
      exact .inl ⟨rfl, if_pos hexact⟩
    | false =>
      dsimp only [Option.map_some]
      exact .inr ⟨rfl, if_neg (hexact ▸ Bool.false_ne_true)⟩

theorem pushRule_keeps (h : Consistent s) (rule : Entry M T) :
    Consistent (s.pushRule ⟨false, importExtraneousRules⟩ now rule) := by
  have htaken := taken_keeps h rule
  rcases pushRule_cases s rule with ⟨-, hpush⟩ | ⟨pair, -, ⟨-, hpush⟩ | ⟨-, hpush⟩⟩
  · rw [hpush]
    exact ⟨htaken.permanent, htaken.keys⟩
  · obtain ⟨hentries, hrules, -⟩ := flowAdded_eq htaken rule (now rule)
    rw [hpush]
    constructor
    · intro e he
      rw [hentries] at he
      obtain ⟨stored, hstored, -, -, hpermanent⟩ := mem_updateEntries he
      exact hpermanent.trans (htaken.permanent stored hstored)
    · rw [hrules]
      exact htaken.keys
  · have hextraneous : Consistent ((taken s rule).extraneousFlow rule) :=
      ⟨htaken.permanent, htaken.keys⟩
    rw [hpush]
    exact flowMissing_keeps hextraneous pair.2 false

theorem view_pushRule (h : Consistent s) (rule : Entry M T) (m : M) :
    view table (s.pushRule ⟨false, importExtraneousRules⟩ now rule) m =
      if m = rule.rule then ruleEffect now rule (view table s m) else view table s m := by
  rcases pushRule_cases s rule with ⟨hstored, hpush⟩ |
    ⟨pair, hstored, ⟨hexact, hpush⟩ | ⟨hexact, hpush⟩⟩
  · rw [hpush, view_extraneousFlow]
    split_ifs with hm
    · subst hm
      simp only [ruleEffect, view, hstored]
    · rfl
  · obtain ⟨hentries, hrules, hcommands⟩ := flowAdded_eq (taken_keeps h rule) rule (now rule)
    rw [hpush, view, hentries, hrules, hcommands, ofMatch_updateEntries, taken, lookup_erase]
    split_ifs with hm
    · subst hm
      simp only [ruleEffect, view, hstored, hexact, if_true]
    · rfl
  · have hkey := (h.keys _ _ hstored).2
    rw [hpush, view_flowMissing, hkey, view_extraneousFlow]
    split_ifs with hm
    · subst hm
      simp only [ruleEffect, view, hstored, hexact, Bool.false_eq_true, if_false]
    · rfl

theorem actsAt_pushRule (table : SwitchTable M T) :
    ActsAt Consistent (view table) (pushRule ⟨false, importExtraneousRules⟩ now)
      FlowEntry.rule (ruleEffect now) where
  keeps _ rule h := pushRule_keeps h rule
  at_key _ rule h := (view_pushRule h rule rule.rule).trans (if_pos rfl)
  elsewhere _ rule m h hm := (view_pushRule h rule m).trans (if_neg hm)

omit [DecidableEq T] in
theorem actsAt_flowMissing (table : SwitchTable M T) :
    ActsAt Consistent (view table) (fun s rule => flowMissing s rule true)
      FlowEntry.rule missingEffect where
  keeps _ rule h := flowMissing_keeps h rule true
  at_key s rule _ := (view_flowMissing s rule true rule.rule).trans (if_pos rfl)
  elsewhere s rule m _ hm := (view_flowMissing s rule true m).trans (if_neg hm)

end Views

section StoredRules

omit [DecidableEq T]

variable {es : List (Entry M T)}

theorem mem_of_mem_toSets {e : Entry M T} (h : e ∈ toSets es) : e ∈ es := by
  induction es with
  | nil => exact h
  | cons first es ih =>
    rcases List.mem_cons.mp h with rfl | h
    · exact List.mem_cons_self
    · exact List.mem_cons_of_mem first (ih (List.mem_filter.mp h).1)

theorem exists_mem_toSets {e : Entry M T} (h : e ∈ es) : ∃ e' ∈ toSets es, e'.rule = e.rule := by
  induction es with
  | nil => exact absurd h List.not_mem_nil
  | cons first es ih =>
    rcases List.mem_cons.mp h with rfl | h
    · exact ⟨e, List.mem_cons_self, rfl⟩
    · obtain ⟨e', he', hrule⟩ := ih h
      by_cases hsame : bucket e'.id = bucket first.id ∧ e'.rule = first.rule
      · exact ⟨first, List.mem_cons_self, hsame.2.symm.trans hrule⟩
      · refine ⟨e', List.mem_cons_of_mem first (List.mem_filter.mpr ⟨he', ?_⟩), hrule⟩
        simpa only [Bool.not_eq_true', ← Bool.not_eq_true, Bool.and_eq_true, decide_eq_true_iff]
          using hsame

theorem lookup_putStoredRule (rules : Table M (Entry M T × Entry M T)) (f : Entry M T) (m : M) :
    (putStoredRule rules f).lookup m =
      if m = f.rule then some (((rules.lookup f.rule).map Prod.fst).getD f, f) else rules.lookup m :=
  lookup_store rules f.rule m _

/-- Both entries that are handed out for a match come from the list, and are of that match. -/
def HandsOut (es : List (Entry M T)) (rules : Table M (Entry M T × Entry M T)) : Prop :=
  ∀ m pair, rules.lookup m = some pair →
    (pair.1 ∈ es ∧ pair.1.rule = m) ∧ pair.2 ∈ es ∧ pair.2.rule = m

variable {rules : Table M (Entry M T × Entry M T)}

theorem handsOut_putStoredRule
    {f : Entry M T} (h : HandsOut es rules) (hf : f ∈ es) : HandsOut es (putStoredRule rules f) := by
  intro m pair hpair
  rw [lookup_putStoredRule] at hpair
  split_ifs at hpair with hm
  · obtain rfl := Option.some.inj hpair
    refine ⟨?_, hf, hm.symm⟩
    cases hold : rules.lookup f.rule with
    | none => exact ⟨hf, hm.symm⟩
    | some old =>
      rw [hm]
      exact (h f.rule old hold).1
  · exact h m pair hpair

theorem handsOut_foldl {es l : List (Entry M T)}
    (h : HandsOut es rules) (hl : ∀ f ∈ l, f ∈ es) : HandsOut es (l.foldl putStoredRule rules) := by
  induction l generalizing rules with
  | nil => exact h
  | cons f l ih =>
    rw [List.forall_mem_cons] at hl
    exact ih (handsOut_putStoredRule h hl.1) hl.2

theorem lookup_foldl_eq_none {l : List (Entry M T)} {m : M}
    (h : (l.foldl putStoredRule rules).lookup m = none) :
    rules.lookup m = none ∧ ∀ f ∈ l, f.rule ≠ m := by
  induction l generalizing rules with
  | nil => exact ⟨h, fun f hf => absurd hf List.not_mem_nil⟩
  | cons f l ih =>
    obtain ⟨hput, hrest⟩ := ih h
    rw [lookup_putStoredRule] at hput
    split_ifs at hput with hm
    exact ⟨hput, List.forall_mem_cons.mpr ⟨Ne.symm hm, hrest⟩⟩

theorem handsOut_storedRulesOf (store : FlowTable M T) :
    HandsOut store.entries (storedRulesOf store) := by
  refine handsOut_foldl (fun m pair hpair => ?_) fun f hf => mem_of_mem_toSets hf
  rw [AList.lookup_empty] at hpair
  cases hpair

theorem ofMatch_eq_nil {store : FlowTable M T} {m : M}
    (h : (storedRulesOf store).lookup m = none) : ofMatch m store.entries = [] := by
  apply List.eq_nil_iff_forall_not_mem.mpr
  intro e he
  obtain ⟨he, hrule⟩ := mem_ofMatch.mp he
  obtain ⟨e', he', hsame⟩ := exists_mem_toSets he
  exact (lookup_foldl_eq_none h).2 e' he' (hsame.trans hrule)

end StoredRules

section Reports

variable {store : FlowTable M T} {report : List (Entry M T)} {m : M}
  {importExtraneousRules : Bool} {now : Entry M T → ℕ} {firstSeen lastSeen : M → Option ℕ}

section

omit [DecidableEq T]

theorem reported_eq_some {rule : Entry M T} (hreport : (report.map FlowEntry.rule).Nodup)
    (h : rule ∈ report) : reported report rule.rule = some (rule.id, rule.data.treatment) := by
  induction report with
  | nil => exact absurd h List.not_mem_nil
  | cons first report ih =>
    rw [List.map_cons, List.nodup_cons] at hreport
    rw [reported, Function.update_apply]
    rcases List.mem_cons.mp h with rfl | h
    · exact if_pos rfl
    · have hne : rule.rule ≠ first.rule :=
        fun hsame => hreport.1 (hsame ▸ List.mem_map_of_mem h)
      rw [if_neg hne]
      exact ih hreport.2 h

theorem reported_eq_none (h : ∀ rule ∈ report, rule.rule ≠ m) : reported report m = none := by
  induction report with
  | nil => rfl
  | cons first report ih =>
    rw [List.forall_mem_cons] at h
    rw [reported, Function.update_apply, if_neg (Ne.symm h.1)]
    exact ih h.2

end

def start (store : FlowTable M T) (firstSeen lastSeen : M → Option ℕ) : Push M T :=
  ⟨store, storedRulesOf store, firstSeen, lastSeen, [], [], []⟩

omit [DecidableEq T] in
theorem consistent_start (h : ∀ e ∈ store.entries, e.data.isPermanent = true) :
    Consistent (start store firstSeen lastSeen) :=
  ⟨h, fun m pair hpair =>
    ⟨(handsOut_storedRulesOf store m pair hpair).1.2, (handsOut_storedRulesOf store m pair hpair).2.2⟩⟩

def afterReport (importExtraneousRules : Bool) (now : Entry M T → ℕ) (store : FlowTable M T)
    (firstSeen lastSeen : M → Option ℕ) (report : List (Entry M T)) : Push M T :=
  report.foldl (pushRule ⟨false, importExtraneousRules⟩ now) (start store firstSeen lastSeen)

omit [DecidableEq T] in
theorem missingEffect_fst (rule : Entry M T) (v : View M T) : (missingEffect rule v).1 = v.1 := by
  rw [missingEffect]
  cases rule.data.state <;> rfl

theorem ruleEffect_fst (rule : Entry M T) (v : View M T) : (ruleEffect now rule v).1 = none := by
  rw [ruleEffect]
  split
  · split_ifs
    · rfl
    · exact missingEffect_fst _ _
  · rfl

section

variable (h : ∀ e ∈ store.entries, e.data.isPermanent = true)

include h

theorem consistent_afterReport :
    Consistent (afterReport importExtraneousRules now store firstSeen lastSeen report) :=
  (actsAt_pushRule (reported report)).foldl_keeps report (consistent_start h)

theorem view_afterReport_of_mem
    (hreport : (report.map FlowEntry.rule).Nodup) {rule : Entry M T} (hrule : rule ∈ report) :
    view (reported report)
      (afterReport importExtraneousRules now store firstSeen lastSeen report) rule.rule =
      ruleEffect now rule ((storedRulesOf store).lookup rule.rule, ofMatch rule.rule store.entries,
        some (rule.id, rule.data.treatment)) := by
  rw [← reported_eq_some hreport hrule]
  exact (actsAt_pushRule (reported report)).foldl_of_mem hreport hrule (consistent_start h)

theorem view_afterReport_of_notMem (hm : ∀ rule ∈ report, rule.rule ≠ m) : view (reported report)
      (afterReport importExtraneousRules now store firstSeen lastSeen report) m =
      ((storedRulesOf store).lookup m, ofMatch m store.entries, none) := by
  rw [← reported_eq_none hm]
  exact (actsAt_pushRule (reported report)).foldl_of_notMem hm (consistent_start h)

end

section

omit [DecidableEq T]

theorem rules_storedRules {s : Push M T} (h : Consistent s) :
    (s.storedRules.entries.map fun pair => pair.2.1).map FlowEntry.rule = s.storedRules.keys := by
  rw [List.map_map]
  apply List.map_congr_left
  rintro ⟨m, pair⟩ hpair
  exact (h.keys m pair ((mem_entries_iff _ m pair).mp hpair)).1

theorem view_missing_of_some {s : Push M T} (h : Consistent s) {pair : Entry M T × Entry M T}
    (hpair : s.storedRules.lookup m = some pair) (table : SwitchTable M T) :
    view table ((s.storedRules.entries.map fun pair => pair.2.1).foldl
      (fun s rule => s.flowMissing rule true) s) m = missingEffect pair.1 (view table s m) := by
  have hnodup : ((s.storedRules.entries.map fun pair => pair.2.1).map FlowEntry.rule).Nodup := by
    rw [rules_storedRules h]
    exact s.storedRules.keys_nodup
  have hmem : pair.1 ∈ s.storedRules.entries.map fun pair => pair.2.1 :=
    List.mem_map.mpr ⟨⟨m, pair⟩, (mem_entries_iff _ m pair).mpr hpair, rfl⟩
  rw [← (h.keys m pair hpair).1]
  exact (actsAt_flowMissing table).foldl_of_mem hnodup hmem h

theorem view_missing_of_none {s : Push M T} (h : Consistent s)
    (hm : s.storedRules.lookup m = none) (table : SwitchTable M T) :
    view table ((s.storedRules.entries.map fun pair => pair.2.1).foldl
      (fun s rule => s.flowMissing rule true) s) m = view table s m := by
  refine (actsAt_flowMissing table).foldl_of_notMem (fun rule hrule hsame => ?_) h
  have hkey : m ∈ s.storedRules.keys := by
    rw [← rules_storedRules h, ← hsame]
    exact List.mem_map_of_mem hrule
  obtain ⟨pair, hpair⟩ := (mem_keys_iff _ m).mp hkey
  rw [hm] at hpair
  cases hpair

end

section

variable (h : ∀ e ∈ store.entries, e.data.isPermanent = true)

include h

theorem view_push_of_mem
    (hreport : (report.map FlowEntry.rule).Nodup) {rule : Entry M T} (hrule : rule ∈ report) :
    view (reported report) (pushFlowMetrics ⟨false, importExtraneousRules⟩ now store firstSeen
      lastSeen report) rule.rule =
      ruleEffect now rule ((storedRulesOf store).lookup rule.rule, ofMatch rule.rule store.entries,
        some (rule.id, rule.data.treatment)) := by
  have hreported : view (reported report) (afterReport importExtraneousRules now store firstSeen
      lastSeen report) rule.rule = _ := view_afterReport_of_mem h hreport hrule
  have hnone := (congrArg Prod.fst hreported).trans (ruleEffect_fst rule _)
  exact (view_missing_of_none (consistent_afterReport h) hnone _).trans hreported

theorem view_push_of_notMem (hm : ∀ rule ∈ report, rule.rule ≠ m) :
    view (reported report) (pushFlowMetrics ⟨false, importExtraneousRules⟩ now store firstSeen
      lastSeen report) m =
      match (storedRulesOf store).lookup m with
      | some pair => missingEffect pair.1 (some pair, ofMatch m store.entries, none)
      | none => (none, ofMatch m store.entries, none) := by
  have hreported : view (reported report) (afterReport importExtraneousRules now store firstSeen
      lastSeen report) m = _ := view_afterReport_of_notMem h hm
  have hsame := congrArg Prod.fst hreported
  cases hlookup : (storedRulesOf store).lookup m with
  | none =>
    rw [hlookup] at hreported hsame
    exact (view_missing_of_none (consistent_afterReport h) hsame _).trans hreported
  | some pair =>
    rw [hlookup] at hreported hsame
    exact (view_missing_of_some (consistent_afterReport h) hsame _).trans (by rw [hreported])

end

end Reports

end FlowRulePush

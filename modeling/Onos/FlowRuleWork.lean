import Onos.FlowRuleReallocation

/-! How the rules of one old and one new intent are sorted into the four lists. A rule leaves the list
that it starts in as soon as a rule of the other intent on its device is compared with it; the copies
with a lower priority come behind the rules that are still there. -/
namespace FlowRuleReallocation

open FlowOperationsProcessor

variable {D S T : Type*} [DecidableEq D] [DecidableEq S] [DecidableEq T] {env : Environment D S}

section Equality

variable {rule other : Rule D S T}

omit [DecidableEq T] in
theorem mem_of_mem_remove {rules : List (Rule D S T)}
    (h : other ∈ remove rule rules) : other ∈ rules := List.mem_of_mem_eraseP h

theorem exactMatch_iff :
    exactMatch rule other = true ↔ key rule = key other ∧ value rule = value other := by
  simp [exactMatch, value, and_assoc]

def Overlaps (rule other : Rule D S T) : Prop :=
  rule.deviceId = other.deviceId ∧ exactMatch rule other = false

instance (rule other : Rule D S T) : Decidable (Overlaps rule other) :=
  inferInstanceAs (Decidable (_ ∧ _))

omit [DecidableEq D] [DecidableEq S] [DecidableEq T] in
theorem deviceId_of_key (h : key rule = key other) :
    rule.deviceId = other.deviceId := congrArg Prod.fst h

theorem overlaps_of_key_ne (hdevice : rule.deviceId = other.deviceId)
    (hkey : key rule ≠ key other) : Overlaps rule other := by
  refine ⟨hdevice, ?_⟩
  rw [← Bool.not_eq_true]
  exact fun hexact => hkey (exactMatch_iff.mp hexact).1

theorem overlaps_or_exact (hdevice : rule.deviceId = other.deviceId) :
    Overlaps rule other ∨ exactMatch rule other = true := by
  cases hexact : exactMatch rule other with
  | true => exact .inr rfl
  | false => exact .inl ⟨hdevice, hexact⟩

omit [DecidableEq T]

theorem eraseP_eq_filter {rules : List (Rule D S T)} (h : (rules.map key).Nodup) :
    rules.eraseP (fun other => key other = key rule) = rules.filter fun r => key r ≠ key rule := by
  induction rules with
  | nil => rfl
  | cons first rules ih =>
    rw [List.map_cons, List.nodup_cons] at h
    by_cases hfirst : key first = key rule
    · have hrest : rules.filter (fun r => key r ≠ key rule) = rules := by
        apply List.filter_eq_self.mpr
        intro other hother
        refine decide_eq_true fun hsame => h.1 ?_
        rw [hfirst, ← hsame]
        exact List.mem_map_of_mem hother
      rw [List.eraseP_cons_of_pos (by simpa using hfirst),
        List.filter_cons_of_neg (by simpa using hfirst), hrest]
    · rw [List.eraseP_cons_of_neg (by simpa using hfirst),
        List.filter_cons_of_pos (by simpa using hfirst), ih h.2]

theorem remove_append (rule : Rule D S T) {front : List (Rule D S T)} (back : List (Rule D S T))
    (hfront : (front.map key).Nodup) :
    ∃ back', remove rule (front ++ back) = front.filter (fun r => key r ≠ key rule) ++ back' ∧
      ∀ r ∈ back', r ∈ back := by
  by_cases hmem : ∃ r ∈ front, key r = key rule
  · refine ⟨back, ?_, fun r hr => hr⟩
    obtain ⟨r, hr, hkey⟩ := hmem
    rw [remove, List.eraseP_append_left (p := fun other => key other = key rule)
      (decide_eq_true hkey) back hr, eraseP_eq_filter hfront]
  · have hnone : ∀ r ∈ front, key r ≠ key rule := fun r hr hkey => hmem ⟨r, hr, hkey⟩
    refine ⟨remove rule back, ?_, fun r hr => mem_of_mem_remove hr⟩
    have hfilter : front.filter (fun r => key r ≠ key rule) = front :=
      List.filter_eq_self.mpr fun r hr => decide_eq_true (hnone r hr)
    rw [hfilter, remove, List.eraseP_append_right _ fun r hr => by simpa using hnone r hr, remove]

end Equality

section Work

/-- What comparing two rules does when the new one has a positive priority. -/
def compared (env : Environment D S) (w : Work D S T) (pair : Rule D S T × Rule D S T) : Work D S T :=
  if exactMatch pair.2 pair.1 then
    { w with
      uninstallFlowRules := remove pair.2 w.uninstallFlowRules
      installFlowRules := remove pair.2 w.installFlowRules }
  else if pair.2.deviceId = pair.1.deviceId then
    { installFlowRules := remove pair.2 w.installFlowRules ++ [lowered env pair.2]
      secondStageRules := w.secondStageRules ++ [pair.1]
      uninstallFlowRules := remove pair.1 w.uninstallFlowRules ++ [lowered env pair.2]
      thirdStageRules := w.thirdStageRules ++ [pair.2] }
  else w

theorem compareRules_eq {w : Work D S T} {pair : Rule D S T × Rule D S T}
    (h : 1 ≤ pair.2.content.priority) : compareRules env w pair = some (compared env w pair) := by
  have hlower : flowRuleWithLowerPriority env pair.2 = some (lowered env pair.2) :=
    if_neg (by omega)
  simp only [compareRules, compared, hlower, Option.map_some]
  split_ifs <;> rfl

omit [DecidableEq D] [DecidableEq S] [DecidableEq T] in
theorem mem_pairs {α β : Type*} {outer : List α} {inner : List β} {p : α × β} :
    p ∈ pairs outer inner ↔ p.1 ∈ outer ∧ p.2 ∈ inner := by
  simp [pairs, Prod.ext_iff]

theorem foldlM_eq_some {α β : Type*} {f : β → α → Option β} {g : β → α → β} {l : List α}
    (h : ∀ b, ∀ a ∈ l, f b a = some (g b a)) (b : β) : l.foldlM f b = some (l.foldl g b) := by
  induction l generalizing b with
  | nil => rfl
  | cons a l ih =>
    rw [List.foldlM_cons, h b a List.mem_cons_self]
    exact ih (fun b a' ha' => h b a' (List.mem_cons_of_mem a ha')) (g b a)

def OldSeen (seen : List (Rule D S T × Rule D S T)) (r : Rule D S T) : Prop :=
  ∃ p ∈ seen, p.1 = r ∧ p.2.deviceId = r.deviceId

def NewSeen (seen : List (Rule D S T × Rule D S T)) (r : Rule D S T) : Prop :=
  ∃ p ∈ seen, p.2 = r ∧ p.1.deviceId = r.deviceId

instance (seen : List (Rule D S T × Rule D S T)) : DecidablePred (OldSeen seen) :=
  fun r => inferInstanceAs (Decidable (∃ p ∈ seen, p.1 = r ∧ p.2.deviceId = r.deviceId))

instance (seen : List (Rule D S T × Rule D S T)) : DecidablePred (NewSeen seen) :=
  fun r => inferInstanceAs (Decidable (∃ p ∈ seen, p.2 = r ∧ p.1.deviceId = r.deviceId))

def Remaining (env : Environment D S) (seen : List (Rule D S T × Rule D S T))
    (untouched rules : List (Rule D S T)) : Prop :=
  ∃ copies, rules = untouched ++ copies ∧
    ∀ r ∈ copies, ∃ p ∈ seen, Overlaps p.2 p.1 ∧ r = lowered env p.2

structure Sorted (env : Environment D S) (uninstall install : List (Rule D S T))
    (seen : List (Rule D S T × Rule D S T)) (w : Work D S T) : Prop where
  second : ∀ r, r ∈ w.secondStageRules ↔ ∃ p ∈ seen, p.1 = r ∧ Overlaps p.2 p.1
  third : ∀ r, r ∈ w.thirdStageRules ↔ ∃ p ∈ seen, p.2 = r ∧ Overlaps p.2 p.1
  uninstalled : Remaining env seen (uninstall.filter fun r => ¬ OldSeen seen r) w.uninstallFlowRules
  installed : Remaining env seen (install.filter fun r => ¬ NewSeen seen r) w.installFlowRules

variable {uninstall install rules : List (Rule D S T)} {seen : List (Rule D S T × Rule D S T)}
  {w : Work D S T} {pair : Rule D S T × Rule D S T}

omit [DecidableEq D] [DecidableEq S] [DecidableEq T] in
theorem filter_or_eq (touched touched' : Rule D S T → Prop) [DecidablePred touched]
    [DecidablePred touched'] (h : ∀ r ∈ rules, touched' r ↔ touched r) :
    rules.filter (fun r => ¬ touched' r) = rules.filter fun r => ¬ touched r := by
  apply List.filter_congr
  intro r hr
  simp only [h r hr]

theorem remaining_remove (hrules : (rules.map key).Nodup) {rule : Rule D S T} (hrule : rule ∈ rules)
    {touched touched' : Rule D S T → Prop} [DecidablePred touched] [DecidablePred touched']
    (htouched : ∀ r, touched' r ↔ touched r ∨ r = rule) {l : List (Rule D S T)}
    (h : Remaining env seen (rules.filter fun r => ¬ touched r) l) :
    Remaining env seen (rules.filter fun r => ¬ touched' r) (remove rule l) := by
  obtain ⟨copies, rfl, hcopies⟩ := h
  have hnodup : ((rules.filter fun r => ¬ touched r).map key).Nodup :=
    hrules.sublist (List.filter_sublist.map key)
  obtain ⟨copies', hremove, hsub⟩ := remove_append rule copies hnodup
  refine ⟨copies', hremove.trans (congrArg (· ++ copies') ?_), fun r hr => hcopies r (hsub r hr)⟩
  rw [List.filter_filter]
  apply List.filter_congr
  intro r hr
  have hkey : key r = key rule ↔ r = rule :=
    ⟨List.inj_on_of_nodup_map hrules hr hrule, congrArg key⟩
  simp only [hkey, htouched, ne_eq, not_or, Bool.decide_and]
  exact Bool.and_comm _ _

theorem Remaining.mono {untouched l : List (Rule D S T)} (h : Remaining env seen untouched l)
    (pair : Rule D S T × Rule D S T) : Remaining env (seen ++ [pair]) untouched l := by
  obtain ⟨copies, rfl, hcopies⟩ := h
  refine ⟨copies, rfl, fun r hr => ?_⟩
  obtain ⟨p, hp, hcopy⟩ := hcopies r hr
  exact ⟨p, List.mem_append_left _ hp, hcopy⟩

theorem Remaining.snoc {untouched l : List (Rule D S T)} (h : Remaining env seen untouched l)
    (hoverlaps : Overlaps pair.2 pair.1) :
    Remaining env (seen ++ [pair]) untouched (l ++ [lowered env pair.2]) := by
  obtain ⟨copies, rfl, hcopies⟩ := h.mono pair
  refine ⟨copies ++ [lowered env pair.2], List.append_assoc _ _ _, fun r hr => ?_⟩
  rcases List.mem_append.mp hr with hr | hr
  · exact hcopies r hr
  · exact ⟨pair, List.mem_append_right _ List.mem_cons_self, hoverlaps, List.mem_singleton.mp hr⟩

section

omit [DecidableEq D] [DecidableEq S] [DecidableEq T]

theorem oldSeen_snoc (r : Rule D S T) : OldSeen (seen ++ [pair]) r ↔
    OldSeen seen r ∨ pair.1 = r ∧ pair.2.deviceId = r.deviceId := by
  simp [OldSeen, or_and_right, exists_or]

theorem newSeen_snoc (r : Rule D S T) : NewSeen (seen ++ [pair]) r ↔
    NewSeen seen r ∨ pair.2 = r ∧ pair.1.deviceId = r.deviceId := by
  simp [NewSeen, or_and_right, exists_or]

end

theorem sorted_compared (huninstall : (uninstall.map key).Nodup) (hinstall : (install.map key).Nodup)
    (h : Sorted env uninstall install seen w) (hpair : pair.1 ∈ uninstall ∧ pair.2 ∈ install) :
    Sorted env uninstall install (seen ++ [pair]) (compared env w pair) := by
  have hold : pair.2.deviceId = pair.1.deviceId →
      ∀ r, OldSeen (seen ++ [pair]) r ↔ OldSeen seen r ∨ r = pair.1 := by
    intro hdevice r
    rw [oldSeen_snoc]
    refine or_congr_right ⟨fun hr => hr.1.symm, ?_⟩
    rintro rfl
    exact ⟨rfl, hdevice⟩
  have hnew : pair.2.deviceId = pair.1.deviceId →
      ∀ r, NewSeen (seen ++ [pair]) r ↔ NewSeen seen r ∨ r = pair.2 := by
    intro hdevice r
    rw [newSeen_snoc]
    refine or_congr_right ⟨fun hr => hr.1.symm, ?_⟩
    rintro rfl
    exact ⟨rfl, hdevice.symm⟩
  have hsecond : ∀ r, (∃ p ∈ seen ++ [pair], p.1 = r ∧ Overlaps p.2 p.1) ↔
      (∃ p ∈ seen, p.1 = r ∧ Overlaps p.2 p.1) ∨ pair.1 = r ∧ Overlaps pair.2 pair.1 := by
    simp [or_and_right, exists_or]
  have hthird : ∀ r, (∃ p ∈ seen ++ [pair], p.2 = r ∧ Overlaps p.2 p.1) ↔
      (∃ p ∈ seen, p.2 = r ∧ Overlaps p.2 p.1) ∨ pair.2 = r ∧ Overlaps pair.2 pair.1 := by
    simp [or_and_right, exists_or]
  rw [compared]
  split_ifs with hexact hdevice
  · obtain ⟨hkey, _⟩ := exactMatch_iff.mp hexact
    have hdevice := deviceId_of_key hkey
    have hno : ¬ Overlaps pair.2 pair.1 := fun ho => Bool.false_ne_true (ho.2.symm.trans hexact)
    have hsame : remove pair.2 w.uninstallFlowRules = remove pair.1 w.uninstallFlowRules := by
      rw [remove, hkey, remove]
    refine ⟨fun r => ?_, fun r => ?_, ?_, ?_⟩
    · rw [hsecond, h.second]
      simp only [hno, and_false, or_false]
    · rw [hthird, h.third]
      simp only [hno, and_false, or_false]
    · rw [hsame]
      exact (remaining_remove huninstall hpair.1 (hold hdevice) h.uninstalled).mono pair
    · exact (remaining_remove hinstall hpair.2 (hnew hdevice) h.installed).mono pair
  · have hoverlaps : Overlaps pair.2 pair.1 := ⟨hdevice, by simpa using hexact⟩
    refine ⟨fun r => ?_, fun r => ?_, ?_, ?_⟩
    · rw [hsecond, List.mem_append, h.second, List.mem_singleton]
      simp only [hoverlaps, and_true, eq_comm]
    · rw [hthird, List.mem_append, h.third, List.mem_singleton]
      simp only [hoverlaps, and_true, eq_comm]
    · exact (remaining_remove huninstall hpair.1 (hold hdevice) h.uninstalled).snoc hoverlaps
    · exact (remaining_remove hinstall hpair.2 (hnew hdevice) h.installed).snoc hoverlaps
  · have hno : ¬ Overlaps pair.2 pair.1 := fun ho => hdevice ho.1
    have hsameOld : ∀ r ∈ uninstall, OldSeen (seen ++ [pair]) r ↔ OldSeen seen r := by
      intro r _
      rw [oldSeen_snoc, or_iff_left]
      rintro ⟨rfl, hsame⟩
      exact hdevice hsame
    have hsameNew : ∀ r ∈ install, NewSeen (seen ++ [pair]) r ↔ NewSeen seen r := by
      intro r _
      rw [newSeen_snoc, or_iff_left]
      rintro ⟨rfl, hsame⟩
      exact hdevice hsame.symm
    refine ⟨fun r => ?_, fun r => ?_, ?_, ?_⟩
    · rw [hsecond, h.second]
      simp only [hno, and_false, or_false]
    · rw [hthird, h.third]
      simp only [hno, and_false, or_false]
    · rw [filter_or_eq _ _ hsameOld]
      exact h.uninstalled.mono pair
    · rw [filter_or_eq _ _ hsameNew]
      exact h.installed.mono pair

/-- The key of a copy is among the rules to remove last, or its rule was removed there before. -/
def Copied (env : Environment D S) (install : List (Rule D S T))
    (seen : List (Rule D S T × Rule D S T)) (w : Work D S T) : Prop :=
  ∀ p ∈ seen, Overlaps p.2 p.1 →
    (∃ r ∈ w.uninstallFlowRules, key r = key (lowered env p.2)) ∨
    (∃ r ∈ w.secondStageRules, key r = key (lowered env p.2)) ∨
    ∃ r ∈ install, key r = key (lowered env p.2)

omit [DecidableEq T] in
theorem mem_remove_of_ne {rule r : Rule D S T} (h : r ∈ rules) (hkey : key r ≠ key rule) :
    r ∈ remove rule rules := by
  apply (List.mem_eraseP_of_neg _).mpr h
  simpa using hkey

theorem copied_compared (h : Copied env install seen w) (hpair : pair.2 ∈ install) :
    Copied env install (seen ++ [pair]) (compared env w pair) := by
  rw [compared]
  split_ifs with hexact hdevice
  · intro p hp hoverlaps
    rcases List.mem_append.mp hp with hp | hp
    · rcases h p hp hoverlaps with ⟨r, hr, hkey⟩ | hrest
      · by_cases hsame : key r = key pair.2
        · exact .inr (.inr ⟨pair.2, hpair, hsame.symm.trans hkey⟩)
        · exact .inl ⟨r, mem_remove_of_ne hr hsame, hkey⟩
      · exact .inr hrest
    · rw [List.mem_singleton.mp hp] at hoverlaps
      exact absurd (hoverlaps.2.symm.trans hexact) Bool.false_ne_true
  · intro p hp hoverlaps
    rcases List.mem_append.mp hp with hp | hp
    · rcases h p hp hoverlaps with ⟨r, hr, hkey⟩ | ⟨r, hr, hkey⟩ | hnew
      · by_cases hsame : key r = key pair.1
        · exact .inr (.inl ⟨pair.1, List.mem_append_right _ List.mem_cons_self,
            hsame.symm.trans hkey⟩)
        · exact .inl ⟨r, List.mem_append_left _ (mem_remove_of_ne hr hsame), hkey⟩
      · exact .inr (.inl ⟨r, List.mem_append_left _ hr, hkey⟩)
      · exact .inr (.inr hnew)
    · rw [List.mem_singleton.mp hp]
      exact .inl ⟨lowered env pair.2, List.mem_append_right _ List.mem_cons_self, rfl⟩
  · intro p hp hoverlaps
    rcases List.mem_append.mp hp with hp | hp
    · exact h p hp hoverlaps
    · rw [List.mem_singleton.mp hp] at hoverlaps
      exact absurd hoverlaps.1 hdevice

theorem sorted_foldl (huninstall : (uninstall.map key).Nodup) (hinstall : (install.map key).Nodup)
    {rest : List (Rule D S T × Rule D S T)} (hrest : ∀ p ∈ rest, p.1 ∈ uninstall ∧ p.2 ∈ install)
    (h : Sorted env uninstall install seen w) (hcopied : Copied env install seen w) :
    Sorted env uninstall install (seen ++ rest) (rest.foldl (compared env) w) ∧
      Copied env install (seen ++ rest) (rest.foldl (compared env) w) := by
  induction rest generalizing seen w with
  | nil =>
    rw [List.append_nil]
    exact ⟨h, hcopied⟩
  | cons pair rest ih =>
    rw [List.forall_mem_cons] at hrest
    have hnext := ih hrest.2 (sorted_compared huninstall hinstall h hrest.1)
      (copied_compared hcopied hrest.1.2)
    rwa [List.append_assoc] at hnext

def workOf (env : Environment D S) (installIntent uninstallIntent : FlowRuleIntent D S T) :
    Work D S T :=
  (pairs uninstallIntent.flowRules installIntent.flowRules).foldl (compared env)
    ⟨uninstallIntent.flowRules, installIntent.flowRules, [], []⟩

variable {installIntent uninstallIntent : FlowRuleIntent D S T}

theorem compareIntents_eq (h : ∀ rule ∈ installIntent.flowRules, 1 ≤ rule.content.priority) :
    compareIntents env installIntent uninstallIntent =
      some (workOf env installIntent uninstallIntent) := by
  apply foldlM_eq_some
  intro w pair hpair
  exact compareRules_eq (h pair.2 (mem_pairs.mp hpair).2)

structure SortedInto (env : Environment D S) (uninstall install : List (Rule D S T))
    (w : Work D S T) : Prop where
  second : ∀ r, r ∈ w.secondStageRules ↔ r ∈ uninstall ∧ ∃ n ∈ install, Overlaps n r
  third : ∀ r, r ∈ w.thirdStageRules ↔ r ∈ install ∧ ∃ o ∈ uninstall, Overlaps r o
  kept : ∀ r ∈ uninstall, (∀ n ∈ install, n.deviceId ≠ r.deviceId) → r ∈ w.uninstallFlowRules
  uninstalled : ∀ r ∈ w.uninstallFlowRules,
    (r ∈ uninstall ∧ ∀ n ∈ install, n.deviceId ≠ r.deviceId) ∨
    ∃ n ∈ install, (∃ o ∈ uninstall, Overlaps n o) ∧ r = lowered env n
  added : ∀ r ∈ install, (∀ o ∈ uninstall, o.deviceId ≠ r.deviceId) → r ∈ w.installFlowRules
  installed : ∀ r ∈ w.installFlowRules, r ∈ install ∨
    ∃ n ∈ install, (∃ o ∈ uninstall, Overlaps n o) ∧ r = lowered env n
  copied : ∀ n ∈ install, (∃ o ∈ uninstall, Overlaps n o) →
    (∃ r ∈ w.uninstallFlowRules, key r = key (lowered env n)) ∨
    (∃ r ∈ w.secondStageRules, key r = key (lowered env n)) ∨
    ∃ r ∈ install, key r = key (lowered env n)

theorem sortedInto_workOf (env : Environment D S)
    (huninstall : (uninstallIntent.flowRules.map key).Nodup)
    (hinstall : (installIntent.flowRules.map key).Nodup) :
    SortedInto env uninstallIntent.flowRules installIntent.flowRules
      (workOf env installIntent uninstallIntent) := by
  have hstart : Sorted env uninstallIntent.flowRules installIntent.flowRules []
      (⟨uninstallIntent.flowRules, installIntent.flowRules, [], []⟩ : Work D S T) := by
    refine ⟨fun r => by simp, fun r => by simp, ⟨[], ?_, by simp⟩, ⟨[], ?_, by simp⟩⟩
    · simp [OldSeen]
    · simp [NewSeen]
  obtain ⟨h, hcopied⟩ := sorted_foldl huninstall hinstall
    (fun p hp => mem_pairs.mp hp) hstart fun p hp => absurd hp List.not_mem_nil
  rw [List.nil_append] at h hcopied
  have hpairs : ∀ {n o}, n ∈ installIntent.flowRules → o ∈ uninstallIntent.flowRules →
      (o, n) ∈ pairs uninstallIntent.flowRules installIntent.flowRules :=
    fun hn ho => mem_pairs.mpr ⟨ho, hn⟩
  obtain ⟨oldCopies, holds, hold⟩ := h.uninstalled
  obtain ⟨newCopies, hnews, hnew⟩ := h.installed
  refine ⟨fun r => (h.second r).trans ?_, fun r => (h.third r).trans ?_, fun r hr hno => ?_,
    fun r hr => ?_, fun r hr hno => ?_, fun r hr => ?_, fun n hn ⟨o, ho, hoverlaps⟩ => ?_⟩
  · constructor
    · rintro ⟨p, hp, rfl, hoverlaps⟩
      exact ⟨(mem_pairs.mp hp).1, p.2, (mem_pairs.mp hp).2, hoverlaps⟩
    · rintro ⟨hr, n, hn, hoverlaps⟩
      exact ⟨(r, n), hpairs hn hr, rfl, hoverlaps⟩
  · constructor
    · rintro ⟨p, hp, rfl, hoverlaps⟩
      exact ⟨(mem_pairs.mp hp).2, p.1, (mem_pairs.mp hp).1, hoverlaps⟩
    · rintro ⟨hr, o, ho, hoverlaps⟩
      exact ⟨(o, r), hpairs hr ho, rfl, hoverlaps⟩
  · rw [workOf, holds]
    refine List.mem_append_left _ (List.mem_filter.mpr ⟨hr, decide_eq_true ?_⟩)
    rintro ⟨p, hp, rfl, hdevice⟩
    exact hno p.2 (mem_pairs.mp hp).2 hdevice
  · rw [workOf, holds] at hr
    rcases List.mem_append.mp hr with hr | hr
    · obtain ⟨hr, huntouched⟩ := List.mem_filter.mp hr
      exact .inl ⟨hr, fun n hn hdevice =>
        of_decide_eq_true huntouched ⟨(r, n), hpairs hn hr, rfl, hdevice⟩⟩
    · obtain ⟨p, hp, hoverlaps, hcopy⟩ := hold r hr
      obtain ⟨ho, hn⟩ := mem_pairs.mp hp
      exact .inr ⟨p.2, hn, ⟨p.1, ho, hoverlaps⟩, hcopy⟩
  · rw [workOf, hnews]
    refine List.mem_append_left _ (List.mem_filter.mpr ⟨hr, decide_eq_true ?_⟩)
    rintro ⟨p, hp, rfl, hdevice⟩
    exact hno p.1 (mem_pairs.mp hp).1 hdevice
  · rw [workOf, hnews] at hr
    rcases List.mem_append.mp hr with hr | hr
    · exact .inl (List.mem_filter.mp hr).1
    · obtain ⟨p, hp, hoverlaps, hcopy⟩ := hnew r hr
      obtain ⟨ho, hn⟩ := mem_pairs.mp hp
      exact .inr ⟨p.2, hn, ⟨p.1, ho, hoverlaps⟩, hcopy⟩
  · exact hcopied (o, n) (hpairs hn ho) hoverlaps

end Work

end FlowRuleReallocation

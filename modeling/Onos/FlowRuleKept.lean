import Onos.FlowRuleTables

/-! When a reallocation ends in the new rules. It loses a rule that old and new intents share when
another rule comes in on the device, or when an intent without the device is compared with it. -/
namespace FlowRuleReallocation

open FlowOperationsProcessor

variable {D S T : Type*} [DecidableEq D] [DecidableEq S] [DecidableEq T]

def rulesOf (intents : List (FlowRuleIntent D S T)) : List (Rule D S T) :=
  intents.flatMap FlowRuleIntent.flowRules

def lowerKey (rule : Rule D S T) : Key D S :=
  (rule.deviceId, rule.content.selector, rule.content.priority - 1, DEFAULT_TABLE)

structure Kept (uninstallIntents installIntents : List (FlowRuleIntent D S T)) : Prop where
  /-- Without old intents nothing is installed. -/
  someOld : uninstallIntents = [] → rulesOf installIntents = []
  /-- Without new intents nothing is removed. -/
  someNew : installIntents = [] → rulesOf uninstallIntents = []
  /-- The last stage does not remove an old rule that a new one equals. -/
  notLast : ∀ o ∈ rulesOf uninstallIntents, (∃ n ∈ rulesOf installIntents, key n = key o) →
    ∀ i ∈ installIntents, ∃ n ∈ i.flowRules, n.deviceId = o.deviceId
  /-- A shared rule that the second stage removes is added again in the third one. -/
  addedAgain : ∀ o ∈ rulesOf uninstallIntents, ∀ n ∈ rulesOf installIntents,
    exactMatch n o = true →
    (∃ n' ∈ rulesOf installIntents, n'.deviceId = o.deviceId ∧ key n' ≠ key o) →
    ∃ o' ∈ rulesOf uninstallIntents, o'.deviceId = o.deviceId ∧ key o' ≠ key o

def Apart (uninstallIntents installIntents : List (FlowRuleIntent D S T)) : Prop :=
  ∀ n ∈ rulesOf installIntents, (∃ o ∈ rulesOf uninstallIntents, Overlaps n o) →
    ∀ n' ∈ rulesOf installIntents, key n' ≠ lowerKey n

section Lists

variable {env : Environment D S} {uninstallIntents installIntents : List (FlowRuleIntent D S T)}

section

omit [DecidableEq D] [DecidableEq S] [DecidableEq T]

theorem mem_rulesOf {r : Rule D S T} {intents : List (FlowRuleIntent D S T)} :
    r ∈ rulesOf intents ↔ ∃ i ∈ intents, r ∈ i.flowRules := List.mem_flatMap

theorem nodup_of_rulesOf {intents : List (FlowRuleIntent D S T)}
    (h : ((rulesOf intents).map key).Nodup) {i : FlowRuleIntent D S T} (hi : i ∈ intents) :
    (i.flowRules.map key).Nodup := by
  rw [rulesOf, List.map_flatMap] at h
  exact List.nodup_flatMap.mp h |>.1 i hi

end

/-- The rules that are added first, removed second, added third and removed at last. -/
structure Lists (uninstallIntents installIntents : List (FlowRuleIntent D S T))
    (F S₂ T₃ L : List (Rule D S T)) : Prop where
  second : ∀ r, r ∈ S₂ ↔ r ∈ rulesOf uninstallIntents ∧ ∃ n ∈ rulesOf installIntents, Overlaps n r
  third : ∀ r, r ∈ T₃ ↔ r ∈ rulesOf installIntents ∧ ∃ o ∈ rulesOf uninstallIntents, Overlaps r o
  kept : ∀ r ∈ rulesOf uninstallIntents, ∀ i ∈ installIntents,
    (∀ n ∈ i.flowRules, n.deviceId ≠ r.deviceId) → r ∈ L
  final : ∀ r ∈ L, (r ∈ rulesOf uninstallIntents ∧
      ∃ i ∈ installIntents, ∀ n ∈ i.flowRules, n.deviceId ≠ r.deviceId) ∨
    ∃ n ∈ rulesOf installIntents, (∃ o ∈ rulesOf uninstallIntents, Overlaps n o) ∧
      key r = lowerKey n
  added : ∀ r ∈ rulesOf installIntents, ∀ u ∈ uninstallIntents,
    (∀ o ∈ u.flowRules, o.deviceId ≠ r.deviceId) → r ∈ F
  first : ∀ r ∈ F, r ∈ rulesOf installIntents ∨
    (∃ n ∈ rulesOf installIntents, (∃ o ∈ rulesOf uninstallIntents, Overlaps n o) ∧
      key r = lowerKey n) ∧
    ((∃ r' ∈ L, key r' = key r) ∨ (∃ r' ∈ S₂, key r' = key r) ∨
      ∃ r' ∈ rulesOf installIntents, key r' = key r)

theorem lists_of_prepared {s : Stages D S T} (holdKeys : ((rulesOf uninstallIntents).map key).Nodup)
    (hnewKeys : ((rulesOf installIntents).map key).Nodup)
    (h : Prepared env (pairs installIntents uninstallIntents) s) :
    Lists uninstallIntents installIntents
      ((pairs installIntents uninstallIntents).flatMap
        fun p => (workOf env p.1 p.2).installFlowRules) s.second
      ((pairs installIntents uninstallIntents).flatMap
        fun p => (workOf env p.1 p.2).thirdStageRules)
      ((pairs installIntents uninstallIntents).flatMap
        fun p => (workOf env p.1 p.2).uninstallFlowRules) := by
  have hwork : ∀ i ∈ installIntents, ∀ u ∈ uninstallIntents,
      SortedInto env u.flowRules i.flowRules (workOf env i u) := fun i hi u hu =>
    sortedInto_workOf env (nodup_of_rulesOf holdKeys hu) (nodup_of_rulesOf hnewKeys hi)
  constructor
  · intro r
    rw [h.second]
    constructor
    · rintro ⟨⟨i, u⟩, hp, hr⟩
      obtain ⟨hi, hu⟩ := mem_pairs.mp hp
      obtain ⟨hr, n, hn, hoverlaps⟩ := ((hwork i hi u hu).second r).mp hr
      exact ⟨mem_rulesOf.mpr ⟨u, hu, hr⟩, n, mem_rulesOf.mpr ⟨i, hi, hn⟩, hoverlaps⟩
    · rintro ⟨hr, n, hn, hoverlaps⟩
      obtain ⟨u, hu, hr⟩ := mem_rulesOf.mp hr
      obtain ⟨i, hi, hn⟩ := mem_rulesOf.mp hn
      exact ⟨(i, u), mem_pairs.mpr ⟨hi, hu⟩, ((hwork i hi u hu).second r).mpr ⟨hr, n, hn, hoverlaps⟩⟩
  · intro r
    rw [List.mem_flatMap]
    constructor
    · rintro ⟨⟨i, u⟩, hp, hr⟩
      obtain ⟨hi, hu⟩ := mem_pairs.mp hp
      obtain ⟨hr, o, ho, hoverlaps⟩ := ((hwork i hi u hu).third r).mp hr
      exact ⟨mem_rulesOf.mpr ⟨i, hi, hr⟩, o, mem_rulesOf.mpr ⟨u, hu, ho⟩, hoverlaps⟩
    · rintro ⟨hr, o, ho, hoverlaps⟩
      obtain ⟨i, hi, hr⟩ := mem_rulesOf.mp hr
      obtain ⟨u, hu, ho⟩ := mem_rulesOf.mp ho
      exact ⟨(i, u), mem_pairs.mpr ⟨hi, hu⟩, ((hwork i hi u hu).third r).mpr ⟨hr, o, ho, hoverlaps⟩⟩
  · intro r hr i hi hno
    obtain ⟨u, hu, hr⟩ := mem_rulesOf.mp hr
    exact List.mem_flatMap.mpr ⟨(i, u), mem_pairs.mpr ⟨hi, hu⟩, (hwork i hi u hu).kept r hr hno⟩
  · intro r hr
    obtain ⟨⟨i, u⟩, hp, hr⟩ := List.mem_flatMap.mp hr
    obtain ⟨hi, hu⟩ := mem_pairs.mp hp
    rcases (hwork i hi u hu).uninstalled r hr with ⟨hr, hno⟩ | ⟨n, hn, ⟨o, ho, hoverlaps⟩, hcopy⟩
    · exact .inl ⟨mem_rulesOf.mpr ⟨u, hu, hr⟩, i, hi, hno⟩
    · exact .inr ⟨n, mem_rulesOf.mpr ⟨i, hi, hn⟩, ⟨o, mem_rulesOf.mpr ⟨u, hu, ho⟩, hoverlaps⟩,
        congrArg key hcopy⟩
  · intro r hr u hu hno
    obtain ⟨i, hi, hr⟩ := mem_rulesOf.mp hr
    exact List.mem_flatMap.mpr ⟨(i, u), mem_pairs.mpr ⟨hi, hu⟩, (hwork i hi u hu).added r hr hno⟩
  · intro r hr
    obtain ⟨⟨i, u⟩, hp, hr⟩ := List.mem_flatMap.mp hr
    obtain ⟨hi, hu⟩ := mem_pairs.mp hp
    rcases (hwork i hi u hu).installed r hr with hr | ⟨n, hn, ⟨o, ho, hoverlaps⟩, hcopy⟩
    · exact .inl (mem_rulesOf.mpr ⟨i, hi, hr⟩)
    · refine .inr ⟨⟨n, mem_rulesOf.mpr ⟨i, hi, hn⟩, ⟨o, mem_rulesOf.mpr ⟨u, hu, ho⟩, hoverlaps⟩,
        congrArg key hcopy⟩, ?_⟩
      rw [hcopy]
      rcases (hwork i hi u hu).copied n hn ⟨o, ho, hoverlaps⟩ with
        ⟨r', hr', hkey⟩ | ⟨r', hr', hkey⟩ | ⟨r', hr', hkey⟩
      · exact .inl ⟨r', List.mem_flatMap.mpr ⟨(i, u), hp, hr'⟩, hkey⟩
      · exact .inr (.inl ⟨r', (h.second r').mpr ⟨(i, u), hp, hr'⟩, hkey⟩)
      · exact .inr (.inr ⟨r', mem_rulesOf.mpr ⟨i, hi, hr'⟩, hkey⟩)

variable {F S₂ T₃ L : List (Rule D S T)}

def afterStages (uninstallIntents : List (FlowRuleIntent D S T)) (F S₂ T₃ L : List (Rule D S T)) :
    Tables D S T :=
  removeFrom (addTo (removeFrom (addTo (holding (rulesOf uninstallIntents)) F) S₂) T₃) L

theorem afterStages_old (h : Lists uninstallIntents installIntents F S₂ T₃ L)
    (hkept : Kept uninstallIntents installIntents) {k : Key D S}
    (hk : ∀ n ∈ rulesOf installIntents, key n ≠ k) :
    afterStages uninstallIntents F S₂ T₃ L k = none := by
  by_cases hlast : ∃ r ∈ L, key r = k
  · exact removeFrom_of_mem hlast
  have hthird : ∀ r ∈ T₃, key r ≠ k := fun r hr => hk r ((h.third r).mp hr).1
  refine (removeFrom_of_notMem fun r hr hkey => hlast ⟨r, hr, hkey⟩).trans
    ((addTo_of_notMem hthird).trans ?_)
  by_cases hsecond : ∃ r ∈ S₂, key r = k
  · exact removeFrom_of_mem hsecond
  refine (removeFrom_of_notMem fun r hr hkey => hsecond ⟨r, hr, hkey⟩).trans ?_
  have hfirst : ∀ r ∈ F, key r ≠ k := by
    rintro r hr rfl
    rcases h.first r hr with hnew | ⟨_, hgone | hgone | ⟨n, hn, hkey⟩⟩
    · exact hk r hnew rfl
    · exact hlast hgone
    · exact hsecond hgone
    · exact hk n hn hkey
  refine (addTo_of_notMem hfirst).trans (holding_of_notMem ?_)
  rintro o ho rfl
  obtain ⟨i, hi⟩ : ∃ i, i ∈ installIntents := by
    apply List.exists_mem_of_ne_nil
    intro hnil
    rw [hkept.someNew hnil] at ho
    exact List.not_mem_nil ho
  by_cases hdevice : ∃ n ∈ i.flowRules, n.deviceId = o.deviceId
  · obtain ⟨n, hn, hdevice⟩ := hdevice
    have hn' := mem_rulesOf.mpr ⟨i, hi, hn⟩
    exact hsecond ⟨o, (h.second o).mpr ⟨ho, n, hn', overlaps_of_key_ne hdevice (hk n hn')⟩, rfl⟩
  · exact hlast ⟨o, h.kept o ho i hi fun n hn hsame => hdevice ⟨n, hn, hsame⟩, rfl⟩

section

variable (holdKeys : ((rulesOf uninstallIntents).map key).Nodup)

include holdKeys

section

variable (hnewKeys : ((rulesOf installIntents).map key).Nodup)

include hnewKeys

theorem afterStages_new
    (h : Lists uninstallIntents installIntents F S₂ T₃ L) (hkept : Kept uninstallIntents installIntents)
    (hapart : Apart uninstallIntents installIntents) {n : Rule D S T}
    (hn : n ∈ rulesOf installIntents) :
    afterStages uninstallIntents F S₂ T₃ L (key n) = some (value n) := by
  have hsame : ∀ n' ∈ rulesOf installIntents, key n' = key n → value n' = value n :=
    fun n' hn' hkey => congrArg value (List.inj_on_of_nodup_map hnewKeys hn' hn hkey)
  have hlast : ∀ r ∈ L, key r ≠ key n := by
    intro r hr hkey
    rcases h.final r hr with ⟨ho, i, hi, hno⟩ | ⟨n', hn', hoverlaps, hcopy⟩
    · obtain ⟨n', hn', hdevice⟩ := hkept.notLast r ho ⟨n, hn, hkey.symm⟩ i hi
      exact hno n' hn' hdevice
    · exact hapart n' hn' hoverlaps n hn (hkey.symm.trans hcopy)
  refine (removeFrom_of_notMem hlast).trans ?_
  by_cases hthird : ∃ r ∈ T₃, key r = key n
  · exact addTo_of_mem hthird fun r hr => hsame r ((h.third r).mp hr).1
  refine (addTo_of_notMem fun r hr hkey => hthird ⟨r, hr, hkey⟩).trans ?_
  have hexact : ∀ o ∈ rulesOf uninstallIntents, n.deviceId = o.deviceId → exactMatch n o = true := by
    intro o ho hdevice
    refine (overlaps_or_exact hdevice).resolve_left fun hoverlaps => hthird ?_
    exact ⟨n, (h.third n).mpr ⟨hn, o, ho, hoverlaps⟩, rfl⟩
  have hsecond : ∀ r ∈ S₂, key r ≠ key n := by
    intro o hr hkey
    obtain ⟨ho, n', hn', hoverlaps⟩ := (h.second o).mp hr
    have hmatch := hexact o ho (deviceId_of_key hkey.symm)
    have hother : key n' ≠ key o := by
      intro hkey'
      have hval : value n' = value o :=
        (hsame n' hn' (hkey'.trans hkey)).trans (exactMatch_iff.mp hmatch).2
      exact Bool.false_ne_true (hoverlaps.2.symm.trans (exactMatch_iff.mpr ⟨hkey', hval⟩))
    obtain ⟨o', ho', hdevice, hne⟩ :=
      hkept.addedAgain o ho n hn hmatch ⟨n', hn', hoverlaps.1, hother⟩
    have hmatch' := hexact o' ho' ((deviceId_of_key hkey.symm).trans hdevice.symm)
    exact hne ((exactMatch_iff.mp hmatch').1.symm.trans hkey.symm)
  refine (removeFrom_of_notMem hsecond).trans ?_
  by_cases hfirst : ∃ r ∈ F, key r = key n
  · refine addTo_of_mem hfirst fun r hr hkey => ?_
    rcases h.first r hr with hnew | ⟨⟨n', hn', hoverlaps, hcopy⟩, _⟩
    · exact hsame r hnew hkey
    · exact absurd (hkey.symm.trans hcopy) (hapart n' hn' hoverlaps n hn)
  refine (addTo_of_notMem fun r hr hkey => hfirst ⟨r, hr, hkey⟩).trans ?_
  obtain ⟨u, hu⟩ : ∃ u, u ∈ uninstallIntents := by
    apply List.exists_mem_of_ne_nil
    intro hnil
    rw [hkept.someOld hnil] at hn
    exact List.not_mem_nil hn
  obtain ⟨o, ho, hdevice⟩ : ∃ o ∈ u.flowRules, o.deviceId = n.deviceId := by
    by_contra hno
    exact hfirst ⟨n, h.added n hn u hu fun o ho hdevice => hno ⟨o, ho, hdevice⟩, rfl⟩
  have ho' := mem_rulesOf.mpr ⟨u, hu, ho⟩
  obtain ⟨hkey, hvalue⟩ := exactMatch_iff.mp (hexact o ho' hdevice.symm)
  rw [hkey, hvalue]
  exact holding_of_mem holdKeys ho'

theorem kept_of_ends (h : Lists uninstallIntents installIntents F S₂ T₃ L)
    (hempty : uninstallIntents = [] ∨ installIntents = [] → F = [] ∧ S₂ = [] ∧ T₃ = [] ∧ L = [])
    (hends : afterStages uninstallIntents F S₂ T₃ L = holding (rulesOf installIntents)) :
    Kept uninstallIntents installIntents := by
  have hnew : ∀ n ∈ rulesOf installIntents,
      afterStages uninstallIntents F S₂ T₃ L (key n) = some (value n) := by
    intro n hn
    rw [hends]
    exact holding_of_mem hnewKeys hn
  constructor
  · intro hnil
    obtain ⟨rfl, rfl, rfl, rfl⟩ := hempty (.inl hnil)
    apply List.eq_nil_iff_forall_not_mem.mpr
    intro n hn
    have hcell := hnew n hn
    rw [hnil] at hcell
    cases hcell
  · intro hnil
    obtain ⟨rfl, rfl, rfl, rfl⟩ := hempty (.inr hnil)
    apply List.eq_nil_iff_forall_not_mem.mpr
    intro o ho
    have hcell : holding (rulesOf uninstallIntents) (key o) = holding (rulesOf installIntents) (key o) :=
      congrFun hends (key o)
    rw [holding_of_mem holdKeys ho, hnil] at hcell
    cases hcell
  · rintro o ho ⟨n, hn, hkey⟩ i hi
    by_contra hno
    have hlast : ∃ r ∈ L, key r = key n :=
      ⟨o, h.kept o ho i hi fun n' hn' hdevice => hno ⟨n', hn', hdevice⟩, hkey.symm⟩
    have hcell := hnew n hn
    rw [afterStages, removeFrom_of_mem hlast] at hcell
    cases hcell
  · rintro o ho n hn hmatch ⟨n', hn', hdevice', hne⟩
    by_contra hno
    obtain ⟨hkey, _⟩ := exactMatch_iff.mp hmatch
    have hsecond : ∃ r ∈ S₂, key r = key n :=
      ⟨o, (h.second o).mpr ⟨ho, n', hn', overlaps_of_key_ne hdevice' hne⟩, hkey.symm⟩
    have hthird : ∀ r ∈ T₃, key r ≠ key n := by
      intro r hr hsame
      obtain ⟨hr, o', ho', hoverlaps⟩ := (h.third r).mp hr
      rw [List.inj_on_of_nodup_map hnewKeys hr hn hsame] at hoverlaps
      refine hno ⟨o', ho', hoverlaps.1.symm.trans (deviceId_of_key hkey), fun hsame' => ?_⟩
      rw [List.inj_on_of_nodup_map holdKeys ho' ho hsame'] at hoverlaps
      exact Bool.false_ne_true (hoverlaps.2.symm.trans hmatch)
    have hcell := hnew n hn
    by_cases hlast : ∃ r ∈ L, key r = key n
    · rw [afterStages, removeFrom_of_mem hlast] at hcell
      cases hcell
    · rw [afterStages, removeFrom_of_notMem fun r hr hsame => hlast ⟨r, hr, hsame⟩,
        addTo_of_notMem hthird, removeFrom_of_mem hsecond] at hcell
      cases hcell

theorem ends_of_kept
    (h : Lists uninstallIntents installIntents F S₂ T₃ L) (hkept : Kept uninstallIntents installIntents)
    (hapart : Apart uninstallIntents installIntents) :
    afterStages uninstallIntents F S₂ T₃ L = holding (rulesOf installIntents) := by
  funext k
  by_cases hk : ∃ n ∈ rulesOf installIntents, key n = k
  · obtain ⟨n, hn, rfl⟩ := hk
    rw [afterStages_new holdKeys hnewKeys h hkept hapart hn, holding_of_mem hnewKeys hn]
  · have hno : ∀ n ∈ rulesOf installIntents, key n ≠ k := fun n hn hkey => hk ⟨n, hn, hkey⟩
    rw [afterStages_old h hkept hno, holding_of_notMem hno]

end

end

theorem exists_stages (env : Environment D S)
    (holdKeys : ((rulesOf uninstallIntents).map key).Nodup)
    (hnewKeys : ((rulesOf installIntents).map key).Nodup)
    (hpriority : ∀ n ∈ rulesOf installIntents, 1 ≤ n.content.priority) :
    ∃ s F S₂ T₃ L, prepareReallocation env uninstallIntents installIntents = some s ∧
      reallocate (holding (rulesOf uninstallIntents)) s = afterStages uninstallIntents F S₂ T₃ L ∧
      Lists uninstallIntents installIntents F S₂ T₃ L ∧
      (uninstallIntents = [] ∨ installIntents = [] → F = [] ∧ S₂ = [] ∧ T₃ = [] ∧ L = []) := by
  obtain ⟨s, hs, hprepared⟩ : ∃ s, prepareReallocation env uninstallIntents installIntents = some s ∧
      Prepared env (pairs installIntents uninstallIntents) s := by
    apply prepareReallocation_prepared
    intro i hi n hn
    exact hpriority n (mem_rulesOf.mpr ⟨i, hi, hn⟩)
  refine ⟨s, _, _, _, _, hs, reallocate_eq hprepared _,
    lists_of_prepared holdKeys hnewKeys hprepared, fun hnone => ?_⟩
  have hpairs : pairs installIntents uninstallIntents = [] := by
    rcases hnone with rfl | rfl
    · simp [pairs]
    · rfl
  have hsecond : s.second = [] := by
    apply List.eq_nil_iff_forall_not_mem.mpr
    intro r hr
    obtain ⟨p, hp, _⟩ := (hprepared.second r).mp hr
    rw [hpairs] at hp
    exact List.not_mem_nil hp
  rw [hpairs]
  exact ⟨rfl, hsecond, rfl, rfl⟩

end Lists

section Paths

def plain : Environment ℕ ℕ := ⟨fun appId _ => appId, id⟩

def rule (deviceId selector treatment : ℕ) : Rule ℕ ℕ ℕ :=
  ⟨deviceId, ⟨selector, 10, DEFAULT_TABLE, 1, 1, treatment⟩⟩

def oldPath : FlowRuleIntent ℕ ℕ ℕ := ⟨[rule 1 0 2, rule 2 0 4, rule 4 0 9], []⟩

def newPath : FlowRuleIntent ℕ ℕ ℕ := ⟨[rule 1 0 3, rule 3 0 4, rule 4 0 9], []⟩

def widened : FlowRuleIntent ℕ ℕ ℕ := ⟨[rule 1 0 2, rule 1 5 3], []⟩

def narrow : FlowRuleIntent ℕ ℕ ℕ := ⟨[rule 1 0 2], []⟩

end Paths

end FlowRuleReallocation

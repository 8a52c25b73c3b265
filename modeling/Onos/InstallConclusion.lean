import Onos.InstallCoordinator

/-! When an installation is concluded: the reports that find no context pending are those that end after
the last context was removed. -/
namespace InstallCoordinator

open Intents InputMachine

variable {I C K V N : Type*} [DecidableEq C]

section Contexts

theorem isEqv_refl (l : List (Intent C K)) : l.isEqv l Intent.equals = true := by
  induction l with
  | nil => rfl
  | cons x l ih => simp [List.isEqv, Intent.equals, ih]

theorem exists_of_isEqv {l l' : List (Intent C K)} (h : l.isEqv l' Intent.equals = true)
    {x : Intent C K} (hx : x ∈ l) : ∃ y ∈ l', x.equals y = true := by
  induction l generalizing l' with
  | nil => exact absurd hx List.not_mem_nil
  | cons z l ih =>
    cases l' with
    | nil => cases h
    | cons y l' =>
      simp only [List.isEqv, Bool.and_eq_true] at h
      rcases List.mem_cons.mp hx with rfl | hx
      · exact ⟨y, List.mem_cons_self, h.1⟩
      · obtain ⟨w, hw, hequals⟩ := ih h.2 hx
        exact ⟨w, List.mem_cons_of_mem y hw, hequals⟩

theorem IntentOperationContext.equals_refl (context : IntentOperationContext C K) :
    context.equals context = true := by
  simp [equals, isEqv_refl]

variable [DecidableEq I] {getInstaller : C → Option I}

def installables (intentData : Option (IntentData C K V N)) : List (Intent C K) :=
  (intentData.map IntentData.installables).getD []

omit [DecidableEq C] [DecidableEq I] in
theorem mem_getInstallers {intentData : Option (IntentData C K V N)} {i : I} {x : Intent C K} :
    (i, x) ∈ (intentData.map (getInstallers getInstaller)).getD [] ↔
      x ∈ installables intentData ∧ getInstaller x.intentClass = some i := by
  cases intentData with
  | none => simp [installables]
  | some intentData =>
    simp only [Option.map_some, Option.getD_some, installables, getInstallers, List.mem_filterMap,
      Option.map_eq_some_iff, Prod.mk.injEq]
    constructor
    · rintro ⟨y, hy, j, hj, rfl, rfl⟩
      exact ⟨hy, hj⟩
    · rintro ⟨hx, hi⟩
      exact ⟨x, hx, i, hi, rfl, rfl⟩

theorem installer_unique {intentData : Option (IntentData C K V N)} {i j : I} {x : Intent C K}
    (hx : x ∈ ArrayListMultimap.get ((intentData.map (getInstallers getInstaller)).getD []) i)
    (h : (ArrayListMultimap.get ((intentData.map (getInstallers getInstaller)).getD []) i).isEqv
      (ArrayListMultimap.get ((intentData.map (getInstallers getInstaller)).getD []) j)
      Intent.equals = true) : i = j := by
  obtain ⟨y, hy, hequals⟩ := exists_of_isEqv h hx
  rw [ArrayListMultimap.mem_get, mem_getInstallers] at hx hy
  rw [Intent.intentClass_of_equals hequals] at hx
  exact Option.some.inj (hx.2.symm.trans hy.2)

omit [DecidableEq I] in
theorem foldl_addPendingContext (contexts : I → IntentOperationContext C K) (rest : List I)
    {done : List I} (hnodup : (done ++ rest).Nodup)
    (hapart : ∀ i ∈ done ++ rest, ∀ j ∈ done ++ rest,
      (contexts i).equals (contexts j) = true → i = j)
    {c : IntentInstallationContext C K V N} (hc : c.pendingContexts = done.map contexts) :
    rest.foldl (fun c installer => c.addPendingContext (contexts installer)) c =
      { c with pendingContexts := (done ++ rest).map contexts } := by
  induction rest generalizing done c with
  | nil => rw [List.append_nil, ← hc]; rfl
  | cons i rest ih =>
    have hnew : c.pendingContexts.any (contexts i).equals = false := by
      rw [← Bool.not_eq_true, List.any_eq_true, hc]
      rintro ⟨context, hcontext, hequals⟩
      obtain ⟨j, hj, rfl⟩ := List.mem_map.mp hcontext
      have hij := hapart i (by simp) j (by simp [hj]) hequals
      exact (List.nodup_append.mp hnodup).2.2 j hj i List.mem_cons_self hij.symm
    have hadd : c.addPendingContext (contexts i) =
        { c with pendingContexts := (done ++ [i]).map contexts } := by
      rw [IntentInstallationContext.addPendingContext, if_neg (by simp [hnew]), hc, List.map_append]
      rfl
    rw [List.append_cons] at hnodup hapart ⊢
    rw [List.foldl_cons, hadd, ih hnodup hapart rfl]

end Contexts

namespace Installation

def Waiting (s : Installation I C K V N) (i : I) : Bool :=
  match s.progress i with
  | .registered | .applied | .failing => true
  | .removed | .reported => false

variable [DecidableEq I] {s : Installation I C K V N} {x : Event I} {xs : List (Event I)} {i : I}

section Steps

theorem handle_check (s : Installation I C K V N) (i : I) : s.handle (.check i) =
      { s.reach i .reported with
        finishes := s.finishes ++
          if s.installationContext.isPendingContextsEmpty then [(i, finish s.installationContext)]
          else [] } := by
  simp only [handle]
  split
  · rfl
  · rw [List.append_nil]
    rfl

theorem progress_handle (s : Installation I C K V N) (x : Event I) :
    (s.handle x).progress = Function.update s.progress x.installer x.progress := by
  cases x with
  | check i => rw [handle_check]; rfl
  | _ => rfl

theorem contexts_handle (s : Installation I C K V N) (x : Event I) :
    (s.handle x).allInstallers = s.allInstallers ∧ (s.handle x).contexts = s.contexts := by
  cases x with
  | check i => rw [handle_check]; exact ⟨rfl, rfl⟩
  | _ => exact ⟨rfl, rfl⟩

theorem finishes_handle (s : Installation I C K V N) (x : Event I)
    (h : ∀ i, x = .check i → s.installationContext.isPendingContextsEmpty = false) :
    (s.handle x).finishes = s.finishes := by
  cases x with
  | check i =>
    rw [handle_check, h i rfl]
    exact List.append_nil _
  | _ => rfl

theorem waiting_handle (hx : s.Accepts x) (i : I) :
    (s.handle x).Waiting i = true ↔ s.Waiting i = true ∧ x ≠ .removePendingContext i := by
  unfold Waiting
  rw [progress_handle]
  by_cases hi : i = x.installer
  · subst hi
    rw [Function.update_self]
    cases x with
    | apply j => simp [Event.progress, Event.installer, hx.2]
    | addErrorContext j => simp [Event.progress, Event.installer, hx.2]
    | removePendingContext j => simp [Event.progress, Event.installer]
    | check j => simp [Event.progress, Event.installer, hx.2]
  · rw [Function.update_of_ne hi]
    have hne : x ≠ .removePendingContext i := fun h => hi (h ▸ rfl)
    simp [hne]

theorem reported_handle (hx : s.Accepts x) (i : I) :
    (s.handle x).progress i = .reported ↔ s.progress i = .reported ∨ x = .check i := by
  rw [progress_handle]
  by_cases hi : i = x.installer
  · subst hi
    rw [Function.update_self]
    cases x with
    | apply j => simp [Event.progress, Event.installer, hx.2]
    | addErrorContext j => simp [Event.progress, Event.installer, hx.2]
    | removePendingContext j =>
      rcases hx.2 with h | h <;> simp [Event.progress, Event.installer, h]
    | check j => simp [Event.progress, Event.installer]
  · rw [Function.update_of_ne hi]
    have hne : x ≠ .check i := fun h => hi (h ▸ rfl)
    simp [hne]

end Steps

section Tracking

/-- The pending contexts are those of the installers that have not reported, and contexts of different
installers differ. -/
structure Tracked (s : Installation I C K V N) : Prop where
  apart : ∀ i ∈ s.allInstallers, ∀ j ∈ s.allInstallers,
    (s.contexts i).equals (s.contexts j) = true → i = j
  pending : s.installationContext.pendingContexts = (s.allInstallers.filter s.Waiting).map s.contexts
  /-- An installation that was finished waits for nobody. -/
  settled : s.finishes ≠ [] → ∀ i ∈ s.allInstallers, s.Waiting i = false

omit [DecidableEq I] in
theorem Tracked.isPendingContextsEmpty_iff (h : s.Tracked) :
    s.installationContext.isPendingContextsEmpty = true ↔
      ∀ i ∈ s.allInstallers, s.Waiting i = false := by
  rw [IntentInstallationContext.isPendingContextsEmpty, h.pending, List.isEmpty_iff,
    List.map_eq_nil_iff, List.filter_eq_nil_iff]
  simp

theorem Tracked.pending_handle (h : s.Tracked) (hx : s.Accepts x) :
    (s.handle x).installationContext.pendingContexts =
      (s.allInstallers.filter (s.handle x).Waiting).map s.contexts := by
  have hsame : (∀ i ∈ s.allInstallers, x ≠ .removePendingContext i) →
      (s.allInstallers.filter (s.handle x).Waiting).map s.contexts =
        s.installationContext.pendingContexts := by
    intro hne
    rw [h.pending]
    congr 1
    apply List.filter_congr
    intro i hi
    rw [Bool.eq_iff_iff, waiting_handle hx]
    simp [hne i hi]
  cases x with
  | apply j => exact (hsame fun i _ => nofun).symm
  | addErrorContext j =>
    refine Eq.trans ?_ (hsame fun i _ => nofun).symm
    simp only [handle, IntentInstallationContext.addErrorContext]
    split <;> rfl
  | check j =>
    refine Eq.trans ?_ (hsame fun i _ => nofun).symm
    rw [handle_check]
    rfl
  | removePendingContext j =>
    have hfilter : (s.handle (.removePendingContext j)).installationContext.pendingContexts =
        s.installationContext.pendingContexts.filter fun pending =>
          !(s.contexts j).equals pending := rfl
    rw [hfilter, h.pending, List.filter_map, List.filter_filter]
    congr 1
    apply List.filter_congr
    intro i hi
    have hcontext : (!(s.contexts j).equals (s.contexts i)) = true ↔ i ≠ j := by
      rw [Bool.not_eq_true', ← Bool.not_eq_true, not_iff_not]
      constructor
      · intro hequals
        exact (h.apart j hx.1 i hi hequals).symm
      · rintro rfl
        exact IntentOperationContext.equals_refl _
    have hevent : (Event.removePendingContext j ≠ .removePendingContext i) ↔ i ≠ j :=
      ⟨fun hne hij => hne (hij ▸ rfl), fun hij hne => hij (Event.removePendingContext.inj hne).symm⟩
    have hwaiting := waiting_handle hx i
    rw [hevent] at hwaiting
    rw [Bool.eq_iff_iff, Bool.and_eq_true, Function.comp_apply, hcontext, hwaiting, and_comm]

theorem Tracked.handle (h : s.Tracked) (hx : s.Accepts x) : (s.handle x).Tracked := by
  obtain ⟨hall, hcontexts⟩ := contexts_handle s x
  refine ⟨?_, ?_, ?_⟩
  · rw [hall, hcontexts]
    exact h.apart
  · rw [hall, hcontexts]
    exact h.pending_handle hx
  · rw [hall]
    intro hfinishes i hi
    have hwas : s.Waiting i = false := by
      by_contra hwaiting
      have hempty : s.installationContext.isPendingContextsEmpty = false := by
        rw [← Bool.not_eq_true, h.isPendingContextsEmpty_iff]
        exact fun hsettled => hwaiting (hsettled i hi)
      rw [finishes_handle s x fun _ _ => hempty] at hfinishes
      exact hwaiting (h.settled hfinishes i hi)
    rw [← Bool.not_eq_true, waiting_handle hx, hwas]
    exact fun hno => Bool.false_ne_true hno.1

theorem Tracked.run {start : Installation I C K V N} (h : s.Tracked)
    (hv : (installationMachine start).Valid s xs) : ((installationMachine start).run s xs).Tracked :=
  invariant_run Tracked (fun _ _ ht hx => ht.handle hx) hv h

end Tracking

section Runs

variable {start : Installation I C K V N}

theorem run_success (s : Installation I C K V N) (i : I) :
    (installationMachine start).run s [.removePendingContext i, .check i] = s.success i := rfl

theorem run_failed (s : Installation I C K V N) (i : I) :
    (installationMachine start).run s [.addErrorContext i, .removePendingContext i, .check i] =
      s.failed i := rfl

theorem allInstallers_run (start s : Installation I C K V N) (xs : List (Event I)) :
    ((installationMachine start).run s xs).allInstallers = s.allInstallers := by
  induction xs generalizing s with
  | nil => rfl
  | cons x xs ih => exact (ih (s.handle x)).trans (contexts_handle s x).1

theorem waiting_run (hv : (installationMachine start).Valid s xs) (i : I) :
    ((installationMachine start).run s xs).Waiting i = true ↔
      s.Waiting i = true ∧ .removePendingContext i ∉ xs := by
  induction xs generalizing s with
  | nil => simp
  | cons x xs ih =>
    rw [run_cons, ih hv.2, List.mem_cons, not_or]
    have hstep : ((installationMachine start).next s x).Waiting i = true ↔ _ :=
      waiting_handle hv.1 i
    rw [hstep, and_assoc]
    exact and_congr_right fun _ => and_congr_left fun _ => ne_comm

theorem reported_run (hv : (installationMachine start).Valid s xs) (i : I) :
    ((installationMachine start).run s xs).progress i = .reported ↔
      s.progress i = .reported ∨ .check i ∈ xs := by
  induction xs generalizing s with
  | nil => simp
  | cons x xs ih =>
    rw [run_cons, ih hv.2, List.mem_cons]
    have hstep : ((installationMachine start).next s x).progress i = .reported ↔ _ :=
      reported_handle hv.1 i
    rw [hstep, or_assoc]
    exact or_congr_right (or_congr_left eq_comm)

theorem installationContext_handle (s : Installation I C K V N) (x : Event I) :
    (s.handle x).installationContext.toUninstall = s.installationContext.toUninstall ∧
      (s.handle x).installationContext.toInstall = s.installationContext.toInstall ∧
      ((s.handle x).installationContext.errorContexts = [] ↔
        s.installationContext.errorContexts = [] ∧ ∀ i, x ≠ .addErrorContext i) := by
  cases x with
  | apply j => exact ⟨rfl, rfl, by simp [handle, reach]⟩
  | removePendingContext j =>
    exact ⟨rfl, rfl, by simp [handle, IntentInstallationContext.removePendingContext]⟩
  | check j =>
    rw [handle_check]
    exact ⟨rfl, rfl, by simp [reach]⟩
  | addErrorContext j =>
    simp only [handle, IntentInstallationContext.addErrorContext]
    split
    · refine ⟨rfl, rfl, iff_of_false (fun hnil => ?_) fun hno => hno.2 j rfl⟩
      rename_i hany
      rw [hnil] at hany
      cases hany
    · exact ⟨rfl, rfl, by simp⟩

theorem installationContext_run (start s : Installation I C K V N) (xs : List (Event I)) :
    ((installationMachine start).run s xs).installationContext.toUninstall =
        s.installationContext.toUninstall ∧
      ((installationMachine start).run s xs).installationContext.toInstall =
        s.installationContext.toInstall ∧
      (((installationMachine start).run s xs).installationContext.errorContexts = [] ↔
        s.installationContext.errorContexts = [] ∧ ∀ i, .addErrorContext i ∉ xs) := by
  induction xs generalizing s with
  | nil => simp
  | cons x xs ih =>
    obtain ⟨huninstall, hinstall, herrors⟩ := ih (s.handle x)
    obtain ⟨huninstall', hinstall', herrors'⟩ := installationContext_handle s x
    refine ⟨huninstall.trans huninstall', hinstall.trans hinstall', herrors.trans ?_⟩
    rw [herrors', and_assoc]
    refine and_congr_right fun _ => ?_
    simp only [List.mem_cons, not_or, ne_comm, forall_and]

def checkers (xs : List (Event I)) : List I :=
  xs.filterMap fun
    | .check i => some i
    | _ => none

omit [DecidableEq I] in
theorem mem_checkers : i ∈ checkers xs ↔ .check i ∈ xs := by
  rw [checkers, List.mem_filterMap]
  constructor
  · rintro ⟨x, hx, hi⟩
    cases x with
    | check j => rwa [← Option.some.inj hi]
    | _ => cases hi
  · intro hi
    exact ⟨.check i, hi, rfl⟩

theorem nodup_checkers (hv : (installationMachine start).Valid s xs) :
    (checkers xs).Nodup ∧ ∀ i ∈ checkers xs, s.progress i ≠ .reported := by
  induction xs generalizing s with
  | nil => exact ⟨List.nodup_nil, fun i hi => absurd hi List.not_mem_nil⟩
  | cons x xs ih =>
    obtain ⟨hnodup, hreported⟩ := ih hv.2
    have hearlier : ∀ i ∈ checkers xs, s.progress i ≠ .reported ∧ x ≠ .check i := by
      intro i hi
      have hnot := hreported i hi
      have hstep : ((installationMachine start).next s x).progress i = .reported ↔ _ :=
        reported_handle hv.1 i
      rw [ne_eq, hstep, not_or] at hnot
      exact hnot
    cases x with
    | check j =>
      refine ⟨List.nodup_cons.mpr ⟨fun hj => (hearlier j hj).2 rfl, hnodup⟩, fun i hi => ?_⟩
      rcases List.mem_cons.mp hi with rfl | hi
      · rw [hv.1.2]
        nofun
      · exact (hearlier i hi).1
    | _ => exact ⟨hnodup, fun i hi => (hearlier i hi).1⟩

omit [DecidableEq C] [DecidableEq I] in
theorem check_of_settled (hs : ∀ i ∈ s.allInstallers, s.Waiting i = false) (hx : s.Accepts x) :
    ∃ i, x = .check i := by
  have hsettled := hs x.installer
  rw [Waiting] at hsettled
  cases x with
  | apply j => exact absurd (hsettled hx.1) (by simp [Event.installer, hx.2])
  | addErrorContext j => exact absurd (hsettled hx.1) (by simp [Event.installer, hx.2])
  | removePendingContext j =>
    refine absurd (hsettled hx.1) ?_
    rcases hx.2 with h | h <;> simp [Event.installer, h]
  | check j => exact ⟨j, rfl⟩

theorem finishes_run (h : s.Tracked) (hs : ∀ i ∈ s.allInstallers, s.Waiting i = false)
    (hv : (installationMachine start).Valid s xs) :
    ((installationMachine start).run s xs).finishes =
        s.finishes ++ (checkers xs).map (·, finish s.installationContext) ∧
      ∀ i, .addErrorContext i ∉ xs := by
  induction xs generalizing s with
  | nil => exact ⟨(List.append_nil _).symm, fun i => List.not_mem_nil⟩
  | cons x xs ih =>
    obtain ⟨j, rfl⟩ := check_of_settled hs hv.1
    have hx : s.Accepts (.check j) := hv.1
    have hfinish : (s.handle (.check j)).finishes =
        s.finishes ++ [(j, finish s.installationContext)] := by
      rw [handle_check, if_pos (h.isPendingContextsEmpty_iff.mpr hs)]
    have hcontext : (s.handle (.check j)).installationContext = s.installationContext := by
      rw [handle_check]
      rfl
    have hsettled : ∀ i ∈ (s.handle (.check j)).allInstallers,
        (s.handle (.check j)).Waiting i = false := by
      intro i hi
      rw [← Bool.not_eq_true, waiting_handle hx, hs i ((contexts_handle s _).1 ▸ hi)]
      exact fun hno => Bool.false_ne_true hno.1
    obtain ⟨hfinishes, herrors⟩ := ih (h.handle hx) hsettled hv.2
    refine ⟨hfinishes.trans ?_, fun i hi => ?_⟩
    · rw [hfinish, hcontext]
      exact List.append_assoc _ _ _
    · rcases List.mem_cons.mp hi with heq | hi
      · cases heq
      · exact herrors i hi

end Runs

section Start

variable {getInstaller : C → Option I} {toUninstall toInstall : Option (IntentData C K V N)}
  {start : Installation I C K V N}

theorem mem_allInstallers (hstart : installIntents getInstaller toUninstall toInstall = some start) :
    i ∈ start.allInstallers ↔
      ∃ x ∈ installables toUninstall ++ installables toInstall, getInstaller x.intentClass = some i := by
  rw [installIntents] at hstart
  split at hstart
  · cases hstart
  · obtain rfl := Option.some.inj hstart
    simp only [List.mem_union_iff, ArrayListMultimap.mem_keySet, mem_getInstallers, List.mem_append,
      or_and_right, exists_or]

structure Fresh (start : Installation I C K V N)
    (toUninstall toInstall : Option (IntentData C K V N)) : Prop where
  toUninstall : start.installationContext.toUninstall = toUninstall
  toInstall : start.installationContext.toInstall = toInstall
  errorContexts : start.installationContext.errorContexts = []
  progress : ∀ i, start.progress i = .registered
  finishes : start.finishes = []

theorem tracked_start (hstart : installIntents getInstaller toUninstall toInstall = some start) :
    start.Tracked ∧ start.Fresh toUninstall toInstall := by
  rw [installIntents] at hstart
  split at hstart
  · cases hstart
  obtain rfl := Option.some.inj hstart
  set uninstallInstallers := (toUninstall.map (getInstallers getInstaller)).getD []
  set installInstallers := (toInstall.map (getInstallers getInstaller)).getD []
  set allInstallers := ArrayListMultimap.keySet uninstallInstallers ∪
    ArrayListMultimap.keySet installInstallers
  set contexts : I → IntentOperationContext C K := fun i =>
    ⟨ArrayListMultimap.get uninstallInstallers i, ArrayListMultimap.get installInstallers i⟩
  have hnodup : ([] ++ allInstallers).Nodup := List.Nodup.union _ (List.nodup_dedup _)
  have hapart : ∀ i ∈ [] ++ allInstallers, ∀ j ∈ [] ++ allInstallers,
      (contexts i).equals (contexts j) = true → i = j := by
    intro i hi j _ hequals
    simp only [IntentOperationContext.equals, Bool.and_eq_true] at hequals
    rcases List.mem_union_iff.mp hi with hi | hi
    · obtain ⟨x, hx⟩ := ArrayListMultimap.mem_keySet.mp hi
      exact installer_unique (ArrayListMultimap.mem_get.mpr hx) hequals.2
    · obtain ⟨x, hx⟩ := ArrayListMultimap.mem_keySet.mp hi
      exact installer_unique (ArrayListMultimap.mem_get.mpr hx) hequals.1
  have hfold := foldl_addPendingContext contexts allInstallers hnodup hapart
    (rfl : (⟨toUninstall, toInstall, [], []⟩ :
      IntentInstallationContext C K V N).pendingContexts = [].map contexts)
  rw [hfold]
  refine ⟨⟨hapart, ?_, fun hno => absurd rfl hno⟩, ⟨rfl, rfl, rfl, fun _ => rfl, rfl⟩⟩
  exact congrArg (List.map contexts) (List.filter_eq_self.mpr fun i _ => rfl).symm

end Start

section Conclusion

variable {start : Installation I C K V N} {toUninstall toInstall : Option (IntentData C K V N)}

structure Outcome (toUninstall toInstall : Option (IntentData C K V N)) (failed : Prop)
    (writes : List (IntentData C K V N)) : Prop where
  installed : ¬ failed → ∀ installData, toInstall = some installData →
    ∃ w, writes = [w] ∧ installData.CopyIn .INSTALLED w ∧ w.installables = installData.installables
  withdrawn : ¬ failed → ∀ uninstallData, toInstall = none → toUninstall = some uninstallData →
    ∃ w, writes = [w] ∧ uninstallData.CopyIn
      (if uninstallData.request = .INSTALL_REQ then .FAILED else .WITHDRAWN) w
  corrupt : failed → List.Forall₂ (fun data w => data.CopyIn .CORRUPT w)
    (toInstall.toList ++ toUninstall.toList) writes

omit [DecidableEq C] [DecidableEq I] in
theorem outcome_finish (c : IntentInstallationContext C K V N) :
    Outcome c.toUninstall c.toInstall (c.errorContexts ≠ []) (finish c) := by
  constructor
  · intro hfailed installData hinstall
    refine ⟨_, ?_, installData.copyIn_compiled installData.installables .INSTALLED, rfl⟩
    rw [finish, if_pos (List.isEmpty_iff.mpr (not_not.mp hfailed)), hinstall]
  · intro hfailed uninstallData hinstall huninstall
    refine ⟨_, ?_, uninstallData.copyIn_compiled [] _⟩
    rw [finish, if_pos (List.isEmpty_iff.mpr (not_not.mp hfailed)), hinstall, huninstall]
    by_cases hrequest : uninstallData.request = .INSTALL_REQ
    · simp [IntentData.compiled, hrequest]
    · rw [if_neg hrequest]
      simp only [IntentData.compiled]
  · intro hfailed
    rw [finish, if_neg (by simpa using hfailed), ← List.map_append, List.forall₂_map_right_iff,
      List.forall₂_same]
    exact fun data _ => data.copyIn_corrupt

structure Concluded (start : Installation I C K V N)
    (toUninstall toInstall : Option (IntentData C K V N)) (events : List (Event I)) : Prop where
  once : ∃ i writes, ((installationMachine start).run start events).finishes = [(i, writes)] ∧
    Outcome toUninstall toInstall (∃ j, .addErrorContext j ∈ events) writes
  last : ∀ before rest, events = before ++ rest →
    ((installationMachine start).run start before).finishes ≠ [] →
    ∀ i ∈ start.allInstallers, .removePendingContext i ∈ before

/-- When the last context is removed, the reports on the others have ended. -/
def Unoverlapped (events : List (Event I)) : Prop :=
  ∀ before i rest, events = before ++ .removePendingContext i :: rest →
    (∀ j, .removePendingContext j ∉ rest) →
    ∀ j, .removePendingContext j ∈ before → .check j ∈ before

theorem last_of_run (h : start.Tracked) (hfresh : start.Fresh toUninstall toInstall)
    {events : List (Event I)} (hv : (installationMachine start).Valid start events) :
    ∀ before rest, events = before ++ rest →
      ((installationMachine start).run start before).finishes ≠ [] →
      ∀ i ∈ start.allInstallers, .removePendingContext i ∈ before := by
  rintro before rest rfl hfinishes i hi
  have hbefore := ((valid_append _ start before rest).mp hv).1
  have hsettled := (h.run hbefore).settled hfinishes i (by rwa [allInstallers_run])
  by_contra hno
  have hwaiting : start.Waiting i = true := by rw [Waiting, hfresh.progress]
  rw [(waiting_run hbefore i).mpr ⟨hwaiting, hno⟩] at hsettled
  cases hsettled

omit [DecidableEq C] [DecidableEq I] in
theorem waiting_of_removal (hx : s.Accepts (.removePendingContext i)) : s.Waiting i = true := by
  rw [Waiting]
  rcases hx.2 with hi | hi <;> rw [hi]

theorem settled_of_last (hv : (installationMachine start).Valid s xs)
    (hdone : ((installationMachine start).run s xs).Complete)
    (hlast : ∀ j, .removePendingContext j ∉ xs) : ∀ j ∈ s.allInstallers, s.Waiting j = false := by
  intro j hj
  by_contra hno
  have hfinal := (waiting_run hv j).mpr ⟨Bool.of_not_eq_false hno, hlast j⟩
  rw [Waiting, hdone j (by rwa [allInstallers_run])] at hfinal
  cases hfinal

theorem outcome_run (hfresh : start.Fresh toUninstall toInstall) (events : List (Event I)) :
    Outcome toUninstall toInstall (∃ j, .addErrorContext j ∈ events)
      (finish ((installationMachine start).run start events).installationContext) := by
  obtain ⟨huninstall, hinstall, hfailed⟩ := installationContext_run start start events
  rw [hfresh.toUninstall] at huninstall
  rw [hfresh.toInstall] at hinstall
  have hiff : ((installationMachine start).run start events).installationContext.errorContexts ≠ [] ↔
      ∃ j, .addErrorContext j ∈ events := by
    rw [ne_eq, hfailed, not_and]
    simp [hfresh.errorContexts]
  rw [← huninstall, ← hinstall, ← propext hiff]
  exact outcome_finish _

theorem finishes_of_last (h : start.Tracked) (hfresh : start.Fresh toUninstall toInstall)
    {before rest : List (Event I)} {i : I}
    (hv : (installationMachine start).Valid start (before ++ .removePendingContext i :: rest))
    (hdone : ((installationMachine start).run start
      (before ++ .removePendingContext i :: rest)).Complete)
    (hlast : ∀ j, .removePendingContext j ∉ rest) :
    ∃ writes, ((installationMachine start).run start
        (before ++ .removePendingContext i :: rest)).finishes = (checkers rest).map (·, writes) ∧
      Outcome toUninstall toInstall
        (∃ j, .addErrorContext j ∈ before ++ .removePendingContext i :: rest) writes ∧
      (checkers rest).Nodup ∧ i ∈ checkers rest ∧ .removePendingContext i ∉ before ∧
      ∀ j ∈ checkers rest, .check j ∉ before := by
  rw [List.append_cons] at hv hdone ⊢
  obtain ⟨hbefore, hrest⟩ := (valid_append _ start _ rest).mp hv
  obtain ⟨hbefore', hx, -⟩ := (valid_append _ start before _).mp hbefore
  rw [run_append] at hdone ⊢
  have htracked := h.run hbefore
  have houtcome := outcome_run hfresh (before ++ [.removePendingContext i])
  set s := (installationMachine start).run start before with hs
  have hx : s.Accepts (.removePendingContext i) := hx
  set t := (installationMachine start).run start (before ++ [.removePendingContext i]) with ht
  have hst : t = s.handle (.removePendingContext i) := by
    rw [ht, run_append]
    rfl
  have hfirst := ((waiting_run hbefore' i).mp (waiting_of_removal hx)).2
  have hnone : t.finishes = [] := by
    rw [hst, finishes_handle s _ fun _ hno => by cases hno]
    by_contra hno
    have hsettled := (h.run hbefore').settled hno i hx.1
    exact Bool.false_ne_true (hsettled.symm.trans (waiting_of_removal hx))
  obtain ⟨hfinishes, herrors⟩ := finishes_run htracked (settled_of_last hrest hdone hlast) hrest
  rw [hnone, List.nil_append] at hfinishes
  obtain ⟨hnodup, hreported⟩ := nodup_checkers hrest
  refine ⟨finish t.installationContext, hfinishes, ?_, hnodup, ?_, hfirst, ?_⟩
  · have hsame : (∃ j, .addErrorContext j ∈ (before ++ [.removePendingContext i]) ++ rest) ↔
        ∃ j, .addErrorContext j ∈ before ++ [.removePendingContext i] :=
      exists_congr fun j => by rw [List.mem_append, or_iff_left (herrors j)]
    rwa [propext hsame]
  · have hfinal := hdone i (by rw [allInstallers_run, hst, (contexts_handle s _).1]; exact hx.1)
    rcases (reported_run hrest i).mp hfinal with hi | hi
    · rw [hst, progress_handle] at hi
      simp [Event.installer, Event.progress] at hi
    · exact mem_checkers.mpr hi
  · intro j hj hcheck
    refine hreported j hj ((reported_run hbefore j).mpr (.inr ?_))
    exact List.mem_append_left _ hcheck

omit [DecidableEq C] [DecidableEq I] in
theorem installer_of_accepts (hx : s.Accepts x) : x.installer ∈ s.allInstallers := by
  cases x <;> exact hx.1

theorem installer_of_mem (hv : (installationMachine start).Valid s xs) (hx : x ∈ xs) :
    x.installer ∈ s.allInstallers := by
  obtain ⟨before, rest, rfl⟩ := List.append_of_mem hx
  have haccepts := ((valid_append _ s before _).mp hv).2.1
  rw [← allInstallers_run start s before]
  exact installer_of_accepts haccepts

theorem mem_of_complete (hfresh : start.Fresh toUninstall toInstall) {events : List (Event I)}
    (hv : (installationMachine start).Valid start events)
    (hdone : ((installationMachine start).run start events).Complete) (hi : i ∈ start.allInstallers) :
    .removePendingContext i ∈ events ∧ .check i ∈ events := by
  have hreported := hdone i (by rwa [allInstallers_run])
  constructor
  · by_contra hno
    have hwaiting := (waiting_run hv i).mpr ⟨by rw [Waiting, hfresh.progress], hno⟩
    rw [Waiting, hreported] at hwaiting
    cases hwaiting
  · rcases (reported_run hv i).mp hreported with hstart | hcheck
    · rw [hfresh.progress] at hstart
      cases hstart
    · exact hcheck

omit [DecidableEq I] in
theorem exists_last_removal (h : .removePendingContext i ∈ xs) :
    ∃ before j rest, xs = before ++ .removePendingContext j :: rest ∧
      ∀ k, .removePendingContext k ∉ rest := by
  induction xs generalizing i with
  | nil => exact absurd h List.not_mem_nil
  | cons x xs ih =>
    by_cases hlater : ∃ j, .removePendingContext j ∈ xs
    · obtain ⟨j, hj⟩ := hlater
      obtain ⟨before, k, rest, rfl, hlast⟩ := ih hj
      exact ⟨x :: before, k, rest, rfl, hlast⟩
    · rcases List.mem_cons.mp h with rfl | h
      · exact ⟨[], i, xs, rfl, fun k hk => hlater ⟨k, hk⟩⟩
      · exact absurd ⟨i, h⟩ hlater

/-- A request whose installers all report is concluded if and only if some installable has an installer
and the reports on the other contexts have ended when the last context is removed. -/
theorem concluded_iff (getInstaller : C → Option I)
    (toUninstall toInstall : Option (IntentData C K V N))
    (hstart : installIntents getInstaller toUninstall toInstall = some start)
    (events : List (Event I)) (hv : (installationMachine start).Valid start events)
    (hdone : ((installationMachine start).run start events).Complete) :
    Concluded start toUninstall toInstall events ↔
      (∃ x ∈ installables toUninstall ++ installables toInstall,
        (getInstaller x.intentClass).isSome) ∧ Unoverlapped events := by
  obtain ⟨htracked, hfresh⟩ := tracked_start hstart
  constructor
  · rintro ⟨⟨k, writes, hfinishes, _⟩, _⟩
    constructor
    · cases events with
      | nil =>
        rw [run_nil, hfresh.finishes] at hfinishes
        cases hfinishes
      | cons x events =>
        obtain ⟨y, hy, hinstaller⟩ := (mem_allInstallers hstart).mp (installer_of_accepts hv.1)
        exact ⟨y, hy, by rw [hinstaller, Option.isSome_some]⟩
    · rintro before i rest rfl hlast j hj
      obtain ⟨_, hends, _, _, hi, hfirst, _⟩ := finishes_of_last htracked hfresh hv hdone hlast
      have hk : checkers rest = [k] := by
        rw [hends] at hfinishes
        obtain ⟨k', hk', heq⟩ := List.map_eq_singleton_iff.mp hfinishes
        rw [hk', (Prod.mk.inj heq).1]
      have hj' : j ∈ start.allInstallers := installer_of_mem hv (List.mem_append_left _ hj)
      have hcheck := (mem_of_complete hfresh hv hdone hj').2
      rcases List.mem_append.mp hcheck with hcheck | hcheck
      · exact hcheck
      · rcases List.mem_cons.mp hcheck with heq | hcheck
        · cases heq
        · rw [hk, List.mem_singleton] at hi
          have hjk : j = k := by rwa [← mem_checkers, hk, List.mem_singleton] at hcheck
          exact absurd (hi.trans hjk.symm ▸ hj) hfirst
  · rintro ⟨⟨x, hx, hinstaller⟩, hunoverlapped⟩
    obtain ⟨i₀, hi₀⟩ := Option.isSome_iff_exists.mp hinstaller
    have hmem := (mem_allInstallers hstart).mpr ⟨x, hx, hi₀⟩
    obtain ⟨before, i, rest, rfl, hlast⟩ :=
      exists_last_removal (mem_of_complete hfresh hv hdone hmem).1
    obtain ⟨writes, hends, houtcome, hnodup, hi, _, hnew⟩ :=
      finishes_of_last htracked hfresh hv hdone hlast
    refine ⟨⟨i, writes, ?_, houtcome⟩, last_of_run htracked hfresh hv⟩
    have hothers : ∀ j ∈ checkers rest, j = i := by
      intro j hj
      have hj' : j ∈ start.allInstallers := installer_of_mem hv
        (List.mem_append_right _ (List.mem_cons_of_mem _ (mem_checkers.mp hj)))
      have hremoved := (mem_of_complete hfresh hv hdone hj').1
      rcases List.mem_append.mp hremoved with hremoved | hremoved
      · exact absurd (hunoverlapped before i rest rfl hlast j hremoved) (hnew j hj)
      · rcases List.mem_cons.mp hremoved with heq | hremoved
        · exact Event.removePendingContext.inj heq
        · exact absurd hremoved (hlast j)
    have hsingle : checkers rest = [i] := by
      apply List.perm_singleton.mp
      apply (List.perm_ext_iff_of_nodup hnodup (List.nodup_singleton i)).mpr
      intro j
      rw [List.mem_singleton]
      exact ⟨hothers j, fun hj => hj ▸ hi⟩
    rw [hends, hsingle]
    rfl

def serial : List (Event I) → Bool
  | [] => true
  | .removePendingContext i :: rest => rest.head? = some (.check i) && serial rest
  | _ :: rest => serial rest

theorem serial_append {before rest : List (Event I)} (h : serial (before ++ rest) = true) :
    serial rest = true := by
  induction before with
  | nil => exact h
  | cons x before ih =>
    cases x with
    | removePendingContext i => exact ih (Bool.and_eq_true_iff.mp h).2
    | _ => exact ih h

omit [DecidableEq C] in
theorem unoverlapped_of_serial {events : List (Event I)} (h : serial events = true) :
    Unoverlapped events := by
  rintro before i rest rfl _ j hj
  obtain ⟨a, b, rfl⟩ := List.append_of_mem hj
  rw [List.append_assoc] at h
  have hhead := of_decide_eq_true (Bool.and_eq_true_iff.mp (serial_append h)).1
  cases b with
  | nil => cases hhead
  | cons x b =>
    obtain rfl : x = .check j := Option.some.inj hhead
    simp

end Conclusion

section Requests

def registry (intentClass : ℕ) : Option ℕ :=
  if intentClass % 2 = 0 then some intentClass else none

def request (installables : List (Intent ℕ ℕ)) : IntentData ℕ ℕ ℕ ℕ :=
  ⟨⟨1, 0, 0⟩, .INSTALL_REQ, .INSTALLING, some 1, 1, some 1, 0, installables⟩

def mixed : Installation ℕ ℕ ℕ ℕ ℕ :=
  (installIntents registry none (some (request [⟨0, 1, 0⟩, ⟨2, 2, 0⟩, ⟨3, 3, 0⟩]))).get (by decide)

theorem concluded_iff_mixed :
    Concluded mixed none (some (request [⟨0, 1, 0⟩, ⟨2, 2, 0⟩, ⟨3, 3, 0⟩]))
      [.apply 2, .addErrorContext 2, .removePendingContext 2, .check 2, .apply 0,
        .removePendingContext 0, .check 0] :=
  (concluded_iff registry none _ (Option.some_get _).symm _ (by decide) (by decide)).mpr
    ⟨by decide, unoverlapped_of_serial (by decide)⟩

/-- Without an installer nothing is concluded. -/
theorem never_concluded : ∃ start : Installation ℕ ℕ ℕ ℕ ℕ,
    installIntents registry none (some (request [])) = some start ∧ start.Complete ∧
      ¬ Concluded start none (some (request [])) [] := by
  refine ⟨_, rfl, by decide, ?_⟩
  rintro ⟨⟨i, writes, hfinishes, _⟩, _⟩
  cases hfinishes

/-- Two reports that overlap finish twice. -/
example : ((installationMachine mixed).run mixed
    [.apply 2, .apply 0, .removePendingContext 2, .removePendingContext 0, .check 2,
      .check 0]).finishes.length = 2 := by decide

end Requests

end Installation

end InstallCoordinator

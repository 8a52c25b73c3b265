import Mathlib.Data.List.Dedup
import Onos.IntentData
import Onos.Lib.InputMachine

/-! The coordinator that hands the installables of an intent to their installers and concludes the
installation from their reports. -/
namespace InstallCoordinator

open Intents InputMachine

abbrev ArrayListMultimap (I X : Type*) := List (I × X)

section Multimap

variable {I X : Type*} [DecidableEq I]

def ArrayListMultimap.get (m : ArrayListMultimap I X) (i : I) : List X :=
  m.filterMap fun entry => if entry.1 = i then some entry.2 else none

def ArrayListMultimap.keySet (m : ArrayListMultimap I X) : List I := (m.map Prod.fst).dedup

theorem ArrayListMultimap.mem_get {m : ArrayListMultimap I X} {i : I} {x : X} :
    x ∈ m.get i ↔ (i, x) ∈ m := by
  simp only [get, List.mem_filterMap]
  constructor
  · rintro ⟨⟨j, y⟩, hentry, hx⟩
    by_cases hj : j = i
    · rw [if_pos hj] at hx
      obtain rfl := Option.some.inj hx
      rwa [← hj]
    · rw [if_neg hj] at hx
      cases hx
  · intro hentry
    exact ⟨(i, x), hentry, if_pos rfl⟩

theorem ArrayListMultimap.mem_keySet {m : ArrayListMultimap I X} {i : I} :
    i ∈ m.keySet ↔ ∃ x, (i, x) ∈ m := by
  simp [keySet]

end Multimap

section Model

variable {I C K V N : Type*} [DecidableEq C]

/-- What one installer is to do. All contexts here belong to the same installation. -/
structure IntentOperationContext (C K : Type*) where
  intentsToUninstall : List (Intent C K)
  intentsToInstall : List (Intent C K)
  deriving DecidableEq, Repr

def IntentOperationContext.equals (context obj : IntentOperationContext C K) : Bool :=
  context.intentsToInstall.isEqv obj.intentsToInstall Intent.equals &&
    context.intentsToUninstall.isEqv obj.intentsToUninstall Intent.equals

structure IntentInstallationContext (C K V N : Type*) where
  toUninstall : Option (IntentData C K V N)
  toInstall : Option (IntentData C K V N)
  pendingContexts : List (IntentOperationContext C K)
  errorContexts : List (IntentOperationContext C K)
  deriving DecidableEq, Repr

namespace IntentInstallationContext

def addPendingContext (c : IntentInstallationContext C K V N)
    (context : IntentOperationContext C K) : IntentInstallationContext C K V N :=
  if c.pendingContexts.any context.equals then c
  else { c with pendingContexts := c.pendingContexts ++ [context] }

def removePendingContext (c : IntentInstallationContext C K V N)
    (context : IntentOperationContext C K) : IntentInstallationContext C K V N :=
  { c with pendingContexts := c.pendingContexts.filter fun pending => !context.equals pending }

def addErrorContext (c : IntentInstallationContext C K V N)
    (context : IntentOperationContext C K) : IntentInstallationContext C K V N :=
  if c.errorContexts.any context.equals then c
  else { c with errorContexts := c.errorContexts ++ [context] }

def isPendingContextsEmpty (c : IntentInstallationContext C K V N) : Bool :=
  c.pendingContexts.isEmpty

end IntentInstallationContext

def getInstallers (getInstaller : C → Option I) (intentData : IntentData C K V N) :
    ArrayListMultimap I (Intent C K) :=
  intentData.installables.filterMap fun intent =>
    (getInstaller intent.intentClass).map fun installer => (installer, intent)

def finish (c : IntentInstallationContext C K V N) : List (IntentData C K V N) :=
  if c.errorContexts.isEmpty then
    match c.toInstall, c.toUninstall with
    | some installData, _ => [(installData.compiled installData.installables).setState .INSTALLED]
    | none, some uninstallData =>
      let uninstallData := uninstallData.compiled []
      match uninstallData.request with
      | .INSTALL_REQ => [uninstallData.setState .FAILED]
      | _ => [uninstallData.setState .WITHDRAWN]
    | none, none => []
  else c.toInstall.toList.map IntentData.corrupt ++ c.toUninstall.toList.map IntentData.corrupt

/-- How far an installer is with its context: the installer may add the context to the failed ones
before the context is no longer pending, and then looks whether others are. -/
inductive Progress where
  | registered | applied | failing | removed | reported
  deriving DecidableEq, Repr

/-- An installation that is going on, with what each end of it wrote and the installer that led to it. -/
structure Installation (I C K V N : Type*) where
  allInstallers : List I
  contexts : I → IntentOperationContext C K
  installationContext : IntentInstallationContext C K V N
  progress : I → Progress
  finishes : List (I × List (IntentData C K V N))

variable [DecidableEq I]

def installIntents (getInstaller : C → Option I) (toUninstall toInstall : Option (IntentData C K V N)) :
    Option (Installation I C K V N) :=
  if toUninstall.isNone && toInstall.isNone then none
  else
    let uninstallInstallers := (toUninstall.map (getInstallers getInstaller)).getD []
    let installInstallers := (toInstall.map (getInstallers getInstaller)).getD []
    let allInstallers :=
      ArrayListMultimap.keySet uninstallInstallers ∪ ArrayListMultimap.keySet installInstallers
    let contexts installer := ⟨ArrayListMultimap.get uninstallInstallers installer,
      ArrayListMultimap.get installInstallers installer⟩
    some
      { allInstallers := allInstallers
        contexts := contexts
        installationContext := allInstallers.foldl
          (fun c installer => c.addPendingContext (contexts installer)) ⟨toUninstall, toInstall, [], []⟩
        progress := fun _ => .registered
        finishes := [] }

/-- The steps of the installers; a report is several of them, and those of other installers may come
between. -/
inductive Event (I : Type*) where
  | apply (installer : I)
  | addErrorContext (installer : I)
  | removePendingContext (installer : I)
  | check (installer : I)
  deriving DecidableEq, Repr

def Event.installer : Event I → I
  | .apply i | .addErrorContext i | .removePendingContext i | .check i => i

def Event.progress : Event I → Progress
  | .apply _ => .applied
  | .addErrorContext _ => .failing
  | .removePendingContext _ => .removed
  | .check _ => .reported

namespace Installation

def reach (s : Installation I C K V N) (installer : I) (p : Progress) : Installation I C K V N :=
  { s with progress := Function.update s.progress installer p }

def handle (s : Installation I C K V N) : Event I → Installation I C K V N
  | .apply i => s.reach i .applied
  | .addErrorContext i =>
    { s.reach i .failing with
      installationContext := s.installationContext.addErrorContext (s.contexts i) }
  | .removePendingContext i =>
    { s.reach i .removed with
      installationContext := s.installationContext.removePendingContext (s.contexts i) }
  | .check i =>
    if s.installationContext.isPendingContextsEmpty then
      { s.reach i .reported with finishes := s.finishes ++ [(i, finish s.installationContext)] }
    else s.reach i .reported

def Accepts (s : Installation I C K V N) : Event I → Prop
  | .apply i => i ∈ s.allInstallers ∧ s.progress i = .registered
  | .addErrorContext i => i ∈ s.allInstallers ∧ s.progress i = .applied
  | .removePendingContext i =>
    i ∈ s.allInstallers ∧ (s.progress i = .applied ∨ s.progress i = .failing)
  | .check i => i ∈ s.allInstallers ∧ s.progress i = .removed

instance (s : Installation I C K V N) (x : Event I) : Decidable (s.Accepts x) := by
  cases x <;> unfold Accepts <;> infer_instance

def success (s : Installation I C K V N) (i : I) : Installation I C K V N :=
  (s.handle (.removePendingContext i)).handle (.check i)

def failed (s : Installation I C K V N) (i : I) : Installation I C K V N :=
  ((s.handle (.addErrorContext i)).handle (.removePendingContext i)).handle (.check i)

def installationMachine (start : Installation I C K V N) :
    Machine (Installation I C K V N) (Event I) :=
  ⟨start, Accepts, handle⟩

instance (start s : Installation I C K V N) (x : Event I) :
    Decidable ((installationMachine start).enabled s x) :=
  inferInstanceAs (Decidable (s.Accepts x))

def Complete (s : Installation I C K V N) : Prop :=
  ∀ i ∈ s.allInstallers, s.progress i = .reported

instance (s : Installation I C K V N) : Decidable s.Complete :=
  inferInstanceAs (Decidable (∀ i ∈ s.allInstallers, s.progress i = .reported))

end Installation

end Model

end InstallCoordinator

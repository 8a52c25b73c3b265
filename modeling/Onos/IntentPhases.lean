import Mathlib.Order.Defs.LinearOrder
import Onos.IntentData

/-! The phases that a worker takes an intent through. -/
namespace Intents

variable {C K V N : Type*}

/-- An exception; compilers throw their own kind for intents that cannot be compiled. -/
inductive Failure where
  | intentException
  | other
  deriving DecidableEq, Repr

/-- What the phases call: the compilers and the coordinator of the installers. -/
structure IntentProcessor (C K V N : Type*) where
  compile : Intent C K → Option (List (Intent C K)) → Except Failure (List (Intent C K))
  apply : Option (IntentData C K V N) → Option (IntentData C K V N) → Except Failure Unit

inductive FinalIntentProcessPhase (C K V N : Type*) where
  | Installing (data : IntentData C K V N) (stored : Option (IntentData C K V N))
  | Withdrawing (data : IntentData C K V N)
  | Withdrawn (data : IntentData C K V N)
  | Failed (data : IntentData C K V N)
  | PurgeRequest (data : IntentData C K V N) (stored : Option (IntentData C K V N))
  | Skipped
  deriving DecidableEq, Repr

inductive IntentProcessPhase (C K V N : Type*) where
  | InstallRequest (data : IntentData C K V N) (stored : Option (IntentData C K V N))
  | Compiling (data : IntentData C K V N) (stored : Option (IntentData C K V N))
  | WithdrawRequest (data : IntentData C K V N) (stored : Option (IntentData C K V N))
  | final (phase : FinalIntentProcessPhase C K V N)
  deriving DecidableEq, Repr

namespace FinalIntentProcessPhase

def newInstalling (data : IntentData C K V N) (stored : Option (IntentData C K V N)) :
    FinalIntentProcessPhase C K V N :=
  .Installing (data.setState .INSTALLING) stored

def newWithdrawing (data : IntentData C K V N) : FinalIntentProcessPhase C K V N :=
  .Withdrawing (data.setState .WITHDRAWING)

def newWithdrawn (data : IntentData C K V N) : FinalIntentProcessPhase C K V N :=
  .Withdrawn (data.nextState .WITHDRAWN)

def newFailed (data : IntentData C K V N) : FinalIntentProcessPhase C K V N :=
  .Failed (data.nextState .FAILED)

def preExecute (processor : IntentProcessor C K V N) :
    FinalIntentProcessPhase C K V N → Except Failure Unit
  | .Installing data stored => processor.apply stored (some data)
  | .Withdrawing data => processor.apply (some data) none
  | _ => .ok ()

def shouldAcceptPurge : Option (IntentData C K V N) → Bool
  | none => true
  | some storedData => storedData.state = .WITHDRAWN || storedData.state = .FAILED

def data : FinalIntentProcessPhase C K V N → Option (IntentData C K V N)
  | .Installing data _ | .Withdrawing data | .Withdrawn data | .Failed data => some data
  | .PurgeRequest data stored => if shouldAcceptPurge stored then some data else stored
  | .Skipped => none

theorem data_eq_none_iff {phase : FinalIntentProcessPhase C K V N} :
    phase.data = none ↔ phase = .Skipped := by
  cases phase with
  | PurgeRequest data stored =>
    cases stored with
    | none => simp [FinalIntentProcessPhase.data, shouldAcceptPurge]
    | some storedData =>
      simp only [FinalIntentProcessPhase.data]
      split <;> simp
  | _ => simp [FinalIntentProcessPhase.data]

end FinalIntentProcessPhase

open FinalIntentProcessPhase

section Model

variable [DecidableEq C]

/-- A request that is made again for the same intent goes on counting its errors. -/
def transferErrorCount (data : IntentData C K V N) :
    Option (IntentData C K V N) → IntentData C K V N
  | none => data
  | some storedData =>
    if data.intent.equals storedData.intent && data.request = storedData.request then
      data.setErrorCount storedData.errorCount
    else data.setErrorCount 0

namespace IntentProcessPhase

def execute (processor : IntentProcessor C K V N) :
    IntentProcessPhase C K V N → Except Failure (Option (IntentProcessPhase C K V N))
  | .InstallRequest data stored => .ok (some (.Compiling (transferErrorCount data stored) stored))
  | .Compiling data stored =>
    match processor.compile data.intent (stored.map IntentData.installables) with
    | .ok compiled => .ok (some (.final (newInstalling (data.compiled compiled) stored)))
    | .error .intentException =>
      match stored.filter fun x => !x.installables.isEmpty with
      | some x => .ok (some (.final (newWithdrawing (data.compiled x.installables))))
      | none => .ok (some (.final (newFailed data)))
    | .error .other => .error .other
  | .WithdrawRequest data stored =>
    let data := transferErrorCount data stored
    match stored.filter fun x => !x.installables.isEmpty with
    | none =>
      match data.request with
      | .INSTALL_REQ => .ok (some (.final (newFailed data)))
      | _ => .ok (some (.final (newWithdrawn data)))
    | some x => .ok (some (.final (newWithdrawing (data.compiled x.installables))))
  | .final phase => (phase.preExecute processor).map fun _ => none

def rank : IntentProcessPhase C K V N → ℕ
  | .InstallRequest _ _ => 2
  | .Compiling _ _ | .WithdrawRequest _ _ => 1
  | .final _ => 0

variable {processor : IntentProcessor C K V N}

theorem execute_next {phase next : IntentProcessPhase C K V N}
    (h : phase.execute processor = .ok (some next)) :
    next.rank < phase.rank ∧ next ≠ .final .Skipped := by
  cases phase with
  | InstallRequest data stored =>
    cases h
    exact ⟨Nat.lt_succ_self 1, nofun⟩
  | Compiling data stored =>
    simp only [execute] at h
    split at h
    · cases h
      exact ⟨Nat.zero_lt_one, nofun⟩
    · split at h <;> cases h <;> exact ⟨Nat.zero_lt_one, nofun⟩
    · cases h
  | WithdrawRequest data stored =>
    simp only [execute] at h
    split at h
    · split at h <;> cases h <;> exact ⟨Nat.zero_lt_one, nofun⟩
    · cases h
      exact ⟨Nat.zero_lt_one, nofun⟩
  | final phase =>
    simp only [execute] at h
    cases hpre : phase.preExecute processor <;> rw [hpre] at h <;> cases h

def asFinal : IntentProcessPhase C K V N → Except Failure (FinalIntentProcessPhase C K V N)
  | .final phase => .ok phase
  | _ => .error .other

def process (processor : IntentProcessor C K V N) (phase : IntentProcessPhase C K V N) :
    Except Failure (FinalIntentProcessPhase C K V N) :=
  match _h : phase.execute processor with
  | .ok (some next) => process processor next
  | .ok none => phase.asFinal
  | .error e => .error e
termination_by phase.rank
decreasing_by exact (execute_next _h).1

theorem process_eq (processor : IntentProcessor C K V N) (phase : IntentProcessPhase C K V N) :
    phase.process processor =
      match phase.execute processor with
      | .ok (some next) => next.process processor
      | .ok none => phase.asFinal
      | .error e => .error e := by
  rw [process]
  split <;> rename_i h <;> simp only [h]

theorem process_of_next {phase next : IntentProcessPhase C K V N}
    (h : phase.execute processor = .ok (some next)) :
    phase.process processor = next.process processor := by
  rw [process_eq, h]

theorem process_of_error {phase : IntentProcessPhase C K V N}
    {e : Failure} (h : phase.execute processor = .error e) : phase.process processor = .error e := by
  rw [process_eq, h]

theorem process_final (processor : IntentProcessor C K V N) (phase : FinalIntentProcessPhase C K V N) :
    (final phase).process processor = (phase.preExecute processor).map fun _ => phase := by
  rw [process_eq, execute]
  cases phase.preExecute processor <;> rfl

theorem process_ne_skipped
    {phase : IntentProcessPhase C K V N} {last : FinalIntentProcessPhase C K V N}
    (h : phase.process processor = .ok last) (hphase : phase ≠ .final .Skipped) :
    last ≠ .Skipped := by
  fun_induction process processor phase with
  | case1 phase next hnext ih => exact ih h (execute_next hnext).2
  | case2 phase hnone =>
    cases phase with
    | final phase =>
      cases h
      exact fun hlast => hphase (congrArg final hlast)
    | _ => cases h
  | case3 phase e herror => cases h

end IntentProcessPhase

def newInitialPhase (data : IntentData C K V N) (current : Option (IntentData C K V N)) :
    IntentProcessPhase C K V N :=
  match data.request with
  | .INSTALL_REQ => .InstallRequest data current
  | .WITHDRAW_REQ => .WithdrawRequest data current
  | .PURGE_REQ => .final (.PurgeRequest data current)
  | _ => .final (newFailed data)

omit [DecidableEq C] in
theorem newInitialPhase_ne_skipped (data : IntentData C K V N)
    (current : Option (IntentData C K V N)) : newInitialPhase data current ≠ .final .Skipped := by
  rw [newInitialPhase]
  split <;> nofun

end Model

end Intents

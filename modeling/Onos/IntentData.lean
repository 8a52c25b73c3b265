import Mathlib.Data.List.Basic

/-! Intents and the records that the intent store keeps of them. -/
namespace Intents

inductive IntentState where
  | INSTALL_REQ | COMPILING | INSTALLING | INSTALLED | RECOMPILING | WITHDRAW_REQ
  | WITHDRAWING | WITHDRAWN | FAILED | CORRUPT | PURGE_REQ | REALLOCATING
  deriving DecidableEq, Repr

structure Intent (C K : Type*) where
  intentClass : C
  id : ℕ
  key : K
  deriving DecidableEq, Repr

def Intent.equals {C K : Type*} [DecidableEq C] (intent obj : Intent C K) : Bool :=
  intent.intentClass = obj.intentClass && intent.id = obj.id

theorem Intent.intentClass_of_equals {C K : Type*} [DecidableEq C] {x y : Intent C K}
    (h : x.equals y = true) : x.intentClass = y.intentClass := by
  simp only [Intent.equals, Bool.and_eq_true, decide_eq_true_eq] at h
  exact h.1

structure IntentData (C K V N : Type*) where
  intent : Intent C K
  request : IntentState
  state : IntentState
  version : Option V
  internalStateVersion : ℕ
  origin : Option N
  errorCount : ℕ
  installables : List (Intent C K)
  deriving DecidableEq, Repr

namespace IntentData

variable {C K V N : Type*}

def key (data : IntentData C K V N) : K := data.intent.key

def setState (data : IntentData C K V N) (newState : IntentState) : IntentData C K V N :=
  { data with internalStateVersion := data.internalStateVersion + 1, state := newState }

def incrementErrorCount (data : IntentData C K V N) : IntentData C K V N :=
  { data with errorCount := data.errorCount + 1 }

def setErrorCount (data : IntentData C K V N) (newCount : ℕ) : IntentData C K V N :=
  { data with errorCount := newCount }

def nextState (data : IntentData C K V N) (newState : IntentState) : IntentData C K V N :=
  data.setState newState

def corrupt (data : IntentData C K V N) : IntentData C K V N :=
  (data.setState .CORRUPT).incrementErrorCount

def compiled (data : IntentData C K V N) (installables : List (Intent C K)) :
    IntentData C K V N :=
  { data with
    internalStateVersion := data.internalStateVersion + 1
    installables := installables }

structure CopyIn (data : IntentData C K V N) (state : IntentState) (copy : IntentData C K V N) :
    Prop where
  intent : copy.intent = data.intent
  request : copy.request = data.request
  version : copy.version = data.version
  origin : copy.origin = data.origin
  state : copy.state = state

theorem copyIn_setState (data : IntentData C K V N) (state : IntentState) :
    data.CopyIn state (data.setState state) := ⟨rfl, rfl, rfl, rfl, rfl⟩

theorem copyIn_compiled (data : IntentData C K V N) (installables : List (Intent C K))
    (state : IntentState) : data.CopyIn state ((data.compiled installables).setState state) :=
  ⟨rfl, rfl, rfl, rfl, rfl⟩

theorem copyIn_corrupt (data : IntentData C K V N) : data.CopyIn .CORRUPT data.corrupt :=
  ⟨rfl, rfl, rfl, rfl, rfl⟩

end IntentData

end Intents

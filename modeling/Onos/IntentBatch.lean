import Mathlib.Data.List.Forall2
import Mathlib.Order.Lattice
import Onos.IntentPhases
import Onos.Lib.FallibleRun

/-! A batch of intents: every intent is processed by itself, and the results are written together. -/
namespace IntentBatch

open FallibleRun Intents

variable {C K V N : Type*} [DecidableEq C] [LinearOrder V]

section Model

/-- One intent of a batch, with what its worker meets: the processor, the maps of the store when its
first phase is created, and the map of current records when its failure is handled. -/
structure Operation (C K V N : Type*) where
  data : IntentData C K V N
  processor : IntentProcessor C K V N
  pendingMap : K → Option (IntentData C K V N)
  currentMap : K → Option (IntentData C K V N)
  currentMapAtFailure : K → Option (IntentData C K V N)

def isNewerThan (version other : Option V) : Except Failure Bool :=
  match version, other with
  | some v, some w => .ok (decide (w < v))
  | _, _ => .error .other

namespace Operation

def createInitialPhase (op : Operation C K V N) : Except Failure (IntentProcessPhase C K V N) :=
  match op.pendingMap op.data.key with
  | none => .ok (.final .Skipped)
  | some pending =>
    (isNewerThan pending.version op.data.version).map fun newer =>
      if newer then .final .Skipped else newInitialPhase op.data (op.currentMap op.data.key)

def processed (op : Operation C K V N) : Except Failure (Option (IntentData C K V N)) :=
  (op.createInitialPhase.bind fun phase => phase.process op.processor).map
    FinalIntentProcessPhase.data

/-- What a failure is turned into, which may fail itself: there is nothing to copy without a record. -/
def exceptionally (op : Operation C K V N) : Except Failure (Option (IntentData C K V N)) :=
  match op.data.state with
  | .INSTALL_REQ | .INSTALLING | .WITHDRAW_REQ | .WITHDRAWING =>
    match op.currentMapAtFailure op.data.key with
    | some current => .ok (some (current.nextState .FAILED))
    | none => .error .other
  | _ => .ok none

def future (op : Operation C K V N) : Except Failure (Option (IntentData C K V N)) :=
  match op.processed with
  | .ok data => .ok data
  | .error _ => op.exceptionally

end Operation

def allOf {α : Type*} (futures : List (Except Failure α)) : Except Failure (List α) :=
  futures.mapM id

def execute (operations : List (Operation C K V N)) : Option (List (IntentData C K V N)) :=
  match allOf (operations.map Operation.future) with
  | .ok results => some (results.filterMap id)
  | .error _ => none

end Model

namespace Operation

def Throws (op : Operation C K V N) : Prop := ∃ e, op.processed = .error e

def Recorded (op : Operation C K V N) : Prop :=
  op.data.state ∈ [.INSTALL_REQ, .INSTALLING, .WITHDRAW_REQ, .WITHDRAWING] →
    ∃ current, op.currentMapAtFailure op.data.key = some current

def Skips (op : Operation C K V N) : Prop :=
  ∀ pending, op.pendingMap op.data.key = some pending →
    isNewerThan pending.version op.data.version = .ok true

structure Entry (op : Operation C K V N) (entry : List (IntentData C K V N)) : Prop where
  result : ∀ data, op.processed = .ok data → entry = data.toList
  failure : op.Throws → entry = [] ∨ ∃ current w,
    op.currentMapAtFailure op.data.key = some current ∧ current.CopyIn .FAILED w ∧ entry = [w]

variable {op : Operation C K V N}

section

omit [DecidableEq C]

theorem createInitialPhase_of_skips (h : op.Skips) :
    op.createInitialPhase = .ok (.final .Skipped) := by
  rw [createInitialPhase]
  cases hpending : op.pendingMap op.data.key with
  | none => rfl
  | some pending =>
    simp only [h pending hpending]
    rfl

theorem createInitialPhase_of_not_skips (h : ¬ op.Skips) {phase : IntentProcessPhase C K V N}
    (hphase : op.createInitialPhase = .ok phase) :
    phase = newInitialPhase op.data (op.currentMap op.data.key) := by
  rw [createInitialPhase] at hphase
  cases hpending : op.pendingMap op.data.key with
  | none =>
    refine absurd ?_ h
    intro pending hsome
    rw [hpending] at hsome
    cases hsome
  | some pending =>
    rw [hpending] at hphase
    obtain ⟨newer, hnewer, hinitial⟩ := map_eq_ok.mp hphase
    cases newer with
    | true =>
      refine absurd ?_ h
      intro pending' hsome
      rw [hpending] at hsome
      rwa [← Option.some.inj hsome]
    | false => exact hinitial.symm

theorem createInitialPhase_ne_skipped (h : ¬ op.Skips) {phase : IntentProcessPhase C K V N}
    (hphase : op.createInitialPhase = .ok phase) : phase ≠ .final .Skipped := by
  rw [createInitialPhase_of_not_skips h hphase]
  apply newInitialPhase_ne_skipped

end

theorem processed_eq_none_iff : op.processed = .ok none ↔ op.Skips := by
  constructor
  · intro hnone
    by_contra hskips
    obtain ⟨last, hlast, hdata⟩ := map_eq_ok.mp hnone
    obtain ⟨phase, hphase, hprocess⟩ := bind_eq_ok.mp hlast
    rw [FinalIntentProcessPhase.data_eq_none_iff] at hdata
    exact IntentProcessPhase.process_ne_skipped hprocess
      (createInitialPhase_ne_skipped hskips hphase) hdata
  · intro hskips
    rw [processed, createInitialPhase_of_skips hskips, Except.bind, IntentProcessPhase.process_final]
    rfl

theorem throws_or_results (op : Operation C K V N) :
    op.Throws ∨ ∃ data, op.processed = .ok data := by
  rw [Throws]
  cases op.processed with
  | ok data => exact .inr ⟨data, rfl⟩
  | error e => exact .inl ⟨e, rfl⟩

section

omit [DecidableEq C] [LinearOrder V]

theorem exceptionally_of_recorded (h : op.Recorded) : ∃ data, op.exceptionally = .ok data ∧
    (data = none ∨ ∃ current w, op.currentMapAtFailure op.data.key = some current ∧
      current.CopyIn .FAILED w ∧ data = some w) := by
  by_cases hstate : op.data.state ∈ [.INSTALL_REQ, .INSTALLING, .WITHDRAW_REQ, .WITHDRAWING]
  · obtain ⟨current, hcurrent⟩ := h hstate
    refine ⟨some (current.nextState .FAILED), ?_, .inr ⟨current, _, hcurrent, ?_, rfl⟩⟩
    · simp only [List.mem_cons, List.not_mem_nil, or_false] at hstate
      rcases hstate with hs | hs | hs | hs <;> simp [exceptionally, hs, hcurrent]
    · exact current.copyIn_setState .FAILED
  · refine ⟨none, ?_, .inl rfl⟩
    rw [exceptionally]
    split <;> simp_all

theorem exceptionally_of_not_recorded (h : ¬ op.Recorded) : op.exceptionally = .error .other := by
  rw [Recorded, Classical.not_imp] at h
  obtain ⟨hstate, hnone⟩ := h
  have hcurrent : op.currentMapAtFailure op.data.key = none :=
    Option.eq_none_iff_forall_ne_some.mpr fun current hsome => hnone ⟨current, hsome⟩
  simp only [List.mem_cons, List.not_mem_nil, or_false] at hstate
  rcases hstate with hs | hs | hs | hs <;> simp [exceptionally, hs, hcurrent]

end

theorem future_of_recorded (h : op.Throws → op.Recorded) :
    ∃ data, op.future = .ok data ∧ op.Entry data.toList := by
  rcases throws_or_results op with hthrows | ⟨data, hdata⟩
  · obtain ⟨data, hexceptionally, hrecord⟩ := exceptionally_of_recorded (h hthrows)
    obtain ⟨e, he⟩ := hthrows
    refine ⟨data, by rw [future, he, hexceptionally], ⟨fun d hd => ?_, fun _ => ?_⟩⟩
    · rw [he] at hd
      cases hd
    · rcases hrecord with rfl | ⟨current, w, hcurrent, hcopy, rfl⟩
      · exact .inl rfl
      · exact .inr ⟨current, w, hcurrent, hcopy, rfl⟩
  · refine ⟨data, by rw [future, hdata], ⟨fun d hd => ?_, fun ⟨e, he⟩ => ?_⟩⟩
    · rw [Except.ok.inj (hdata.symm.trans hd)]
    · rw [hdata] at he
      cases he

theorem future_of_not_recorded (hthrows : op.Throws) (h : ¬ op.Recorded) :
    op.future = .error .other := by
  obtain ⟨e, he⟩ := hthrows
  rw [future, he, exceptionally_of_not_recorded h]

end Operation

section Batch

theorem allOf_ok {α : Type*} (results : List α) :
    allOf (results.map fun r => (.ok r : Except Failure α)) = .ok results := by
  induction results with
  | nil => rfl
  | cons r results ih =>
    rw [allOf] at ih
    rw [allOf, List.map_cons, List.mapM_cons, ih]
    rfl

theorem allOf_error {α : Type*} {futures : List (Except Failure α)} {e : Failure}
    (h : .error e ∈ futures) : ∃ e', allOf futures = .error e' := by
  induction futures with
  | nil => exact absurd h List.not_mem_nil
  | cons f futures ih =>
    rw [allOf] at ih ⊢
    rw [List.mapM_cons]
    cases f with
    | error e' => exact ⟨e', rfl⟩
    | ok r =>
      obtain ⟨e', he'⟩ := ih ((List.mem_cons.mp h).resolve_left nofun)
      rw [he']
      exact ⟨e', rfl⟩

variable {operations : List (Operation C K V N)}

/-- The failures of the batch are isolated: the writes are put together, in the order of the batch,
from what each intent may write. -/
def Isolated (operations : List (Operation C K V N)) (writes : List (IntentData C K V N)) : Prop :=
  ∃ entries, writes = entries.flatten ∧ List.Forall₂ Operation.Entry operations entries

theorem execute_of_recorded (h : ∀ op ∈ operations, op.Throws → op.Recorded) :
    ∃ results, execute operations = some (results.filterMap id) ∧
      List.Forall₂ (fun op data => op.Entry (Option.toList data)) operations results := by
  have hresults : ∃ results, operations.map Operation.future =
      results.map (fun r => (.ok r : Except Failure (Option (IntentData C K V N)))) ∧
      List.Forall₂ (fun op data => op.Entry (Option.toList data)) operations results := by
    induction operations with
    | nil => exact ⟨[], rfl, .nil⟩
    | cons op operations ih =>
      obtain ⟨data, hfuture, hentry⟩ := op.future_of_recorded (h op List.mem_cons_self)
      obtain ⟨results, hmap, hentries⟩ := ih fun op' hop' => h op' (List.mem_cons_of_mem op hop')
      refine ⟨data :: results, ?_, .cons hentry hentries⟩
      rw [List.map_cons, List.map_cons, hfuture, hmap]
  obtain ⟨results, hmap, hentries⟩ := hresults
  refine ⟨results, ?_, hentries⟩
  rw [execute, hmap, allOf_ok]

theorem execute_of_not_recorded {op : Operation C K V N} (hop : op ∈ operations)
    (hthrows : op.Throws) (h : ¬ op.Recorded) : execute operations = none := by
  have hfuture : .error .other ∈ operations.map Operation.future :=
    List.mem_map.mpr ⟨op, hop, op.future_of_not_recorded hthrows h⟩
  obtain ⟨e, he⟩ := allOf_error hfuture
  rw [execute, he]

theorem isolated_of_recorded (h : ∀ op ∈ operations, op.Throws → op.Recorded) :
    Isolated operations ((execute operations).getD []) := by
  obtain ⟨results, hexecute, hentries⟩ := execute_of_recorded h
  refine ⟨results.map Option.toList, ?_, List.forall₂_map_right_iff.mpr hentries⟩
  rw [hexecute, Option.getD_some, List.filterMap_eq_flatMap_toList, List.flatMap_def]
  rfl

theorem isolated_nil (h : ∀ op ∈ operations, ¬ op.Throws → op.Skips) : Isolated operations [] := by
  refine ⟨operations.map fun _ => [], by simp, ?_⟩
  rw [List.forall₂_map_right_iff, List.forall₂_same]
  intro op hop
  refine ⟨fun data hdata => ?_, fun _ => .inl rfl⟩
  have hskips := h op hop fun ⟨e, he⟩ => by
    rw [hdata] at he
    cases he
  rw [← op.processed_eq_none_iff, hdata] at hskips
  rw [Except.ok.inj hskips]
  rfl

theorem skips_of_isolated_nil (h : Isolated operations []) :
    ∀ op ∈ operations, ¬ op.Throws → op.Skips := by
  obtain ⟨entries, hflatten, hentries⟩ := h
  intro op hop hthrows
  obtain ⟨entry, hmem, hentry⟩ : ∃ entry ∈ entries, op.Entry entry := by
    clear hflatten
    induction hentries with
    | nil => exact absurd hop List.not_mem_nil
    | @cons op' entry' _ _ hhead _ ih =>
      rcases List.mem_cons.mp hop with rfl | hop
      · exact ⟨entry', List.mem_cons_self, hhead⟩
      · obtain ⟨entry, hmem, hentry⟩ := ih hop
        exact ⟨entry, List.mem_cons_of_mem entry' hmem, hentry⟩
  rcases op.throws_or_results with hno | ⟨data, hdata⟩
  · exact absurd hno hthrows
  · have hnil : data.toList = [] := by
      rw [← hentry.result data hdata]
      exact List.eq_nil_iff_forall_not_mem.mpr fun w hw =>
        List.not_mem_nil (hflatten ▸ List.mem_flatten.mpr ⟨entry, hmem, hw⟩)
    rw [← op.processed_eq_none_iff, hdata, Option.toList_eq_nil_iff.mp hnil]

/-- Failures are isolated if and only if those that are recorded have a record to copy, or there is
nothing to write for the other intents. -/
theorem isolated_iff (operations : List (Operation C K V N)) :
    Isolated operations ((execute operations).getD []) ↔
      (∀ op ∈ operations, op.Throws → op.Recorded) ∨
        ∀ op ∈ operations, ¬ op.Throws → op.Skips := by
  constructor
  · intro h
    by_cases hrecorded : ∀ op ∈ operations, op.Throws → op.Recorded
    · exact .inl hrecorded
    · right
      simp only [not_forall] at hrecorded
      obtain ⟨op, hop, hthrows, hno⟩ := hrecorded
      rw [execute_of_not_recorded hop hthrows hno] at h
      exact skips_of_isolated_nil h
  · rintro (hrecorded | hskips)
    · exact isolated_of_recorded hrecorded
    · by_cases hrecorded : ∀ op ∈ operations, op.Throws → op.Recorded
      · exact isolated_of_recorded hrecorded
      · simp only [not_forall] at hrecorded
        obtain ⟨op, hop, hthrows, hno⟩ := hrecorded
        rw [execute_of_not_recorded hop hthrows hno]
        exact isolated_nil hskips

end Batch

section Requests

def requested (key : ℕ) (request : IntentState) (processor : IntentProcessor ℕ ℕ ℕ ℕ) :
    Operation ℕ ℕ ℕ ℕ :=
  let data : IntentData ℕ ℕ ℕ ℕ := ⟨⟨0, key, key⟩, request, request, some 1, 1, some 1, 0, []⟩
  ⟨data, processor, fun k => if k = key then some data else none, fun _ => none, fun _ => none⟩

def broken : IntentProcessor ℕ ℕ ℕ ℕ := ⟨fun _ _ => .error .other, fun _ _ => .ok ()⟩

def submitted : Operation ℕ ℕ ℕ ℕ := requested 0 .INSTALL_REQ broken

def withdrawn : Operation ℕ ℕ ℕ ℕ := requested 1 .WITHDRAW_REQ broken

theorem submitted_throws : submitted.Throws := by
  have hnext : (newInitialPhase submitted.data none).execute broken =
      .ok (some (.Compiling submitted.data none)) := rfl
  have herror : (IntentProcessPhase.Compiling submitted.data none).execute broken = .error .other := rfl
  have hprocess : (newInitialPhase submitted.data none).process broken = .error .other := by
    rw [IntentProcessPhase.process_of_next hnext, IntentProcessPhase.process_of_error herror]
  have hinitial : submitted.createInitialPhase = .ok (newInitialPhase submitted.data none) := rfl
  refine ⟨.other, ?_⟩
  rw [Operation.processed, hinitial]
  exact congrArg (Except.map FinalIntentProcessPhase.data) hprocess

theorem withdrawn_processed : withdrawn.processed = .ok (some (withdrawn.data.nextState .WITHDRAWN)) := by
  have hnext : (newInitialPhase withdrawn.data none).execute broken =
      .ok (some (.final (.newWithdrawn withdrawn.data))) := rfl
  have hprocess : (newInitialPhase withdrawn.data none).process broken =
      .ok (.newWithdrawn withdrawn.data) := by
    rw [IntentProcessPhase.process_of_next hnext, IntentProcessPhase.process_final]
    rfl
  have hinitial : withdrawn.createInitialPhase = .ok (newInitialPhase withdrawn.data none) := rfl
  rw [Operation.processed, hinitial]
  exact congrArg (Except.map FinalIntentProcessPhase.data) hprocess

/-- The withdrawal is lost with the first submission of another intent. -/
theorem withdrawal_lost :
    ¬ Isolated [submitted, withdrawn] ((execute [submitted, withdrawn]).getD []) := by
  have hno : ¬ submitted.Recorded := by
    intro hrecorded
    obtain ⟨current, hcurrent⟩ := hrecorded List.mem_cons_self
    cases hcurrent
  rw [execute_of_not_recorded List.mem_cons_self submitted_throws hno]
  intro h
  have hskips : withdrawn.Skips := by
    apply skips_of_isolated_nil h withdrawn (by simp)
    rintro ⟨e, he⟩
    rw [withdrawn_processed] at he
    cases he
  rw [← Operation.processed_eq_none_iff, withdrawn_processed] at hskips
  cases hskips

end Requests

end IntentBatch

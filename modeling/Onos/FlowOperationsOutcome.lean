import Onos.FlowOperationsStages

/-! What the context of a request is told when batches fail. Every failed batch is reported by itself,
and does not keep the processor from taking up the next stage. -/
namespace FlowOperationsProcessor.Request

open InFlight InputMachine

variable {D R : Type*} [DecidableEq D] [DecidableEq R]

section Reports

def rules (ops : FlowRuleOperations D R) : List (FlowRule D R) :=
  ops.stages.flatten.map (·.rule)

theorem rules_failedOps (failures : List (FlowRule D R)) : rules (failedOps failures) = failures := by
  have hnew : ∀ op ∈ (Builder.new : Builder D R).currentStage, op.object < 0 :=
    fun op hop => absurd hop List.not_mem_nil
  have hinstructions := Builder.instructions_foldl .ADD failures hnew
  have hrules : rules (failedOps failures) = (failures.zipIdx.foldl
      (fun b rule => b.operation ⟨rule.2, rule.1, .ADD⟩) Builder.new).instructions.map Prod.snd := by
    rw [rules, failedOps, Builder.flatten_build, Builder.instructions, List.map_map]
    rfl
  rw [hrules, hinstructions, List.map_append, List.map_map]
  exact List.map_id failures

end Reports

def Input.fails : Input D R → Bool
  | .complete _ result => !result.isSuccess
  | _ => false

variable {fops : FlowRuleOperations D R} {s : Request D R} {x : Input D R} {xs : List (Input D R)}

theorem countP_completed_handle (h : s.Tracked) (hx : s.Accepts x) :
    (s.handle x).completed.countP (fun c => !c.2.isSuccess) =
      s.completed.countP (fun c => !c.2.isSuccess) + if x.fails then 1 else 0 := by
  cases x with
  | run ids =>
    cases hs : s.stages with
    | nil => rw [handle_run_nil hs]; rfl
    | cons ops stages => rw [handle_run_cons hs]; rfl
  | storeBatch k =>
    obtain ⟨b, rest, hk⟩ := takeAt_isSome hx
    rw [handle_storeBatch hk]
    rfl
  | complete k result =>
    obtain ⟨b, rest, hk⟩ := takeAt_isSome hx
    have hflies : b ∈ s.inFlight := List.mem_append_right _ ((mem_takeAt hk b).mpr (.inl rfl))
    rw [handle_complete hk (h.registered b hflies)]
    exact List.countP_append.trans (congrArg (_ + ·) List.countP_singleton)

theorem countP_completed_run (hv : (requestMachine fops).Valid s xs) (h : s.Tracked) :
    ((requestMachine fops).run s xs).completed.countP (fun c => !c.2.isSuccess) =
      s.completed.countP (fun c => !c.2.isSuccess) + xs.countP Input.fails := by
  induction xs generalizing s with
  | nil => rfl
  | cons x xs ih =>
    rw [run_cons, ih hv.2 (tracked_handle x h hv.1), List.countP_cons]
    have hstep := countP_completed_handle h hv.1
    have hnext : (requestMachine fops).next s x = s.handle x := rfl
    rw [hnext]
    omega

def FailsLast (s : Request D R) : Prop :=
  ∀ i ∈ s.issued, ∀ c ∈ s.completed, c.1 = i.2 → c.2.isSuccess = false →
    i.1 + 1 = s.fops.stages.length

omit [DecidableEq D] [DecidableEq R] in
theorem started_eq_iff (h : s.stages <:+ s.fops.stages) :
    s.started = s.fops.stages.length ↔ s.stages = [] := by
  have hadd := started_add h
  rw [← List.length_eq_zero_iff]
  omega

theorem failsLast_complete (h : s.Tracked) (hlast : s.FailsLast) {k : ℕ}
    {result : CompletedBatchOperation D R} (hx : s.Accepts (.complete k result)) :
    (s.handle (.complete k result)).FailsLast ↔ (result.isSuccess = false → s.stages = []) := by
  obtain ⟨b, rest, hk⟩ := takeAt_isSome hx
  have hflies : b ∈ s.inFlight := List.mem_append_right _ ((mem_takeAt hk b).mpr (.inl rfl))
  rw [handle_complete hk (h.registered b hflies)]
  constructor
  · intro hnext hfails
    obtain ⟨i, hi, hb⟩ := List.mem_map.mp (h.accounted.mem_iff.mp (List.mem_append_left _ hflies))
    have hcurrent := h.current i hi (hb ▸ hflies)
    have hi' := hnext i hi (b, result) (List.mem_append_right _ List.mem_cons_self) hb.symm hfails
    exact (started_eq_iff h.remaining).mp (hcurrent.symm.trans hi')
  · intro hnil i hi c hc hb hfails
    rcases List.mem_append.mp hc with hc | hc
    · exact hlast i hi c hc hb hfails
    · rw [List.mem_singleton.mp hc] at hb hfails
      rw [h.current i hi (hb ▸ hflies)]
      exact (started_eq_iff h.remaining).mpr (hnil hfails)

theorem failsLast_handle (h : s.Tracked) (hlast : s.FailsLast) (hx : s.Accepts x) :
    (s.handle x).FailsLast ↔ (x.fails = true → s.stages = []) := by
  cases x with
  | run ids =>
    refine iff_of_true ?_ fun hfails => absurd hfails Bool.false_ne_true
    cases hs : s.stages with
    | nil =>
      rw [handle_run_nil hs]
      exact hlast
    | cons ops stages =>
      rw [handle_run_cons hs]
      intro i hi c hc hb hfails
      rcases List.mem_append.mp hi with hi | hi
      · exact hlast i hi c hc hb hfails
      · obtain ⟨_, hids, hfresh, hlength⟩ := hx
        rw [hs, List.headD_cons] at hlength
        obtain ⟨b, hnew, rfl⟩ := List.mem_map.mp hi
        obtain ⟨j, hj, hold⟩ := h.issued_of_completed hc
        apply absurd _ (hfresh j hj)
        rw [hold, hb, ← map_id_perDeviceBatches hlength]
        exact List.mem_map_of_mem hnew
  | storeBatch k =>
    refine iff_of_true ?_ fun hfails => absurd hfails Bool.false_ne_true
    obtain ⟨b, rest, hk⟩ := takeAt_isSome hx
    rw [handle_storeBatch hk]
    exact hlast
  | complete k result =>
    rw [failsLast_complete h hlast hx, Input.fails, Bool.not_eq_true']

structure Recorded (s s' : Request D R) : Prop where
  fops : s'.fops = s.fops
  issued : ∀ i ∈ s.issued, i ∈ s'.issued
  completed : ∀ c ∈ s.completed, c ∈ s'.completed

theorem recorded_handle (h : s.Tracked) (hx : s.Accepts x) : Recorded s (s.handle x) := by
  cases x with
  | run ids =>
    cases hs : s.stages with
    | nil =>
      rw [handle_run_nil hs]
      exact ⟨rfl, fun _ => id, fun _ => id⟩
    | cons ops stages =>
      rw [handle_run_cons hs]
      exact ⟨rfl, fun _ => List.mem_append_left _, fun _ => id⟩
  | storeBatch k =>
    obtain ⟨b, rest, hk⟩ := takeAt_isSome hx
    rw [handle_storeBatch hk]
    exact ⟨rfl, fun _ => id, fun _ => id⟩
  | complete k result =>
    obtain ⟨b, rest, hk⟩ := takeAt_isSome hx
    have hflies : b ∈ s.inFlight := List.mem_append_right _ ((mem_takeAt hk b).mpr (.inl rfl))
    rw [handle_complete hk (h.registered b hflies)]
    exact ⟨rfl, fun _ => id, fun _ => List.mem_append_left _⟩

theorem recorded_run (hv : (requestMachine fops).Valid s xs) (h : s.Tracked) :
    Recorded s ((requestMachine fops).run s xs) :=
  relation_run Tracked Recorded (fun _ => ⟨rfl, fun _ => id, fun _ => id⟩)
    (fun _ _ _ hab hbc => ⟨hbc.fops.trans hab.fops, fun i hi => hbc.issued i (hab.issued i hi),
      fun c hc => hbc.completed c (hab.completed c hc)⟩)
    (fun _ x ht hx => tracked_handle x ht hx) (fun _ _ ht hx => recorded_handle ht hx) hv h

omit [DecidableEq D] [DecidableEq R] in
theorem Recorded.failsLast {s s' : Request D R} (h : Recorded s s') (hlast : s'.FailsLast) :
    s.FailsLast := by
  intro i hi c hc hb hfails
  rw [← h.fops]
  exact hlast i (h.issued i hi) c (h.completed c hc) hb hfails

theorem failsLast_iff (hv : (requestMachine fops).Valid (requestMachine fops).initial xs) :
    ((requestMachine fops).run (requestMachine fops).initial xs).FailsLast ↔
      ((requestMachine fops).guarded fun s x => x.fails = true → s.stages = []).Valid
        (requestMachine fops).initial xs := by
  have hinitial : (applied fops).FailsLast := fun i hi => absurd hi List.not_mem_nil
  have hstep : ∀ (s : Request D R) x, s.Tracked ∧ s.FailsLast → s.Accepts x →
      ((s.handle x).Tracked ∧ (s.handle x).FailsLast ↔ (x.fails = true → s.stages = [])) :=
    fun s x h hx => (and_iff_right (tracked_handle x h.1 hx)).trans (failsLast_handle h.1 h.2 hx)
  rw [← invariant_iff (fun s => s.Tracked ∧ s.FailsLast) hstep hv ⟨tracked_applied, hinitial⟩]
  constructor
  · rintro hlast ys ⟨zs, rfl⟩
    obtain ⟨hys, hzs⟩ := (valid_append _ _ _ _).mp hv
    have htracked := tracked_run hys
    rw [run_append] at hlast
    exact ⟨htracked, (recorded_run hzs htracked).failsLast hlast⟩
  · intro hall
    exact (hall xs (List.prefix_refl xs)).2

def OneOutcome (s : Request D R) : Prop :=
  (∀ c ∈ s.completed, c.2.isSuccess = true) ∧ s.callbacks = [.onSuccess s.fops] ∨
  (∃ c ∈ s.completed, c.2.isSuccess = false) ∧ ∃ ops, s.callbacks = [.onError ops] ∧
    ∀ rule, rule ∈ rules ops ↔ ∃ c ∈ s.completed, c.2.isSuccess = false ∧ rule ∈ c.2.failedItems

def StoppedByFailure (s : Request D R) : Prop :=
  ∀ i ∈ s.issued, ∀ c ∈ s.completed, c.1 = i.2 → c.2.isSuccess = false →
    ∀ j ∈ s.issued, j.1 ≤ i.1

theorem oneOutcome_iff (h : s.Tracked) (hfin : s.Finished) :
    s.OneOutcome ↔ s.completed.countP (fun c => !c.2.isSuccess) ≤ 1 := by
  have hlength : s.errors.length = s.completed.countP fun c => !c.2.isSuccess := by
    rw [errors, List.length_map, List.countP_eq_length_filter]
  have hcalled := h.called
  constructor
  · rintro (⟨hall, _⟩ | ⟨⟨c, hc, hfails⟩, ops, hone, _⟩)
    · rw [List.countP_eq_zero.mpr fun c hc => by rw [hall c hc]; exact Bool.false_ne_true]
      exact Nat.zero_le 1
    · have hfailed : ¬ s.hasFailed = false := fun hnone =>
        Bool.false_ne_true (hfails.symm.trans (h.hasFailed_iff.mp hnone c hc))
      rw [if_neg fun hand => hfailed hand.2, List.append_nil, hone] at hcalled
      rw [← hlength, ← hcalled]
      exact le_rfl
  · intro hle
    cases hfailures : s.completed.filter fun c => !c.2.isSuccess with
    | nil =>
      have hall : ∀ c ∈ s.completed, c.2.isSuccess = true := fun c hc => by
        simpa using List.filter_eq_nil_iff.mp hfailures c hc
      rw [if_pos ⟨hfin, h.hasFailed_iff.mpr hall⟩, errors, hfailures] at hcalled
      exact .inl ⟨hall, hcalled⟩
    | cons c others =>
      rw [List.countP_eq_length_filter, hfailures, List.length_cons] at hle
      obtain rfl : others = [] := List.length_eq_zero_iff.mp (by omega)
      have hmem : ∀ c', c' ∈ s.completed ∧ c'.2.isSuccess = false ↔ c' = c := fun c' => by
        rw [← @List.mem_singleton _ c' c, ← hfailures, List.mem_filter, Bool.not_eq_true']
      obtain ⟨hc, hfails⟩ := (hmem c).mpr rfl
      have hfailed : ¬ s.hasFailed = false := fun hnone =>
        Bool.false_ne_true (hfails.symm.trans (h.hasFailed_iff.mp hnone c hc))
      rw [if_neg fun hand => hfailed hand.2, List.append_nil, errors, hfailures] at hcalled
      refine .inr ⟨⟨c, hc, hfails⟩, failedOps c.2.failedItems, hcalled, fun rule => ?_⟩
      rw [rules_failedOps]
      constructor
      · intro hrule
        exact ⟨c, hc, hfails, hrule⟩
      · rintro ⟨c', hc', hfails', hrule⟩
        rwa [(hmem c').mp ⟨hc', hfails'⟩] at hrule

theorem stoppedByFailure_iff (h : s.Tracked) (hfin : s.Finished) :
    s.StoppedByFailure ↔ s.FailsLast := by
  have hstarted := (h.stages_of_finished hfin).2
  constructor
  · intro hstopped i hi c hc hb hfails
    have hlt := h.lt_started hi
    by_contra hne
    have hnext : i.1 + 1 < s.fops.stages.length := by omega
    have hops : s.fops.stages[i.1 + 1] ≠ [] := s.fops.nonempty _ (List.getElem_mem hnext)
    obtain ⟨op, hop⟩ := List.exists_mem_of_ne_nil _ hops
    have hsent : (sent (s.issuedFor (i.1 + 1))).Perm _ := h.sent_perm (by omega)
    rw [List.getElem?_eq_getElem hnext, Option.getD_some] at hsent
    have hmem := hsent.mem_iff.mpr (List.mem_map_of_mem hop)
    obtain ⟨b, hissued, _⟩ := List.mem_flatMap.mp hmem
    obtain ⟨j, hj, _⟩ := List.mem_map.mp hissued
    obtain ⟨hj, hnumber⟩ := List.mem_filter.mp hj
    have hle := hstopped i hi c hc hb hfails j hj
    have hlater := of_decide_eq_true hnumber
    omega
  · intro hlast i hi c hc hb hfails j hj
    have hlength := hlast i hi c hc hb hfails
    have hlt := h.lt_started hj
    omega

/-- A request whose batches have all completed had one outcome and was stopped by a failure just when
at most one batch failed, and none while a stage was still to come. -/
theorem one_outcome_iff (fops : FlowRuleOperations D R) {xs : List (Input D R)}
    (hv : (requestMachine fops).Valid (requestMachine fops).initial xs)
    (hfin : ((requestMachine fops).run (requestMachine fops).initial xs).Finished) :
    OneOutcome ((requestMachine fops).run (requestMachine fops).initial xs) ∧
    StoppedByFailure ((requestMachine fops).run (requestMachine fops).initial xs) ↔
      xs.countP Input.fails ≤ 1 ∧
      ((requestMachine fops).guarded fun s x => x.fails = true → s.stages = []).Valid
        (requestMachine fops).initial xs := by
  have h := tracked_run hv
  have hcount := countP_completed_run hv tracked_applied
  have hnone : (requestMachine fops).initial.completed = [] := rfl
  rw [hnone, List.countP_nil, Nat.zero_add] at hcount
  rw [oneOutcome_iff h hfin, stoppedByFailure_iff h hfin, hcount, failsLast_iff hv]

def bothFail : List (Input ℕ ℕ) :=
  [.run [10, 11], .storeBatch 1, .complete 0 ⟨false, [⟨1, 8⟩]⟩, .storeBatch 0,
    .complete 0 ⟨false, [⟨0, 7⟩]⟩, .run [12], .storeBatch 0, .complete 0 ⟨true, []⟩, .run []]

theorem one_outcome_iff_two :
    OneOutcome ((requestMachine addTwoRemoveOne).run (requestMachine addTwoRemoveOne).initial
      allComplete) ∧
    StoppedByFailure ((requestMachine addTwoRemoveOne).run (requestMachine addTwoRemoveOne).initial
      allComplete) :=
  (one_outcome_iff addTwoRemoveOne (by decide) (by decide)).mpr
    ⟨by decide, by decide⟩

/-- Two failures of the first stage are two reports, and the second stage is sent all the same. -/
theorem told_twice :
    (requestMachine addTwoRemoveOne).Valid (requestMachine addTwoRemoveOne).initial bothFail ∧
    ((requestMachine addTwoRemoveOne).run (requestMachine addTwoRemoveOne).initial
      bothFail).Finished ∧
    ¬ OneOutcome ((requestMachine addTwoRemoveOne).run (requestMachine addTwoRemoveOne).initial
      bothFail) ∧
    ¬ StoppedByFailure ((requestMachine addTwoRemoveOne).run
      (requestMachine addTwoRemoveOne).initial bothFail) := by
  have htwo : ((requestMachine addTwoRemoveOne).run (requestMachine addTwoRemoveOne).initial
      bothFail).callbacks.length = 2 := by decide
  refine ⟨by decide, by decide, ?_, by unfold StoppedByFailure; decide⟩
  rintro (⟨_, hone⟩ | ⟨_, ops, hone, _⟩)
  · rw [hone] at htwo
    cases htwo
  · rw [hone] at htwo
    cases htwo

end FlowOperationsProcessor.Request

import Onos.FlowOperationsProcessor
import Mathlib.Data.Finset.Lattice.Lemmas
import Mathlib.Algebra.Order.Group.Nat
import Mathlib.Algebra.Order.BigOperators.Group.List
import Mathlib.Algebra.GroupWithZero.Nat

/-! The batches of a request. Only the stage taken up last has batches on their way, one for each of
its pending devices; all of them have completed before the processor is run again. -/
namespace FlowOperationsProcessor.Request

open InFlight InputMachine

variable {D R : Type*} [DecidableEq D] [DecidableEq R]

def stageContents (s : Request D R) (number : ℕ) : List (D × List (FlowRuleBatchEntry D R)) :=
  if number < s.started then
    (devices (s.fops.stages[number]?.getD [])).map fun d =>
      (d, batchEntries (s.fops.stages[number]?.getD []) d)
  else []

structure Tracked (s : Request D R) : Prop where
  accounted : (s.inFlight ++ s.completed.map Prod.fst).Perm (s.issued.map Prod.snd)
  distinct : (s.issued.map fun i => i.2.id).Nodup
  registered : ∀ b ∈ s.inFlight, b.id ∈ s.pendingFlowOperations
  separate : (s.inFlight.map (·.deviceId)).Nodup
  pending : ∀ d, d ∈ s.pendingDevices ↔ ∃ b ∈ s.inFlight, b.deviceId = d
  remaining : s.stages <:+ s.fops.stages
  contents : ∀ number, (s.issuedFor number).map (fun b => (b.deviceId, b.ops)) =
    s.stageContents number
  current : ∀ i ∈ s.issued, i.2 ∈ s.inFlight → i.1 + 1 = s.started
  once : s.scheduled = 1 ∧ s.inFlight = [] ∨ s.scheduled = 0 ∧ (s.inFlight ≠ [] ∨ s.stages = [])
  failed : s.hasFailed = s.completed.any fun c => !c.2.isSuccess
  called : s.callbacks =
    s.errors ++ if s.Finished ∧ s.hasFailed = false then [.onSuccess s.fops] else []

variable {fops : FlowRuleOperations D R} {s : Request D R}

omit [DecidableEq D] [DecidableEq R] in
theorem issuedFor_append {s s' : Request D R} {more : List (ℕ × FlowRuleBatchOperation D R)}
    (h : s'.issued = s.issued ++ more) (number : ℕ) : s'.issuedFor number =
      s.issuedFor number ++ (more.filter fun i => i.1 = number).map Prod.snd := by
  rw [issuedFor, h, List.filter_append, List.map_append, issuedFor]

theorem tracked_applied : (applied fops).Tracked where
  accounted := .refl _
  distinct := List.nodup_nil
  registered _ hb := absurd hb List.not_mem_nil
  separate := List.nodup_nil
  pending d := by simp [applied, inFlight]
  remaining := List.suffix_refl _
  contents number := by simp [issuedFor, stageContents, started, applied]
  current _ hi := absurd hi List.not_mem_nil
  once := .inl ⟨rfl, rfl⟩
  failed := rfl
  called := by simp [applied, errors, Finished]

omit [DecidableEq D] [DecidableEq R] in
theorem started_add (h : s.stages <:+ s.fops.stages) :
    s.started + s.stages.length = s.fops.stages.length := by
  have hle := h.length_le
  rw [started]
  omega

section Run

variable {ops : List (FlowRuleOperation D R)} {stages : List (List (FlowRuleOperation D R))}
  {ids : List ℕ}

omit [DecidableEq D] [DecidableEq R] in
theorem head_stage (h : s.stages <:+ s.fops.stages) (hs : s.stages = ops :: stages) :
    s.fops.stages[s.started]? = some ops := by
  obtain ⟨front, hfront⟩ := h
  have hstarted : s.started = front.length := by
    rw [started]
    rw [← hfront, List.length_append]
    omega
  rw [hstarted, ← hfront, hs, List.getElem?_append_right le_rfl]
  simp

omit [DecidableEq R] in
theorem perDeviceBatches_ne_nil (h : ids.length = (devices ops).length) (hops : ops ≠ []) :
    perDeviceBatches ops ids ≠ [] := by
  intro hnil
  have hmap := map_deviceId_perDeviceBatches h
  rw [hnil] at hmap
  apply hops
  have hdevices : ops.map (fun op => op.rule.deviceId) = [] := (List.dedup_eq_nil _).mp hmap.symm
  exact List.map_eq_nil_iff.mp hdevices

theorem handle_run_cons (hs : s.stages = ops :: stages) (ids : List ℕ) :
    s.handle (.run ids) = { s with
      scheduled := s.scheduled - 1
      stages := stages
      pendingDevices := s.pendingDevices ∪ (devices ops).toFinset
      pendingFlowOperations := s.pendingFlowOperations ++ (perDeviceBatches ops ids).map (·.id)
      deviceInstallers := s.deviceInstallers ++ perDeviceBatches ops ids
      issued := s.issued ++ (perDeviceBatches ops ids).map (s.started, ·) } := by
  obtain ⟨_, _, _, _, _, _, _, _, _, _, _⟩ := s
  cases hs
  rfl

theorem handle_run_nil (hs : s.stages = []) (ids : List ℕ) : s.handle (.run ids) = { s with
      scheduled := s.scheduled - 1
      callbacks := s.callbacks ++ if s.hasFailed then [] else [.onSuccess s.fops] } := by
  simp only [handle, run, hs]
  split_ifs with hfailed
  · rw [List.append_nil]
  · rfl

theorem Tracked.idle (h : s.Tracked) (hs : 0 < s.scheduled) :
    s.scheduled = 1 ∧ s.deviceInstallers = [] ∧ s.store = [] := by
  rcases h.once with ⟨hone, hin⟩ | ⟨hzero, _⟩
  · exact ⟨hone, List.append_eq_nil_iff.mp hin⟩
  · omega

theorem Tracked.pendingDevices_eq_empty (h : s.Tracked) (hin : s.inFlight = []) :
    s.pendingDevices = ∅ := by
  apply Finset.eq_empty_of_forall_notMem
  intro d hd
  obtain ⟨b, hb, _⟩ := (h.pending d).mp hd
  rw [hin] at hb
  exact List.not_mem_nil hb

theorem inFlight_run_cons (hs : s.stages = ops :: stages) (hin : s.inFlight = []) :
    (s.handle (.run ids)).inFlight = perDeviceBatches ops ids := by
  obtain ⟨hinstallers, hstore⟩ := List.append_eq_nil_iff.mp hin
  rw [handle_run_cons hs, inFlight]
  simp only [hinstallers, hstore, List.nil_append, List.append_nil]

theorem started_run_cons (h : s.stages <:+ s.fops.stages) (hs : s.stages = ops :: stages) :
    (s.handle (.run ids)).started = s.started + 1 := by
  have hstarted := started_add h
  rw [handle_run_cons hs]
  simp only [started] at hstarted ⊢
  rw [hs, List.length_cons] at hstarted ⊢
  omega

theorem filter_numbered {β : Type*} (batches : List β) (k number : ℕ) :
    (batches.map (k, ·)).filter (fun i => i.1 = number) =
      if number = k then batches.map (k, ·) else [] := by
  split_ifs with hnumber
  · apply List.filter_eq_self.mpr
    intro i hi
    obtain ⟨b, _, rfl⟩ := List.mem_map.mp hi
    exact decide_eq_true hnumber.symm
  · apply List.filter_eq_nil_iff.mpr
    intro i hi
    obtain ⟨b, _, rfl⟩ := List.mem_map.mp hi
    simpa using Ne.symm hnumber

theorem Tracked.contents_run_cons (h : s.Tracked) (hs : s.stages = ops :: stages)
    (hlength : ids.length = (devices ops).length) (number : ℕ) :
    ((s.handle (.run ids)).issuedFor number).map (fun b => (b.deviceId, b.ops)) =
      (s.handle (.run ids)).stageContents number := by
  have hold := h.contents number
  unfold stageContents at hold ⊢
  have hissued : (s.handle (.run ids)).issued =
      s.issued ++ (perDeviceBatches ops ids).map (s.started, ·) := by rw [handle_run_cons hs]
  have hsame : (s.handle (.run ids)).fops = s.fops := by rw [handle_run_cons hs]
  rw [started_run_cons h.remaining hs, hsame, issuedFor_append hissued, List.map_append, hold,
    filter_numbered]
  by_cases hnumber : number = s.started
  · subst hnumber
    rw [if_neg (lt_irrefl _), if_pos (Nat.lt_succ_self _), if_pos rfl, List.map_map,
      head_stage h.remaining hs, List.nil_append, List.map_map]
    exact map_perDeviceBatches hlength
  · rw [if_neg hnumber, List.map_nil, List.map_nil, List.append_nil]
    have hiff : number < s.started + 1 ↔ number < s.started := by omega
    simp only [hiff]

theorem Tracked.run_cons (h : s.Tracked) (hs : s.stages = ops :: stages)
    (hx : s.Accepts (.run ids)) : (s.handle (.run ids)).Tracked := by
  obtain ⟨hscheduled, hids, hfresh, hlength⟩ := hx
  obtain ⟨hone, hinstallers, hstore⟩ := h.idle hscheduled
  have hin : s.inFlight = [] := List.append_eq_nil_iff.mpr ⟨hinstallers, hstore⟩
  rw [hs, List.headD_cons] at hlength
  have hops : ops ≠ [] := s.fops.nonempty ops (h.remaining.mem (hs ▸ List.mem_cons_self))
  have hcalled := h.called
  rw [if_neg fun hfin => absurd (hone.symm.trans hfin.1.1) one_ne_zero] at hcalled
  have hnext : (s.handle (.run ids)).inFlight = perDeviceBatches ops ids :=
    inFlight_run_cons hs hin
  constructor
  · rw [hnext, handle_run_cons hs, List.map_append, List.map_map]
    have hold := h.accounted
    rw [hin, List.nil_append] at hold
    exact List.perm_append_comm.trans (hold.append_right _) |>.trans (by simp)
  · rw [handle_run_cons hs, List.map_append, List.map_map]
    have hnew : (perDeviceBatches ops ids).map ((fun i => i.2.id) ∘ (s.started, ·)) = ids :=
      map_id_perDeviceBatches hlength
    rw [hnew]
    refine List.nodup_append.mpr ⟨h.distinct, hids, ?_⟩
    rintro id hid _ hid' rfl
    obtain ⟨i, hi, rfl⟩ := List.mem_map.mp hid
    exact hfresh i hi hid'
  · rw [hnext]
    intro b hb
    rw [handle_run_cons hs]
    exact List.mem_append_right _ (List.mem_map_of_mem hb)
  · rw [hnext, map_deviceId_perDeviceBatches hlength]
    exact List.nodup_dedup _
  · intro d
    rw [hnext, handle_run_cons hs, h.pendingDevices_eq_empty hin, Finset.empty_union,
      List.mem_toFinset, ← map_deviceId_perDeviceBatches hlength, List.mem_map]
  · rw [handle_run_cons hs]
    exact (hs ▸ List.suffix_cons ops stages).trans h.remaining
  · exact h.contents_run_cons hs hlength
  · intro i hi hb
    rw [hnext] at hb
    rw [started_run_cons h.remaining hs]
    rw [handle_run_cons hs] at hi
    rcases List.mem_append.mp hi with hi | hi
    · apply absurd _ (hfresh i hi)
      rw [← map_id_perDeviceBatches hlength]
      exact List.mem_map_of_mem hb
    · obtain ⟨b, _, rfl⟩ := List.mem_map.mp hi
      rfl
  · right
    rw [hnext, handle_run_cons hs]
    refine ⟨?_, .inl (perDeviceBatches_ne_nil hlength hops)⟩
    simp only [hone]
  · rw [handle_run_cons hs]
    exact h.failed
  · have hunfinished : ¬ (s.handle (.run ids)).Finished := by
      rintro ⟨_, hnil⟩
      exact perDeviceBatches_ne_nil hlength hops (hnext.symm.trans hnil)
    rw [if_neg fun hfin => hunfinished hfin.1, handle_run_cons hs]
    exact hcalled

theorem Tracked.run_nil (h : s.Tracked) (hs : s.stages = []) (hx : s.Accepts (.run ids)) :
    (s.handle (.run ids)).Tracked := by
  obtain ⟨hone, hinstallers, hstore⟩ := h.idle hx.1
  have hin : s.inFlight = [] := List.append_eq_nil_iff.mpr ⟨hinstallers, hstore⟩
  have hcalled := h.called
  rw [if_neg fun hfin => absurd (hone.symm.trans hfin.1.1) one_ne_zero, List.append_nil] at hcalled
  rw [handle_run_nil hs]
  have hzero : s.scheduled - 1 = 0 := by omega
  refine ⟨h.accounted, h.distinct, h.registered, h.separate, h.pending, h.remaining, h.contents,
    h.current, .inr ⟨hzero, .inr hs⟩, h.failed, ?_⟩
  simp only [hcalled]
  congr 1
  cases s.hasFailed with
  | true => exact (if_neg fun hand => Bool.noConfusion hand.2).symm
  | false => exact (if_pos ⟨⟨hzero, hin⟩, rfl⟩).symm

end Run

section Batches

variable {k : ℕ} {b : FlowRuleBatchOperation D R} {rest : List (FlowRuleBatchOperation D R)}
  {result : CompletedBatchOperation D R}

theorem handle_storeBatch (hk : takeAt k s.deviceInstallers = some (b, rest)) :
    s.handle (.storeBatch k) = { s with deviceInstallers := rest, store := s.store ++ [b] } := by
  simp only [handle, hk]

theorem Tracked.storeBatch (h : s.Tracked) (hk : takeAt k s.deviceInstallers = some (b, rest)) :
    (s.handle (.storeBatch k)).Tracked := by
  have hperm : (s.handle (.storeBatch k)).inFlight.Perm s.inFlight := by
    rw [handle_storeBatch hk]
    calc rest ++ (s.store ++ [b])
      _ = (rest ++ s.store) ++ [b] := (List.append_assoc ..).symm
      List.Perm _ (b :: (rest ++ s.store)) := List.perm_append_singleton b _
      _ = (b :: rest) ++ s.store := rfl
      List.Perm _ s.inFlight := (takeAt_perm hk).symm.append_right _
  have hnil : (s.handle (.storeBatch k)).inFlight = [] ↔ s.inFlight = [] :=
    ⟨fun hn => (hn ▸ hperm.symm).eq_nil, fun hn => (hn ▸ hperm).eq_nil⟩
  have hfinished : (s.handle (.storeBatch k)).Finished ↔ s.Finished := by
    unfold Finished
    rw [hnil, handle_storeBatch hk]
  have hcalled := h.called
  simp only [← hfinished] at hcalled
  have honce := h.once
  rw [ne_eq, ← hnil] at honce
  rw [handle_storeBatch hk] at hperm hcalled honce ⊢
  refine ⟨(hperm.append_right _).trans h.accounted, h.distinct,
    fun b' hb' => h.registered b' (hperm.mem_iff.mp hb'),
    (hperm.map _).nodup_iff.mpr h.separate, fun d => (h.pending d).trans ?_, h.remaining,
    h.contents, fun i hi hb' => h.current i hi (hperm.mem_iff.mp hb'), honce, h.failed, hcalled⟩
  constructor
  · rintro ⟨b', hb', hd⟩
    exact ⟨b', hperm.mem_iff.mpr hb', hd⟩
  · rintro ⟨b', hb', hd⟩
    exact ⟨b', hperm.mem_iff.mp hb', hd⟩

theorem handle_complete (hk : takeAt k s.store = some (b, rest))
    (hb : b.id ∈ s.pendingFlowOperations) : s.handle (.complete k result) = { s with
      store := rest
      completed := s.completed ++ [(b, result)]
      pendingFlowOperations := s.pendingFlowOperations.erase b.id
      pendingDevices := s.pendingDevices.erase b.deviceId
      scheduled := s.scheduled + if s.pendingDevices.erase b.deviceId = ∅ then 1 else 0
      hasFailed := s.hasFailed || !result.isSuccess
      callbacks := s.callbacks ++
        if result.isSuccess then [] else [.onError (failedOps result.failedItems)] } := by
  simp only [handle, hk, notify, if_pos hb, satisfy, fail]
  cases hsuccess : result.isSuccess
  · by_cases hpending : s.pendingDevices.erase b.deviceId = ∅
    · simp [hpending]
    · simp [hpending]
  · by_cases hpending : s.pendingDevices.erase b.deviceId = ∅
    · simp [hpending]
    · simp [hpending]

theorem Tracked.nodup_ids (h : s.Tracked) : (s.inFlight.map (·.id)).Nodup := by
  have hids := (h.accounted.map (·.id)).nodup_iff.mpr (by rw [List.map_map]; exact h.distinct)
  rw [List.map_append] at hids
  exact (List.nodup_append.mp hids).1

theorem Tracked.pending_erase (h : s.Tracked) {flying : List (FlowRuleBatchOperation D R)}
    (hperm : s.inFlight.Perm (b :: flying)) (d : D) :
    d ∈ s.pendingDevices.erase b.deviceId ↔ ∃ b' ∈ flying, b'.deviceId = d := by
  have hseparate := (hperm.map (·.deviceId)).nodup_iff.mp h.separate
  rw [List.map_cons, List.nodup_cons] at hseparate
  rw [Finset.mem_erase, h.pending d]
  constructor
  · rintro ⟨hne, b', hb', rfl⟩
    rcases List.mem_cons.mp (hperm.mem_iff.mp hb') with rfl | hb'
    · exact absurd rfl hne
    · exact ⟨b', hb', rfl⟩
  · rintro ⟨b', hb', rfl⟩
    refine ⟨fun heq => hseparate.1 ?_, b', hperm.mem_iff.mpr (List.mem_cons_of_mem b hb'), rfl⟩
    rw [← heq]
    exact List.mem_map_of_mem hb'

theorem Tracked.complete (h : s.Tracked) (hk : takeAt k s.store = some (b, rest)) :
    (s.handle (.complete k result)).Tracked := by
  have hperm : s.inFlight.Perm (b :: (s.deviceInstallers ++ rest)) :=
    ((takeAt_perm hk).append_left _).trans List.perm_middle
  have hflies : b ∈ s.inFlight := hperm.mem_iff.mpr List.mem_cons_self
  have hzero : s.scheduled = 0 := by
    rcases h.once with ⟨_, hnil⟩ | ⟨hzero, _⟩
    · rw [hnil] at hflies
      exact absurd hflies List.not_mem_nil
    · exact hzero
  have hids := (hperm.map (·.id)).nodup_iff.mp h.nodup_ids
  have hseparate := (hperm.map (·.deviceId)).nodup_iff.mp h.separate
  rw [List.map_cons, List.nodup_cons] at hids hseparate
  have hold : ∀ b' ∈ s.deviceInstallers ++ rest, b' ∈ s.inFlight :=
    fun b' hb' => hperm.mem_iff.mpr (List.mem_cons_of_mem b hb')
  have hempty : s.pendingDevices.erase b.deviceId = ∅ ↔ s.deviceInstallers ++ rest = [] := by
    rw [Finset.eq_empty_iff_forall_notMem, List.eq_nil_iff_forall_not_mem]
    simp only [h.pending_erase hperm]
    exact ⟨fun hall b' hb' => hall _ ⟨b', hb', rfl⟩, fun hall d ⟨b', hb', _⟩ => hall b' hb'⟩
  have hcalled := h.called
  rw [if_neg fun hfin => List.not_mem_nil (hfin.1.2 ▸ hflies), List.append_nil] at hcalled
  have hunfinished : ¬ (s.handle (.complete k result)).Finished := by
    rw [handle_complete hk (h.registered b hflies)]
    rintro ⟨hsched, hnil⟩
    simp only [if_pos (hempty.mpr hnil)] at hsched
    omega
  rw [handle_complete hk (h.registered b hflies)] at hunfinished ⊢
  constructor
  · simp only [List.map_append, List.map_cons, List.map_nil]
    calc (s.deviceInstallers ++ rest) ++ (s.completed.map Prod.fst ++ [b])
      _ = ((s.deviceInstallers ++ rest) ++ s.completed.map Prod.fst) ++ [b] :=
        (List.append_assoc ..).symm
      List.Perm _ (b :: ((s.deviceInstallers ++ rest) ++ s.completed.map Prod.fst)) :=
        List.perm_append_singleton b _
      List.Perm _ (s.inFlight ++ s.completed.map Prod.fst) := hperm.symm.append_right _
      List.Perm _ (s.issued.map Prod.snd) := h.accounted
  · exact h.distinct
  · intro b' hb'
    apply (List.mem_erase_of_ne _).mpr (h.registered b' (hold b' hb'))
    intro heq
    apply hids.1
    rw [← heq]
    exact List.mem_map_of_mem hb'
  · exact hseparate.2
  · exact h.pending_erase hperm
  · exact h.remaining
  · exact h.contents
  · exact fun i hi hb' => h.current i hi (hold i.2 hb')
  · by_cases hnil : s.deviceInstallers ++ rest = []
    · refine .inl ⟨?_, hnil⟩
      simp only [hzero, if_pos (hempty.mpr hnil)]
    · refine .inr ⟨?_, .inl hnil⟩
      simp only [hzero, if_neg fun he => hnil (hempty.mp he)]
  · simp only [List.any_append, List.any_cons, List.any_nil, Bool.or_false, h.failed]
  · refine Eq.trans ?_ (congrArg (_ ++ ·) (if_neg fun hand => hunfinished hand.1).symm)
    simp only [errors, hcalled, List.filter_append, List.map_append, List.append_nil]
    congr 1
    cases hsuccess : result.isSuccess with
    | true => simp [hsuccess]
    | false => simp [hsuccess]

end Batches

theorem tracked_handle (x : Input D R) (h : s.Tracked) (hx : s.Accepts x) :
    (s.handle x).Tracked := by
  cases x with
  | run ids =>
    cases hs : s.stages with
    | nil => exact h.run_nil hs hx
    | cons ops stages => exact h.run_cons hs hx
  | storeBatch k =>
    obtain ⟨b, rest, hk⟩ := takeAt_isSome hx
    exact h.storeBatch hk
  | complete k result =>
    obtain ⟨b, rest, hk⟩ := takeAt_isSome hx
    exact h.complete hk

theorem tracked_run {xs : List (Input D R)}
    (hv : (requestMachine fops).Valid (requestMachine fops).initial xs) :
    ((requestMachine fops).run (requestMachine fops).initial xs).Tracked :=
  invariant_run Tracked (fun _ x h hx => tracked_handle x h hx) hv tracked_applied

theorem fops_handle (s : Request D R) (x : Input D R) : (s.handle x).fops = s.fops := by
  cases x with
  | run ids =>
    cases hs : s.stages with
    | nil => rw [handle_run_nil hs]
    | cons ops stages => rw [handle_run_cons hs]
  | storeBatch k =>
    cases hk : takeAt k s.deviceInstallers with
    | none => simp only [handle, hk]
    | some taken => rw [handle_storeBatch hk]
  | complete k result =>
    cases hk : takeAt k s.store with
    | none => simp only [handle, hk]
    | some taken =>
      simp only [handle, hk, notify, satisfy, fail]
      split_ifs <;> rfl

theorem fops_run {xs : List (Input D R)}
    (hv : (requestMachine fops).Valid (requestMachine fops).initial xs) :
    ((requestMachine fops).run (requestMachine fops).initial xs).fops = fops :=
  invariant_run (fun s => s.fops = fops) (fun s x h _ => (fops_handle s x).trans h) hv rfl

def sent (batches : List (FlowRuleBatchOperation D R)) : List (D × FlowRuleBatchEntry D R) :=
  batches.flatMap fun b => b.ops.map (b.deviceId, ·)

section

variable (h : s.Tracked)

include h

theorem Tracked.sent_perm {number : ℕ} (hnumber : number < s.started) :
    (sent (s.issuedFor number)).Perm
      ((s.fops.stages[number]?.getD []).map fun op => (op.rule.deviceId, entry op)) := by
  have hcontents := h.contents number
  rw [stageContents, if_pos hnumber] at hcontents
  have hsent : sent (s.issuedFor number) =
      ((s.issuedFor number).map fun b => (b.deviceId, b.ops)).flatMap
        fun content => content.2.map (content.1, ·) := by
    rw [List.flatMap_map]
    rfl
  rw [hsent, hcontents, List.flatMap_map]
  exact entries_perm _

theorem Tracked.issuedFor_nil {number : ℕ} (hnumber : s.started ≤ number) :
    s.issuedFor number = [] := by
  have hcontents := h.contents number
  rw [stageContents, if_neg (by omega)] at hcontents
  exact List.map_eq_nil_iff.mp hcontents

theorem Tracked.lt_started {i : ℕ × FlowRuleBatchOperation D R}
    (hi : i ∈ s.issued) : i.1 < s.started := by
  by_contra hle
  have hmem : i.2 ∈ s.issuedFor i.1 :=
    List.mem_map_of_mem (List.mem_filter.mpr ⟨hi, decide_eq_true rfl⟩)
  rw [h.issuedFor_nil (by omega)] at hmem
  exact List.not_mem_nil hmem

theorem Tracked.completed_or_current {i : ℕ × FlowRuleBatchOperation D R}
    (hi : i ∈ s.issued) : i.2 ∈ s.completed.map Prod.fst ∨ i.2 ∈ s.inFlight ∧ i.1 + 1 = s.started := by
  have hmem := h.accounted.mem_iff.mpr (List.mem_map_of_mem hi)
  rcases List.mem_append.mp hmem with hflies | hcompleted
  · exact .inr ⟨hflies, h.current i hi hflies⟩
  · exact .inl hcompleted

theorem Tracked.barrier {i j : ℕ × FlowRuleBatchOperation D R} (hi : i ∈ s.issued)
    (hj : j ∈ s.issued) (hlt : j.1 < i.1) : j.2 ∈ s.completed.map Prod.fst := by
  rcases h.completed_or_current hj with hcompleted | ⟨_, hcurrent⟩
  · exact hcompleted
  · have hstarted := h.lt_started hi
    omega

end

def AllSucceeded (s : Request D R) : Prop :=
  s.started = s.fops.stages.length ∧
    ∀ i ∈ s.issued, ∃ result, (i.2, result) ∈ s.completed ∧ result.isSuccess = true

section

variable (h : s.Tracked)

include h

theorem Tracked.nodup_all : ((s.inFlight ++ s.completed.map Prod.fst).map (·.id)).Nodup :=
  (h.accounted.map (·.id)).nodup_iff.mpr (by rw [List.map_map]; exact h.distinct)

theorem Tracked.completed_unique {b : FlowRuleBatchOperation D R}
    {result result' : CompletedBatchOperation D R} (hc : (b, result) ∈ s.completed)
    (hc' : (b, result') ∈ s.completed) : result = result' := by
  have hids := h.nodup_all
  rw [List.map_append, List.map_map] at hids
  have hnodup : (s.completed.map fun c => c.1.id).Nodup := (List.nodup_append.mp hids).2.1
  have heq := List.inj_on_of_nodup_map hnodup hc hc' rfl
  exact congrArg Prod.snd heq

theorem Tracked.issued_of_completed
    {c : FlowRuleBatchOperation D R × CompletedBatchOperation D R} (hc : c ∈ s.completed) :
    ∃ i ∈ s.issued, i.2 = c.1 :=
  List.mem_map.mp (h.accounted.mem_iff.mp (List.mem_append_right _ (List.mem_map_of_mem hc)))

theorem Tracked.stages_of_finished (hfin : s.Finished) :
    s.stages = [] ∧ s.started = s.fops.stages.length := by
  have hadd := started_add h.remaining
  rcases h.once with ⟨hone, _⟩ | ⟨_, hflies | hnil⟩
  · have hzero := hfin.1
    omega
  · exact absurd hfin.2 hflies
  · rw [hnil, List.length_nil] at hadd
    exact ⟨hnil, hadd⟩

theorem Tracked.hasFailed_iff : s.hasFailed = false ↔ ∀ c ∈ s.completed, c.2.isSuccess = true := by
  rw [h.failed, List.any_eq_false]
  simp only [Bool.not_eq_true', Bool.not_eq_false]

theorem Tracked.allSucceeded_iff :
    s.AllSucceeded ∧ s.scheduled = 0 ↔ s.Finished ∧ s.hasFailed = false := by
  rw [h.hasFailed_iff]
  constructor
  · rintro ⟨⟨hstarted, hall⟩, hzero⟩
    refine ⟨⟨hzero, ?_⟩, ?_⟩
    · apply List.eq_nil_iff_forall_not_mem.mpr
      intro b hb
      have hmem := h.accounted.mem_iff.mp (List.mem_append_left _ hb)
      obtain ⟨i, hi, rfl⟩ := List.mem_map.mp hmem
      obtain ⟨result, hc, _⟩ := hall i hi
      have hids := h.nodup_all
      rw [List.map_append] at hids
      exact (List.nodup_append.mp hids).2.2 _ (List.mem_map_of_mem hb) _
        (List.mem_map_of_mem (List.mem_map_of_mem hc)) rfl
    · intro c hc
      obtain ⟨i, hi, hb⟩ := h.issued_of_completed hc
      obtain ⟨result, hc', hsuccess⟩ := hall i hi
      rw [hb] at hc'
      have hsame : c.2 = result := h.completed_unique hc hc'
      rw [hsame]
      exact hsuccess
  · rintro ⟨hfin, hall⟩
    refine ⟨⟨(h.stages_of_finished hfin).2, fun i hi => ?_⟩, hfin.1⟩
    rcases h.completed_or_current hi with hcompleted | ⟨hflies, _⟩
    · obtain ⟨c, hc, hb⟩ := List.mem_map.mp hcompleted
      exact ⟨c.2, hb ▸ hc, hall c hc⟩
    · rw [hfin.2] at hflies
      exact absurd hflies List.not_mem_nil

end

theorem onSuccess_not_mem_errors {ops : FlowRuleOperations D R} : .onSuccess ops ∉ s.errors := by
  intro hmem
  obtain ⟨c, _, hc⟩ := List.mem_map.mp hmem
  cases hc

theorem Tracked.onSuccess_iff (h : s.Tracked) :
    .onSuccess s.fops ∈ s.callbacks ↔ s.AllSucceeded ∧ s.scheduled = 0 := by
  rw [h.allSucceeded_iff, h.called, List.mem_append]
  by_cases hand : s.Finished ∧ s.hasFailed = false
  · rw [if_pos hand]
    exact ⟨fun _ => hand, fun _ => .inr List.mem_cons_self⟩
  · rw [if_neg hand]
    refine ⟨fun hmem => ?_, fun hboth => absurd hboth hand⟩
    rcases hmem with hmem | hmem
    · exact absurd hmem onSuccess_not_mem_errors
    · exact absurd hmem List.not_mem_nil

def Callback.isSuccess : Callback D R → Bool
  | .onSuccess _ => true
  | .onError _ => false

theorem Tracked.countP_isSuccess_le (h : s.Tracked) : s.callbacks.countP Callback.isSuccess ≤ 1 := by
  have herrors : s.errors.countP Callback.isSuccess = 0 := by
    apply List.countP_eq_zero.mpr
    intro c hc
    obtain ⟨_, _, rfl⟩ := List.mem_map.mp hc
    exact Bool.false_ne_true
  rw [h.called, List.countP_append, herrors]
  split_ifs
  · exact le_rfl
  · exact Nat.zero_le 1

def stepsOf (stages : List (List (FlowRuleOperation D R))) : ℕ :=
  (stages.map fun ops => 3 * (devices ops).length).sum

def stepsLeft (s : Request D R) : ℕ :=
  3 * s.deviceInstallers.length + 2 * s.store.length + s.scheduled + stepsOf s.stages

theorem stepsLeft_handle {x : Input D R} (h : s.Tracked) (hx : s.Accepts x) :
    (s.handle x).stepsLeft < s.stepsLeft := by
  cases x with
  | run ids =>
    obtain ⟨hscheduled, _, _, hlength⟩ := hx
    cases hs : s.stages with
    | nil =>
      rw [handle_run_nil hs, stepsLeft, stepsLeft]
      simp only
      omega
    | cons ops stages =>
      rw [hs, List.headD_cons] at hlength
      have hbatches : (perDeviceBatches ops ids).length = (devices ops).length := by
        rw [← map_deviceId_perDeviceBatches hlength, List.length_map]
      have hsteps : stepsOf s.stages = 3 * (devices ops).length + stepsOf stages := by
        rw [hs, stepsOf, List.map_cons, List.sum_cons, stepsOf]
      rw [handle_run_cons hs, stepsLeft, stepsLeft, hsteps]
      simp only [List.length_append, hbatches]
      omega
  | storeBatch k =>
    obtain ⟨b, rest, hk⟩ := takeAt_isSome hx
    have hlength := (takeAt_perm hk).length_eq
    rw [List.length_cons] at hlength
    rw [handle_storeBatch hk, stepsLeft, stepsLeft]
    simp only [List.length_append, List.length_singleton]
    omega
  | complete k result =>
    obtain ⟨b, rest, hk⟩ := takeAt_isSome hx
    have hlength := (takeAt_perm hk).length_eq
    rw [List.length_cons] at hlength
    have hflies : b ∈ s.inFlight := List.mem_append_right _ ((mem_takeAt hk b).mpr (.inl rfl))
    rw [handle_complete hk (h.registered b hflies), stepsLeft, stepsLeft]
    simp only
    split_ifs
    · omega
    · omega

theorem length_add_stepsLeft {xs : List (Input D R)} (hv : (requestMachine fops).Valid s xs)
    (h : s.Tracked) : xs.length + ((requestMachine fops).run s xs).stepsLeft ≤ s.stepsLeft := by
  induction xs generalizing s with
  | nil => exact (Nat.zero_add _).le
  | cons x xs ih =>
    have hrest := ih hv.2 (tracked_handle x h hv.1)
    have hstep := stepsLeft_handle h hv.1
    rw [run_cons, List.length_cons]
    have hnext : (requestMachine fops).next s x = s.handle x := rfl
    rw [hnext] at hrest ⊢
    omega

omit [DecidableEq R] in
theorem exists_accepts (h : ¬ s.Finished) : ∃ x, s.Accepts x := by
  by_cases hscheduled : 0 < s.scheduled
  · let start := (s.issued.map fun i => i.2.id).sum + 1
    refine ⟨.run (List.range' start (devices (s.stages.headD [])).length), hscheduled,
      List.nodup_range', fun i hi hmem => ?_, List.length_range'⟩
    have hle : i.2.id ≤ (s.issued.map fun i => i.2.id).sum :=
      List.le_sum_of_mem (List.mem_map_of_mem hi)
    have hge := (List.mem_range'_1.mp hmem).1
    omega
  · by_cases hinstallers : s.deviceInstallers = []
    · by_cases hstore : s.store = []
      · exact absurd ⟨by omega, List.append_eq_nil_iff.mpr ⟨hinstallers, hstore⟩⟩ h
      · exact ⟨.complete 0 ⟨true, []⟩, List.length_pos_iff.mpr hstore⟩
    · exact ⟨.storeBatch 0, List.length_pos_iff.mpr hinstallers⟩

/-- Each operation of a stage that was taken up is in one batch, for its device and with its type;
no batch is sent before all batches of earlier stages have completed; and the context is told of the
success at most once, when all batches of all stages have completed successfully and the processor
has been run for the last time. -/
structure StagesApart (fops : FlowRuleOperations D R) (s : Request D R) : Prop where
  request : s.fops = fops
  exact : ∀ number < s.started, (sent (s.issuedFor number)).Perm
    ((s.fops.stages[number]?.getD []).map fun op => (op.rule.deviceId, entry op))
  later : ∀ number, s.started ≤ number → s.issuedFor number = []
  barrier : ∀ i ∈ s.issued, ∀ j ∈ s.issued, j.1 < i.1 → j.2 ∈ s.completed.map Prod.fst
  atMostOnce : s.callbacks.countP Callback.isSuccess ≤ 1
  exactlyWhen : .onSuccess s.fops ∈ s.callbacks ↔ s.AllSucceeded ∧ s.scheduled = 0

/-- All stages have been taken up and all their batches have completed. -/
structure Concluded (s : Request D R) : Prop where
  started : s.started = s.fops.stages.length
  completed : (s.completed.map Prod.fst).Perm (s.issued.map Prod.snd)

/-- Any run keeps the stages apart. It can go on until all stages have completed, and only so
long. -/
theorem stages_apart (fops : FlowRuleOperations D R) {xs : List (Input D R)}
    (hv : (requestMachine fops).Valid (requestMachine fops).initial xs) :
    StagesApart fops ((requestMachine fops).run (requestMachine fops).initial xs) ∧
    (((requestMachine fops).run (requestMachine fops).initial xs).Finished →
      Concluded ((requestMachine fops).run (requestMachine fops).initial xs)) ∧
    (¬ ((requestMachine fops).run (requestMachine fops).initial xs).Finished →
      ∃ x, (requestMachine fops).Valid (requestMachine fops).initial (xs ++ [x])) ∧
    xs.length ≤ 1 + stepsOf fops.stages := by
  have h := tracked_run hv
  refine ⟨⟨fops_run hv, fun number hnumber => h.sent_perm hnumber, fun number hnumber => h.issuedFor_nil hnumber,
    fun i hi j hj hlt => h.barrier hi hj hlt, h.countP_isSuccess_le, h.onSuccess_iff⟩,
    fun hfin => ⟨(h.stages_of_finished hfin).2, ?_⟩, fun hfin => ?_, ?_⟩
  · have haccounted := h.accounted
    rw [hfin.2, List.nil_append] at haccounted
    exact haccounted
  · obtain ⟨x, hx⟩ := exists_accepts hfin
    exact ⟨x, (valid_append _ _ _ _).mpr ⟨hv, hx, trivial⟩⟩
  · have hlength := length_add_stepsLeft hv tracked_applied
    have hinitial : (requestMachine fops).initial.stepsLeft = 1 + stepsOf fops.stages := by
      simp [requestMachine, stepsLeft, applied]
    omega

/-- A rule on each of the devices 0 and 1 is added, then the first one is removed. -/
def addTwoRemoveOne : FlowRuleOperations ℕ ℕ :=
  ((((Builder.new.add 0 ⟨0, 7⟩).add 1 ⟨1, 8⟩).newStage).remove 2 ⟨0, 7⟩).build

def allComplete : List (Input ℕ ℕ) :=
  [.run [10, 11], .storeBatch 1, .complete 0 ⟨true, []⟩, .storeBatch 0, .complete 0 ⟨true, []⟩,
    .run [12], .storeBatch 0, .complete 0 ⟨true, []⟩, .run []]

theorem stages_apart_two : StagesApart addTwoRemoveOne ((requestMachine addTwoRemoveOne).run
      (requestMachine addTwoRemoveOne).initial allComplete) ∧
    Concluded ((requestMachine addTwoRemoveOne).run
      (requestMachine addTwoRemoveOne).initial allComplete) := by
  have hv : (requestMachine addTwoRemoveOne).Valid (requestMachine addTwoRemoveOne).initial
      allComplete := by decide
  obtain ⟨happart, hconcluded, -, -⟩ := stages_apart addTwoRemoveOne hv
  exact ⟨happart, hconcluded (by decide)⟩

end FlowOperationsProcessor.Request

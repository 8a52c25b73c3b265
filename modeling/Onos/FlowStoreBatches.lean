import Onos.FlowStoreTable
import Onos.Lib.InFlight

/-! Flow rule batches. A batch is handed to the store of one node, carried out at the node that
is the master in the view of the node that looks, and reported back to the first node. Every
look at the mastership is an input, so mastership may change at any moment. -/
namespace FlowStoreBatches

open InputMachine InFlight
open FlowStoreTable (NodeId)

abbrev DeviceId := ℕ
abbrev BatchId := ℕ

inductive FlowRuleOperation where
  | ADD
  | REMOVE
  | MODIFY
  deriving DecidableEq, Repr

structure FlowRuleBatchEntry (ρ : Type*) where
  operator : FlowRuleOperation
  target : ρ
  deriving DecidableEq, Repr

structure FlowRuleBatchOperation (ρ : Type*) where
  operations : List (FlowRuleBatchEntry ρ)
  deviceId : DeviceId
  id : BatchId
  deriving DecidableEq, Repr

structure CompletedBatchOperation (ρ : Type*) where
  isSuccess : Bool
  failedItems : List ρ
  deviceId : DeviceId
  deriving DecidableEq, Repr

inductive FlowRuleBatchEvent (ρ : Type*) where
  | requested (batchId : BatchId) (ops : List (FlowRuleBatchEntry ρ)) (deviceId : DeviceId)
  | completed (batchId : BatchId) (result : CompletedBatchOperation ρ)
  deriving DecidableEq, Repr

inductive Body (ρ : Type*) where
  | APPLY_BATCH_FLOWS (operation : FlowRuleBatchOperation ρ)
  | REMOTE_APPLY_COMPLETED (batchId : BatchId) (result : CompletedBatchOperation ρ)
  deriving DecidableEq, Repr

structure Message (ρ : Type*) where
  src : NodeId
  dst : NodeId
  body : Body ρ
  deriving DecidableEq, Repr

/-- The stores of all nodes. `outstanding` lists the requests that the provider of a node has
not reported yet, `notified` what the delegates were told, `submitted` what was handed in. -/
structure Stores (ρ : Type*) where
  pendingResponses : NodeId → BatchId → Option NodeId
  network : List (Message ρ)
  outstanding : List (NodeId × BatchId)
  notified : List (NodeId × FlowRuleBatchEvent ρ)
  submitted : List (NodeId × BatchId)

variable {ρ : Type*}

def Stores.notifyDelegate (s : Stores ρ) (n : NodeId) (event : FlowRuleBatchEvent ρ) : Stores ρ :=
  match event with
  | .requested batchId _ _ =>
    { s with
      notified := s.notified ++ [(n, event)]
      outstanding := s.outstanding ++ [(n, batchId)] }
  | .completed _ _ => { s with notified := s.notified ++ [(n, event)] }

def Stores.send (s : Stores ρ) (msg : Message ρ) : Stores ρ :=
  { s with network := s.network ++ [msg] }

def Stores.batchOperationComplete (s : Stores ρ) (n : NodeId) (batchId : BatchId)
    (result : CompletedBatchOperation ρ) : Stores ρ :=
  match s.pendingResponses n batchId with
  | none => s.notifyDelegate n (.completed batchId result)
  | some nodeId =>
    { s with
      pendingResponses := Function.update s.pendingResponses n
        (Function.update (s.pendingResponses n) batchId none) }.send
      ⟨n, nodeId, .REMOTE_APPLY_COMPLETED batchId result⟩

def updateStoreInternal (stored : ρ → Bool) (operation : FlowRuleBatchOperation ρ) :
    List (FlowRuleBatchEntry ρ) :=
  operation.operations.filter fun op =>
    match op.operator with
    | .ADD | .MODIFY => true
    | .REMOVE => stored op.target

def Stores.storeBatchInternal (s : Stores ρ) (n : NodeId) (operation : FlowRuleBatchOperation ρ)
    (stored : ρ → Bool) : Stores ρ :=
  let currentOps := updateStoreInternal stored operation
  if currentOps.isEmpty then
    s.batchOperationComplete n operation.id ⟨true, [], operation.deviceId⟩
  else s.notifyDelegate n (.requested operation.id currentOps operation.deviceId)

def allFailed (operation : FlowRuleBatchOperation ρ) : CompletedBatchOperation ρ :=
  ⟨false, operation.operations.map FlowRuleBatchEntry.target, operation.deviceId⟩

def Stores.storeBatch (s : Stores ρ) (n : NodeId) (operation : FlowRuleBatchOperation ρ)
    (master : Option NodeId) (stored : ρ → Bool) : Stores ρ :=
  if operation.operations.isEmpty then
    s.notifyDelegate n (.completed operation.id ⟨true, [], operation.deviceId⟩)
  else match master with
    | none => s.notifyDelegate n (.completed operation.id (allFailed operation))
    | some master =>
      if n = master then s.storeBatchInternal n operation stored
      else s.send ⟨n, master, .APPLY_BATCH_FLOWS operation⟩

/-- `OnStoreBatch.handle`. A node that is not the master answers the message; the sender used
`unicast`, which takes no answer, so nothing comes of it. -/
def Stores.onStoreBatch (s : Stores ρ) (n sender : NodeId) (operation : FlowRuleBatchOperation ρ)
    (master : Option NodeId) (stored : ρ → Bool) : Stores ρ :=
  if master = some n then
    { s with
      pendingResponses := Function.update s.pendingResponses n
        (Function.update (s.pendingResponses n) operation.id (some sender)) }.storeBatchInternal
      n operation stored
  else s

def Stores.receive (s : Stores ρ) (msg : Message ρ) (master : Option NodeId) (stored : ρ → Bool) :
    Stores ρ :=
  match msg.body with
  | .APPLY_BATCH_FLOWS operation => s.onStoreBatch msg.dst msg.src operation master stored
  | .REMOTE_APPLY_COMPLETED batchId result =>
    s.notifyDelegate msg.dst (.completed batchId result)

def Stores.sendError (s : Stores ρ) (msg : Message ρ) : Stores ρ :=
  match msg.body with
  | .APPLY_BATCH_FLOWS operation =>
    s.notifyDelegate msg.src (.completed operation.id (allFailed operation))
  | .REMOTE_APPLY_COMPLETED _ _ => s

inductive StoreInput (ρ : Type*) where
  | storeBatch (n : NodeId) (operation : FlowRuleBatchOperation ρ) (master : Option NodeId)
      (stored : ρ → Bool)
  | deliver (k : ℕ) (master : Option NodeId) (stored : ρ → Bool)
  | sendError (k : ℕ)
  | batchOperationComplete (n : NodeId) (batchId : BatchId) (result : CompletedBatchOperation ρ)

def Stores.handle (s : Stores ρ) : StoreInput ρ → Stores ρ
  | .storeBatch n operation master stored =>
    { s.storeBatch n operation master stored with
      submitted := s.submitted ++ [(n, operation.id)] }
  | .deliver k master stored => match takeAt k s.network with
    | none => s
    | some (msg, rest) => { s with network := rest }.receive msg master stored
  | .sendError k => match takeAt k s.network with
    | none => s
    | some (msg, rest) => { s with network := rest }.sendError msg
  | .batchOperationComplete n batchId result =>
    { s with outstanding := s.outstanding.erase (n, batchId) }.batchOperationComplete n batchId
      result

/-- Batch identifiers are new ones, and a provider reports what was requested of it. -/
def Stores.Accepts (s : Stores ρ) : StoreInput ρ → Prop
  | .storeBatch _ operation _ _ => operation.id ∉ s.submitted.map Prod.snd
  | .deliver k _ _ | .sendError k => k < s.network.length
  | .batchOperationComplete n batchId _ => (n, batchId) ∈ s.outstanding

instance (s : Stores ρ) : (x : StoreInput ρ) → Decidable (s.Accepts x)
  | .storeBatch _ operation _ _ =>
    inferInstanceAs (Decidable (operation.id ∉ s.submitted.map Prod.snd))
  | .deliver k _ _ | .sendError k => inferInstanceAs (Decidable (k < s.network.length))
  | .batchOperationComplete n batchId _ =>
    inferInstanceAs (Decidable ((n, batchId) ∈ s.outstanding))

def storesMachine : Machine (Stores ρ) (StoreInput ρ) where
  initial := ⟨fun _ _ => none, [], [], [], []⟩
  enabled := Stores.Accepts
  next := Stores.handle

instance (s : Stores ρ) (x : StoreInput ρ) : Decidable ((storesMachine (ρ := ρ)).enabled s x) :=
  inferInstanceAs (Decidable (s.Accepts x))

section Tokens

def Message.owner (msg : Message ρ) : NodeId × BatchId :=
  match msg.body with
  | .APPLY_BATCH_FLOWS operation => (msg.src, operation.id)
  | .REMOTE_APPLY_COMPLETED batchId _ => (msg.dst, batchId)

def Stores.home (s : Stores ρ) (request : NodeId × BatchId) : NodeId × BatchId :=
  ((s.pendingResponses request.1 request.2).getD request.1, request.2)

def completion : NodeId × FlowRuleBatchEvent ρ → Option (NodeId × BatchId)
  | (n, .completed batchId _) => some (n, batchId)
  | (_, .requested _ _ _) => none

def Stores.completions (s : Stores ρ) : List (NodeId × BatchId) := s.notified.filterMap completion

/-- Everything that stands for a batch: messages, provider requests, and notifications. -/
def Stores.holders (s : Stores ρ) : List (NodeId × BatchId) :=
  s.network.map Message.owner ++ s.outstanding.map s.home ++ s.completions

def AnsweredOnce (s : Stores ρ) : Prop :=
  ∀ n batchId, (n, batchId) ∈ s.submitted →
    s.completions.filter (fun c => c.2 = batchId) = [(n, batchId)]

section

variable (s : Stores ρ)

include s

theorem holders_completed (n : NodeId) (batchId : BatchId) (result : CompletedBatchOperation ρ) :
    (s.notifyDelegate n (.completed batchId result)).holders.Perm ((n, batchId) :: s.holders) := by
  have happend : (s.notifyDelegate n (.completed batchId result)).holders =
      s.holders ++ [(n, batchId)] := by
    simp [Stores.holders, Stores.notifyDelegate, Stores.completions, Stores.home, completion]
  rw [happend]
  exact List.perm_append_singleton _ _

theorem holders_requested (n : NodeId) (batchId : BatchId)
    (ops : List (FlowRuleBatchEntry ρ)) (deviceId : DeviceId) :
    (s.notifyDelegate n (.requested batchId ops deviceId)).holders.Perm
      (s.home (n, batchId) :: s.holders) := by
  have hcompletions : (s.notifyDelegate n (.requested batchId ops deviceId)).completions =
      s.completions := by
    simp [Stores.notifyDelegate, Stores.completions, completion]
  rw [Stores.holders]
  rw [hcompletions]
  have hnew : (s.notifyDelegate n (.requested batchId ops deviceId)).outstanding.map
      (s.notifyDelegate n (.requested batchId ops deviceId)).home =
      s.outstanding.map s.home ++ [s.home (n, batchId)] := by
    simp only [Stores.notifyDelegate, List.map_append, List.map_cons, List.map_nil]
    rfl
  rw [hnew, ← List.append_assoc, List.append_assoc _ [_], List.singleton_append]
  exact List.perm_middle

theorem holders_send (msg : Message ρ) : (s.send msg).holders.Perm (msg.owner :: s.holders) := by
  unfold Stores.holders
  have hnew : (s.send msg).network.map Message.owner =
      s.network.map Message.owner ++ [msg.owner] := by
    simp [Stores.send]
  rw [hnew, List.append_assoc, List.append_assoc, List.append_assoc, List.singleton_append]
  exact List.perm_middle

theorem holders_pending (n : NodeId) (batchId : BatchId) (r : Option NodeId)
    (h : (n, batchId) ∉ s.outstanding) :
    Stores.holders { s with
      pendingResponses := Function.update s.pendingResponses n
        (Function.update (s.pendingResponses n) batchId r) } = s.holders := by
  have hhome : s.outstanding.map (Stores.home { s with
      pendingResponses := Function.update s.pendingResponses n
        (Function.update (s.pendingResponses n) batchId r) }) = s.outstanding.map s.home := by
    refine List.map_congr_left fun request hm => ?_
    by_cases hn : request.1 = n
    · have hb : request.2 ≠ batchId := fun hb => h (by rw [← hn, ← hb]; exact hm)
      simp [Stores.home, hn, hb]
    · simp [Stores.home, hn]
  rw [Stores.holders]
  rw [hhome]
  rfl

theorem holders_batchOperationComplete (n : NodeId) (batchId : BatchId)
    (result : CompletedBatchOperation ρ) (h : (n, batchId) ∉ s.outstanding) :
    (s.batchOperationComplete n batchId result).holders.Perm
      (s.home (n, batchId) :: s.holders) := by
  unfold Stores.batchOperationComplete Stores.home
  cases hp : s.pendingResponses n batchId with
  | none => exact holders_completed s n batchId result
  | some nodeId =>
    refine (holders_send _ _).trans ?_
    rw [holders_pending s n batchId none h]
    exact List.Perm.refl _

theorem holders_storeBatchInternal (n : NodeId)
    (operation : FlowRuleBatchOperation ρ) (stored : ρ → Bool)
    (h : (n, operation.id) ∉ s.outstanding) :
    (s.storeBatchInternal n operation stored).holders.Perm
      (s.home (n, operation.id) :: s.holders) := by
  unfold Stores.storeBatchInternal
  dsimp only
  split_ifs
  · exact holders_batchOperationComplete s n operation.id _ h
  · exact holders_requested s n operation.id _ _

theorem holders_storeBatch (n : NodeId) (operation : FlowRuleBatchOperation ρ)
    (master : Option NodeId) (stored : ρ → Bool) (h : (n, operation.id) ∉ s.outstanding)
    (hp : s.pendingResponses n operation.id = none) :
    (s.storeBatch n operation master stored).holders.Perm ((n, operation.id) :: s.holders) := by
  have hhome : s.home (n, operation.id) = (n, operation.id) := by simp [Stores.home, hp]
  unfold Stores.storeBatch
  split_ifs
  · exact holders_completed s n operation.id _
  · cases master with
    | none => exact holders_completed s n operation.id _
    | some master =>
      dsimp only
      split_ifs
      · rw [← hhome]
        exact holders_storeBatchInternal s n operation stored h
      · exact holders_send s _

end

theorem holders_taken {s : Stores ρ} {k : ℕ} {msg : Message ρ} {rest : List (Message ρ)}
    (htake : takeAt k s.network = some (msg, rest)) :
    s.holders.Perm (msg.owner :: Stores.holders { s with network := rest }) := by
  have hperm := (takeAt_perm htake).map Message.owner
  exact (hperm.append_right _).append_right _

theorem holders_reported {s : Stores ρ} {request : NodeId × BatchId} (h : request ∈ s.outstanding) :
    s.holders.Perm
      (s.home request :: Stores.holders { s with outstanding := s.outstanding.erase request }) := by
  have hperm := (List.perm_cons_erase h).map s.home
  refine ((hperm.append_left _).append_right _).trans ?_
  rw [Stores.holders]
  rw [List.map_cons, List.append_assoc, List.append_assoc]
  exact List.perm_middle

end Tokens

section Runs

/-- The condition under which a step drops no batch: a request is handled by a node that is the
master in its own view, and the unicast of a completion does not fail. -/
def Answerable (s : Stores ρ) : StoreInput ρ → Prop
  | .deliver k master _ => match takeAt k s.network with
    | some (⟨_, dst, .APPLY_BATCH_FLOWS _⟩, _) => master = some dst
    | _ => True
  | .sendError k => match takeAt k s.network with
    | some (⟨_, _, .REMOTE_APPLY_COMPLETED _ _⟩, _) => False
    | _ => True
  | _ => True

def submits : StoreInput ρ → List (NodeId × BatchId)
  | .storeBatch n operation _ _ => [(n, operation.id)]
  | _ => []

structure Frame (s u : Stores ρ) : Prop where
  submitted : u.submitted = s.submitted
  pending : ∀ n batchId, u.pendingResponses n batchId ≠ none →
    s.pendingResponses n batchId ≠ none

theorem frame_notifyDelegate (s : Stores ρ) (n : NodeId) (event : FlowRuleBatchEvent ρ) :
    Frame s (s.notifyDelegate n event) := by
  cases event with
  | requested => exact ⟨rfl, fun _ _ h => h⟩
  | completed => exact ⟨rfl, fun _ _ h => h⟩

theorem frame_batchOperationComplete (s : Stores ρ) (n : NodeId) (batchId : BatchId)
    (result : CompletedBatchOperation ρ) : Frame s (s.batchOperationComplete n batchId result) := by
  rw [Stores.batchOperationComplete]
  cases s.pendingResponses n batchId with
  | none => exact frame_notifyDelegate s n _
  | some nodeId =>
    refine ⟨rfl, fun k b h => ?_⟩
    by_cases hk : k = n
    · by_cases hb : b = batchId
      · simp [Stores.send, hk, hb] at h
      · simpa [Stores.send, hk, hb] using h
    · simpa [Stores.send, hk] using h

theorem frame_storeBatchInternal (s : Stores ρ) (n : NodeId)
    (operation : FlowRuleBatchOperation ρ) (stored : ρ → Bool) :
    Frame s (s.storeBatchInternal n operation stored) := by
  unfold Stores.storeBatchInternal
  dsimp only
  split_ifs
  · exact frame_batchOperationComplete s n _ _
  · exact frame_notifyDelegate s n _

theorem frame_storeBatch (s : Stores ρ) (n : NodeId) (operation : FlowRuleBatchOperation ρ)
    (master : Option NodeId) (stored : ρ → Bool) :
    Frame s (s.storeBatch n operation master stored) := by
  unfold Stores.storeBatch
  split_ifs
  · exact frame_notifyDelegate s n _
  · cases master with
    | none => exact frame_notifyDelegate s n _
    | some master =>
      dsimp only
      split_ifs
      · exact frame_storeBatchInternal s n operation stored
      · exact ⟨rfl, fun _ _ h => h⟩

structure Invariant (s : Stores ρ) : Prop where
  fresh : ∀ n batchId, s.pendingResponses n batchId ≠ none → batchId ∈ s.submitted.map Prod.snd
  nodup : (s.submitted.map Prod.snd).Nodup
  held : s.holders.Subperm s.submitted

variable {s : Stores ρ}

theorem mem_holders_of_outstanding {request : NodeId × BatchId}
    (h : request ∈ s.outstanding) : s.home request ∈ s.holders :=
  List.mem_append_left _ (List.mem_append_right _ (List.mem_map_of_mem h))

theorem Invariant.not_outstanding {s u : Stores ρ} (h : Invariant s) {owner : NodeId × BatchId}
    (hperm : s.holders.Perm (owner :: u.holders)) (n : NodeId) : (n, owner.2) ∉ u.outstanding := by
  intro hm
  have hnodup : ((owner :: u.holders).map Prod.snd).Nodup := by
    obtain ⟨held, hheld, hsub⟩ := hperm.symm.subperm.trans h.held
    exact (hheld.map Prod.snd).nodup_iff.mp ((hsub.map Prod.snd).nodup h.nodup)
  rw [List.map_cons, List.nodup_cons] at hnodup
  exact hnodup.1 (List.mem_map.mpr ⟨_, mem_holders_of_outstanding hm, rfl⟩)

theorem submitted_handle (s : Stores ρ) (x : StoreInput ρ) :
    (s.handle x).submitted = s.submitted ++ submits x := by
  cases x with
  | storeBatch n operation master stored => rfl
  | deliver k master stored =>
    simp only [Stores.handle, submits, List.append_nil]
    cases takeAt k s.network with
    | none => rfl
    | some taken =>
      obtain ⟨⟨src, dst, body⟩, rest⟩ := taken
      cases body with
      | APPLY_BATCH_FLOWS operation =>
        simp only [Stores.receive, Stores.onStoreBatch]
        split_ifs
        · exact (frame_storeBatchInternal _ dst operation stored).submitted
        · rfl
      | REMOTE_APPLY_COMPLETED batchId result => rfl
  | sendError k =>
    simp only [Stores.handle, submits, List.append_nil]
    cases takeAt k s.network with
    | none => rfl
    | some taken =>
      obtain ⟨⟨src, dst, body⟩, rest⟩ := taken
      cases body <;> rfl
  | batchOperationComplete n batchId result =>
    simp only [Stores.handle, submits, List.append_nil]
    exact (frame_batchOperationComplete _ n batchId result).submitted

variable {x : StoreInput ρ}

theorem holders_handle (h : Invariant s) (hx : s.Accepts x)
    (ha : Answerable s x) : (s.handle x).holders.Perm (submits x ++ s.holders) := by
  cases x with
  | storeBatch n operation master stored =>
    have hnone : s.pendingResponses n operation.id = none :=
      of_not_not fun hp => hx (h.fresh n operation.id hp)
    have hout : (n, operation.id) ∉ s.outstanding := fun hm =>
      hx (List.mem_map.mpr ⟨_, h.held.subset (mem_holders_of_outstanding hm), rfl⟩)
    exact holders_storeBatch s n operation master stored hout hnone
  | deliver k master stored =>
    obtain ⟨⟨src, dst, body⟩, rest, htake⟩ := takeAt_isSome hx
    have htaken := holders_taken htake
    simp only [Stores.handle, htake, submits, List.nil_append]
    cases body with
    | APPLY_BATCH_FLOWS operation =>
      have hmaster : master = some dst := by simpa [Answerable, htake] using ha
      have hout := h.not_outstanding htaken dst
      simp only [Stores.receive, Stores.onStoreBatch, if_pos hmaster]
      refine (holders_storeBatchInternal { s with
        network := rest
        pendingResponses := Function.update s.pendingResponses dst
          (Function.update (s.pendingResponses dst) operation.id (some src)) }
        dst operation stored hout).trans ?_
      rw [holders_pending { s with network := rest } dst operation.id (some src) hout]
      have hhome : Stores.home { s with
          network := rest
          pendingResponses := Function.update s.pendingResponses dst
            (Function.update (s.pendingResponses dst) operation.id (some src)) }
          (dst, operation.id) = (src, operation.id) := by simp [Stores.home]
      rw [hhome]
      exact htaken.symm
    | REMOTE_APPLY_COMPLETED batchId result =>
      exact (holders_completed _ dst batchId result).trans htaken.symm
  | sendError k =>
    obtain ⟨⟨src, dst, body⟩, rest, htake⟩ := takeAt_isSome hx
    have htaken := holders_taken htake
    simp only [Stores.handle, htake, submits, List.nil_append]
    cases body with
    | APPLY_BATCH_FLOWS operation =>
      exact (holders_completed _ src operation.id _).trans htaken.symm
    | REMOTE_APPLY_COMPLETED batchId result =>
      exact absurd ha (by simp [Answerable, htake])
  | batchOperationComplete n batchId result =>
    have hreported := holders_reported hx
    have hout := h.not_outstanding hreported n
    exact (holders_batchOperationComplete _ n batchId result hout).trans hreported.symm

theorem holders_drop (hx : s.Accepts x) (ha : ¬ Answerable s x) :
    submits x = [] ∧ ∃ dropped, s.holders.Perm (dropped :: (s.handle x).holders) := by
  cases x with
  | storeBatch => exact absurd trivial ha
  | batchOperationComplete => exact absurd trivial ha
  | deliver k master stored =>
    obtain ⟨⟨src, dst, body⟩, rest, htake⟩ := takeAt_isSome hx
    refine ⟨rfl, ?_⟩
    cases body with
    | APPLY_BATCH_FLOWS operation =>
      have hmaster : master ≠ some dst := by simpa [Answerable, htake] using ha
      simp only [Stores.handle, htake, Stores.receive, Stores.onStoreBatch, if_neg hmaster]
      exact ⟨_, holders_taken htake⟩
    | REMOTE_APPLY_COMPLETED batchId result => exact absurd (by simp [Answerable, htake]) ha
  | sendError k =>
    obtain ⟨⟨src, dst, body⟩, rest, htake⟩ := takeAt_isSome hx
    refine ⟨rfl, ?_⟩
    cases body with
    | APPLY_BATCH_FLOWS operation => exact absurd (by simp [Answerable, htake]) ha
    | REMOTE_APPLY_COMPLETED batchId result =>
      simp only [Stores.handle, htake, Stores.sendError]
      exact ⟨_, holders_taken htake⟩

theorem pending_handle (hx : s.Accepts x) (n : NodeId)
    (batchId : BatchId) (h : (s.handle x).pendingResponses n batchId ≠ none) :
    s.pendingResponses n batchId ≠ none ∨ batchId ∈ s.holders.map Prod.snd := by
  cases x with
  | storeBatch k operation master stored =>
    exact Or.inl ((frame_storeBatch s k operation master stored).pending n batchId h)
  | deliver k master stored =>
    obtain ⟨⟨src, dst, body⟩, rest, htake⟩ := takeAt_isSome hx
    simp only [Stores.handle, htake] at h
    cases body with
    | APPLY_BATCH_FLOWS operation =>
      simp only [Stores.receive, Stores.onStoreBatch] at h
      split_ifs at h
      · have hput := (frame_storeBatchInternal _ dst operation stored).pending n batchId h
        by_cases hb : batchId = operation.id
        · right
          rw [hb]
          exact List.mem_map.mpr ⟨_, (holders_taken htake).mem_iff.mpr List.mem_cons_self, rfl⟩
        · by_cases hn : n = dst
          · exact Or.inl (by simpa [hn, hb] using hput)
          · exact Or.inl (by simpa [hn] using hput)
      · exact Or.inl h
    | REMOTE_APPLY_COMPLETED b result => exact Or.inl h
  | sendError k =>
    obtain ⟨⟨src, dst, body⟩, rest, htake⟩ := takeAt_isSome hx
    simp only [Stores.handle, htake] at h
    cases body <;> exact Or.inl h
  | batchOperationComplete k b result =>
    exact Or.inl ((frame_batchOperationComplete { s with
      outstanding := s.outstanding.erase (k, b) } k b result).pending n batchId h)

theorem invariant_handle (h : Invariant s) (hx : s.Accepts x) : Invariant (s.handle x) := by
  have hsubmitted := submitted_handle s x
  constructor
  · intro n batchId hp
    rw [hsubmitted, List.map_append]
    refine List.mem_append_left _ ?_
    rcases pending_handle hx n batchId hp with hold | hheld
    · exact h.fresh n batchId hold
    · exact List.map_subset Prod.snd h.held.subset hheld
  · rw [hsubmitted, List.map_append]
    cases x with
    | storeBatch n operation master stored =>
      refine List.Nodup.append h.nodup (List.nodup_singleton _) ?_
      intro batchId hm hnew
      rw [List.mem_singleton.mp hnew] at hm
      exact hx hm
    | _ => simpa [submits] using h.nodup
  · rw [hsubmitted]
    by_cases ha : Answerable s x
    · have hperm := (holders_handle h hx ha).trans List.perm_append_comm
      exact hperm.subperm.trans ((List.subperm_append_right _).mpr h.held)
    · obtain ⟨hnone, dropped, hperm⟩ := holders_drop hx ha
      rw [hnone, List.append_nil]
      exact (List.sublist_cons_self dropped _).subperm.trans (hperm.symm.subperm.trans h.held)

theorem invariant_initial : Invariant (storesMachine (ρ := ρ)).initial :=
  ⟨fun _ _ h => absurd rfl h, List.nodup_nil, List.Subperm.refl []⟩

theorem holders_settled (hn : s.network = []) (ho : s.outstanding = []) :
    s.holders = s.completions := by
  simp [Stores.holders, hn, ho]

theorem filter_of_mem_nodup {l : List (NodeId × BatchId)} (h : (l.map Prod.snd).Nodup)
    {n : NodeId} {batchId : BatchId} (hm : (n, batchId) ∈ l) :
    l.filter (fun c => c.2 = batchId) = [(n, batchId)] := by
  induction l with
  | nil => exact absurd hm List.not_mem_nil
  | cons first l ih =>
    rw [List.map_cons, List.nodup_cons] at h
    rcases List.mem_cons.mp hm with rfl | hm
    · have hrest : l.filter (fun c => c.2 = batchId) = [] := by
        rw [List.filter_eq_nil_iff]
        intro c hc hb
        exact h.1 (List.mem_map.mpr ⟨c, hc, of_decide_eq_true hb⟩)
      simp [hrest]
    · have hne : first.2 ≠ batchId := fun he => h.1 (List.mem_map.mpr ⟨_, hm, he.symm⟩)
      rw [List.filter_cons_of_neg (by simpa using hne)]
      exact ih h.2 hm

theorem lost_handle (h : Invariant s) (hx : s.Accepts x)
    (hlost : s.holders.length < s.submitted.length) :
    (s.handle x).holders.length < (s.handle x).submitted.length := by
  rw [submitted_handle, List.length_append]
  by_cases ha : Answerable s x
  · have hlength := (holders_handle h hx ha).length_eq
    rw [List.length_append] at hlength
    omega
  · obtain ⟨-, dropped, hperm⟩ := holders_drop hx ha
    have hlength := hperm.length_eq
    rw [List.length_cons] at hlength
    omega

theorem answeredOnce_of_perm (h : Invariant s)
    (hperm : s.completions.Perm s.submitted) : AnsweredOnce s := by
  intro n batchId hm
  have hfilter := hperm.filter fun c => c.2 = batchId
  rw [filter_of_mem_nodup h.nodup hm] at hfilter
  exact List.perm_singleton.mp hfilter

/-- Every batch submitted in a run is answered once, at the node that submitted it, exactly when
no step of the run drops a batch. -/
theorem batches_answered_iff (xs : List (StoreInput ρ))
    (hv : storesMachine.Valid storesMachine.initial xs)
    (hn : (storesMachine.run storesMachine.initial xs).network = [])
    (ho : (storesMachine.run storesMachine.initial xs).outstanding = []) :
    AnsweredOnce (storesMachine.run storesMachine.initial xs) ↔
      (storesMachine.guarded Answerable).Valid storesMachine.initial xs := by
  have hinv : ∀ ys, storesMachine.Valid storesMachine.initial ys →
      Invariant (storesMachine.run (storesMachine (ρ := ρ)).initial ys) := fun ys hys =>
    invariant_run Invariant (fun s x h hx => invariant_handle h hx) hys invariant_initial
  have hsettled := holders_settled hn ho
  constructor
  · intro hanswered
    rcases guarded_or_breaks Answerable hv with hguarded | ⟨ys, x, zs, rfl, hbreak⟩
    · exact hguarded
    · exfalso
      obtain ⟨hys, hx, hzs⟩ := (valid_append _ _ _ _).mp hv
      have hbefore := hinv ys hys
      -- the batch dropped at `x` is missing from there on
      have hlost : ((storesMachine.run storesMachine.initial ys).handle x).holders.length <
          ((storesMachine.run storesMachine.initial ys).handle x).submitted.length := by
        obtain ⟨hnone, dropped, hperm⟩ := holders_drop hx hbreak
        have hlength := hperm.length_eq
        have hle := hbefore.held.length_le
        rw [submitted_handle, hnone, List.append_nil]
        rw [List.length_cons] at hlength
        omega
      have hend := invariant_run
        (fun s : Stores ρ => Invariant s ∧ s.holders.length < s.submitted.length)
        (fun s y h hy => ⟨invariant_handle h.1 hy, lost_handle h.1 hy h.2⟩) hzs
        ⟨invariant_handle hbefore hx, hlost⟩
      have hrun : storesMachine.run storesMachine.initial (ys ++ x :: zs) =
          storesMachine.run (storesMachine.next (storesMachine.run storesMachine.initial ys) x)
            zs := run_append _ _ _ _
      rw [← hrun, hsettled] at hend
      have hsubset : (storesMachine.run storesMachine.initial (ys ++ x :: zs)).submitted ⊆
          (storesMachine.run storesMachine.initial (ys ++ x :: zs)).completions := by
        rintro ⟨n, batchId⟩ hm
        have hone := hanswered n batchId hm
        exact (List.mem_filter.mp (hone ▸ List.mem_singleton_self (n, batchId))).1
      have hnodup := hend.1.nodup.of_map Prod.snd
      have hle := (hnodup.subperm hsubset).length_le
      omega
  · intro hguarded
    have hcomplete := invariant_run
      (fun s : Stores ρ => Invariant s ∧ s.holders.Perm s.submitted) ?_ hguarded
      ⟨invariant_initial, List.Perm.refl []⟩
    · rw [guarded_run, hsettled] at hcomplete
      exact answeredOnce_of_perm hcomplete.1 hcomplete.2
    · intro s x h hx
      refine ⟨invariant_handle h.1 hx.1, ?_⟩
      change (s.handle x).holders.Perm (s.handle x).submitted
      rw [submitted_handle]
      exact (holders_handle h.1 hx.1 hx.2).trans
        ((h.2.append_left _).trans List.perm_append_comm)

end Runs

section Regression

def addRule : FlowRuleBatchOperation ℕ := ⟨[⟨.ADD, 3⟩], 1, 7⟩

def mastershipMoves : List (StoreInput ℕ) :=
  [.storeBatch 0 addRule (some 1) (fun _ => false), .deliver 0 (some 2) (fun _ => false)]

theorem batch_without_completion : let s := storesMachine.run storesMachine.initial mastershipMoves
    storesMachine.Valid storesMachine.initial mastershipMoves ∧ s.network = [] ∧
      s.outstanding = [] ∧ s.submitted = [(0, 7)] ∧ s.notified = [] ∧ ¬ AnsweredOnce s := by
  intro s
  have hquiet : storesMachine.Valid storesMachine.initial mastershipMoves ∧ s.network = [] ∧
      s.outstanding = [] ∧ s.submitted = [(0, 7)] ∧ s.notified = [] := by decide
  obtain ⟨hvalid, hnetwork, houtstanding, hsubmitted, hnotified⟩ := hquiet
  refine ⟨hvalid, hnetwork, houtstanding, hsubmitted, hnotified, fun h => ?_⟩
  have hone := h 0 7 (by rw [hsubmitted]; exact List.mem_singleton_self _)
  rw [Stores.completions, hnotified] at hone
  exact absurd hone (List.cons_ne_nil _ _).symm

def carriedOut : List (StoreInput ℕ) :=
  [.storeBatch 0 addRule (some 1) (fun _ => false), .deliver 0 (some 1) (fun _ => false),
    .batchOperationComplete 1 7 ⟨true, [], 1⟩, .deliver 0 none (fun _ => false)]

theorem batch_completed_remotely :
    AnsweredOnce (storesMachine.run storesMachine.initial carriedOut) ↔
      (storesMachine.guarded Answerable).Valid storesMachine.initial carriedOut :=
  batches_answered_iff carriedOut (by decide) (by decide) (by decide)

end Regression

end FlowStoreBatches

import Onos.Lib.InputMachine
import Onos.LsUpdates

/-! The state machine of a neighbor. Its events come from hellos, database descriptions, requests
and updates; every event reads what is around the neighbor at that moment, its interface, its area
and the database. -/
namespace NeighborMachine

open InputMachine KeyedMap LinkStateDatabase LinkStateHeaders LsRequests LsUpdates

def INITIALIZE_SET : ℤ := 1

def INITIALIZE_NOTSET : ℤ := 0

def MORE_SET : ℤ := 1

def MORE_NOTSET : ℤ := 0

def IS_MASTER : ℤ := 1

def NOT_MASTER : ℤ := 0

def DD_HEADER_LENGTH : ℤ := OSPF_HEADER_LENGTH + 8

inductive OspfInterfaceType where
  | POINT_TO_POINT
  | BROADCAST
  | VIRTUAL
  deriving DecidableEq, Repr

def OspfInterfaceType.value : OspfInterfaceType → ℤ
  | .POINT_TO_POINT => 1
  | .BROADCAST => 2
  | .VIRTUAL => 3

structure DdPacket where
  options : ℤ
  isInitialize : ℤ
  isMore : ℤ
  isMaster : ℤ
  imtu : ℤ
  sequenceNo : BitVec 64
  lsaHeaderList : List LsaHeader

def IsUnknownType (h : LsaHeader) : Prop :=
  (h.getOspfLsaType.value > OspfLsaType.EXTERNAL_LSA.value ∧
    h.getOspfLsaType.value < OspfLsaType.LINK_LOCAL_OPAQUE_LSA.value) ∨
  h.getOspfLsaType.value > OspfLsaType.AS_OPAQUE_LSA.value

instance (h : LsaHeader) : Decidable (IsUnknownType h) :=
  inferInstanceAs (Decidable (_ ∨ _))

theorem known_of_not_isUnknownType {h : LsaHeader} (hu : ¬ IsUnknownType h) :
    h.getOspfLsaType ≠ .UNDEFINED := by
  intro e
  apply hu
  unfold IsUnknownType
  rw [e]
  decide

section Requests

structure RequestList where
  table : Table String LsaHeader
  keyed : ∀ k h, table.lookup k = some h → getLsaKey h = k ∧ h.getOspfLsaType ≠ .UNDEFINED

def RequestList.empty : RequestList where
  table := ∅
  keyed k h hk := by simp at hk

def RequestList.put (l : RequestList) (h : LsaHeader) (known : h.getOspfLsaType ≠ .UNDEFINED) :
    RequestList where
  table := l.table.insert (getLsaKey h) h
  keyed k h' hk := by
    rw [lookup_insert] at hk
    split at hk
    · rename_i e
      cases hk
      exact ⟨e.symm, known⟩
    · exact l.keyed k h' hk

def RequestList.remove (l : RequestList) (key : String) : RequestList where
  table := l.table.erase key
  keyed k h hk := by
    rw [lookup_erase] at hk
    split at hk
    · cases hk
    · exact l.keyed k h hk

def RequestList.containsKey (l : RequestList) (key : String) : Bool := (l.table.lookup key).isSome

def RequestList.isEmpty (l : RequestList) : Bool := l.table.entries.isEmpty

theorem containsKey_iff (l : RequestList) (k : String) :
    l.containsKey k = true ↔ ∃ h, l.table.lookup k = some h := Option.isSome_iff_exists

theorem isEmpty_iff (l : RequestList) : l.isEmpty = true ↔ ∀ k, l.containsKey k = false := by
  unfold RequestList.isEmpty
  rw [List.isEmpty_iff]
  constructor
  · intro h k
    unfold RequestList.containsKey AList.lookup
    rw [h]
    rfl
  · intro h
    apply List.eq_nil_iff_forall_not_mem.mpr
    rintro ⟨k, a⟩ hmem
    have hk := h k
    unfold RequestList.containsKey at hk
    rw [(mem_entries_iff l.table k a).mp hmem] at hk
    cases hk

theorem not_isEmpty_iff (l : RequestList) : l.isEmpty = false ↔ ∃ k, l.containsKey k = true := by
  rw [← Bool.not_eq_true, isEmpty_iff]
  simp

@[simp] theorem isEmpty_put (l : RequestList) (h : LsaHeader)
    (known : h.getOspfLsaType ≠ .UNDEFINED) : (l.put h known).isEmpty = false := by
  apply (not_isEmpty_iff _).mpr
  refine ⟨getLsaKey h, (containsKey_iff _ _).mpr ⟨h, ?_⟩⟩
  exact AList.lookup_insert l.table

theorem containsKey_remove (l : RequestList) (key k : String) :
    (l.remove key).containsKey k = true ↔ l.containsKey k = true ∧ k ≠ key := by
  unfold RequestList.containsKey RequestList.remove
  rw [lookup_erase]
  by_cases h : k = key
  · simp [h]
  · simp [h]

end Requests

structure HashOrder where
  entries : ∀ {α : Type}, Table String α → List (String × α)
  perm : ∀ {α : Type} (m : Table String α), (entries m).Perm (m.entries.map fun e => (e.1, e.2))

/-- What is around a neighbor at an event: the interface, what the hellos told of the neighbor,
the area and its database. `refreshes` tells whether a refresh of the area comes to its end. -/
structure Surroundings where
  interfaceType : ℤ
  ipAddress : Ip4Address
  mtu : ℤ
  neighborIpAddr : Ip4Address
  neighborDr : Option Ip4Address
  neighborBdr : Option Ip4Address
  isOpaqueCapable : Bool
  isOpaqueEnabled : Bool
  opaqueEnabledOptions : ℤ
  options : ℤ
  isExternalRoutingCapability : Bool
  database : OspfLsdb
  order : HashOrder
  refreshes : Bool

structure OspfNbr where
  state : OspfNeighborState
  isMaster : ℤ
  ddSeqNum : BitVec 64
  lastSentDdPacket : Option DdPacket
  lastSentLsrPacket : Option (List LsRequestPacket)
  ddSummaryList : List LsaHeader
  lsReqList : RequestList
  inActivityTimerScheduled : Bool
  floodingTimerScheduled : Bool
  rxmtDdPacketTimerScheduled : Bool
  rxmtLsrTimerScheduled : Bool

def OspfNbr.initial (ddSeqNum : BitVec 64) : OspfNbr where
  state := .DOWN
  isMaster := NOT_MASTER
  ddSeqNum := ddSeqNum
  lastSentDdPacket := none
  lastSentLsrPacket := none
  ddSummaryList := []
  lsReqList := .empty
  inActivityTimerScheduled := false
  floodingTimerScheduled := false
  rxmtDdPacketTimerScheduled := false
  rxmtLsrTimerScheduled := false

section Handlers

variable (a : Surroundings)

/-- Whether to form an adjacency. Before a hello told the designated routers there may be no
answer. -/
def formAdjacencyOrNot : Option Bool :=
  if a.interfaceType = OspfInterfaceType.POINT_TO_POINT.value then some true
  else if a.interfaceType = OspfInterfaceType.BROADCAST.value then
    if some a.ipAddress = a.neighborDr ∨ some a.ipAddress = a.neighborBdr then some true
    else a.neighborBdr.bind fun neighborBdr =>
      if neighborBdr = a.neighborIpAddr then some true
      else a.neighborDr.map fun neighborDr => decide (neighborDr = a.neighborIpAddr)
  else some false

def optionsFor (isOpaque : Bool) : ℤ := if isOpaque then a.opaqueEnabledOptions else a.options

def initialDdPacket (isOpaque : Bool) (ddSeqNum : BitVec 64) : DdPacket where
  options := optionsFor a isOpaque
  isInitialize := INITIALIZE_SET
  isMore := MORE_SET
  isMaster := IS_MASTER
  imtu := a.mtu
  sequenceNo := ddSeqNum
  lsaHeaderList := []

def emptyDdPacket (isMaster : ℤ) (ddSeqNum : BitVec 64) : DdPacket where
  options := optionsFor a (a.isOpaqueEnabled && a.isOpaqueCapable)
  isInitialize := INITIALIZE_NOTSET
  isMore := MORE_NOTSET
  isMaster := isMaster
  imtu := a.mtu
  sequenceNo := ddSeqNum
  lsaHeaderList := []

def OspfNbr.begin (s : OspfNbr) (isOpaque : Bool) : OspfNbr :=
  { s with
    state := .EXSTART
    ddSeqNum := s.ddSeqNum + 1
    lastSentDdPacket := some (initialDdPacket a isOpaque (s.ddSeqNum + 1)) }

def OspfNbr.clear (s : OspfNbr) : OspfNbr := { s with lsReqList := .empty, ddSummaryList := [] }

def OspfNbr.startRxMtDdTimer (s : OspfNbr) : OspfNbr := { s with rxmtDdPacketTimerScheduled := true }

def OspfNbr.stopRxMtDdTimer (s : OspfNbr) : OspfNbr := { s with rxmtDdPacketTimerScheduled := false }

def OspfNbr.startRxMtLsrTimer (s : OspfNbr) : OspfNbr := { s with rxmtLsrTimerScheduled := true }

def OspfNbr.stopRxMtLsrTimer (s : OspfNbr) : OspfNbr := { s with rxmtLsrTimerScheduled := false }

def OspfNbr.oneWayReceived (s : OspfNbr) : OspfNbr :=
  let s := { s with inActivityTimerScheduled := true }
  let s := if s.state = .ATTEMPT ∨ s.state = .DOWN then { s with state := .INIT } else s
  if s.state.getValue ≥ OspfNeighborState.TWOWAY.getValue then { s.clear with state := .INIT } else s

def OspfNbr.twoWayReceived (s : OspfNbr) : OspfNbr :=
  let s := { s with inActivityTimerScheduled := true, floodingTimerScheduled := true }
  if s.state.getValue ≤ OspfNeighborState.TWOWAY.getValue then
    match formAdjacencyOrNot a with
    | none => s
    | some true => (s.begin a a.isOpaqueEnabled).startRxMtDdTimer
    | some false => { s with state := .TWOWAY }
  else s

def OspfNbr.adjOk (s : OspfNbr) : OspfNbr :=
  if a.interfaceType ≠ OspfInterfaceType.POINT_TO_POINT.value then
    if s.state = .TWOWAY then
      match formAdjacencyOrNot a with
      | some true => (s.begin a (a.isOpaqueEnabled && a.isOpaqueCapable)).startRxMtDdTimer
      | _ => s
    else if s.state.getValue ≥ OspfNeighborState.EXSTART.getValue then
      match formAdjacencyOrNot a with
      | some false => { s.clear with state := .TWOWAY }
      | _ => s
    else s
  else s

def OspfNbr.seqNumMismatch (s : OspfNbr) : OspfNbr × Option DdPacket :=
  let s := s.stopRxMtDdTimer
  if s.state.getValue ≥ OspfNeighborState.EXCHANGE.getValue then
    let s := s.clear.begin a a.isOpaqueEnabled
    (s, s.lastSentDdPacket)
  else (s, none)

def OspfNbr.badLSReq (s : OspfNbr) : OspfNbr :=
  if s.state.getValue ≥ OspfNeighborState.EXCHANGE.getValue then
    if s.state = .FULL ∧ ¬ a.refreshes then s
    else
      let s := { s.stopRxMtDdTimer.clear with isMaster := IS_MASTER }
      (s.begin a (a.isOpaqueEnabled && a.isOpaqueCapable)).startRxMtDdTimer
  else s

def IsWanted (nextLsa : LsaHeader) : Prop :=
  match a.database.lsaLookup nextLsa with
  | none => True
  | some lsaHasInstance => isNewerOrSameLsa nextLsa (a.database.lsaHeader lsaHasInstance) = .latest

instance (nextLsa : LsaHeader) : Decidable (IsWanted a nextLsa) := by
  unfold IsWanted
  split <;> infer_instance

def IsStray (nextLsa : LsaHeader) : Prop :=
  nextLsa.getOspfLsaType = .EXTERNAL_LSA ∧ ¬ a.isExternalRoutingCapability

instance (nextLsa : LsaHeader) : Decidable (IsStray a nextLsa) :=
  inferInstanceAs (Decidable (_ ∧ _))

def OspfNbr.processLsas (s : OspfNbr) : List LsaHeader → OspfNbr
  | [] => s
  | nextLsa :: lsas =>
    if hu : IsUnknownType nextLsa then (s.seqNumMismatch a).1
    else if IsStray a nextLsa then (s.seqNumMismatch a).1
    else if IsWanted a nextLsa then
      OspfNbr.processLsas
        { s with lsReqList := s.lsReqList.put nextLsa (known_of_not_isUnknownType hu) } lsas
    else s.processLsas lsas

/-- The headers that are added to a packet, and those that are left for the next one. -/
def addLsaHeaders (maxSize : ℤ) : ℤ → List LsaHeader → List LsaHeader × List LsaHeader
  | _, [] => ([], [])
  | currentLength, lsaHeader :: rest =>
    if currentLength + LSA_HEADER_LENGTH > maxSize then ([], lsaHeader :: rest)
    else
      let added := addLsaHeaders maxSize (currentLength + LSA_HEADER_LENGTH) rest
      (lsaHeader :: added.1, added.2)

def OspfNbr.getIsMoreBit (s : OspfNbr) : OspfNbr :=
  if s.ddSummaryList.isEmpty then s
  else
    let added := addLsaHeaders (a.mtu - LSA_HEADER_LENGTH) DD_HEADER_LENGTH s.ddSummaryList
    { s with
      ddSummaryList := added.2
      lastSentDdPacket := s.lastSentDdPacket.map fun ddPacket =>
        { ddPacket with
          lsaHeaderList := ddPacket.lsaHeaderList ++ added.1
          isMore := if added.2.length > 0 then MORE_SET else MORE_NOTSET } }

/-- Put a packet of the exchange in the place of the last one, and fill it. -/
def OspfNbr.proceed (s : OspfNbr) (isMaster : ℤ) : OspfNbr :=
  OspfNbr.getIsMoreBit a { s with lastSentDdPacket := some (emptyDdPacket a isMaster s.ddSeqNum) }

def requests (s : OspfNbr) : Option (List LsRequestPacket) :=
  buildLsRequest a.mtu (a.order.entries s.lsReqList.table)

def OspfNbr.exchangeDone (s : OspfNbr) : OspfNbr :=
  let s := s.stopRxMtDdTimer
  if s.state = .EXCHANGE then
    if s.lsReqList.isEmpty then { s with state := .FULL }
    else
      let s := { s with state := .LOADING }
      match requests a s with
      | none => s
      | some lsRequest => { s with lastSentLsrPacket := some lsRequest }.startRxMtLsrTimer
  else s

def addLsaToHeaderList (t : OspfLsaType) : List LsaHeader :=
  (a.order.entries (a.database.lsas t)).filterMap fun e =>
    let header := a.database.lsaHeader e.2
    if header.age ≠ MAXAGE ∧ a.database.lsdbAge.maxAgeBin.lookup (getLsaKey header) = none then
      some header
    else none

def getLsaHeaders : List LsaHeader :=
  addLsaToHeaderList a .ROUTER ++ addLsaToHeaderList a .NETWORK ++ addLsaToHeaderList a .SUMMARY ++
    addLsaToHeaderList a .ASBR_SUMMARY ++ addLsaToHeaderList a .EXTERNAL_LSA ++
    if a.isOpaqueCapable then
      addLsaToHeaderList a .LINK_LOCAL_OPAQUE_LSA ++ addLsaToHeaderList a .AREA_LOCAL_OPAQUE_LSA ++
        addLsaToHeaderList a .AS_OPAQUE_LSA
    else []

def OspfNbr.negotiationDone (s : OspfNbr) (neighborIsMaster : Bool) (payload : List LsaHeader) :
    OspfNbr :=
  let s := s.stopRxMtDdTimer
  if s.state = .EXSTART then
    let s := { s with state := .EXCHANGE, ddSummaryList := getLsaHeaders a }
    if neighborIsMaster then (s.processLsas a payload).proceed a NOT_MASTER
    else ((s.processLsas a payload).proceed a IS_MASTER).startRxMtDdTimer
  else s

def OspfNbr.processDdPacket (s : OspfNbr) (neighborIsMaster : Bool) (dataDescPkt : DdPacket) :
    OspfNbr :=
  if neighborIsMaster then
    let s := OspfNbr.processLsas a { s with ddSeqNum := dataDescPkt.sequenceNo }
      dataDescPkt.lsaHeaderList
    let s := s.proceed a NOT_MASTER
    if s.lastSentDdPacket.map DdPacket.isMore = some MORE_NOTSET ∧ dataDescPkt.isMore = MORE_NOTSET then
      s.exchangeDone a
    else s
  else
    let s := OspfNbr.processLsas a { s.stopRxMtDdTimer with ddSeqNum := s.ddSeqNum + 1 }
      dataDescPkt.lsaHeaderList
    if s.ddSummaryList.isEmpty ∧ dataDescPkt.isMore = MORE_NOTSET then s.exchangeDone a
    else (s.proceed a IS_MASTER).startRxMtDdTimer

/-- What the processing of a received advertisement does to the neighbor it came from: the keys of
the requests that it answers while the exchange goes on, and whether it says to remove the request,
unless it does not come to its end. -/
structure Handled where
  answered : List String
  removeIt : Option Bool

/-- The advertisements of an update, and whether all of them were processed. -/
def processReceivedLsas (exchanging : Bool) :
    RequestList → List (LsaHeader × Handled) → RequestList × Bool
  | lsReqList, [] => (lsReqList, true)
  | lsReqList, (lsaHeader, handled) :: rest =>
    let key := getLsaKey lsaHeader
    let left := if exchanging then handled.answered.foldl RequestList.remove lsReqList else lsReqList
    match handled.removeIt with
    | none => (left, false)
    | some removeIt =>
      processReceivedLsas exchanging
        (if lsReqList.containsKey key ∧ removeIt then left.remove key else left) rest

def OspfNbr.loadingDone (s : OspfNbr) : OspfNbr :=
  { s.stopRxMtLsrTimer.stopRxMtDdTimer with state := .FULL }

def OspfNbr.processLsUpdate (s : OspfNbr) (lsaList : List (LsaHeader × Handled)) : OspfNbr :=
  let s := s.stopRxMtLsrTimer
  if lsaList.isEmpty then s
  else
    let received := processReceivedLsas (s.state = .EXCHANGE ∨ s.state = .LOADING) s.lsReqList lsaList
    let s := { s with lsReqList := received.1 }
    if received.2 then
      if s.lsReqList.isEmpty ∧ s.state = .LOADING then s.loadingDone
      else
        match requests a s with
        | none => s
        | some lsRequest => { s with lastSentLsrPacket := some lsRequest }.startRxMtLsrTimer
    else s

def OspfNbr.neighborDown (s : OspfNbr) : OspfNbr :=
  let s := { s.stopRxMtDdTimer.stopRxMtLsrTimer with
    inActivityTimerScheduled := false
    floodingTimerScheduled := false
    state := .DOWN }
  if a.refreshes then s.clear else s

end Handlers

inductive Event where
  | oneWayReceived
  | twoWayReceived
  | adjOk
  | negotiationDone (neighborIsMaster : Bool) (payload : List LsaHeader)
  | processDdPacket (neighborIsMaster : Bool) (dataDescPkt : DdPacket)
  | exchangeDone
  | processLsUpdate (lsaList : List (LsaHeader × Handled))
  | seqNumMismatch
  | badLSReq
  | neighborDown

def OspfNbr.step (s : OspfNbr) (a : Surroundings) : Event → OspfNbr
  | .oneWayReceived => s.oneWayReceived
  | .twoWayReceived => s.twoWayReceived a
  | .adjOk => s.adjOk a
  | .negotiationDone neighborIsMaster payload => s.negotiationDone a neighborIsMaster payload
  | .processDdPacket neighborIsMaster dataDescPkt => s.processDdPacket a neighborIsMaster dataDescPkt
  | .exchangeDone => s.exchangeDone a
  | .processLsUpdate lsaList => s.processLsUpdate a lsaList
  | .seqNumMismatch => (s.seqNumMismatch a).1
  | .badLSReq => s.badLSReq a
  | .neighborDown => s.neighborDown a

def machine (ddSeqNum : BitVec 64) : Machine OspfNbr (Surroundings × Event) where
  initial := .initial ddSeqNum
  enabled _ _ := True
  next s e := s.step e.1 e.2

def IsInitial (ddPacket : DdPacket) (ddSeqNum : BitVec 64) : Prop :=
  ddPacket.isInitialize = INITIALIZE_SET ∧ ddPacket.isMore = MORE_SET ∧
    ddPacket.isMaster = IS_MASTER ∧ ddPacket.sequenceNo = ddSeqNum

structure Invariant (s : OspfNbr) : Prop where
  full : s.state = .FULL → s.lsReqList.isEmpty = true
  below : s.state.getValue < OspfNeighborState.EXCHANGE.getValue →
    s.lsReqList.isEmpty = true ∧ s.ddSummaryList = []
  exstart : s.state = .EXSTART →
    (∃ ddPacket, s.lastSentDdPacket = some ddPacket ∧ IsInitial ddPacket s.ddSeqNum) ∧
      s.rxmtDdPacketTimerScheduled = true
  lsrTimer : s.rxmtLsrTimerScheduled = true →
    (s.state = .EXCHANGE ∨ s.state = .LOADING) ∧ s.lsReqList.isEmpty = false

theorem invariant_initial (ddSeqNum : BitVec 64) : Invariant (.initial ddSeqNum) := by
  constructor
  · intro h
    cases h
  · intro _
    exact ⟨rfl, rfl⟩
  · intro h
    cases h
  · intro h
    cases h

section Guards

variable (a : Surroundings)

def IsMismatch (h : LsaHeader) : Prop := IsUnknownType h ∨ IsStray a h

instance (h : LsaHeader) : Decidable (IsMismatch a h) := inferInstanceAs (Decidable (_ ∨ _))

/-- The headers of a description that a neighbor can take in its state. In the exchange none may be
a mismatch; outside of it nothing may be requested; and none comes at the right time when the
neighbor waits for the answer to an initial packet. -/
def Acceptable (state : OspfNeighborState) (lsas : List LsaHeader) : Prop :=
  match state with
  | .EXSTART => False
  | .EXCHANGE | .LOADING => ∀ h ∈ lsas, ¬ IsMismatch a h
  | .FULL => ∀ h ∈ lsas, ¬ IsMismatch a h ∧ ¬ IsWanted a h
  | _ => ∀ h ∈ lsas.takeWhile (¬ IsMismatch a ·), ¬ IsWanted a h

def IsLeft (lsaList : List (LsaHeader × Handled)) (k : String) : Prop :=
  ∀ e ∈ lsaList, k ∉ e.2.answered ∧ (getLsaKey e.1 = k → e.2.removeIt = some false)

/-- The events that keep the invariant. The timer of the requests has to be off when an event drops
the requests, for no event but an update or the end of the neighbor stops it; nothing may come in
between when the neighbor waits for the answer to an initial packet, for the timer of the packet is
stopped first; and a mismatch may not be found, for the timer is not started again after it. -/
def Harmless (s : OspfNbr) : Event → Prop
  | .oneWayReceived =>
    s.state.getValue < OspfNeighborState.TWOWAY.getValue ∨ s.rxmtLsrTimerScheduled = false
  | .twoWayReceived => True
  | .adjOk =>
    a.interfaceType = OspfInterfaceType.POINT_TO_POINT.value ∨
      s.state.getValue < OspfNeighborState.EXSTART.getValue ∨ formAdjacencyOrNot a ≠ some false ∨
      s.rxmtLsrTimerScheduled = false
  | .negotiationDone _ payload => s.state ≠ .EXSTART ∨ ∀ h ∈ payload, ¬ IsMismatch a h
  | .processDdPacket _ dataDescPkt => Acceptable a s.state dataDescPkt.lsaHeaderList
  | .exchangeDone => s.state ≠ .EXSTART
  | .processLsUpdate lsaList =>
    lsaList = [] ∨ (∃ e ∈ lsaList, e.2.removeIt = none) ∨ s.state = .LOADING ∨
      s.state = .EXCHANGE ∧ ∃ k, s.lsReqList.containsKey k = true ∧ IsLeft lsaList k
  | .seqNumMismatch => s.state.getValue < OspfNeighborState.EXSTART.getValue
  | .badLSReq =>
    s.state.getValue < OspfNeighborState.EXCHANGE.getValue ∨ s.rxmtLsrTimerScheduled = false
  | .neighborDown => a.refreshes = true ∨ s.lsReqList.isEmpty = true ∧ s.ddSummaryList = []

end Guards

section Parts

variable (a : Surroundings) (s : OspfNbr)

/-- What the headers of a description do: those before the first mismatch are requested if they are
wanted, and the mismatch makes the neighbor begin again. -/
theorem processLsas_eq (lsas : List LsaHeader) : ∃ l : RequestList,
      (l.isEmpty = true ↔ s.lsReqList.isEmpty = true ∧
        ∀ h ∈ lsas.takeWhile (¬ IsMismatch a ·), ¬ IsWanted a h) ∧
      s.processLsas a lsas =
        if ∀ h ∈ lsas, ¬ IsMismatch a h then { s with lsReqList := l }
        else (OspfNbr.seqNumMismatch a { s with lsReqList := l }).1 := by
  induction lsas generalizing s with
  | nil => exact ⟨s.lsReqList, by simp, by simp [OspfNbr.processLsas]⟩
  | cons h lsas ih =>
    unfold OspfNbr.processLsas
    by_cases hu : IsUnknownType h
    · have hm : IsMismatch a h := Or.inl hu
      exact ⟨s.lsReqList, by simp [hm], by simp [hu, hm]⟩
    · by_cases hs : IsStray a h
      · have hm : IsMismatch a h := Or.inr hs
        exact ⟨s.lsReqList, by simp [hm], by simp [hu, hs, hm]⟩
      · have hm : ¬ IsMismatch a h := not_or.mpr ⟨hu, hs⟩
        by_cases hw : IsWanted a h
        · obtain ⟨l, hl, heq⟩ :=
            ih { s with lsReqList := s.lsReqList.put h (known_of_not_isUnknownType hu) }
          refine ⟨l, ?_, ?_⟩
          · rw [hl]
            simp [hm, hw]
          · simp only [hu, hs, hw, heq, List.forall_mem_cons, hm, ↓reduceDIte, ↓reduceIte,
              not_false_eq_true, true_and]
        · obtain ⟨l, hl, heq⟩ := ih s
          refine ⟨l, ?_, ?_⟩
          · rw [hl]
            simp [hm, hw]
          · simp only [hu, hs, hw, heq, List.forall_mem_cons, hm, ↓reduceDIte, ↓reduceIte,
              not_false_eq_true, true_and]

/-- The packet that `proceed` puts in the place of the last one is no initial one, and nothing
else than it and the summary list is changed. -/
theorem proceed_eq (isMaster : ℤ) :
    ∃ ddPacket ddSummaryList, ddPacket.isInitialize = INITIALIZE_NOTSET ∧
      (s.ddSummaryList = [] → ddSummaryList = []) ∧
      s.proceed a isMaster =
        { s with lastSentDdPacket := some ddPacket, ddSummaryList := ddSummaryList } := by
  unfold OspfNbr.proceed OspfNbr.getIsMoreBit
  by_cases h : s.ddSummaryList = []
  · refine ⟨emptyDdPacket a isMaster s.ddSeqNum, [], rfl, fun _ => rfl, ?_⟩
    simp only [h, List.isEmpty_nil, ↓reduceIte]
  · let added := addLsaHeaders (a.mtu - LSA_HEADER_LENGTH) DD_HEADER_LENGTH s.ddSummaryList
    refine ⟨{ emptyDdPacket a isMaster s.ddSeqNum with
      lsaHeaderList := [] ++ added.1
      isMore := if added.2.length > 0 then MORE_SET else MORE_NOTSET },
      added.2, rfl, fun hs => absurd hs h, ?_⟩
    rw [if_neg (by simpa using h)]
    rfl

theorem requests_isSome : ∃ lsRequest, requests a s = some lsRequest := by
  have hall : ∀ e ∈ a.order.entries s.lsReqList.table, ∃ p, lsRequestPacket e.1 e.2 = some p := by
    intro e hmem
    obtain ⟨e, he, rfl⟩ := List.mem_map.mp ((a.order.perm s.lsReqList.table).mem_iff.mp hmem)
    obtain ⟨hkey, hknown⟩ := s.lsReqList.keyed e.1 e.2 ((mem_entries_iff _ _ _).mp he)
    obtain ⟨link, router, -, -, hrequest⟩ := lsRequestPacket_getLsaKey hknown
    rw [hkey] at hrequest
    exact ⟨_, hrequest⟩
  obtain ⟨ps, hps, -⟩ := requestsFrom_eq (a.mtu - LSA_HEADER_LENGTH) OSPF_HEADER_LENGTH _ hall
  exact ⟨ps, hps⟩

theorem exchangeDone_eq : ∃ lastSentLsrPacket, s.exchangeDone a = if s.state = .EXCHANGE then
      if s.lsReqList.isEmpty then { s.stopRxMtDdTimer with state := .FULL }
      else { s.stopRxMtDdTimer.startRxMtLsrTimer with
        state := .LOADING, lastSentLsrPacket := lastSentLsrPacket }
    else s.stopRxMtDdTimer := by
  obtain ⟨lsRequest, h⟩ := requests_isSome a { s.stopRxMtDdTimer with state := .LOADING }
  refine ⟨some lsRequest, ?_⟩
  unfold OspfNbr.exchangeDone
  simp only [h]
  rfl

theorem foldl_remove (l : RequestList) (keys : List String) (k : String) :
    (keys.foldl RequestList.remove l).containsKey k = true ↔ l.containsKey k = true ∧ k ∉ keys := by
  induction keys generalizing l with
  | nil => simp
  | cons key keys ih =>
    rw [List.foldl_cons, ih, containsKey_remove, List.mem_cons, not_or, and_assoc]

section Received

variable (exchanging : Bool)

theorem containsKey_answered (l : RequestList) (answered : List String) (k : String) :
    (if exchanging then answered.foldl RequestList.remove l else l).containsKey k = true ↔
      l.containsKey k = true ∧ (exchanging = true → k ∉ answered) := by
  cases exchanging with
  | true => simp [foldl_remove]
  | false => simp

theorem containsKey_removed (l : RequestList) (key : String) (answered : List String)
    (removeIt : Bool) (k : String) :
    (if l.containsKey key = true ∧ removeIt = true then
        (if exchanging then answered.foldl RequestList.remove l else l).remove key
      else if exchanging then answered.foldl RequestList.remove l else l).containsKey k = true ↔
      l.containsKey k = true ∧ (exchanging = true → k ∉ answered) ∧
        (key = k → removeIt = false) := by
  by_cases hr : l.containsKey key = true ∧ removeIt = true
  · rw [if_pos hr, containsKey_remove, containsKey_answered, hr.2, and_assoc]
    have hne : k ≠ key ↔ (key = k → true = false) :=
      ⟨fun h e => absurd e.symm h, fun h e => nomatch h e.symm⟩
    rw [hne]
  · rw [if_neg hr, containsKey_answered]
    constructor
    · rintro ⟨hk, hanswered⟩
      refine ⟨hk, hanswered, ?_⟩
      rintro rfl
      exact Bool.eq_false_iff.mpr fun ht => hr ⟨hk, ht⟩
    · rintro ⟨hk, hanswered, -⟩
      exact ⟨hk, hanswered⟩

theorem containsKey_of_processed {l : RequestList} {lsaList : List (LsaHeader × Handled)} {k : String}
    (h : (processReceivedLsas exchanging l lsaList).1.containsKey k = true) :
    l.containsKey k = true := by
  induction lsaList generalizing l with
  | nil => exact h
  | cons e rest ih =>
    obtain ⟨lsaHeader, answered, removeIt⟩ := e
    unfold processReceivedLsas at h
    cases removeIt with
    | none =>
      cases exchanging with
      | true => exact ((foldl_remove l answered k).mp h).1
      | false => exact h
    | some removeIt => exact ((containsKey_removed exchanging _ _ _ _ k).mp (ih h)).1

theorem processed_iff (l : RequestList) (lsaList : List (LsaHeader × Handled)) :
    (processReceivedLsas exchanging l lsaList).2 = true ↔ ∀ e ∈ lsaList, e.2.removeIt ≠ none := by
  induction lsaList generalizing l with
  | nil => simp [processReceivedLsas]
  | cons e rest ih =>
    obtain ⟨lsaHeader, answered, removeIt⟩ := e
    unfold processReceivedLsas
    cases removeIt with
    | none => simp
    | some removeIt => simp [ih]

theorem containsKey_processed_iff {l : RequestList} {lsaList : List (LsaHeader × Handled)}
    (h : (processReceivedLsas true l lsaList).2 = true) (k : String) :
    (processReceivedLsas true l lsaList).1.containsKey k = true ↔
      l.containsKey k = true ∧ IsLeft lsaList k := by
  induction lsaList generalizing l with
  | nil => simp [processReceivedLsas, IsLeft]
  | cons e rest ih =>
    obtain ⟨lsaHeader, answered, removeIt⟩ := e
    unfold processReceivedLsas at h ⊢
    cases removeIt with
    | none => cases h
    | some removeIt =>
      unfold IsLeft at ih ⊢
      rw [ih h, containsKey_removed, List.forall_mem_cons, and_assoc]
      simp

end Received

end Parts

section Phases

variable {s : OspfNbr}

theorem lsrTimer_off (h : Invariant s) (hs : ¬ (s.state = .EXCHANGE ∨ s.state = .LOADING)) :
    s.rxmtLsrTimerScheduled = false :=
  Bool.eq_false_iff.mpr fun ht => hs (h.lsrTimer ht).1

theorem invariant_below (hs : s.state.getValue < OspfNeighborState.EXSTART.getValue) :
    Invariant s ↔ s.lsReqList.isEmpty = true ∧ s.ddSummaryList = [] ∧
      s.rxmtLsrTimerScheduled = false := by
  have hne : ∀ t : OspfNeighborState, OspfNeighborState.EXSTART.getValue ≤ t.getValue →
      s.state ≠ t := by
    rintro t ht rfl
    omega
  have hbelow : s.state.getValue < OspfNeighborState.EXCHANGE.getValue :=
    Nat.lt_trans hs (by decide)
  have hoff : ¬ (s.state = .EXCHANGE ∨ s.state = .LOADING) :=
    not_or.mpr ⟨hne _ (by decide), hne _ (by decide)⟩
  constructor
  · intro h
    exact ⟨(h.below hbelow).1, (h.below hbelow).2, lsrTimer_off h hoff⟩
  · rintro ⟨hl, hd, ht⟩
    refine ⟨fun _ => hl, fun _ => ⟨hl, hd⟩, fun e => absurd e (hne _ (by decide)), ?_⟩
    intro e
    rw [ht] at e
    cases e

theorem invariant_exstart (hs : s.state = .EXSTART) :
    Invariant s ↔ s.lsReqList.isEmpty = true ∧ s.ddSummaryList = [] ∧
      (∃ ddPacket, s.lastSentDdPacket = some ddPacket ∧ IsInitial ddPacket s.ddSeqNum) ∧
      s.rxmtDdPacketTimerScheduled = true ∧ s.rxmtLsrTimerScheduled = false := by
  have hbelow : s.state.getValue < OspfNeighborState.EXCHANGE.getValue := by
    rw [hs]
    decide
  constructor
  · intro h
    obtain ⟨hp, hd⟩ := h.exstart hs
    refine ⟨(h.below hbelow).1, (h.below hbelow).2, hp, hd, lsrTimer_off h ?_⟩
    rw [hs]
    decide
  · rintro ⟨hl, hd, hp, hdd, ht⟩
    refine ⟨fun _ => hl, fun _ => ⟨hl, hd⟩, fun _ => ⟨hp, hdd⟩, ?_⟩
    intro e
    rw [ht] at e
    cases e

theorem invariant_exchanging (hs : s.state = .EXCHANGE ∨ s.state = .LOADING) :
    Invariant s ↔ (s.rxmtLsrTimerScheduled = true → s.lsReqList.isEmpty = false) := by
  constructor
  · intro h ht
    exact (h.lsrTimer ht).2
  · intro h
    refine ⟨?_, ?_, ?_, fun ht => ⟨hs, h ht⟩⟩
    · intro e
      rw [e] at hs
      simp at hs
    · intro hlt
      obtain e | e := hs
      · rw [e] at hlt
        exact absurd hlt (by decide)
      · rw [e] at hlt
        exact absurd hlt (by decide)
    · intro e
      rw [e] at hs
      simp at hs

theorem invariant_requesting (ht : s.rxmtLsrTimerScheduled = true) :
    Invariant s ↔ (s.state = .EXCHANGE ∨ s.state = .LOADING) ∧ s.lsReqList.isEmpty = false := by
  constructor
  · intro h
    exact h.lsrTimer ht
  · rintro ⟨hs, hl⟩
    exact (invariant_exchanging hs).mpr fun _ => hl

theorem invariant_full (hs : s.state = .FULL) :
    Invariant s ↔ s.lsReqList.isEmpty = true ∧ s.rxmtLsrTimerScheduled = false := by
  constructor
  · intro h
    refine ⟨h.full hs, lsrTimer_off h ?_⟩
    rw [hs]
    decide
  · rintro ⟨hl, ht⟩
    refine ⟨fun _ => hl, ?_, ?_, ?_⟩
    · intro hlt
      rw [hs] at hlt
      exact absurd hlt (by decide)
    · intro e
      rw [hs] at e
      cases e
    · intro e
      rw [ht] at e
      cases e

theorem phases (s : OspfNbr) :
    s.state.getValue < OspfNeighborState.EXSTART.getValue ∨ s.state = .EXSTART ∨
      (s.state = .EXCHANGE ∨ s.state = .LOADING) ∨ s.state = .FULL := by
  cases s.state <;> decide

theorem invariant_congr {t : OspfNbr} (hs : s.state ≠ .EXSTART) (hstate : t.state = s.state)
    (hl : t.lsReqList = s.lsReqList) (ht : t.rxmtLsrTimerScheduled = s.rxmtLsrTimerScheduled)
    (hd : s.state.getValue < OspfNeighborState.EXSTART.getValue →
      (t.ddSummaryList = [] ↔ s.ddSummaryList = [])) : Invariant t ↔ Invariant s := by
  obtain h | h | h | h := phases s
  · rw [invariant_below (by rw [hstate]; exact h), invariant_below h, hl, ht, hd h]
  · exact absurd h hs
  · rw [invariant_exchanging (by rw [hstate]; exact h), invariant_exchanging h, hl, ht]
  · rw [invariant_full (by rw [hstate]; exact h), invariant_full h, hl, ht]

theorem not_invariant_of_timer (hs : s.state = .EXSTART) (ht : s.rxmtDdPacketTimerScheduled = false) :
    ¬ Invariant s := by
  intro h
  rw [(h.exstart hs).2] at ht
  cases ht

theorem not_invariant_of_packet {ddPacket : DdPacket} (hs : s.state = .EXSTART)
    (hp : s.lastSentDdPacket = some ddPacket) (hi : ddPacket.isInitialize = INITIALIZE_NOTSET) :
    ¬ Invariant s := by
  intro h
  obtain ⟨ddPacket', hp', hset, -⟩ := (h.exstart hs).1
  rw [hp, Option.some.injEq] at hp'
  rw [← hp', hi] at hset
  exact absurd hset (by decide)

theorem stopRxMtDdTimer_iff (s : OspfNbr) :
    Invariant s.stopRxMtDdTimer ↔ s.state ≠ .EXSTART ∧ Invariant s := by
  by_cases hs : s.state = .EXSTART
  · exact iff_of_false (not_invariant_of_timer hs rfl) (fun h => h.1 hs)
  · have hcongr : Invariant s.stopRxMtDdTimer ↔ Invariant s :=
      invariant_congr hs rfl rfl rfl fun _ => Iff.rfl
    exact hcongr.trans (and_iff_right hs).symm

end Phases

section Events

variable {s : OspfNbr} (a : Surroundings)

theorem exchangeDone_iff (s : OspfNbr) :
    Invariant (s.exchangeDone a) ↔ s.state ≠ .EXSTART ∧ Invariant s := by
  obtain ⟨lastSentLsrPacket, heq⟩ := exchangeDone_eq a s
  rw [heq]
  by_cases hs : s.state = .EXCHANGE
  · have hne : s.state ≠ .EXSTART := by
      rw [hs]
      decide
    rw [if_pos hs, and_iff_right hne, invariant_exchanging (Or.inl hs)]
    by_cases hl : s.lsReqList.isEmpty = true
    · rw [if_pos hl, invariant_full rfl, hl]
      constructor
      · rintro ⟨-, ht⟩ ht'
        rw [← ht', ← ht]
        rfl
      · intro h
        refine ⟨hl, ?_⟩
        exact Bool.eq_false_iff.mpr fun ht => nomatch h ht
    · rw [if_neg hl, invariant_exchanging (Or.inr rfl)]
      exact iff_of_true (fun _ => Bool.eq_false_iff.mpr hl) (fun _ => Bool.eq_false_iff.mpr hl)
  · rw [if_neg hs]
    exact stopRxMtDdTimer_iff s

theorem proceed_state (s : OspfNbr) (isMaster : ℤ) : (s.proceed a isMaster).state = s.state := by
  obtain ⟨ddPacket, ddSummaryList, -, -, heq⟩ := proceed_eq a s isMaster
  rw [heq]

theorem proceed_iff (hd : s.state.getValue < OspfNeighborState.EXSTART.getValue → s.ddSummaryList = [])
    (isMaster : ℤ) :
    (Invariant (s.proceed a isMaster) ↔ s.state ≠ .EXSTART ∧ Invariant s) ∧
      (Invariant (s.proceed a isMaster).startRxMtDdTimer ↔ s.state ≠ .EXSTART ∧ Invariant s) := by
  obtain ⟨ddPacket, ddSummaryList, hi, hsummary, heq⟩ := proceed_eq a s isMaster
  rw [heq]
  by_cases hs : s.state = .EXSTART
  · have hne : ¬ (s.state ≠ .EXSTART ∧ Invariant s) := fun h => h.1 hs
    exact ⟨iff_of_false (not_invariant_of_packet hs rfl hi) hne,
      iff_of_false (not_invariant_of_packet hs rfl hi) hne⟩
  · have hlist : s.state.getValue < OspfNeighborState.EXSTART.getValue →
        (ddSummaryList = [] ↔ s.ddSummaryList = []) :=
      fun hlt => iff_of_true (hsummary (hd hlt)) (hd hlt)
    rw [and_iff_right hs]
    exact ⟨invariant_congr hs rfl rfl rfl hlist, invariant_congr hs rfl rfl rfl hlist⟩

theorem oneWayReceived_eq (s : OspfNbr) : s.oneWayReceived =
    { (if s.state.getValue ≥ OspfNeighborState.TWOWAY.getValue then s.clear else s) with
      inActivityTimerScheduled := true, state := .INIT } := by
  unfold OspfNbr.oneWayReceived
  cases hs : s.state <;> simp [hs, OspfNeighborState.getValue, OspfNbr.clear]

theorem oneWayReceived_iff (h : Invariant s) :
    Invariant s.oneWayReceived ↔ Harmless a s .oneWayReceived := by
  rw [oneWayReceived_eq, invariant_below (show OspfNeighborState.INIT.getValue < _ by decide)]
  unfold Harmless
  by_cases hlt : s.state.getValue < OspfNeighborState.TWOWAY.getValue
  · have hs := (invariant_below (Nat.lt_trans hlt (by decide))).mp h
    simp only [ge_iff_le, Nat.not_le.mpr hlt, ↓reduceIte, hlt, true_or, iff_true]
    exact hs
  · simp only [ge_iff_le, Nat.not_lt.mp hlt, ↓reduceIte, hlt, false_or]
    constructor
    · rintro ⟨-, -, ht⟩
      exact ht
    · intro ht
      exact ⟨rfl, rfl, ht⟩

/-- Beginning an exchange keeps the invariant, if the timer is started with it and nothing is
requested any more. -/
theorem invariant_begin (isOpaque : Bool) (hl : s.lsReqList.isEmpty = true) (hd : s.ddSummaryList = []) :
    Invariant (s.begin a isOpaque).startRxMtDdTimer ↔ s.rxmtLsrTimerScheduled = false := by
  rw [invariant_exstart rfl]
  constructor
  · rintro ⟨-, -, -, -, ht⟩
    exact ht
  · intro ht
    exact ⟨hl, hd, ⟨_, rfl, rfl, rfl, rfl, rfl⟩, rfl, ht⟩

theorem twoWayReceived_iff (h : Invariant s) :
    Invariant (s.twoWayReceived a) ↔ Harmless a s .twoWayReceived := by
  refine iff_of_true ?_ trivial
  unfold OspfNbr.twoWayReceived
  by_cases hle : s.state.getValue ≤ OspfNeighborState.TWOWAY.getValue
  · have hlt : s.state.getValue < OspfNeighborState.EXSTART.getValue := Nat.lt_succ_of_le hle
    obtain ⟨hl, hd, ht⟩ := (invariant_below hlt).mp h
    simp only [hle, ↓reduceIte]
    split
    · refine (invariant_below ?_).mpr ⟨hl, hd, ht⟩
      exact hlt
    · refine (invariant_begin a _ ?_ ?_).mpr ht
      · exact hl
      · exact hd
    · refine (invariant_below ?_).mpr ⟨hl, hd, ht⟩
      exact (by decide : OspfNeighborState.TWOWAY.getValue < OspfNeighborState.EXSTART.getValue)
  · simp only [hle, ↓reduceIte]
    exact ⟨h.full, h.below, h.exstart, h.lsrTimer⟩

theorem adjOk_iff (h : Invariant s) : Invariant (s.adjOk a) ↔ Harmless a s .adjOk := by
  unfold OspfNbr.adjOk Harmless
  by_cases hp : a.interfaceType = OspfInterfaceType.POINT_TO_POINT.value
  · simp only [hp, ne_eq, not_true_eq_false, ↓reduceIte, true_or, iff_true]
    exact h
  · simp only [hp, ne_eq, not_false_eq_true, ↓reduceIte, false_or]
    by_cases hs : s.state = .TWOWAY
    · have hlt : s.state.getValue < OspfNeighborState.EXSTART.getValue := by
        rw [hs]
        decide
      obtain ⟨hl, hd, ht⟩ := (invariant_below hlt).mp h
      rw [if_pos hs]
      refine iff_of_true ?_ (Or.inl hlt)
      split
      · exact (invariant_begin a _ hl hd).mpr ht
      · exact h
    · rw [if_neg hs]
      by_cases hge : s.state.getValue ≥ OspfNeighborState.EXSTART.getValue
      · have hlt : ¬ s.state.getValue < OspfNeighborState.EXSTART.getValue := Nat.not_lt.mpr hge
        simp only [hge, ↓reduceIte, hlt, false_or]
        by_cases hf : formAdjacencyOrNot a = some false
        · simp only [hf, not_true_eq_false, false_or]
          rw [invariant_below (show OspfNeighborState.TWOWAY.getValue < _ by decide)]
          constructor
          · rintro ⟨-, -, ht⟩
            exact ht
          · intro ht
            exact ⟨rfl, rfl, ht⟩
        · refine iff_of_true ?_ (Or.inl hf)
          split
          · rename_i e
            exact absurd e hf
          · exact h
      · rw [if_neg hge]
        exact iff_of_true h (Or.inl (Nat.not_le.mp hge))

theorem seqNumMismatch_below (s : OspfNbr)
    (hs : s.state.getValue < OspfNeighborState.EXCHANGE.getValue) :
    (s.seqNumMismatch a).1 = s.stopRxMtDdTimer := by
  unfold OspfNbr.seqNumMismatch
  rw [if_neg]
  exact Nat.not_le.mpr hs

theorem seqNumMismatch_restart (s : OspfNbr)
    (hs : OspfNeighborState.EXCHANGE.getValue ≤ s.state.getValue) :
    (s.seqNumMismatch a).1 = s.stopRxMtDdTimer.clear.begin a a.isOpaqueEnabled := by
  unfold OspfNbr.seqNumMismatch
  rw [if_pos]
  exact hs

theorem seqNumMismatch_iff (h : Invariant s) :
    Invariant (s.seqNumMismatch a).1 ↔ Harmless a s .seqNumMismatch := by
  unfold Harmless
  by_cases hlt : s.state.getValue < OspfNeighborState.EXCHANGE.getValue
  · rw [seqNumMismatch_below a s hlt, stopRxMtDdTimer_iff, and_iff_left h]
    cases hs : s.state <;> simp_all [OspfNeighborState.getValue]
  · rw [seqNumMismatch_restart a s (Nat.not_lt.mp hlt)]
    refine iff_of_false (not_invariant_of_timer rfl rfl) ?_
    exact fun hs => hlt (Nat.lt_trans hs (by decide))

theorem processLsas_below (s : OspfNbr) (lsas : List LsaHeader)
    (hs : s.state.getValue < OspfNeighborState.EXCHANGE.getValue) :
    ∃ (l : RequestList) (scheduled : Bool),
      (l.isEmpty = true ↔ s.lsReqList.isEmpty = true ∧
        ∀ h ∈ lsas.takeWhile (¬ IsMismatch a ·), ¬ IsWanted a h) ∧
      s.processLsas a lsas = { s with lsReqList := l, rxmtDdPacketTimerScheduled := scheduled } := by
  obtain ⟨l, hl, heq⟩ := processLsas_eq a s lsas
  rw [heq]
  by_cases hall : ∀ h ∈ lsas, ¬ IsMismatch a h
  · rw [if_pos hall]
    exact ⟨l, _, hl, rfl⟩
  · rw [if_neg hall, seqNumMismatch_below]
    · exact ⟨l, _, hl, rfl⟩
    · exact hs

theorem processLsas_restart (s : OspfNbr) {lsas : List LsaHeader}
    (hs : OspfNeighborState.EXCHANGE.getValue ≤ s.state.getValue)
    (hm : ¬ ∀ h ∈ lsas, ¬ IsMismatch a h) : (s.processLsas a lsas).state = .EXSTART := by
  obtain ⟨l, -, heq⟩ := processLsas_eq a s lsas
  rw [heq, if_neg hm, seqNumMismatch_restart]
  · rfl
  · exact hs

theorem processLsas_all (s : OspfNbr) {lsas : List LsaHeader} (hall : ∀ h ∈ lsas, ¬ IsMismatch a h) :
    ∃ l : RequestList,
      (l.isEmpty = true ↔ s.lsReqList.isEmpty = true ∧ ∀ h ∈ lsas, ¬ IsWanted a h) ∧
      s.processLsas a lsas = { s with lsReqList := l } := by
  obtain ⟨l, hl, heq⟩ := processLsas_eq a s lsas
  rw [List.takeWhile_eq_self_iff.mpr fun h hh => decide_eq_true (hall h hh)] at hl
  rw [if_pos hall] at heq
  exact ⟨l, hl, heq⟩

theorem acceptable_below {state : OspfNeighborState} (lsas : List LsaHeader)
    (hs : state.getValue < OspfNeighborState.EXSTART.getValue) :
    Acceptable a state lsas ↔ ∀ h ∈ lsas.takeWhile (¬ IsMismatch a ·), ¬ IsWanted a h := by
  cases state with
  | DOWN => exact Iff.rfl
  | ATTEMPT => exact Iff.rfl
  | INIT => exact Iff.rfl
  | TWOWAY => exact Iff.rfl
  | EXSTART => exact absurd hs (by decide)
  | EXCHANGE => exact absurd hs (by decide)
  | LOADING => exact absurd hs (by decide)
  | FULL => exact absurd hs (by decide)

theorem acceptable_exchanging {state : OspfNeighborState} (lsas : List LsaHeader)
    (hs : state = .EXCHANGE ∨ state = .LOADING) :
    Acceptable a state lsas ↔ ∀ h ∈ lsas, ¬ IsMismatch a h := by
  obtain rfl | rfl := hs
  · exact Iff.rfl
  · exact Iff.rfl

theorem exchanging_value {state : OspfNeighborState} (hs : state = .EXCHANGE ∨ state = .LOADING) :
    OspfNeighborState.EXCHANGE.getValue ≤ state.getValue := by
  obtain rfl | rfl := hs
  · decide
  · decide

theorem processLsas_iff (h : s.state ≠ .EXSTART → Invariant s) (lsas : List LsaHeader) :
    (s.processLsas a lsas).state ≠ .EXSTART ∧ Invariant (s.processLsas a lsas) ↔
      Acceptable a s.state lsas := by
  obtain hs | hs | hs | hs := phases s
  · have hne : s.state ≠ .EXSTART := fun e => absurd (e ▸ hs) (by decide)
    obtain ⟨hlist, hd, ht⟩ := (invariant_below hs).mp (h hne)
    obtain ⟨l, scheduled, hl, heq⟩ := processLsas_below a s lsas (Nat.lt_trans hs (by decide))
    rw [and_iff_right hlist] at hl
    rw [heq, acceptable_below a lsas hs, and_iff_right hne, invariant_below, hl]
    · exact and_iff_left ⟨hd, ht⟩
    · exact hs
  · obtain ⟨l, scheduled, -, heq⟩ := processLsas_below a s lsas (by rw [hs]; decide)
    rw [heq]
    refine iff_of_false (fun hn => hn.1 hs) ?_
    rw [hs]
    exact not_false
  · rw [acceptable_exchanging a lsas hs]
    have hne : s.state ≠ .EXSTART := fun e => absurd (e ▸ hs) (by decide)
    by_cases hall : ∀ h ∈ lsas, ¬ IsMismatch a h
    · obtain ⟨l, hl, heq⟩ := processLsas_all a s hall
      rw [heq]
      refine iff_of_true ⟨hne, ?_⟩ hall
      apply (invariant_exchanging _).mpr
      rotate_left
      · exact hs
      intro ht
      apply Bool.eq_false_iff.mpr
      intro hempty
      have hsome := (invariant_exchanging hs).mp (h hne) ht
      rw [(hl.mp hempty).1] at hsome
      cases hsome
    · have hstart := processLsas_restart a s (exchanging_value hs) hall
      exact iff_of_false (fun hn => hn.1 hstart) hall
  · have hne : s.state ≠ .EXSTART := fun e => absurd (e ▸ hs) (by decide)
    obtain ⟨hlist, ht⟩ := (invariant_full hs).mp (h hne)
    have hacc : Acceptable a s.state lsas ↔
        (∀ h ∈ lsas, ¬ IsMismatch a h) ∧ ∀ h ∈ lsas, ¬ IsWanted a h := by
      rw [hs]
      exact forall₂_and
    rw [hacc]
    by_cases hall : ∀ h ∈ lsas, ¬ IsMismatch a h
    · obtain ⟨l, hl, heq⟩ := processLsas_all a s hall
      rw [and_iff_right hlist] at hl
      rw [heq, and_iff_right hne, invariant_full, hl, and_iff_right hall]
      · exact and_iff_left ht
      · exact hs
    · have hstart := processLsas_restart a s (by rw [hs]; decide) hall
      exact iff_of_false (fun hn => hn.1 hstart) (fun hn => hall hn.1)

theorem summary_processLsas (h : s.state ≠ .EXSTART → Invariant s) (lsas : List LsaHeader)
    (hlt : (s.processLsas a lsas).state.getValue < OspfNeighborState.EXSTART.getValue) :
    (s.processLsas a lsas).ddSummaryList = [] := by
  by_cases hs : s.state.getValue < OspfNeighborState.EXCHANGE.getValue
  · obtain ⟨l, scheduled, -, heq⟩ := processLsas_below a s lsas hs
    rw [heq] at hlt ⊢
    have hne : s.state ≠ .EXSTART := fun e => absurd (e ▸ hlt) (by decide)
    exact ((h hne).below hs).2
  · exfalso
    by_cases hall : ∀ h ∈ lsas, ¬ IsMismatch a h
    · obtain ⟨l, -, heq⟩ := processLsas_all a s hall
      rw [heq] at hlt
      exact hs (Nat.lt_trans hlt (by decide))
    · rw [processLsas_restart a s (Nat.not_lt.mp hs) hall] at hlt
      exact absurd hlt (by decide)

/-- What comes after the headers of a description, if the neighbor takes them up in a state that
differs from `s` in the number and in what is known of the last packet. -/
theorem continued_iff {t : OspfNbr} (h : Invariant s) (hstate : t.state = s.state)
    (hl : t.lsReqList = s.lsReqList) (ht : t.rxmtLsrTimerScheduled = s.rxmtLsrTimerScheduled)
    (hd : t.ddSummaryList = s.ddSummaryList) (lsas : List LsaHeader) :
    (Invariant ((t.processLsas a lsas).exchangeDone a) ↔ Acceptable a s.state lsas) ∧
      ∀ isMaster, (Invariant ((t.processLsas a lsas).proceed a isMaster) ↔
          Acceptable a s.state lsas) ∧
        (Invariant ((t.processLsas a lsas).proceed a isMaster).startRxMtDdTimer ↔
          Acceptable a s.state lsas) ∧
        (Invariant (((t.processLsas a lsas).proceed a isMaster).exchangeDone a) ↔
          Acceptable a s.state lsas) := by
  have hstart : t.state ≠ .EXSTART → Invariant t := by
    intro hs
    rw [hstate] at hs
    exact (invariant_congr hs hstate hl ht fun _ => by rw [hd]).mpr h
  have hgo := processLsas_iff a hstart lsas
  rw [hstate] at hgo
  refine ⟨(exchangeDone_iff a _).trans hgo, ?_⟩
  intro isMaster
  have hproceed := proceed_iff a (summary_processLsas a hstart lsas) isMaster
  refine ⟨hproceed.1.trans hgo, hproceed.2.trans hgo, ?_⟩
  rw [exchangeDone_iff, proceed_state, hproceed.1, ← hgo]
  exact and_self_left

theorem processDdPacket_iff (h : Invariant s) (neighborIsMaster : Bool) (dataDescPkt : DdPacket) :
    Invariant (s.processDdPacket a neighborIsMaster dataDescPkt) ↔
      Harmless a s (.processDdPacket neighborIsMaster dataDescPkt) := by
  unfold OspfNbr.processDdPacket Harmless
  cases neighborIsMaster with
  | true =>
    simp only [↓reduceIte]
    have hcontinued := continued_iff (t := { s with ddSeqNum := dataDescPkt.sequenceNo })
      a h rfl rfl rfl rfl dataDescPkt.lsaHeaderList
    split
    · exact (hcontinued.2 NOT_MASTER).2.2
    · exact (hcontinued.2 NOT_MASTER).1
  | false =>
    simp only [Bool.false_eq_true, ↓reduceIte]
    have hcontinued :=
      continued_iff (t := { s.stopRxMtDdTimer with ddSeqNum := s.ddSeqNum + 1 })
        a h rfl rfl rfl rfl dataDescPkt.lsaHeaderList
    split
    · exact hcontinued.1
    · exact (hcontinued.2 IS_MASTER).2.1

theorem negotiationDone_iff (h : Invariant s) (neighborIsMaster : Bool) (payload : List LsaHeader) :
    Invariant (s.negotiationDone a neighborIsMaster payload) ↔
      Harmless a s (.negotiationDone neighborIsMaster payload) := by
  unfold OspfNbr.negotiationDone Harmless
  by_cases hs : s.state = .EXSTART
  · have hoff : s.rxmtLsrTimerScheduled ≠ true := by
      rw [lsrTimer_off h (by rw [hs]; decide)]
      decide
    have hbegun : Invariant
        { s.stopRxMtDdTimer with state := .EXCHANGE, ddSummaryList := getLsaHeaders a } :=
      (invariant_exchanging (Or.inl rfl)).mpr fun hon => absurd hon hoff
    have hcontinued := continued_iff a hbegun rfl rfl rfl rfl payload
    have hstop : s.stopRxMtDdTimer.state = .EXSTART := hs
    simp only [hstop, ↓reduceIte, hs, ne_eq, not_true_eq_false, false_or]
    cases neighborIsMaster with
    | true => exact (hcontinued.2 NOT_MASTER).1
    | false => exact (hcontinued.2 IS_MASTER).2.1
  · have hstop : s.stopRxMtDdTimer.state ≠ .EXSTART := hs
    simp only [hstop, ↓reduceIte]
    exact iff_of_true ((stopRxMtDdTimer_iff s).mpr ⟨hs, h⟩) (Or.inl hs)

/-- The timer of the requests is started after an update unless the last request was answered or an
advertisement was not processed to its end. -/
theorem processLsUpdate_eq (s : OspfNbr) {lsaList : List (LsaHeader × Handled)} (hne : lsaList ≠ []) :
    ∃ lastSentLsrPacket, s.processLsUpdate a lsaList =
      let received :=
        processReceivedLsas (s.state = .EXCHANGE ∨ s.state = .LOADING) s.lsReqList lsaList
      let s' := { s.stopRxMtLsrTimer with lsReqList := received.1 }
      if received.2 then
        if received.1.isEmpty ∧ s.state = .LOADING then s'.loadingDone
        else { s' with lastSentLsrPacket := lastSentLsrPacket }.startRxMtLsrTimer
      else s' := by
  obtain ⟨lsRequest, hr⟩ := requests_isSome a { s.stopRxMtLsrTimer with lsReqList :=
    (processReceivedLsas (s.state = .EXCHANGE ∨ s.state = .LOADING) s.lsReqList lsaList).1 }
  refine ⟨some lsRequest, ?_⟩
  have hempty : lsaList.isEmpty = false := by simpa using hne
  unfold OspfNbr.stopRxMtLsrTimer at hr ⊢
  unfold OspfNbr.processLsUpdate OspfNbr.stopRxMtLsrTimer
  simp only [hempty, Bool.false_eq_true, ↓reduceIte, hr]

theorem isEmpty_processed {exchanging : Bool} {l : RequestList} (lsaList : List (LsaHeader × Handled))
    (hl : l.isEmpty = true) : (processReceivedLsas exchanging l lsaList).1.isEmpty = true := by
  apply (isEmpty_iff _).mpr
  intro k
  apply Bool.eq_false_iff.mpr
  intro hk
  have hbefore := containsKey_of_processed exchanging hk
  rw [(isEmpty_iff l).mp hl k] at hbefore
  cases hbefore

theorem invariant_left (h : Invariant s) {l : RequestList}
    (hl : s.lsReqList.isEmpty = true → l.isEmpty = true) :
    Invariant { s.stopRxMtLsrTimer with lsReqList := l } := by
  refine ⟨fun hs => hl (h.full hs), fun hs => ⟨hl (h.below hs).1, (h.below hs).2⟩, h.exstart, ?_⟩
  intro ht
  cases ht

theorem invariant_rerequesting (l : RequestList) (lastSentLsrPacket : Option (List LsRequestPacket)) :
    Invariant { s.stopRxMtLsrTimer with
        lsReqList := l, lastSentLsrPacket := lastSentLsrPacket }.startRxMtLsrTimer ↔
      (s.state = .EXCHANGE ∨ s.state = .LOADING) ∧ l.isEmpty = false :=
  invariant_requesting rfl

theorem processLsUpdate_iff (h : Invariant s) (lsaList : List (LsaHeader × Handled)) :
    Invariant (s.processLsUpdate a lsaList) ↔ Harmless a s (.processLsUpdate lsaList) := by
  unfold Harmless
  by_cases hne : lsaList = []
  · rw [hne]
    exact iff_of_true (invariant_left h fun hl => hl) (Or.inl rfl)
  · obtain ⟨lastSentLsrPacket, heq⟩ := processLsUpdate_eq a s hne
    rw [heq]
    by_cases hend : ∃ e ∈ lsaList, e.2.removeIt = none
    · obtain ⟨e, he, hnone⟩ := hend
      have hno := fun hok => (processed_iff (s.state = .EXCHANGE ∨ s.state = .LOADING) s.lsReqList
        lsaList).mp hok e he hnone
      rw [if_neg hno]
      exact iff_of_true (invariant_left h (isEmpty_processed lsaList)) (Or.inr (Or.inl ⟨e, he, hnone⟩))
    · have hok := (processed_iff (s.state = .EXCHANGE ∨ s.state = .LOADING) s.lsReqList lsaList).mpr
        fun e he hnone => hend ⟨e, he, hnone⟩
      simp only [hok, ↓reduceIte, hne, hend, false_or]
      by_cases hs : s.state = .LOADING
      · refine iff_of_true ?_ (Or.inl hs)
        split
        · rename_i hdone
          exact (invariant_full rfl).mpr ⟨hdone.1, rfl⟩
        · rename_i hmore
          apply (invariant_rerequesting _ _).mpr
          exact ⟨Or.inr hs, Bool.eq_false_iff.mpr fun hempty => hmore ⟨hempty, hs⟩⟩
      · rw [if_neg fun hdone => hs hdone.2]
        refine ((invariant_rerequesting _ _).trans (and_congr_left' (or_iff_left hs))).trans ?_
        rw [or_iff_right hs]
        apply and_congr_right
        intro he
        simp only [he, true_or, decide_true] at hok ⊢
        rw [not_isEmpty_iff]
        exact exists_congr (containsKey_processed_iff hok)

theorem badLSReq_iff (h : Invariant s) : Invariant (s.badLSReq a) ↔ Harmless a s .badLSReq := by
  unfold OspfNbr.badLSReq Harmless
  by_cases hge : s.state.getValue ≥ OspfNeighborState.EXCHANGE.getValue
  · simp only [hge, ↓reduceIte, Nat.not_lt.mpr hge, false_or]
    by_cases hf : s.state = .FULL ∧ ¬ a.refreshes = true
    · rw [if_pos hf]
      exact iff_of_true h ((invariant_full hf.1).mp h).2
    · rw [if_neg hf]
      exact invariant_begin a _ rfl rfl
  · rw [if_neg hge]
    exact iff_of_true h (Or.inl (Nat.not_le.mp hge))

theorem neighborDown_iff : Invariant (s.neighborDown a) ↔ Harmless a s .neighborDown := by
  unfold OspfNbr.neighborDown Harmless
  cases a.refreshes with
  | true =>
    refine iff_of_true ?_ (Or.inl rfl)
    refine (invariant_below ?_).mpr ⟨rfl, rfl, rfl⟩
    exact (by decide : OspfNeighborState.DOWN.getValue < OspfNeighborState.EXSTART.getValue)
  | false =>
    simp only [Bool.false_eq_true, ↓reduceIte, false_or]
    rw [invariant_below]
    · exact ⟨fun h => ⟨h.1, h.2.1⟩, fun h => ⟨h.1, h.2, rfl⟩⟩
    · exact (by decide : OspfNeighborState.DOWN.getValue < OspfNeighborState.EXSTART.getValue)

theorem step_iff (h : Invariant s) (e : Event) : Invariant (s.step a e) ↔ Harmless a s e := by
  cases e with
  | oneWayReceived => exact oneWayReceived_iff a h
  | twoWayReceived => exact twoWayReceived_iff a h
  | adjOk => exact adjOk_iff a h
  | negotiationDone neighborIsMaster payload => exact negotiationDone_iff a h neighborIsMaster payload
  | processDdPacket neighborIsMaster dataDescPkt =>
    exact processDdPacket_iff a h neighborIsMaster dataDescPkt
  | exchangeDone => exact (exchangeDone_iff a s).trans (and_iff_left h)
  | processLsUpdate lsaList => exact processLsUpdate_iff a h lsaList
  | seqNumMismatch => exact seqNumMismatch_iff a h
  | badLSReq => exact badLSReq_iff a h
  | neighborDown => exact neighborDown_iff a

end Events

/-- The runs that keep the invariant throughout are those of harmless events. -/
theorem invariant_throughout_iff (ddSeqNum : BitVec 64) (es : List (Surroundings × Event)) :
    (∀ es', es' <+: es → Invariant ((machine ddSeqNum).run (.initial ddSeqNum) es')) ↔
      ((machine ddSeqNum).guarded fun s e => Harmless e.1 s e.2).Valid (.initial ddSeqNum) es :=
  invariant_iff Invariant (fun _ e h _ => step_iff e.1 h e.2)
    (valid_of_enabled (fun _ _ => trivial) _ _) (invariant_initial ddSeqNum)

/-- An area without advertisements, and the interface of a link to one neighbor. -/
def quietSurroundings : Surroundings where
  interfaceType := OspfInterfaceType.POINT_TO_POINT.value
  ipAddress := ⟨10, 0, 0, 1⟩
  mtu := 1500
  neighborIpAddr := ⟨10, 0, 0, 2⟩
  neighborDr := none
  neighborBdr := none
  isOpaqueCapable := false
  isOpaqueEnabled := false
  opaqueEnabledOptions := 66
  options := 2
  isExternalRoutingCapability := true
  database := .initial ⟨0, 0, Nat.zero_le _⟩
  order := ⟨fun m => m.entries.map fun e => (e.1, e.2), fun _ => .refl _⟩
  refreshes := true

/-- After a mismatch in the exchange nothing sends the initial packet again. -/
theorem stuck_after_mismatch : ¬ ∀ (ddSeqNum : BitVec 64) (es : List (Surroundings × Event)),
      Invariant ((machine ddSeqNum).run (.initial ddSeqNum) es) := by
  intro h
  have hinv := h 0 [(quietSurroundings, .twoWayReceived),
    (quietSurroundings, .negotiationDone true []), (quietSurroundings, .seqNumMismatch)]
  exact not_invariant_of_timer rfl rfl hinv

end NeighborMachine

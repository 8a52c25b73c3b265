import Onos.LsUpdates

/-! What becomes of an advertisement that a neighbor sends: it is discarded, acknowledged, flooded
or installed, or the router answers with an advertisement of its own. -/
namespace ReceivedLsas

open LinkStateDatabase LinkStateHeaders
open LsUpdates (OspfInterfaceState)

def MINLSARRIVAL : ℤ := 1

def MAXSEQUENCENUMBER : ℤ := 2147483647

inductive Effect where
  | directAcknowledge (ackLsa : LsaHeader)
  | addLsaHeaderForDelayAck (lsaHeader : LsaHeader)
  | addToOtherNeighborLsaTxList (recLsa : LsaHeader)
  | sendLsa (lsa : LsaHeader)
  | removePending (key : String)

inductive Thrown where
  | nullPointer
  | topology
  deriving DecidableEq, Repr

structure Outcome where
  database : OspfLsdb
  effects : List Effect
  thrown : Option Thrown

def Outcome.returned (s : OspfLsdb) (effects : List Effect) : Outcome := ⟨s, effects, none⟩

def Outcome.andThen (o : Outcome) (next : OspfLsdb → Outcome) : Outcome :=
  match o.thrown with
  | some _ => o
  | none =>
    let after := next o.database
    ⟨after.database, o.effects ++ after.effects, after.thrown⟩

/-- What a neighbor finds when it is called: its area and its interface, and itself. The length and
the checksum of an advertisement of the router itself come from its body, where that can be built,
and the component for devices and links throws for some advertisements. -/
structure Surroundings where
  isValidLsaCheckSum : LsaHeader → Bool
  routerId : Ip4Address
  options : ℤ
  externalRoutingCapability : Bool
  ospfInterfaceList : List Ip4Address
  noNeighborInLsaExchangeProcess : Bool
  state : OspfInterfaceState
  ipAddress : Ip4Address
  hasNeighbors : Bool
  neighborDr : Option Ip4Address
  sourceIp : Ip4Address
  pendingReTxList : List String
  encode : LsaHeader → Option (ℤ × ℤ)
  addLocalDevice : LsaHeader → Bool
  callDeviceAndLinkAdding : List LsaHeader → Bool

section Refreshing

variable (c : Surroundings) (s : OspfLsdb)

/-- An advertisement of the router itself, or null where its body cannot be built. -/
def encoded (lsa : LsaHeader) : Option LsaHeader :=
  (c.encode lsa).map fun e => { lsa with lsPacketLen := e.1, lsCheckSum := e.2 }

def buildNetworkLsa : Option LsaHeader :=
  encoded c
    { age := 1
      options := 2
      lsType := OspfLsaType.NETWORK.value
      linkStateId := c.ipAddress.text
      opaqueType := 0
      opaqueId := 0
      advertisingRouter := c.routerId
      lsSequenceNo := s.networkLsaSeqNo
      lsCheckSum := 0
      lsPacketLen := 0 }

def buildRouterLsa : Option LsaHeader :=
  encoded c
    { age := 1
      options := c.options
      lsType := OspfLsaType.ROUTER.value
      linkStateId := c.routerId.text
      opaqueType := 0
      opaqueId := 0
      advertisingRouter := c.routerId
      lsSequenceNo := s.routerLsaSeqNo
      lsCheckSum := 0
      lsPacketLen := 0 }

def installOwn (lsa : Option LsaHeader) : Outcome :=
  match lsa with
  | some lsa => .returned (s.addLsa lsa true) [.addToOtherNeighborLsaTxList lsa]
  | none => ⟨s, [], some .nullPointer⟩

def refreshNetwork : Outcome :=
  if c.state = .DR ∧ c.hasNeighbors then
    installOwn { s with networkLsaSeqNo := s.networkLsaSeqNo + 1 } (buildNetworkLsa c s)
  else .returned s []

def refreshRouter : Outcome :=
  installOwn { s with routerLsaSeqNo := s.routerLsaSeqNo + 1 } (buildRouterLsa c s)

def refreshArea : Outcome := (refreshNetwork c s).andThen (refreshRouter c)

end Refreshing

section Receiving

variable (c : Surroundings) (s : OspfLsdb) (lsWrapper : Option Ref) (recLsa : LsaHeader)

def isLinkStateMatchesOwnRouterId (linkStateId : String) : Bool :=
  c.ospfInterfaceList.any fun ipAddress => ipAddress.text = linkStateId

def isNullorLatest : Newness :=
  match lsWrapper with
  | none => .latest
  | some r => isNewerOrSameLsa recLsa (s.lsaHeader r)

def retire (r : Ref) : OspfLsdb := (s.addLsaToMaxAgeBin r).removeLsaFromBin r

def addDevices (lsas : List LsaHeader) : Outcome :=
  if lsas.all c.addLocalDevice ∧ c.callDeviceAndLinkAdding lsas then .returned s []
  else ⟨s, [], some .topology⟩

def addLsaToHeaderList (t : OspfLsaType) : List LsaHeader :=
  (s.lsas t).entries.filterMap fun e =>
    let header := s.lsaHeader e.2
    if header.age ≠ MAXAGE ∧ s.lsdbAge.maxAgeBin.lookup (getLsaKey header) = none then some header
    else none

/-- Router and network advertisements of the database that are not of age MaxAge. -/
def constructDeviceInformationFromDb : Outcome :=
  addDevices c s (addLsaToHeaderList s .ROUTER ++ addLsaToHeaderList s .NETWORK)

/-- On the interface of a backup router an advertisement is acknowledged if the address is the one
of the designated router. -/
def acknowledgeAtBdr (address : Ip4Address) : Outcome :=
  match c.neighborDr with
  | none => ⟨s, [], some .nullPointer⟩
  | some neighborDr =>
    .returned s (if neighborDr = address then [.addLsaHeaderForDelayAck recLsa] else [])

/-- An advertisement of this router. The age that is set in the stored header is computed again
when the header is read for its key. -/
def receiveOwnRouterLsa : Outcome :=
  match lsWrapper with
  | none => ⟨s, [], some .nullPointer⟩
  | some r =>
    let refreshed := if recLsa.lsSequenceNo > (s.lsaHeader r).lsSequenceNo then
        refreshArea c { s with routerLsaSeqNo := recLsa.lsSequenceNo + 1 }
      else .returned s []
    refreshed.andThen fun s => .returned (if recLsa.age = MAXAGE then retire s r else s) []

def receiveOwnNetworkLsa : Outcome :=
  if c.state ≠ .DR ∨ recLsa.advertisingRouter ≠ c.routerId then
    match lsWrapper with
    | some r => .returned (retire s r) []
    | none => .returned s [.addToOtherNeighborLsaTxList (recLsa.setAge MAXAGE)]
  else .returned s []

def receiveMaxAgeLsa : Outcome :=
  match lsWrapper with
  | some r =>
    .returned (retire (s.setLsaAgeReceived r MAXAGE) r) [.addLsaHeaderForDelayAck recLsa]
  | none =>
    .returned s [.addLsaHeaderForDelayAck recLsa, .addToOtherNeighborLsaTxList recLsa]

def installReceived : Outcome :=
  (addDevices c (s.addLsa recLsa false) [recLsa]).andThen fun s =>
    (if c.state = .BDR then acknowledgeAtBdr c s recLsa c.sourceIp
      else .returned s [.addLsaHeaderForDelayAck recLsa]).andThen fun s =>
    (Outcome.returned s (if c.state = .DR ∨ c.state = .POINT2POINT then
      [.addToOtherNeighborLsaTxList recLsa] else [])).andThen (constructDeviceInformationFromDb c)

def receiveLatest : Outcome :=
  if recLsa.lsType = OspfLsaType.ROUTER.value ∧ recLsa.advertisingRouter = c.routerId then
    receiveOwnRouterLsa c s lsWrapper recLsa
  else if recLsa.lsType = OspfLsaType.NETWORK.value ∧
      isLinkStateMatchesOwnRouterId c recLsa.linkStateId then
    receiveOwnNetworkLsa c s lsWrapper recLsa
  else if recLsa.age = MAXAGE then receiveMaxAgeLsa s lsWrapper recLsa
  else installReceived c s recLsa

def receiveSame : Outcome :=
  if getLsaKey recLsa ∈ c.pendingReTxList then
    ((Outcome.returned s [.removePending (getLsaKey recLsa)]).andThen fun s =>
      if c.state = .BDR then acknowledgeAtBdr c s recLsa recLsa.advertisingRouter
      else .returned s []).andThen (constructDeviceInformationFromDb c)
  else .returned s [.directAcknowledge recLsa]

def receiveOld : Outcome :=
  if recLsa.lsSequenceNo = MAXSEQUENCENUMBER ∧ recLsa.age = MAXAGE then .returned s []
  else
    match lsWrapper with
    | none => ⟨s, [], some .nullPointer⟩
    | some r =>
      (Outcome.returned s (if |(s.wrappers r).lsaAgeReceived - recLsa.age| > MINLSARRIVAL then
        [.sendLsa (s.lsaHeader r)] else [])).andThen (constructDeviceInformationFromDb c)

/-- The advertisement fails a check before its instance in the database is looked at. -/
def IsDiscarded : Prop :=
  c.isValidLsaCheckSum recLsa = false ∨
    ((recLsa.getOspfLsaType.value > OspfLsaType.EXTERNAL_LSA.value ∧
        recLsa.getOspfLsaType.value < OspfLsaType.LINK_LOCAL_OPAQUE_LSA.value) ∨
      recLsa.getOspfLsaType.value > OspfLsaType.AS_OPAQUE_LSA.value) ∨
    (recLsa.getOspfLsaType = .EXTERNAL_LSA ∧ c.externalRoutingCapability = false)

instance : Decidable (IsDiscarded c recLsa) := by
  unfold IsDiscarded
  infer_instance

def IsUnrequested : Prop :=
  recLsa.age = MAXAGE ∧ s.lsaLookup recLsa = none ∧ c.noNeighborInLsaExchangeProcess = true

instance : Decidable (IsUnrequested c s recLsa) := by
  unfold IsUnrequested
  infer_instance

/-- The request list holds headers under their keys, so the key is never one of its values and no
bad request is told. -/
def processReceivedLsa : Outcome :=
  if IsDiscarded c recLsa then .returned s []
  else if IsUnrequested c s recLsa then .returned s [.directAcknowledge recLsa]
  else
    match isNullorLatest s (s.lsaLookup recLsa) recLsa with
    | .latest => receiveLatest c s (s.lsaLookup recLsa) recLsa
    | .same => receiveSame c s recLsa
    | .old => receiveOld c s (s.lsaLookup recLsa) recLsa

end Receiving

end ReceivedLsas

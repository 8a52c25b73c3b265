import Onos.Lib.KeyedMap
import Onos.Lib.InputMachine
import Mathlib.Data.List.MinMax
import Mathlib.Data.List.Perm.Subperm

/-! What one node of the gossiping device store holds about one device, and how it handles the
messages of its peers about it. Timestamps are arbitrary and totally ordered. The hash map of
the descriptions lists its providers in an order that only depends on the order in which they
were added. The events for the local delegate are left out. -/
namespace DeviceStoreReplica

open KeyedMap InputMachine

structure ProviderId where
  scheme : String
  id : String
  ancillary : Bool
  deriving DecidableEq, Repr

def ProviderId.isAncillary (p : ProviderId) : Bool := p.ancillary

inductive DeviceType where
  | SWITCH | ROUTER | ROADM | OTN | ROADM_OTN | FIREWALL | BALANCER | IPS | IDS | CONTROLLER
  | VIRTUAL | FIBER_SWITCH | MICROWAVE | OLT | ONU | OPTICAL_AMPLIFIER | OLS | TERMINAL_DEVICE
  | OTHER | SERVER
  deriving DecidableEq, Repr

inductive PortType where
  | COPPER | FIBER | PACKET | ODUCLT | OCH | OMS | VIRTUAL | OTU
  deriving DecidableEq, Repr

abbrev SparseAnnotations := Table String (Option String)

def putAllSparseAnnotations (newMap sparseAnnotations : SparseAnnotations) : SparseAnnotations :=
  sparseAnnotations.entries.foldl (fun newMap e => match e.2 with
    | none => if (newMap.lookup e.1).isSome then newMap.erase e.1 else newMap.insert e.1 none
    | some value => newMap.insert e.1 (some value)) newMap

def union (annotations sparseAnnotations : SparseAnnotations) : SparseAnnotations :=
  if sparseAnnotations.keys.isEmpty then annotations
  else if annotations.keys.isEmpty then sparseAnnotations
  else putAllSparseAnnotations annotations sparseAnnotations

def putAll (builder base : SparseAnnotations) : SparseAnnotations :=
  base.entries.foldl (fun builder e => builder.insert e.1 e.2) builder

def compress (original : SparseAnnotations) : SparseAnnotations :=
  original.entries.foldl (fun compressed e => match e.2 with
    | none => compressed
    | some value => compressed.insert e.1 (some value)) ∅

def isEqual (lhs rhs : SparseAnnotations) : Bool :=
  (lhs.keys ++ rhs.keys).all fun key => lhs.lookup key = rhs.lookup key

structure DeviceDescription where
  type : DeviceType
  manufacturer : String
  hwVersion : String
  swVersion : String
  serialNumber : String
  chassisId : ℕ
  isDefaultAvailable : Bool
  annotations : SparseAnnotations

structure PortDescription (N : Type*) where
  portNumber : N
  isEnabled : Bool
  isRemoved : Bool
  type : PortType
  portSpeed : ℕ
  annotations : SparseAnnotations

structure Device where
  providerId : ProviderId
  type : DeviceType
  manufacturer : String
  hwVersion : String
  swVersion : String
  serialNumber : String
  chassisId : ℕ
  annotations : SparseAnnotations

structure Port (N : Type*) where
  number : N
  isEnabled : Bool
  type : PortType
  portSpeed : ℕ
  annotations : SparseAnnotations

structure Timestamped (T α : Type*) where
  value : α
  timestamp : T

structure DeviceDescriptions (T N : Type*) where
  deviceDesc : Timestamped T DeviceDescription
  portDescs : Table N (Timestamped T (PortDescription N))

structure Replica (T N : Type*) where
  deviceDescs : Table ProviderId (DeviceDescriptions T N)
  devices : Option Device
  devicePorts : Table N (Port N)
  availableDevices : Bool
  offline : Option T
  removalRequest : Option T

inductive Message (T N : Type*) where
  | deviceEvent (providerId : ProviderId) (deviceDescription : Timestamped T DeviceDescription)
  | deviceRemovedEvent (timestamp : T)
  | deviceStatusChangeEvent (timestamp : T) (available : Bool)
  | portEvent (providerId : ProviderId)
    (portDescriptions : Timestamped T (List (PortDescription N)))

structure HashOrder where
  order : List ProviderId → List ProviderId
  perm : ∀ keys, (order keys).Perm keys

variable {T N : Type*} [LinearOrder T] [DecidableEq N]

namespace DeviceDescriptions

def getLatestTimestamp (d : DeviceDescriptions T N) : T :=
  d.portDescs.entries.foldl (fun latest e =>
    if latest < e.2.timestamp then e.2.timestamp else latest) d.deviceDesc.timestamp

def getPortDesc (d : DeviceDescriptions T N) (number : N) :
    Option (Timestamped T (PortDescription N)) := d.portDescs.lookup number

def putDeviceDesc (d : DeviceDescriptions T N) (newDesc : Timestamped T DeviceDescription) :
    DeviceDescriptions T N :=
  let merged := union d.deviceDesc.value.annotations newDesc.value.annotations
  { d with deviceDesc := ⟨{ newDesc.value with annotations := merged }, newDesc.timestamp⟩ }

def putPortDesc (d : DeviceDescriptions T N) (newDesc : Timestamped T (PortDescription N)) :
    DeviceDescriptions T N :=
  let newOne := match d.portDescs.lookup newDesc.value.portNumber with
    | none => newDesc
    | some oldOne =>
      let merged := union oldOne.value.annotations newDesc.value.annotations
      ⟨{ newDesc.value with annotations := merged }, newDesc.timestamp⟩
  { d with portDescs := store d.portDescs newOne.value.portNumber newOne }

def removePortDesc (d : DeviceDescriptions T N) (portNumber : N) : DeviceDescriptions T N :=
  { d with portDescs := d.portDescs.erase portNumber }

end DeviceDescriptions

namespace Replica

variable (hash : HashOrder)

def pickPrimaryPid (s : Replica T N) : Option ProviderId :=
  let providers := hash.order s.deviceDescs.keys
  (providers.find? fun p => !p.isAncillary).or providers.head?

def getPrimaryDescriptions (s : Replica T N) : Option (DeviceDescriptions T N) :=
  (s.pickPrimaryPid hash).bind s.deviceDescs.lookup

section

omit [LinearOrder T] [DecidableEq N]

theorem pickPrimaryPid_cases (s : Replica T N) :
    (s.deviceDescs.keys = [] ∧ s.pickPrimaryPid hash = none) ∨
      ∃ p ∈ s.deviceDescs.keys, s.pickPrimaryPid hash = some p := by
  have hperm := hash.perm s.deviceDescs.keys
  unfold pickPrimaryPid
  cases hfind : (hash.order s.deviceDescs.keys).find? fun p => !p.isAncillary with
  | some p =>
    refine Or.inr ⟨p, hperm.subset (List.mem_of_find?_eq_some hfind), ?_⟩
    dsimp only
    rw [hfind, Option.some_or]
  | none =>
    cases horder : hash.order s.deviceDescs.keys with
    | nil =>
      rw [horder] at hperm
      refine Or.inl ⟨hperm.nil_eq.symm, ?_⟩
      dsimp only
      rw [← horder, hfind, horder]
      rfl
    | cons p providers =>
      rw [horder] at hperm
      refine Or.inr ⟨p, hperm.subset List.mem_cons_self, ?_⟩
      dsimp only
      rw [← horder, hfind, horder]
      rfl

theorem getPrimaryDescriptions_cases (s : Replica T N) :
    (s.deviceDescs.keys = [] ∧ s.getPrimaryDescriptions hash = none) ∨
      ∃ p d, s.deviceDescs.lookup p = some d ∧ s.getPrimaryDescriptions hash = some d := by
  unfold getPrimaryDescriptions
  rcases s.pickPrimaryPid_cases hash with ⟨hkeys, hpick⟩ | ⟨p, hp, hpick⟩
  · exact Or.inl ⟨hkeys, by rw [hpick]; rfl⟩
  · obtain ⟨d, hd⟩ := (mem_keys_iff _ p).mp hp
    exact Or.inr ⟨p, d, hd, by rw [hpick]; exact hd⟩

end

def isDeviceRemoved (s : Replica T N) (timestampToCheck : T) : Bool :=
  match s.removalRequest with
  | none => false
  | some removalTimestamp => decide (timestampToCheck < removalTimestamp)

section

omit [DecidableEq N]

theorem isDeviceRemoved_iff {s : Replica T N} {t : T} :
    s.isDeviceRemoved t ↔ ∃ r, s.removalRequest = some r ∧ t < r := by
  unfold isDeviceRemoved
  cases s.removalRequest with
  | none => simp
  | some r => simp

theorem isDeviceRemoved_congr {s s' : Replica T N} (h : s'.removalRequest = s.removalRequest)
    (t : T) : s'.isDeviceRemoved t = s.isDeviceRemoved t := by
  unfold isDeviceRemoved
  rw [h]

end

def composeDevice (s : Replica T N) : Option Device :=
  (s.pickPrimaryPid hash).bind fun primary =>
    (s.deviceDescs.lookup primary).map fun (desc : DeviceDescriptions T N) =>
      let base := desc.deviceDesc.value
      let others := (hash.order s.deviceDescs.keys).filter fun p => p ≠ primary
      let annotations := others.foldl (fun annotations p => match s.deviceDescs.lookup p with
        | none => annotations
        | some d => putAll annotations d.deviceDesc.value.annotations) (putAll ∅ base.annotations)
      { providerId := primary, type := base.type, manufacturer := base.manufacturer,
        hwVersion := base.hwVersion, swVersion := base.swVersion,
        serialNumber := base.serialNumber, chassisId := base.chassisId,
        annotations := compress annotations }

/-- The port as the primary provider describes it, unless another one has done so since. It is
enabled if the primary provider says so. -/
def composePort (s : Replica T N) (number : N) : Option (Port N) :=
  (s.pickPrimaryPid hash).bind fun primary =>
    (s.deviceDescs.lookup primary).map fun (primDescs : DeviceDescriptions T N) =>
      let portDesc := primDescs.getPortDesc number
      let isEnabled := portDesc.any fun desc => desc.value.isEnabled
      let build (description : PortDescription N) (annotations : SparseAnnotations) : Port N := {
        number := number, isEnabled := isEnabled, type := description.type,
        portSpeed := description.portSpeed, annotations := annotations }
      let others := (hash.order s.deviceDescs.keys).filter fun p => p ≠ primary
      let (annotations, _, updated) := others.foldl (fun (annotations, newest, updated) p =>
        match (s.deviceDescs.lookup p).bind fun d => d.getPortDesc number with
        | none => (annotations, newest, updated)
        | some other =>
          if newest.any fun t => other.timestamp < t then (annotations, newest, updated)
          else
            let annotations := putAll annotations other.value.annotations
            (annotations, some other.timestamp, some (build other.value annotations)))
        (((portDesc.map fun desc => putAll ∅ desc.value.annotations).getD ∅,
          portDesc.map Timestamped.timestamp, none) :
          SparseAnnotations × Option T × Option (Port N))
      match updated, portDesc with
      | some port, _ => port
      | none, some desc => build desc.value annotations
      | none, none => {
        number := number, isEnabled := false, type := .COPPER, portSpeed := 1000,
        annotations := annotations }

def markOfflineInternal (s : Replica T N) (timestamp : T) : Replica T N :=
  let outdated := match s.getPrimaryDescriptions hash with
    | none => false
    | some primDescs => decide (timestamp ≤ primDescs.getLatestTimestamp)
  if outdated then s
  else { s with offline := some timestamp, availableDevices := false }

def markOnlineInternal (s : Replica T N) (timestamp : T) : Replica T N :=
  if s.devices.isSome then
    if s.offline.all fun offlineTimestamp => offlineTimestamp < timestamp then
      { s with offline := none, availableDevices := true }
    else s
  else s

def createDevice (s : Replica T N) (providerId : ProviderId) (newDevice : Device)
    (timestamp : T) : Replica T N :=
  let s := { s with devices := some newDevice }
  if providerId.isAncillary then s else s.markOnlineInternal timestamp

def registerDevice (s : Replica T N) (providerId : ProviderId) (newDevice : Device)
    (timestamp : T) : Replica T N :=
  let s := { s with devices := some newDevice }
  if providerId.isAncillary then s else s.markOfflineInternal hash timestamp

def updateDevice (s : Replica T N) (providerId : ProviderId) (oldDevice newDevice : Device)
    (newTimestamp : T) (forceAvailable : Bool) : Replica T N :=
  let propertiesChanged := oldDevice.hwVersion ≠ newDevice.hwVersion ∨
    oldDevice.swVersion ≠ newDevice.swVersion ∨ oldDevice.providerId ≠ newDevice.providerId ∨
    oldDevice.chassisId ≠ newDevice.chassisId ∨
    oldDevice.serialNumber ≠ newDevice.serialNumber ∨
    oldDevice.manufacturer ≠ newDevice.manufacturer
  let annotationsChanged := !isEqual oldDevice.annotations newDevice.annotations
  let s := if (providerId.isAncillary ∧ annotationsChanged) ∨
      (¬ providerId.isAncillary ∧ (propertiesChanged ∨ annotationsChanged)) then
    { s with devices := some newDevice }
  else s
  if ¬ providerId.isAncillary ∧ forceAvailable then s.markOnlineInternal newTimestamp else s

def createOrUpdateDeviceInternal (s : Replica T N) (providerId : ProviderId)
    (deltaDesc : Timestamped T DeviceDescription) : Replica T N :=
  if s.isDeviceRemoved deltaDesc.timestamp then s
  else
    let existing := s.deviceDescs.lookup providerId
    let descs := existing.getD ⟨deltaDesc, ∅⟩
    if existing.all fun d => d.deviceDesc.timestamp < deltaDesc.timestamp then
      let s := { s with
        deviceDescs := store s.deviceDescs providerId (descs.putDeviceDesc deltaDesc) }
      match s.composeDevice hash, s.devices with
      | none, _ => s
      | some newDevice, none =>
        if deltaDesc.value.isDefaultAvailable then
          s.createDevice providerId newDevice deltaDesc.timestamp
        else s.registerDevice hash providerId newDevice deltaDesc.timestamp
      | some newDevice, some oldDevice => s.updateDevice providerId oldDevice newDevice
          deltaDesc.timestamp deltaDesc.value.isDefaultAvailable
    else s

def removeDeviceInternal (s : Replica T N) (timestamp : T) : Replica T N :=
  match s.getPrimaryDescriptions hash with
  | none => s
  | some primDescs =>
    if timestamp ≤ primDescs.getLatestTimestamp then s
    else
      let s := { s with
        removalRequest := some timestamp, devices := none, deviceDescs := ∅, devicePorts := ∅ }
      let s := s.markOfflineInternal hash timestamp
      { s with offline := none }

def removePort (s : Replica T N) (portNumber : N) (providerId : ProviderId) : Replica T N :=
  let deviceDescs := match s.deviceDescs.lookup providerId with
    | none => s.deviceDescs
    | some descs => store s.deviceDescs providerId (descs.removePortDesc portNumber)
  { s with devicePorts := s.devicePorts.erase portNumber, deviceDescs := deviceDescs }

def createPort (s : Replica T N) (newPort : Port N) : Replica T N :=
  { s with devicePorts := s.devicePorts.insert newPort.number newPort }

def updatePort (s : Replica T N) (oldPort newPort : Port N) : Replica T N :=
  if oldPort.isEnabled ≠ newPort.isEnabled ∨ oldPort.type ≠ newPort.type ∨
      oldPort.portSpeed ≠ newPort.portSpeed ∨
      ¬ isEqual oldPort.annotations newPort.annotations then
    { s with devicePorts := s.devicePorts.insert oldPort.number newPort }
  else s

def processPort (s : Replica T N) (providerId : ProviderId) (newTimestamp : T)
    (portDescription : PortDescription N) : Replica T N :=
  match s.deviceDescs.lookup providerId with
  | none => s
  | some descs =>
    let number := portDescription.portNumber
    let oldPort := s.devicePorts.lookup number
    let isRemoved := portDescription.isRemoved
    if (descs.getPortDesc number).all fun existing => existing.timestamp ≤ newTimestamp then
      let newDescs := descs.putPortDesc ⟨portDescription, newTimestamp⟩
      let s := { s with deviceDescs := store s.deviceDescs providerId newDescs }
      match s.composePort hash number, oldPort with
      | none, _ => s
      | some newPort, none => if isRemoved then s else s.createPort newPort
      | some newPort, some oldPort =>
        if isRemoved then s.removePort oldPort.number providerId else s.updatePort oldPort newPort
    else s

def pruneOldPorts (s : Replica T N) (processed : List N) : Replica T N :=
  { s with devicePorts := s.devicePorts.entries.foldl (fun ports e =>
      if e.1 ∈ processed then ports else ports.erase e.1) s.devicePorts }

def updatePortsInternal (s : Replica T N) (providerId : ProviderId)
    (portDescriptions : Timestamped T (List (PortDescription N))) : Replica T N :=
  if s.devices.isNone ∨ s.isDeviceRemoved portDescriptions.timestamp ∨
      (s.deviceDescs.lookup providerId).isNone then s
  else
    let s := portDescriptions.value.foldl (fun s portDescription =>
      s.processPort hash providerId portDescriptions.timestamp portDescription) s
    s.pruneOldPorts (portDescriptions.value.map PortDescription.portNumber)

def handle (s : Replica T N) : Message T N → Replica T N
  | .deviceEvent providerId deviceDescription =>
    s.createOrUpdateDeviceInternal hash providerId deviceDescription
  | .deviceRemovedEvent timestamp => s.removeDeviceInternal hash timestamp
  | .deviceStatusChangeEvent timestamp available =>
    if available then s.markOnlineInternal timestamp else s.markOfflineInternal hash timestamp
  | .portEvent providerId portDescriptions =>
    s.updatePortsInternal hash providerId portDescriptions

end Replica

section Orders

theorem perm_ending {α : Type*} (ms last : List α) (hlast : last ⊆ ms) (hnodup : last.Nodup) :
    ∃ before, (before ++ last).Perm ms := by
  obtain ⟨sorted, hsorted, hsub⟩ := List.subperm_of_subset hnodup hlast
  obtain ⟨before, hbefore⟩ := hsub.exists_perm_append
  exact ⟨before, List.perm_append_comm.trans ((hsorted.symm.append_right _).trans hbefore.symm)⟩

omit [DecidableEq N] in
theorem exists_latest {α : Type*} (timestamp : α → T) {ms : List α} (h : ms ≠ []) :
    ∃ m ∈ ms, ∀ m' ∈ ms, timestamp m' ≤ timestamp m := by
  cases hmax : ms.argmax timestamp with
  | none => exact absurd (List.argmax_eq_none.mp hmax) h
  | some m => exact ⟨m, List.argmax_mem hmax, fun _ hm' => List.le_of_mem_argmax hm' hmax⟩

end Orders

def Message.timestamp : Message T N → T
  | .deviceEvent _ deviceDescription => deviceDescription.timestamp
  | .deviceRemovedEvent timestamp => timestamp
  | .deviceStatusChangeEvent timestamp _ => timestamp
  | .portEvent _ portDescriptions => portDescriptions.timestamp

def unknownDevice : Replica T N := ⟨∅, none, ∅, false, none, none⟩

def replicaMachine (hash : HashOrder) : Machine (Replica T N) (Message T N) where
  initial := unknownDevice
  enabled _ _ := True
  next s m := s.handle hash m

section Regression

def openflow : ProviderId := ⟨"of", "openflow", false⟩

def switchDescription : DeviceDescription :=
  ⟨.SWITCH, "vendor", "1", "1", "0", 1, true, ∅⟩

def insertionOrder : HashOrder := ⟨id, fun _ => List.Perm.refl _⟩

def update (timestamp : ℕ) : Message ℕ ℕ := .deviceEvent openflow ⟨switchDescription, timestamp⟩

def announced : Replica ℕ ℕ := unknownDevice.handle insertionOrder (update 0)

theorem entries_announced : announced.deviceDescs.entries =
    [⟨openflow, (⟨⟨switchDescription, 0⟩, ∅⟩ : DeviceDescriptions ℕ ℕ)⟩] := by
  rfl

end Regression

end DeviceStoreReplica

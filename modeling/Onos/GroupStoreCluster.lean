import Onos.GroupStoreSteps

/-! The group stores of all nodes for one device. The key map and the table of the requests that
wait for the audit are shared. Everything else is each node's own, the status of the audit too. A
request on a node that is not the master goes to the master as a message. -/
namespace GroupStore

open KeyedMap FedIndex InputMachine

structure Node (τ κ : Type) where
  idTable : Table GroupId (StoredGroup τ κ)
  events : List (Change κ (StoredGroup τ κ))
  extraneous : Table GroupId (Group τ)
  deviceAuditStatus : Option Bool
  groupIdGen : GroupId
  notified : List (GroupEvent τ κ)

/-- A message under way is for the node that was the master when it was sent. -/
structure Cluster (ν τ κ : Type) where
  keyMap : Table κ (StoredGroup τ κ)
  pendingKeyTable : Table κ (GroupDescription τ κ)
  nodes : ν → Node τ κ
  master : Option ν
  messages : List (ν × GroupDescription τ κ)

inductive Action (ν τ κ : Type) where
  | storeGroupDescription (n : ν) (groupDesc : GroupDescription τ κ)
  | process (i : ℕ)
  | mastershipChanged (master : Option ν)
  | deviceInitialAuditCompleted (n : ν) (completed : Bool)
  | pushGroupMetrics (n : ν) (isAvailable : Bool) (groupEntries : List (Group τ))
  | receive (n : ν)
  | takeId (n : ν) (id : GroupId)

namespace Cluster

variable {ν τ κ : Type}

def empty : Cluster ν τ κ := ⟨∅, ∅, fun _ => ⟨∅, [], ∅, none, 0, []⟩, none, []⟩

def store (c : Cluster ν τ κ) (n : ν) : Store τ κ where
  keyMap := c.keyMap
  pendingKeyTable := c.pendingKeyTable
  idTable := (c.nodes n).idTable
  events := (c.nodes n).events
  extraneous := (c.nodes n).extraneous
  deviceAuditStatus := (c.nodes n).deviceAuditStatus
  groupIdGen := (c.nodes n).groupIdGen
  notified := (c.nodes n).notified

variable [DecidableEq ν] [DecidableEq τ] [DecidableEq κ]

/-- What a node has done to its store. The other nodes get the new events of the key map too. -/
def setStore (c : Cluster ν τ κ) (n : ν) (s : Store τ κ) : Cluster ν τ κ :=
  { c with
    keyMap := s.keyMap
    pendingKeyTable := s.pendingKeyTable
    nodes := fun m =>
      if m = n then ⟨s.idTable, s.events, s.extraneous, s.deviceAuditStatus, s.groupIdGen, s.notified⟩
      else { c.nodes m with
        events := (c.nodes m).events ++ s.events.drop (c.nodes n).events.length } }

def mastership (c : Cluster ν τ κ) (n : ν) (isAvailable : Bool) : Mastership :=
  ⟨c.master = some n, c.master.isSome, isAvailable⟩

/-- The three ways of a request: it is carried out, it waits, it is sent to the master. -/
def storeGroupDescription (c : Cluster ν τ κ) (n : ν) (groupDesc : GroupDescription τ κ) :
    Cluster ν τ κ :=
  if (c.keyMap.lookup groupDesc.appCookie).isSome then c
  else if c.master = some n then
    c.setStore n ((c.store n).storeGroupDescriptionInternal groupDesc)
  else
    match c.master with
    | none => c.setStore n ((c.store n).addToPendingAudit groupDesc)
    | some m => { c with messages := c.messages ++ [(m, groupDesc)] }

def process (c : Cluster ν τ κ) (i : ℕ) : Cluster ν τ κ :=
  match c.messages[i]? with
  | none => c
  | some (n, groupDesc) =>
    let c' := { c with messages := c.messages.eraseIdx i }
    if c.master = some n then
      c'.setStore n ((c.store n).storeGroupDescriptionInternal groupDesc)
    else c'

def step (cfg : Config) (hashCode : Group τ → ℤ) (c : Cluster ν τ κ) :
    Action ν τ κ → Cluster ν τ κ
  | .storeGroupDescription n groupDesc => c.storeGroupDescription n groupDesc
  | .process i => c.process i
  | .mastershipChanged master => { c with master := master }
  | .deviceInitialAuditCompleted n completed =>
    c.setStore n ((c.store n).deviceInitialAuditCompleted completed)
  | .pushGroupMetrics n isAvailable groupEntries =>
    c.setStore n
      ((c.store n).pushGroupMetrics cfg hashCode (c.mastership n isAvailable) groupEntries)
  | .receive n => c.setStore n (c.store n).receiveEvent
  | .takeId n id => c.setStore n { c.store n with groupIdGen := id }

/-- Messages can be lost to a change of the master only. They can overtake each other. -/
def machine (cfg : Config) (hashCode : Group τ → ℤ) :
    Machine (Cluster ν τ κ) (Action ν τ κ) where
  initial := empty
  enabled _ _ := True
  next := step cfg hashCode

end Cluster

end GroupStore

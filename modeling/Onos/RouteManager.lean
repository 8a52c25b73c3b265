import Onos.Lib.KeyedQueue
import Onos.BgpRouteStores
import Mathlib.Data.Finset.Card

/-! Resolving routes: each update of the stored routes, and each event of a host, submits sets of
routes to the resolvers, and these look up a host for each next hop. What a task resolves are the
routes that were stored for the prefix when the task was made. -/
namespace RouteManager

open IpAddresses KeyedMap KeyedQueue InputMachine BgpRouteStores

section Data

def HasOneVersion (route : Route) : Prop :=
  route.ipPrefix.address.isIp4 = route.nextHop.isIp4

instance (route : Route) : Decidable (HasOneVersion route) :=
  inferInstanceAs (Decidable (_ = _))

def version : IpAddress → ℕ
  | .INET _ => 0
  | .INET6 _ => 1

def compareTo (a b : IpAddress) : Ordering :=
  (compare (version a) (version b)).then (List.compareLex compare a.toOctets b.toOctets)

structure HostId where
  mac : BitVec 48
  vlanId : BitVec 16
  deriving DecidableEq, Repr

structure Host where
  id : HostId
  mac : BitVec 48
  vlan : BitVec 16
  ipAddresses : Finset IpAddress
  deriving DecidableEq

structure ResolvedRoute where
  route : Route
  nextHopMac : BitVec 48
  nextHopVlan : BitVec 16
  deriving DecidableEq, Repr

structure RouteSet where
  ipPrefix : IpPrefix
  routes : Finset Route
  deriving DecidableEq

/-- A task of the route store: a change of the routes of a prefix, or a set of routes that is to be
handed to the delegate. -/
inductive StoreTask where
  | event (key : IpPrefix)
  | notify (subject : RouteSet)
  deriving DecidableEq

def StoreTask.key : StoreTask → IpPrefix
  | event key => key
  | notify subject => subject.ipPrefix

/-- `hostChanged` under way: addresses whose table is still to be searched, prefixes that were found
and whose routes are still to be read, and route sets that are still to be submitted. -/
structure HostTask where
  nextHops : Finset IpAddress
  keys : Finset IpPrefix
  routeSets : Finset RouteSet
  deriving DecidableEq

structure ResolverTask where
  routeSet : RouteSet
  unresolved : Finset Route
  resolvedRoutes : List ResolvedRoute
  deriving DecidableEq

namespace ResolvedRoute

def decide (route1 route2 : ResolvedRoute) : ResolvedRoute :=
  if (compareTo route1.route.nextHop route2.route.nextHop).isLE then route1 else route2

def reduce : List ResolvedRoute → Option ResolvedRoute
  | [] => none
  | route :: routes => some (routes.foldl decide route)

end ResolvedRoute

end Data

section Model

/-- Changes of the routes and of the hosts are told to the listeners in their order. -/
structure State where
  routes : DistributedRouteStore
  routeEvents : List IpPrefix
  storeExecutor : List StoreTask
  hosts : Table HostId Host
  hostEvents : List Host
  hostEventExecutors : Queue HostId HostTask
  routeResolvers : Queue IpPrefix ResolverTask
  routeTable : Table IpPrefix ResolvedRoute
  alternativeRoutes : Table IpPrefix (Finset ResolvedRoute)

/-- A call on the stores, the next item of a queue, or the next step of a task. What a task takes
from a set is any member. -/
inductive Action where
  | updateRoutes (routes : List Route)
  | removeRoutes (routes : List Route)
  | replaceRoute (route : Route)
  | routeEvent
  | storeTask
  | hostUpdated (host : Host)
  | hostRemoved (id : HostId)
  | hostEvent
  | search (id : HostId) (isIp4 : Bool)
  | read (id : HostId) (key : IpPrefix)
  | submit (id : HostId) (routeSet : RouteSet)
  | finish (id : HostId)
  | resolve (ipPrefix : IpPrefix) (route : Route) (found : Option Host)
  | store (ipPrefix : IpPrefix)

def getHostsByIp (hosts : Table HostId Host) (ip : IpAddress) : List Host :=
  (values hosts).filter fun host => ip ∈ host.ipAddresses

namespace State

def getRoutes (s : State) (p : IpPrefix) : RouteSet := ⟨p, s.routes.filter fun route => route.ipPrefix = p⟩

def resolve (s : State) (routes : RouteSet) : State :=
  { s with routeResolvers :=
      KeyedQueue.submit s.routeResolvers routes.ipPrefix ⟨routes, routes.routes, []⟩ }

def updateRoutes (s : State) (routes : List Route) : State :=
  { s with
    routes := s.routes.updateRoutes routes
    routeEvents := s.routeEvents ++
      (routes.dedup.filter fun route => route ∉ s.routes).map Route.ipPrefix }

def removeRoutes (s : State) (routes : List Route) : State :=
  { s with
    routes := s.routes.removeRoutes routes
    routeEvents := s.routeEvents ++
      (routes.dedup.filter fun route => route ∈ s.routes).map Route.ipPrefix }

def replaceRoute (s : State) (route : Route) : State :=
  { s with
    routes := insert route (s.routes.filter fun other => other.ipPrefix ≠ route.ipPrefix)
    routeEvents := s.routeEvents ++
      List.replicate ((s.getRoutes route.ipPrefix).routes.erase route).card route.ipPrefix ++
        if route ∈ s.routes then [] else [route.ipPrefix] }

def routeEvent (s : State) : State :=
  match s.routeEvents with
  | [] => s
  | key :: events =>
    { s with routeEvents := events, storeExecutor := s.storeExecutor ++ [.event key] }

/-- The listener of the table reads the routes of the prefix, and has them handed on later. -/
def storeTask (s : State) : State :=
  match s.storeExecutor with
  | [] => s
  | .event key :: tasks => { s with storeExecutor := tasks ++ [.notify (s.getRoutes key)] }
  | .notify subject :: tasks => { s with storeExecutor := tasks }.resolve subject

def hostUpdated (s : State) (host : Host) : State :=
  { s with hosts := s.hosts.insert host.id host, hostEvents := s.hostEvents ++ [host] }

def hostRemoved (s : State) (id : HostId) : State :=
  match s.hosts.lookup id with
  | none => s
  | some host => { s with hosts := s.hosts.erase id, hostEvents := s.hostEvents ++ [host] }

def hostEvent (s : State) : State :=
  match s.hostEvents with
  | [] => s
  | host :: events =>
    { s with
      hostEvents := events
      hostEventExecutors := KeyedQueue.submit s.hostEventExecutors host.id ⟨host.ipAddresses, ∅, ∅⟩ }

def hostTask (s : State) (id : HostId) : Option HostTask := (tasksOf s.hostEventExecutors id).head?

def goOn (s : State) (id : HostId) (task : Option HostTask) : State :=
  { s with hostEventExecutors := proceed id task s.hostEventExecutors }

/-- The table of one version is searched for the next hops of this version. -/
def search (s : State) (id : HostId) (isIp4 : Bool) : State :=
  match s.hostTask id with
  | none => s
  | some task => s.goOn id (some { task with
      nextHops := task.nextHops.filter fun ip => ip.isIp4 ≠ isIp4
      keys := (s.routes.filter fun route =>
        route.ipPrefix.address.isIp4 = isIp4 ∧ route.nextHop.isIp4 = isIp4 ∧
          route.nextHop ∈ task.nextHops).image Route.ipPrefix })

def read (s : State) (id : HostId) (key : IpPrefix) : State :=
  match s.hostTask id with
  | none => s
  | some task => s.goOn id (some { task with
      keys := task.keys.erase key
      routeSets := insert (s.getRoutes key) task.routeSets })

def submit (s : State) (id : HostId) (routeSet : RouteSet) : State :=
  match s.hostTask id with
  | none => s
  | some task =>
    (s.goOn id (some { task with routeSets := task.routeSets.erase routeSet })).resolve routeSet

def resolverTask (s : State) (p : IpPrefix) : Option ResolverTask := (tasksOf s.routeResolvers p).head?

def resolveRoute (s : State) (p : IpPrefix) (route : Route) (found : Option Host) : State :=
  match s.resolverTask p with
  | none => s
  | some task =>
    { s with routeResolvers := proceed p (some { task with
        unresolved := task.unresolved.erase route
        resolvedRoutes := task.resolvedRoutes ++
          (found.map fun host => ⟨route, host.mac, host.vlan⟩).toList }) s.routeResolvers }

def updateRoute (s : State) (route : ResolvedRoute) (alternatives : Finset ResolvedRoute) : State :=
  { s with
    routeTable := s.routeTable.insert route.route.ipPrefix route
    alternativeRoutes := s.alternativeRoutes.insert route.route.ipPrefix (insert route alternatives) }

def removeRoute (s : State) (p : IpPrefix) : State :=
  { s with routeTable := s.routeTable.erase p, alternativeRoutes := s.alternativeRoutes.erase p }

def store (s : State) (p : IpPrefix) : State :=
  match s.resolverTask p with
  | none => s
  | some task =>
    let s' := { s with routeResolvers := proceed p none s.routeResolvers }
    match ResolvedRoute.reduce task.resolvedRoutes with
    | none => s'.removeRoute task.routeSet.ipPrefix
    | some route => s'.updateRoute route task.resolvedRoutes.toFinset

def getRoute (s : State) (p : IpPrefix) : Option ResolvedRoute := s.routeTable.lookup p

def getAllRoutes (s : State) (p : IpPrefix) : Finset ResolvedRoute :=
  (s.alternativeRoutes.lookup p).getD ∅

def step (s : State) : Action → State
  | .updateRoutes routes => s.updateRoutes routes
  | .removeRoutes routes => s.removeRoutes routes
  | .replaceRoute route => s.replaceRoute route
  | .routeEvent => s.routeEvent
  | .storeTask => s.storeTask
  | .hostUpdated host => s.hostUpdated host
  | .hostRemoved id => s.hostRemoved id
  | .hostEvent => s.hostEvent
  | .search id isIp4 => s.search id isIp4
  | .read id key => s.read id key
  | .submit id routeSet => s.submit id routeSet
  | .finish id => s.goOn id none
  | .resolve p route found => s.resolveRoute p route found
  | .store p => s.store p

def IsHostTask (s : State) (id : HostId) (holds : HostTask → Prop) : Prop :=
  ∃ task ∈ s.hostTask id, holds task

def IsResolverTask (s : State) (p : IpPrefix) (holds : ResolverTask → Prop) : Prop :=
  ∃ task ∈ s.resolverTask p, holds task

def IsFound (s : State) (ip : IpAddress) : Option Host → Prop
  | none => getHostsByIp s.hosts ip = []
  | some host => host ∈ getHostsByIp s.hosts ip

def Enabled (s : State) : Action → Prop
  | .updateRoutes routes => ∀ route ∈ routes, HasOneVersion route
  | .replaceRoute route => HasOneVersion route
  | .search id isIp4 => s.IsHostTask id fun task =>
    task.keys = ∅ ∧ ∃ ip ∈ task.nextHops, ip.isIp4 = isIp4
  | .read id key => s.IsHostTask id fun task => key ∈ task.keys
  | .submit id routeSet => s.IsHostTask id fun task =>
    task.nextHops = ∅ ∧ task.keys = ∅ ∧ routeSet ∈ task.routeSets
  | .finish id => s.IsHostTask id fun task =>
    task.nextHops = ∅ ∧ task.keys = ∅ ∧ task.routeSets = ∅
  | .resolve p route found => (s.IsResolverTask p fun task => route ∈ task.unresolved) ∧
    s.IsFound route.nextHop found
  | .store p => s.IsResolverTask p fun task => task.unresolved = ∅
  | _ => True

def activate (routes : List Route) (hosts : Table HostId Host) : State where
  routes := routes.toFinset
  routeEvents := []
  storeExecutor := []
  hosts := hosts
  hostEvents := []
  hostEventExecutors := []
  routeResolvers := (routes.map Route.ipPrefix).dedup.map fun p =>
    (p, ⟨⟨p, routes.toFinset.filter fun route => route.ipPrefix = p⟩,
      routes.toFinset.filter fun route => route.ipPrefix = p, []⟩)
  routeTable := ∅
  alternativeRoutes := ∅

def IsAtRest (s : State) : Prop :=
  s.routeEvents = [] ∧ s.storeExecutor = [] ∧ s.hostEvents = [] ∧ s.hostEventExecutors = [] ∧
    s.routeResolvers = []

end State

def machine (routes : List Route) (hosts : Table HostId Host) : Machine State Action where
  initial := State.activate routes hosts
  enabled := State.Enabled
  next := State.step

end Model

end RouteManager

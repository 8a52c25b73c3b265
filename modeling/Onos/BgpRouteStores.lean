import Onos.BgpMergedTable
import Mathlib.Data.Finset.Basic

/-! The stores behind the route service, and whether they hold what the merged table of BGP routes
has: each call for route updates withdraws and updates routes of the store. -/
namespace BgpRouteStores

open IpAddresses KeyedMap BgpRoutes BgpUpdates BgpRibIn BgpRouteSelector BgpMergedTable
open CoordinateFold InputMachine Tournament

section Model

structure Route where
  ipPrefix : IpPrefix
  nextHop : IpAddress
  deriving DecidableEq, Repr

def routeOfEntry (route : BgpRouteEntry) : Route := ⟨route.ipPrefix, route.nextHop⟩

def withdrawsOf (updates : List RouteUpdate) : List Route :=
  (updates.filter fun update => update.selected = none).map fun update => routeOfEntry update.routeEntry

def updatesOf (updates : List RouteUpdate) : List Route :=
  updates.filterMap fun update => update.selected.map routeOfEntry

def computeRouteTablesFromRoutes (isIp4 : Bool) (routes : List Route) : List Route :=
  (routes.filter fun route => route.ipPrefix.address.isIp4 == isIp4).dedup

/-- In memory, one route for a prefix. The keys tell the table of IPv4 from that of IPv6. -/
abbrev LocalRouteStore := Table IpPrefix Route

namespace LocalRouteStore

def updateRoutes (store : LocalRouteStore) (routes : List Route) : LocalRouteStore :=
  insertAll Route.ipPrefix
    (insertAll Route.ipPrefix store (computeRouteTablesFromRoutes true routes))
    (computeRouteTablesFromRoutes false routes)

def removeRoutes (store : LocalRouteStore) (routes : List Route) : LocalRouteStore :=
  eraseAll (eraseAll store ((computeRouteTablesFromRoutes true routes).map Route.ipPrefix))
    ((computeRouteTablesFromRoutes false routes).map Route.ipPrefix)

end LocalRouteStore

abbrev DistributedRouteStore := Finset Route

namespace DistributedRouteStore

def updateRoutes (store : DistributedRouteStore) (routes : List Route) : DistributedRouteStore :=
  store ∪ (computeRouteTablesFromRoutes true routes).toFinset
    ∪ (computeRouteTablesFromRoutes false routes).toFinset

def removeRoutes (store : DistributedRouteStore) (routes : List Route) : DistributedRouteStore :=
  (store \ (computeRouteTablesFromRoutes true routes).toFinset)
    \ (computeRouteTablesFromRoutes false routes).toFinset

end DistributedRouteStore

/-- A node with one store of each kind behind the route service. The tasks are those that the last
message or disconnect left. -/
structure Node where
  bgp : BgpState
  tasks : List Task
  localStore : LocalRouteStore
  distributedStore : DistributedRouteStore

inductive Step where
  | receive (x : Input)
  | perform
  deriving DecidableEq, Repr

def Node.push (n : Node) (updates : List RouteUpdate) : Node :=
  { n with
    localStore := (n.localStore.removeRoutes (withdrawsOf updates)).updateRoutes (updatesOf updates)
    distributedStore :=
      (n.distributedStore.removeRoutes (withdrawsOf updates)).updateRoutes (updatesOf updates) }

def Node.next (n : Node) : Step → Node
  | .receive x =>
    { n with bgp := (BgpRouteSelector.receive n.bgp x).1
             tasks := (BgpRouteSelector.receive n.bgp x).2 }
  | .perform =>
    match n.tasks with
    | [] => n
    | task :: tasks =>
      { n with bgp := (BgpRouteSelector.perform n.bgp task).1
               tasks := tasks }.push (BgpRouteSelector.perform n.bgp task).2

def startNode (sessions : List BgpSession) : Node := ⟨start sessions, [], ∅, ∅⟩

def Enabled (n : Node) : Step → Prop
  | .receive _ => n.tasks = []
  | .perform => n.tasks ≠ []

def nodeMachine (sessions : List BgpSession) : Machine Node Step where
  initial := startNode sessions
  enabled := Enabled
  next := Node.next

end Model

section Mirroring

def LocalMirrors (n : Node) : Prop :=
  ∀ route : Route, n.localStore.lookup route.ipPrefix = some route ↔
    ∃ entry, n.bgp.bgpRoutes.lookup route.ipPrefix = some entry ∧ routeOfEntry entry = route

def DistributedMirrors (n : Node) : Prop :=
  ∀ route : Route, route ∈ n.distributedStore ↔
    ∃ entry, n.bgp.bgpRoutes.lookup route.ipPrefix = some entry ∧ routeOfEntry entry = route

def KeepsNextHop (s : BgpState) : Change → Prop
  | .added route => ∀ old, s.bgpRoutes.lookup route.ipPrefix = some old →
    (route.isBetterThan old = true → route.nextHop = old.nextHop) ∧
      (¬route.isBetterThan old = true → old.bgpSession = route.bgpSession →
        ((s.findBestBgpRoute route.ipPrefix).getD route).nextHop = old.nextHop)
  | .deleted route => s.bgpRoutes.lookup route.ipPrefix = some route →
    ∀ next, s.findBestBgpRoute route.ipPrefix = some next → next.nextHop = route.nextHop

def KeepsNextHops (n : Node) : Step → Prop
  | .receive _ => True
  | .perform => ∀ added deleted, n.tasks.head? = some (.routeUpdates added deleted) →
    ∀ change ∈ changesOf added deleted, KeepsNextHop n.bgp change

end Mirroring

section Stores

variable {updates : List RouteUpdate} {p : IpPrefix}

theorem mem_computeRouteTables {routes : List Route} {route : Route} :
    route ∈ computeRouteTablesFromRoutes true routes ∨
      route ∈ computeRouteTablesFromRoutes false routes ↔ route ∈ routes := by
  simp only [computeRouteTablesFromRoutes, List.mem_dedup, List.mem_filter, beq_iff_eq]
  cases route.ipPrefix.address.isIp4 <;> simp

theorem mem_removeRoutes (store : DistributedRouteStore) (routes : List Route) (route : Route) :
    route ∈ store.removeRoutes routes ↔ route ∈ store ∧ route ∉ routes := by
  rw [DistributedRouteStore.removeRoutes, Finset.mem_sdiff, Finset.mem_sdiff, List.mem_toFinset,
    List.mem_toFinset, and_assoc, ← not_or, mem_computeRouteTables]

theorem mem_updateRoutes (store : DistributedRouteStore) (routes : List Route) (route : Route) :
    route ∈ store.updateRoutes routes ↔ route ∈ store ∨ route ∈ routes := by
  rw [DistributedRouteStore.updateRoutes, Finset.mem_union, Finset.mem_union, List.mem_toFinset,
    List.mem_toFinset, or_assoc, mem_computeRouteTables]

theorem lookup_removeRoutes (store : LocalRouteStore) (routes : List Route) (p : IpPrefix) :
    (store.removeRoutes routes).lookup p =
      if ∃ route ∈ routes, route.ipPrefix = p then none else store.lookup p := by
  simp only [LocalRouteStore.removeRoutes, lookup_eraseAll, List.mem_map]
  by_cases h : ∃ route ∈ routes, route.ipPrefix = p
  · rw [if_pos h]
    obtain ⟨route, hmem, hroute⟩ := h
    rcases mem_computeRouteTables.mpr hmem with h4 | h6
    · have hin : ∃ a ∈ computeRouteTablesFromRoutes true routes, a.ipPrefix = p := ⟨route, h4, hroute⟩
      rw [if_pos hin, ite_self]
    · have hin : ∃ a ∈ computeRouteTablesFromRoutes false routes, a.ipPrefix = p := ⟨route, h6, hroute⟩
      rw [if_pos hin]
  · rw [if_neg h, if_neg, if_neg]
    · rintro ⟨route, hmem, hroute⟩
      exact h ⟨route, mem_computeRouteTables.mp (Or.inl hmem), hroute⟩
    · rintro ⟨route, hmem, hroute⟩
      exact h ⟨route, mem_computeRouteTables.mp (Or.inr hmem), hroute⟩

theorem lookup_updateRoutes (store : LocalRouteStore) {routes : List Route} {route : Route}
    (hmem : route ∈ routes) (honly : ∀ other ∈ routes, other.ipPrefix = route.ipPrefix → other = route) :
    (store.updateRoutes routes).lookup route.ipPrefix = some route := by
  have hlast : ∀ isIp4, lastOf Route.ipPrefix (computeRouteTablesFromRoutes isIp4 routes)
      route.ipPrefix = none ∨ lastOf Route.ipPrefix (computeRouteTablesFromRoutes isIp4 routes)
        route.ipPrefix = some route := by
    intro isIp4
    cases h : lastOf Route.ipPrefix (computeRouteTablesFromRoutes isIp4 routes) route.ipPrefix with
    | none => exact Or.inl rfl
    | some other =>
      obtain ⟨hin, hbegins⟩ := lastOf_eq_some h
      have hmem' : other ∈ routes := by
        cases isIp4 with
        | true => exact mem_computeRouteTables.mp (Or.inl hin)
        | false => exact mem_computeRouteTables.mp (Or.inr hin)
      rw [honly other hmem' hbegins]
      exact Or.inr rfl
  rw [LocalRouteStore.updateRoutes, lookup_insertAll, lookup_insertAll]
  rcases hlast false with h6 | h6
  · rcases hlast true with h4 | h4
    · rcases mem_computeRouteTables.mpr hmem with hin | hin
      · exact absurd rfl (lastOf_eq_none.mp h4 route hin)
      · exact absurd rfl (lastOf_eq_none.mp h6 route hin)
    · rw [h6, h4, Option.none_or, Option.some_or]
  · rw [h6, Option.some_or]

theorem lookup_updateRoutes_of_notMem (store : LocalRouteStore) {routes : List Route}
    (h : ∀ route ∈ routes, route.ipPrefix ≠ p) :
    (store.updateRoutes routes).lookup p = store.lookup p := by
  rw [LocalRouteStore.updateRoutes, lookup_insertAll, lookup_insertAll,
    lastOf_eq_none.mpr fun route hin => h route (mem_computeRouteTables.mp (Or.inr hin)),
    lastOf_eq_none.mpr fun route hin => h route (mem_computeRouteTables.mp (Or.inl hin)),
    Option.none_or, Option.none_or]

end Stores

section Calls

variable {s : BgpState} {added deleted : List BgpRouteEntry} {p : IpPrefix}

def IsUntouched (s : BgpState) (added deleted : List BgpRouteEntry) (p : IpPrefix) : Prop :=
  (∀ update ∈ (routeUpdates s added deleted).2, update.routeEntry.ipPrefix ≠ p) ∧
    (routeUpdates s added deleted).1.bgpRoutes.lookup p = s.bgpRoutes.lookup p

structure IsUpdated (s : BgpState) (added deleted : List BgpRouteEntry) (update : RouteUpdate) :
    Prop where
  mem : update ∈ (routeUpdates s added deleted).2
  only : ∀ other ∈ (routeUpdates s added deleted).2,
    other.routeEntry.ipPrefix = update.routeEntry.ipPrefix → other = update
  lookup : (routeUpdates s added deleted).1.bgpRoutes.lookup update.routeEntry.ipPrefix =
    update.selected

theorem isUntouched_of_selection
    (h : selection (routeUpdates s added deleted) p = (s.bgpRoutes.lookup p, [])) :
    IsUntouched s added deleted p := by
  refine ⟨fun update hmem heq => ?_, congrArg Prod.fst h⟩
  have hnil : (routeUpdates s added deleted).2.filter
      (fun update => update.routeEntry.ipPrefix = p) = [] := congrArg Prod.snd h
  have hin : update ∈ (routeUpdates s added deleted).2.filter
      (fun update => update.routeEntry.ipPrefix = p) := List.mem_filter.mpr ⟨hmem, decide_eq_true heq⟩
  rw [hnil] at hin
  cases hin

theorem isUpdated_of_change (hown : HoldsOwn s.bgpRibIns)
    (hnodup : ((changesOf added deleted).map fun change => change.route.ipPrefix).Nodup)
    {change : Change} (hmem : change ∈ changesOf added deleted) {update : RouteUpdate}
    (hupdate : s.updateOf change = some update) : IsUpdated s added deleted update := by
  have hbegins := ipPrefix_of_updateOf hown hupdate
  have hsel := selection_of_mem hown hnodup hmem
  rw [afterChange, ← updateOf_eq (⟨rfl, rfl⟩ : SameRoutes s s), hupdate, ← hbegins] at hsel
  have hfilter : (routeUpdates s added deleted).2.filter
      (fun other => other.routeEntry.ipPrefix = update.routeEntry.ipPrefix) = [update] :=
    congrArg Prod.snd hsel
  have hiff : ∀ other, other ∈ (routeUpdates s added deleted).2 ∧
      other.routeEntry.ipPrefix = update.routeEntry.ipPrefix ↔ other = update := by
    intro other
    have hin : other ∈ (routeUpdates s added deleted).2.filter
        (fun other => other.routeEntry.ipPrefix = update.routeEntry.ipPrefix) ↔ other = update := by
      rw [hfilter, List.mem_singleton]
    rw [List.mem_filter, decide_eq_true_iff] at hin
    exact hin
  exact ⟨((hiff update).mpr rfl).1, fun other hin heq => (hiff other).mp ⟨hin, heq⟩,
    congrArg Prod.fst hsel⟩

theorem call_cases (hown : HoldsOwn s.bgpRibIns)
    (hnodup : ((changesOf added deleted).map fun change => change.route.ipPrefix).Nodup)
    (p : IpPrefix) : IsUntouched s added deleted p ∨
      ∃ change ∈ changesOf added deleted, ∃ update, s.updateOf change = some update ∧
        update.routeEntry.ipPrefix = p ∧ IsUpdated s added deleted update := by
  by_cases hp : ∃ change ∈ changesOf added deleted, change.route.ipPrefix = p
  · obtain ⟨change, hmem, rfl⟩ := hp
    cases hupdate : s.updateOf change with
    | none =>
      left
      apply isUntouched_of_selection
      rw [selection_of_mem hown hnodup hmem, afterChange,
        ← updateOf_eq (⟨rfl, rfl⟩ : SameRoutes s s), hupdate]
    | some update =>
      exact Or.inr ⟨change, hmem, update, hupdate, ipPrefix_of_updateOf hown hupdate,
        isUpdated_of_change hown hnodup hmem hupdate⟩
  · exact Or.inl (isUntouched_of_selection (selection_of_notMem hown fun change hmem heq =>
      hp ⟨change, hmem, heq⟩))

theorem updateOf_added (s : BgpState) (route : BgpRouteEntry) :
    s.updateOf (.added route) = addedUpdate route (s.findBestBgpRoute route.ipPrefix)
      (s.bgpRoutes.lookup route.ipPrefix) := processAddedRoute_eq s route

theorem updateOf_deleted (s : BgpState) (route : BgpRouteEntry) :
    s.updateOf (.deleted route) = if s.bgpRoutes.lookup route.ipPrefix ≠ some route then none
      else some (deletedUpdate route (s.findBestBgpRoute route.ipPrefix)) :=
  processDeletedRoute_eq s route

theorem lookup_of_delete {change : Change} {entry : BgpRouteEntry}
    (h : s.updateOf change = some (.DELETE entry)) :
    s.bgpRoutes.lookup entry.ipPrefix = some entry := by
  cases change with
  | added route =>
    rw [updateOf_added] at h
    cases hlookup : s.bgpRoutes.lookup route.ipPrefix with
    | none =>
      rw [hlookup] at h
      cases h
    | some old =>
      rw [hlookup, addedUpdate] at h
      split_ifs at h <;> cases h
  | deleted route =>
    rw [updateOf_deleted] at h
    split_ifs at h with hwas
    cases hbest : s.findBestBgpRoute route.ipPrefix with
    | some best =>
      rw [hbest] at h
      cases h
    | none =>
      rw [hbest] at h
      cases h
      exact not_not.mp hwas

theorem keepsNextHop_iff (s : BgpState) (change : Change) :
    KeepsNextHop s change ↔ ∀ old new, s.bgpRoutes.lookup change.route.ipPrefix = some old →
      s.updateOf change = some (.UPDATE new) → new.nextHop = old.nextHop := by
  cases change with
  | added route =>
    rw [updateOf_added, KeepsNextHop, Change.route]
    constructor
    · intro h old new hold hnew
      rw [hold, addedUpdate] at hnew
      split_ifs at hnew with hbetter hsession
      · cases hnew
        exact (h old hold).1 hbetter
      · cases hnew
        exact (h old hold).2 hbetter (not_not.mp hsession)
    · intro h old hold
      refine ⟨fun hbetter => h old route hold ?_, fun hbetter hsession => h old _ hold ?_⟩
      · rw [hold, addedUpdate, if_pos hbetter]
      · rw [hold, addedUpdate, if_neg hbetter, if_neg (not_not.mpr hsession)]
  | deleted route =>
    rw [updateOf_deleted, KeepsNextHop, Change.route]
    constructor
    · intro h old new hold hnew
      split_ifs at hnew with hne
      have hwas := not_not.mp hne
      rw [hwas] at hold
      cases hold
      cases hbest : s.findBestBgpRoute route.ipPrefix with
      | none =>
        rw [hbest] at hnew
        cases hnew
      | some best =>
        rw [hbest] at hnew
        cases hnew
        exact h hwas _ hbest
    · intro h hwas next hnext
      refine h route next hwas ?_
      rw [if_neg (not_not.mpr hwas), hnext]
      rfl

end Calls

section Pushed

variable {updates : List RouteUpdate} {update : RouteUpdate} {p : IpPrefix}

theorem mem_withdrawsOf (updates : List RouteUpdate) (route : Route) :
    route ∈ withdrawsOf updates ↔ ∃ entry, .DELETE entry ∈ updates ∧ routeOfEntry entry = route := by
  simp only [withdrawsOf, List.mem_map, List.mem_filter, decide_eq_true_iff]
  constructor
  · rintro ⟨update, ⟨hmem, hnone⟩, rfl⟩
    cases update with
    | UPDATE entry => cases hnone
    | DELETE entry => exact ⟨entry, hmem, rfl⟩
  · rintro ⟨entry, hmem, rfl⟩
    exact ⟨.DELETE entry, ⟨hmem, rfl⟩, rfl⟩

theorem mem_updatesOf (updates : List RouteUpdate) (route : Route) :
    route ∈ updatesOf updates ↔ ∃ entry, .UPDATE entry ∈ updates ∧ routeOfEntry entry = route := by
  simp only [updatesOf, List.mem_filterMap, Option.map_eq_some_iff]
  constructor
  · rintro ⟨update, hmem, entry, hsome, rfl⟩
    cases update with
    | UPDATE other =>
      cases hsome
      exact ⟨entry, hmem, rfl⟩
    | DELETE other => cases hsome
  · rintro ⟨entry, hmem, rfl⟩
    exact ⟨.UPDATE entry, hmem, entry, rfl, rfl⟩

theorem lookup_push_of_untouched (n : Node)
    (h : ∀ update ∈ updates, update.routeEntry.ipPrefix ≠ p) :
    (n.push updates).localStore.lookup p = n.localStore.lookup p := by
  have hupdates : ∀ route ∈ updatesOf updates, route.ipPrefix ≠ p := by
    intro route hroute
    obtain ⟨entry, hmem, rfl⟩ := (mem_updatesOf updates route).mp hroute
    exact h _ hmem
  have hwithdraws : ¬∃ route ∈ withdrawsOf updates, route.ipPrefix = p := by
    rintro ⟨route, hroute, heq⟩
    obtain ⟨entry, hmem, rfl⟩ := (mem_withdrawsOf updates route).mp hroute
    exact h _ hmem heq
  exact (lookup_updateRoutes_of_notMem _ hupdates).trans
    ((lookup_removeRoutes _ _ _).trans (if_neg hwithdraws))

theorem mem_push (n : Node) (updates : List RouteUpdate) (route : Route) :
    route ∈ (n.push updates).distributedStore ↔
      (route ∈ n.distributedStore ∧ ¬∃ entry, .DELETE entry ∈ updates ∧ routeOfEntry entry = route) ∨
        ∃ entry, .UPDATE entry ∈ updates ∧ routeOfEntry entry = route := by
  refine (mem_updateRoutes _ _ _).trans ?_
  rw [mem_removeRoutes, mem_withdrawsOf, mem_updatesOf]

theorem lookup_push_of_updated (n : Node) (hmem : update ∈ updates)
    (honly : ∀ other ∈ updates, other.routeEntry.ipPrefix = update.routeEntry.ipPrefix →
      other = update) :
    (n.push updates).localStore.lookup update.routeEntry.ipPrefix =
      update.selected.map routeOfEntry := by
  cases update with
  | UPDATE entry =>
    have hin : routeOfEntry entry ∈ updatesOf updates :=
      (mem_updatesOf updates _).mpr ⟨entry, hmem, rfl⟩
    refine lookup_updateRoutes _ hin ?_
    intro other hother heq
    obtain ⟨entry', hmem', rfl⟩ := (mem_updatesOf updates other).mp hother
    cases honly _ hmem' heq
    rfl
  | DELETE entry =>
    refine (lookup_updateRoutes_of_notMem _ ?_).trans ((lookup_removeRoutes _ _ _).trans (if_pos ?_))
    · intro other hother heq
      obtain ⟨entry', hmem', rfl⟩ := (mem_updatesOf updates other).mp hother
      cases honly _ hmem' heq
    · exact ⟨routeOfEntry entry, (mem_withdrawsOf updates _).mpr ⟨entry, hmem, rfl⟩, rfl⟩

end Pushed

section Runs

variable {n : Node}

/-- The peers hold their own routes, what is selected for a prefix has it, and no call that is left
to do pushes two routes for a prefix. -/
structure Sound (n : Node) : Prop where
  own : HoldsOwn n.bgp.bgpRibIns
  selected : ∀ p entry, n.bgp.bgpRoutes.lookup p = some entry → entry.ipPrefix = p
  tasks : ∀ added deleted, .routeUpdates added deleted ∈ n.tasks →
    ((changesOf added deleted).map fun change => change.route.ipPrefix).Nodup

theorem sound_disconnected (h : Sound n) (session : BgpSession) :
    Sound { n with bgp := (processChannelDisconnected n.bgp session).1
                   tasks := (processChannelDisconnected n.bgp session).2 } := by
  have hrep := replaces_all session (n.bgp.bgpRibIns session)
  have hpushed := isPushed_of_replaces h.own hrep
  refine ⟨holdsOwn_replaceRibIn h.own hrep, h.selected, ?_⟩
  intro added deleted hmem
  rcases List.mem_cons.mp hmem with heq | hmem
  · cases heq
    exact nodup_changesOf hpushed true
  rcases List.mem_cons.mp hmem with heq | hmem
  · cases heq
    exact nodup_changesOf hpushed false
  · cases List.mem_singleton.mp hmem

theorem sound_receive (h : Sound n) (x : Input) : Sound (n.next (.receive x)) := by
  cases x with
  | disconnected session => exact sound_disconnected h session
  | update session message =>
    simp only [Node.next, BgpRouteSelector.receive]
    by_cases hclosed : n.bgp.isClosed session = true
    · simp only [if_pos hclosed]
      exact ⟨h.own, h.selected, fun _ _ hmem => by cases hmem⟩
    · simp only [if_neg hclosed]
      cases hresult : processBgpUpdate session (n.bgp.bgpRibIns session) message with
      | mk ribIn' outcome =>
        cases outcome with
        | ok decoded =>
          have hrep := replaces_of_processBgpUpdate hresult
          have hpushed := isPushed_of_replaces h.own hrep
          refine ⟨holdsOwn_replaceRibIn h.own hrep, h.selected, ?_⟩
          intro added deleted hmem
          rcases List.mem_cons.mp hmem with heq | hmem
          · cases heq
            exact nodup_changesOf hpushed true
          · cases List.mem_singleton.mp hmem
            exact nodup_changesOf hpushed false
        | error e =>
          cases e with
          | checked error => exact ⟨h.own, h.selected, fun _ _ hmem => by cases hmem⟩
          | bufferUnderflow => exact sound_disconnected h session
          | bufferOverflow => exact sound_disconnected h session
          | negativeArraySize => exact sound_disconnected h session
          | indexOutOfBounds => exact sound_disconnected h session
          | illegalArgument => exact sound_disconnected h session
          | nullPointer => exact sound_disconnected h session

def afterCall (n : Node) (tasks : List Task) (added deleted : List BgpRouteEntry) : Node :=
  { n with bgp := (routeUpdates n.bgp added deleted).1
           tasks := tasks }.push (routeUpdates n.bgp added deleted).2

variable {tasks : List Task} {added deleted : List BgpRouteEntry}

theorem sound_afterCall (h : Sound n) (htasks : n.tasks = .routeUpdates added deleted :: tasks) :
    Sound (afterCall n tasks added deleted) := by
  have hnodup := h.tasks added deleted (htasks ▸ List.mem_cons_self)
  have hsame := sameRoutes_routeUpdates h.own added deleted
  refine ⟨?_, ?_, fun added' deleted' hmem => h.tasks added' deleted' ?_⟩
  · rw [show (afterCall n tasks added deleted).bgp.bgpRibIns = n.bgp.bgpRibIns from hsame.2]
    exact h.own
  · intro p entry hp
    rcases call_cases h.own hnodup p with huntouched | ⟨change, _, update, _, hbegins, hupdated⟩
    · exact h.selected p entry (huntouched.2.symm.trans hp)
    · subst hbegins
      have hselected := hupdated.lookup.symm.trans hp
      cases update with
      | UPDATE other =>
        cases hselected
        rfl
      | DELETE other => cases hselected
  · rw [htasks]
    exact List.mem_cons_of_mem _ hmem

theorem sound_next (h : Sound n) (x : Step) : Sound (n.next x) := by
  cases x with
  | receive x => exact sound_receive h x
  | perform =>
    cases htasks : n.tasks with
    | nil =>
      simp only [Node.next, htasks]
      exact h
    | cons task tasks =>
      simp only [Node.next, htasks]
      cases task with
      | routeUpdates added deleted => exact sound_afterCall h htasks
      | peerDisconnected session =>
        exact ⟨h.own, h.selected, fun added deleted hmem => h.tasks added deleted
          (htasks ▸ List.mem_cons_of_mem _ hmem)⟩

theorem localMirrors_afterCall (h : Sound n) (hmirrors : LocalMirrors n)
    (htasks : n.tasks = .routeUpdates added deleted :: tasks) :
    LocalMirrors (afterCall n tasks added deleted) := by
  have hnodup := h.tasks added deleted (htasks ▸ List.mem_cons_self)
  intro route
  rcases call_cases h.own hnodup route.ipPrefix with
    huntouched | ⟨change, _, update, _, hbegins, hupdated⟩
  · rw [afterCall, lookup_push_of_untouched _ huntouched.1]
    refine (hmirrors route).trans ?_
    rw [← huntouched.2]
    exact Iff.rfl
  · have hstore := lookup_push_of_updated
      { n with bgp := (routeUpdates n.bgp added deleted).1, tasks := tasks } hupdated.mem hupdated.only
    have hlookup := hupdated.lookup
    rw [hbegins] at hstore hlookup
    rw [afterCall, hstore, Option.map_eq_some_iff]
    refine exists_congr fun entry => and_congr_left' ?_
    rw [← hlookup]
    exact Iff.rfl

theorem distributedMirrors_of_keeps (h : Sound n) (hmirrors : DistributedMirrors n)

    (htasks : n.tasks = .routeUpdates added deleted :: tasks)
    (hkeeps : ∀ change ∈ changesOf added deleted, KeepsNextHop n.bgp change) :
    DistributedMirrors (afterCall n tasks added deleted) := by
  have hnodup := h.tasks added deleted (htasks ▸ List.mem_cons_self)
  intro route
  rw [afterCall, mem_push]
  rcases call_cases h.own hnodup route.ipPrefix with
    huntouched | ⟨change, hmem, update, hupdate, hbegins, hupdated⟩
  · have hdelete : ¬∃ entry, .DELETE entry ∈ (routeUpdates n.bgp added deleted).2 ∧
        routeOfEntry entry = route := by
      rintro ⟨entry, hin, rfl⟩
      exact huntouched.1 _ hin rfl
    have hupdate : ¬∃ entry, .UPDATE entry ∈ (routeUpdates n.bgp added deleted).2 ∧
        routeOfEntry entry = route := by
      rintro ⟨entry, hin, rfl⟩
      exact huntouched.1 _ hin rfl
    rw [or_iff_left hupdate, and_iff_left hdelete]
    refine (hmirrors route).trans ?_
    rw [← huntouched.2]
    exact Iff.rfl
  · have hlookup := hupdated.lookup
    rw [hbegins] at hlookup
    have honly := hupdated.only
    rw [hbegins] at honly
    cases update with
    | UPDATE new =>
      have hafter : (∃ entry, (routeUpdates n.bgp added deleted).1.bgpRoutes.lookup route.ipPrefix =
          some entry ∧ routeOfEntry entry = route) ↔ routeOfEntry new = route := by
        rw [hlookup]
        constructor
        · rintro ⟨entry, hsome, rfl⟩
          cases hsome
          rfl
        · intro hroute
          exact ⟨new, rfl, hroute⟩
      refine Iff.trans ?_ hafter.symm
      constructor
      · rintro (⟨hin, _⟩ | ⟨entry, hin, rfl⟩)
        · obtain ⟨old, hold, hroute⟩ := (hmirrors route).mp hin
          rw [← hbegins, ipPrefix_of_updateOf h.own hupdate] at hold
          have hhop := (keepsNextHop_iff n.bgp change).mp (hkeeps change hmem) old new hold hupdate
          rw [← hroute] at hbegins ⊢
          rw [routeOfEntry, routeOfEntry, hhop]
          exact congrArg (Route.mk · old.nextHop) hbegins
        · cases honly _ hin rfl
          rfl
      · intro hroute
        exact Or.inr ⟨new, hupdated.mem, hroute⟩
    | DELETE gone =>
      refine iff_of_false ?_ ?_
      · rintro (⟨hin, hnone⟩ | ⟨entry, hin, rfl⟩)
        · obtain ⟨old, hold, hroute⟩ := (hmirrors route).mp hin
          have hgone := lookup_of_delete hupdate
          rw [show gone.ipPrefix = route.ipPrefix from hbegins, hold] at hgone
          cases hgone
          exact hnone ⟨_, hupdated.mem, hroute⟩
        · cases honly _ hin rfl
      · rintro ⟨entry, hsome, _⟩
        cases hlookup.symm.trans hsome

theorem keeps_of_distributedMirrors (h : Sound n) (hmirrors : DistributedMirrors n)

    (htasks : n.tasks = .routeUpdates added deleted :: tasks)
    (hafter : DistributedMirrors (afterCall n tasks added deleted)) {change : Change}
    (hmem : change ∈ changesOf added deleted) : KeepsNextHop n.bgp change := by
  have hnodup := h.tasks added deleted (htasks ▸ List.mem_cons_self)
  rw [keepsNextHop_iff]
  intro old new hold hnew
  have hupdated := isUpdated_of_change h.own hnodup hmem hnew
  have hbegins : new.ipPrefix = change.route.ipPrefix := ipPrefix_of_updateOf h.own hnew
  have holdPrefix : old.ipPrefix = change.route.ipPrefix := h.selected _ old hold
  have hin : routeOfEntry old ∈ n.distributedStore := by
    rw [hmirrors]
    exact ⟨old, by rw [← hold, ← holdPrefix]; rfl, rfl⟩
  have hstays : routeOfEntry old ∈ (afterCall n tasks added deleted).distributedStore := by
    rw [afterCall, mem_push]
    refine Or.inl ⟨hin, ?_⟩
    rintro ⟨entry, hdelete, heq⟩
    have hentry : entry.ipPrefix = old.ipPrefix := congrArg Route.ipPrefix heq
    cases hupdated.only _ hdelete (hentry.trans (holdPrefix.trans hbegins.symm))
  obtain ⟨entry, hentry, hroute⟩ := (hafter _).mp hstays
  have hlookup : (routeUpdates n.bgp added deleted).1.bgpRoutes.lookup old.ipPrefix = some new := by
    rw [holdPrefix, ← hbegins]
    exact hupdated.lookup
  cases hlookup.symm.trans hentry
  exact congrArg Route.nextHop hroute

def Mirrors (n : Node) : Prop := LocalMirrors n ∧ DistributedMirrors n

theorem mirrors_next_iff (h : Sound n) (hmirrors : Mirrors n) (x : Step) :
    Mirrors (n.next x) ↔ KeepsNextHops n x := by
  cases x with
  | receive x =>
    refine iff_of_true ?_ trivial
    cases x with
    | disconnected session => exact hmirrors
    | update session message =>
      have hroutes : (BgpRouteSelector.receive n.bgp (.update session message)).1.bgpRoutes =
          n.bgp.bgpRoutes := by
        rw [BgpRouteSelector.receive]
        split
        · rfl
        · split <;> rfl
      refine ⟨fun route => ?_, fun route => ?_⟩
      · exact (hmirrors.1 route).trans (by rw [← hroutes]; exact Iff.rfl)
      · exact (hmirrors.2 route).trans (by rw [← hroutes]; exact Iff.rfl)
  | perform =>
    cases htasks : n.tasks with
    | nil =>
      simp only [Node.next, KeepsNextHops, htasks]
      exact iff_of_true hmirrors fun _ _ hnone => by cases hnone
    | cons task tasks =>
      simp only [Node.next, KeepsNextHops, htasks]
      cases task with
      | peerDisconnected session =>
        refine iff_of_true ?_ fun _ _ hsome => by cases hsome
        refine ⟨fun route => ?_, fun route => ?_⟩
        · refine Iff.trans ?_ (hmirrors.1 route)
          rw [lookup_push_of_untouched _ fun _ hin => by cases hin]
        · refine Iff.trans ?_ (hmirrors.2 route)
          rw [show (BgpRouteSelector.perform n.bgp (.peerDisconnected session)).2 = [] from rfl, mem_push]
          simp
      | routeUpdates added deleted =>
        constructor
        · rintro ⟨_, hafter⟩ added' deleted' hsome change hmem
          cases hsome
          exact keeps_of_distributedMirrors h hmirrors.2 htasks hafter hmem
        · intro hkeeps
          exact ⟨localMirrors_afterCall h hmirrors.1 htasks,
            distributedMirrors_of_keeps h hmirrors.2 htasks (hkeeps added deleted rfl)⟩

theorem sound_start (sessions : List BgpSession) : Sound (startNode sessions) where
  own _ _ _ hp := by cases hp
  selected _ _ hp := by cases hp
  tasks _ _ hmem := by cases hmem

theorem mirrors_start (sessions : List BgpSession) : Mirrors (startNode sessions) := by
  refine ⟨fun route => iff_of_false ?_ ?_, fun route => iff_of_false (Finset.notMem_empty route) ?_⟩
  · intro hsome
    cases hsome
  · rintro ⟨_, hsome, _⟩
    cases hsome
  · rintro ⟨_, hsome, _⟩
    cases hsome

/-- Either store mirrors the merged table after each call of a run exactly if no selected route is
replaced by one with another next hop. -/
theorem stores_mirror_iff (sessions : List BgpSession) (xs : List Step)
    (hxs : (nodeMachine sessions).Valid (startNode sessions) xs) :
    (∀ ys, ys <+: xs → Mirrors ((nodeMachine sessions).run (startNode sessions) ys)) ↔
      ((nodeMachine sessions).guarded KeepsNextHops).Valid (startNode sessions) xs :=
  invariant_iff_of Sound Mirrors (fun _ x hs _ => sound_next hs x)
    (fun _ x hs hm _ => mirrors_next_iff hs hm x) hxs (sound_start sessions) (mirrors_start sessions)

end Runs

section Accumulation

instance decidableEnabled (n : Node) : (x : Step) → Decidable (Enabled n x)
  | .receive _ => inferInstanceAs (Decidable (n.tasks = []))
  | .perform => inferInstanceAs (Decidable (n.tasks ≠ []))

instance decidableNodeEnabled (sessions : List BgpSession) (n : Node) (x : Step) :
    Decidable ((nodeMachine sessions).enabled n x) := decidableEnabled n x

def announce (session : BgpSession) (nextHop : WireBytes.Byte) : List Step :=
  [.receive (.update session (announcement 200 0 nextHop)), .perform, .perform]

theorem stores_mirror_iff_single :
    (∀ ys, ys <+: announce (peer 2) 2 → Mirrors ((nodeMachine peers).run (startNode peers) ys)) ↔
      ((nodeMachine peers).guarded KeepsNextHops).Valid (startNode peers) (announce (peer 2) 2) :=
  stores_mirror_iff peers (announce (peer 2) 2) (by decide)

/-- A second peer has a better route by another next hop. The first next hop stays. -/
theorem next_hops_accumulate : ¬∀ xs, (nodeMachine peers).Valid (startNode peers) xs →
      Mirrors ((nodeMachine peers).run (startNode peers) xs) := by
  intro h
  have hmirrors := (h (announce (peer 2) 2 ++ announce (peer 1) 3) (by decide)).2
  have hstays : (⟨host, .INET 0x0A000002⟩ : Route) ∈ ((nodeMachine peers).run (startNode peers)
      (announce (peer 2) 2 ++ announce (peer 1) 3)).distributedStore := by decide
  have hselected : (((nodeMachine peers).run (startNode peers)
      (announce (peer 2) 2 ++ announce (peer 1) 3)).bgp.bgpRoutes.lookup host).map
        BgpRouteEntry.nextHop = some (.INET 0x0A000003) := by decide
  obtain ⟨entry, hentry, hroute⟩ := (hmirrors _).mp hstays
  rw [hentry] at hselected
  have hhop : entry.nextHop = .INET 0x0A000002 := congrArg Route.nextHop hroute
  rw [Option.map_some, hhop] at hselected
  exact absurd hselected (by decide)

end Accumulation

end BgpRouteStores

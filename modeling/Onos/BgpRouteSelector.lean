import Onos.BgpRibIn
import Onos.Lib.CoordinateFold
import Onos.Lib.InputMachine
import Onos.Lib.Tournament

/-! The merged table of all BGP sessions: how a route is selected for each prefix as messages come
and sessions go. -/
namespace BgpRouteSelector

open WireBytes ByteBuffer IpAddresses KeyedMap BgpRoutes BgpUpdates BgpRibIn Tournament
open CoordinateFold InputMachine

section Model

/-- The sessions that the manager knows, in the order in which its table lists them, with the routes
that each received, and the routes that were selected. A session is closed once it answered a
message by a notification. -/
structure BgpState where
  bgpSessions : List BgpSession
  bgpRibIns : BgpSession → RibIn
  isClosed : BgpSession → Bool
  bgpRoutes : RibIn

inductive RouteUpdate where
  | UPDATE (routeEntry : BgpRouteEntry)
  | DELETE (routeEntry : BgpRouteEntry)
  deriving DecidableEq, Repr

def RouteUpdate.routeEntry : RouteUpdate → BgpRouteEntry
  | UPDATE route => route
  | DELETE route => route

def RouteUpdate.selected : RouteUpdate → Option BgpRouteEntry
  | UPDATE route => some route
  | DELETE _ => none

namespace BgpState

def findBgpRoutes (s : BgpState) (p : IpPrefix) : List BgpRouteEntry :=
  s.bgpSessions.filterMap fun session => (s.bgpRibIns session).lookup p

def findBestBgpRoute (s : BgpState) (p : IpPrefix) : Option BgpRouteEntry :=
  (s.findBgpRoutes p).foldl (pick BgpRouteEntry.isBetterThan) none

def processAddedRoute (s : BgpState) (route : BgpRouteEntry) : Option RouteUpdate :=
  match s.bgpRoutes.lookup route.ipPrefix with
  | none => some (.UPDATE route)
  | some best =>
    if route.isBetterThan best then some (.UPDATE route)
    else if best.bgpSession ≠ route.bgpSession then none
    -- the best route arrived on the same session, so that the next best one is elected
    else some (.UPDATE ((s.findBestBgpRoute route.ipPrefix).getD route))

/-- Only the best route is to be replaced. A session holds one route for a prefix, so that an equal
route of the session is the same object. -/
def processDeletedRoute (s : BgpState) (route : BgpRouteEntry) : Option RouteUpdate :=
  if s.bgpRoutes.lookup route.ipPrefix ≠ some route then none
  else match s.findBestBgpRoute route.ipPrefix with
    | some best => some (.UPDATE best)
    | none => some (.DELETE route)

def install (s : BgpState) : RouteUpdate → BgpState
  | .UPDATE route => { s with bgpRoutes := s.bgpRoutes.insert route.ipPrefix route }
  | .DELETE route => { s with bgpRoutes := s.bgpRoutes.erase route.ipPrefix }

end BgpState

inductive Change where
  | deleted (route : BgpRouteEntry)
  | added (route : BgpRouteEntry)
  deriving DecidableEq, Repr

def Change.route : Change → BgpRouteEntry
  | deleted route => route
  | added route => route

def BgpState.updateOf (s : BgpState) : Change → Option RouteUpdate
  | .deleted route => s.processDeletedRoute route
  | .added route => s.processAddedRoute route

/-- One turn of the loops over the pushed routes, with the route updates made so far. -/
def pushChange (acc : BgpState × List RouteUpdate) (change : Change) :
    BgpState × List RouteUpdate :=
  match acc.1.updateOf change with
  | none => acc
  | some update => (acc.1.install update, acc.2 ++ [update])

def changesOf (added deleted : List BgpRouteEntry) : List Change :=
  deleted.map Change.deleted ++ added.map Change.added

def routeUpdates (s : BgpState) (added deleted : List BgpRouteEntry) :
    BgpState × List RouteUpdate :=
  (changesOf added deleted).foldl pushChange (s, [])

/-- What is left to do when a message or a disconnect was handled by its session. -/
inductive Task where
  | routeUpdates (added deleted : List BgpRouteEntry)
  | peerDisconnected (session : BgpSession)
  deriving DecidableEq, Repr

def routesOf (isIp4 : Bool) (routes : RibIn) : List BgpRouteEntry :=
  (values routes).filter fun route => route.ipPrefix.address.isIp4 == isIp4

inductive Input where
  | update (session : BgpSession) (message : List Byte)
  | disconnected (session : BgpSession)
  deriving DecidableEq, Repr

/-- The routes are dropped before they are withdrawn from the merged table. -/
def processChannelDisconnected (s : BgpState) (session : BgpSession) : BgpState × List Task :=
  ({ s with bgpRibIns := Function.update s.bgpRibIns session ∅ },
    [.routeUpdates [] (routesOf true (s.bgpRibIns session)),
      .routeUpdates [] (routesOf false (s.bgpRibIns session)), .peerDisconnected session])

/-- Nothing is read on a closed session. A message that makes the parser throw ends in the handler of
exceptions, which does what a disconnect does. -/
def receive (s : BgpState) : Input → BgpState × List Task
  | .update session message =>
    if s.isClosed session then (s, [])
    else match processBgpUpdate session (s.bgpRibIns session) message with
      | (ribIn, .ok decoded) =>
        ({ s with bgpRibIns := Function.update s.bgpRibIns session ribIn },
          [.routeUpdates (routesOf true decoded.addedUnicastRoutes)
              (routesOf true decoded.deletedUnicastRoutes),
            .routeUpdates (routesOf false decoded.addedUnicastRoutes)
              (routesOf false decoded.deletedUnicastRoutes)])
      | (_, .error (.checked _)) => ({ s with isClosed := Function.update s.isClosed session true }, [])
      | (_, .error _) => processChannelDisconnected s session
  | .disconnected session => processChannelDisconnected s session

def perform (s : BgpState) : Task → BgpState × List RouteUpdate
  | .routeUpdates added deleted => routeUpdates s added deleted
  | .peerDisconnected session => ({ s with bgpSessions := s.bgpSessions.erase session }, [])

def process (s : BgpState) (x : Input) : BgpState :=
  (receive s x).2.foldl (fun s task => (perform s task).1) (receive s x).1

def start (sessions : List BgpSession) : BgpState where
  bgpSessions := sessions
  bgpRibIns _ := ∅
  isClosed _ := false
  bgpRoutes := ∅

def machine (sessions : List BgpSession) : Machine BgpState Input where
  initial := start sessions
  enabled _ _ := True
  next := process

end Model

section Pushing

variable {s : BgpState}

def HoldsOwn (ribIns : BgpSession → RibIn) : Prop :=
  ∀ session p route, (ribIns session).lookup p = some route →
    route.ipPrefix = p ∧ route.bgpSession = session

section

variable (hown : HoldsOwn s.bgpRibIns)

include hown

theorem mem_findBgpRoutes (p : IpPrefix) (route : BgpRouteEntry) : route ∈ s.findBgpRoutes p ↔
      route.bgpSession ∈ s.bgpSessions ∧ (s.bgpRibIns route.bgpSession).lookup p = some route := by
  simp only [BgpState.findBgpRoutes, List.mem_filterMap]
  constructor
  · rintro ⟨session, hmem, hlookup⟩
    rw [(hown session p route hlookup).2]
    exact ⟨hmem, hlookup⟩
  · rintro ⟨hmem, hlookup⟩
    exact ⟨route.bgpSession, hmem, hlookup⟩

theorem ipPrefix_of_findBest {p : IpPrefix} {best : BgpRouteEntry}
    (h : s.findBestBgpRoute p = some best) : best.ipPrefix = p := by
  rcases foldl_pick_mem h with hmem | hnone
  · exact (hown _ p best ((mem_findBgpRoutes hown p best).mp hmem).2).1
  · cases hnone

theorem ipPrefix_of_updateOf {change : Change} {update : RouteUpdate}
    (h : s.updateOf change = some update) : update.routeEntry.ipPrefix = change.route.ipPrefix := by
  cases change with
  | added route =>
    rw [BgpState.updateOf, BgpState.processAddedRoute] at h
    split at h
    · cases h
      rfl
    · split at h
      · cases h
        rfl
      · split at h
        · cases h
        · cases h
          cases hbest : s.findBestBgpRoute route.ipPrefix with
          | none => rfl
          | some best => exact ipPrefix_of_findBest hown hbest
  | deleted route =>
    rw [BgpState.updateOf, BgpState.processDeletedRoute] at h
    split at h
    · cases h
    · split at h
      next hbest =>
        cases h
        exact ipPrefix_of_findBest hown hbest
      · cases h
        rfl

end

theorem lookup_install (s : BgpState) (update : RouteUpdate) (p : IpPrefix) :
    (s.install update).bgpRoutes.lookup p =
      if p = update.routeEntry.ipPrefix then update.selected else s.bgpRoutes.lookup p := by
  cases update with
  | UPDATE route => exact lookup_insert _ _ _ _
  | DELETE route => exact lookup_erase _ _ _

/-- What is pushed changes the merged table, and neither the sessions nor their routes. -/
def SameRoutes (s s' : BgpState) : Prop :=
  s'.bgpSessions = s.bgpSessions ∧ s'.bgpRibIns = s.bgpRibIns

theorem SameRoutes.install {s' : BgpState} (h : SameRoutes s s') (update : RouteUpdate) :
    SameRoutes s (s'.install update) := by
  cases update <;> exact h

def selection (acc : BgpState × List RouteUpdate) (p : IpPrefix) :
    Option BgpRouteEntry × List RouteUpdate :=
  (acc.1.bgpRoutes.lookup p, acc.2.filter fun update => update.routeEntry.ipPrefix = p)

def withSelected (s : BgpState) (p : IpPrefix) (selected : Option BgpRouteEntry) : BgpState :=
  { s with bgpRoutes := put s.bgpRoutes p selected }

def updateFor (s : BgpState) (change : Change) (selected : Option BgpRouteEntry) :
    Option RouteUpdate :=
  (withSelected s change.route.ipPrefix selected).updateOf change

def addedUpdate (route : BgpRouteEntry) (next : Option BgpRouteEntry) :
    Option BgpRouteEntry → Option RouteUpdate
  | none => some (.UPDATE route)
  | some best =>
    if route.isBetterThan best then some (.UPDATE route)
    else if best.bgpSession ≠ route.bgpSession then none
    else some (.UPDATE (next.getD route))

def deletedUpdate (route : BgpRouteEntry) : Option BgpRouteEntry → RouteUpdate
  | some best => .UPDATE best
  | none => .DELETE route

theorem processAddedRoute_eq (s : BgpState) (route : BgpRouteEntry) :
    s.processAddedRoute route = addedUpdate route (s.findBestBgpRoute route.ipPrefix)
      (s.bgpRoutes.lookup route.ipPrefix) := by
  rw [BgpState.processAddedRoute]
  cases s.bgpRoutes.lookup route.ipPrefix <;> rfl

theorem processDeletedRoute_eq (s : BgpState) (route : BgpRouteEntry) :
    s.processDeletedRoute route =
      if s.bgpRoutes.lookup route.ipPrefix ≠ some route then none
      else some (deletedUpdate route (s.findBestBgpRoute route.ipPrefix)) := by
  rw [BgpState.processDeletedRoute]
  cases s.findBestBgpRoute route.ipPrefix <;> rfl

theorem lookup_withSelected (s : BgpState) (p : IpPrefix) (selected : Option BgpRouteEntry) :
    (withSelected s p selected).bgpRoutes.lookup p = selected := by
  rw [withSelected, lookup_put, if_pos rfl]

theorem updateFor_added (s : BgpState) (route : BgpRouteEntry) (selected : Option BgpRouteEntry) :
    updateFor s (.added route) selected =
      addedUpdate route (s.findBestBgpRoute route.ipPrefix) selected := by
  rw [updateFor, BgpState.updateOf, processAddedRoute_eq, Change.route, lookup_withSelected]
  rfl

theorem updateFor_deleted (s : BgpState) (route : BgpRouteEntry) (selected : Option BgpRouteEntry) :
    updateFor s (.deleted route) selected =
      if selected ≠ some route then none
      else some (deletedUpdate route (s.findBestBgpRoute route.ipPrefix)) := by
  rw [updateFor, BgpState.updateOf, processDeletedRoute_eq, Change.route, lookup_withSelected]
  rfl

theorem updateOf_eq {s' : BgpState} (h : SameRoutes s s') (change : Change) :
    s'.updateOf change = updateFor s change (s'.bgpRoutes.lookup change.route.ipPrefix) := by
  obtain ⟨hsessions, hribIns⟩ := h
  have hbest : ∀ p, s'.findBestBgpRoute p = s.findBestBgpRoute p := by
    intro p
    simp only [BgpState.findBestBgpRoute, BgpState.findBgpRoutes, hsessions, hribIns]
  cases change with
  | added route => exact (processAddedRoute_eq s' route).trans (by rw [updateFor_added, hbest]; rfl)
  | deleted route =>
    exact (processDeletedRoute_eq s' route).trans (by rw [updateFor_deleted, hbest]; rfl)

def afterChange (s : BgpState) (change : Change)
    (v : Option BgpRouteEntry × List RouteUpdate) : Option BgpRouteEntry × List RouteUpdate :=
  match updateFor s change v.1 with
  | none => v
  | some update => (update.selected, v.2 ++ [update])

theorem pushChange_acts (hown : HoldsOwn s.bgpRibIns) :
    ActsAt (fun acc => SameRoutes s acc.1) selection pushChange (fun change => change.route.ipPrefix)
      (afterChange s) where
  keeps acc change h := by
    rw [pushChange]
    split
    · exact h
    · exact h.install _
  at_key acc change h := by
    rw [pushChange, afterChange, updateOf_eq h change]
    dsimp only [selection]
    cases hupdate : updateFor s change (acc.1.bgpRoutes.lookup change.route.ipPrefix) with
    | none => rfl
    | some update =>
      have hbegins : update.routeEntry.ipPrefix = change.route.ipPrefix :=
        ipPrefix_of_updateOf (s := withSelected s _ _) hown hupdate
      simp only [lookup_install, hbegins, if_pos, List.filter_append, List.filter_cons,
        decide_true, List.filter_nil]
  elsewhere acc change p h hne := by
    rw [pushChange, updateOf_eq h change]
    cases hupdate : updateFor s change (acc.1.bgpRoutes.lookup change.route.ipPrefix) with
    | none => rfl
    | some update =>
      have hbegins : update.routeEntry.ipPrefix = change.route.ipPrefix :=
        ipPrefix_of_updateOf (s := withSelected s _ _) hown hupdate
      have hother : ¬change.route.ipPrefix = p := fun h => hne h.symm
      simp only [selection, lookup_install, hbegins, if_neg hne, List.filter_append,
        List.filter_cons, hother, decide_false, List.filter_nil, List.append_nil,
        Bool.false_eq_true, if_false]

variable {added deleted : List BgpRouteEntry}

section

variable (hown : HoldsOwn s.bgpRibIns)

include hown

theorem selection_of_mem
    (hnodup : ((changesOf added deleted).map fun change => change.route.ipPrefix).Nodup)
    {change : Change} (hmem : change ∈ changesOf added deleted) :
    selection (routeUpdates s added deleted) change.route.ipPrefix =
      afterChange s change (s.bgpRoutes.lookup change.route.ipPrefix, []) :=
  (pushChange_acts hown).foldl_of_mem hnodup hmem ⟨rfl, rfl⟩

theorem selection_of_notMem {p : IpPrefix}
    (hp : ∀ change ∈ changesOf added deleted, change.route.ipPrefix ≠ p) :
    selection (routeUpdates s added deleted) p = (s.bgpRoutes.lookup p, []) :=
  (pushChange_acts hown).foldl_of_notMem hp ⟨rfl, rfl⟩

theorem sameRoutes_routeUpdates (added deleted : List BgpRouteEntry) :
    SameRoutes s (routeUpdates s added deleted).1 :=
  (pushChange_acts hown).foldl_keeps (changesOf added deleted) ⟨rfl, rfl⟩

end

theorem afterChange_congr {s' : BgpState} (h : SameRoutes s s') (change : Change)
    (v : Option BgpRouteEntry × List RouteUpdate) : afterChange s' change v = afterChange s change v := by
  have hupdate : updateFor s' change v.1 = updateFor s change v.1 := by
    have hsame : SameRoutes s (withSelected s' change.route.ipPrefix v.1) := h
    rw [updateFor, updateOf_eq hsame]
    simp only [withSelected, lookup_put, if_pos]
  rw [afterChange, afterChange, hupdate]

end Pushing

section Tables

variable {s : BgpState} {added deleted : RibIn}

structure IsPushed (added deleted : RibIn) : Prop where
  added_own : ∀ p route, added.lookup p = some route → route.ipPrefix = p
  deleted_own : ∀ p route, deleted.lookup p = some route → route.ipPrefix = p
  disjoint : ∀ p route, deleted.lookup p = some route → added.lookup p = none

theorem mem_routesOf {routes : RibIn}
    (hown : ∀ p route, routes.lookup p = some route → route.ipPrefix = p) {isIp4 : Bool}
    {route : BgpRouteEntry} : route ∈ routesOf isIp4 routes ↔
      routes.lookup route.ipPrefix = some route ∧ route.ipPrefix.address.isIp4 = isIp4 := by
  simp only [routesOf, List.mem_filter, mem_values_iff, beq_iff_eq]
  refine and_congr_left' ⟨?_, fun h => ⟨_, h⟩⟩
  rintro ⟨p, hp⟩
  rw [hown p route hp]
  exact hp

theorem nodup_routesOf {routes : RibIn}
    (hown : ∀ p route, routes.lookup p = some route → route.ipPrefix = p) (isIp4 : Bool) :
    ((routesOf isIp4 routes).map BgpRouteEntry.ipPrefix).Nodup := by
  have hkeys : (values routes).map BgpRouteEntry.ipPrefix = routes.keys := by
    rw [values, List.map_map]
    refine List.map_congr_left fun e he => ?_
    exact hown e.1 e.2 ((mem_entries_iff routes e.1 e.2).mp he)
  have hall : ((values routes).map BgpRouteEntry.ipPrefix).Nodup := hkeys ▸ routes.nodupKeys
  exact hall.sublist (List.filter_sublist.map _)

theorem nodup_changesOf (h : IsPushed added deleted) (isIp4 : Bool) :
    ((changesOf (routesOf isIp4 added) (routesOf isIp4 deleted)).map
      fun change => change.route.ipPrefix).Nodup := by
  have hmap : (changesOf (routesOf isIp4 added) (routesOf isIp4 deleted)).map
      (fun change => change.route.ipPrefix) =
      (routesOf isIp4 deleted).map BgpRouteEntry.ipPrefix ++
        (routesOf isIp4 added).map BgpRouteEntry.ipPrefix := by
    rw [changesOf, List.map_append, List.map_map, List.map_map]
    rfl
  rw [hmap, List.nodup_append]
  refine ⟨nodup_routesOf h.deleted_own isIp4, nodup_routesOf h.added_own isIp4, ?_⟩
  intro p hp q hq heq
  obtain ⟨d, hd, rfl⟩ := List.mem_map.mp hp
  obtain ⟨a, ha, rfl⟩ := List.mem_map.mp hq
  have hnone := h.disjoint _ d ((mem_routesOf h.deleted_own).mp hd).1
  rw [heq, ((mem_routesOf h.added_own).mp ha).1] at hnone
  cases hnone

theorem mem_changesOf (h : IsPushed added deleted) {isIp4 : Bool} {change : Change} :
    change ∈ changesOf (routesOf isIp4 added) (routesOf isIp4 deleted) ↔
      change.route.ipPrefix.address.isIp4 = isIp4 ∧
        (added.lookup change.route.ipPrefix = some change.route ∧ change = .added change.route ∨
          deleted.lookup change.route.ipPrefix = some change.route ∧
            change = .deleted change.route) := by
  simp only [changesOf, List.mem_append, List.mem_map, mem_routesOf h.added_own,
    mem_routesOf h.deleted_own]
  cases change with
  | added route => simp [Change.route, and_comm]
  | deleted route => simp [Change.route, and_comm]

def pushAll (s : BgpState) (added deleted : RibIn) : BgpState :=
  let first := (routeUpdates s (routesOf true added) (routesOf true deleted)).1
  (routeUpdates first (routesOf false added) (routesOf false deleted)).1

section

variable (hown : HoldsOwn s.bgpRibIns)

include hown

theorem sameRoutes_pushAll (added deleted : RibIn) : SameRoutes s (pushAll s added deleted) := by
  have h1 := sameRoutes_routeUpdates hown (routesOf true added) (routesOf true deleted)
  have hown1 : HoldsOwn (routeUpdates s (routesOf true added) (routesOf true deleted)).1.bgpRibIns := by
    rw [h1.2]
    exact hown
  have h2 := sameRoutes_routeUpdates hown1 (routesOf false added) (routesOf false deleted)
  exact ⟨h2.1.trans h1.1, h2.2.trans h1.2⟩

theorem lookup_pushAll (h : IsPushed added deleted) (change : Change)
    (hchange : added.lookup change.route.ipPrefix = some change.route ∧ change = .added change.route ∨
      deleted.lookup change.route.ipPrefix = some change.route ∧ change = .deleted change.route) :
    (pushAll s added deleted).bgpRoutes.lookup change.route.ipPrefix =
      (afterChange s change (s.bgpRoutes.lookup change.route.ipPrefix, [])).1 := by
  have hsame := sameRoutes_routeUpdates hown (routesOf true added) (routesOf true deleted)
  have hown' : HoldsOwn (routeUpdates s (routesOf true added) (routesOf true deleted)).1.bgpRibIns := by
    rw [hsame.2]
    exact hown
  have hnot : ∀ isIp4, change.route.ipPrefix.address.isIp4 ≠ isIp4 →
      ∀ other ∈ changesOf (routesOf isIp4 added) (routesOf isIp4 deleted),
        other.route.ipPrefix ≠ change.route.ipPrefix := by
    intro isIp4 hne other hother heq
    exact hne (heq ▸ ((mem_changesOf h).mp hother).1)
  cases hip : change.route.ipPrefix.address.isIp4 with
  | true =>
    have hfirst := selection_of_mem hown (nodup_changesOf h true) ((mem_changesOf h).mpr ⟨hip, hchange⟩)
    have hsecond := selection_of_notMem hown' (hnot false (by rw [hip]; exact Bool.noConfusion))
    rw [← hfirst]
    exact congrArg Prod.fst hsecond
  | false =>
    have hfirst := selection_of_notMem hown (hnot true (by rw [hip]; exact Bool.noConfusion))
    have hsecond := selection_of_mem hown' (nodup_changesOf h false)
      ((mem_changesOf h).mpr ⟨hip, hchange⟩)
    rw [afterChange_congr hsame] at hsecond
    refine (congrArg Prod.fst hsecond).trans ?_
    rw [show (routeUpdates s (routesOf true added) (routesOf true deleted)).1.bgpRoutes.lookup
      change.route.ipPrefix = s.bgpRoutes.lookup change.route.ipPrefix from congrArg Prod.fst hfirst]

theorem lookup_pushAll_of_neither (h : IsPushed added deleted)
    {p : IpPrefix} (hadded : added.lookup p = none) (hdeleted : deleted.lookup p = none) :
    (pushAll s added deleted).bgpRoutes.lookup p = s.bgpRoutes.lookup p := by
  have hsame := sameRoutes_routeUpdates hown (routesOf true added) (routesOf true deleted)
  have hown' : HoldsOwn (routeUpdates s (routesOf true added) (routesOf true deleted)).1.bgpRibIns := by
    rw [hsame.2]
    exact hown
  have hnot : ∀ isIp4, ∀ change ∈ changesOf (routesOf isIp4 added) (routesOf isIp4 deleted),
      change.route.ipPrefix ≠ p := by
    rintro isIp4 change hmem rfl
    rcases ((mem_changesOf h).mp hmem).2 with ⟨hlookup, _⟩ | ⟨hlookup, _⟩
    · rw [hadded] at hlookup
      cases hlookup
    · rw [hdeleted] at hlookup
      cases hlookup
  exact (congrArg Prod.fst (selection_of_notMem hown' (hnot false))).trans
    (congrArg Prod.fst (selection_of_notMem hown (hnot true)))

end

end Tables

end BgpRouteSelector

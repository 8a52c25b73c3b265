import Onos.RouteManager

/-! Resolved routes agree with the stored routes and the known hosts at rest, if no stale set of
routes is submitted last and no host loses the next hop of a route. -/
namespace RouteManager

open IpAddresses KeyedMap KeyedQueue InputMachine BgpRouteStores Tournament

section Properties

def IsCurrent (hosts : Table HostId Host) (resolved : ResolvedRoute) : Prop :=
  ∃ host ∈ getHostsByIp hosts resolved.route.nextHop,
    resolved.nextHopMac = host.mac ∧ resolved.nextHopVlan = host.vlan

def IsResolvable (hosts : Table HostId Host) (route : Route) : Prop :=
  getHostsByIp hosts route.nextHop ≠ []

namespace State

structure AgreesAt (s : State) (p : IpPrefix) : Prop where
  isSome_iff : (s.getRoute p).isSome ↔ ∃ route ∈ (s.getRoutes p).routes, IsResolvable s.hosts route
  best : ∀ resolved, s.getRoute p = some resolved →
    resolved.route ∈ (s.getRoutes p).routes ∧ IsCurrent s.hosts resolved ∧
      ∀ route ∈ (s.getRoutes p).routes, IsResolvable s.hosts route →
        (compareTo resolved.route.nextHop route.nextHop).isLE = true
  alternatives : ∀ route, (∃ resolved ∈ s.getAllRoutes p, resolved.route = route) ↔
    route ∈ (s.getRoutes p).routes ∧ IsResolvable s.hosts route
  current : ∀ resolved ∈ s.getAllRoutes p, IsCurrent s.hosts resolved

def Covers (s : State) (p : IpPrefix) (ips : Finset IpAddress) : Prop :=
  ∃ route ∈ (s.getRoutes p).routes, route.nextHop ∈ ips

/-- The rest of the task submits the routes of the prefix, as they are now. -/
def Serves (s : State) (p : IpPrefix) (task : HostTask) : Prop :=
  s.Covers p task.nextHops ∨ p ∈ task.keys ∨ s.getRoutes p ∈ task.routeSets

/-- The routes of the prefix are going to be submitted later, as they are now. -/
def IsDue (s : State) (p : IpPrefix) : Prop :=
  p ∈ s.routeEvents ∨ (∃ task ∈ s.storeExecutor, task.key = p) ∨
    (∃ host ∈ s.hostEvents, s.Covers p host.ipAddresses) ∨
      ∃ e ∈ s.hostEventExecutors, s.Serves p e.2

def IsYetToResolve (s : State) (route : Route) : Prop :=
  ∃ task ∈ (tasksOf s.routeResolvers route.ipPrefix).getLast?, route ∈ task.unresolved

def lostAddresses (s : State) (host : Host) : Finset IpAddress :=
  match s.hosts.lookup host.id with
  | none => ∅
  | some old => old.ipAddresses \ host.ipAddresses

/-- A host does not lose the next hop of a route unless the route is going to be resolved anyway, and
what is submitted for a host are the current routes unless these are submitted later. -/
def Attentive (s : State) : Action → Prop
  | .hostUpdated host => ∀ route ∈ s.routes, route.nextHop ∈ s.lostAddresses host →
    s.IsDue route.ipPrefix ∨ s.Covers route.ipPrefix host.ipAddresses ∨ s.IsYetToResolve route
  | .submit _ routeSet => routeSet = s.getRoutes routeSet.ipPrefix ∨ s.IsDue routeSet.ipPrefix
  | _ => True

end State

end Properties

section Comparing

theorem compareTo_eq : compareTo = compareLex (compareOn version)
    (fun a b => List.compareLex compare a.toOctets b.toOctets) := rfl

instance transCmp_compareTo : Std.TransCmp compareTo := by
  have hlex : Std.TransCmp
      (List.compareLex (compare : WireBytes.Byte → WireBytes.Byte → Ordering)) := inferInstance
  have hoctets : Std.TransCmp fun a b : IpAddress =>
      List.compareLex compare a.toOctets b.toOctets :=
    { eq_swap := hlex.eq_swap
      isLE_trans := hlex.isLE_trans }
  rw [compareTo_eq]
  infer_instance

def compareNextHops (route1 route2 : ResolvedRoute) : Ordering :=
  compareTo route1.route.nextHop route2.route.nextHop

instance transCmp_compareNextHops : Std.TransCmp compareNextHops where
  eq_swap := transCmp_compareTo.eq_swap
  isLE_trans := transCmp_compareTo.isLE_trans

theorem decide_eq : ResolvedRoute.decide = lesser compareNextHops := rfl

theorem reduce_eq_none {routes : List ResolvedRoute} :
    ResolvedRoute.reduce routes = none ↔ routes = [] := by
  cases routes with
  | nil => exact iff_of_true rfl rfl
  | cons route routes => exact iff_of_false (Option.some_ne_none _) (List.cons_ne_nil _ _)

theorem reduce_eq_some {routes : List ResolvedRoute} {best : ResolvedRoute}
    (h : ResolvedRoute.reduce routes = some best) :
    best ∈ routes ∧ ∀ route ∈ routes,
      (compareTo best.route.nextHop route.route.nextHop).isLE = true := by
  cases routes with
  | nil => cases h
  | cons route routes =>
    injection h with h
    rw [← h, decide_eq]
    exact ⟨foldl_lesser_mem _ _ _, foldl_lesser_le compareNextHops route routes⟩

end Comparing

section Hosts

variable {hosts hosts' : Table HostId Host} {host : Host} {id : HostId} {ip : IpAddress}

theorem mem_getHostsByIp : host ∈ getHostsByIp hosts ip ↔
    (∃ id, hosts.lookup id = some host) ∧ ip ∈ host.ipAddresses := by
  rw [getHostsByIp, List.mem_filter, mem_values_iff, decide_eq_true_eq]

def SameOwners (hosts hosts' : Table HostId Host) (ip : IpAddress) : Prop :=
  ∀ host, host ∈ getHostsByIp hosts' ip ↔ host ∈ getHostsByIp hosts ip

theorem SameOwners.refl (hosts : Table HostId Host) (ip : IpAddress) : SameOwners hosts hosts ip :=
  fun _ => Iff.rfl

theorem sameOwners_of_lookup (hold : ∀ old, hosts.lookup id = some old → ip ∉ old.ipAddresses)
    (hnew : ∀ new, hosts'.lookup id = some new → ip ∉ new.ipAddresses)
    (hother : ∀ j, j ≠ id → hosts'.lookup j = hosts.lookup j) : SameOwners hosts hosts' ip := by
  intro host
  rw [mem_getHostsByIp, mem_getHostsByIp]
  constructor
  · rintro ⟨⟨j, hj⟩, hip⟩
    have hne : j ≠ id := by
      rintro rfl
      exact hnew host hj hip
    exact ⟨⟨j, (hother j hne).symm.trans hj⟩, hip⟩
  · rintro ⟨⟨j, hj⟩, hip⟩
    have hne : j ≠ id := by
      rintro rfl
      exact hold host hj hip
    exact ⟨⟨j, (hother j hne).trans hj⟩, hip⟩

theorem sameOwners_insert (hold : ∀ old, hosts.lookup host.id = some old → ip ∉ old.ipAddresses)
    (hnew : ip ∉ host.ipAddresses) : SameOwners hosts (hosts.insert host.id host) ip := by
  refine sameOwners_of_lookup hold ?_ fun j hj => ?_
  · intro new hlookup
    rw [lookup_insert, if_pos rfl] at hlookup
    cases hlookup
    exact hnew
  · rw [lookup_insert, if_neg hj]

theorem sameOwners_erase (hold : ∀ old, hosts.lookup id = some old → ip ∉ old.ipAddresses) :
    SameOwners hosts (hosts.erase id) ip := by
  refine sameOwners_of_lookup hold ?_ fun j hj => ?_
  · intro new hlookup
    rw [lookup_erase, if_pos rfl] at hlookup
    cases hlookup
  · rw [lookup_erase, if_neg hj]

theorem IsCurrent.congr {resolved : ResolvedRoute}
    (h : SameOwners hosts hosts' resolved.route.nextHop) (hcurrent : IsCurrent hosts resolved) :
    IsCurrent hosts' resolved := by
  obtain ⟨host, hmem, hsame⟩ := hcurrent
  exact ⟨host, (h host).mpr hmem, hsame⟩

theorem isResolvable_iff {route : Route} :
    IsResolvable hosts route ↔ ∃ host, host ∈ getHostsByIp hosts route.nextHop :=
  ⟨List.exists_mem_of_ne_nil _, fun ⟨_, hmem⟩ => List.ne_nil_of_mem hmem⟩

theorem IsResolvable.congr {route : Route} (h : SameOwners hosts hosts' route.nextHop)
    (hresolvable : IsResolvable hosts' route) : IsResolvable hosts route := by
  obtain ⟨host, hmem⟩ := isResolvable_iff.mp hresolvable
  exact isResolvable_iff.mpr ⟨host, (h host).mp hmem⟩

structure Resolves (hosts : Table HostId Host) (routes : Finset Route)
    (resolved : List ResolvedRoute) : Prop where
  mem : ∀ r ∈ resolved, r.route ∈ routes
  current : ∀ r ∈ resolved, IsCurrent hosts r
  complete : ∀ route ∈ routes, IsResolvable hosts route → ∃ r ∈ resolved, r.route = route

variable {routes : Finset Route} {resolved : List ResolvedRoute}

theorem Resolves.congr (h : Resolves hosts routes resolved)
    (hsame : ∀ route ∈ routes, SameOwners hosts hosts' route.nextHop) :
    Resolves hosts' routes resolved where
  mem := h.mem
  current r hr := (h.current r hr).congr (hsame _ (h.mem r hr))
  complete route hroute hresolvable := h.complete route hroute (hresolvable.congr (hsame _ hroute))

theorem resolves_empty (hosts : Table HostId Host) : Resolves hosts ∅ [] where
  mem := by simp
  current := by simp
  complete := by simp

end Hosts

section Invariant

def IsOfPrefix (routeSet : RouteSet) : Prop :=
  ∀ route ∈ routeSet.routes, route.ipPrefix = routeSet.ipPrefix

structure IsTaskOf (p : IpPrefix) (task : ResolverTask) : Prop where
  ipPrefix : task.routeSet.ipPrefix = p
  isOfPrefix : IsOfPrefix task.routeSet
  unresolved : task.unresolved ⊆ task.routeSet.routes
  resolved : ∀ r ∈ task.resolvedRoutes, r.route ∈ task.routeSet.routes

namespace State

def ResolvesNow (s : State) (p : IpPrefix) (task : ResolverTask) : Prop :=
  task.routeSet = s.getRoutes p ∧
    Resolves s.hosts (task.routeSet.routes \ task.unresolved) task.resolvedRoutes

def HoldsNow (s : State) (p : IpPrefix) : Prop :=
  ∃ resolved, Resolves s.hosts (s.getRoutes p).routes resolved ∧
    s.getRoute p = ResolvedRoute.reduce resolved ∧ s.getAllRoutes p = resolved.toFinset

def EndsRight (s : State) (p : IpPrefix) : Prop :=
  match (tasksOf s.routeResolvers p).getLast? with
  | some task => s.ResolvesNow p task
  | none => s.HoldsNow p

def tasksFor (tasks : List StoreTask) (p : IpPrefix) : List StoreTask :=
  tasks.filter fun task => task.key = p

def NotifiesLatest (s : State) (p : IpPrefix) : Prop :=
  p ∈ s.routeEvents ∨ ∀ subject,
    (tasksFor s.storeExecutor p).getLast? = some (.notify subject) → subject = s.getRoutes p

structure Sound (s : State) : Prop where
  hasOneVersion : ∀ route ∈ s.routes, HasOneVersion route
  notified : ∀ subject, .notify subject ∈ s.storeExecutor → IsOfPrefix subject
  read : ∀ e ∈ s.hostEventExecutors, ∀ routeSet ∈ e.2.routeSets, IsOfPrefix routeSet
  resolving : ∀ e ∈ s.routeResolvers, IsTaskOf e.1 e.2

structure Invariant (s : State) : Prop extends s.Sound where
  notifiesLatest : ∀ p, s.NotifiesLatest p
  isDue_or_endsRight : ∀ p, s.IsDue p ∨ s.EndsRight p

variable {s t : State} {p : IpPrefix}

@[simp] theorem getRoutes_ipPrefix (s : State) (p : IpPrefix) : (s.getRoutes p).ipPrefix = p := rfl

@[simp] theorem mem_getRoutes {route : Route} :
    route ∈ (s.getRoutes p).routes ↔ route ∈ s.routes ∧ route.ipPrefix = p := by
  simp [getRoutes]

theorem isOfPrefix_getRoutes (s : State) (p : IpPrefix) : IsOfPrefix (s.getRoutes p) :=
  fun _ hroute => (mem_getRoutes.mp hroute).2

theorem Serves.congr {task : HostTask} (hroutes : t.getRoutes p = s.getRoutes p)
    (h : s.Serves p task) : t.Serves p task := by
  rw [Serves, Covers, hroutes]
  exact h

theorem IsDue.mono (h : s.IsDue p) (hroutes : t.getRoutes p = s.getRoutes p)
    (hevents : p ∈ s.routeEvents → t.IsDue p)
    (htasks : ∀ task ∈ s.storeExecutor, task.key = p → t.IsDue p)
    (hhosts : ∀ host ∈ s.hostEvents, s.Covers p host.ipAddresses → t.IsDue p)
    (hwork : ∀ e ∈ s.hostEventExecutors, e ∈ t.hostEventExecutors ∨ (s.Serves p e.2 → t.IsDue p)) :
    t.IsDue p := by
  rcases h with h | ⟨task, htask, hkey⟩ | ⟨host, hhost, hcovers⟩ | ⟨e, he, hserves⟩
  · exact hevents h
  · exact htasks task htask hkey
  · exact hhosts host hhost hcovers
  · rcases hwork e he with hmem | hgo
    · exact Or.inr (Or.inr (Or.inr ⟨e, hmem, hserves.congr hroutes⟩))
    · exact hgo hserves

theorem isDue_of_event (h : p ∈ s.routeEvents) : s.IsDue p := Or.inl h

theorem isDue_of_task {task : StoreTask} (h : task ∈ s.storeExecutor) (hkey : task.key = p) :
    s.IsDue p := Or.inr (Or.inl ⟨task, h, hkey⟩)

theorem isDue_of_host {host : Host} (h : host ∈ s.hostEvents)
    (hcovers : s.Covers p host.ipAddresses) : s.IsDue p := Or.inr (Or.inr (Or.inl ⟨host, h, hcovers⟩))

theorem isDue_of_work {e : HostId × HostTask} (h : e ∈ s.hostEventExecutors)
    (hserves : s.Serves p e.2) : s.IsDue p := Or.inr (Or.inr (Or.inr ⟨e, h, hserves⟩))

theorem EndsRight.congr (h : s.EndsRight p) (hroutes : t.getRoutes p = s.getRoutes p)
    (hhosts : ∀ route ∈ (s.getRoutes p).routes, SameOwners s.hosts t.hosts route.nextHop ∨
      s.IsYetToResolve route)
    (htasks : tasksOf t.routeResolvers p = tasksOf s.routeResolvers p)
    (hroute : t.getRoute p = s.getRoute p) (hall : t.getAllRoutes p = s.getAllRoutes p) :
    t.EndsRight p := by
  unfold EndsRight at h ⊢
  rw [htasks]
  cases hlast : (tasksOf s.routeResolvers p).getLast? with
  | none =>
    rw [hlast] at h
    obtain ⟨resolved, hresolves, hbest, halternatives⟩ := h
    refine ⟨resolved, ?_, hroute.trans hbest, hall.trans halternatives⟩
    rw [hroutes]
    refine hresolves.congr fun route hmem => (hhosts route hmem).resolve_right ?_
    rintro ⟨task, htask, -⟩
    rw [(mem_getRoutes.mp hmem).2, hlast] at htask
    cases htask
  | some task =>
    rw [hlast] at h
    refine ⟨h.1.trans hroutes.symm, h.2.congr fun route hmem => ?_⟩
    rw [Finset.mem_sdiff, h.1] at hmem
    refine (hhosts route hmem.1).resolve_right ?_
    rintro ⟨other, hother, hyet⟩
    rw [(mem_getRoutes.mp hmem.1).2, hlast] at hother
    cases hother
    exact hmem.2 hyet

end State

end Invariant

section Steps

namespace State

variable {s : State} {p : IpPrefix}

theorem Invariant.changeRoutes (h : s.Invariant) {routes : DistributedRouteStore}
    {events : List IpPrefix} (hversion : ∀ route ∈ routes, HasOneVersion route)
    (hsame : ∀ p, p ∈ events ∨ ∀ route : Route, route.ipPrefix = p → (route ∈ routes ↔ route ∈ s.routes)) :
    ({ s with routes := routes, routeEvents := s.routeEvents ++ events } : State).Invariant where
  hasOneVersion := hversion
  notified := h.notified
  read := h.read
  resolving := h.resolving
  notifiesLatest p := by
    rcases hsame p with hevent | hsame
    · exact Or.inl (List.mem_append_right _ hevent)
    · rcases h.notifiesLatest p with hevent | hlatest
      · exact Or.inl (List.mem_append_left _ hevent)
      · refine Or.inr fun subject hlast => (hlatest subject hlast).trans ?_
        rw [getRoutes, getRoutes, RouteSet.mk.injEq]
        refine ⟨rfl, Finset.ext fun route => ?_⟩
        rw [Finset.mem_filter, Finset.mem_filter]
        exact and_congr_left fun hp => (hsame route hp).symm
  isDue_or_endsRight p := by
    rcases hsame p with hevent | hsame
    · exact Or.inl (isDue_of_event (List.mem_append_right _ hevent))
    · have hroutes : ({ s with routes := routes, routeEvents := s.routeEvents ++ events } :
          State).getRoutes p = s.getRoutes p := by
        rw [getRoutes, getRoutes, RouteSet.mk.injEq]
        refine ⟨rfl, Finset.ext fun route => ?_⟩
        rw [Finset.mem_filter, Finset.mem_filter]
        exact and_congr_left fun hp => hsame route hp
      rcases h.isDue_or_endsRight p with hdue | hright
      · left
        refine hdue.mono hroutes (fun hevent => isDue_of_event (List.mem_append_left _ hevent))
          (fun task htask hkey => isDue_of_task htask hkey) ?_ fun e he => Or.inl he
        intro host hhost hcovers
        refine isDue_of_host hhost ?_
        rw [Covers, hroutes]
        exact hcovers
      · right
        exact hright.congr hroutes (fun _ _ => Or.inl (SameOwners.refl _ _)) rfl rfl rfl

theorem Invariant.updateRoutes (h : s.Invariant) {routes : List Route}
    (hversion : ∀ route ∈ routes, HasOneVersion route) : (s.updateRoutes routes).Invariant := by
  apply h.changeRoutes
  · intro route hmem
    rcases (mem_updateRoutes _ _ _).mp hmem with hold | hnew
    · exact h.hasOneVersion route hold
    · exact hversion route hnew
  · intro p
    by_cases hp : ∃ route ∈ routes, route ∉ s.routes ∧ route.ipPrefix = p
    · obtain ⟨route, hmem, hnew, rfl⟩ := hp
      left
      refine List.mem_map_of_mem (List.mem_filter.mpr ⟨List.mem_dedup.mpr hmem, ?_⟩)
      simpa using hnew
    · right
      intro route hroute
      rw [mem_updateRoutes]
      refine ⟨fun hmem => hmem.elim id fun hnew => ?_, Or.inl⟩
      by_contra hold
      exact hp ⟨route, hnew, hold, hroute⟩

theorem Invariant.removeRoutes (h : s.Invariant) (routes : List Route) :
    (s.removeRoutes routes).Invariant := by
  apply h.changeRoutes
  · intro route hmem
    exact h.hasOneVersion route ((mem_removeRoutes _ _ _).mp hmem).1
  · intro p
    by_cases hp : ∃ route ∈ routes, route ∈ s.routes ∧ route.ipPrefix = p
    · obtain ⟨route, hmem, hold, rfl⟩ := hp
      left
      refine List.mem_map_of_mem (List.mem_filter.mpr ⟨List.mem_dedup.mpr hmem, ?_⟩)
      simpa using hold
    · right
      intro route hroute
      rw [mem_removeRoutes]
      exact ⟨fun hmem => hmem.1, fun hold => ⟨hold, fun hmem => hp ⟨route, hmem, hold, hroute⟩⟩⟩

variable {route : Route}

theorem Invariant.replaceRoute (h : s.Invariant) (hversion : HasOneVersion route) :
    (s.replaceRoute route).Invariant := by
  unfold State.replaceRoute
  rw [List.append_assoc]
  apply h.changeRoutes
  · intro other hmem
    rcases Finset.mem_insert.mp hmem with rfl | hold
    · exact hversion
    · exact h.hasOneVersion other (Finset.mem_filter.mp hold).1
  · intro p
    by_cases hp : p = route.ipPrefix
    · subst hp
      by_cases hmem : route ∈ s.routes
      · by_cases hothers : ((s.getRoutes route.ipPrefix).routes.erase route).card = 0
        · right
          intro other hother
          rw [Finset.mem_insert, Finset.mem_filter]
          constructor
          · rintro (rfl | ⟨hold, -⟩)
            · exact hmem
            · exact hold
          · intro hold
            left
            by_contra hne
            have hin : other ∈ (s.getRoutes route.ipPrefix).routes.erase route :=
              Finset.mem_erase.mpr ⟨hne, mem_getRoutes.mpr ⟨hold, hother⟩⟩
            rw [Finset.card_eq_zero.mp hothers] at hin
            exact absurd hin (Finset.notMem_empty _)
        · exact Or.inl (List.mem_append_left _ (List.mem_replicate.mpr ⟨hothers, rfl⟩))
      · rw [if_neg hmem]
        exact Or.inl (List.mem_append_right _ List.mem_cons_self)
    · right
      intro other hother
      rw [Finset.mem_insert, Finset.mem_filter]
      constructor
      · rintro (rfl | ⟨hold, -⟩)
        · exact absurd hother.symm hp
        · exact hold
      · intro hold
        exact Or.inr ⟨hold, fun heq => hp (hother.symm.trans heq)⟩

theorem tasksFor_cons (task : StoreTask) (tasks : List StoreTask) (p : IpPrefix) :
    tasksFor (task :: tasks) p = if task.key = p then task :: tasksFor tasks p else tasksFor tasks p := by
  simp only [tasksFor, List.filter_cons, decide_eq_true_eq]

theorem tasksFor_concat (task : StoreTask) (tasks : List StoreTask) (p : IpPrefix) :
    tasksFor (tasks ++ [task]) p =
      if task.key = p then tasksFor tasks p ++ [task] else tasksFor tasks p := by
  unfold tasksFor
  rw [List.filter_append, List.filter_cons, List.filter_nil]
  by_cases h : task.key = p
  · rw [if_pos h, if_pos (decide_eq_true h)]
  · rw [if_neg h, if_neg fun hd => h (of_decide_eq_true hd), List.append_nil]

theorem Invariant.routeEvent (h : s.Invariant) : s.routeEvent.Invariant := by
  unfold State.routeEvent
  cases hevents : s.routeEvents with
  | nil => exact h
  | cons key events =>
    dsimp only
    refine { h with notified := ?_, notifiesLatest := fun p => ?_, isDue_or_endsRight := fun p => ?_ }
    · intro subject hmem
      rcases List.mem_append.mp hmem with hold | hnew
      · exact h.notified subject hold
      · cases List.mem_singleton.mp hnew
    · by_cases hp : key = p
      · right
        intro subject hlast
        rw [tasksFor_concat, if_pos (by exact hp), List.getLast?_concat] at hlast
        cases hlast
      · rcases h.notifiesLatest p with hmem | hlatest
        · rw [hevents] at hmem
          exact Or.inl ((List.mem_cons.mp hmem).resolve_left (Ne.symm hp))
        · right
          intro subject hlast
          rw [tasksFor_concat, if_neg (by exact hp)] at hlast
          exact hlatest subject hlast
    · rcases h.isDue_or_endsRight p with hdue | hright
      · left
        refine hdue.mono rfl ?_ ?_ (fun host hhost hcovers => isDue_of_host hhost hcovers) fun e he => Or.inl he
        · intro hmem
          rw [hevents] at hmem
          rcases List.mem_cons.mp hmem with rfl | hrest
          · exact isDue_of_task (List.mem_append_right _ List.mem_cons_self) rfl
          · exact isDue_of_event hrest
        · intro task htask hkey
          exact isDue_of_task (List.mem_append_left _ htask) hkey
      · exact Or.inr (hright.congr rfl (fun _ _ => Or.inl (SameOwners.refl _ _)) rfl rfl rfl)

theorem tasksOf_resolve (s : State) (routes : RouteSet) (p : IpPrefix) :
    tasksOf (s.resolve routes).routeResolvers p =
      if routes.ipPrefix = p then tasksOf s.routeResolvers p ++ [⟨routes, routes.routes, []⟩]
      else tasksOf s.routeResolvers p := tasksOf_submit _ _ _ _

theorem endsRight_resolve (s : State) (p : IpPrefix) : (s.resolve (s.getRoutes p)).EndsRight p := by
  unfold EndsRight
  rw [tasksOf_resolve, if_pos (getRoutes_ipPrefix s p), List.getLast?_concat]
  refine ⟨rfl, ?_⟩
  rw [Finset.sdiff_self]
  exact resolves_empty _

theorem EndsRight.resolve (h : s.EndsRight p) {routes : RouteSet} (hne : routes.ipPrefix ≠ p) :
    (s.resolve routes).EndsRight p := by
  refine h.congr rfl (fun _ _ => Or.inl (SameOwners.refl _ _)) ?_ rfl rfl
  rw [tasksOf_resolve, if_neg hne]

theorem Sound.resolve (h : s.Sound) {routes : RouteSet} (hroutes : IsOfPrefix routes) :
    (s.resolve routes).Sound := by
  refine { h with resolving := fun e he => ?_ }
  rcases mem_submit.mp he with hold | rfl
  · exact h.resolving e hold
  · exact ⟨rfl, hroutes, Finset.Subset.refl _, by simp⟩

section StoreExecutor

variable {key : IpPrefix} {subject : RouteSet} {tasks : List StoreTask}

theorem IsDue.withTasks (h : s.IsDue p) (tasks : List StoreTask)
    (htasks : ∀ task ∈ s.storeExecutor, task.key = p → ∃ other ∈ tasks, other.key = p) :
    ({ s with storeExecutor := tasks } : State).IsDue p := by
  refine h.mono rfl (fun hevent => isDue_of_event hevent) ?_
    (fun host hhost hcovers => isDue_of_host hhost hcovers) fun e he => Or.inl he
  intro task htask hkey
  obtain ⟨other, hother, hof⟩ := htasks task htask hkey
  exact isDue_of_task hother hof

theorem EndsRight.withTasks (h : s.EndsRight p) (tasks : List StoreTask) :
    ({ s with storeExecutor := tasks } : State).EndsRight p :=
  h.congr rfl (fun _ _ => Or.inl (SameOwners.refl _ _)) rfl rfl rfl

theorem Invariant.storeTask_event (h : s.Invariant)
    (htasks : s.storeExecutor = .event key :: tasks) :
    ({ s with storeExecutor := tasks ++ [.notify (s.getRoutes key)] } : State).Invariant := by
  refine { h with notified := ?_, notifiesLatest := fun p => ?_, isDue_or_endsRight := fun p => ?_ }
  · intro subject hmem
    rcases List.mem_append.mp hmem with hold | hnew
    · exact h.notified subject (htasks ▸ List.mem_cons_of_mem _ hold)
    · cases List.mem_singleton.mp hnew
      exact isOfPrefix_getRoutes s key
  · by_cases hp : key = p
    · right
      intro subject hlast
      rw [tasksFor_concat, if_pos (by exact hp), List.getLast?_concat] at hlast
      cases hlast
      rw [← hp]
      rfl
    · refine (h.notifiesLatest p).imp_right fun hlatest subject hlast => ?_
      rw [tasksFor_concat, if_neg (by exact hp)] at hlast
      refine hlatest subject ?_
      rw [htasks, tasksFor_cons, if_neg (by exact hp)]
      exact hlast
  · refine (h.isDue_or_endsRight p).imp (fun hdue => hdue.withTasks _ ?_)
      fun hright => hright.withTasks _
    intro task htask hkey
    rw [htasks] at htask
    rcases List.mem_cons.mp htask with rfl | hrest
    · exact ⟨_, List.mem_append_right _ List.mem_cons_self, hkey⟩
    · exact ⟨task, List.mem_append_left _ hrest, hkey⟩

theorem Invariant.endsRight_notify (h : s.Invariant)
    (htasks : s.storeExecutor = .notify subject :: tasks)
    (hlast : ∀ other ∈ tasks, other.key ≠ subject.ipPrefix)
    (hevents : subject.ipPrefix ∉ s.routeEvents) :
    (({ s with storeExecutor := tasks } : State).resolve subject).EndsRight subject.ipPrefix := by
  have hlatest := (h.notifiesLatest subject.ipPrefix).resolve_left hevents
  have hnil : tasksFor tasks subject.ipPrefix = [] := by
    rw [tasksFor, List.filter_eq_nil_iff]
    intro other hother hkey
    exact hlast other hother (by simpa using hkey)
  have hsubject : subject = s.getRoutes subject.ipPrefix := by
    apply hlatest
    rw [htasks, tasksFor_cons, if_pos (by rfl), hnil]
    rfl
  have hright := endsRight_resolve { s with storeExecutor := tasks } subject.ipPrefix
  exact (congrArg (fun routes => (({ s with storeExecutor := tasks } : State).resolve
    routes).EndsRight subject.ipPrefix) hsubject).mpr hright

theorem Invariant.storeTask_notify (h : s.Invariant)
    (htasks : s.storeExecutor = .notify subject :: tasks) :
    (({ s with storeExecutor := tasks } : State).resolve subject).Invariant := by
  have hsound : ({ s with storeExecutor := tasks } : State).Sound :=
    { h with notified := fun other hmem =>
        h.notified other (htasks ▸ List.mem_cons_of_mem _ hmem) }
  have hof : IsOfPrefix subject := h.notified subject (htasks ▸ List.mem_cons_self)
  refine { hsound.resolve hof with notifiesLatest := fun p => ?_, isDue_or_endsRight := fun p => ?_ }
  · -- the last one for the prefix goes last
    refine (h.notifiesLatest p).imp_right fun hlatest other hlast => hlatest other ?_
    rw [htasks]
    by_cases hp : subject.ipPrefix = p
    · rw [tasksFor_cons, if_pos (by exact hp), List.getLast?_cons,
        show (tasksFor tasks p).getLast? = some (.notify other) from hlast]
      rfl
    · rw [tasksFor_cons, if_neg (by exact hp)]
      exact hlast
  · by_cases hp : subject.ipPrefix = p
    · subst hp
      by_cases hrest : ∃ other ∈ tasks, other.key = subject.ipPrefix
      · obtain ⟨other, hother, hkey⟩ := hrest
        exact Or.inl (isDue_of_task hother hkey)
      by_cases hevent : subject.ipPrefix ∈ s.routeEvents
      · exact Or.inl (isDue_of_event hevent)
      · right
        exact h.endsRight_notify htasks (fun other hother hkey => hrest ⟨other, hother, hkey⟩) hevent
    · refine (h.isDue_or_endsRight p).imp (fun hdue => ?_) fun hright =>
        (hright.withTasks tasks).resolve hp
      have hkept : ({ s with storeExecutor := tasks } : State).IsDue p := by
        apply hdue.withTasks
        intro task htask hkey
        rw [htasks] at htask
        rcases List.mem_cons.mp htask with rfl | hmem
        · exact absurd hkey hp
        · exact ⟨task, hmem, hkey⟩
      exact hkept

theorem Invariant.storeTask (h : s.Invariant) : s.storeTask.Invariant := by
  unfold State.storeTask
  cases htasks : s.storeExecutor with
  | nil => exact h
  | cons task tasks =>
    cases task with
    | event key => exact h.storeTask_event htasks
    | notify subject => exact h.storeTask_notify htasks

end StoreExecutor

theorem mem_lostAddresses {host old : Host} {ip : IpAddress}
    (hold : s.hosts.lookup host.id = some old) :
    ip ∈ s.lostAddresses host ↔ ip ∈ old.ipAddresses ∧ ip ∉ host.ipAddresses := by
  rw [lostAddresses, hold]
  exact Finset.mem_sdiff

theorem Invariant.changeHosts (h : s.Invariant) {hosts : Table HostId Host} {host : Host}
    (howners : ∀ route ∈ s.routes, s.IsDue route.ipPrefix ∨
      s.Covers route.ipPrefix host.ipAddresses ∨ s.IsYetToResolve route ∨
        SameOwners s.hosts hosts route.nextHop) :
    ({ s with hosts := hosts, hostEvents := s.hostEvents ++ [host] } : State).Invariant := by
  have hdue : ∀ p, s.IsDue p →
      ({ s with hosts := hosts, hostEvents := s.hostEvents ++ [host] } : State).IsDue p := by
    intro p hdue
    exact hdue.mono rfl (fun hevent => isDue_of_event hevent)
      (fun task htask hkey => isDue_of_task htask hkey)
      (fun host hhost hcovers => isDue_of_host (List.mem_append_left _ hhost) hcovers)
      fun e he => Or.inl he
  refine { h with isDue_or_endsRight := fun p => ?_ }
  rcases h.isDue_or_endsRight p with hp | hright
  · exact Or.inl (hdue p hp)
  · by_cases hany : s.IsDue p ∨ s.Covers p host.ipAddresses
    · left
      rcases hany with hp | hcovers
      · exact hdue p hp
      · exact isDue_of_host (List.mem_append_right _ List.mem_cons_self) hcovers
    · right
      refine hright.congr rfl (fun route hroute => ?_) rfl rfl rfl
      obtain ⟨hmem, rfl⟩ := mem_getRoutes.mp hroute
      rcases howners route hmem with hp | hcovers | hyet | hsame
      · exact absurd (Or.inl hp) hany
      · exact absurd (Or.inr hcovers) hany
      · exact Or.inr hyet
      · exact Or.inl hsame

theorem Invariant.hostUpdated (h : s.Invariant) {host : Host} (hok : s.Attentive (.hostUpdated host)) :
    (s.hostUpdated host).Invariant := by
  apply h.changeHosts
  intro route hmem
  by_cases hnew : route.nextHop ∈ host.ipAddresses
  · exact Or.inr (Or.inl ⟨route, mem_getRoutes.mpr ⟨hmem, rfl⟩, hnew⟩)
  · by_cases hlost : route.nextHop ∈ s.lostAddresses host
    · rcases hok route hmem hlost with hdue | hcovers | hyet
      · exact Or.inl hdue
      · exact Or.inr (Or.inl hcovers)
      · exact Or.inr (Or.inr (Or.inl hyet))
    · refine Or.inr (Or.inr (Or.inr (sameOwners_insert ?_ hnew)))
      intro old hold hip
      exact hlost ((mem_lostAddresses hold).mpr ⟨hip, hnew⟩)

theorem Invariant.hostRemoved (h : s.Invariant) (id : HostId) : (s.hostRemoved id).Invariant := by
  unfold State.hostRemoved
  cases hlookup : s.hosts.lookup id with
  | none => exact h
  | some host =>
    apply h.changeHosts
    intro route hmem
    by_cases hip : route.nextHop ∈ host.ipAddresses
    · exact Or.inr (Or.inl ⟨route, mem_getRoutes.mpr ⟨hmem, rfl⟩, hip⟩)
    · refine Or.inr (Or.inr (Or.inr (sameOwners_erase ?_)))
      intro old hold
      rw [hlookup] at hold
      cases hold
      exact hip

theorem Invariant.hostEvent (h : s.Invariant) : s.hostEvent.Invariant := by
  unfold State.hostEvent
  cases hevents : s.hostEvents with
  | nil => exact h
  | cons host events =>
    dsimp only
    refine { h with read := ?_, isDue_or_endsRight := fun p => ?_ }
    · intro e he routeSet hmem
      rcases mem_submit.mp he with hold | rfl
      · exact h.read e hold routeSet hmem
      · exact absurd hmem (Finset.notMem_empty _)
    · refine (h.isDue_or_endsRight p).imp (fun hdue => ?_) fun hright =>
        hright.congr rfl (fun _ _ => Or.inl (SameOwners.refl _ _)) rfl rfl rfl
      refine hdue.mono rfl (fun hevent => isDue_of_event hevent)
        (fun task htask hkey => isDue_of_task htask hkey) ?_ fun e he => Or.inl (mem_submit.mpr (Or.inl he))
      intro other hother hcovers
      rw [hevents] at hother
      rcases List.mem_cons.mp hother with rfl | hrest
      · exact isDue_of_work (mem_submit.mpr (Or.inr rfl)) (Or.inl hcovers)
      · exact isDue_of_host hrest hcovers

variable {id : HostId} {u : Option HostTask}

theorem IsDue.goOn {task : HostTask} (h : s.IsDue p) (hfirst : s.hostTask id = some task)
    (hserves : s.Serves p task → ∃ next, u = some next ∧ s.Serves p next) : (s.goOn id u).IsDue p := by
  obtain ⟨rest, htasks⟩ := List.head?_eq_some_iff.mp hfirst
  refine h.mono rfl (fun hevent => isDue_of_event hevent)
    (fun task htask hkey => isDue_of_task htask hkey)
    (fun host hhost hcovers => isDue_of_host hhost hcovers) fun e he => ?_
  refine (mem_proceed htasks u he).imp_right ?_
  rintro rfl hserved
  obtain ⟨next, rfl, hnext⟩ := hserves hserved
  exact isDue_of_work (mem_proceed_some htasks next) hnext

theorem Sound.goOn (h : s.Sound)
    (hread : ∀ next, u = some next → ∀ routeSet ∈ next.routeSets, IsOfPrefix routeSet) :
    (s.goOn id u).Sound := by
  refine { h with read := fun e he => ?_ }
  rcases mem_of_mem_proceed he with hold | ⟨-, hnew⟩
  · exact h.read e hold
  · exact hread e.2 hnew

theorem Sound.isOfPrefix (h : s.Sound) {task : HostTask}
    (hfirst : s.hostTask id = some task) : ∀ routeSet ∈ task.routeSets, IsOfPrefix routeSet := by
  obtain ⟨rest, htasks⟩ := List.head?_eq_some_iff.mp hfirst
  have hmem : (id, task) ∈ s.hostEventExecutors := by
    apply mem_tasksOf.mp
    rw [htasks]
    exact List.mem_cons_self
  exact h.read (id, task) hmem

theorem EndsRight.goOn (h : s.EndsRight p) (id : HostId) (u : Option HostTask) :
    (s.goOn id u).EndsRight p :=
  h.congr rfl (fun _ _ => Or.inl (SameOwners.refl _ _)) rfl rfl rfl

section

variable (h : s.Invariant)

include h

theorem Invariant.goOn {task : HostTask} (hfirst : s.hostTask id = some task)
    (hread : ∀ next, u = some next → ∀ routeSet ∈ next.routeSets, IsOfPrefix routeSet)
    (hserves : ∀ p, s.Serves p task → ∃ next, u = some next ∧ s.Serves p next) :
    (s.goOn id u).Invariant :=
  { h.toSound.goOn hread with
    notifiesLatest := h.notifiesLatest
    isDue_or_endsRight := fun p => (h.isDue_or_endsRight p).imp
      (fun hdue => hdue.goOn hfirst (hserves p)) fun hright => hright.goOn id u }

theorem Invariant.search {isIp4 : Bool}
    (henabled : s.Enabled (.search id isIp4)) : (s.search id isIp4).Invariant := by
  obtain ⟨task, htask, hkeys, -⟩ := henabled
  unfold State.search
  rw [Option.mem_def.mp htask]
  refine h.goOn htask ?_ fun p hserves => ⟨_, rfl, ?_⟩
  · intro next hnext routeSet hmem
    cases hnext
    exact h.isOfPrefix htask routeSet hmem
  · rcases hserves with ⟨route, hroute, hip⟩ | hkey | hread
    · obtain ⟨hmem, rfl⟩ := mem_getRoutes.mp hroute
      by_cases hversion : route.nextHop.isIp4 = isIp4
      · right
        left
        apply Finset.mem_image_of_mem
        rw [Finset.mem_filter]
        exact ⟨hmem, (h.hasOneVersion route hmem).trans hversion, hversion, hip⟩
      · exact Or.inl ⟨route, hroute, Finset.mem_filter.mpr ⟨hip, hversion⟩⟩
    · rw [hkeys] at hkey
      exact absurd hkey (Finset.notMem_empty _)
    · exact Or.inr (Or.inr hread)

theorem Invariant.readRoutes {key : IpPrefix}
    (henabled : s.Enabled (.read id key)) : (s.read id key).Invariant := by
  obtain ⟨task, htask, -⟩ := henabled
  unfold State.read
  rw [Option.mem_def.mp htask]
  refine h.goOn htask ?_ fun p hserves => ⟨_, rfl, ?_⟩
  · intro next hnext routeSet hmem
    cases hnext
    rcases Finset.mem_insert.mp hmem with rfl | hold
    · exact isOfPrefix_getRoutes s key
    · exact h.isOfPrefix htask routeSet hold
  · rcases hserves with hcovers | hkey | hread
    · exact Or.inl hcovers
    · right
      by_cases hp : p = key
      · subst hp
        exact Or.inr (Finset.mem_insert_self _ _)
      · exact Or.inl (Finset.mem_erase.mpr ⟨hp, hkey⟩)
    · exact Or.inr (Or.inr (Finset.mem_insert_of_mem hread))

theorem Invariant.finish (henabled : s.Enabled (.finish id)) : (s.goOn id none).Invariant := by
  obtain ⟨task, htask, hnextHops, hkeys, hroutes⟩ := henabled
  refine h.goOn htask (fun _ hnext => by cases hnext) fun p hserves => ?_
  rcases hserves with ⟨route, -, hip⟩ | hkey | hread
  · rw [hnextHops] at hip
    exact absurd hip (Finset.notMem_empty _)
  · rw [hkeys] at hkey
    exact absurd hkey (Finset.notMem_empty _)
  · rw [hroutes] at hread
    exact absurd hread (Finset.notMem_empty _)

theorem Invariant.submit {routeSet : RouteSet}
    (henabled : s.Enabled (.submit id routeSet)) (hok : s.Attentive (.submit id routeSet)) :
    (s.submit id routeSet).Invariant := by
  obtain ⟨task, htask, -, -, hmem⟩ := henabled
  unfold State.submit
  rw [Option.mem_def.mp htask]
  have hsound : (s.goOn id (some { task with routeSets := task.routeSets.erase routeSet })).Sound := by
    refine h.toSound.goOn fun next hnext other hother => ?_
    cases hnext
    exact h.isOfPrefix htask other (Finset.mem_of_mem_erase hother)
  have hdue : ∀ p, s.getRoutes p ≠ routeSet → s.IsDue p →
      (s.goOn id (some { task with routeSets := task.routeSets.erase routeSet })).IsDue p := by
    intro p hne hp
    refine hp.goOn htask fun hserves => ⟨_, rfl, ?_⟩
    exact hserves.imp_right (Or.imp_right fun hread => Finset.mem_erase.mpr ⟨hne, hread⟩)
  refine { hsound.resolve (h.isOfPrefix htask routeSet hmem) with
    notifiesLatest := h.notifiesLatest, isDue_or_endsRight := fun p => ?_ }
  by_cases hp : routeSet = s.getRoutes p
  · right
    rw [hp]
    exact endsRight_resolve (s.goOn id _) p
  · by_cases heq : routeSet.ipPrefix = p
    · subst heq
      exact Or.inl (hdue _ (Ne.symm hp) (hok.resolve_left hp))
    · refine (h.isDue_or_endsRight p).imp (hdue p (Ne.symm hp)) fun hright => ?_
      exact (hright.goOn id _).resolve heq

end

variable {task : ResolverTask}

theorem Sound.isTaskOf (h : s.Sound) (hfirst : s.resolverTask p = some task) : IsTaskOf p task := by
  obtain ⟨rest, htasks⟩ := List.head?_eq_some_iff.mp hfirst
  have hmem : (p, task) ∈ s.routeResolvers := by
    apply mem_tasksOf.mp
    rw [htasks]
    exact List.mem_cons_self
  exact h.resolving (p, task) hmem

theorem resolves_concat {routes unresolved : Finset Route} {resolved : List ResolvedRoute}
    (h : Resolves s.hosts (routes \ unresolved) resolved) (hmem : route ∈ routes)
    {found : Option Host} (hfound : s.IsFound route.nextHop found) :
    Resolves s.hosts (routes \ unresolved.erase route)
      (resolved ++ (found.map fun host => (⟨route, host.mac, host.vlan⟩ : ResolvedRoute)).toList) := by
  have hsdiff : ∀ other, other ∈ routes \ unresolved → other ∈ routes \ unresolved.erase route := by
    intro other hother
    rw [Finset.mem_sdiff] at hother ⊢
    exact ⟨hother.1, fun herase => hother.2 (Finset.mem_of_mem_erase herase)⟩
  have hroute : route ∈ routes \ unresolved.erase route :=
    Finset.mem_sdiff.mpr ⟨hmem, Finset.notMem_erase _ _⟩
  have hnew : ∀ r ∈ (found.map fun host => (⟨route, host.mac, host.vlan⟩ : ResolvedRoute)).toList,
      r.route = route ∧ IsCurrent s.hosts r := by
    intro r hr
    obtain ⟨host, rfl, rfl⟩ := Option.map_eq_some_iff.mp (Option.mem_toList.mp hr)
    exact ⟨rfl, host, hfound, rfl, rfl⟩
  constructor
  · intro r hr
    rcases List.mem_append.mp hr with hold | hr
    · exact hsdiff _ (h.mem r hold)
    · rw [(hnew r hr).1]
      exact hroute
  · intro r hr
    rcases List.mem_append.mp hr with hold | hr
    · exact h.current r hold
    · exact (hnew r hr).2
  · intro other hother hresolvable
    by_cases heq : other = route
    · subst heq
      cases found with
      | none => exact absurd hfound hresolvable
      | some host =>
        exact ⟨⟨other, host.mac, host.vlan⟩, List.mem_append_right _ List.mem_cons_self, rfl⟩
    · rw [Finset.mem_sdiff, Finset.mem_erase] at hother
      have hold : other ∈ routes \ unresolved :=
        Finset.mem_sdiff.mpr ⟨hother.1, fun hin => hother.2 ⟨heq, hin⟩⟩
      obtain ⟨r, hr, hroute⟩ := h.complete other hold hresolvable
      exact ⟨r, List.mem_append_left _ hr, hroute⟩

theorem Invariant.resolveRoute (h : s.Invariant) {found : Option Host}
    (henabled : s.Enabled (.resolve p route found)) : (s.resolveRoute p route found).Invariant := by
  obtain ⟨⟨task, htask, hroute⟩, hfound⟩ := henabled
  have hof := h.isTaskOf htask
  obtain ⟨rest, htasks⟩ := List.head?_eq_some_iff.mp (Option.mem_def.mp htask)
  unfold State.resolveRoute
  rw [Option.mem_def.mp htask]
  refine { h with resolving := fun e he => ?_, isDue_or_endsRight := fun q => ?_ }
  · rcases mem_of_mem_proceed he with hold | ⟨hkey, hnew⟩
    · exact h.resolving e hold
    · rw [hkey, ← Option.some.inj hnew]
      refine { hof with unresolved := ?_, resolved := fun r hr => ?_ }
      · exact fun other hother => hof.unresolved (Finset.mem_of_mem_erase hother)
      · rcases List.mem_append.mp hr with hold | hr
        · exact hof.resolved r hold
        · obtain ⟨host, -, rfl⟩ := Option.map_eq_some_iff.mp (Option.mem_toList.mp hr)
          exact hof.unresolved hroute
  · refine (h.isDue_or_endsRight q).imp (fun hdue => hdue) fun hright => ?_
    by_cases hq : q = p
    · subst hq
      unfold EndsRight at hright ⊢
      rw [htasks] at hright
      dsimp only
      rw [tasksOf_proceed_self htasks]
      cases rest with
      | nil => exact ⟨hright.1, resolves_concat hright.2 (hof.unresolved hroute) hfound⟩
      | cons other rest => exact hright
    · refine hright.congr rfl (fun _ _ => Or.inl (SameOwners.refl _ _)) ?_ rfl rfl
      exact tasksOf_proceed_of_ne hq _ _

theorem holds_store (hof : IsTaskOf p task) (htask : s.resolverTask p = some task) (q : IpPrefix) :
    (s.store p).getRoute q = (if q = p then ResolvedRoute.reduce task.resolvedRoutes else s.getRoute q) ∧
      (s.store p).getAllRoutes q =
        (if q = p then task.resolvedRoutes.toFinset else s.getAllRoutes q) := by
  unfold State.store
  rw [htask]
  dsimp only
  cases hbest : ResolvedRoute.reduce task.resolvedRoutes with
  | none =>
    rw [reduce_eq_none.mp hbest, hof.ipPrefix]
    simp only [removeRoute, getRoute, getAllRoutes, lookup_erase]
    by_cases hq : q = p
    · simp [hq]
    · simp [hq]
  | some best =>
    have hmem := (reduce_eq_some hbest).1
    have hbegins : best.route.ipPrefix = p :=
      (hof.isOfPrefix _ (hof.resolved best hmem)).trans hof.ipPrefix
    have hinsert : insert best task.resolvedRoutes.toFinset = task.resolvedRoutes.toFinset :=
      Finset.insert_eq_of_mem (List.mem_toFinset.mpr hmem)
    simp only [updateRoute, getRoute, getAllRoutes, hbegins, hinsert, KeyedMap.lookup_insert]
    by_cases hq : q = p
    · simp [hq]
    · simp [hq]

theorem store_eq (s : State) (htask : s.resolverTask p = some task) :
    ∃ routeTable alternativeRoutes, s.store p = { s with
      routeResolvers := proceed p none s.routeResolvers
      routeTable := routeTable
      alternativeRoutes := alternativeRoutes } := by
  unfold State.store
  rw [htask]
  dsimp only
  cases ResolvedRoute.reduce task.resolvedRoutes with
  | none => exact ⟨_, _, rfl⟩
  | some best => exact ⟨_, _, rfl⟩

theorem Invariant.store (h : s.Invariant) (henabled : s.Enabled (.store p)) :
    (s.store p).Invariant := by
  obtain ⟨task, htask, hdone⟩ := henabled
  have hof := h.isTaskOf htask
  have hholds := holds_store hof htask
  obtain ⟨rest, htasks⟩ := List.head?_eq_some_iff.mp (Option.mem_def.mp htask)
  obtain ⟨routeTable, alternativeRoutes, heq⟩ := store_eq s htask
  rw [heq] at hholds ⊢
  refine { h with resolving := fun e he => ?_, isDue_or_endsRight := fun q => ?_ }
  · rcases mem_of_mem_proceed he with hold | ⟨-, hnew⟩
    · exact h.resolving e hold
    · cases hnew
  · refine (h.isDue_or_endsRight q).imp (fun hdue => hdue) fun hright => ?_
    by_cases hq : q = p
    · subst hq
      unfold EndsRight at hright ⊢
      rw [htasks] at hright
      dsimp only
      rw [tasksOf_proceed_self htasks]
      cases rest with
      | nil =>
        have hroutes : task.routeSet = s.getRoutes q := hright.1
        have hresolves : Resolves s.hosts (task.routeSet.routes \ task.unresolved)
            task.resolvedRoutes := hright.2
        rw [hdone, Finset.sdiff_empty, hroutes] at hresolves
        refine ⟨task.resolvedRoutes, hresolves, ?_, ?_⟩
        · exact (hholds q).1.trans (if_pos rfl)
        · exact (hholds q).2.trans (if_pos rfl)
      | cons other rest => exact hright
    · refine hright.congr rfl (fun _ _ => Or.inl (SameOwners.refl _ _)) ?_ ?_ ?_
      · exact tasksOf_proceed_of_ne hq _ _
      · exact (hholds q).1.trans (if_neg hq)
      · exact (hholds q).2.trans (if_neg hq)

theorem Invariant.step (h : s.Invariant) {a : Action} (henabled : s.Enabled a) (hok : s.Attentive a) :
    (s.step a).Invariant := by
  cases a with
  | updateRoutes routes => exact h.updateRoutes henabled
  | removeRoutes routes => exact h.removeRoutes routes
  | replaceRoute route => exact h.replaceRoute henabled
  | routeEvent => exact h.routeEvent
  | storeTask => exact h.storeTask
  | hostUpdated host => exact h.hostUpdated hok
  | hostRemoved id => exact h.hostRemoved id
  | hostEvent => exact h.hostEvent
  | search id isIp4 => exact h.search henabled
  | read id key => exact h.readRoutes henabled
  | submit id routeSet => exact h.submit henabled hok
  | finish id => exact h.finish henabled
  | resolve p route found => exact h.resolveRoute henabled
  | store p => exact h.store henabled

end State

end Steps

section Runs

variable {routes : List Route} {hosts : Table HostId Host}

namespace State

theorem mem_routeResolvers_activate {e : IpPrefix × ResolverTask} :
    e ∈ (activate routes hosts).routeResolvers ↔ (∃ route ∈ routes, route.ipPrefix = e.1) ∧
      e.2 = ⟨(activate routes hosts).getRoutes e.1, ((activate routes hosts).getRoutes e.1).routes, []⟩ := by
  simp only [activate, List.mem_map, List.mem_dedup]
  constructor
  · rintro ⟨p, ⟨route, hmem, rfl⟩, rfl⟩
    exact ⟨⟨route, hmem, rfl⟩, rfl⟩
  · rintro ⟨⟨route, hmem, hp⟩, htask⟩
    exact ⟨e.1, ⟨route, hmem, hp⟩, Prod.ext rfl htask.symm⟩

theorem endsRight_activate (routes : List Route) (hosts : Table HostId Host) (p : IpPrefix) :
    (activate routes hosts).EndsRight p := by
  unfold EndsRight
  cases hlast : (tasksOf (activate routes hosts).routeResolvers p).getLast? with
  | none =>
    have hnone : (activate routes hosts).getRoutes p = ⟨p, ∅⟩ := by
      rw [getRoutes, RouteSet.mk.injEq]
      refine ⟨rfl, Finset.eq_empty_of_forall_notMem fun route hroute => ?_⟩
      obtain ⟨hmem, hp⟩ := Finset.mem_filter.mp hroute
      have hin : (p, (⟨(activate routes hosts).getRoutes p,
          ((activate routes hosts).getRoutes p).routes, []⟩ : ResolverTask)) ∈
          (activate routes hosts).routeResolvers :=
        mem_routeResolvers_activate.mpr ⟨⟨route, List.mem_toFinset.mp hmem, hp⟩, rfl⟩
      have htask := mem_tasksOf.mpr hin
      rw [List.getLast?_eq_none_iff.mp hlast] at htask
      cases htask
    refine ⟨[], ?_, rfl, rfl⟩
    rw [hnone]
    exact resolves_empty _
  | some task =>
    have hmem := mem_tasksOf.mp (List.mem_of_getLast? hlast)
    obtain ⟨-, htask⟩ := mem_routeResolvers_activate.mp hmem
    have heq : task = ⟨(activate routes hosts).getRoutes p,
      ((activate routes hosts).getRoutes p).routes, []⟩ := htask
    rw [heq]
    refine ⟨rfl, ?_⟩
    rw [Finset.sdiff_self]
    exact resolves_empty _

theorem invariant_activate (hversion : ∀ route ∈ routes, HasOneVersion route) :
    (activate routes hosts).Invariant where
  hasOneVersion route hmem := hversion route (List.mem_toFinset.mp hmem)
  notified subject hmem := absurd hmem List.not_mem_nil
  read e hmem := absurd hmem List.not_mem_nil
  resolving e hmem := by
    obtain ⟨-, htask⟩ := mem_routeResolvers_activate.mp hmem
    rw [htask]
    exact ⟨rfl, isOfPrefix_getRoutes _ _, Finset.Subset.refl _, by simp⟩
  notifiesLatest p := Or.inr fun subject hlast => by cases hlast
  isDue_or_endsRight p := Or.inr (endsRight_activate routes hosts p)

variable {s : State} {p : IpPrefix}

theorem not_isDue (h : s.IsAtRest) : ¬s.IsDue p := by
  obtain ⟨hevents, htasks, hhosts, hwork, -⟩ := h
  rw [IsDue, hevents, htasks, hhosts, hwork]
  simp

theorem AgreesAt.of_holdsNow (h : s.HoldsNow p) : s.AgreesAt p := by
  obtain ⟨resolved, hresolves, hroute, hall⟩ := h
  have hiff : ∀ route, (∃ r ∈ resolved, r.route = route) ↔
      route ∈ (s.getRoutes p).routes ∧ IsResolvable s.hosts route := by
    intro route
    constructor
    · rintro ⟨r, hr, rfl⟩
      obtain ⟨host, hhost, -⟩ := hresolves.current r hr
      exact ⟨hresolves.mem r hr, isResolvable_iff.mpr ⟨host, hhost⟩⟩
    · rintro ⟨hmem, hresolvable⟩
      exact hresolves.complete route hmem hresolvable
  constructor
  · rw [hroute, Option.isSome_iff_ne_none, Ne, reduce_eq_none]
    constructor
    · intro hne
      obtain ⟨r, hr⟩ := List.exists_mem_of_ne_nil _ hne
      exact ⟨r.route, (hiff r.route).mp ⟨r, hr, rfl⟩⟩
    · rintro ⟨route, hboth⟩
      obtain ⟨r, hr, -⟩ := (hiff route).mpr hboth
      exact List.ne_nil_of_mem hr
  · intro best hbest
    obtain ⟨hmem, hleast⟩ := reduce_eq_some (hroute.symm.trans hbest)
    refine ⟨hresolves.mem best hmem, hresolves.current best hmem, fun route hin hresolvable => ?_⟩
    obtain ⟨r, hr, rfl⟩ := hresolves.complete route hin hresolvable
    exact hleast r hr
  · intro route
    rw [hall]
    simp only [List.mem_toFinset]
    exact hiff route
  · intro r hr
    rw [hall, List.mem_toFinset] at hr
    exact hresolves.current r hr

theorem Invariant.agreesAt (h : s.Invariant) (hrest : s.IsAtRest) (p : IpPrefix) : s.AgreesAt p := by
  have hright := (h.isDue_or_endsRight p).resolve_left (not_isDue hrest)
  unfold EndsRight at hright
  rw [hrest.2.2.2.2] at hright
  exact AgreesAt.of_holdsNow hright

end State

/-- In every run that is attentive, the resolved routes agree with the routes and the hosts once no
task is pending. -/
theorem agrees_at_rest (hversion : ∀ route ∈ routes, HasOneVersion route) {xs : List Action}
    (hv : ((machine routes hosts).guarded State.Attentive).Valid (State.activate routes hosts) xs)
    (hrest : ((machine routes hosts).run (State.activate routes hosts) xs).IsAtRest) (p : IpPrefix) :
    ((machine routes hosts).run (State.activate routes hosts) xs).AgreesAt p := by
  have hstep : ∀ s a, State.Invariant s →
      ((machine routes hosts).guarded State.Attentive).enabled s a →
        State.Invariant (((machine routes hosts).guarded State.Attentive).next s a) :=
    fun s a h ha => h.step ha.1 ha.2
  have hinv : (((machine routes hosts).guarded State.Attentive).run
      (State.activate routes hosts) xs).Invariant :=
    invariant_run State.Invariant hstep hv (State.invariant_activate hversion)
  exact hinv.agreesAt hrest p

end Runs

section Examples

namespace State

variable (s : State)

instance decidableCovers (p : IpPrefix) (ips : Finset IpAddress) : Decidable (s.Covers p ips) :=
  inferInstanceAs (Decidable (∃ route ∈ (s.getRoutes p).routes, route.nextHop ∈ ips))

instance decidableServes (p : IpPrefix) (task : HostTask) : Decidable (s.Serves p task) :=
  inferInstanceAs (Decidable (_ ∨ _ ∨ _))

instance decidableIsDue (p : IpPrefix) : Decidable (s.IsDue p) :=
  inferInstanceAs (Decidable (_ ∨ _ ∨ _ ∨ _))

instance decidableIsYetToResolve (route : Route) : Decidable (s.IsYetToResolve route) :=
  Option.decidableExistsMem _

instance decidableAttentive : (a : Action) → Decidable (s.Attentive a)
  | .hostUpdated host => inferInstanceAs (Decidable (∀ route ∈ s.routes,
      route.nextHop ∈ s.lostAddresses host → s.IsDue route.ipPrefix ∨
        s.Covers route.ipPrefix host.ipAddresses ∨ s.IsYetToResolve route))
  | .submit _ routeSet =>
    inferInstanceAs (Decidable (routeSet = s.getRoutes routeSet.ipPrefix ∨ s.IsDue routeSet.ipPrefix))
  | .updateRoutes _ | .removeRoutes _ | .replaceRoute _ | .routeEvent | .storeTask | .hostRemoved _
  | .hostEvent | .search _ _ | .read _ _ | .finish _ | .resolve _ _ _ | .store _ => isTrue trivial

instance decidableIsHostTask (id : HostId) (holds : HostTask → Prop) [DecidablePred holds] :
    Decidable (s.IsHostTask id holds) := Option.decidableExistsMem _

instance decidableIsResolverTask (p : IpPrefix) (holds : ResolverTask → Prop) [DecidablePred holds] :
    Decidable (s.IsResolverTask p holds) := Option.decidableExistsMem _

instance decidableIsFound (ip : IpAddress) : (found : Option Host) → Decidable (s.IsFound ip found)
  | none => inferInstanceAs (Decidable (getHostsByIp s.hosts ip = []))
  | some host => inferInstanceAs (Decidable (host ∈ getHostsByIp s.hosts ip))

instance decidableEnabled : (a : Action) → Decidable (s.Enabled a)
  | .updateRoutes routes => inferInstanceAs (Decidable (∀ route ∈ routes, HasOneVersion route))
  | .replaceRoute route => inferInstanceAs (Decidable (HasOneVersion route))
  | .search id isIp4 => inferInstanceAs (Decidable (s.IsHostTask id fun task =>
      task.keys = ∅ ∧ ∃ ip ∈ task.nextHops, ip.isIp4 = isIp4))
  | .read id key => inferInstanceAs (Decidable (s.IsHostTask id fun task => key ∈ task.keys))
  | .submit id routeSet => inferInstanceAs (Decidable (s.IsHostTask id fun task =>
      task.nextHops = ∅ ∧ task.keys = ∅ ∧ routeSet ∈ task.routeSets))
  | .finish id => inferInstanceAs (Decidable (s.IsHostTask id fun task =>
      task.nextHops = ∅ ∧ task.keys = ∅ ∧ task.routeSets = ∅))
  | .resolve p route found => inferInstanceAs (Decidable
      ((s.IsResolverTask p fun task => route ∈ task.unresolved) ∧ s.IsFound route.nextHop found))
  | .store p => inferInstanceAs (Decidable (s.IsResolverTask p fun task => task.unresolved = ∅))
  | .removeRoutes _ | .routeEvent | .storeTask | .hostUpdated _ | .hostRemoved _ | .hostEvent =>
    isTrue trivial

instance decidableIsAtRest : Decidable s.IsAtRest := inferInstanceAs (Decidable (_ ∧ _ ∧ _ ∧ _ ∧ _))

end State

instance decidableEnabled (routes : List Route) (hosts : Table HostId Host) (s : State) (a : Action) :
    Decidable ((machine routes hosts).enabled s a) := inferInstanceAs (Decidable (s.Enabled a))

def gateway : Host := ⟨⟨1#48, 10#16⟩, 1#48, 10#16, {.INET 0x0a000001#32}⟩

def subnet : IpPrefix := (IpAddress.INET 0xc0a80000#32).toIpPrefix

def viaGateway : Route := ⟨subnet, .INET 0x0a000001#32⟩

def known : Table HostId Host := (∅ : Table HostId Host).insert gateway.id gateway

def resolving : List Action :=
  [.updateRoutes [viaGateway], .routeEvent, .storeTask, .storeTask,
    .resolve subnet viaGateway (some gateway), .store subnet, .hostUpdated gateway, .hostEvent,
    .search gateway.id true, .read gateway.id subnet]

theorem agrees_at_rest_gateway : ((machine [] known).run (State.activate [] known) (resolving ++
      [.submit gateway.id ⟨subnet, {viaGateway}⟩, .finish gateway.id,
        .resolve subnet viaGateway (some gateway), .store subnet])).getRoute subnet =
        some ⟨viaGateway, 1#48, 10#16⟩ ∧
      ((machine [] known).run (State.activate [] known) (resolving ++
        [.submit gateway.id ⟨subnet, {viaGateway}⟩, .finish gateway.id,
          .resolve subnet viaGateway (some gateway), .store subnet])).AgreesAt subnet :=
  ⟨by decide, agrees_at_rest (by decide) (by decide) (by decide) subnet⟩

def losing : List Action :=
  [.updateRoutes [viaGateway], .routeEvent, .storeTask, .storeTask,
    .resolve subnet viaGateway (some gateway), .store subnet,
    .hostUpdated { gateway with ipAddresses := ∅ }, .hostEvent, .finish gateway.id]

/-- The route is removed after it was read for the gateway, and what was read is submitted last. -/
def overtaken : List Action :=
  resolving ++ [.removeRoutes [viaGateway], .routeEvent, .storeTask, .storeTask, .store subnet,
    .submit gateway.id ⟨subnet, {viaGateway}⟩, .finish gateway.id,
    .resolve subnet viaGateway (some gateway), .store subnet]

/-- A run that ends at rest, where the resolved routes of the subnet do not agree with the routes
and hosts. -/
def EndsStale (xs : List Action) : Prop :=
  (machine [] known).Valid (State.activate [] known) xs ∧
    ((machine [] known).run (State.activate [] known) xs).IsAtRest ∧
      ¬((machine [] known).run (State.activate [] known) xs).AgreesAt subnet

theorem endsStale_of_isSome {xs : List Action}
    (hv : (machine [] known).Valid (State.activate [] known) xs)
    (hrest : ((machine [] known).run (State.activate [] known) xs).IsAtRest)
    (hsome : (((machine [] known).run (State.activate [] known) xs).getRoute subnet).isSome = true)
    (hnone : ∀ route ∈ (((machine [] known).run (State.activate [] known) xs).getRoutes subnet).routes,
      getHostsByIp ((machine [] known).run (State.activate [] known) xs).hosts route.nextHop = []) :
    EndsStale xs := by
  refine ⟨hv, hrest, fun hagrees => ?_⟩
  obtain ⟨route, hmem, hresolvable⟩ := hagrees.isSome_iff.mp hsome
  exact hresolvable (hnone route hmem)

/-- In both runs a resolved route stays that should be gone. -/
theorem disagrees_at_rest : EndsStale losing ∧ EndsStale overtaken := by
  constructor
  · exact endsStale_of_isSome (by decide) (by decide) (by decide)
      (by decide)
  · exact endsStale_of_isSome (by decide) (by decide) (by decide)
      (by decide)

end Examples

end RouteManager

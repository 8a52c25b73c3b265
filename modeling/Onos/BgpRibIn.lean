import Onos.BgpUpdates

/-! What an UPDATE message does to the routes that are held of its sender: they follow the
announcements and the withdrawals of the message. -/
namespace BgpRibIn

open WireBytes ByteBuffer BufferReaders ChannelBuffer IpAddresses KeyedMap BgpRoutes BgpUpdates

section Model

structure DecodedBgpRoutes where
  addedUnicastRoutes : RibIn
  deletedUnicastRoutes : RibIn

def deleteRoute (ribIn deleted : RibIn) (p : IpPrefix) : RibIn :=
  match ribIn.lookup p with
  | none => deleted
  | some route => deleted.insert p route

def deleteRoutes (ribIn deleted : RibIn) (prefixes : List IpPrefix) : RibIn :=
  prefixes.foldl (deleteRoute ribIn) deleted

/-- The announced prefixes with their next hops. Those of the message itself come last. -/
def announcements (values : PathAttributes) (nlri : List IpPrefix) :
    List (IpPrefix × Option IpAddress) :=
  (values.mpNlriReachList.flatMap fun reach => reach.nlri.map fun p => (p, some reach.nextHop))
    ++ nlri.map fun p => (p, values.nextHop)

def newRoute (session : BgpSession) (values : PathAttributes)
    (announcement : IpPrefix × Option IpAddress) : Except (Thrown UpdateError) BgpRouteEntry :=
  match announcement.2, values.origin, values.asPath, values.localPref with
  | some nextHop, some origin, some asPath, some localPref =>
    .ok ⟨session, announcement.1, nextHop, BitVec.ofNat 8 origin, asPath, localPref,
      values.multiExitDisc⟩
  | _, _, _, _ => .error .nullPointer

def addRoute (session : BgpSession) (decoded : DecodedBgpRoutes) (route : BgpRouteEntry) :
    DecodedBgpRoutes :=
  if route.hasAsPathLoop session.localInfo.asNumber then decoded
  else
    { addedUnicastRoutes := decoded.addedUnicastRoutes.insert route.ipPrefix route
      deletedUnicastRoutes := decoded.deletedUnicastRoutes.erase route.ipPrefix }

def decodeRoutes (session : BgpSession) (ribIn : RibIn) (message : UpdateMessage) :
    Except (Thrown UpdateError) DecodedBgpRoutes :=
  let withdrawn := deleteRoutes ribIn ∅ message.withdrawnPrefixes
  match message.path with
  | .empty _ => .ok ⟨∅, withdrawn⟩
  | .attributes values nlri => do
    let deleted := deleteRoutes ribIn withdrawn values.mpNlriUnreachList.flatten
    let routes ← (announcements values nlri).mapM (newRoute session values)
    return routes.foldl (addRoute session) ⟨∅, deleted⟩

def updateRibIn (ribIn : RibIn) (decoded : DecodedBgpRoutes) : RibIn :=
  insertAll BgpRouteEntry.ipPrefix (eraseAll ribIn decoded.deletedUnicastRoutes.keys)
    (values decoded.addedUnicastRoutes)

def decodeUpdate (session : BgpSession) (ribIn : RibIn) (message : List Byte) :
    Except (Thrown UpdateError) DecodedBgpRoutes := do
  let parsed ← (parseUpdate session).run' ⟨[], message, []⟩
  decodeRoutes session ribIn parsed

def processBgpUpdate (session : BgpSession) (ribIn : RibIn) (message : List Byte) :
    RibIn × Except (Thrown UpdateError) DecodedBgpRoutes :=
  match decodeUpdate session ribIn message with
  | .error e => (ribIn, .error e)
  | .ok decoded => (updateRibIn ribIn decoded, .ok decoded)

end Model

section Contents

/-- What the message announces. Behind an empty section these are the prefixes that can be read. -/
def announced (message : UpdateMessage) : List (IpPrefix × Option IpAddress) :=
  match message.path with
  | .empty unread =>
    match (parsePackedPrefixes ip4 .invalidNetworkField unread.length).run' ⟨[], unread, []⟩ with
    | .error _ => []
    | .ok nlri => announcements {} nlri
  | .attributes values nlri => announcements values nlri

def attributesOf (message : UpdateMessage) : PathAttributes :=
  match message.path with
  | .empty _ => {}
  | .attributes values _ => values

def withdrawn (message : UpdateMessage) : List IpPrefix :=
  message.withdrawnPrefixes ++ (attributesOf message).mpNlriUnreachList.flatten

def HasLoop (session : BgpSession) (message : UpdateMessage) : Prop :=
  ∃ path, (attributesOf message).asPath = some path ∧ path.contains session.localInfo.asNumber

def Follows (session : BgpSession) (ribIn ribIn' : RibIn) (message : UpdateMessage) : Prop :=
  ∀ p, match lastOf Prod.fst (announced message) p with
    | none => ribIn'.lookup p = if p ∈ withdrawn message then none else ribIn.lookup p
    | some announcement =>
      (HasLoop session message → ribIn'.lookup p = none) ∧
        (¬HasLoop session message → ∃ route,
          newRoute session (attributesOf message) announcement = .ok route ∧
            ribIn'.lookup p = some route)

/-- An accepted message is followed, and another one leaves the routes as they were. -/
def FollowsUpdate (session : BgpSession) (ribIn : RibIn) (message : List Byte) : Prop :=
  match processBgpUpdate session ribIn message with
  | (ribIn', .error _) => ribIn' = ribIn
  | (ribIn', .ok _) =>
    ∃ parsed, (parseUpdate session).run' ⟨[], message, []⟩ = .ok parsed ∧
      Follows session ribIn ribIn' parsed

/-- Nothing is announced behind an empty section, and a prefix that is announced with a loop is
withdrawn as well or no route of it is held. -/
def IsHandled (session : BgpSession) (ribIn : RibIn) (message : UpdateMessage) : Prop :=
  (∀ unread, message.path = .empty unread → announced message = []) ∧
    (HasLoop session message → ∀ announcement ∈ announced message,
      announcement.1 ∈ withdrawn message ∨ ribIn.lookup announcement.1 = none)

end Contents

section Decoding

variable {session : BgpSession} {ribIn : RibIn} {values : PathAttributes} {nlri : List IpPrefix}

theorem lookup_deleteRoute (ribIn deleted : RibIn) (p q : IpPrefix) :
    (deleteRoute ribIn deleted q).lookup p =
      if p = q then (ribIn.lookup p).or (deleted.lookup p) else deleted.lookup p := by
  by_cases hpq : p = q
  · subst hpq
    rw [if_pos rfl, deleteRoute]
    cases ribIn.lookup p with
    | none => rw [Option.none_or]
    | some route =>
      dsimp only
      rw [lookup_insert, if_pos rfl, Option.some_or]
  · rw [if_neg hpq, deleteRoute]
    cases ribIn.lookup q with
    | none => rfl
    | some route =>
      dsimp only
      rw [lookup_insert, if_neg hpq]

theorem lookup_deleteRoutes (ribIn deleted : RibIn) (prefixes : List IpPrefix) (p : IpPrefix) :
    (deleteRoutes ribIn deleted prefixes).lookup p =
      if p ∈ prefixes then (ribIn.lookup p).or (deleted.lookup p) else deleted.lookup p := by
  induction prefixes generalizing deleted with
  | nil => rfl
  | cons q prefixes ih =>
    rw [deleteRoutes, List.foldl_cons, ← deleteRoutes, ih, lookup_deleteRoute]
    by_cases hp : p ∈ prefixes
    · by_cases hpq : p = q
      · rw [if_pos hp, if_pos hpq, if_pos (List.mem_cons_of_mem _ hp), ← Option.or_assoc,
          Option.or_self]
      · rw [if_pos hp, if_neg hpq, if_pos (List.mem_cons_of_mem _ hp)]
    · simp only [List.mem_cons, hp, or_false, if_false]

theorem lookup_deleted (first second : List IpPrefix) (p : IpPrefix) :
    (deleteRoutes ribIn (deleteRoutes ribIn ∅ first) second).lookup p =
      if p ∈ first ++ second then ribIn.lookup p else none := by
  simp only [lookup_deleteRoutes, AList.lookup_empty, Option.or_none, List.mem_append]
  by_cases h1 : p ∈ first
  · simp [h1]
  · simp [h1]

theorem lookup_updateRibIn (ribIn : RibIn) (decoded : DecodedBgpRoutes)
    (hkeys : ∀ p route, decoded.addedUnicastRoutes.lookup p = some route → route.ipPrefix = p)
    (p : IpPrefix) :
    (updateRibIn ribIn decoded).lookup p = (decoded.addedUnicastRoutes.lookup p).or
      (if (decoded.deletedUnicastRoutes.lookup p).isSome then none else ribIn.lookup p) := by
  rw [updateRibIn, lookup_insertAll, lastOf_values hkeys, lookup_eraseAll]
  simp only [← AList.mem_keys, ← AList.lookup_isSome]

theorem foldl_addRoute_loop {routes : List BgpRouteEntry} (decoded : DecodedBgpRoutes)
    (h : ∀ route ∈ routes, route.hasAsPathLoop session.localInfo.asNumber = true) :
    routes.foldl (addRoute session) decoded = decoded := by
  induction routes generalizing decoded with
  | nil => rfl
  | cons route routes ih =>
    rw [List.foldl_cons, addRoute, if_pos (h route List.mem_cons_self)]
    exact ih decoded fun r hr => h r (List.mem_cons_of_mem _ hr)

theorem foldl_addRoute {routes : List BgpRouteEntry} (decoded : DecodedBgpRoutes)
    (h : ∀ route ∈ routes, route.hasAsPathLoop session.localInfo.asNumber = false) :
    routes.foldl (addRoute session) decoded =
      ⟨insertAll BgpRouteEntry.ipPrefix decoded.addedUnicastRoutes routes,
        eraseAll decoded.deletedUnicastRoutes (routes.map BgpRouteEntry.ipPrefix)⟩ := by
  induction routes generalizing decoded with
  | nil => rfl
  | cons route routes ih =>
    have hroute : ¬route.hasAsPathLoop session.localInfo.asNumber = true := by
      rw [h route List.mem_cons_self]
      exact Bool.false_ne_true
    rw [List.foldl_cons, addRoute, if_neg hroute]
    exact ih _ fun r hr => h r (List.mem_cons_of_mem _ hr)

end Decoding

section Verified

variable {session : BgpSession} {values : PathAttributes} {nlri : List IpPrefix}

structure IsComplete (values : PathAttributes) (nlri : List IpPrefix) : Prop where
  wellKnown : announcements values nlri ≠ [] →
    values.origin.isSome ∧ values.asPath.isSome ∧ values.localPref.isSome
  nextHop : nlri ≠ [] → values.nextHop.isSome

theorem isComplete_of_verified {b b' : ReadBuffer}
    (h : verifyBgpUpdateWellKnownAttributes session values nlri b = .ok ((), b')) :
    IsComplete values nlri := by
  unfold verifyBgpUpdateWellKnownAttributes at h
  generalize hlegacy : (!session.mpExtensions || !nlri.isEmpty) = hasLegacyNlri at h
  generalize hany : (hasLegacyNlri || !values.mpNlriReachList.isEmpty) = hasNlri at h
  split_ifs at h with h1 h2 h3 h4
  all_goals cases h
  have hlegacyOf : nlri ≠ [] → hasLegacyNlri = true := by
    intro hne
    rw [← hlegacy]
    simp [hne]
  constructor
  · intro hne
    have hnlri : hasNlri = true := by
      by_cases hempty : nlri = []
      · have hreach : values.mpNlriReachList ≠ [] := by
          intro hnil
          apply hne
          simp [announcements, hnil, hempty]
        rw [← hany]
        simp [hreach]
      · rw [← hany, hlegacyOf hempty]
        rfl
    simp only [hnlri, true_and] at h1 h2 h3
    simp only [Option.isSome_iff_ne_none]
    exact ⟨h1, h2, h3⟩
  · intro hne
    simp only [hlegacyOf hne, true_and] at h4
    exact Option.isSome_iff_ne_none.mpr h4

def routeOf (session : BgpSession) (values : PathAttributes)
    (announcement : IpPrefix × Option IpAddress) : BgpRouteEntry :=
  ⟨session, announcement.1, announcement.2.getD (.INET 0), BitVec.ofNat 8 (values.origin.getD 0),
    values.asPath.getD ⟨[]⟩, values.localPref.getD 0, values.multiExitDisc⟩

theorem newRoute_eq (h : IsComplete values nlri) {announcement : IpPrefix × Option IpAddress}
    (ha : announcement ∈ announcements values nlri) :
    newRoute session values announcement = .ok (routeOf session values announcement) := by
  obtain ⟨horigin, hpath, hpref⟩ := h.wellKnown (List.ne_nil_of_mem ha)
  obtain ⟨origin, horigin⟩ := Option.isSome_iff_exists.mp horigin
  obtain ⟨asPath, hpath⟩ := Option.isSome_iff_exists.mp hpath
  obtain ⟨localPref, hpref⟩ := Option.isSome_iff_exists.mp hpref
  have hhop : ∃ nextHop, announcement.2 = some nextHop := by
    rcases List.mem_append.mp ha with hreach | hlegacy
    · obtain ⟨reach, _, hin⟩ := List.mem_flatMap.mp hreach
      obtain ⟨p, _, rfl⟩ := List.mem_map.mp hin
      exact ⟨reach.nextHop, rfl⟩
    · obtain ⟨p, hp, rfl⟩ := List.mem_map.mp hlegacy
      exact Option.isSome_iff_exists.mp (h.nextHop (List.ne_nil_of_mem hp))
  obtain ⟨nextHop, hhop⟩ := hhop
  simp only [newRoute, routeOf, horigin, hpath, hpref, hhop, Option.getD_some]

theorem mapM_newRoute (h : IsComplete values nlri) :
    (announcements values nlri).mapM (newRoute session values) =
      .ok ((announcements values nlri).map (routeOf session values)) := by
  have hall : ∀ as : List (IpPrefix × Option IpAddress), as ⊆ announcements values nlri →
      as.mapM (newRoute session values) = .ok (as.map (routeOf session values)) := by
    intro as
    induction as with
    | nil => intro _; rfl
    | cons a as ih =>
      intro hsub
      rw [List.mapM_cons, newRoute_eq h (hsub List.mem_cons_self),
        ih (List.subset_of_cons_subset hsub)]
      rfl
  exact hall _ (List.Subset.refl _)

end Verified

section Following

variable {session : BgpSession} {ribIn : RibIn} {values : PathAttributes} {nlri : List IpPrefix}
  {withdrawnPrefixes : List IpPrefix}

theorem lastOf_map_routeOf (as : List (IpPrefix × Option IpAddress)) (p : IpPrefix) :
    lastOf BgpRouteEntry.ipPrefix (as.map (routeOf session values)) p =
      (lastOf Prod.fst as p).map (routeOf session values) := by
  rw [lastOf, lastOf, ← List.map_reverse, List.find?_map]
  rfl

theorem hasAsPathLoop_routeOf (h : IsComplete values nlri)
    {announcement : IpPrefix × Option IpAddress} (ha : announcement ∈ announcements values nlri) :
    (routeOf session values announcement).hasAsPathLoop session.localInfo.asNumber = true ↔
      HasLoop session ⟨withdrawnPrefixes, .attributes values nlri⟩ := by
  obtain ⟨path, hpath⟩ := Option.isSome_iff_exists.mp (h.wellKnown (List.ne_nil_of_mem ha)).2.1
  simp only [BgpRouteEntry.hasAsPathLoop, routeOf, HasLoop, attributesOf, hpath, Option.getD_some]
  constructor
  · intro hcontains
    exact ⟨path, rfl, hcontains⟩
  · rintro ⟨_, hsome, hcontains⟩
    cases hsome
    exact hcontains

theorem decodeRoutes_attributes (session : BgpSession) (ribIn : RibIn)
    (withdrawnPrefixes : List IpPrefix) (h : IsComplete values nlri) :
    decodeRoutes session ribIn ⟨withdrawnPrefixes, .attributes values nlri⟩ =
      .ok (((announcements values nlri).map (routeOf session values)).foldl (addRoute session)
        ⟨∅, deleteRoutes ribIn (deleteRoutes ribIn ∅ withdrawnPrefixes)
          values.mpNlriUnreachList.flatten⟩) := by
  simp only [decodeRoutes, mapM_newRoute h]
  rfl

theorem lookup_removed {deleted : RibIn} {prefixes : List IpPrefix}
    (hdel : ∀ p, deleted.lookup p = if p ∈ prefixes then ribIn.lookup p else none) (p : IpPrefix) :
    (updateRibIn ribIn ⟨∅, deleted⟩).lookup p =
      if p ∈ prefixes then none else ribIn.lookup p := by
  rw [lookup_updateRibIn]
  · simp only [hdel, AList.lookup_empty, Option.none_or]
    by_cases hp : p ∈ prefixes
    · cases hr : ribIn.lookup p <;> simp [hp]
    · simp [hp]
  · intro q route hq
    cases hq

theorem follows_empty_iff (unread : List Byte) :
    Follows session ribIn (updateRibIn ribIn ⟨∅, deleteRoutes ribIn ∅ withdrawnPrefixes⟩)
        ⟨withdrawnPrefixes, .empty unread⟩ ↔
      IsHandled session ribIn ⟨withdrawnPrefixes, .empty unread⟩ := by
  have hloop : ¬HasLoop session ⟨withdrawnPrefixes, .empty unread⟩ := by
    rintro ⟨path, hpath, _⟩
    cases hpath
  have hlookup : ∀ p, (updateRibIn ribIn ⟨∅, deleteRoutes ribIn ∅ withdrawnPrefixes⟩).lookup p =
      if p ∈ withdrawn ⟨withdrawnPrefixes, .empty unread⟩ then none else ribIn.lookup p := by
    apply lookup_removed
    intro p
    simp only [lookup_deleteRoutes, AList.lookup_empty, Option.or_none, withdrawn, attributesOf,
      List.flatten_nil, List.append_nil]
  constructor
  · intro h
    refine ⟨?_, fun hl => absurd hl hloop⟩
    intro _ _
    by_contra hne
    obtain ⟨a, ha⟩ := List.exists_mem_of_ne_nil _ hne
    have hp := h a.1
    cases hlast : lastOf Prod.fst (announced ⟨withdrawnPrefixes, .empty unread⟩) a.1 with
    | none => exact lastOf_eq_none.mp hlast a ha rfl
    | some announcement =>
      rw [hlast] at hp
      obtain ⟨route, hroute, _⟩ := hp.2 hloop
      -- the attributes that a route needs are missing
      unfold newRoute at hroute
      split at hroute
      · rename_i horigin _ _
        cases horigin
      · cases hroute
  · rintro ⟨hnone, _⟩ p
    rw [hnone unread rfl]
    exact hlookup p

/-- Where the withdrawn routes are removed, and this is all, a message with a loop is followed when
no other route of an announced prefix is held. -/
theorem follows_removed_iff {ribIn' : RibIn} {message : UpdateMessage}
    (hloop : HasLoop session message)
    (hlookup : ∀ p, ribIn'.lookup p = if p ∈ withdrawn message then none else ribIn.lookup p) :
    Follows session ribIn ribIn' message ↔ ∀ announcement ∈ announced message,
      announcement.1 ∈ withdrawn message ∨ ribIn.lookup announcement.1 = none := by
  constructor
  · intro hf a ha
    have hp := hf a.1
    cases hlast : lastOf Prod.fst (announced message) a.1 with
    | none => exact absurd rfl (lastOf_eq_none.mp hlast a ha)
    | some announcement =>
      rw [hlast] at hp
      have hgone := hp.1 hloop
      rw [hlookup] at hgone
      by_cases hw : a.1 ∈ withdrawn message
      · exact Or.inl hw
      · rw [if_neg hw] at hgone
        exact Or.inr hgone
  · intro hheld p
    cases hlast : lastOf Prod.fst (announced message) p with
    | none => exact hlookup p
    | some announcement =>
      refine ⟨fun _ => ?_, fun hn => absurd hloop hn⟩
      obtain ⟨hmem, hkey⟩ := lastOf_eq_some hlast
      rw [hlookup, ← hkey]
      rcases hheld announcement hmem with hw | hnone
      · rw [if_pos hw]
      · rw [hnone, ite_self]

/-- Without a loop the announced routes are added, and a withdrawn prefix that is announced as well
is not deleted. -/
theorem follows_added (h : IsComplete values nlri) {deleted : RibIn}
    (hloop : ¬HasLoop session ⟨withdrawnPrefixes, .attributes values nlri⟩)
    (hdel : ∀ p, deleted.lookup p =
      if p ∈ withdrawn ⟨withdrawnPrefixes, .attributes values nlri⟩ then ribIn.lookup p else none) :
    Follows session ribIn
      (updateRibIn ribIn
        ⟨insertAll BgpRouteEntry.ipPrefix ∅ ((announcements values nlri).map (routeOf session values)),
          eraseAll deleted (((announcements values nlri).map (routeOf session values)).map
            BgpRouteEntry.ipPrefix)⟩)
      ⟨withdrawnPrefixes, .attributes values nlri⟩ := by
  intro p
  rw [lookup_updateRibIn]
  · simp only [lookup_insertAll, AList.lookup_empty, Option.or_none, lookup_eraseAll,
      lastOf_map_routeOf, hdel]
    cases hlast : lastOf Prod.fst (announced ⟨withdrawnPrefixes, .attributes values nlri⟩) p with
    | none =>
      have hlast' : lastOf Prod.fst (announcements values nlri) p = none := hlast
      have hnot : p ∉ ((announcements values nlri).map (routeOf session values)).map
          BgpRouteEntry.ipPrefix := by
        intro hp
        obtain ⟨_, hroute, rfl⟩ := List.mem_map.mp hp
        obtain ⟨a, ha, rfl⟩ := List.mem_map.mp hroute
        exact lastOf_eq_none.mp hlast' a ha rfl
      simp only [hlast', Option.map_none, Option.none_or, if_neg hnot]
      by_cases hp : p ∈ withdrawn ⟨withdrawnPrefixes, .attributes values nlri⟩
      · cases hr : ribIn.lookup p <;> simp [hp]
      · simp [hp]
    | some announcement =>
      have hlast' : lastOf Prod.fst (announcements values nlri) p = some announcement := hlast
      simp only [hlast', Option.map_some, Option.some_or]
      refine ⟨fun hl => absurd hl hloop, fun _ => ⟨_, ?_, rfl⟩⟩
      exact newRoute_eq h (lastOf_eq_some hlast').1
  · intro q route hq
    rw [lookup_insertAll, AList.lookup_empty, Option.or_none] at hq
    exact (lastOf_eq_some hq).2

theorem follows_attributes_iff (h : IsComplete values nlri) {decoded : DecodedBgpRoutes}
    (hdecoded : decodeRoutes session ribIn ⟨withdrawnPrefixes, .attributes values nlri⟩ =
      .ok decoded) :
    Follows session ribIn (updateRibIn ribIn decoded) ⟨withdrawnPrefixes, .attributes values nlri⟩ ↔
      IsHandled session ribIn ⟨withdrawnPrefixes, .attributes values nlri⟩ := by
  rw [decodeRoutes_attributes session ribIn withdrawnPrefixes h] at hdecoded
  generalize hdeleted : deleteRoutes ribIn (deleteRoutes ribIn ∅ withdrawnPrefixes)
    values.mpNlriUnreachList.flatten = deleted at hdecoded
  have hdel : ∀ p, deleted.lookup p =
      if p ∈ withdrawn ⟨withdrawnPrefixes, .attributes values nlri⟩ then ribIn.lookup p else none := by
    intro p
    rw [← hdeleted]
    exact lookup_deleted withdrawnPrefixes values.mpNlriUnreachList.flatten p
  by_cases hloop : HasLoop session ⟨withdrawnPrefixes, .attributes values nlri⟩
  · have hroutes : ∀ route ∈ (announcements values nlri).map (routeOf session values),
        route.hasAsPathLoop session.localInfo.asNumber = true := by
      intro route hroute
      obtain ⟨a, ha, rfl⟩ := List.mem_map.mp hroute
      exact (hasAsPathLoop_routeOf h ha).mpr hloop
    rw [foldl_addRoute_loop _ hroutes] at hdecoded
    cases hdecoded
    rw [follows_removed_iff hloop (lookup_removed hdel)]
    constructor
    · intro hheld
      exact ⟨fun _ hempty => PathSection.noConfusion hempty, fun _ => hheld⟩
    · rintro ⟨_, hheld⟩
      exact hheld hloop
  · have hroutes : ∀ route ∈ (announcements values nlri).map (routeOf session values),
        route.hasAsPathLoop session.localInfo.asNumber = false := by
      intro route hroute
      obtain ⟨a, ha, rfl⟩ := List.mem_map.mp hroute
      exact Bool.eq_false_iff.mpr fun ht => hloop ((hasAsPathLoop_routeOf h ha).mp ht)
    rw [foldl_addRoute _ hroutes] at hdecoded
    cases hdecoded
    refine iff_of_true (follows_added h hloop hdel) ?_
    exact ⟨fun _ hempty => PathSection.noConfusion hempty, fun hl => absurd hl hloop⟩

theorem isComplete_of_parse {b : ReadBuffer}
    (h : (parseUpdate session).run' b = .ok ⟨withdrawnPrefixes, .attributes values nlri⟩) :
    IsComplete values nlri := by
  obtain ⟨b', h⟩ := run'_eq_ok h
  obtain ⟨remaining, b1, _, h⟩ := bind_apply_eq_ok h
  split at h
  · cases h
  obtain ⟨withdrawnRoutesLength, b2, _, h⟩ := bind_apply_eq_ok h
  obtain ⟨remaining2, b3, _, h⟩ := bind_apply_eq_ok h
  split at h
  · cases h
  obtain ⟨prefixes, b4, _, h⟩ := bind_apply_eq_ok h
  obtain ⟨path, b5, hpath, h⟩ := bind_apply_eq_ok h
  cases h
  obtain ⟨pathAttributeLength, b6, _, hpath⟩ := bind_apply_eq_ok hpath
  obtain ⟨remaining3, b7, _, hpath⟩ := bind_apply_eq_ok hpath
  split at hpath
  · cases hpath
  split at hpath
  · obtain ⟨state, b8, _, hpath⟩ := bind_apply_eq_ok hpath
    cases hpath
  · obtain ⟨position, b8, _, hpath⟩ := bind_apply_eq_ok hpath
    obtain ⟨attributes, b9, _, hpath⟩ := bind_apply_eq_ok hpath
    obtain ⟨length, b10, _, hpath⟩ := bind_apply_eq_ok hpath
    obtain ⟨read, b11, _, hpath⟩ := bind_apply_eq_ok hpath
    obtain ⟨_, b12, hverify, hpath⟩ := bind_apply_eq_ok hpath
    cases hpath
    exact isComplete_of_verified hverify

theorem decodeUpdate_of_parse {message : List Byte} {parsed : UpdateMessage}
    (h : (parseUpdate session).run' ⟨[], message, []⟩ = .ok parsed) :
    decodeUpdate session ribIn message = decodeRoutes session ribIn parsed := by
  rw [decodeUpdate, h]
  rfl

theorem follows_iff (ribIn : RibIn) {message : List Byte} {parsed : UpdateMessage}
    (h : (parseUpdate session).run' ⟨[], message, []⟩ = .ok parsed) :
    ∃ decoded, decodeUpdate session ribIn message = .ok decoded ∧
      (Follows session ribIn (updateRibIn ribIn decoded) parsed ↔ IsHandled session ribIn parsed) := by
  rw [decodeUpdate_of_parse h]
  obtain ⟨withdrawnPrefixes, path⟩ := parsed
  cases path with
  | empty unread => exact ⟨_, rfl, follows_empty_iff unread⟩
  | attributes values nlri =>
    have hcomplete := isComplete_of_parse h
    have hdecoded := decodeRoutes_attributes session ribIn withdrawnPrefixes hcomplete
    exact ⟨_, hdecoded, follows_attributes_iff hcomplete hdecoded⟩

/-- The routes of a peer follow its announcements exactly if no announcement stands behind an empty
section of attributes, and none that has a loop is for a prefix that keeps a route. -/
theorem follows_update_iff (session : BgpSession) (ribIn : RibIn) (message : List Byte) :
    FollowsUpdate session ribIn message ↔
      ∀ parsed, (parseUpdate session).run' ⟨[], message, []⟩ = .ok parsed →
        IsHandled session ribIn parsed := by
  cases hparse : (parseUpdate session).run' ⟨[], message, []⟩ with
  | error e =>
    have hdecode : decodeUpdate session ribIn message = .error e := by
      rw [decodeUpdate, hparse]
      rfl
    simp only [FollowsUpdate, processBgpUpdate, hdecode]
    simp
  | ok parsed =>
    obtain ⟨decoded, hdecode, hiff⟩ := follows_iff ribIn hparse
    simp only [FollowsUpdate, processBgpUpdate, hdecode, hparse]
    constructor
    · rintro ⟨other, hother, hfollows⟩ same hsame
      cases hother
      cases hsame
      exact hiff.mp hfollows
    · intro hall
      exact ⟨parsed, rfl, hiff.mpr (hall parsed rfl)⟩

end Following

section Changes

variable {session : BgpSession} {ribIn : RibIn}

/-- How the routes of a session differ after a change, told by the routes that were added and those
that were deleted. -/
structure Replaces (session : BgpSession) (ribIn ribIn' added deleted : RibIn) : Prop where
  of_added : ∀ p route, added.lookup p = some route →
    route.ipPrefix = p ∧ route.bgpSession = session ∧ ribIn'.lookup p = some route
  of_deleted : ∀ p route, deleted.lookup p = some route →
    added.lookup p = none ∧ ribIn.lookup p = some route ∧ ribIn'.lookup p = none
  of_neither : ∀ p, added.lookup p = none → deleted.lookup p = none →
    ribIn'.lookup p = ribIn.lookup p

structure IsDecoded (session : BgpSession) (ribIn : RibIn) (decoded : DecodedBgpRoutes) : Prop where
  added : ∀ p route, decoded.addedUnicastRoutes.lookup p = some route →
    route.ipPrefix = p ∧ route.bgpSession = session
  deleted : ∀ p route, decoded.deletedUnicastRoutes.lookup p = some route →
    decoded.addedUnicastRoutes.lookup p = none ∧ ribIn.lookup p = some route

theorem isDecoded_withdrawn {deleted : RibIn}
    (h : ∀ p route, deleted.lookup p = some route → ribIn.lookup p = some route) :
    IsDecoded session ribIn ⟨∅, deleted⟩ where
  added _ _ hp := by cases hp
  deleted p route hp := ⟨rfl, h p route hp⟩

variable {decoded : DecodedBgpRoutes}

theorem IsDecoded.addRoute (h : IsDecoded session ribIn decoded)
    {route : BgpRouteEntry} (hroute : route.bgpSession = session) :
    IsDecoded session ribIn (addRoute session decoded route) := by
  unfold BgpRibIn.addRoute
  split
  · exact h
  constructor
  · intro p other hp
    dsimp only at hp
    rw [lookup_insert] at hp
    split at hp
    next heq =>
      cases hp
      exact ⟨heq.symm, hroute⟩
    · exact h.added p other hp
  · intro p other hp
    dsimp only at hp ⊢
    rw [lookup_erase] at hp
    split at hp
    · cases hp
    next hne =>
      rw [lookup_insert, if_neg hne]
      exact h.deleted p other hp

theorem IsDecoded.foldl {routes : List BgpRouteEntry}
    (h : IsDecoded session ribIn decoded) (hroutes : ∀ route ∈ routes, route.bgpSession = session) :
    IsDecoded session ribIn (routes.foldl (BgpRibIn.addRoute session) decoded) := by
  induction routes generalizing decoded with
  | nil => exact h
  | cons route routes ih =>
    refine ih (h.addRoute (hroutes route List.mem_cons_self)) fun r hr => ?_
    exact hroutes r (List.mem_cons_of_mem _ hr)

theorem isDecoded_of_parse {message : List Byte}
    (h : decodeUpdate session ribIn message = .ok decoded) : IsDecoded session ribIn decoded := by
  have hdeleted : ∀ first second p route,
      (deleteRoutes ribIn (deleteRoutes ribIn ∅ first) second).lookup p = some route →
        ribIn.lookup p = some route := by
    intro first second p route hp
    rw [lookup_deleted] at hp
    split at hp
    · exact hp
    · cases hp
  cases hparse : (parseUpdate session).run' ⟨[], message, []⟩ with
  | error e =>
    rw [decodeUpdate, hparse] at h
    cases h
  | ok parsed =>
    rw [decodeUpdate_of_parse hparse] at h
    obtain ⟨withdrawnPrefixes, path⟩ := parsed
    cases path with
    | empty unread =>
      cases h
      exact isDecoded_withdrawn (hdeleted withdrawnPrefixes [])
    | attributes values nlri =>
      rw [decodeRoutes_attributes session ribIn withdrawnPrefixes (isComplete_of_parse hparse)] at h
      cases h
      refine (isDecoded_withdrawn (hdeleted withdrawnPrefixes _)).foldl fun route hroute => ?_
      obtain ⟨_, _, rfl⟩ := List.mem_map.mp hroute
      rfl

theorem replaces_of_processBgpUpdate {message : List Byte} {ribIn' : RibIn}

    (h : processBgpUpdate session ribIn message = (ribIn', .ok decoded)) :
    Replaces session ribIn ribIn' decoded.addedUnicastRoutes decoded.deletedUnicastRoutes := by
  unfold processBgpUpdate at h
  cases hdecode : decodeUpdate session ribIn message with
  | error e =>
    rw [hdecode] at h
    cases h
  | ok other =>
    rw [hdecode] at h
    cases h
    have hdecoded := isDecoded_of_parse hdecode
    have hlookup := lookup_updateRibIn ribIn decoded fun p route hp => (hdecoded.added p route hp).1
    constructor
    · intro p route hp
      obtain ⟨hbegins, hsession⟩ := hdecoded.added p route hp
      refine ⟨hbegins, hsession, ?_⟩
      rw [hlookup, hp, Option.some_or]
    · intro p route hp
      obtain ⟨hadded, hheld⟩ := hdecoded.deleted p route hp
      refine ⟨hadded, hheld, ?_⟩
      rw [hlookup, hadded, hp]
      rfl
    · intro p hadded hdel
      rw [hlookup, hadded, hdel]
      rfl

theorem replaces_all (session : BgpSession) (ribIn : RibIn) : Replaces session ribIn ∅ ∅ ribIn where
  of_added _ _ hp := by cases hp
  of_deleted _ _ hp := ⟨rfl, hp, rfl⟩
  of_neither _ _ hp := hp.symm

end Changes

section LoopKept

def speaker (bgpId : BitVec 32) : BgpSessionInfo := ⟨bgpId, bgpId, 65000, false, true⟩

def peer (bgpId : BitVec 32) : BgpSession := ⟨speaker 100, speaker bgpId⟩

def host : IpPrefix := (IpAddress.INET 0x0A000001).toIpPrefix

/-- The host 10.0.0.1, by way of one AS and with a next hop in its network. -/
def announcement (asNumber : BitVec 16) (multiExitDisc nextHop : Byte) : List Byte :=
  [0, 0, 0, 34, 0x40, 1, 1, 0, 0x40, 2, 6, 2, 1, 0, 0] ++ short asNumber ++
    [0x40, 3, 4, 10, 0, 0, nextHop, 0x80, 4, 4, 0, 0, 0, multiExitDisc, 0x40, 5, 4, 0, 0, 0, 100,
      32, 10, 0, 0, 1]

def attributes (asNumber multiExitDisc : ℕ) : PathAttributes where
  origin := some 0
  asPath := some ⟨[⟨AS_SEQUENCE, [asNumber]⟩]⟩
  nextHop := some (.INET 0x0A000001)
  multiExitDisc := multiExitDisc
  localPref := some 100

theorem parse_announcement : (parseUpdate (peer 1)).run' ⟨[], announcement 65000 0 1, []⟩ =
      .ok ⟨[], .attributes (attributes 65000 0) [host]⟩ := by
  decide

/-- The peer announces the host first by way of AS 200, and then by way of the own AS. The first
route is kept. -/
theorem loop_keeps_route :
    ¬FollowsUpdate (peer 1) (processBgpUpdate (peer 1) ∅ (announcement 200 0 1)).1
      (announcement 65000 0 1) := by
  have hkept : ((processBgpUpdate (peer 1) ∅ (announcement 200 0 1)).1.lookup host).isSome = true := by
    decide
  obtain ⟨decoded, hdecode, hiff⟩ :=
    follows_iff (processBgpUpdate (peer 1) ∅ (announcement 200 0 1)).1 parse_announcement
  intro h
  rw [FollowsUpdate, processBgpUpdate, hdecode, parse_announcement] at h
  obtain ⟨parsed, hparsed, hfollows⟩ := h
  cases hparsed
  have hloop : HasLoop (peer 1) ⟨[], .attributes (attributes 65000 0) [host]⟩ :=
    ⟨_, rfl, by decide⟩
  rcases (hiff.mp hfollows).2 hloop (host, some (.INET 0x0A000001)) (by decide) with hw | hnone
  · exact absurd hw (by decide)
  · rw [hnone] at hkept
    cases hkept

end LoopKept

end BgpRibIn

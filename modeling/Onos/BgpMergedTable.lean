import Onos.BgpRouteSelector

/-! The merged table of BGP routes is determined by what the peers announce: each of its routes is
better than every other one that is held for the prefix, as long as there is such a route. -/
namespace BgpMergedTable

open IpAddresses KeyedMap BgpRoutes BgpUpdates BgpRibIn BgpRouteSelector Tournament InputMachine

section Selection

variable {s s' : BgpState} {p : IpPrefix}

def AreDistinct (sessions : List BgpSession) : Prop :=
  (sessions.map fun session => (session.remoteInfo.bgpId, session.remoteInfo.ip4Address)).Nodup

instance decidableAreDistinct (sessions : List BgpSession) : Decidable (AreDistinct sessions) :=
  inferInstanceAs (Decidable (List.Nodup _))

def IsBest (s : BgpState) (p : IpPrefix) (route : BgpRouteEntry) : Prop :=
  IsWinner BgpRouteEntry.isBetterThan (s.findBgpRoutes p) route

structure Selects (s : BgpState) (p : IpPrefix) : Prop where
  best : ∀ route, s.bgpRoutes.lookup p = some route → IsBest s p route
  nothing : s.bgpRoutes.lookup p = none → s.findBgpRoutes p = []

structure Sound (s : BgpState) : Prop where
  own : HoldsOwn s.bgpRibIns
  distinct : AreDistinct s.bgpSessions
  gone : ∀ session, session ∉ s.bgpSessions → ∀ p, (s.bgpRibIns session).lookup p = none

theorem eq_of_same_peer {sessions : List BgpSession} (h : AreDistinct sessions)
    {a b : BgpSession} (ha : a ∈ sessions) (hb : b ∈ sessions)
    (hid : a.remoteInfo.bgpId = b.remoteInfo.bgpId)
    (haddress : a.remoteInfo.ip4Address = b.remoteInfo.ip4Address) : a = b :=
  List.inj_on_of_nodup_map h ha hb (by rw [hid, haddress])

theorem Sound.eq_of_better (h : Sound s) {route other : BgpRouteEntry}
    (hroute : route ∈ s.findBgpRoutes p) (hother : other ∈ s.findBgpRoutes p)
    (h1 : route.isBetterThan other = true) (h2 : other.isBetterThan route = true) :
    route = other := by
  obtain ⟨hmem, hlookup⟩ := (mem_findBgpRoutes h.own p route).mp hroute
  obtain ⟨hmem', hlookup'⟩ := (mem_findBgpRoutes h.own p other).mp hother
  obtain ⟨hid, haddress⟩ := BgpRouteEntry.isBetterThan_antisymm h1 h2
  rw [eq_of_same_peer h.distinct hmem hmem' hid haddress, hlookup'] at hlookup
  cases hlookup
  rfl

theorem findBest_eq (h : Sound s) {best : BgpRouteEntry} (hbest : IsBest s p best) :
    s.findBestBgpRoute p = some best :=
  foldl_pick_of_isWinner hbest
    (fun _ hroute hbetter => h.eq_of_better hroute hbest.1 hbetter (hbest.2 _ hroute))
    (fun _ hnone => by cases hnone)

theorem Selects.congr (h : Selects s p) (hlookup : s'.bgpRoutes.lookup p = s.bgpRoutes.lookup p)
    (hsame : ∀ route, route ∈ s.findBgpRoutes p ↔ route ∈ s'.findBgpRoutes p) : Selects s' p where
  best route hroute := (h.best route (hlookup ▸ hroute)).congr hsame
  nothing hnone := by
    have hnil := h.nothing (hlookup ▸ hnone)
    rw [List.eq_nil_iff_forall_not_mem] at hnil ⊢
    exact fun route hroute => hnil route ((hsame route).mpr hroute)

end Selection

section Replacing

variable {s : BgpState} {session : BgpSession} {ribIn' added deleted : RibIn}

def replaceRibIn (s : BgpState) (session : BgpSession) (ribIn' : RibIn) : BgpState :=
  { s with bgpRibIns := Function.update s.bgpRibIns session ribIn' }

theorem ribIn_replaced (s : BgpState) (session : BgpSession) (ribIn' : RibIn) :
    (replaceRibIn s session ribIn').bgpRibIns session = ribIn' := Function.update_self _ _ _

theorem ribIn_replaced_of_ne (s : BgpState) (ribIn' : RibIn) {other : BgpSession}
    (h : other ≠ session) : (replaceRibIn s session ribIn').bgpRibIns other = s.bgpRibIns other :=
  Function.update_of_ne h _ _

theorem isPushed_of_replaces (hown : HoldsOwn s.bgpRibIns)
    (h : Replaces session (s.bgpRibIns session) ribIn' added deleted) : IsPushed added deleted where
  added_own p route hp := (h.of_added p route hp).1
  deleted_own p route hp := (hown session p route (h.of_deleted p route hp).2.1).1
  disjoint p route hp := (h.of_deleted p route hp).1

theorem lookup_replaced (h : Replaces session (s.bgpRibIns session) ribIn' added deleted)
    (p : IpPrefix) (route : BgpRouteEntry) (hp : ribIn'.lookup p = some route) :
    added.lookup p = some route ∨ (s.bgpRibIns session).lookup p = some route := by
  cases hadded : added.lookup p with
  | some other =>
    rw [(h.of_added p other hadded).2.2] at hp
    exact Or.inl hp
  | none =>
    cases hdeleted : deleted.lookup p with
    | some other =>
      rw [(h.of_deleted p other hdeleted).2.2] at hp
      cases hp
    | none =>
      rw [h.of_neither p hadded hdeleted] at hp
      exact Or.inr hp

theorem holdsOwn_replaceRibIn (hown : HoldsOwn s.bgpRibIns)
    (h : Replaces session (s.bgpRibIns session) ribIn' added deleted) :
    HoldsOwn (replaceRibIn s session ribIn').bgpRibIns := by
  intro other p route hp
  by_cases heq : other = session
  · subst heq
    rw [ribIn_replaced] at hp
    rcases lookup_replaced h p route hp with hadded | hheld
    · exact ⟨(h.of_added p route hadded).1, (h.of_added p route hadded).2.1⟩
    · exact hown other p route hheld
  · rw [ribIn_replaced_of_ne s ribIn' heq] at hp
    exact hown other p route hp

theorem sound_replaceRibIn (hs : Sound s)
    (h : Replaces session (s.bgpRibIns session) ribIn' added deleted)
    (hmem : session ∈ s.bgpSessions ∨ ∀ p, ribIn'.lookup p = none) :
    Sound (replaceRibIn s session ribIn') where
  own := holdsOwn_replaceRibIn hs.own h
  distinct := hs.distinct
  gone other hother p := by
    by_cases heq : other = session
    · subst heq
      rcases hmem with hmem | hempty
      · exact absurd hmem hother
      · rw [ribIn_replaced]
        exact hempty p
    · rw [ribIn_replaced_of_ne s ribIn' heq]
      exact hs.gone other hother p

theorem mem_findBgpRoutes_replaced (hs : Sound (replaceRibIn s session ribIn')) (p : IpPrefix)
    (route : BgpRouteEntry) : route ∈ (replaceRibIn s session ribIn').findBgpRoutes p ↔
      route.bgpSession ∈ s.bgpSessions ∧ (if route.bgpSession = session then ribIn'.lookup p
        else (s.bgpRibIns route.bgpSession).lookup p) = some route := by
  rw [mem_findBgpRoutes hs.own]
  refine and_congr_right' ?_
  by_cases heq : route.bgpSession = session
  · rw [if_pos heq, heq, ribIn_replaced]
  · rw [if_neg heq, ribIn_replaced_of_ne s ribIn' heq]

variable {p : IpPrefix} {route : BgpRouteEntry}

theorem mem_replaced_of_ne (hs : Sound s) (hs' : Sound (replaceRibIn s session ribIn'))
    (hne : route.bgpSession ≠ session) :
    route ∈ (replaceRibIn s session ribIn').findBgpRoutes p ↔ route ∈ s.findBgpRoutes p := by
  rw [mem_findBgpRoutes_replaced hs', mem_findBgpRoutes hs.own, if_neg hne]

theorem eq_of_mem_replaced (hs' : Sound (replaceRibIn s session ribIn'))
    (hmem : route ∈ (replaceRibIn s session ribIn').findBgpRoutes p)
    (heq : route.bgpSession = session) : ribIn'.lookup p = some route := by
  have h := ((mem_findBgpRoutes_replaced hs' p route).mp hmem).2
  rwa [if_pos heq] at h

def HasBest (s : BgpState) (p : IpPrefix) : Prop :=
  s.findBgpRoutes p = [] ∨ ∃ best, IsBest s p best

def KeepsBest (s s' : BgpState) (p : IpPrefix) : Prop :=
  ∀ old new, s.bgpRoutes.lookup p = some old →
    (s'.bgpRibIns old.bgpSession).lookup p = some new → new ≠ old →
      new.isBetterThan old = true → IsBest s' p new

theorem HasBest.of_mem {s : BgpState} (h : HasBest s p)
    (hmem : route ∈ s.findBgpRoutes p) : ∃ best, IsBest s p best := by
  rcases h with hnil | hbest
  · rw [hnil] at hmem
    cases hmem
  · exact hbest

theorem best_after_added (hs : Sound s) (hs' : Sound (replaceRibIn s session ribIn'))
    (hmem : session ∈ s.bgpSessions)
    (hroute : ribIn'.lookup p = some route) (hbegins : route.ipPrefix = p)
    (hsession : route.bgpSession = session) (hselects : Selects s p)
    (hbest : HasBest (replaceRibIn s session ribIn') p)
    (hkeeps : KeepsBest s (replaceRibIn s session ribIn') p) :
    ∃ best, (afterChange (replaceRibIn s session ribIn') (.added route)
        (s.bgpRoutes.lookup p, [])).1 = some best ∧
      IsBest (replaceRibIn s session ribIn') p best := by
  have hnew : route ∈ (replaceRibIn s session ribIn').findBgpRoutes p := by
    rw [mem_findBgpRoutes_replaced hs', if_pos hsession, hsession]
    exact ⟨hmem, hroute⟩
  have honly : ∀ other ∈ (replaceRibIn s session ribIn').findBgpRoutes p,
      other = route ∨ other.bgpSession ≠ session ∧ other ∈ s.findBgpRoutes p := by
    intro other hother
    by_cases heq : other.bgpSession = session
    · have := eq_of_mem_replaced hs' hother heq
      rw [hroute] at this
      cases this
      exact Or.inl rfl
    · exact Or.inr ⟨heq, (mem_replaced_of_ne hs hs' heq).mp hother⟩
  obtain ⟨winner, hwinner⟩ := hbest.of_mem hnew
  have hnext : (replaceRibIn s session ribIn').findBestBgpRoute route.ipPrefix = some winner := by
    rw [hbegins]
    exact findBest_eq hs' hwinner
  rw [afterChange, updateFor_added, hnext]
  cases hlookup : s.bgpRoutes.lookup p with
  | none =>
    have hnil := hselects.nothing hlookup
    refine ⟨route, rfl, hnew, fun other hother => ?_⟩
    rcases honly other hother with rfl | ⟨_, hheld⟩
    · rw [BgpRouteEntry.isBetterThan, if_pos rfl]
    · rw [hnil] at hheld
      cases hheld
  | some m =>
    have hm := hselects.best m hlookup
    obtain ⟨hmSession, hmHeld⟩ := (mem_findBgpRoutes hs.own p m).mp hm.1
    dsimp only [addedUpdate]
    by_cases hbetter : route.isBetterThan m = true
    · rw [if_pos hbetter]
      refine ⟨route, rfl, ?_⟩
      by_cases hmine : m.bgpSession = session
      · by_cases hsame : route = m
        · subst hsame
          refine ⟨hnew, fun other hother => ?_⟩
          rcases honly other hother with rfl | ⟨_, hheld⟩
          · exact hbetter
          · exact hm.2 other hheld
        · refine hkeeps m route hlookup ?_ hsame hbetter
          rw [hmine, ribIn_replaced]
          exact hroute
      · -- the winner is the new route, or else it would be the old best one, which is worse
        rcases honly winner hwinner.1 with rfl | ⟨_, hheld⟩
        · exact hwinner
        · have hm' : m ∈ (replaceRibIn s session ribIn').findBgpRoutes p :=
            (mem_replaced_of_ne hs hs' hmine).mpr hm.1
          have heq := hs'.eq_of_better hm' hwinner.1 (hm.2 winner hheld) (hwinner.2 m hm')
          subst heq
          have hsame := hs'.eq_of_better hnew hm' hbetter (hwinner.2 route hnew)
          exact absurd (hsame ▸ hsession) hmine
    · rw [if_neg hbetter]
      by_cases hmine : m.bgpSession = session
      · rw [if_neg (not_not.mpr (hmine.trans hsession.symm))]
        exact ⟨winner, rfl, hwinner⟩
      · rw [if_pos fun heq => hmine (heq.trans hsession)]
        refine ⟨m, rfl, (mem_replaced_of_ne hs hs' hmine).mpr hm.1, fun other hother => ?_⟩
        rcases honly other hother with rfl | ⟨_, hheld⟩
        · exact BgpRouteEntry.isBetterThan_total other m hbetter
        · exact hm.2 other hheld

theorem best_after_deleted (hs : Sound s) (hs' : Sound (replaceRibIn s session ribIn'))

    (hheld : (s.bgpRibIns session).lookup p = some route) (hgone : ribIn'.lookup p = none)
    (hselects : Selects s p) (hbest : HasBest (replaceRibIn s session ribIn') p)
    {selected : Option BgpRouteEntry}
    (hselected : (afterChange (replaceRibIn s session ribIn') (.deleted route)
      (s.bgpRoutes.lookup p, [])).1 = selected) :
    (∀ best, selected = some best → IsBest (replaceRibIn s session ribIn') p best) ∧
      (selected = none → (replaceRibIn s session ribIn').findBgpRoutes p = []) := by
  obtain ⟨hbegins, hsession⟩ := hs.own session p route hheld
  have hother : ∀ other ∈ (replaceRibIn s session ribIn').findBgpRoutes p,
      other ∈ s.findBgpRoutes p := by
    intro other hin
    refine (mem_replaced_of_ne hs hs' fun heq => ?_).mp hin
    have := eq_of_mem_replaced hs' hin heq
    rw [hgone] at this
    cases this
  rw [afterChange, updateFor_deleted, hbegins] at hselected
  by_cases hwas : s.bgpRoutes.lookup p = some route
  · rw [if_neg (not_not.mpr hwas)] at hselected
    rcases hbest with hnil | ⟨winner, hwinner⟩
    · have hnone : (replaceRibIn s session ribIn').findBestBgpRoute p = none :=
        foldl_pick_eq_none.mpr hnil
      rw [hnone] at hselected
      subst hselected
      refine ⟨fun best hsome => ?_, fun _ => hnil⟩
      cases hsome
    · rw [findBest_eq hs' hwinner] at hselected
      subst hselected
      refine ⟨fun best hsome => ?_, fun hnone => by cases hnone⟩
      cases hsome
      exact hwinner
  · rw [if_pos hwas] at hselected
    dsimp only at hselected
    constructor
    · intro m hm
      have hlookup : s.bgpRoutes.lookup p = some m := hselected.trans hm
      have hwins := hselects.best m hlookup
      have hne : m.bgpSession ≠ session := by
        intro heq
        have hmHeld := ((mem_findBgpRoutes hs.own p m).mp hwins.1).2
        rw [heq, hheld] at hmHeld
        cases hmHeld
        exact hwas hlookup
      exact ⟨(mem_replaced_of_ne hs hs' hne).mpr hwins.1, fun a ha => hwins.2 a (hother a ha)⟩
    · intro hnone
      have hnil := hselects.nothing (hselected.trans hnone)
      rw [List.eq_nil_iff_forall_not_mem] at hnil ⊢
      exact fun a ha => hnil a (hother a ha)

theorem selects_pushAll (hs : Sound s) (hs' : Sound (replaceRibIn s session ribIn'))
    (h : Replaces session (s.bgpRibIns session) ribIn' added deleted)
    (hmem : session ∈ s.bgpSessions) (hselects : Selects s p)
    (hbest : HasBest (replaceRibIn s session ribIn') p)
    (hkeeps : KeepsBest s (replaceRibIn s session ribIn') p) :
    Selects (pushAll (replaceRibIn s session ribIn') added deleted) p := by
  have hpushed := isPushed_of_replaces hs.own h
  have hsame := sameRoutes_pushAll hs'.own added deleted
  have hfind : (pushAll (replaceRibIn s session ribIn') added deleted).findBgpRoutes p =
      (replaceRibIn s session ribIn').findBgpRoutes p := by
    rw [BgpState.findBgpRoutes, hsame.1, hsame.2]
    rfl
  have hof : ∀ selected : Option BgpRouteEntry,
      (pushAll (replaceRibIn s session ribIn') added deleted).bgpRoutes.lookup p = selected →
      (∀ best, selected = some best → IsBest (replaceRibIn s session ribIn') p best) →
      (selected = none → (replaceRibIn s session ribIn').findBgpRoutes p = []) →
      Selects (pushAll (replaceRibIn s session ribIn') added deleted) p := by
    intro selected hlookup hsome hnone
    constructor
    · intro route hroute
      rw [IsBest, hfind]
      exact hsome route (hlookup.symm.trans hroute)
    · intro hnil
      rw [hfind]
      exact hnone (hlookup.symm.trans hnil)
  cases hadded : added.lookup p with
  | some route =>
    obtain ⟨hbegins, hsession, hroute⟩ := h.of_added p route hadded
    subst hbegins
    obtain ⟨best, hafter, hwins⟩ :=
      best_after_added hs hs' hmem hroute rfl hsession hselects hbest hkeeps
    have hlookup := lookup_pushAll hs'.own hpushed (.added route) (Or.inl ⟨hadded, rfl⟩)
    refine hof (some best) (hlookup.trans hafter) ?_ fun hnone => by cases hnone
    intro other hsome
    cases hsome
    exact hwins
  | none =>
    cases hdeleted : deleted.lookup p with
    | some route =>
      obtain ⟨_, hheld, hgone⟩ := h.of_deleted p route hdeleted
      have hbegins := (hs.own session p route hheld).1
      subst hbegins
      have hlookup := lookup_pushAll hs'.own hpushed (.deleted route)
        (Or.inr ⟨hdeleted, rfl⟩)
      obtain ⟨hsome, hnone⟩ := best_after_deleted hs hs' hheld hgone hselects hbest rfl
      exact hof _ hlookup hsome hnone
    | none =>
      have hlookup := lookup_pushAll_of_neither hs'.own hpushed hadded hdeleted
      refine hselects.congr hlookup fun route => ?_
      rw [hfind, mem_findBgpRoutes_replaced hs', mem_findBgpRoutes hs.own]
      refine and_congr_right' ?_
      by_cases heq : route.bgpSession = session
      · rw [if_pos heq, heq, h.of_neither p hadded hdeleted]
      · rw [if_neg heq]

end Replacing

section Runs

variable {s : BgpState}

/-- The message comes on a session that the manager knows, or nothing is read any more. -/
def IsHeard (s : BgpState) : Input → Prop
  | .update session _ => session ∈ s.bgpSessions ∨ s.isClosed session = true
  | .disconnected _ => True

/-- For each prefix there is a best route among those that are then held, and a better route that
replaces the selected one of its session is that route. -/
def Settles (s : BgpState) (x : Input) : Prop :=
  IsHeard s x ∧ ∀ p, HasBest (receive s x).1 p ∧ KeepsBest s (receive s x).1 p

structure Inv (s : BgpState) : Prop where
  sound : Sound s
  selects : ∀ p, Selects s p

theorem findBgpRoutes_erase {session : BgpSession} (hs : Sound s)
    (hempty : ∀ p, (s.bgpRibIns session).lookup p = none) (p : IpPrefix) (route : BgpRouteEntry) :
    route ∈ s.findBgpRoutes p ↔
      route ∈ BgpState.findBgpRoutes { s with bgpSessions := s.bgpSessions.erase session } p := by
  rw [mem_findBgpRoutes hs.own,
    mem_findBgpRoutes (s := { s with bgpSessions := s.bgpSessions.erase session }) hs.own]
  refine and_congr_left fun hlookup => ?_
  have hne : route.bgpSession ≠ session := by
    intro heq
    rw [heq, hempty] at hlookup
    cases hlookup
  exact (List.mem_erase_of_ne hne).symm

theorem sound_pushAll (hs : Sound s) (added deleted : RibIn) : Sound (pushAll s added deleted) := by
  obtain ⟨hsessions, hribIns⟩ := sameRoutes_pushAll hs.own added deleted
  refine ⟨?_, ?_, ?_⟩
  · rw [hribIns]
    exact hs.own
  · rw [hsessions]
    exact hs.distinct
  · rw [hsessions, hribIns]
    exact hs.gone

theorem selects_of_unknown {session : BgpSession} (hinv : Inv s) (hunknown : session ∉ s.bgpSessions)
    (hs' : Sound (replaceRibIn s session ∅)) (p : IpPrefix) :
    Selects (pushAll (replaceRibIn s session ∅) ∅ (s.bgpRibIns session)) p := by
  have hpushed := isPushed_of_replaces hinv.sound.own (replaces_all session (s.bgpRibIns session))
  have hnone := hinv.sound.gone session hunknown p
  have hsame := sameRoutes_pushAll hs'.own ∅ (s.bgpRibIns session)
  refine (hinv.selects p).congr (lookup_pushAll_of_neither hs'.own hpushed rfl hnone) fun route => ?_
  rw [mem_findBgpRoutes (sound_pushAll hs' _ _).own, hsame.1, hsame.2, mem_findBgpRoutes hinv.sound.own]
  refine and_congr_right fun hmem => ?_
  have hne : route.bgpSession ≠ session := by
    intro heq
    exact hunknown (heq ▸ hmem)
  rw [ribIn_replaced_of_ne s ∅ hne]

theorem inv_disconnected (hinv : Inv s) (session : BgpSession)
    (hsettles : ∀ p, HasBest (replaceRibIn s session ∅) p ∧ KeepsBest s (replaceRibIn s session ∅) p) :
    Inv ((processChannelDisconnected s session).2.foldl (fun s task => (perform s task).1)
      (processChannelDisconnected s session).1) := by
  have hrep := replaces_all session (s.bgpRibIns session)
  have hs' := sound_replaceRibIn hinv.sound hrep (Or.inr fun _ => rfl)
  have hselects : ∀ p, Selects (pushAll (replaceRibIn s session ∅) ∅ (s.bgpRibIns session)) p := by
    intro p
    by_cases hmem : session ∈ s.bgpSessions
    · exact selects_pushAll hinv.sound hs' hrep hmem (hinv.selects p) (hsettles p).1 (hsettles p).2
    · exact selects_of_unknown hinv hmem hs' p
  have hsound := sound_pushAll hs' ∅ (s.bgpRibIns session)
  have hempty : ∀ p, ((pushAll (replaceRibIn s session ∅) ∅ (s.bgpRibIns session)).bgpRibIns
      session).lookup p = none := by
    intro p
    rw [(sameRoutes_pushAll hs'.own ∅ (s.bgpRibIns session)).2, ribIn_replaced]
    rfl
  generalize hpushed : pushAll (replaceRibIn s session ∅) ∅ (s.bgpRibIns session) = pushed at *
  have hafter : (processChannelDisconnected s session).2.foldl (fun s task => (perform s task).1)
      (processChannelDisconnected s session).1 =
      { pushed with bgpSessions := pushed.bgpSessions.erase session } := by
    rw [← hpushed]
    rfl
  rw [hafter]
  refine ⟨⟨hsound.own, ?_, ?_⟩, fun p => (hselects p).congr rfl (findBgpRoutes_erase hsound hempty p)⟩
  · exact hsound.distinct.sublist (List.erase_sublist.map _)
  · intro other hother p
    by_cases heq : other = session
    · rw [heq]
      exact hempty p
    · exact hsound.gone other (fun hmem => hother ((List.mem_erase_of_ne heq).mpr hmem)) p

theorem inv_process (hinv : Inv s) {x : Input} (hx : Settles s x) : Inv (process s x) := by
  obtain ⟨hheard, hsettles⟩ := hx
  cases x with
  | disconnected session => exact inv_disconnected hinv session hsettles
  | update session message =>
    unfold process
    rw [receive] at hsettles ⊢
    by_cases hclosed : s.isClosed session = true
    · rw [if_pos hclosed]
      exact hinv
    · have hmem : session ∈ s.bgpSessions := hheard.resolve_right hclosed
      rw [if_neg hclosed] at hsettles ⊢
      cases hresult : processBgpUpdate session (s.bgpRibIns session) message with
      | mk ribIn' outcome =>
        rw [hresult] at hsettles
        cases outcome with
        | ok decoded =>
          have hrep := replaces_of_processBgpUpdate hresult
          have hs' := sound_replaceRibIn hinv.sound hrep (Or.inl hmem)
          exact ⟨sound_pushAll hs' _ _, fun p => selects_pushAll hinv.sound hs' hrep hmem
            (hinv.selects p) (hsettles p).1 (hsettles p).2⟩
        | error e =>
          cases e with
          | checked error => exact ⟨⟨hinv.sound.own, hinv.sound.distinct, hinv.sound.gone⟩,
              fun p => (hinv.selects p).congr rfl fun _ => Iff.rfl⟩
          | bufferUnderflow => exact inv_disconnected hinv session hsettles
          | bufferOverflow => exact inv_disconnected hinv session hsettles
          | negativeArraySize => exact inv_disconnected hinv session hsettles
          | indexOutOfBounds => exact inv_disconnected hinv session hsettles
          | illegalArgument => exact inv_disconnected hinv session hsettles
          | nullPointer => exact inv_disconnected hinv session hsettles

theorem inv_start {sessions : List BgpSession} (h : AreDistinct sessions) : Inv (start sessions) := by
  have hown : HoldsOwn (start sessions).bgpRibIns := fun _ _ _ hp => by cases hp
  have hnil : ∀ p, (start sessions).findBgpRoutes p = [] := by
    intro p
    rw [List.eq_nil_iff_forall_not_mem]
    intro route hroute
    cases ((mem_findBgpRoutes hown p route).mp hroute).2
  exact ⟨⟨hown, h, fun _ _ _ => rfl⟩, fun p => ⟨fun _ hp => (by cases hp), fun _ => hnil p⟩⟩

theorem inv_run {sessions : List BgpSession} (h : AreDistinct sessions) {xs : List Input}
    (hxs : ((machine sessions).guarded Settles).Valid (start sessions) xs) :
    Inv ((machine sessions).run (start sessions) xs) :=
  invariant_run (M := (machine sessions).guarded Settles) Inv
    (fun _ _ hinv hx => inv_process hinv hx.2) hxs (inv_start h)

def stateAfter (sessions : List BgpSession) (xs : List Input) : BgpState :=
  (machine sessions).run (start sessions) xs

/-- There is a route in the merged table for a prefix exactly if a connected session holds one, and
it is one of those. -/
structure FollowsPeers (s : BgpState) : Prop where
  exists_iff : ∀ p, (s.bgpRoutes.lookup p).isSome ↔
    ∃ session ∈ s.bgpSessions, ((s.bgpRibIns session).lookup p).isSome
  held : ∀ p route, s.bgpRoutes.lookup p = some route →
    ∃ session ∈ s.bgpSessions, (s.bgpRibIns session).lookup p = some route

structure SameContents (s s' : BgpState) : Prop where
  sessions : ∀ session, session ∈ s.bgpSessions ↔ session ∈ s'.bgpSessions
  routes : ∀ session ∈ s.bgpSessions, ∀ p,
    (s.bgpRibIns session).lookup p = (s'.bgpRibIns session).lookup p

theorem Inv.followsPeers (h : Inv s) : FollowsPeers s := by
  have hheld : ∀ p route, s.bgpRoutes.lookup p = some route →
      ∃ session ∈ s.bgpSessions, (s.bgpRibIns session).lookup p = some route := by
    intro p route hp
    obtain ⟨hmem, hlookup⟩ := (mem_findBgpRoutes h.sound.own p route).mp ((h.selects p).best route hp).1
    exact ⟨route.bgpSession, hmem, hlookup⟩
  refine ⟨fun p => ⟨fun hsome => ?_, ?_⟩, hheld⟩
  · obtain ⟨route, hroute⟩ := Option.isSome_iff_exists.mp hsome
    obtain ⟨session, hmem, hlookup⟩ := hheld p route hroute
    exact ⟨session, hmem, Option.isSome_of_eq_some hlookup⟩
  · rintro ⟨session, hmem, hsome⟩
    obtain ⟨route, hroute⟩ := Option.isSome_iff_exists.mp hsome
    by_contra hnone
    have hnil := (h.selects p).nothing (Option.not_isSome_iff_eq_none.mp hnone)
    rw [List.eq_nil_iff_forall_not_mem] at hnil
    have hsession := (h.sound.own session p route hroute).2
    exact hnil route ((mem_findBgpRoutes h.sound.own p route).mpr ⟨hsession ▸ hmem, hsession ▸ hroute⟩)

theorem Inv.lookup_eq {s' : BgpState} (h : Inv s) (h' : Inv s') (hsame : SameContents s s')
    (p : IpPrefix) : s.bgpRoutes.lookup p = s'.bgpRoutes.lookup p := by
  have hmem : ∀ route, route ∈ s.findBgpRoutes p ↔ route ∈ s'.findBgpRoutes p := by
    intro route
    rw [mem_findBgpRoutes h.sound.own, mem_findBgpRoutes h'.sound.own, ← hsame.sessions]
    exact and_congr_right fun hin => by rw [hsame.routes _ hin p]
  cases hp : s.bgpRoutes.lookup p with
  | none =>
    cases hp' : s'.bgpRoutes.lookup p with
    | none => rfl
    | some route =>
      have hin := (hmem route).mpr ((h'.selects p).best route hp').1
      rw [(h.selects p).nothing hp] at hin
      cases hin
  | some route =>
    have hbest := (h.selects p).best route hp
    cases hp' : s'.bgpRoutes.lookup p with
    | none =>
      have hin := (hmem route).mp hbest.1
      rw [(h'.selects p).nothing hp'] at hin
      cases hin
    | some other =>
      have hbest' := (h'.selects p).best other hp'
      have hin := (hmem other).mpr hbest'.1
      rw [h.sound.eq_of_better hbest.1 hin (hbest.2 other hin)
        (hbest'.2 route ((hmem route).mp hbest.1))]

/-- The merged table follows the peers, and its routes are determined by the routes that are held:
runs after which the peers hold the same routes end with the same merged table. -/
theorem merged_table_determined {sessions : List BgpSession} (hdistinct : AreDistinct sessions)
    {xs : List Input} (hxs : ((machine sessions).guarded Settles).Valid (start sessions) xs) :
    FollowsPeers (stateAfter sessions xs) ∧
      ∀ sessions' ys, AreDistinct sessions' →
        ((machine sessions').guarded Settles).Valid (start sessions') ys →
        SameContents (stateAfter sessions xs) (stateAfter sessions' ys) →
        ∀ p, (stateAfter sessions xs).bgpRoutes.lookup p =
          (stateAfter sessions' ys).bgpRoutes.lookup p := by
  have hinv := inv_run hdistinct hxs
  refine ⟨hinv.followsPeers, fun sessions' ys hdistinct' hys hsame p => ?_⟩
  exact hinv.lookup_eq (inv_run hdistinct' hys) hsame p

end Runs

section Instances

theorem hasBest_of_single {s : BgpState} {session : BgpSession} (h : s.bgpSessions = [session])
    (p : IpPrefix) : HasBest s p := by
  unfold HasBest IsBest BgpState.findBgpRoutes
  rw [h]
  cases hp : (s.bgpRibIns session).lookup p with
  | none => exact Or.inl (by simp only [List.filterMap_cons, hp, List.filterMap_nil])
  | some route =>
    refine Or.inr ⟨route, ?_⟩
    simp only [List.filterMap_cons, hp, List.filterMap_nil]
    refine ⟨List.mem_singleton_self route, fun other hother => ?_⟩
    rw [List.mem_singleton.mp hother, BgpRouteEntry.isBetterThan, if_pos rfl]

theorem bgpSessions_receive (s : BgpState) (x : Input) :
    (receive s x).1.bgpSessions = s.bgpSessions := by
  cases x with
  | disconnected session => rfl
  | update session message =>
    rw [receive]
    split
    · rfl
    · split <;> rfl

theorem settles_single (session : BgpSession) (message : List WireBytes.Byte) :
    Settles (start [session]) (.update session message) := by
  refine ⟨Or.inl (List.mem_singleton_self _), fun p => ⟨?_, fun old new hold => by cases hold⟩⟩
  exact hasBest_of_single (bgpSessions_receive _ _) p

theorem merged_table_determined_single :
    FollowsPeers (stateAfter [peer 1] [.update (peer 1) (announcement 200 0 1)]) := by
  have hxs : ((machine [peer 1]).guarded Settles).Valid (start [peer 1])
      [.update (peer 1) (announcement 200 0 1)] := ⟨⟨trivial, settles_single _ _⟩, trivial⟩
  exact (merged_table_determined (by decide) hxs).1

/-- The first and the third route come from one neighbor AS, so that their MEDs are compared: the
third one is better than the first, the first than the second by its BGP id, and the second than the
third. -/
def announcements : List Input :=
  [.update (peer 1) (announcement 100 10 1), .update (peer 2) (announcement 200 0 1),
    .update (peer 3) (announcement 100 20 1)]

def peers : List BgpSession := [peer 1, peer 2, peer 3]

/-- The same routes, in the one order and in the other. -/
theorem order_of_arrival_matters :
    ¬∀ xs ys, SameContents (stateAfter peers xs) (stateAfter peers ys) →
      ∀ p, (stateAfter peers xs).bgpRoutes.lookup p = (stateAfter peers ys).bgpRoutes.lookup p := by
  intro h
  have hsessions : (stateAfter peers announcements).bgpSessions = peers ∧
      (stateAfter peers announcements.reverse).bgpSessions = peers := by decide
  have hroutes : ∀ session ∈ peers, ((stateAfter peers announcements).bgpRibIns session).entries =
      ((stateAfter peers announcements.reverse).bgpRibIns session).entries := by decide
  have hne : ((stateAfter peers announcements).bgpRoutes.lookup host).map BgpRouteEntry.bgpSession ≠
      ((stateAfter peers announcements.reverse).bgpRoutes.lookup host).map
        BgpRouteEntry.bgpSession := by decide
  refine hne (congrArg _ (h announcements announcements.reverse ⟨fun session => ?_, ?_⟩ host))
  · rw [hsessions.1, hsessions.2]
  · intro session hmem p
    rw [AList.ext (hroutes session (hsessions.1 ▸ hmem))]

end Instances

end BgpMergedTable

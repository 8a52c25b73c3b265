import Onos.PrefixContainment
import Onos.RouteManager

/-! The tables of resolved routes. A tree has the best route of each prefix under the prefix's bits, a
map next to it the routes that it was chosen from. -/
namespace RouteTables

open IpAddresses KeyedMap BitStrings RouteManager WireBytes

section Model

abbrev BinaryString := List Char

def createBinaryString (ipPrefix : IpPrefix) : BinaryString :=
  '0' :: (List.range ipPrefix.prefixLength).map fun i =>
    let byteOffset := i / 8
    let bitOffset := i % 8
    let mask : BitVec 32 := 1 <<< (8 - 1 - bitOffset)
    let value : Byte := ipPrefix.address.toOctets.getD byteOffset 0
    if value.signExtend 32 &&& mask ≠ 0 then '1' else '0'

structure InvertedRadixTree (τ : Type) where
  empty : τ
  put : τ → BinaryString → ResolvedRoute → τ × Option ResolvedRoute
  remove : τ → BinaryString → τ
  getValueForExactKey : τ → BinaryString → Option ResolvedRoute
  getValuesForKeysPrefixing : τ → BinaryString → List ResolvedRoute

/-- A map on strings that lists the values under the starts of a string, the shortest start first. -/
structure InvertedRadixTree.IsMap {τ : Type} (trees : InvertedRadixTree τ) : Prop where
  empty : ∀ k, trees.getValueForExactKey trees.empty k = none
  put : ∀ t key value k, trees.getValueForExactKey (trees.put t key value).1 k =
    if k = key then some value else trees.getValueForExactKey t k
  old : ∀ t key value, (trees.put t key value).2 = trees.getValueForExactKey t key
  remove : ∀ t key k, trees.getValueForExactKey (trees.remove t key) k =
    if k = key then none else trees.getValueForExactKey t k
  prefixing : ∀ t key, trees.getValuesForKeysPrefixing t key =
    key.inits.filterMap (trees.getValueForExactKey t)

inductive EventType where
  | ROUTE_ADDED
  | ROUTE_UPDATED
  | ROUTE_REMOVED
  | ALTERNATIVE_ROUTES_CHANGED
  deriving DecidableEq, Repr

structure RouteEvent where
  type : EventType
  subject : ResolvedRoute
  prevSubject : Option ResolvedRoute
  alternativeRoutes : Option (Finset ResolvedRoute)
  prevAlternativeRoutes : Option (Finset ResolvedRoute)

inductive RouteTableId where
  | IPV4
  | IPV6
  deriving DecidableEq, Repr

structure RouteTable (τ : Type) where
  routeTable : τ
  alternativeRoutes : Table IpPrefix (Finset ResolvedRoute)

abbrev DefaultResolvedRouteStore (τ : Type) := RouteTableId → RouteTable τ

def getDefaultRouteTable (ip : IpAddress) : RouteTableId := if ip.isIp4 then .IPV4 else .IPV6

variable {τ : Type} (trees : InvertedRadixTree τ)

namespace RouteTable

def create : RouteTable τ := ⟨trees.empty, ∅⟩

def checkAlternatives (route : ResolvedRoute) (alternatives : Finset ResolvedRoute) :
    Finset ResolvedRoute :=
  if route ∉ alternatives then insert route alternatives else alternatives

def update (t : RouteTable τ) (route : ResolvedRoute) (alternatives : Finset ResolvedRoute) :
    RouteTable τ × Option RouteEvent :=
  let immutableAlternatives := checkAlternatives route alternatives
  let (routeTable, oldRoute) :=
    trees.put t.routeTable (createBinaryString route.route.ipPrefix) route
  let oldRoutes := t.alternativeRoutes.lookup route.route.ipPrefix
  let t' := ⟨routeTable, t.alternativeRoutes.insert route.route.ipPrefix immutableAlternatives⟩
  if some route ≠ oldRoute then
    match oldRoute with
    | none => (t', some ⟨.ROUTE_ADDED, route, none, some immutableAlternatives, none⟩)
    | some old =>
      (t', some ⟨.ROUTE_UPDATED, route, some old, some immutableAlternatives, oldRoutes⟩)
  else if some immutableAlternatives ≠ oldRoutes then
    (t', some ⟨.ALTERNATIVE_ROUTES_CHANGED, route, none, some immutableAlternatives, oldRoutes⟩)
  else (t', none)

def remove (t : RouteTable τ) (ipPrefix : IpPrefix) : RouteTable τ × Option RouteEvent :=
  let key := createBinaryString ipPrefix
  let alternatives := t.alternativeRoutes.lookup ipPrefix
  let alternativeRoutes := t.alternativeRoutes.erase ipPrefix
  match trees.getValueForExactKey t.routeTable key with
  | some route => (⟨trees.remove t.routeTable key, alternativeRoutes⟩,
      some ⟨.ROUTE_REMOVED, route, none, alternatives, none⟩)
  | none => (⟨t.routeTable, alternativeRoutes⟩, none)

def getRoute (t : RouteTable τ) (ipPrefix : IpPrefix) : Option ResolvedRoute :=
  trees.getValueForExactKey t.routeTable (createBinaryString ipPrefix)

def getAllRoutes (t : RouteTable τ) (ipPrefix : IpPrefix) : Finset ResolvedRoute :=
  (t.alternativeRoutes.lookup ipPrefix).getD ∅

def longestPrefixMatch (t : RouteTable τ) (ip : IpAddress) : Option ResolvedRoute :=
  (trees.getValuesForKeysPrefixing t.routeTable (createBinaryString ip.toIpPrefix)).getLast?

end RouteTable

namespace DefaultResolvedRouteStore

def create : DefaultResolvedRouteStore τ := fun _ => RouteTable.create trees

def updateRoute (s : DefaultResolvedRouteStore τ) (route : ResolvedRoute)
    (alternatives : Finset ResolvedRoute) : DefaultResolvedRouteStore τ × Option RouteEvent :=
  let id := getDefaultRouteTable route.route.ipPrefix.address
  let (table, event) := (s id).update trees route alternatives
  (Function.update s id table, event)

def removeRoute (s : DefaultResolvedRouteStore τ) (ipPrefix : IpPrefix) :
    DefaultResolvedRouteStore τ × Option RouteEvent :=
  let id := getDefaultRouteTable ipPrefix.address
  let (table, event) := (s id).remove trees ipPrefix
  (Function.update s id table, event)

def getRoute (s : DefaultResolvedRouteStore τ) (ipPrefix : IpPrefix) : Option ResolvedRoute :=
  (s (getDefaultRouteTable ipPrefix.address)).getRoute trees ipPrefix

def getAllRoutes (s : DefaultResolvedRouteStore τ) (ipPrefix : IpPrefix) : Finset ResolvedRoute :=
  (s (getDefaultRouteTable ipPrefix.address)).getAllRoutes ipPrefix

def longestPrefixMatch (s : DefaultResolvedRouteStore τ) (ip : IpAddress) : Option ResolvedRoute :=
  (s (getDefaultRouteTable ip)).longestPrefixMatch trees ip

end DefaultResolvedRouteStore

inductive Call where
  | updateRoute (route : ResolvedRoute) (alternatives : Finset ResolvedRoute)
  | removeRoute (ipPrefix : IpPrefix)

def step (s : DefaultResolvedRouteStore τ) : Call → DefaultResolvedRouteStore τ
  | .updateRoute route alternatives => (s.updateRoute trees route alternatives).1
  | .removeRoute ipPrefix => (s.removeRoute trees ipPrefix).1

def run (calls : List Call) : DefaultResolvedRouteStore τ :=
  calls.foldl (step trees) (DefaultResolvedRouteStore.create trees)

end Model

section Abstract

abbrev Stored := IpPrefix → Option ResolvedRoute

def Stored.call (m : Stored) : Call → Stored
  | .updateRoute route _ => Function.update m route.route.ipPrefix (some route)
  | .removeRoute ipPrefix => Function.update m ipPrefix none

def lastStored (calls : List Call) : Stored := calls.foldl Stored.call fun _ => none

end Abstract

section Keys

theorem isSet_iff (value : Byte) {bitOffset : ℕ} (h : bitOffset < 8) :
    value.signExtend 32 &&& (1 <<< (8 - 1 - bitOffset) : BitVec 32) ≠ 0 ↔
      value.getMsbD bitOffset = true := by
  have hone : BitVec.twoPow 32 (8 - 1 - bitOffset) ≠ 0 := by
    intro hzero
    have hbit := congrArg (BitVec.getLsbD · (8 - 1 - bitOffset)) hzero
    simp [BitVec.getLsbD_twoPow] at hbit
    omega
  have hlow : (value.signExtend 32).getLsbD (8 - 1 - bitOffset) = value.getMsbD bitOffset := by
    rw [BitVec.getLsbD_signExtend, BitVec.getMsbD, decide_eq_true h, if_pos (by omega),
      decide_eq_true (by omega)]
  change value.signExtend 32 &&& (1#32 <<< (8 - 1 - bitOffset)) ≠ 0 ↔ _
  rw [← BitVec.twoPow_eq, BitVec.and_twoPow, hlow]
  cases value.getMsbD bitOffset
  · simp
  · simpa using hone

theorem createBinaryString_eq (p : IpPrefix) : createBinaryString p =
    '0' :: (List.range p.prefixLength).map fun i =>
      if bitAt p.address.toOctets i then '1' else '0' := by
  refine congrArg (List.cons '0') (List.map_congr_left fun i _ => ?_)
  exact if_congr (isSet_iff _ (Nat.mod_lt i (by decide))) rfl rfl

theorem digit_inj {b b' : Bool} : (if b then '1' else '0') = (if b' then '1' else '0') ↔ b = b' := by
  revert b b'
  decide

theorem createBinaryString_prefix_iff {p q : IpPrefix} (h : p.address.isIp4 = q.address.isIp4) :
    createBinaryString p <+: createBinaryString q ↔ p.contains q = true := by
  rw [createBinaryString_eq, createBinaryString_eq, List.cons_prefix_cons, IpPrefix.contains_iff,
    IpPrefix.containsAddress_iff, List.prefix_iff_getElem]
  simp only [List.length_map, List.length_range, List.getElem_map, List.getElem_range, digit_inj,
    true_and, h, exists_prop]
  exact and_congr_right fun _ => forall₂_congr fun i _ => eq_comm

theorem createBinaryString_inj {p q : IpPrefix} (h : p.address.isIp4 = q.address.isIp4) :
    createBinaryString p = createBinaryString q ↔ p = q := by
  refine ⟨fun heq => ?_, congrArg _⟩
  refine IpPrefix.eq_of_contains ?_ ?_
  · exact (createBinaryString_prefix_iff h).mp (heq ▸ List.prefix_rfl)
  · exact (createBinaryString_prefix_iff h.symm).mp (heq ▸ List.prefix_rfl)

theorem contains_toIpPrefix {p : IpPrefix} {ip : IpAddress} :
    p.contains ip.toIpPrefix = true ↔ p.containsAddress ip = true := by
  refine IpPrefix.contains_iff.trans ⟨And.right, fun h => ⟨?_, h⟩⟩
  exact p.le_bitLength.trans_eq (IpAddress.bitLength_eq (IpPrefix.containsAddress_iff.mp h).1).symm

theorem getLast?_filterMap_inits {β : Type} (f : BinaryString → Option β) (key : BinaryString) :
    ((key.inits.filterMap f).getLast? = none ↔ ∀ k, k <+: key → f k = none) ∧
    ∀ b, (key.inits.filterMap f).getLast? = some b →
      ∃ k, k <+: key ∧ f k = some b ∧ ∀ k', k' <+: key → f k' ≠ none → k'.length ≤ k.length := by
  induction key using List.reverseRecOn with
  | nil =>
    cases h : f [] with
    | none => simp [h]
    | some b => simp [h]
  | append_singleton key c ih =>
    have hinits : (key ++ [c]).inits = key.inits ++ [key ++ [c]] := by
      rw [List.inits_append]
      rfl
    rw [hinits, List.filterMap_append, List.getLast?_append]
    cases h : f (key ++ [c]) with
    | none =>
      have hlast : ([key ++ [c]].filterMap f).getLast? = none := by simp [h]
      rw [hlast, Option.none_or]
      refine ⟨ih.1.trans ⟨fun hall k hk => ?_, fun hall k hk => ?_⟩, fun b hb => ?_⟩
      · obtain rfl | hk := List.prefix_concat_iff.mp hk
        · exact h
        · exact hall k hk
      · exact hall k (hk.trans (List.prefix_append _ _))
      · obtain ⟨k, hk, hkb, hmax⟩ := ih.2 b hb
        refine ⟨k, hk.trans (List.prefix_append _ _), hkb, fun k' hk' hne => ?_⟩
        obtain rfl | hk' := List.prefix_concat_iff.mp hk'
        · exact absurd h hne
        · exact hmax k' hk' hne
    | some a =>
      have hlast : ([key ++ [c]].filterMap f).getLast? = some a := by simp [h]
      rw [hlast, Option.some_or]
      refine ⟨⟨nofun, fun hall => ?_⟩, fun b hb => ?_⟩
      · rw [hall _ List.prefix_rfl] at h
        cases h
      · cases hb
        exact ⟨_, List.prefix_rfl, h, fun k' hk' _ => hk'.length_le⟩

end Keys

section Runs

variable {τ : Type} {trees : InvertedRadixTree τ}

/-- A best route is among the alternatives, and there are none without one. -/
def Agrees (alternatives : Option (Finset ResolvedRoute)) : Option ResolvedRoute → Prop
  | none => alternatives = none
  | some route => ∃ routes, alternatives = some routes ∧ route ∈ routes

structure Represents (trees : InvertedRadixTree τ) (s : DefaultResolvedRouteStore τ)
    (m : Stored) : Prop where
  best : ∀ id key route, trees.getValueForExactKey (s id).routeTable key = some route ↔
    ∃ p, getDefaultRouteTable p.address = id ∧ createBinaryString p = key ∧ m p = some route
  alternatives : ∀ p,
    Agrees ((s (getDefaultRouteTable p.address)).alternativeRoutes.lookup p) (m p)

theorem getDefaultRouteTable_inj {a b : IpAddress} :
    getDefaultRouteTable a = getDefaultRouteTable b ↔ a.isIp4 = b.isIp4 := by
  rw [getDefaultRouteTable, getDefaultRouteTable]
  cases a.isIp4 <;> cases b.isIp4 <;> decide

theorem represents_create (h : trees.IsMap) :
    Represents trees (DefaultResolvedRouteStore.create trees) fun _ => none where
  best id key route := by simp [DefaultResolvedRouteStore.create, RouteTable.create, h.empty]
  alternatives p := rfl

theorem Represents.replace {s : DefaultResolvedRouteStore τ} {m : Stored}
    (h : Represents trees s m) {p : IpPrefix} {t : RouteTable τ} {value : Option ResolvedRoute}
    (htree : ∀ key, trees.getValueForExactKey t.routeTable key =
      if key = createBinaryString p then value
      else trees.getValueForExactKey (s (getDefaultRouteTable p.address)).routeTable key)
    (hsame : Agrees (t.alternativeRoutes.lookup p) value)
    (hother : ∀ q ≠ p, t.alternativeRoutes.lookup q =
      (s (getDefaultRouteTable p.address)).alternativeRoutes.lookup q) :
    Represents trees (Function.update s (getDefaultRouteTable p.address) t)
      (Function.update m p value) where
  best id key route := by
    by_cases hid : id = getDefaultRouteTable p.address
    · subst hid
      rw [Function.update_self, htree]
      split
      · next hkey =>
        subst hkey
        constructor
        · intro hvalue
          exact ⟨p, rfl, rfl, by rw [Function.update_self, hvalue]⟩
        · rintro ⟨q, hq, hkey, hroute⟩
          obtain rfl := (createBinaryString_inj (getDefaultRouteTable_inj.mp hq)).mp hkey
          rwa [Function.update_self] at hroute
      · next hkey =>
        rw [h.best]
        refine exists_congr fun q => and_congr_right fun _ => and_congr_right fun hq => ?_
        rw [Function.update_of_ne]
        rintro rfl
        exact hkey hq.symm
    · rw [Function.update_of_ne hid, h.best]
      refine exists_congr fun q => and_congr_right fun hq => and_congr_right fun _ => ?_
      rw [Function.update_of_ne]
      rintro rfl
      exact hid hq.symm
  alternatives q := by
    by_cases hq : q = p
    · subst hq
      rwa [Function.update_self, Function.update_self]
    · rw [Function.update_of_ne hq]
      have halternatives := h.alternatives q
      by_cases hid : getDefaultRouteTable q.address = getDefaultRouteTable p.address
      · rwa [hid, Function.update_self, hother q hq, ← hid]
      · rwa [Function.update_of_ne hid]

theorem update_fst (t : RouteTable τ) (route : ResolvedRoute)
    (alternatives : Finset ResolvedRoute) : (t.update trees route alternatives).1 =
      ⟨(trees.put t.routeTable (createBinaryString route.route.ipPrefix) route).1,
        t.alternativeRoutes.insert route.route.ipPrefix
          (RouteTable.checkAlternatives route alternatives)⟩ := by
  rw [RouteTable.update]
  dsimp only
  split_ifs
  · split <;> rfl
  · rfl
  · rfl

theorem mem_checkAlternatives (route : ResolvedRoute) (alternatives : Finset ResolvedRoute) :
    route ∈ RouteTable.checkAlternatives route alternatives := by
  rw [RouteTable.checkAlternatives]
  split_ifs with h
  · exact h
  · exact Finset.mem_insert_self _ _

theorem Represents.step (htrees : trees.IsMap) {s : DefaultResolvedRouteStore τ} {m : Stored}
    (h : Represents trees s m) (call : Call) :
    Represents trees (step trees s call) (m.call call) := by
  cases call with
  | updateRoute route alternatives =>
    change Represents trees (Function.update s _ (RouteTable.update trees _ _ _).1) _
    rw [update_fst]
    refine h.replace (htrees.put _ _ _) ⟨_, AList.lookup_insert _, mem_checkAlternatives _ _⟩ ?_
    exact fun q hq => AList.lookup_insert_ne hq
  | removeRoute p =>
    rw [RouteTables.step, DefaultResolvedRouteStore.removeRoute, RouteTable.remove]
    dsimp only
    split
    · next route hroute =>
      exact h.replace (htrees.remove _ _) (AList.lookup_erase _ _) fun q hq =>
        AList.lookup_erase_ne hq
    · next hnone =>
      refine h.replace (fun key => ?_) (AList.lookup_erase _ _) fun q hq => AList.lookup_erase_ne hq
      split
      · next hkey => rw [hkey, hnone]
      · rfl

theorem represents_run (htrees : trees.IsMap) (calls : List Call) :
    Represents trees (run trees calls) (lastStored calls) := by
  have hfrom : ∀ s m, Represents trees s m →
      Represents trees (calls.foldl (step trees) s) (calls.foldl Stored.call m) := by
    induction calls with
    | nil => exact fun s m h => h
    | cons call calls ih => exact fun s m h => ih _ _ (h.step htrees call)
  exact hfrom _ _ (represents_create htrees)

namespace Represents

variable {s : DefaultResolvedRouteStore τ} {m : Stored}

theorem getRoute_eq (h : Represents trees s m) (p : IpPrefix) : s.getRoute trees p = m p := by
  refine Option.ext fun route => (h.best _ _ _).trans ⟨?_, fun hp => ⟨p, rfl, rfl, hp⟩⟩
  rintro ⟨q, hid, hkey, hq⟩
  rwa [← (createBinaryString_inj (getDefaultRouteTable_inj.mp hid)).mp hkey]

theorem exists_prefix_iff (h : Represents trees s m) (ip : IpAddress) (route : ResolvedRoute)
    (key : BinaryString) :
    key <+: createBinaryString ip.toIpPrefix ∧
        trees.getValueForExactKey (s (getDefaultRouteTable ip)).routeTable key = some route ↔
      ∃ p, createBinaryString p = key ∧ m p = some route ∧ p.containsAddress ip = true := by
  rw [h.best]
  constructor
  · rintro ⟨hkey, p, hid, rfl, hp⟩
    have hversion := getDefaultRouteTable_inj.mp hid
    exact ⟨p, rfl, hp, contains_toIpPrefix.mp ((createBinaryString_prefix_iff hversion).mp hkey)⟩
  · rintro ⟨p, rfl, hp, hin⟩
    have hversion := (IpPrefix.containsAddress_iff.mp hin).1.symm
    exact ⟨(createBinaryString_prefix_iff hversion).mpr (contains_toIpPrefix.mpr hin), p,
      getDefaultRouteTable_inj.mpr hversion, rfl, hp⟩

end Represents

theorem length_createBinaryString (p : IpPrefix) :
    (createBinaryString p).length = p.prefixLength + 1 := by
  rw [createBinaryString, List.length_cons, List.length_map, List.length_range]

/-- After any calls the match is the route last stored for the longest prefix that contains the
address, and both parts of a table know the same prefixes. -/
theorem longestPrefixMatch_exact (trees : InvertedRadixTree τ) (htrees : trees.IsMap)
    (calls : List Call) (ip : IpAddress) (p : IpPrefix) :
    ((run trees calls).longestPrefixMatch trees ip = none ↔
      ∀ q, lastStored calls q ≠ none → q.containsAddress ip = false) ∧
    (∀ route, (run trees calls).longestPrefixMatch trees ip = some route →
      ∃ q, lastStored calls q = some route ∧ q.containsAddress ip = true ∧
        ∀ q', lastStored calls q' ≠ none → q'.containsAddress ip = true →
          q'.prefixLength ≤ q.prefixLength) ∧
    (run trees calls).getRoute trees p = lastStored calls p ∧
    ((run trees calls).getRoute trees p = none ↔ (run trees calls).getAllRoutes p = ∅) ∧
    ∀ route, (run trees calls).getRoute trees p = some route →
      route ∈ (run trees calls).getAllRoutes p := by
  have h := represents_run htrees calls
  generalize run trees calls = s at h ⊢
  generalize lastStored calls = m at h ⊢
  have hstored : ∀ q, m q ≠ none → q.containsAddress ip = true →
      createBinaryString q <+: createBinaryString ip.toIpPrefix ∧
        trees.getValueForExactKey (s (getDefaultRouteTable ip)).routeTable
          (createBinaryString q) ≠ none := by
    intro q hq hin
    obtain ⟨route, hroute⟩ := Option.ne_none_iff_exists'.mp hq
    obtain ⟨hkey, hget⟩ := (h.exists_prefix_iff ip route _).mpr ⟨q, rfl, hroute, hin⟩
    exact ⟨hkey, Option.ne_none_iff_exists'.mpr ⟨route, hget⟩⟩
  obtain ⟨hnone, hsome⟩ := getLast?_filterMap_inits
    (trees.getValueForExactKey (s (getDefaultRouteTable ip)).routeTable)
    (createBinaryString ip.toIpPrefix)
  have halternatives := h.alternatives p
  rw [h.getRoute_eq p]
  rw [DefaultResolvedRouteStore.longestPrefixMatch, RouteTable.longestPrefixMatch, htrees.prefixing]
  refine ⟨hnone.trans ⟨fun hall q hq => ?_, fun hall key hkey => ?_⟩, fun route hroute => ?_, rfl,
    ?_, fun route hroute => ?_⟩
  · by_contra hin
    obtain ⟨hkey, hne⟩ := hstored q hq (Bool.not_eq_false _ ▸ hin)
    exact hne (hall _ hkey)
  · by_contra hne
    obtain ⟨route, hroute⟩ := Option.ne_none_iff_exists'.mp hne
    obtain ⟨q, rfl, hq, hin⟩ := (h.exists_prefix_iff ip route key).mp ⟨hkey, hroute⟩
    rw [hall q (Option.ne_none_iff_exists'.mpr ⟨route, hq⟩)] at hin
    cases hin
  · obtain ⟨key, hkey, hget, hmax⟩ := hsome route hroute
    obtain ⟨q, rfl, hq, hin⟩ := (h.exists_prefix_iff ip route key).mp ⟨hkey, hget⟩
    refine ⟨q, hq, hin, fun q' hq' hin' => ?_⟩
    obtain ⟨hkey', hne⟩ := hstored q' hq' hin'
    have hlength := hmax _ hkey' hne
    rw [length_createBinaryString, length_createBinaryString] at hlength
    omega
  · rw [DefaultResolvedRouteStore.getAllRoutes, RouteTable.getAllRoutes]
    cases hp : m p with
    | none =>
      rw [hp] at halternatives
      simp [show _ = none from halternatives]
    | some route =>
      rw [hp] at halternatives
      obtain ⟨routes, hroutes, hmem⟩ := halternatives
      rw [hroutes]
      exact ⟨nofun, fun hempty => absurd hmem (by simp [show routes = ∅ from hempty])⟩
  · rw [hroute] at halternatives
    obtain ⟨routes, hroutes, hmem⟩ := halternatives
    rw [DefaultResolvedRouteStore.getAllRoutes, RouteTable.getAllRoutes, hroutes]
    exact hmem

section Events

def report (trees : InvertedRadixTree τ) (s : DefaultResolvedRouteStore τ) :
    Call → Option RouteEvent
  | .updateRoute route alternatives => (s.updateRoute trees route alternatives).2
  | .removeRoute ipPrefix => (s.removeRoute trees ipPrefix).2

/-- What a listener that only knows the events makes of one. -/
def Stored.notify (m : Stored) : Option RouteEvent → Stored
  | none => m
  | some event => match event.type with
    | .ROUTE_ADDED | .ROUTE_UPDATED =>
      Function.update m event.subject.route.ipPrefix (some event.subject)
    | .ROUTE_REMOVED => Function.update m event.subject.route.ipPrefix none
    | .ALTERNATIVE_ROUTES_CHANGED => m

def listen (trees : InvertedRadixTree τ) (s : DefaultResolvedRouteStore τ) (m : Stored) :
    List Call → Stored
  | [] => m
  | call :: calls => listen trees (step trees s call) (m.notify (report trees s call)) calls

def IsOwn (m : Stored) : Prop := ∀ p route, m p = some route → route.route.ipPrefix = p

theorem isOwn_call {m : Stored} (h : IsOwn m) (call : Call) : IsOwn (m.call call) := by
  intro p route hp
  cases call with
  | updateRoute other alternatives =>
    rw [Stored.call, Function.update_apply] at hp
    split_ifs at hp with hsame
    · exact Option.some.inj hp ▸ hsame.symm
    · exact h p route hp
  | removeRoute other =>
    rw [Stored.call, Function.update_apply] at hp
    split_ifs at hp
    exact h p route hp

theorem Represents.notify_report {s : DefaultResolvedRouteStore τ} {m : Stored}
    (htrees : trees.IsMap) (h : Represents trees s m) (hown : IsOwn m) (call : Call) :
    m.notify (report trees s call) = m.call call := by
  cases call with
  | updateRoute route alternatives =>
    have hold := (htrees.old _ _ route).trans (h.getRoute_eq route.route.ipPrefix)
    rw [report, DefaultResolvedRouteStore.updateRoute, RouteTable.update]
    dsimp only
    rw [hold]
    split_ifs with hnew hchanged
    · cases m route.route.ipPrefix <;> rfl
    · exact (Function.update_eq_self_iff.mpr (not_not.mp hnew)).symm
    · exact (Function.update_eq_self_iff.mpr (not_not.mp hnew)).symm
  | removeRoute p =>
    have hstored := h.getRoute_eq p
    rw [DefaultResolvedRouteStore.getRoute, RouteTable.getRoute] at hstored
    rw [report, DefaultResolvedRouteStore.removeRoute, RouteTable.remove]
    dsimp only
    rw [hstored]
    cases hp : m p with
    | none => exact (Function.update_eq_self_iff.mpr hp.symm).symm
    | some route =>
      rw [← hown p route hp]
      rfl

/-- After any calls a listener to the events knows exactly the best routes of the store. -/
theorem listen_getRoute (trees : InvertedRadixTree τ) (htrees : trees.IsMap) (calls : List Call)
    (p : IpPrefix) :
    listen trees (DefaultResolvedRouteStore.create trees) (fun _ => none) calls p =
      (run trees calls).getRoute trees p := by
  have hfrom : ∀ s m, Represents trees s m → IsOwn m →
      Represents trees (calls.foldl (step trees) s) (listen trees s m calls) := by
    induction calls with
    | nil => exact fun s m h _ => h
    | cons call calls ih =>
      intro s m h hown
      rw [listen, h.notify_report htrees hown]
      exact ih _ _ (h.step htrees call) (isOwn_call hown call)
  exact ((hfrom _ _ (represents_create htrees) fun _ _ => nofun).getRoute_eq p).symm

end Events

def tableTrees : InvertedRadixTree (Table BinaryString ResolvedRoute) where
  empty := ∅
  put t key route := (t.insert key route, t.lookup key)
  remove t key := t.erase key
  getValueForExactKey t key := t.lookup key
  getValuesForKeysPrefixing t key := key.inits.filterMap fun k => t.lookup k

theorem tableTrees_isMap : tableTrees.IsMap where
  empty _ := rfl
  put t key value k := lookup_insert t key k value
  old _ _ _ := rfl
  remove t key k := lookup_erase t key k
  prefixing _ _ := rfl

def defaultPrefix : IpPrefix := ⟨.INET 0, 0, by decide, by decide⟩

def defaultRoute : ResolvedRoute := ⟨⟨defaultPrefix, .INET 0x0a000001⟩, 1, 0⟩

/-- The default route is found again, by the theorem. -/
theorem getRoute_defaultRoute :
    (run tableTrees [.updateRoute defaultRoute ∅]).getRoute tableTrees defaultPrefix =
      some defaultRoute :=
  have hlast : lastStored [.updateRoute defaultRoute ∅] defaultPrefix = some defaultRoute := by
    decide
  (longestPrefixMatch_exact tableTrees tableTrees_isMap _ (.INET 0x08080808)
    defaultPrefix).2.2.1.trans hlast

theorem listen_defaultRoute : listen tableTrees (DefaultResolvedRouteStore.create tableTrees)
    (fun _ => none) [.updateRoute defaultRoute ∅, .removeRoute defaultPrefix] defaultPrefix = none :=
  (listen_getRoute tableTrees tableTrees_isMap _ _).trans (by decide)

end Runs

end RouteTables

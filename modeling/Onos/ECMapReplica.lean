import Onos.Lib.KeyedMap
import Onos.Lib.LastWriter

/-! One replica of an eventually consistent map: its items with their tombstones, the updates it
has accumulated for each peer, and the events its listener received. Timestamps are ordered by
`isNewerThan`; those of the timestamp provider and the local system time `now` are inputs. -/
namespace ECMapReplica

open KeyedMap LastWriter

structure MapValue (V T : Type*) where
  value : Option V
  timestamp : T
  creationTime : ℕ
  deriving DecidableEq, Repr

structure Digest (T : Type*) where
  timestamp : T
  isTombstone : Bool
  deriving DecidableEq, Repr

structure UpdateEntry (K V T : Type*) where
  key : K
  value : Option (MapValue V T)
  deriving DecidableEq, Repr

structure AntiEntropyAdvertisement (K T N : Type*) where
  sender : N
  digest : Table K (Digest T)

structure UpdateRequest (K N : Type*) where
  sender : N
  keys : List K

inductive AntiEntropyResponse where
  | PROCESSED
  | IGNORED
  deriving DecidableEq, Repr

inductive EventType where
  | PUT
  | REMOVE
  deriving DecidableEq, Repr

structure Event (K V : Type*) where
  type : EventType
  key : K
  value : V
  deriving DecidableEq, Repr

structure Replica (K V T N : Type*) where
  localNodeId : N
  tombstonesDisabled : Bool
  items : Table K (MapValue V T)
  senderPending : N → List (UpdateEntry K V T)
  antiEntropyTimes : Table N ℕ
  previousTombstonePurgeTime : ℕ
  events : List (Event K V)

variable {K V T N : Type*}

namespace MapValue

def tombstone (timestamp : T) (now : ℕ) : MapValue V T := ⟨none, timestamp, now⟩

def copy (v : MapValue V T) (now : ℕ) : MapValue V T := ⟨v.value, v.timestamp, now⟩

def isTombstone (v : MapValue V T) : Bool := v.value.isNone

def isAlive (v : MapValue V T) : Bool := v.value.isSome

def digest (v : MapValue V T) : Digest T := ⟨v.timestamp, v.isTombstone⟩

def content (v : MapValue V T) : Option V × T := (v.value, v.timestamp)

variable [LinearOrder T]

def isNewerThan (v other : MapValue V T) : Bool := decide (other.timestamp < v.timestamp)

end MapValue

section Newer
variable [LinearOrder T]

def Digest.isNewerThan (d other : Digest T) : Bool := decide (other.timestamp < d.timestamp)

def UpdateEntry.isNewerThan (e : UpdateEntry K V T) (other : Option (UpdateEntry K V T)) : Bool :=
  match other with
  | none => true
  | some other => match other.value, e.value with
    | none, _ => true
    | some _, none => false
    | some o, some v => v.isNewerThan o

end Newer

namespace Replica

def config (r : Replica K V T N) : N × Bool := (r.localNodeId, r.tombstonesDisabled)

section Outbox
variable [DecidableEq N]

def queueUpdate (r : Replica K V T N) (event : UpdateEntry K V T) (peers : List N) :
    Replica K V T N :=
  { r with
    senderPending := peers.foldl
      (fun pending node => Function.update pending node (pending node ++ [event]))
      r.senderPending }

def notifyPeers (r : Replica K V T N) (event : UpdateEntry K V T) (peers : List N) :
    Replica K V T N := r.queueUpdate event peers

theorem mem_queueUpdate (r : Replica K V T N) (event e : UpdateEntry K V T) (peers : List N)
    (n : N) : e ∈ (r.queueUpdate event peers).senderPending n ↔
      e ∈ r.senderPending n ∨ (e = event ∧ n ∈ peers) := by
  have hfold : ∀ pending : N → List (UpdateEntry K V T),
      e ∈ peers.foldl (fun pending node => Function.update pending node (pending node ++ [event]))
        pending n ↔ e ∈ pending n ∨ (e = event ∧ n ∈ peers) := by
    induction peers with
    | nil => simp
    | cons peer peers ih =>
      intro pending
      rw [List.foldl_cons, ih, Function.update_apply]
      by_cases hn : n = peer
      · subst hn
        simp only [if_true, List.mem_append, List.mem_cons, List.not_mem_nil, or_false, true_or,
          and_true]
        rw [or_assoc, or_iff_left_of_imp (And.left : e = event ∧ n ∈ peers → e = event)]
      · simp [hn]
  exact hfold r.senderPending

end Outbox

section Events

def notifyListeners (r : Replica K V T N) (event : Event K V) : Replica K V T N :=
  { r with events := r.events ++ [event] }

def removed (key : K) (previousValue : Option (MapValue V T)) : Option (Event K V) :=
  (previousValue.bind MapValue.value).map fun v => ⟨.REMOVE, key, v⟩

def notifyRemoved (r : Replica K V T N) (key : K) (previousValue : Option (MapValue V T)) :
    Replica K V T N :=
  match removed key previousValue with
  | none => r
  | some event => r.notifyListeners event

@[simp] theorem notifyRemoved_items (r : Replica K V T N) (key : K)
    (previousValue : Option (MapValue V T)) :
    (r.notifyRemoved key previousValue).items = r.items := by
  rw [notifyRemoved]
  cases removed key previousValue <;> rfl

@[simp] theorem notifyRemoved_senderPending (r : Replica K V T N) (key : K)
    (previousValue : Option (MapValue V T)) :
    (r.notifyRemoved key previousValue).senderPending = r.senderPending := by
  rw [notifyRemoved]
  cases removed key previousValue <;> rfl

end Events

section Items
variable [DecidableEq K]

def get (r : Replica K V T N) (key : K) : Option V := (r.items.lookup key).bind MapValue.value

def keySet (r : Replica K V T N) : List K :=
  (r.items.entries.filter fun e => e.2.isAlive).map Sigma.fst

theorem mem_keySet (r : Replica K V T N) (key : K) : key ∈ r.keySet ↔ r.get key ≠ none := by
  unfold keySet get
  rw [List.mem_map]
  constructor
  · rintro ⟨⟨_, v⟩, he, rfl⟩
    obtain ⟨he, halive⟩ := List.mem_filter.mp he
    rw [(mem_entries_iff _ _ _).mp he]
    exact Option.isSome_iff_ne_none.mp halive
  · intro h
    cases hl : r.items.lookup key with
    | none => exact absurd (by rw [hl]; rfl) h
    | some v =>
      rw [hl] at h
      exact ⟨⟨key, v⟩, List.mem_filter.mpr ⟨(mem_entries_iff _ _ _).mpr hl,
        Option.isSome_iff_ne_none.mpr h⟩, rfl⟩

def content (r : Replica K V T N) (key : K) : Option (Option V × T) :=
  (r.items.lookup key).map MapValue.content

theorem get_eq_content (r : Replica K V T N) (key : K) :
    r.get key = (r.content key).bind Prod.fst := by
  unfold get content
  cases r.items.lookup key <;> rfl

theorem content_of_lookup {r : Replica K V T N} {key : K} {held : Option (MapValue V T)}
    (h : r.items.lookup key = held) : r.content key = held.map MapValue.content := by
  rw [content, h]

end Items

variable [LinearOrder T] [DecidableEq K] [DecidableEq V] [DecidableEq N]

def valueMatches (value : Option V) : Option (MapValue V T) → Bool
  | some existing => match value with
    | some v => existing.isTombstone || decide (some v = existing.value)
    | none => true
  | none => true

def removes (value : Option V) (tombstone : Option (MapValue V T)) :
    Option (MapValue V T) → Bool
  | none => tombstone.isSome
  | some existing => valueMatches value (some existing) && match tombstone with
    | none => true
    | some t => t.isNewerThan existing

/-- The replica and the previous value, which is given only when the map was updated. -/
def removeInternal (r : Replica K V T N) (key : K) (value : Option V)
    (tombstone : Option (MapValue V T)) : Replica K V T N × Option (MapValue V T) :=
  let existing := r.items.lookup key
  if removes value tombstone existing then
    ({ r with items := KeyedMap.put r.items key tombstone }, existing)
  else (r, none)

def putInternal (r : Replica K V T N) (key : K) (newValue : MapValue V T) :
    Replica K V T N × Bool :=
  let updated := match r.items.lookup key with
    | none => true
    | some existing => newValue.isNewerThan existing
  if updated then ({ r with items := KeyedMap.put r.items key (some newValue) }, true)
  else (r, false)

/-- Without a timestamp the new value cannot be constructed and the call throws. -/
def put (r : Replica K V T N) (key : K) (value : V) (timestamp : Option T) (now : ℕ)
    (peers : List N) : Option (Replica K V T N) :=
  timestamp.map fun timestamp =>
    let newValue : MapValue V T := ⟨some value, timestamp, now⟩
    let (r, updated) := r.putInternal key newValue
    if updated then (r.notifyPeers ⟨key, some newValue⟩ peers).notifyListeners ⟨.PUT, key, value⟩
    else r

def removalTombstone (r : Replica K V T N) (timestamp : Option T) (now : ℕ) :
    Option (MapValue V T) :=
  if r.tombstonesDisabled then none else timestamp.map fun t => .tombstone t now

def removeAndNotify (r : Replica K V T N) (key : K) (value : Option V) (timestamp : Option T)
    (now : ℕ) (peers : List N) : Replica K V T N :=
  let tombstone := r.removalTombstone timestamp now
  let (r, previousValue) := r.removeInternal key value tombstone
  match previousValue with
  | none => r
  | some previous => (r.notifyPeers ⟨key, tombstone⟩ peers).notifyRemoved key (some previous)

def updateComputed (r : Replica K V T N) (key : K) (newValue : MapValue V T) (peers : List N) :
    Replica K V T N :=
  let previousValue := r.items.lookup key
  let r := { r with items := KeyedMap.put r.items key (some newValue) }
  let r := r.notifyPeers ⟨key, some newValue⟩ peers
  match newValue.value with
  | some value => r.notifyListeners ⟨.PUT, key, value⟩
  | none => r.notifyRemoved key previousValue

def compute (r : Replica K V T N) (key : K) (recomputeFunction : Option V → Option V)
    (timestamp : Option T) (now : ℕ) (peers : List N) : Option (Replica K V T N) :=
  let mv := r.items.lookup key
  let newRawValue := recomputeFunction (mv.bind MapValue.value)
  match mv with
  | none => timestamp.map fun t => r.updateComputed key ⟨newRawValue, t, now⟩ peers
  | some existing =>
    if newRawValue = existing.value then some r
    else timestamp.map fun t =>
      let newValue : MapValue V T := ⟨newRawValue, t, now⟩
      if newValue.isNewerThan existing then r.updateComputed key newValue peers else r

def clear (r : Replica K V T N) (timestamp : K → Option T) (now : ℕ) (peers : K → List N) :
    Replica K V T N :=
  r.keySet.foldl
    (fun r key => r.removeAndNotify key none (timestamp key) now (peers key)) r

def addListener (r : Replica K V T N) : Replica K V T N :=
  { r with events := r.items.entries.filterMap fun e => e.2.value.map fun v => ⟨.PUT, e.1, v⟩ }

def createAdvertisement (r : Replica K V T N) : AntiEntropyAdvertisement K T N :=
  ⟨r.localNodeId, mapValues MapValue.digest r.items⟩

structure LocalCheck (K V T N : Type*) where
  replica : Replica K V T N
  externalEvents : List (Event K V)
  staleOrMissing : List K

def checkLocalItem (ad : AntiEntropyAdvertisement K T N) (now : ℕ) (c : LocalCheck K V T N)
    (key : K) (localValue : MapValue V T) : LocalCheck K V T N :=
  let push := { c with replica := c.replica.queueUpdate ⟨key, some localValue⟩ [ad.sender] }
  match ad.digest.lookup key with
  | none => push
  | some remoteValueDigest =>
    if remoteValueDigest.timestamp < localValue.timestamp then push
    else if remoteValueDigest.isNewerThan localValue.digest && remoteValueDigest.isTombstone then
      let tombstone := MapValue.tombstone remoteValueDigest.timestamp now
      let (r, previousValue) := c.replica.removeInternal key none (some tombstone)
      { c with
        replica := r
        externalEvents := c.externalEvents ++ (removed key previousValue).toList }
    else if remoteValueDigest.isNewerThan localValue.digest then
      { c with staleOrMissing := c.staleOrMissing ++ [key] }
    else c

def checkLocalItems (r : Replica K V T N) (ad : AntiEntropyAdvertisement K T N) (now : ℕ) :
    LocalCheck K V T N :=
  r.items.entries.foldl (fun c e => checkLocalItem ad now c e.1 e.2) ⟨r, [], []⟩

def locallyUnknown (r : Replica K V T N) (ad : AntiEntropyAdvertisement K T N) : List K :=
  ad.digest.keys.filter fun key => (r.items.lookup key).isNone

def antiEntropyCheckLocalItems (r : Replica K V T N) (ad : AntiEntropyAdvertisement K T N)
    (now : ℕ) : Replica K V T N × List (Event K V) × UpdateRequest K N :=
  let c := r.checkLocalItems ad now
  (c.replica, c.externalEvents, ⟨r.localNodeId, c.staleOrMissing ++ r.locallyUnknown ad⟩)

def handleAntiEntropyAdvertisement (r : Replica K V T N) (ad : AntiEntropyAdvertisement K T N)
    (now : ℕ) (underHighLoad : Bool) :
    Replica K V T N × Option (UpdateRequest K N) × AntiEntropyResponse :=
  if underHighLoad then (r, none, .IGNORED)
  else
    let (r, externalEvents, request) := r.antiEntropyCheckLocalItems ad now
    (externalEvents.foldl notifyListeners r, some request, .PROCESSED)

def handleUpdateRequests (r : Replica K V T N) (request : UpdateRequest K N) : Replica K V T N :=
  request.keys.foldl (fun r key => r.queueUpdate ⟨key, r.items.lookup key⟩ [request.sender]) r

def advertisementAnswered (r : Replica K V T N) (peer : N) (adCreationTime : ℕ)
    (response : AntiEntropyResponse) : Replica K V T N :=
  match response with
  | .PROCESSED =>
    { r with antiEntropyTimes := KeyedMap.put r.antiEntropyTimes peer (some adCreationTime) }
  | .IGNORED => r

def currentSafeTombstonePurgeTime (r : Replica K V T N) (peers : List N) : ℕ :=
  ((peers.map fun id => (r.antiEntropyTimes.lookup id).getD 0).min?).getD 0

def tombStonesToDelete (r : Replica K V T N) (safe : ℕ) : List K :=
  (r.items.entries.filter fun e => e.2.isTombstone && e.2.creationTime ≤ safe).map Sigma.fst

def purgeTombstones (r : Replica K V T N) (peers : List N) : Replica K V T N :=
  let safe := r.currentSafeTombstonePurgeTime peers
  if safe = r.previousTombstonePurgeTime then r
  else
    { r with
      previousTombstonePurgeTime := safe
      items := (r.tombStonesToDelete safe).foldl (fun items key => items.erase key) r.items }

def processUpdate (r : Replica K V T N) (now : ℕ) (update : UpdateEntry K V T) :
    Replica K V T N :=
  let value := update.value.map fun v => v.copy now
  let remove (tombstone : Option (MapValue V T)) : Replica K V T N :=
    let (r, previousValue) := r.removeInternal update.key none tombstone
    r.notifyRemoved update.key previousValue
  match value with
  | none => remove none
  | some v => match v.value with
    | none => remove (some v)
    | some newRawValue =>
      let (r, updated) := r.putInternal update.key v
      if updated then r.notifyListeners ⟨.PUT, update.key, newRawValue⟩ else r

def processUpdates (r : Replica K V T N) (now : ℕ) (updates : List (UpdateEntry K V T)) :
    Replica K V T N := updates.foldl (fun r update => r.processUpdate now update) r

/-- The batch an accumulator sends: of the pending updates of a key the newest. -/
def processItems (pending : List (UpdateEntry K V T)) : Table K (UpdateEntry K V T) :=
  pending.foldl (fun map item =>
    if item.isNewerThan (map.lookup item.key) then KeyedMap.put map item.key (some item) else map) ∅

omit [DecidableEq K] [DecidableEq N] in
theorem removes_none_some (t : MapValue V T) (existing : Option (MapValue V T)) :
    removes none (some t) existing = true ↔ ∀ e, existing = some e → e.timestamp < t.timestamp := by
  cases existing <;> simp [removes, valueMatches, MapValue.isNewerThan]

section

omit [DecidableEq N]

theorem lookup_removeInternal (r : Replica K V T N) (key j : K) (value : Option V)
    (tombstone : Option (MapValue V T)) :
    (r.removeInternal key value tombstone).1.items.lookup j =
      if j = key ∧ removes value tombstone (r.items.lookup key) then tombstone
      else r.items.lookup j := by
  rw [removeInternal]
  by_cases h : removes value tombstone (r.items.lookup key) = true
  · simp [h, lookup_put]
  · simp [h]

theorem removeInternal_senderPending (r : Replica K V T N) (key : K) (value : Option V)
    (tombstone : Option (MapValue V T)) :
    (r.removeInternal key value tombstone).1.senderPending = r.senderPending := by
  unfold removeInternal
  dsimp only
  split_ifs <;> rfl

end

section

omit [DecidableEq V] [DecidableEq N]

theorem lookup_putInternal (r : Replica K V T N) (key j : K) (newValue : MapValue V T) :
    (r.putInternal key newValue).1.items.lookup j =
      if j = key ∧ ∀ e, r.items.lookup key = some e → e.timestamp < newValue.timestamp then
        some newValue
      else r.items.lookup j := by
  rw [putInternal]
  cases he : r.items.lookup key with
  | none => simp [lookup_put]
  | some e =>
    by_cases h : e.timestamp < newValue.timestamp
    · simp [MapValue.isNewerThan, h, lookup_put]
    · simp [MapValue.isNewerThan, h]

theorem content_of_newer {r r' : Replica K V T N} {key j : K} {v : MapValue V T}
    (h : r'.items.lookup j =
      if j = key ∧ ∀ e, r.items.lookup key = some e → e.timestamp < v.timestamp then some v
      else r.items.lookup j) :
    r'.content j = if j = key then take Prod.snd (r.content key) v.content else r.content j := by
  rw [content_of_lookup h]
  by_cases hj : j = key
  · subst hj
    rw [content]
    cases he : r.items.lookup j with
    | none => simp [take]
    | some e =>
      by_cases hlt : e.timestamp < v.timestamp
      · simp [take, MapValue.content, hlt]
      · simp [take, MapValue.content, hlt]
  · simp [hj, content]

end

omit [DecidableEq N] in
theorem content_removeInternal (r : Replica K V T N) (key j : K) (t : MapValue V T) :
    (r.removeInternal key none (some t)).1.content j =
      if j = key then take Prod.snd (r.content key) t.content else r.content j := by
  apply content_of_newer
  simp only [lookup_removeInternal, removes_none_some]

omit [DecidableEq V] [DecidableEq N] in
theorem content_putInternal (r : Replica K V T N) (key j : K) (v : MapValue V T) :
    (r.putInternal key v).1.content j =
      if j = key then take Prod.snd (r.content key) v.content else r.content j :=
  content_of_newer (lookup_putInternal r key j v)

omit [DecidableEq N] in
theorem content_processUpdate (r : Replica K V T N) (now : ℕ) (key j : K) (v : MapValue V T) :
    (r.processUpdate now ⟨key, some v⟩).content j =
      if j = key then take Prod.snd (r.content key) v.content else r.content j := by
  obtain ⟨value, timestamp, creationTime⟩ := v
  cases value with
  | none =>
    have hitems : (r.processUpdate now ⟨key, some ⟨none, timestamp, creationTime⟩⟩).items =
        (r.removeInternal key none (some ⟨none, timestamp, now⟩)).1.items :=
      notifyRemoved_items _ _ _
    rw [content, hitems]
    exact content_removeInternal r key j ⟨none, timestamp, now⟩
  | some value =>
    have hitems : (r.processUpdate now ⟨key, some ⟨some value, timestamp, creationTime⟩⟩).items =
        (r.putInternal key ⟨some value, timestamp, now⟩).1.items := by
      simp only [processUpdate, Option.map_some, MapValue.copy]
      split <;> rfl
    rw [content, hitems]
    exact content_putInternal r key j ⟨some value, timestamp, now⟩

section Batches

omit [DecidableEq V] [DecidableEq N]

section

omit [DecidableEq K]

theorem isNewerThan_value {e o : UpdateEntry K V T} {v : MapValue V T}
    (h : e.isNewerThan (some o) = true) (ho : o.value = some v) :
    ∃ v', e.value = some v' ∧ v.timestamp < v'.timestamp := by
  cases he : e.value with
  | none => simp [UpdateEntry.isNewerThan, ho, he] at h
  | some v' =>
    have hlt : v.timestamp < v'.timestamp := by
      simpa [UpdateEntry.isNewerThan, ho, he, MapValue.isNewerThan] using h
    exact ⟨v', rfl, hlt⟩

theorem not_isNewerThan {e : UpdateEntry K V T} {other : Option (UpdateEntry K V T)}
    (h : ¬ e.isNewerThan other = true) : ∃ o v', other = some o ∧ o.value = some v' ∧
      ∀ v, e.value = some v → v.timestamp ≤ v'.timestamp := by
  cases other with
  | none => exact absurd rfl h
  | some o =>
    cases ho : o.value with
    | none => simp [UpdateEntry.isNewerThan, ho] at h
    | some v' =>
      refine ⟨o, v', rfl, ho, fun v he => ?_⟩
      simpa [UpdateEntry.isNewerThan, ho, he, MapValue.isNewerThan] using h

end

structure NewestOf (key : K) (pending : List (UpdateEntry K V T))
    (kept : Option (UpdateEntry K V T)) : Prop where
  mem : ∀ e, kept = some e → e ∈ pending ∧ e.key = key
  newest : ∀ e ∈ pending, e.key = key → ∀ v, e.value = some v →
    ∃ e' v', kept = some e' ∧ e'.value = some v' ∧ v.timestamp ≤ v'.timestamp

variable {pending : List (UpdateEntry K V T)} {kept : Option (UpdateEntry K V T)}
  {item : UpdateEntry K V T}

section

omit [DecidableEq K]

theorem newestOf_other {key : K} (h : NewestOf key pending kept) (hkey : item.key ≠ key) :
    NewestOf key (pending ++ [item]) kept := by
  refine ⟨fun e he => ⟨List.mem_append_left _ (h.mem e he).1, (h.mem e he).2⟩, ?_⟩
  intro e he hk v hv
  rcases List.mem_append.mp he with he | he
  · exact h.newest e he hk v hv
  · rw [List.mem_singleton] at he
    subst he
    exact absurd hk hkey

theorem newestOf_replaced

    (h : NewestOf item.key pending kept) (hnewer : item.isNewerThan kept = true) :
    NewestOf item.key (pending ++ [item]) (some item) := by
  constructor
  · intro e he
    cases he
    exact ⟨List.mem_append_right _ (List.mem_singleton.mpr rfl), rfl⟩
  · intro e he hk v hv
    rcases List.mem_append.mp he with he | he
    · obtain ⟨o, w, rfl, ho, hle⟩ := h.newest e he hk v hv
      obtain ⟨w', hw', hlt⟩ := isNewerThan_value hnewer ho
      exact ⟨item, w', rfl, hw', hle.trans hlt.le⟩
    · rw [List.mem_singleton] at he
      subst he
      exact ⟨e, v, rfl, hv, le_rfl⟩

theorem newestOf_kept

    (h : NewestOf item.key pending kept) (hnewer : ¬ item.isNewerThan kept = true) :
    NewestOf item.key (pending ++ [item]) kept := by
  obtain ⟨o, w, rfl, ho, hle⟩ := not_isNewerThan hnewer
  refine ⟨fun e he => ⟨List.mem_append_left _ (h.mem e he).1, (h.mem e he).2⟩, ?_⟩
  intro e he hk v hv
  rcases List.mem_append.mp he with he | he
  · exact h.newest e he hk v hv
  · rw [List.mem_singleton] at he
    subst he
    exact ⟨o, w, rfl, ho, hle v hv⟩

end

theorem newestOf_processItems (pending : List (UpdateEntry K V T)) (key : K) :
    NewestOf key pending ((processItems pending).lookup key) := by
  rw [processItems]
  induction pending using List.reverseRecOn with
  | nil => exact ⟨fun e he => absurd he (by simp), fun e he => absurd he List.not_mem_nil⟩
  | append_singleton pending item ih =>
    rw [List.foldl_append, List.foldl_cons, List.foldl_nil]
    generalize pending.foldl _ (∅ : Table K (UpdateEntry K V T)) = map at ih ⊢
    by_cases hkey : item.key = key
    · subst hkey
      by_cases hnewer : item.isNewerThan (map.lookup item.key) = true
      · rw [if_pos hnewer, lookup_put, if_pos rfl]
        exact newestOf_replaced ih hnewer
      · rw [if_neg hnewer]
        exact newestOf_kept ih hnewer
    · have hlookup : (if item.isNewerThan (map.lookup item.key) = true then
          KeyedMap.put map item.key (some item) else map).lookup key = map.lookup key := by
        split_ifs
        · rw [lookup_put, if_neg (Ne.symm hkey)]
        · rfl
      rw [hlookup]
      exact newestOf_other ih hkey

end Batches

end Replica

end ECMapReplica

import Onos.ECMapConvergence
import Onos.ECMapAntiEntropy
import Onos.Lib.InputMachine
import Onos.Lib.InFlight

/-! The replicas of a map on all nodes. Messages are delayed, reordered or lost at will, and an
accumulator sends any number of the updates it holds at any time. A handler runs in one step. -/
namespace ECMapGossip

open KeyedMap LastWriter InputMachine InFlight ECMapReplica ECMapReplica.Replica ECMapWrites
open ECMapConvergence ECMapAntiEntropy

inductive Message (K V T N : Type*) where
  | updates (updates : List (UpdateEntry K V T))
  | advertisement (adCreationTime : ℕ) (ad : AntiEntropyAdvertisement K T N)
  | answered (adCreationTime : ℕ) (response : AntiEntropyResponse)
  | request (request : UpdateRequest K N)
  | bootstrap (peer : N)

structure Envelope (K V T N : Type*) where
  src : N
  dst : N
  message : Message K V T N

structure Cluster (K V T N : Type*) where
  replicas : N → Replica K V T N
  network : List (Envelope K V T N)

/-- `now` is the local system time of the node that handles the input. -/
inductive GossipInput (K V T N : Type*) where
  | put (n : N) (key : K) (value : V) (timestamp : Option T) (now : ℕ) (peers : List N)
  | remove (n : N) (key : K) (value : Option V) (timestamp : Option T) (now : ℕ) (peers : List N)
  | compute (n : N) (key : K) (recomputeFunction : Option V → Option V) (timestamp : Option T)
    (now : ℕ) (peers : List N)
  | clear (n : N) (timestamp : K → Option T) (now : ℕ) (peers : K → List N)
  | bootstrap (n peer : N)
  | advertise (n peer : N) (now : ℕ)
  | flush (n peer : N) (count : ℕ)
  | purge (n : N) (peers : List N)
  | deliver (k : ℕ) (now : ℕ) (underHighLoad : Bool)
  | lose (k : ℕ)

variable {K V T N : Type*} [DecidableEq N]

def Cluster.set (c : Cluster K V T N) (n : N) (r : Replica K V T N) : Cluster K V T N :=
  { c with replicas := Function.update c.replicas n r }

def Cluster.send (c : Cluster K V T N) (src dst : N) (message : Message K V T N) :
    Cluster K V T N :=
  { c with network := c.network ++ [⟨src, dst, message⟩] }

def defaultMaxEvents : ℕ := 1000

/-- The loop of `handleBootstrap`: a live entry joins the updates, which are sent when full. -/
def addBootstrapUpdate (b : List (List (UpdateEntry K V T)) × List (UpdateEntry K V T)) (key : K)
    (value : MapValue V T) : List (List (UpdateEntry K V T)) × List (UpdateEntry K V T) :=
  if value.isAlive then
    let updates := b.2 ++ [⟨key, some value⟩]
    if updates.length = defaultMaxEvents then (b.1 ++ [updates], []) else (b.1, updates)
  else b

def bootstrapUpdates (r : Replica K V T N) : List (List (UpdateEntry K V T)) :=
  let b := r.items.entries.foldl (fun b e => addBootstrapUpdate b e.1 e.2) ([], [])
  if b.2.isEmpty then b.1 else b.1 ++ [b.2]

variable [DecidableEq K] [DecidableEq V] [LinearOrder T]

def Cluster.flush (c : Cluster K V T N) (n peer : N) (count : ℕ) : Cluster K V T N :=
  let r := c.replicas n
  let pending := r.senderPending peer
  let batch := (processItems (pending.take count)).entries.map Sigma.snd
  (c.set n { r with
    senderPending := Function.update r.senderPending peer (pending.drop count) }).send
      n peer (.updates batch)

def Cluster.receive (c : Cluster K V T N) (e : Envelope K V T N) (now : ℕ)
    (underHighLoad : Bool) : Cluster K V T N :=
  let r := c.replicas e.dst
  match e.message with
  | .updates updates => c.set e.dst (r.processUpdates now updates)
  | .advertisement adCreationTime ad =>
    let (r, request, response) := r.handleAntiEntropyAdvertisement ad now underHighLoad
    let c := match request with
      | none => c.set e.dst r
      | some request => (c.set e.dst r).send e.dst ad.sender (.request request)
    c.send e.dst e.src (.answered adCreationTime response)
  | .answered adCreationTime response =>
    c.set e.dst (r.advertisementAnswered e.src adCreationTime response)
  | .request request => c.set e.dst (r.handleUpdateRequests request)
  | .bootstrap peer =>
    (bootstrapUpdates r).foldl (fun c updates => c.send e.dst peer (.updates updates)) c

def Cluster.handle (c : Cluster K V T N) : GossipInput K V T N → Cluster K V T N
  | .put n key value timestamp now peers =>
    c.set n (((c.replicas n).put key value timestamp now peers).getD (c.replicas n))
  | .remove n key value timestamp now peers =>
    c.set n ((c.replicas n).removeAndNotify key value timestamp now peers)
  | .compute n key recomputeFunction timestamp now peers =>
    c.set n (((c.replicas n).compute key recomputeFunction timestamp now peers).getD
      (c.replicas n))
  | .clear n timestamp now peers => c.set n ((c.replicas n).clear timestamp now peers)
  | .bootstrap n peer => c.send n peer (.bootstrap n)
  | .advertise n peer now =>
    c.send n peer (.advertisement now (c.replicas n).createAdvertisement)
  | .flush n peer count => c.flush n peer count
  | .purge n peers => c.set n ((c.replicas n).purgeTombstones peers)
  | .deliver k now underHighLoad => match takeAt k c.network with
    | none => c
    | some (e, rest) => { c with network := rest }.receive e now underHighLoad
  | .lose k => match takeAt k c.network with
    | none => c
    | some (_, rest) => { c with network := rest }

def arrive (r : Replica K V T N) (e : Envelope K V T N) (now : ℕ) (underHighLoad : Bool) :
    Replica K V T N :=
  match e.message with
  | .updates updates => r.processUpdates now updates
  | .advertisement _ ad => (r.handleAntiEntropyAdvertisement ad now underHighLoad).1
  | .answered adCreationTime response => r.advertisementAnswered e.src adCreationTime response
  | .request request => r.handleUpdateRequests request
  | .bootstrap _ => r

theorem replicas_receive (c : Cluster K V T N) (e : Envelope K V T N) (now : ℕ)
    (underHighLoad : Bool) (n : N) : (c.receive e now underHighLoad).replicas n =
      if n = e.dst then arrive (c.replicas e.dst) e now underHighLoad else c.replicas n := by
  have hset : ∀ r, (c.set e.dst r).replicas n = if n = e.dst then r else c.replicas n :=
    fun r => Function.update_apply _ _ _ _
  obtain ⟨src, dst, message⟩ := e
  cases message with
  | updates updates => exact hset _
  | advertisement adCreationTime ad => cases underHighLoad <;> exact hset _
  | answered adCreationTime response => exact hset _
  | request request => exact hset _
  | bootstrap peer =>
    have hsend : ∀ (batches : List (List (UpdateEntry K V T))) (c : Cluster K V T N),
        (batches.foldl (fun c updates => c.send dst peer (.updates updates)) c).replicas =
          c.replicas := by
      intro batches
      induction batches with
      | nil => exact fun _ => rfl
      | cons batch batches ih => exact fun c => ih (c.send dst peer (.updates batch))
    simp only [Cluster.receive, arrive, hsend]
    split_ifs with hn
    · rw [hn]
    · rfl

def replies (r : Replica K V T N) (e : Envelope K V T N) (now : ℕ) (underHighLoad : Bool) :
    List (Envelope K V T N) :=
  match e.message with
  | .advertisement adCreationTime ad =>
    let (_, request, response) := r.handleAntiEntropyAdvertisement ad now underHighLoad
    (request.toList.map fun request => ⟨e.dst, ad.sender, .request request⟩) ++
      [⟨e.dst, e.src, .answered adCreationTime response⟩]
  | .bootstrap peer => (bootstrapUpdates r).map fun updates => ⟨e.dst, peer, .updates updates⟩
  | _ => []

theorem network_receive (c : Cluster K V T N) (e : Envelope K V T N) (now : ℕ)
    (underHighLoad : Bool) : (c.receive e now underHighLoad).network =
      c.network ++ replies (c.replicas e.dst) e now underHighLoad := by
  obtain ⟨src, dst, message⟩ := e
  cases message with
  | updates updates => exact (List.append_nil _).symm
  | advertisement adCreationTime ad =>
    cases underHighLoad with
    | true => rfl
    | false => exact List.append_assoc _ _ _
  | answered adCreationTime response => exact (List.append_nil _).symm
  | request request => exact (List.append_nil _).symm
  | bootstrap peer =>
    have hsend : ∀ (batches : List (List (UpdateEntry K V T))) (c : Cluster K V T N),
        (batches.foldl (fun c updates => c.send dst peer (.updates updates)) c).network =
          c.network ++ batches.map fun updates => ⟨dst, peer, .updates updates⟩ := by
      intro batches
      induction batches with
      | nil => exact fun c => (List.append_nil _).symm
      | cons batch batches ih =>
        intro c
        exact (ih (c.send dst peer (.updates batch))).trans (List.append_assoc _ _ _)
    exact hsend _ c

/-- Tombstones are purged only where they are kept, and an accumulator sends no empty batch. -/
def Cluster.Accepts (c : Cluster K V T N) : GossipInput K V T N → Prop
  | .purge n _ => (c.replicas n).tombstonesDisabled = false
  | .flush n peer count => 0 < count ∧ (c.replicas n).senderPending peer ≠ []
  | .deliver k _ _ | .lose k => k < c.network.length
  | _ => True

instance (c : Cluster K V T N) : (x : GossipInput K V T N) → Decidable (c.Accepts x)
  | .purge n _ => inferInstanceAs (Decidable ((c.replicas n).tombstonesDisabled = false))
  | .flush n peer count =>
    inferInstanceAs (Decidable (0 < count ∧ (c.replicas n).senderPending peer ≠ []))
  | .deliver k _ _ | .lose k => inferInstanceAs (Decidable (k < c.network.length))
  | .put .. | .remove .. | .compute .. | .clear .. | .bootstrap .. | .advertise .. => isTrue trivial

def emptyReplica (n : N) : Replica K V T N := ⟨n, false, ∅, fun _ => [], ∅, 0, []⟩

def gossipMachine : Machine (Cluster K V T N) (GossipInput K V T N) where
  initial := ⟨emptyReplica, []⟩
  enabled := Cluster.Accepts
  next := Cluster.handle

instance (c : Cluster K V T N) (x : GossipInput K V T N) :
    Decidable (gossipMachine.enabled c x) := inferInstanceAs (Decidable (c.Accepts x))

section Carried

/-- All updates on their way, accumulated or in flight, satisfy `P` at their destination. -/
structure CarriesOnly (P : N → UpdateEntry K V T → Prop) (c : Cluster K V T N) : Prop where
  pending : ∀ n, QueuesOnly P (c.replicas n)
  inFlight : ∀ e ∈ c.network, ∀ updates, e.message = .updates updates →
    ∀ u ∈ updates, P e.dst u

def Configured (c : Cluster K V T N) : Prop := ∀ n, (c.replicas n).config = (n, false)

variable {P : N → UpdateEntry K V T → Prop} {c : Cluster K V T N}

omit [DecidableEq K] [DecidableEq V] [LinearOrder T]

theorem carriesOnly_set (h : CarriesOnly P c) {n : N} {r : Replica K V T N}
    (hr : QueuesOnly P r) : CarriesOnly P (c.set n r) := by
  refine ⟨fun k => ?_, h.inFlight⟩
  simp only [Cluster.set, Function.update_apply]
  split_ifs
  · exact hr
  · exact h.pending k

theorem configured_set (h : Configured c) {n : N} {r : Replica K V T N}
    (hr : r.config = (c.replicas n).config) : Configured (c.set n r) := by
  intro k
  simp only [Cluster.set, Function.update_apply]
  split_ifs with hk
  · rw [hr, hk]
    exact h n
  · exact h k

omit [DecidableEq N]

theorem carriesOnly_send (h : CarriesOnly P c) {src dst : N} {message : Message K V T N}
    (hm : ∀ updates, message = .updates updates → ∀ u ∈ updates, P dst u) :
    CarriesOnly P (c.send src dst message) := by
  refine ⟨h.pending, fun e he => ?_⟩
  rcases List.mem_append.mp he with he | he
  · exact h.inFlight e he
  · rw [List.mem_singleton] at he
    subst he
    exact hm

theorem carriesOnly_rest (h : CarriesOnly P c) {k : ℕ} {e : Envelope K V T N}
    {rest : List (Envelope K V T N)} (ht : takeAt k c.network = some (e, rest)) :
    CarriesOnly P { c with network := rest } :=
  ⟨h.pending, fun e' he' => h.inFlight e' ((mem_takeAt ht e').mpr (Or.inr he'))⟩

end Carried

section Gossiping
variable {P : N → UpdateEntry K V T → Prop} {c : Cluster K V T N}

omit [DecidableEq V] in
theorem flush_keeps (h : CarriesOnly P c) (hc : Configured c) (n peer : N) (count : ℕ) :
    CarriesOnly P (c.flush n peer count) ∧ Configured (c.flush n peer count) := by
  refine ⟨carriesOnly_send (carriesOnly_set h ?_) ?_, configured_set hc rfl⟩
  · intro k u hu
    simp only [Function.update_apply] at hu
    split_ifs at hu with hk
    · subst hk
      exact h.pending n k u (List.mem_of_mem_drop hu)
    · exact h.pending n k u hu
  · intro updates hm u hu
    obtain rfl := Message.updates.inj hm
    obtain ⟨⟨key, u'⟩, hmem, rfl⟩ := List.mem_map.mp hu
    have hkept := (newestOf_processItems _ key).mem u' ((mem_entries_iff _ _ _).mp hmem)
    exact h.pending n peer u' (List.mem_of_mem_take hkept.1)

omit [DecidableEq V] [DecidableEq N] [LinearOrder T] in
theorem bootstrapUpdates_keeps {P : UpdateEntry K V T → Prop} {r : Replica K V T N}
    (hitems : ∀ key v, r.items.lookup key = some v → P ⟨key, some v⟩) :
    ∀ updates ∈ bootstrapUpdates r, ∀ u ∈ updates, P u := by
  have hfold : ∀ (es : List (Sigma fun _ : K => MapValue V T)),
      (∀ e ∈ es, P ⟨e.1, some e.2⟩) →
      ∀ b : List (List (UpdateEntry K V T)) × List (UpdateEntry K V T),
        (∀ updates ∈ b.1 ++ [b.2], ∀ u ∈ updates, P u) →
        ∀ updates ∈ (es.foldl (fun b e => addBootstrapUpdate b e.1 e.2) b).1 ++
          [(es.foldl (fun b e => addBootstrapUpdate b e.1 e.2) b).2], ∀ u ∈ updates, P u := by
    intro es
    induction es with
    | nil => exact fun _ _ hb => hb
    | cons e es ih =>
      intro hes b hb
      obtain ⟨he, hes⟩ := List.forall_mem_cons.mp hes
      rw [List.foldl_cons]
      apply ih hes
      simp only [List.forall_mem_append, List.forall_mem_singleton] at hb
      have hjoined : ∀ u ∈ b.2 ++ [(⟨e.1, some e.2⟩ : UpdateEntry K V T)], P u := by
        simp only [List.forall_mem_append, List.forall_mem_singleton]
        exact ⟨hb.2, he⟩
      simp only [List.forall_mem_append, List.forall_mem_singleton]
      unfold addBootstrapUpdate
      dsimp only
      split_ifs
      · simp only [List.forall_mem_append, List.forall_mem_singleton]
        exact ⟨⟨hb.1, List.forall_mem_append.mp hjoined |>.1, he⟩, by simp⟩
      · exact ⟨hb.1, hjoined⟩
      · exact hb
  have hall := hfold r.items.entries
    (fun e he => hitems e.1 e.2 ((mem_entries_iff _ _ _).mp he)) ([], []) (by simp)
  intro updates hupdates
  unfold bootstrapUpdates at hupdates
  dsimp only at hupdates
  split_ifs at hupdates
  · exact hall updates (List.mem_append_left _ hupdates)
  · exact hall updates hupdates

/-- An arriving message leaves only such updates on their way, if the items and the answers to
requests are such. -/
theorem receive_keeps (h : CarriesOnly P c) (hc : Configured c) {e : Envelope K V T N}
    (hitems : ∀ peer key v, (c.replicas e.dst).items.lookup key = some v → P peer ⟨key, some v⟩)
    (hrequest : ∀ request, e.message = .request request →
      ∀ key ∈ request.keys, P request.sender ⟨key, (c.replicas e.dst).items.lookup key⟩)
    (now : ℕ) (underHighLoad : Bool) :
    CarriesOnly P (c.receive e now underHighLoad) ∧
      Configured (c.receive e now underHighLoad) := by
  obtain ⟨src, dst, message⟩ := e
  cases message with
  | updates updates =>
    refine ⟨carriesOnly_set h ?_, configured_set hc (processUpdates_config _ _ _)⟩
    unfold QueuesOnly
    rw [processUpdates_senderPending]
    exact h.pending dst
  | advertisement adCreationTime ad =>
    have hset : CarriesOnly P (c.set dst
        ((c.replicas dst).handleAntiEntropyAdvertisement ad now underHighLoad).1) :=
      carriesOnly_set h (queuesOnly_handled _ ad now (h.pending dst) (hitems _) underHighLoad)
    have hconf : Configured (c.set dst
        ((c.replicas dst).handleAntiEntropyAdvertisement ad now underHighLoad).1) :=
      configured_set hc (config_handled _ _ _ _)
    cases underHighLoad with
    | true => exact ⟨carriesOnly_send hset (by simp), hconf⟩
    | false =>
      exact ⟨carriesOnly_send (carriesOnly_send hset (by simp)) (by simp), hconf⟩
  | answered adCreationTime response =>
    have hframe := advertisementAnswered_frame (c.replicas dst) src adCreationTime response
    refine ⟨carriesOnly_set h ?_, configured_set hc hframe.2.2.1⟩
    unfold QueuesOnly
    rw [hframe.2.1]
    exact h.pending dst
  | request request =>
    have hqueue :=
      queuesOnly_handleUpdateRequests (h.pending dst) request (hrequest request rfl)
    exact ⟨carriesOnly_set h hqueue, configured_set hc (handleUpdateRequests_frame _ _).2.1⟩
  | bootstrap peer =>
    have hlive := bootstrapUpdates_keeps (hitems peer)
    have hconf : ∀ (batches : List (List (UpdateEntry K V T))) (c : Cluster K V T N),
        (∀ updates ∈ batches, ∀ u ∈ updates, P peer u) → CarriesOnly P c → Configured c →
        CarriesOnly P (batches.foldl (fun c updates => c.send dst peer (.updates updates)) c) ∧
          Configured (batches.foldl (fun c updates => c.send dst peer (.updates updates)) c) := by
      intro batches
      induction batches with
      | nil => exact fun c _ h hc => ⟨h, hc⟩
      | cons batch batches ih =>
        intro c hb h hc
        obtain ⟨hbatch, hrest⟩ := List.forall_mem_cons.mp hb
        refine ih _ hrest (carriesOnly_send h fun updates hm => ?_) hc
        obtain rfl := Message.updates.inj hm
        exact hbatch
    exact hconf _ c hlive h hc

end Gossiping

/-- The item of every requested key is still there, and every removal that removes something
has a timestamp. -/
def Answerable (c : Cluster K V T N) : GossipInput K V T N → Prop
  | .remove n key value timestamp _ _ =>
    timestamp = none → removes value none ((c.replicas n).items.lookup key) = false
  | .clear n timestamp _ _ => ∀ key, (c.replicas n).get key ≠ none → timestamp key ≠ none
  | .deliver k _ _ => ∀ e rest request, takeAt k c.network = some (e, rest) →
    e.message = .request request →
      ∀ key ∈ request.keys, (c.replicas e.dst).items.lookup key ≠ none
  | _ => True

def HasValue (u : UpdateEntry K V T) : Prop := u.value ≠ none

structure Truthful (c : Cluster K V T N) : Prop where
  configured : Configured c
  carries : CarriesOnly (fun _ => HasValue) c

omit [DecidableEq K] [DecidableEq V] [LinearOrder T] in
theorem truthful_set {c : Cluster K V T N} (h : Truthful c) {n : N} {r : Replica K V T N}
    (hq : QueuesOnly (fun _ => HasValue) r) (hc : r.config = (c.replicas n).config) : Truthful (c.set n r) :=
  ⟨configured_set h.configured hc, carriesOnly_set h.carries hq⟩

omit [DecidableEq V] [LinearOrder T] in
theorem truthful_wrote {c : Cluster K V T N} (h : Truthful c) {n : N} {r : Replica K V T N}
    {key : K} {v : MapValue V T} (hw : Wrote (c.replicas n) r key (some v)) :
    Truthful (c.set n r) :=
  truthful_set h (queuesOnly_wrote (h.carries.pending n) hw fun _ => Option.some_ne_none v) hw.config

omit [DecidableEq N] [DecidableEq K] [DecidableEq V] [LinearOrder T] in
theorem removalTombstone_of_configured {c : Cluster K V T N} (h : Configured c) (n : N)
    (timestamp : Option T) (now : ℕ) : (c.replicas n).removalTombstone timestamp now =
      timestamp.map fun t => .tombstone t now := by
  have hd : (c.replicas n).tombstonesDisabled = false := congrArg Prod.snd (h n)
  rw [removalTombstone, hd]
  rfl

theorem handle_truthful {c : Cluster K V T N} (h : Truthful c) (x : GossipInput K V T N)
    (hok : Answerable c x) : Truthful (c.handle x) := by
  cases x with
  | put n key value timestamp now peers =>
    simp only [Cluster.handle]
    cases hp : (c.replicas n).put key value timestamp now peers with
    | none => exact truthful_set h (h.carries.pending n) rfl
    | some r =>
      rw [Option.getD_some]
      rcases put_cases hp with rfl | ⟨t, _, _, hw⟩
      · exact truthful_set h (h.carries.pending n) rfl
      · exact truthful_wrote h hw
  | remove n key value timestamp now peers =>
    rcases removeAndNotify_cases (c.replicas n) key value timestamp now peers with he | ⟨hr, hw⟩
    · simp only [Cluster.handle, he]
      exact truthful_set h (h.carries.pending n) rfl
    · rw [removalTombstone_of_configured h.configured] at hr hw
      cases timestamp with
      | none =>
        rw [Option.map_none, hok rfl] at hr
        cases hr
      | some t => exact truthful_wrote h hw
  | compute n key recomputeFunction timestamp now peers =>
    simp only [Cluster.handle]
    cases hp : (c.replicas n).compute key recomputeFunction timestamp now peers with
    | none => exact truthful_set h (h.carries.pending n) rfl
    | some r =>
      rw [Option.getD_some]
      rcases compute_cases hp with rfl | ⟨t, _, _, hw⟩
      · exact truthful_set h (h.carries.pending n) rfl
      · exact truthful_wrote h hw
  | clear n timestamp now peers =>
    have hframe := clear_frame (h.carries.pending n) timestamp now peers fun key hkey _ => by
      rw [removalTombstone_of_configured h.configured]
      obtain ⟨t, ht⟩ := Option.ne_none_iff_exists'.mp (hok key hkey)
      rw [ht]
      exact Option.some_ne_none _
    exact truthful_set h hframe.1 hframe.2
  | bootstrap n peer => exact ⟨h.configured, carriesOnly_send h.carries (by simp)⟩
  | advertise n peer now => exact ⟨h.configured, carriesOnly_send h.carries (by simp)⟩
  | flush n peer count =>
    have hflush := flush_keeps h.carries h.configured n peer count
    exact ⟨hflush.2, hflush.1⟩
  | purge n peers =>
    have hframe := purgeTombstones_frame (c.replicas n) peers
    refine truthful_set h ?_ hframe.2.1
    unfold QueuesOnly
    rw [hframe.1]
    exact h.carries.pending n
  | deliver k now underHighLoad =>
    simp only [Cluster.handle]
    cases ht : takeAt k c.network with
    | none => exact h
    | some taken =>
      obtain ⟨e, rest⟩ := taken
      have hreceive := receive_keeps (carriesOnly_rest h.carries ht)
        (show Configured { c with network := rest } from h.configured)
        (fun _ _ v _ => Option.some_ne_none v)
        (fun request hm key hkey => hok e rest request ht hm key hkey) now underHighLoad
      exact ⟨hreceive.2, hreceive.1⟩
  | lose k =>
    simp only [Cluster.handle]
    cases ht : takeAt k c.network with
    | none => exact h
    | some taken => exact ⟨h.configured, carriesOnly_rest h.carries ht⟩

def Message.CarriesTombstone (message : Message K V T N) (key : K) (timestamp : T) : Prop :=
  match message with
  | .updates entries =>
    ∃ u ∈ entries, u.key = key ∧ u.value.map MapValue.content = some (none, timestamp)
  | .advertisement _ ad => ad.digest.lookup key = some ⟨timestamp, true⟩
  | _ => False

/-- No timestamp goes backwards, and a live entry goes only for a newer tombstone. -/
structure KeepsNewest (message : Message K V T N) (r r' : Replica K V T N) : Prop where
  notBackwards : ∀ key c, r.content key = some c → ∃ c', r'.content key = some c' ∧ c.2 ≤ c'.2
  keepsLive : ∀ key value timestamp, r.content key = some (some value, timestamp) →
    r'.get key = none → ∃ t, timestamp < t ∧ message.CarriesTombstone key t

section

omit [DecidableEq N] [DecidableEq V]

theorem keepsNewest_of_replaced {message : Message K V T N} {r r' : Replica K V T N}
    (h : ∀ key c, r.content key = some c → ∃ c', r'.content key = some c' ∧
      (c' = c ∨ (c.2 < c'.2 ∧ (c'.1 = none → message.CarriesTombstone key c'.2)))) :
    KeepsNewest message r r' := by
  constructor
  · intro key c hc
    obtain ⟨c', hc', rfl | ⟨hlt, _⟩⟩ := h key c hc
    · exact ⟨c', hc', le_rfl⟩
    · exact ⟨c', hc', hlt.le⟩
  · intro key value timestamp hc hgone
    obtain ⟨c', hc', hcase⟩ := h key _ hc
    rw [get_eq_content, hc', Option.bind_some] at hgone
    rcases hcase with rfl | ⟨hlt, hcarries⟩
    · cases hgone
    · exact ⟨c'.2, hlt, hcarries hgone⟩

theorem keepsNewest_refl {message : Message K V T N} {r r' : Replica K V T N}
    (h : r'.items = r.items) : KeepsNewest message r r' := by
  apply keepsNewest_of_replaced
  intro key c hc
  exact ⟨c, by rw [content, h]; exact hc, Or.inl rfl⟩

end

omit [DecidableEq N] in
theorem processUpdates_keepsNewest (r : Replica K V T N) (now : ℕ)
    {updates : List (UpdateEntry K V T)} (h : ∀ u ∈ updates, HasValue u) :
    KeepsNewest (.updates updates) r (r.processUpdates now updates) := by
  apply keepsNewest_of_replaced
  intro key c hc
  obtain ⟨c', hc', hcase⟩ : ∃ d, takeAll Prod.snd (some c) (carried updates key) = some d ∧
      (d = c ∨ (c.2 < d.2 ∧ d ∈ carried updates key)) := takeAll_some c _
  refine ⟨c', ?_, hcase.imp_right fun hlt => ⟨hlt.1, fun hdead => ?_⟩⟩
  · rw [content_processUpdates r now key h, hc, hc']
  · obtain ⟨u, hu, hkey, hu'⟩ := (mem_carried _ _ _).mp hlt.2
    exact ⟨u, hu, hkey, hu'.trans (congrArg some (Prod.ext hdead rfl))⟩

theorem handled_keepsNewest (r : Replica K V T N) (ad : AntiEntropyAdvertisement K T N)
    (adCreationTime now : ℕ) (underHighLoad : Bool) :
    KeepsNewest (.advertisement adCreationTime ad) r
      (r.handleAntiEntropyAdvertisement ad now underHighLoad).1 := by
  cases underHighLoad with
  | true => exact keepsNewest_refl rfl
  | false =>
    apply keepsNewest_of_replaced
    intro key c hc
    rw [content_handled, hc]
    cases hd : ad.digest.lookup key with
    | none => exact ⟨c, rfl, Or.inl rfl⟩
    | some remote =>
      obtain ⟨timestamp, _ | _⟩ := remote
      · exact ⟨c, rfl, Or.inl rfl⟩
      · rcases lt_or_ge c.2 timestamp with hlt | hge
        · exact ⟨_, take_of_lt hlt, Or.inr ⟨hlt, fun _ => hd⟩⟩
        · exact ⟨c, take_of_le hge, Or.inl rfl⟩

theorem arrive_keepsNewest (r : Replica K V T N) {e : Envelope K V T N}
    (h : ∀ updates, e.message = .updates updates → ∀ u ∈ updates, HasValue u) (now : ℕ)
    (underHighLoad : Bool) : KeepsNewest e.message r (arrive r e now underHighLoad) := by
  obtain ⟨src, dst, message⟩ := e
  cases message with
  | updates updates => exact processUpdates_keepsNewest r now (h updates rfl)
  | advertisement adCreationTime ad => exact handled_keepsNewest r ad _ now underHighLoad
  | answered adCreationTime response =>
    exact keepsNewest_refl (advertisementAnswered_frame _ _ _ _).1
  | request request => exact keepsNewest_refl (handleUpdateRequests_frame _ _).1
  | bootstrap peer => exact keepsNewest_refl rfl

/-- As long as requested keys are there to be answered and removals have timestamps, gossip
never loses the newest write. -/
theorem gossip_keeps_newest {xs : List (GossipInput K V T N)}
    (hv : ((gossipMachine : Machine (Cluster K V T N) _).guarded Answerable).Valid
      gossipMachine.initial xs)
    {k : ℕ} {e : Envelope K V T N} {rest : List (Envelope K V T N)}
    (ht : takeAt k (gossipMachine.run gossipMachine.initial xs).network = some (e, rest))
    (now : ℕ) (underHighLoad : Bool) :
    KeepsNewest e.message ((gossipMachine.run gossipMachine.initial xs).replicas e.dst)
      ((gossipMachine.run gossipMachine.initial
        (xs ++ [.deliver k now underHighLoad])).replicas e.dst) := by
  have hinit : Truthful (gossipMachine : Machine (Cluster K V T N) _).initial :=
    ⟨fun _ => rfl, fun _ _ _ hu => absurd hu List.not_mem_nil,
      fun _ he => absurd he List.not_mem_nil⟩
  have hstep : ∀ (c : Cluster K V T N) x, Truthful c →
      (gossipMachine.guarded Answerable).enabled c x →
      Truthful ((gossipMachine.guarded Answerable).next c x) :=
    fun c x hc hx => handle_truthful hc x hx.2
  have htruthful := invariant_run Truthful hstep hv hinit
  have he := (mem_takeAt ht e).mpr (Or.inl rfl)
  rw [run_append]
  have hnext : ∀ c : Cluster K V T N, takeAt k c.network = some (e, rest) →
      (gossipMachine.run c [.deliver k now underHighLoad]).replicas e.dst =
        arrive (c.replicas e.dst) e now underHighLoad := by
    intro c hc
    simp only [run_cons, run_nil, gossipMachine, Cluster.handle, hc]
    rw [replicas_receive, if_pos rfl]
  rw [hnext _ ht]
  exact arrive_keepsNewest _ (htruthful.carries.inFlight e he) now underHighLoad

def putOnBoth : List (GossipInput ℕ ℕ ℕ ℕ) :=
  [.put 1 7 100 (some 3) 1 [], .put 0 7 200 (some 5) 2 [1], .flush 0 1 1]

theorem gossip_keeps_newest_once : ∃ e rest,
    takeAt 0 (gossipMachine.run gossipMachine.initial putOnBoth).network = some (e, rest) ∧
      KeepsNewest e.message
        ((gossipMachine.run gossipMachine.initial putOnBoth).replicas e.dst)
        ((gossipMachine.run gossipMachine.initial
          (putOnBoth ++ [.deliver 0 3 false])).replicas e.dst) := by
  have hv : ((gossipMachine : Machine (Cluster ℕ ℕ ℕ ℕ) _).guarded Answerable).Valid
      gossipMachine.initial putOnBoth :=
    ⟨⟨trivial, trivial⟩, ⟨trivial, trivial⟩, ⟨⟨by decide, by decide⟩, trivial⟩, trivial⟩
  have hlength : 0 < (gossipMachine.run gossipMachine.initial putOnBoth).network.length := by
    decide
  obtain ⟨e, rest, ht⟩ := takeAt_isSome hlength
  exact ⟨e, rest, ht, gossip_keeps_newest hv ht 3 false⟩

/-- Node 0 purges a tombstone that node 1 has asked for, answers without a value, and the answer
removes what node 1 has put in the meantime. -/
def purgedBeforeAnswer : List (GossipInput ℕ ℕ ℕ ℕ) :=
  [.put 0 7 100 (some 3) 1 [1], .remove 0 7 none (some 5) 2 [1], .flush 0 1 2, .lose 0,
    .advertise 0 1 10, .deliver 0 11 false, .deliver 1 12 false, .purge 0 [1],
    .deliver 0 13 false, .put 1 7 200 (some 7) 14 [], .flush 0 1 1]

theorem newest_write_lost_by_gossip : gossipMachine.Valid gossipMachine.initial purgedBeforeAnswer ∧
      takeAt 0 (gossipMachine.run gossipMachine.initial purgedBeforeAnswer).network =
        some (⟨0, 1, .updates [⟨7, none⟩]⟩, []) ∧
      ¬ KeepsNewest (.updates [⟨7, none⟩])
        ((gossipMachine.run gossipMachine.initial purgedBeforeAnswer).replicas 1)
        ((gossipMachine.run gossipMachine.initial
          (purgedBeforeAnswer ++ [.deliver 0 15 false])).replicas 1) := by
  refine ⟨by decide, by rfl, fun h => ?_⟩
  obtain ⟨c, hc, _⟩ := h.notBackwards 7 (some 200, 7) (by decide)
  have hgone : ((gossipMachine.run gossipMachine.initial
      (purgedBeforeAnswer ++ [.deliver 0 15 false])).replicas 1).content 7 = none := by decide
  rw [hgone] at hc
  cases hc

end ECMapGossip

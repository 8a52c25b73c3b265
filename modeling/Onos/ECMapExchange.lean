import Onos.ECMapGossip

/-! One anti-entropy exchange. A node advertises its map to another; the pushes, the request and
the answers that follow are sent and delivered in any order. -/
namespace ECMapExchange

open KeyedMap LastWriter InputMachine InFlight ECMapReplica ECMapReplica.Replica ECMapWrites
open ECMapConvergence ECMapAntiEntropy ECMapGossip

variable {K V T N : Type*} [DecidableEq K] [LinearOrder T]

omit [LinearOrder T] in
def between (P Q : Replica K V T N) (key : K) : Set (Option V × T) :=
  {a | P.content key = some a} ∪ {a | Q.content key = some a}

omit [LinearOrder T] in
def Known (P Q : Replica K V T N) (u : UpdateEntry K V T) : Prop :=
  ∃ a ∈ between P Q u.key, u.value.map MapValue.content = some a

def AtLeast (r : Replica K V T N) (key : K) (timestamp : T) : Prop :=
  ∃ b, r.content key = some b ∧ timestamp ≤ b.2

omit [DecidableEq K] [LinearOrder T] in
/-- The update waits for the node in an accumulator or in a message in flight. -/
def Travels (c : Cluster K V T N) (n : N) (u : UpdateEntry K V T) : Prop :=
  (∃ m, u ∈ (c.replicas m).senderPending n) ∨
    ∃ e ∈ c.network, e.dst = n ∧ ∃ updates, e.message = .updates updates ∧ u ∈ updates

/-- The node holds an entry of at least this timestamp, or one is on its way. -/
def Reaches (c : Cluster K V T N) (n : N) (key : K) (timestamp : T) : Prop :=
  AtLeast (c.replicas n) key timestamp ∨
    ∃ u v, Travels c n u ∧ u.key = key ∧ u.value = some v ∧ timestamp ≤ v.timestamp

/-- From `c` to `c'` the node loses neither entries nor updates on their way to it. -/
structure Forwards (c c' : Cluster K V T N) (n : N) : Prop where
  holds : ∀ key timestamp, AtLeast (c.replicas n) key timestamp →
    AtLeast (c'.replicas n) key timestamp
  travels : ∀ u v, Travels c n u → u.value = some v → Reaches c' n u.key v.timestamp

theorem Reaches.mono {c : Cluster K V T N} {n : N} {key : K} {t t' : T} (h : Reaches c n key t)
    (hle : t' ≤ t) : Reaches c n key t' := by
  rcases h with ⟨b, hb, hlt⟩ | ⟨u, v, hu, hkey, hv, hlt⟩
  · exact Or.inl ⟨b, hb, hle.trans hlt⟩
  · exact Or.inr ⟨u, v, hu, hkey, hv, hle.trans hlt⟩

theorem Reaches.forward {c c' : Cluster K V T N} {n : N} {key : K} {t : T}
    (h : Reaches c n key t) (hf : Forwards c c' n) : Reaches c' n key t := by
  rcases h with h | ⟨u, v, hu, rfl, hv, hlt⟩
  · exact Or.inl (hf.holds key t h)
  · exact (hf.travels u v hu hv).mono hlt

variable [DecidableEq V] [DecidableEq N]

section

omit [DecidableEq V]

theorem content_flush (c : Cluster K V T N) (m peer n : N) (count : ℕ) (key : K) :
    ((c.flush m peer count).replicas n).content key = (c.replicas n).content key := by
  simp only [Cluster.flush, Cluster.set, Cluster.send, Function.update_apply]
  split_ifs with hn
  · rw [hn]
    rfl
  · rfl

theorem flush_forwards (c : Cluster K V T N) (m peer n : N) (count : ℕ) :
    Forwards c (c.flush m peer count) n := by
  refine ⟨fun key t h => ?_, fun u v hu hv => ?_⟩
  · rw [AtLeast]
    rw [content_flush]
    exact h
  · rcases hu with ⟨k, hu⟩ | ⟨e, he, hdst, updates, hm, hu⟩
    · by_cases hk : k = m ∧ n = peer
      · obtain ⟨rfl, rfl⟩ := hk
        rw [← List.take_append_drop count ((c.replicas k).senderPending n)] at hu
        rcases List.mem_append.mp hu with hu | hu
        · obtain ⟨u', v', hkept, hv', hle⟩ :=
            (newestOf_processItems _ u.key).newest u hu rfl v hv
          have hkey := ((newestOf_processItems _ u.key).mem u' hkept).2
          refine Or.inr ⟨u', v', Or.inr ⟨_, List.mem_append_right _ (List.mem_singleton.mpr rfl),
            rfl, _, rfl, ?_⟩, hkey, hv', hle⟩
          exact List.mem_map.mpr ⟨⟨u.key, u'⟩, (mem_entries_iff _ _ _).mpr hkept, rfl⟩
        · refine Or.inr ⟨u, v, Or.inl ⟨k, ?_⟩, rfl, hv, le_rfl⟩
          simp only [Cluster.flush, Cluster.set, Cluster.send, Function.update_self]
          exact hu
      · refine Or.inr ⟨u, v, Or.inl ⟨k, ?_⟩, rfl, hv, le_rfl⟩
        simp only [Cluster.flush, Cluster.set, Cluster.send, Function.update_apply]
        split_ifs with hkm
        · subst hkm
          have hn : n ≠ peer := fun hn => hk ⟨rfl, hn⟩
          simpa only [Function.update_of_ne hn] using hu
        · exact hu
    · exact Or.inr ⟨u, v, Or.inr ⟨e, List.mem_append_left _ he, hdst, updates, hm, hu⟩, rfl, hv,
        le_rfl⟩

end

theorem arrive_holds (r : Replica K V T N) {e : Envelope K V T N}
    (hvalues : ∀ updates, e.message = .updates updates → ∀ u ∈ updates, HasValue u) (now : ℕ)
    (underHighLoad : Bool) {key : K} {timestamp : T} (h : AtLeast r key timestamp) :
    AtLeast (arrive r e now underHighLoad) key timestamp := by
  obtain ⟨b, hb, hle⟩ := h
  obtain ⟨b', hb', hle'⟩ :=
    (arrive_keepsNewest r hvalues now underHighLoad).notBackwards key b hb
  exact ⟨b', hb', hle.trans hle'⟩

omit [DecidableEq N] in
theorem processUpdates_holds (r : Replica K V T N) (now : ℕ)
    {updates : List (UpdateEntry K V T)} (hvalues : ∀ u ∈ updates, HasValue u)
    {u : UpdateEntry K V T} (hu : u ∈ updates) {v : MapValue V T} (hv : u.value = some v) :
    AtLeast (r.processUpdates now updates) u.key v.timestamp := by
  have hcarried : v.content ∈ carried updates u.key := by
    rw [mem_carried]
    exact ⟨u, hu, rfl, by rw [hv]; rfl⟩
  have hheld : IsNewest Prod.snd {a | r.content u.key = some a} (r.content u.key) :=
    isNewest_held _
  have hnewest := isNewest_takeAll hheld (carried updates u.key)
  obtain ⟨b, hb, hle⟩ := hnewest.newest v.content (Or.inr hcarried)
  exact ⟨b, (content_processUpdates r now u.key hvalues).trans hb, hle⟩

theorem arrive_pending (r : Replica K V T N) (e : Envelope K V T N) (now : ℕ)
    (underHighLoad : Bool) {n : N} {u : UpdateEntry K V T} (h : u ∈ r.senderPending n) :
    u ∈ (arrive r e now underHighLoad).senderPending n := by
  obtain ⟨src, dst, message⟩ := e
  cases message with
  | updates updates =>
    rw [arrive]
    dsimp only
    rw [processUpdates_senderPending]
    exact h
  | advertisement adCreationTime ad => exact senderPending_handled r ad now h underHighLoad
  | answered adCreationTime response =>
    rw [arrive]
    dsimp only
    rw [(advertisementAnswered_frame _ _ _ _).2.1]
    exact h
  | request request => exact (mem_handleUpdateRequests r request u n).mpr (Or.inl h)
  | bootstrap peer => exact h

theorem deliver_forwards {c : Cluster K V T N} {k : ℕ} {e : Envelope K V T N}
    {rest : List (Envelope K V T N)} (ht : takeAt k c.network = some (e, rest))
    (hvalues : ∀ updates, e.message = .updates updates → ∀ u ∈ updates, HasValue u) (now : ℕ)
    (underHighLoad : Bool) (n : N) :
    Forwards c (({ c with network := rest } : Cluster K V T N).receive e now underHighLoad) n := by
  constructor
  · intro key timestamp h
    rw [replicas_receive]
    split_ifs with hn
    · rw [hn] at h
      exact arrive_holds _ hvalues now underHighLoad h
    · exact h
  · rintro u v (⟨m, hu⟩ | ⟨e', he', hdst, updates, hm, hu⟩) hv
    · refine Or.inr ⟨u, v, Or.inl ⟨m, ?_⟩, rfl, hv, le_rfl⟩
      rw [replicas_receive]
      split_ifs with hmd
      · rw [hmd] at hu
        exact arrive_pending _ _ _ _ hu
      · exact hu
    · rcases (mem_takeAt ht e').mp he' with rfl | he'
      · left
        rw [replicas_receive, if_pos hdst.symm]
        rw [arrive]
        rw [hm]
        exact processUpdates_holds _ now (hvalues updates hm) hu hv
      · refine Or.inr ⟨u, v, Or.inr ⟨e', ?_, hdst, updates, hm, hu⟩, rfl, hv, le_rfl⟩
        rw [network_receive]
        exact List.mem_append_left _ he'

section Exchanges
variable (P Q : Replica K V T N) (p q : N)

def Expected (e : Envelope K V T N) : Prop :=
  match e.message with
  | .updates _ | .answered _ _ => True
  | .advertisement _ ad => e.dst = q ∧ ad = P.createAdvertisement
  | .request request =>
    e.dst = p ∧ request.sender = q ∧ ∀ key ∈ request.keys, P.content key ≠ none
  | .bootstrap _ => False

def Advertised (c : Cluster K V T N) : Prop :=
  ∃ e ∈ c.network, e.dst = q ∧ ∃ t, e.message = .advertisement t P.createAdvertisement

def Requested (c : Cluster K V T N) (key : K) : Prop :=
  ∃ e ∈ c.network, e.dst = p ∧ ∃ request, e.message = .request request ∧
    request.sender = q ∧ key ∈ request.keys

/-- What holds while `p` and `q`, which started from `P` and `Q`, exchange their entries: nothing
but those entries is around, and each is held by the other node, or on its way to it, or will be
once the advertisement or a request is handled. -/
structure Exchange (c : Cluster K V T N) : Prop where
  configured : Configured c
  carries : CarriesOnly (fun peer u => peer = p ∨ peer = q → Known P Q u) c
  expected : ∀ e ∈ c.network, e.dst = p ∨ e.dst = q → Expected P p q e
  held : ∀ n, n = p ∨ n = q → ∀ key a, (c.replicas n).content key = some a → a ∈ between P Q key
  keptP : ∀ key a, P.content key = some a → AtLeast (c.replicas p) key a.2
  keptQ : ∀ key a, Q.content key = some a → AtLeast (c.replicas q) key a.2
  reachesP : ∀ key a, Q.content key = some a → Advertised P q c ∨ Reaches c p key a.2
  reachesQ : ∀ key a, P.content key = some a →
    Advertised P q c ∨ Requested p q c key ∨ Reaches c q key a.2

end Exchanges

variable {P Q : Replica K V T N} {p q : N} {c : Cluster K V T N}

omit [LinearOrder T] [DecidableEq V] [DecidableEq N] in
theorem hasValue_of_known {u : UpdateEntry K V T} (h : Known P Q u) : HasValue u := by
  obtain ⟨a, _, ha⟩ := h
  intro hnone
  rw [hnone] at ha
  cases ha

omit [DecidableEq V] [DecidableEq N] in
/-- A step of an exchange: what it may lose is the advertisement or a request, and then it has to
do what they are for. -/
theorem exchange_step {c' : Cluster K V T N} (h : Exchange P Q p q c) (hconf : Configured c')
    (hcarries : CarriesOnly (fun peer u => peer = p ∨ peer = q → Known P Q u) c')
    (hexpected : ∀ e ∈ c'.network, e.dst = p ∨ e.dst = q → Expected P p q e)
    (hheld : ∀ n, n = p ∨ n = q → ∀ key a, (c'.replicas n).content key = some a →
      a ∈ between P Q key)
    (hforward : ∀ n, Forwards c c' n)
    (hP : Advertised P q c → Advertised P q c' ∨
      ∀ key a, Q.content key = some a → Reaches c' p key a.2)
    (hQ : Advertised P q c → Advertised P q c' ∨
      ∀ key a, P.content key = some a → Requested p q c' key ∨ Reaches c' q key a.2)
    (hrequest : ∀ key a, P.content key = some a → Requested p q c key →
      Requested p q c' key ∨ Reaches c' q key a.2) : Exchange P Q p q c' where
  configured := hconf
  carries := hcarries
  expected := hexpected
  held := hheld
  keptP := fun key a ha => (hforward p).holds key a.2 (h.keptP key a ha)
  keptQ := fun key a ha => (hforward q).holds key a.2 (h.keptQ key a ha)
  reachesP := by
    intro key a ha
    rcases h.reachesP key a ha with hadv | hreach
    · exact (hP hadv).imp_right fun hall => hall key a ha
    · exact Or.inr (hreach.forward (hforward p))
  reachesQ := by
    intro key a ha
    rcases h.reachesQ key a ha with hadv | hreq | hreach
    · exact (hQ hadv).imp_right fun hall => hall key a ha
    · exact Or.inr (hrequest key a ha hreq)
    · exact Or.inr (Or.inr (hreach.forward (hforward q)))

omit [DecidableEq V] in
theorem exchange_flush (h : Exchange P Q p q c) (m peer : N) (count : ℕ) :
    Exchange P Q p q (c.flush m peer count) := by
  have hflush := flush_keeps h.carries h.configured m peer count
  have hnetwork : ∀ e ∈ c.network, e ∈ (c.flush m peer count).network :=
    fun e he => List.mem_append_left _ he
  refine exchange_step h hflush.2 hflush.1 ?_ ?_ (flush_forwards c m peer · count) ?_ ?_ ?_
  · intro e he hdst
    rcases List.mem_append.mp he with he | he
    · exact h.expected e he hdst
    · rw [List.mem_singleton.mp he]
      trivial
  · intro n hn key a ha
    rw [content_flush] at ha
    exact h.held n hn key a ha
  · exact fun ⟨e, he, hadv⟩ => Or.inl ⟨e, hnetwork e he, hadv⟩
  · exact fun ⟨e, he, hadv⟩ => Or.inl ⟨e, hnetwork e he, hadv⟩
  · exact fun _ _ _ ⟨e, he, hreq⟩ => Or.inl ⟨e, hnetwork e he, hreq⟩

omit [LinearOrder T] [DecidableEq V] [DecidableEq N] in
theorem lookup_createAdvertisement (P : Replica K V T N) (key : K) :
    P.createAdvertisement.digest.lookup key = (P.items.lookup key).map MapValue.digest :=
  lookup_mapValues _ _ _

theorem arrive_held (h : Exchange P Q p q c) {e : Envelope K V T N} (he : e ∈ c.network)
    (hdst : e.dst = p ∨ e.dst = q) (now : ℕ) {key : K} {a : Option V × T}
    (ha : (arrive (c.replicas e.dst) e now false).content key = some a) :
    a ∈ between P Q key := by
  have hold := h.held e.dst hdst key
  have hexp := h.expected e he hdst
  have hknown := h.carries.inFlight e he
  obtain ⟨src, dst, message⟩ := e
  cases message with
  | updates updates =>
    have hall : ∀ u ∈ updates, Known P Q u := fun u hu => hknown updates rfl u hu hdst
    have ha' : takeAll Prod.snd ((c.replicas dst).content key) (carried updates key) = some a := by
      rw [← content_processUpdates _ now key fun u hu => hasValue_of_known (hall u hu)]
      exact ha
    rcases (isNewest_takeAll (isNewest_held _) _).mem a ha' with hheld | hcarried
    · exact hold a hheld
    · obtain ⟨u, hu, rfl, hua⟩ := (mem_carried _ _ _).mp hcarried
      obtain ⟨b, hb, hub⟩ := hall u hu
      rw [hub] at hua
      exact Option.some.inj hua ▸ hb
  | advertisement adCreationTime ad =>
    obtain ⟨_, rfl⟩ := hexp
    have ha' := (content_handled (c.replicas dst) P.createAdvertisement now key).symm.trans ha
    rw [lookup_createAdvertisement] at ha'
    cases hc : (c.replicas dst).content key with
    | none =>
      rw [hc] at ha'
      cases ha'
    | some b =>
      rw [hc] at ha' hold
      cases hl : P.items.lookup key with
      | none =>
        rw [hl] at ha'
        exact hold a ha'
      | some v =>
        obtain ⟨value, timestamp, creationTime⟩ := v
        rw [hl] at ha'
        cases value with
        | some value => exact hold a ha'
        | none =>
          rcases take_eq_some ha' with hheld | rfl
          · exact hold a hheld
          · exact Or.inl (content_of_lookup hl)
  | answered adCreationTime response =>
    have hitems := (advertisementAnswered_frame (c.replicas dst) src adCreationTime response).1
    refine hold a ?_
    rw [← ha]
    exact congrArg (fun items => (items.lookup key).map MapValue.content) hitems.symm
  | request request =>
    have hitems := (handleUpdateRequests_frame (c.replicas dst) request).1
    refine hold a ?_
    rw [← ha]
    exact congrArg (fun items => (items.lookup key).map MapValue.content) hitems.symm
  | bootstrap peer => exact hexp.elim

omit [DecidableEq K] [LinearOrder T] [DecidableEq V] [DecidableEq N] in
theorem advertiser {P : Replica K V T N} (hp : P.config = (p, false)) : P.createAdvertisement.sender = p :=
  congrArg Prod.fst hp

theorem handled_reaches (hp : P.config = (p, false)) (h : Exchange P Q p q c)
    {c' : Cluster K V T N} (hf : Forwards c c' p) (now : ℕ)
    (hq : c'.replicas q =
      ((c.replicas q).handleAntiEntropyAdvertisement P.createAdvertisement now false).1)
    {key : K} {a : Option V × T} (ha : Q.content key = some a) : Reaches c' p key a.2 := by
  obtain ⟨b, hb, hle⟩ := h.keptQ key a ha
  obtain ⟨localValue, hl, rfl⟩ := Option.map_eq_some_iff.mp hb
  by_cases hd : ∀ d, P.createAdvertisement.digest.lookup key = some d →
      d.timestamp < localValue.timestamp
  · have hpush := handled_pushes (c.replicas q) P.createAdvertisement now hl hd
    rw [advertiser hp, ← hq] at hpush
    exact Or.inr ⟨_, localValue, Or.inl ⟨q, hpush⟩, rfl, rfl, hle⟩
  · push Not at hd
    obtain ⟨d, hd, hge⟩ := hd
    rw [lookup_createAdvertisement] at hd
    obtain ⟨v, hv, rfl⟩ := Option.map_eq_some_iff.mp hd
    have hkept := h.keptP key v.content (content_of_lookup hv)
    exact Reaches.mono (Or.inl (hf.holds key _ hkept)) (hle.trans hge)

theorem handled_requests (h : Exchange P Q p q c) {c' : Cluster K V T N} (now : ℕ)
    (hq : c'.replicas q =
      ((c.replicas q).handleAntiEntropyAdvertisement P.createAdvertisement now false).1)
    (hsent : ⟨q, p, .request ((c.replicas q).antiEntropyCheckLocalItems
      P.createAdvertisement now).2.2⟩ ∈ c'.network)
    {key : K} {a : Option V × T} (ha : P.content key = some a) :
    Requested p q c' key ∨ Reaches c' q key a.2 := by
  obtain ⟨v, hv, rfl⟩ := Option.map_eq_some_iff.mp ha
  have hd : P.createAdvertisement.digest.lookup key = some v.digest := by
    rw [lookup_createAdvertisement, hv]
    rfl
  rcases handled_learns (c.replicas q) P.createAdvertisement now hd with hlearned | hkey
  · rw [← hq] at hlearned
    exact Or.inr (Or.inl hlearned)
  · exact Or.inl ⟨_, hsent, rfl, _, rfl, congrArg Prod.fst (h.configured q), hkey⟩

theorem replies_expected (hp : P.config = (p, false)) (h : Exchange P Q p q c)
    {e : Envelope K V T N} (hexp : Expected P p q e) (now : ℕ) :
    ∀ e' ∈ replies (c.replicas e.dst) e now false, Expected P p q e' := by
  obtain ⟨src, dst, message⟩ := e
  cases message with
  | advertisement adCreationTime ad =>
    obtain ⟨rfl, rfl⟩ := hexp
    intro e' he'
    rcases List.mem_cons.mp he' with rfl | he'
    · refine ⟨advertiser hp, congrArg Prod.fst (h.configured dst), fun key hkey => ?_⟩
      obtain ⟨d, hd, _⟩ := (mem_request_iff _ _ now key).mp hkey
      rw [lookup_createAdvertisement] at hd
      obtain ⟨v, hv, _⟩ := Option.map_eq_some_iff.mp hd
      rw [content_of_lookup hv]
      exact Option.some_ne_none _
    · rw [List.mem_singleton.mp he']
      trivial
  | bootstrap peer => exact hexp.elim
  | updates updates => exact fun e' he' => absurd he' List.not_mem_nil
  | answered adCreationTime response => exact fun e' he' => absurd he' List.not_mem_nil
  | request request => exact fun e' he' => absurd he' List.not_mem_nil

theorem exchange_deliver (hp : P.config = (p, false)) (h : Exchange P Q p q c) {k : ℕ}
    {e : Envelope K V T N} {rest : List (Envelope K V T N)}
    (ht : takeAt k c.network = some (e, rest)) (hdst : e.dst = p ∨ e.dst = q) (now : ℕ) :
    Exchange P Q p q (({ c with network := rest } : Cluster K V T N).receive e now false) := by
  have he : e ∈ c.network := (mem_takeAt ht e).mpr (Or.inl rfl)
  have hexp := h.expected e he hdst
  have hknown : ∀ updates, e.message = .updates updates → ∀ u ∈ updates, Known P Q u :=
    fun updates hm u hu => h.carries.inFlight e he updates hm u hu hdst
  have hitems : ∀ key v, (c.replicas e.dst).items.lookup key = some v →
      Known P Q (⟨key, some v⟩ : UpdateEntry K V T) :=
    fun key v hv => ⟨v.content, h.held e.dst hdst key _ (content_of_lookup hv), rfl⟩
  have hlookup : ∀ request, e.message = .request request → ∀ key ∈ request.keys,
      ∃ v, (c.replicas e.dst).items.lookup key = some v := by
    intro request hm key hkey
    rw [Expected] at hexp
    rw [hm] at hexp
    obtain ⟨a, ha⟩ := Option.ne_none_iff_exists'.mp (hexp.2.2 key hkey)
    obtain ⟨b, hb, _⟩ := h.keptP key a ha
    rw [hexp.1]
    obtain ⟨v, hv, _⟩ := Option.map_eq_some_iff.mp hb
    exact ⟨v, hv⟩
  have hreceive := receive_keeps (carriesOnly_rest h.carries ht)
    (show Configured { c with network := rest } from h.configured)
    (fun _ key v hv _ => hitems key v hv)
    (fun request hm key hkey _ => by
      obtain ⟨v, hv⟩ := hlookup request hm key hkey
      have hitem := hitems key v hv
      rw [← hv] at hitem
      exact hitem) now false
  have hrest : ∀ e' ∈ rest, e' ∈ (({ c with network := rest } : Cluster K V T N).receive e now
      false).network := by
    intro e' he'
    rw [network_receive]
    exact List.mem_append_left _ he'
  have hforward : ∀ n, Forwards c (({ c with network := rest } : Cluster K V T N).receive e now
      false) n := fun n => deliver_forwards ht
    (fun updates hm u hu => hasValue_of_known (hknown updates hm u hu)) now false n
  have hreplicas := replicas_receive ({ c with network := rest } : Cluster K V T N) e now false
  refine exchange_step h hreceive.2 hreceive.1 ?_ ?_ hforward ?_ ?_ ?_
  · intro e' he' hdst'
    rw [network_receive] at he'
    rcases List.mem_append.mp he' with he' | he'
    · exact h.expected e' ((mem_takeAt ht e').mpr (Or.inr he')) hdst'
    · exact replies_expected hp h hexp now e' he'
  · intro n hn key a ha
    rw [hreplicas] at ha
    split_ifs at ha
    · exact arrive_held h he hdst now ha
    · exact h.held n hn key a ha
  · rintro ⟨e', he', hq, t, hm⟩
    rcases (mem_takeAt ht e').mp he' with rfl | he'
    · right
      intro key a ha
      refine handled_reaches hp h (hforward p) now ?_ ha
      rw [hreplicas, if_pos hq.symm]
      rw [arrive]
      rw [hm, hq]
    · exact Or.inl ⟨e', hrest e' he', hq, t, hm⟩
  · rintro ⟨e', he', hq, t, hm⟩
    rcases (mem_takeAt ht e').mp he' with rfl | he'
    · right
      intro key a ha
      refine handled_requests h now ?_ ?_ ha
      · rw [hreplicas, if_pos hq.symm]
        rw [arrive]
        rw [hm, hq]
      · rw [network_receive]
        refine List.mem_append_right _ ?_
        rw [replies]
        rw [hm, hq]
        exact List.mem_cons.mpr (Or.inl (by rw [advertiser hp]; rfl))
    · exact Or.inl ⟨e', hrest e' he', hq, t, hm⟩
  · rintro key a ha ⟨e', he', hp', request, hm, hsender, hkey⟩
    rcases (mem_takeAt ht e').mp he' with rfl | he'
    · right
      obtain ⟨b, hb, hle⟩ := h.keptP key a ha
      obtain ⟨v, hv, rfl⟩ := Option.map_eq_some_iff.mp hb
      refine Or.inr ⟨⟨key, some v⟩, v, Or.inl ⟨p, ?_⟩, rfl, rfl, hle⟩
      rw [hreplicas, if_pos hp'.symm]
      rw [arrive]
      rw [hm, hp']
      exact (mem_handleUpdateRequests _ _ _ _).mpr (Or.inr ⟨hsender.symm, key, hkey, by rw [hv]⟩)
    · exact Or.inl ⟨e', hrest e' he', hp', request, hm, hsender, hkey⟩

structure Settled (p q : N) (c : Cluster K V T N) : Prop where
  pending : ∀ n, (c.replicas n).senderPending p = [] ∧ (c.replicas n).senderPending q = []
  network : ∀ e ∈ c.network, e.dst ≠ p ∧ e.dst ≠ q

/-- The steps of an exchange: accumulators send, and messages arrive at the two nodes, which
handle them. -/
def Exchanging (p q : N) (c : Cluster K V T N) : GossipInput K V T N → Prop
  | .flush _ _ _ => True
  | .deliver k _ underHighLoad => underHighLoad = false ∧
    ∀ e rest, takeAt k c.network = some (e, rest) → e.dst = p ∨ e.dst = q
  | _ => False

theorem exchange_starts (hconf : Configured c) (hsettled : Settled p q c) (now : ℕ) :
    Exchange (c.replicas p) (c.replicas q) p q (c.handle (.advertise p q now)) := by
  have hadv : Advertised (c.replicas p) q (c.handle (.advertise p q now)) :=
    ⟨_, List.mem_append_right _ (List.mem_singleton.mpr rfl), rfl, now, rfl⟩
  have hcarries : CarriesOnly
      (fun peer u => peer = p ∨ peer = q → Known (c.replicas p) (c.replicas q) u) c := by
    constructor
    · rintro n peer u hu (rfl | rfl)
      · rw [(hsettled.pending n).1] at hu
        exact absurd hu List.not_mem_nil
      · rw [(hsettled.pending n).2] at hu
        exact absurd hu List.not_mem_nil
    · intro e he _ _ _ _ hdst
      exact (hdst.elim (hsettled.network e he).1 (hsettled.network e he).2).elim
  constructor
  · exact hconf
  · exact carriesOnly_send hcarries (by simp)
  · intro e he hdst
    rcases List.mem_append.mp he with he | he
    · exact (hdst.elim (hsettled.network e he).1 (hsettled.network e he).2).elim
    · rw [List.mem_singleton.mp he]
      exact ⟨rfl, rfl⟩
  · rintro n (rfl | rfl) key a ha
    · exact Or.inl ha
    · exact Or.inr ha
  · exact fun key a ha => ⟨a, ha, le_rfl⟩
  · exact fun key a ha => ⟨a, ha, le_rfl⟩
  · exact fun _ _ _ => Or.inl hadv
  · exact fun _ _ _ => Or.inl hadv

theorem exchange_run (hp : P.config = (p, false)) {xs : List (GossipInput K V T N)}
    (hv : (gossipMachine.guarded (Exchanging p q)).Valid c xs) (h : Exchange P Q p q c) :
    Exchange P Q p q (gossipMachine.run c xs) := by
  have hstep : ∀ (c : Cluster K V T N) x, Exchange P Q p q c →
      (gossipMachine.guarded (Exchanging p q)).enabled c x →
      Exchange P Q p q ((gossipMachine.guarded (Exchanging p q)).next c x) := by
    rintro c x hc ⟨_, hx⟩
    cases x with
    | flush m peer count => exact exchange_flush hc m peer count
    | deliver k now underHighLoad =>
      obtain ⟨rfl, hdst⟩ := hx
      simp only [guarded_next, gossipMachine, Cluster.handle]
      cases ht : takeAt k c.network with
      | none => exact hc
      | some taken => exact exchange_deliver hp hc ht (hdst _ _ ht) now
    | _ => exact hx.elim
  exact invariant_run (Exchange P Q p q) hstep hv h

section

omit [DecidableEq V] [DecidableEq N]

theorem atLeast_of_settled (hsettled : Settled p q c) {n : N} (hn : n = p ∨ n = q) {key : K}
    {t : T} (h : Reaches c n key t) : AtLeast (c.replicas n) key t := by
  rcases h with h | ⟨u, v, ⟨m, hu⟩ | ⟨e, he, rfl, _⟩, _⟩
  · exact h
  · have hempty : (c.replicas m).senderPending n = [] := by
      rcases hn with rfl | rfl
      · exact (hsettled.pending m).1
      · exact (hsettled.pending m).2
    rw [hempty] at hu
    exact absurd hu List.not_mem_nil
  · exact (hn.elim (hsettled.network e he).1 (hsettled.network e he).2).elim

theorem isNewest_of_settled (h : Exchange P Q p q c) (hsettled : Settled p q c) (key : K) :
    IsNewest Prod.snd (between P Q key) ((c.replicas p).content key) ∧
      IsNewest Prod.snd (between P Q key) ((c.replicas q).content key) := by
  have hadvertised : ¬ Advertised P q c :=
    fun ⟨e, he, hdst, _⟩ => (hsettled.network e he).2 hdst
  have hrequested : ¬ Requested p q c key :=
    fun ⟨e, he, hdst, _⟩ => (hsettled.network e he).1 hdst
  refine ⟨⟨h.held p (Or.inl rfl) key, ?_⟩, h.held q (Or.inr rfl) key, ?_⟩
  · rintro a (ha | ha)
    · exact h.keptP key a ha
    · exact atLeast_of_settled hsettled (Or.inl rfl)
        ((h.reachesP key a ha).resolve_left hadvertised)
  · rintro a (ha | ha)
    · exact atLeast_of_settled hsettled (Or.inr rfl)
        (((h.reachesQ key a ha).resolve_left hadvertised).resolve_left hrequested)
    · exact h.keptQ key a ha

end

/-- After an exchange that started and ended with nothing on its way, both nodes hold the newer
of their entries of every key. -/
theorem exchange_reconciles (hconf : Configured c) (hsettled : Settled p q c)
    (hdistinct : ∀ key, Distinct Prod.snd (between (c.replicas p) (c.replicas q) key)) {now : ℕ}
    {xs : List (GossipInput K V T N)}
    (hv : (gossipMachine.guarded (Exchanging p q)).Valid (c.handle (.advertise p q now)) xs)
    (hdone : Settled p q (gossipMachine.run (c.handle (.advertise p q now)) xs)) (key : K) :
    ((gossipMachine.run (c.handle (.advertise p q now)) xs).replicas p).content key =
        ((gossipMachine.run (c.handle (.advertise p q now)) xs).replicas q).content key ∧
      IsNewest Prod.snd (between (c.replicas p) (c.replicas q) key)
        (((gossipMachine.run (c.handle (.advertise p q now)) xs).replicas p).content key) := by
  have hrun := exchange_run (hconf p) hv (exchange_starts hconf hsettled now)
  obtain ⟨hp, hq⟩ := isNewest_of_settled hrun hdone key
  exact ⟨isNewest_unique (hdistinct key) hp hq, hp⟩

def eachAhead (n : Fin 2) : Replica (Fin 4) ℕ ℕ (Fin 2) :=
  let items : Table (Fin 4) (MapValue ℕ ℕ) :=
    if n = 0 then ((AList.insert 0 ⟨some 10, 5, 1⟩ ∅).insert 1 ⟨none, 6, 2⟩).insert 2 ⟨some 30, 1, 3⟩
    else ((AList.insert 0 ⟨some 11, 3, 1⟩ ∅).insert 1 ⟨some 20, 4, 2⟩).insert 3 ⟨some 40, 2, 3⟩
  { emptyReplica n with items := items }

def fullExchange : List (GossipInput (Fin 4) ℕ ℕ (Fin 2)) :=
  [.deliver 0 11 false, .deliver 1 12 false, .deliver 0 13 false, .flush 1 0 5, .flush 0 1 1,
    .flush 0 1 5, .deliver 1 14 false, .deliver 0 15 false, .deliver 0 16 false]

/-- The tombstone of node 0 wins at key 1, and each node learns a key from the other. -/
theorem exchange_reconciles_once :
    ((gossipMachine.run ((⟨eachAhead, []⟩ : Cluster _ _ _ _).handle (.advertise 0 1 10))
        fullExchange).replicas 0).content 1 =
      ((gossipMachine.run ((⟨eachAhead, []⟩ : Cluster _ _ _ _).handle
        (.advertise 0 1 10)) fullExchange).replicas 1).content 1 := by
  have hconf : Configured (⟨eachAhead, []⟩ : Cluster _ _ _ _) := fun _ => rfl
  have hsettled : Settled 0 1 (⟨eachAhead, []⟩ : Cluster _ _ _ _) :=
    ⟨fun _ => ⟨rfl, rfl⟩, fun _ he => absurd he List.not_mem_nil⟩
  have hfinite : ∀ key, ∀ a ∈ ((eachAhead 0).content key).toList ++
      ((eachAhead 1).content key).toList,
      ∀ b ∈ ((eachAhead 0).content key).toList ++
        ((eachAhead 1).content key).toList, a.2 = b.2 → a = b := by decide
  have hmem : ∀ key, ∀ a ∈ between (eachAhead 0) (eachAhead 1) key,
      a ∈ ((eachAhead 0).content key).toList ++
        ((eachAhead 1).content key).toList := by
    rintro key a (ha | ha)
    · exact List.mem_append_left _ (Option.mem_toList.mpr ha)
    · exact List.mem_append_right _ (Option.mem_toList.mpr ha)
  have hnode : ∀ n : Fin 2, n = 0 ∨ n = 1 := by decide
  have hv : (gossipMachine.guarded (Exchanging 0 1)).Valid
      ((⟨eachAhead, []⟩ : Cluster _ _ _ _).handle (.advertise 0 1 10))
      fullExchange := by
    refine ⟨⟨?_, rfl, fun e _ _ => hnode e.dst⟩, ⟨?_, rfl, fun e _ _ => hnode e.dst⟩,
      ⟨?_, rfl, fun e _ _ => hnode e.dst⟩, ⟨?_, trivial⟩, ⟨?_, trivial⟩, ⟨?_, trivial⟩,
      ⟨?_, rfl, fun e _ _ => hnode e.dst⟩, ⟨?_, rfl, fun e _ _ => hnode e.dst⟩,
      ⟨?_, rfl, fun e _ _ => hnode e.dst⟩, trivial⟩ <;> decide
  exact (exchange_reconciles hconf hsettled
    (fun key a ha b hb => hfinite key a (hmem key a ha) b (hmem key b hb)) hv
    ⟨by decide, by decide⟩ 1).1

end ECMapExchange

import Onos.ECMapExchange
import Onos.ECMapListener
import Mathlib.Data.Fintype.Basic

/-! Purging tombstones. A purge drops what orders an old put before the removal; what becomes of the
key then depends on the old values that are still held or on their way. -/
namespace ECMapPurge

open KeyedMap LastWriter InputMachine InFlight ECMapReplica ECMapReplica.Replica ECMapWrites
open ECMapConvergence ECMapAntiEntropy ECMapGossip
open ECMapExchange (content_flush)

variable {K V T N : Type*} [DecidableEq K] [LinearOrder T]

section Entries

omit [LinearOrder T] in
/-- All entries that are held or on their way, and all removals that are advertised, satisfy `Q`. -/
structure Everywhere (Q : K → Option V × T → Prop) (c : Cluster K V T N) : Prop where
  held : ∀ n key a, (c.replicas n).content key = some a → Q key a
  carried : CarriesOnly (fun _ u => ∀ v, u.value = some v → Q u.key v.content) c
  advertised : ∀ e ∈ c.network, ∀ adCreationTime ad, e.message = .advertisement adCreationTime ad →
    ∀ key timestamp, ad.digest.lookup key = some ⟨timestamp, true⟩ → Q key (none, timestamp)

variable [DecidableEq V] [DecidableEq N] {r r' : Replica K V T N} {key : K} {a : Option V × T}

omit [LinearOrder T] [DecidableEq V] [DecidableEq N] in
theorem content_eq_some : r.content key = some a ↔
    ∃ v, r.items.lookup key = some v ∧ v.content = a := Option.map_eq_some_iff

omit [LinearOrder T] [DecidableEq V] in
theorem content_wrote {j : K} {item : Option (MapValue V T)} (h : Wrote r r' key item) :
    r'.content j = if j = key then item.map MapValue.content else r.content j := by
  rw [content]
  rw [h.items, lookup_put]
  split_ifs <;> rfl

theorem content_processUpdates_mem {now : ℕ} {updates : List (UpdateEntry K V T)}
    (h : (r.processUpdates now updates).content key = some a) : r.content key = some a ∨
      ∃ u ∈ updates, u.key = key ∧ ∃ v, u.value = some v ∧ v.content = a := by
  induction updates generalizing r with
  | nil => exact .inl h
  | cons u updates ih =>
    rcases ih h with hfirst | ⟨u', hu', hrest⟩
    · replace hfirst : (r.processUpdate now u).content key = some a := hfirst
      rcases processUpdate_cases r now u with hsame | ⟨-, hwrote⟩
      · rw [hsame] at hfirst
        exact .inl hfirst
      · rw [content_wrote hwrote] at hfirst
        split_ifs at hfirst with hkey
        · obtain ⟨v', hv', rfl⟩ := Option.map_eq_some_iff.mp hfirst
          obtain ⟨v, hv, rfl⟩ := Option.map_eq_some_iff.mp hv'
          exact .inr ⟨u, List.mem_cons_self, hkey.symm, v, hv, rfl⟩
        · exact .inl hfirst
    · exact .inr ⟨u', List.mem_cons_of_mem u hu', hrest⟩

theorem content_processUpdates_newer {now : ℕ} {updates : List (UpdateEntry K V T)}
    (hvalues : ∀ u ∈ updates, u.key = key → HasValue u) (h : r.content key = some a) :
    ∃ b, (r.processUpdates now updates).content key = some b ∧ (b = a ∨ a.2 < b.2) := by
  induction updates generalizing r a with
  | nil => exact ⟨a, h, .inl rfl⟩
  | cons u updates ih =>
    rw [List.forall_mem_cons] at hvalues
    have hstep : ∃ b, (r.processUpdate now u).content key = some b ∧ (b = a ∨ a.2 < b.2) := by
      rcases processUpdate_cases r now u with hsame | ⟨hnewer, hwrote⟩
      · rw [hsame]
        exact ⟨a, h, .inl rfl⟩
      · rw [content_wrote hwrote]
        split_ifs with hkey
        · obtain ⟨v, hv⟩ := Option.ne_none_iff_exists'.mp (hvalues.1 hkey.symm)
          obtain ⟨e, he, rfl⟩ := content_eq_some.mp h
          rw [hkey] at he
          refine ⟨v.content, ?_, .inr (hnewer v hv e he)⟩
          rw [hv]
          rfl
        · exact ⟨a, h, .inl rfl⟩
    obtain ⟨b, hb, hba⟩ := hstep
    obtain ⟨d, hd, hdb⟩ := ih hvalues.2 hb
    refine ⟨d, hd, ?_⟩
    rcases hdb with rfl | hlt
    · exact hba
    · rcases hba with rfl | hlt'
      · exact .inr hlt
      · exact .inr (hlt'.trans hlt)

theorem content_arrive_mem {e : Envelope K V T N} {now : ℕ} {underHighLoad : Bool}
    (h : (arrive r e now underHighLoad).content key = some a) : r.content key = some a ∨
      (∃ updates, e.message = .updates updates ∧
        ∃ u ∈ updates, u.key = key ∧ ∃ v, u.value = some v ∧ v.content = a) ∨
      ∃ adCreationTime ad timestamp, e.message = .advertisement adCreationTime ad ∧
        ad.digest.lookup key = some ⟨timestamp, true⟩ ∧ a = (none, timestamp) := by
  obtain ⟨src, dst, message⟩ := e
  cases message with
  | updates updates =>
    exact (content_processUpdates_mem h).imp_right fun hmem => .inl ⟨updates, rfl, hmem⟩
  | advertisement adCreationTime ad =>
    cases underHighLoad with
    | true => exact .inl h
    | false =>
      have hhandled : (r.handleAntiEntropyAdvertisement ad now false).1.content key = some a := h
      rw [content_handled] at hhandled
      split at hhandled
      · rename_i c timestamp hc hd
        rcases take_eq_some hhandled with hheld | rfl
        · exact .inl (hc.trans hheld)
        · exact .inr (.inr ⟨adCreationTime, ad, timestamp, rfl, hd, rfl⟩)
      · exact .inl hhandled
  | answered adCreationTime response =>
    unfold arrive content at h
    rw [(advertisementAnswered_frame _ _ _ _).1] at h
    exact .inl h
  | request request =>
    unfold arrive content at h
    rw [(handleUpdateRequests_frame _ _).1] at h
    exact .inl h
  | bootstrap peer => exact .inl h

def Deletes (message : Message K V T N) (key : K) : Prop :=
  match message with
  | .updates updates => ∃ u ∈ updates, u.key = key ∧ u.value = none
  | _ => False

instance : (message : Message K V T N) → (key : K) → Decidable (Deletes message key)
  | .updates updates, key =>
    inferInstanceAs (Decidable (∃ u ∈ updates, u.key = key ∧ u.value = none))
  | .advertisement _ _, _ | .answered _ _, _ | .request _, _ | .bootstrap _, _ => isFalse not_false

theorem content_arrive_newer {e : Envelope K V T N} {now : ℕ} {underHighLoad : Bool}
    (hkept : ¬ Deletes e.message key) (h : r.content key = some a) :
    ∃ b, (arrive r e now underHighLoad).content key = some b ∧ (b = a ∨ a.2 < b.2) := by
  obtain ⟨src, dst, message⟩ := e
  cases message with
  | updates updates =>
    apply content_processUpdates_newer _ h
    exact fun u hu hkey hnone => hkept ⟨u, hu, hkey, hnone⟩
  | advertisement adCreationTime ad =>
    cases underHighLoad with
    | true => exact ⟨a, h, .inl rfl⟩
    | false =>
      change ∃ b, (r.handleAntiEntropyAdvertisement ad now false).1.content key = some b ∧ _
      rw [content_handled, h]
      split
      · rename_i c timestamp hc hd
        rcases lt_or_ge c.2 timestamp with hlt | hge
        · rw [take_of_lt hlt]
          obtain rfl := Option.some.inj hc
          exact ⟨_, rfl, .inr hlt⟩
        · rw [take_of_le hge]
          exact ⟨c, rfl, .inl (Option.some.inj hc).symm⟩
      · exact ⟨a, rfl, .inl rfl⟩
  | answered adCreationTime response =>
    refine ⟨a, ?_, .inl rfl⟩
    unfold arrive content
    rw [(advertisementAnswered_frame _ _ _ _).1]
    exact h
  | request request =>
    refine ⟨a, ?_, .inl rfl⟩
    unfold arrive content
    rw [(handleUpdateRequests_frame _ _).1]
    exact h
  | bootstrap peer => exact ⟨a, h, .inl rfl⟩

def Purges (r : Replica K V T N) (peers : List N) (key : K) : Prop :=
  r.currentSafeTombstonePurgeTime peers ≠ r.previousTombstonePurgeTime ∧
    key ∈ r.tombStonesToDelete (r.currentSafeTombstonePurgeTime peers)

instance (r : Replica K V T N) (peers : List N) (key : K) : Decidable (Purges r peers key) :=
  inferInstanceAs (Decidable (_ ∧ _))

omit [LinearOrder T] [DecidableEq V] in
theorem content_purgeTombstones (peers : List N) :
    (r.purgeTombstones peers).content key = if Purges r peers key then none else r.content key := by
  have hfold : ∀ (keys : List K) (items : Table K (MapValue V T)),
      (keys.foldl (fun items k => items.erase k) items).lookup key =
        if key ∈ keys then none else items.lookup key := by
    intro keys
    induction keys with
    | nil => exact fun _ => rfl
    | cons k keys ih =>
      intro items
      rw [List.foldl_cons, ih]
      by_cases hk : key = k
      · subst hk
        simp [AList.lookup_erase]
      · simp [AList.lookup_erase_ne hk, hk]
  unfold purgeTombstones Purges content
  dsimp only
  by_cases hsafe : r.currentSafeTombstonePurgeTime peers = r.previousTombstonePurgeTime
  · simp [hsafe]
  · rw [if_neg hsafe, hfold]
    by_cases hmem : key ∈ r.tombStonesToDelete (r.currentSafeTombstonePurgeTime peers)
    · simp [hsafe, hmem]
    · simp [hmem]

end Entries

section Steps

variable {Q : K → Option V × T → Prop} {c : Cluster K V T N}

section

omit [LinearOrder T]

theorem Everywhere.imp {Q' : K → Option V × T → Prop} (h : Everywhere Q c)
    (hQ : ∀ key a, Q key a → Q' key a) : Everywhere Q' c where
  held n key a ha := hQ key a (h.held n key a ha)
  carried := ⟨fun n peer u hu v hv => hQ _ _ (h.carried.pending n peer u hu v hv),
    fun e he updates hm u hu v hv => hQ _ _ (h.carried.inFlight e he updates hm u hu v hv)⟩
  advertised e he _ ad hm key _ hd := hQ _ _ (h.advertised e he _ ad hm key _ hd)

theorem Everywhere.values (h : Everywhere Q c) (n : N) (key : K) (v : MapValue V T)
    (hv : (c.replicas n).items.lookup key = some v) : Q key v.content :=
  h.held n key v.content (content_of_lookup hv)

end

variable [DecidableEq V] [DecidableEq N]

section

omit [DecidableEq V] [LinearOrder T]

theorem Everywhere.set (h : Everywhere Q c) {n : N} {r : Replica K V T N}
    (hheld : ∀ key a, r.content key = some a → Q key a)
    (hqueued : QueuesOnly (fun _ u => ∀ v, u.value = some v → Q u.key v.content) r) :
    Everywhere Q (c.set n r) := by
  refine ⟨fun m key a ha => ?_, carriesOnly_set h.carried hqueued, h.advertised⟩
  simp only [Cluster.set, Function.update_apply] at ha
  split_ifs at ha
  · exact hheld key a ha
  · exact h.held m key a ha

theorem Everywhere.wrote (h : Everywhere Q c) {n : N} {r : Replica K V T N} {key : K}
    {item : Option (MapValue V T)} (hw : Wrote (c.replicas n) r key item)
    (hitem : ∀ v, item = some v → Q key v.content) : Everywhere Q (c.set n r) := by
  apply h.set
  · intro j a ha
    rw [content_wrote hw] at ha
    split_ifs at ha with hj
    · obtain ⟨v, hv, rfl⟩ := Option.map_eq_some_iff.mp ha
      exact hj ▸ hitem v hv
    · exact h.held n j a ha
  · exact queuesOnly_wrote (h.carried.pending n) hw fun _ v hv => hitem v hv

end

def Writes (Q : K → Option V × T → Prop) (c : Cluster K V T N) : GossipInput K V T N → Prop
  | .put _ key value timestamp _ _ => ∀ t, timestamp = some t → Q key (some value, t)
  | .remove _ key _ timestamp _ _ => ∀ t, timestamp = some t → Q key (none, t)
  | .compute n key recomputeFunction timestamp _ _ => ∀ t, timestamp = some t →
    Q key (recomputeFunction ((c.replicas n).get key), t)
  | .clear .. => False
  | _ => True

section

omit [LinearOrder T] [DecidableEq N] [DecidableEq V]

theorem Everywhere.send (h : Everywhere Q c) {src dst : N} {message : Message K V T N}
    (hupdates : ∀ updates, message = .updates updates → ∀ u ∈ updates, ∀ v, u.value = some v →
      Q u.key v.content)
    (had : ∀ adCreationTime ad, message = .advertisement adCreationTime ad → ∀ key timestamp,
      ad.digest.lookup key = some ⟨timestamp, true⟩ → Q key (none, timestamp)) :
    Everywhere Q (c.send src dst message) := by
  refine ⟨h.held, carriesOnly_send h.carried hupdates, fun e he => ?_⟩
  rcases List.mem_append.mp he with he | he
  · exact h.advertised e he
  · obtain rfl := List.mem_singleton.mp he
    exact had

theorem Everywhere.rest (h : Everywhere Q c) {k : ℕ} {e : Envelope K V T N}
    {rest : List (Envelope K V T N)} (ht : takeAt k c.network = some (e, rest)) :
    Everywhere Q { c with network := rest } :=
  ⟨h.held, carriesOnly_rest h.carried ht,
    fun e' he' => h.advertised e' ((mem_takeAt ht e').mpr (.inr he'))⟩

end

theorem not_advertisement_of_reply {r : Replica K V T N} {e e' : Envelope K V T N} {now : ℕ}
    {underHighLoad : Bool} (h : e' ∈ replies r e now underHighLoad) (adCreationTime : ℕ)
    (ad : AntiEntropyAdvertisement K T N) : e'.message ≠ .advertisement adCreationTime ad := by
  obtain ⟨src, dst, message⟩ := e
  rw [replies] at h
  cases message with
  | advertisement time ad' =>
    rcases List.mem_append.mp h with h | h
    · obtain ⟨request, -, rfl⟩ := List.mem_map.mp h
      intro hm
      cases hm
    · obtain rfl := List.mem_singleton.mp h
      intro hm
      cases hm
  | bootstrap peer =>
    obtain ⟨updates, -, rfl⟩ := List.mem_map.mp h
    intro hm
    cases hm
  | updates updates => cases h
  | answered time response => cases h
  | request request => cases h

theorem Everywhere.receive (h : Everywhere Q c) (hc : Configured c) {e : Envelope K V T N}
    (hupdates : ∀ updates, e.message = .updates updates → ∀ u ∈ updates, ∀ v, u.value = some v →
      Q u.key v.content)
    (had : ∀ adCreationTime ad, e.message = .advertisement adCreationTime ad → ∀ key timestamp,
      ad.digest.lookup key = some ⟨timestamp, true⟩ → Q key (none, timestamp))
    (now : ℕ) (underHighLoad : Bool) : Everywhere Q (c.receive e now underHighLoad) := by
  have hreceive := receive_keeps h.carried hc
    (fun _ key v hv w hw => Option.some.inj hw ▸ h.values e.dst key v hv)
    (fun request _ key _ w hw => h.values e.dst key w hw) now underHighLoad
  refine ⟨fun n key a ha => ?_, hreceive.1, fun e' he' => ?_⟩
  · rw [replicas_receive] at ha
    split_ifs at ha
    · rcases content_arrive_mem ha with
        hheld | ⟨updates, hm, u, hu, rfl, v, hv, rfl⟩ | ⟨time, ad, timestamp, hm, hd, rfl⟩
      · exact h.held _ key a hheld
      · exact hupdates updates hm u hu v hv
      · exact had time ad hm key timestamp hd
    · exact h.held n key a ha
  · rw [network_receive] at he'
    rcases List.mem_append.mp he' with he' | he'
    · exact h.advertised e' he'
    · exact fun time ad hm => absurd hm (not_advertisement_of_reply he' time ad)

theorem Everywhere.handle (h : Everywhere Q c) (hc : Configured c) (x : GossipInput K V T N)
    (hx : Writes Q c x) : Everywhere Q (c.handle x) := by
  have hsame : ∀ n, Everywhere Q (c.set n (c.replicas n)) := fun n =>
    h.set (h.held n) (h.carried.pending n)
  cases x with
  | put n key value timestamp now peers =>
    simp only [Cluster.handle]
    cases hp : (c.replicas n).put key value timestamp now peers with
    | none => exact hsame n
    | some r =>
      rw [Option.getD_some]
      rcases put_cases hp with rfl | ⟨t, ht, -, hw⟩
      · exact hsame n
      · exact h.wrote hw fun v hv => Option.some.inj hv ▸ hx t ht
  | remove n key value timestamp now peers =>
    rcases removeAndNotify_cases (c.replicas n) key value timestamp now peers with he | ⟨-, hw⟩
    · simp only [Cluster.handle, he]
      exact hsame n
    · apply h.wrote hw
      intro v hv
      rw [removalTombstone_of_configured hc] at hv
      obtain ⟨t, ht, rfl⟩ := Option.map_eq_some_iff.mp hv
      exact hx t ht
  | compute n key recomputeFunction timestamp now peers =>
    simp only [Cluster.handle]
    cases hp : (c.replicas n).compute key recomputeFunction timestamp now peers with
    | none => exact hsame n
    | some r =>
      rw [Option.getD_some]
      rcases compute_cases hp with rfl | ⟨t, ht, -, hw⟩
      · exact hsame n
      · exact h.wrote hw fun v hv => Option.some.inj hv ▸ hx t ht
  | clear n timestamp now peers => exact absurd hx not_false
  | bootstrap n peer => exact h.send (fun _ hm => by cases hm) fun _ _ hm => by cases hm
  | advertise n peer now =>
    apply h.send (fun _ hm => by cases hm)
    intro time ad hm key timestamp hd
    obtain ⟨-, rfl⟩ := Message.advertisement.inj hm
    rw [createAdvertisement, lookup_mapValues] at hd
    obtain ⟨v, hv, hdigest⟩ := Option.map_eq_some_iff.mp hd
    have hcontent : v.content = (none, timestamp) :=
      Prod.ext (Option.isNone_iff_eq_none.mp (congrArg Digest.isTombstone hdigest))
        (congrArg Digest.timestamp hdigest)
    exact hcontent ▸ h.values n key v hv
  | flush n peer count =>
    refine ⟨fun m key a ha => ?_, (flush_keeps h.carried hc n peer count).1, fun e he => ?_⟩
    · rw [Cluster.handle, content_flush] at ha
      exact h.held m key a ha
    · rcases List.mem_append.mp he with he | he
      · exact h.advertised e he
      · obtain rfl := List.mem_singleton.mp he
        exact fun time ad hm => by cases hm
  | purge n peers =>
    have hframe := purgeTombstones_frame (c.replicas n) peers
    apply h.set
    · intro key a ha
      rw [content_purgeTombstones] at ha
      split_ifs at ha
      exact h.held n key a ha
    · rw [QueuesOnly]
      rw [hframe.1]
      exact h.carried.pending n
  | deliver k now underHighLoad =>
    simp only [Cluster.handle]
    cases ht : takeAt k c.network with
    | none => exact h
    | some taken =>
      obtain ⟨e, rest⟩ := taken
      have he := (mem_takeAt ht e).mpr (.inl rfl)
      exact (h.rest ht).receive hc (h.carried.inFlight e he) (h.advertised e he) now underHighLoad
  | lose k =>
    simp only [Cluster.handle]
    cases ht : takeAt k c.network with
    | none => exact h
    | some taken => exact h.rest ht

/-- The input deletes the entry of the key: a purge, an update without a value, or a removal without
a timestamp. -/
def Drops (c : Cluster K V T N) (n : N) (key : K) : GossipInput K V T N → Prop
  | .purge m peers => m = n ∧ Purges (c.replicas n) peers key
  | .deliver k _ _ => ∃ e rest, takeAt k c.network = some (e, rest) ∧ e.dst = n ∧
    Deletes e.message key
  | .remove m j _ timestamp _ _ => m = n ∧ j = key ∧ timestamp = none
  | .clear .. => True
  | _ => False

theorem content_handle_newer (hc : Configured c) {n : N} {key : K} {a : Option V × T}
    (h : (c.replicas n).content key = some a) (x : GossipInput K V T N) (hx : ¬ Drops c n key x) :
    ∃ b, ((c.handle x).replicas n).content key = some b ∧ (b = a ∨ a.2 < b.2) := by
  have hset : ∀ m (r : Replica K V T N), (m = n → ∃ b, r.content key = some b ∧
      (b = a ∨ a.2 < b.2)) → ∃ b, ((c.set m r).replicas n).content key = some b ∧
        (b = a ∨ a.2 < b.2) := by
    intro m r hr
    simp only [Cluster.set, Function.update_apply]
    split_ifs with hn
    · exact hr hn.symm
    · exact ⟨a, h, .inl rfl⟩
  have hwrote : ∀ {r : Replica K V T N} {j : K} {v : MapValue V T},
      Newer v.timestamp ((c.replicas n).items.lookup j) → Wrote (c.replicas n) r j (some v) →
        ∃ b, r.content key = some b ∧ (b = a ∨ a.2 < b.2) := by
    intro r j v hnewer hw
    rw [content_wrote hw]
    split_ifs with hj
    · obtain ⟨e, he, rfl⟩ := content_eq_some.mp h
      exact ⟨v.content, rfl, .inr (hnewer e (hj ▸ he))⟩
    · exact ⟨a, h, .inl rfl⟩
  cases x with
  | put m j value timestamp now peers =>
    apply hset
    rintro rfl
    cases hp : (c.replicas m).put j value timestamp now peers with
    | none => exact ⟨a, h, .inl rfl⟩
    | some r =>
      rw [Option.getD_some]
      rcases put_cases hp with rfl | ⟨t, -, hnewer, hw⟩
      · exact ⟨a, h, .inl rfl⟩
      · exact hwrote hnewer hw
  | remove m j value timestamp now peers =>
    apply hset
    rintro rfl
    rcases removeAndNotify_cases (c.replicas m) j value timestamp now peers with he | ⟨hr, hw⟩
    · rw [he]
      exact ⟨a, h, .inl rfl⟩
    · rw [removalTombstone_of_configured hc] at hr hw
      cases timestamp with
      | none =>
        have hj : j ≠ key := fun hj => hx ⟨rfl, hj, rfl⟩
        rw [content_wrote hw, if_neg (Ne.symm hj)]
        exact ⟨a, h, .inl rfl⟩
      | some t =>
        rw [Option.map_some] at hr hw
        refine hwrote (fun e he => ?_) hw
        rw [he] at hr
        simp only [removes, Bool.and_eq_true] at hr
        exact of_decide_eq_true hr.2
  | compute m j recomputeFunction timestamp now peers =>
    apply hset
    rintro rfl
    cases hp : (c.replicas m).compute j recomputeFunction timestamp now peers with
    | none => exact ⟨a, h, .inl rfl⟩
    | some r =>
      rw [Option.getD_some]
      rcases compute_cases hp with rfl | ⟨t, -, hnewer, hw⟩
      · exact ⟨a, h, .inl rfl⟩
      · exact hwrote hnewer hw
  | clear m timestamp now peers => exact absurd trivial hx
  | bootstrap m peer => exact ⟨a, h, .inl rfl⟩
  | advertise m peer now => exact ⟨a, h, .inl rfl⟩
  | flush m peer count =>
    rw [Cluster.handle, content_flush]
    exact ⟨a, h, .inl rfl⟩
  | purge m peers =>
    apply hset
    rintro rfl
    rw [content_purgeTombstones, if_neg fun hp => hx ⟨rfl, hp⟩]
    exact ⟨a, h, .inl rfl⟩
  | deliver k now underHighLoad =>
    simp only [Cluster.handle]
    cases ht : takeAt k c.network with
    | none => exact ⟨a, h, .inl rfl⟩
    | some taken =>
      obtain ⟨e, rest⟩ := taken
      dsimp only
      rw [replicas_receive]
      split_ifs with hn
      · subst hn
        exact content_arrive_newer (fun hd => hx ⟨e, rest, ht, rfl, hd⟩) h
      · exact ⟨a, h, .inl rfl⟩
  | lose k =>
    simp only [Cluster.handle]
    cases takeAt k c.network with
    | none => exact ⟨a, h, .inl rfl⟩
    | some taken => exact ⟨a, h, .inl rfl⟩

theorem configured_handle (hc : Configured c) (x : GossipInput K V T N) :
    Configured (c.handle x) := by
  have hall : ∀ c : Cluster K V T N, CarriesOnly (fun _ _ => True) c := fun c =>
    ⟨fun _ _ _ _ => trivial, fun _ _ _ _ _ _ => trivial⟩
  cases x with
  | put n key value timestamp now peers =>
    apply configured_set hc
    cases hp : (c.replicas n).put key value timestamp now peers with
    | none => rfl
    | some r =>
      rcases put_cases hp with rfl | ⟨t, -, -, hw⟩
      · rfl
      · exact hw.config
  | remove n key value timestamp now peers =>
    apply configured_set hc
    rcases removeAndNotify_cases (c.replicas n) key value timestamp now peers with he | ⟨-, hw⟩
    · rw [he]
    · exact hw.config
  | compute n key recomputeFunction timestamp now peers =>
    apply configured_set hc
    cases hp : (c.replicas n).compute key recomputeFunction timestamp now peers with
    | none => rfl
    | some r =>
      rcases compute_cases hp with rfl | ⟨t, -, -, hw⟩
      · rfl
      · exact hw.config
  | clear n timestamp now peers =>
    exact configured_set hc
      (clear_frame ((hall c).pending n) timestamp now peers fun _ _ _ => trivial).2
  | bootstrap n peer => exact hc
  | advertise n peer now => exact hc
  | flush n peer count => exact (flush_keeps (hall c) hc n peer count).2
  | purge n peers => exact configured_set hc (purgeTombstones_frame _ peers).2.1
  | deliver k now underHighLoad =>
    simp only [Cluster.handle]
    cases takeAt k c.network with
    | none => exact hc
    | some taken =>
      have hrest : Configured { c with network := taken.2 } := hc
      exact (receive_keeps (e := taken.1) (hall _) hrest (fun _ _ _ _ => trivial)
        (fun _ _ _ _ => trivial) now underHighLoad).2
  | lose k =>
    simp only [Cluster.handle]
    cases takeAt k c.network with
    | none => exact hc
    | some taken => exact hc

end Steps

section Runs

/-- A cluster whose clocks agree: the newest timestamp of a write so far, and the time. -/
structure Clocked (K V T N : Type*) where
  cluster : Cluster K V T N
  newest : Option T
  time : ℕ

/-- Besides what gossip does, a message in flight may arrive more than once. -/
inductive PurgeInput (K V T N : Type*) where
  | gossip (x : GossipInput K V T N)
  | again (k : ℕ)

def stamp : GossipInput K V T N → Option T
  | .put _ _ _ timestamp _ _ | .remove _ _ _ timestamp _ _ | .compute _ _ _ timestamp _ _ =>
    timestamp
  | _ => none

def timeOf : GossipInput K V T N → Option ℕ
  | .put _ _ _ _ now _ | .remove _ _ _ _ now _ | .compute _ _ _ _ now _ | .clear _ _ now _
  | .advertise _ _ now | .deliver _ now _ => some now
  | _ => none

/-- Writes have timestamps, and a purge looks at all other nodes; a clear is a removal of each key. -/
def Supplied : GossipInput K V T N → Prop
  | .put _ _ _ timestamp _ _ | .remove _ _ _ timestamp _ _ | .compute _ _ _ timestamp _ _ =>
    timestamp ≠ none
  | .purge n peers => ∀ m, m ∈ peers ↔ m ≠ n
  | .clear .. => False
  | _ => True

def Clocked.Accepts (s : Clocked K V T N) : PurgeInput K V T N → Prop
  | .again k => k < s.cluster.network.length
  | .gossip x => s.cluster.Accepts x ∧ (∀ now ∈ timeOf x, s.time ≤ now) ∧
    (∀ t ∈ stamp x, ∀ m ∈ s.newest, m ≤ t) ∧ Supplied x

omit [DecidableEq K] [LinearOrder T] in
instance [Fintype N] [DecidableEq N] [DecidableEq T] :
    (x : GossipInput K V T N) → Decidable (Supplied x)
  | .put _ _ _ timestamp _ _ | .remove _ _ _ timestamp _ _ | .compute _ _ _ timestamp _ _ =>
    inferInstanceAs (Decidable (timestamp ≠ none))
  | .purge n peers => inferInstanceAs (Decidable (∀ m, m ∈ peers ↔ m ≠ n))
  | .clear .. => isFalse not_false
  | .bootstrap .. | .advertise .. | .flush .. | .deliver .. | .lose .. => isTrue trivial

variable [DecidableEq V] [DecidableEq N]

instance [Fintype N] (s : Clocked K V T N) : (x : PurgeInput K V T N) → Decidable (s.Accepts x)
  | .again k => inferInstanceAs (Decidable (k < s.cluster.network.length))
  | .gossip x => inferInstanceAs (Decidable (s.cluster.Accepts x ∧ (∀ now ∈ timeOf x, s.time ≤ now) ∧
    (∀ t ∈ stamp x, ∀ m ∈ s.newest, m ≤ t) ∧ Supplied x))

def Cluster.again (c : Cluster K V T N) (k : ℕ) : Cluster K V T N :=
  { c with network := c.network ++ (c.network[k]?).toList }

def Clocked.handle (s : Clocked K V T N) : PurgeInput K V T N → Clocked K V T N
  | .again k => { s with cluster := Cluster.again s.cluster k }
  | .gossip x => ⟨s.cluster.handle x, (stamp x).or s.newest, (timeOf x).getD s.time⟩

def purgeMachine : Machine (Clocked K V T N) (PurgeInput K V T N) where
  initial := ⟨⟨emptyReplica, []⟩, none, 0⟩
  enabled := Clocked.Accepts
  next := Clocked.handle

instance [Fintype N] (s : Clocked K V T N) (x : PurgeInput K V T N) :
    Decidable (purgeMachine.enabled s x) := inferInstanceAs (Decidable (s.Accepts x))

/-- No other live value of the key that is as old as the entry is held or on its way. -/
def NothingOlder (key : K) (a : Option V × T) : Cluster K V T N → Prop :=
  Everywhere fun j b => j = key → b.1 ≠ none → b.2 ≤ a.2 → b = a

/-- A live value has a timestamp of its own, and an entry is deleted when nothing older is left. -/
def Careful (s : Clocked K V T N) : PurgeInput K V T N → Prop
  | .gossip (.put _ _ _ timestamp _ _) | .gossip (.compute _ _ _ timestamp _ _) =>
    ∀ t ∈ timestamp, ∀ m ∈ s.newest, m < t
  | .gossip (.purge n peers) => ∀ key, Purges (s.cluster.replicas n) peers key →
    ∀ a, (s.cluster.replicas n).content key = some a → NothingOlder key a s.cluster
  | .gossip (.deliver k _ _) => ∀ e rest, takeAt k s.cluster.network = some (e, rest) →
    ∀ key, Deletes e.message key →
      ∀ a, (s.cluster.replicas e.dst).content key = some a → NothingOlder key a s.cluster
  | _ => True

structure Timed (s : Clocked K V T N) : Prop where
  configured : Configured s.cluster
  issued : Everywhere (fun _ a => ∃ m, s.newest = some m ∧ a.2 ≤ m) s.cluster

/-- A tombstone that the node once held: it still holds it or something newer, or nothing older is
left anywhere. -/
def Buried (n : N) (key : K) (timestamp : T) (c : Cluster K V T N) : Prop :=
  (∃ a, (c.replicas n).content key = some a ∧ (a = (none, timestamp) ∨ timestamp < a.2)) ∨
    NothingOlder key (none, timestamp) c

variable {s : Clocked K V T N} {x : PurgeInput K V T N} {n : N} {key : K} {timestamp : T}

omit [LinearOrder T] [DecidableEq V] [DecidableEq N] in
theorem Everywhere.again {Q : K → Option V × T → Prop} {c : Cluster K V T N} (h : Everywhere Q c)
    (k : ℕ) : Everywhere Q (Cluster.again c k) := by
  have hmem : ∀ e ∈ (Cluster.again c k).network, e ∈ c.network := by
    intro e he
    rcases List.mem_append.mp he with he | he
    · exact he
    · exact List.mem_of_getElem? (Option.mem_toList.mp he)
  exact ⟨h.held, ⟨h.carried.pending, fun e he => h.carried.inFlight e (hmem e he)⟩,
    fun e he => h.advertised e (hmem e he)⟩

theorem timed_handle (h : Timed s) (hx : s.Accepts x) : Timed (s.handle x) := by
  cases x with
  | again k => exact ⟨h.configured, h.issued.again k⟩
  | gossip x =>
    refine ⟨configured_handle h.configured x, ?_⟩
    obtain ⟨-, -, hticks, hkind⟩ := hx
    -- what was issued before is not newer than the newest write from now on
    have hkept : Everywhere (fun _ a => ∃ m, (stamp x).or s.newest = some m ∧ a.2 ≤ m)
        s.cluster := by
      refine h.issued.imp fun key a ha => ?_
      obtain ⟨m, hm, hle⟩ := ha
      cases hx : stamp x with
      | none => exact ⟨m, hm, hle⟩
      | some t => exact ⟨t, rfl, hle.trans (hticks t hx m hm)⟩
    apply hkept.handle h.configured
    cases x with
    | put n key value timestamp now peers => exact fun t ht => ⟨t, by rw [stamp, ht]; rfl, le_rfl⟩
    | remove n key value timestamp now peers =>
      exact fun t ht => ⟨t, by rw [stamp, ht]; rfl, le_rfl⟩
    | compute n key recomputeFunction timestamp now peers =>
      exact fun t ht => ⟨t, by rw [stamp, ht]; rfl, le_rfl⟩
    | clear n timestamp now peers => exact hkind
    | _ => trivial

theorem nothingOlder_handle (hs : Timed s) (hx : s.Accepts x) (hcareful : Careful s x)
    {m : T} (hm : s.newest = some m) (hle : timestamp ≤ m)
    (h : NothingOlder key (none, timestamp) s.cluster) :
    NothingOlder key (none, timestamp) (s.handle x).cluster := by
  cases x with
  | again k => exact h.again k
  | gossip x =>
    apply Everywhere.handle h hs.configured
    cases x with
    | put n j value t now peers =>
      intro t' ht _ _ hold
      exact absurd hold (not_le.mpr (hle.trans_lt (hcareful t' ht m hm)))
    | remove n j value t now peers => exact fun t' _ _ halive => absurd rfl halive
    | compute n j recomputeFunction t now peers =>
      intro t' ht _ _ hold
      exact absurd hold (not_le.mpr (hle.trans_lt (hcareful t' ht m hm)))
    | clear n t now peers => exact hx.2.2.2
    | _ => trivial

omit [DecidableEq V] [DecidableEq N] in
theorem nothingOlder_of_newer {a : Option V × T} {c : Cluster K V T N}
    (h : NothingOlder key a c) (ha : a = (none, timestamp) ∨ timestamp < a.2) :
    NothingOlder key (none, timestamp) c := by
  refine Everywhere.imp h fun j b hb hj halive hle => ?_
  rcases ha with rfl | hlt
  · exact hb hj halive hle
  · obtain rfl := hb hj halive (hle.trans hlt.le)
    exact absurd hle (not_le.mpr hlt)

theorem buried_handle (hs : Timed s) (hx : s.Accepts x) (hcareful : Careful s x)
    {m : T} (hm : s.newest = some m) (hle : timestamp ≤ m) (h : Buried n key timestamp s.cluster) :
    Buried n key timestamp (s.handle x).cluster := by
  have hnothing : NothingOlder key (none, timestamp) s.cluster →
      Buried n key timestamp (s.handle x).cluster := fun hold =>
    .inr (nothingOlder_handle hs hx hcareful hm hle hold)
  rcases h with ⟨a, ha, hnewer⟩ | hold
  · cases x with
    | again k => exact .inl ⟨a, ha, hnewer⟩
    | gossip x =>
      by_cases hdrops : Drops s.cluster n key x
      · apply hnothing
        apply nothingOlder_of_newer _ hnewer
        cases x with
        | purge m' peers =>
          obtain ⟨rfl, hpurges⟩ := hdrops
          exact hcareful key hpurges a ha
        | deliver k now underHighLoad =>
          obtain ⟨e, rest, ht, rfl, hdeletes⟩ := hdrops
          exact hcareful e rest ht key hdeletes a ha
        | remove m' j value t now peers => exact absurd hdrops.2.2 hx.2.2.2
        | clear m' t now peers => exact absurd hx.2.2.2 not_false
        | _ => exact absurd hdrops not_false
      · obtain ⟨b, hb, hba⟩ := content_handle_newer hs.configured ha x hdrops
        refine .inl ⟨b, hb, ?_⟩
        rcases hba with rfl | hlt
        · exact hnewer
        · rcases hnewer with rfl | hlt'
          · exact .inr hlt
          · exact .inr (hlt'.trans hlt)
  · exact hnothing hold

structure Remembers (n : N) (key : K) (timestamp : T) (s : Clocked K V T N) : Prop where
  timed : Timed s
  issued : ∃ m, s.newest = some m ∧ timestamp ≤ m
  buried : Buried n key timestamp s.cluster

theorem Remembers.handle (h : Remembers n key timestamp s) (hx : s.Accepts x)
    (hcareful : Careful s x) : Remembers n key timestamp (s.handle x) := by
  obtain ⟨m, hm, hissued⟩ := h.issued
  refine ⟨timed_handle h.timed hx, ?_, buried_handle h.timed hx hcareful hm hissued h.buried⟩
  cases x with
  | again k => exact h.issued
  | gossip x =>
    change ∃ m, (stamp x).or s.newest = some m ∧ timestamp ≤ m
    cases hstamp : stamp x with
    | none => exact h.issued
    | some t => exact ⟨t, rfl, hissued.trans (hx.2.2.1 t hstamp m hm)⟩

/-- As long as live values have timestamps of their own and entries are deleted when nothing older is
left, a node that held a tombstone never again stores a live value that is as old. -/
theorem removed_stays_removed {xs ys : List (PurgeInput K V T N)}
    (hv : ((purgeMachine : Machine (Clocked K V T N) _).guarded Careful).Valid purgeMachine.initial
      (xs ++ ys)) {removal : T}
    (hheld : ((purgeMachine.run purgeMachine.initial xs).cluster.replicas n).content key =
      some (none, timestamp)) (hle : removal ≤ timestamp) {value : V} {t : T}
    (halive : ((purgeMachine.run purgeMachine.initial (xs ++ ys)).cluster.replicas n).content key =
      some (some value, t)) : removal < t := by
  have hinit : Timed (purgeMachine : Machine (Clocked K V T N) _).initial :=
    ⟨fun _ => rfl, fun _ _ _ h => (by cases h), ⟨fun _ _ _ hu => absurd hu List.not_mem_nil,
      fun _ he => absurd he List.not_mem_nil⟩, fun _ he => absurd he List.not_mem_nil⟩
  obtain ⟨hxs, hys⟩ := (valid_append _ _ _ _).mp hv
  have hstep : ∀ (s : Clocked K V T N) x, Timed s → (purgeMachine.guarded Careful).enabled s x →
      Timed ((purgeMachine.guarded Careful).next s x) := fun s x hs hx => timed_handle hs hx.1
  have htimed := invariant_run Timed hstep hxs hinit
  obtain ⟨m, hm, hissued⟩ := htimed.issued.held n key _ hheld
  have hkeep : ∀ (s : Clocked K V T N) x, Remembers n key timestamp s → (purgeMachine.guarded Careful).enabled s x →
      Remembers n key timestamp ((purgeMachine.guarded Careful).next s x) :=
    fun s x hs hx => hs.handle hx.1 hx.2
  have hremembers := invariant_run (Remembers n key timestamp) hkeep hys
    ⟨htimed, ⟨m, hm, hissued⟩, .inl ⟨_, hheld, .inl rfl⟩⟩
  rw [run_append] at halive
  apply hle.trans_lt
  rcases hremembers.buried with ⟨a, ha, hnewer⟩ | hnothing
  · obtain rfl := Option.some.inj (halive.symm.trans ha)
    rcases hnewer with hdead | hlt
    · cases hdead
    · exact hlt
  · by_contra hold
    have hsame := hnothing.held n key _ halive rfl (Option.some_ne_none value) (not_lt.mp hold)
    cases hsame

def removedOnBoth : List (PurgeInput Unit ℕ ℕ Bool) :=
  [.gossip (.put false () 100 (some 1) 1 [true]), .gossip (.flush false true 1),
    .gossip (.deliver 0 1 false), .gossip (.remove false () none (some 2) 2 [true]),
    .gossip (.flush false true 1), .gossip (.deliver 0 3 false)]

def purgedAndPut : List (PurgeInput Unit ℕ ℕ Bool) :=
  [.gossip (.advertise true false 4), .gossip (.deliver 0 5 false), .gossip (.deliver 1 6 false),
    .gossip (.purge true [false]), .gossip (.put true () 200 (some 5) 7 [])]

theorem nothingOlder_removedOnBoth (key : Unit) (a : Option ℕ × ℕ) :
    NothingOlder key a (purgeMachine.run purgeMachine.initial (removedOnBoth ++
      [.gossip (.advertise true false 4), .gossip (.deliver 0 5 false),
        .gossip (.deliver 1 6 false)])).cluster := by
  generalize hs : purgeMachine.run purgeMachine.initial (removedOnBoth ++
      [.gossip (.advertise true false 4), .gossip (.deliver 0 5 false),
        .gossip (.deliver 1 6 false)]) = s
  have hheld : ∀ n j, ∀ b ∈ (s.cluster.replicas n).content j, b.1 = none := by
    rw [← hs]
    decide
  have hpending : ∀ n peer, (s.cluster.replicas n).senderPending peer = [] := by
    rw [← hs]
    decide
  have hnetwork : s.cluster.network = [⟨false, true, .request ⟨false, []⟩⟩] := by
    rw [← hs]
    rfl
  refine ⟨fun n j b hb _ halive _ => absurd (hheld n j b hb) halive,
    ⟨fun n peer u hu => ?_, fun e he updates hm => ?_⟩, fun e he _ _ hm => ?_⟩
  · rw [hpending] at hu
    cases hu
  · rw [hnetwork, List.mem_singleton] at he
    subst he
    cases hm
  · rw [hnetwork, List.mem_singleton] at he
    subst he
    cases hm

theorem removed_stays_removed_once : ∃ value t, ((purgeMachine.run purgeMachine.initial
      (removedOnBoth ++ purgedAndPut)).cluster.replicas true).content () = some (some value, t) ∧
    2 < t := by
  have hdeliver : ∀ (s : Clocked Unit ℕ ℕ Bool) k now underHighLoad,
      (∀ taken ∈ takeAt k s.cluster.network, ∀ key, ¬ Deletes taken.1.message key) →
        Careful s (.gossip (.deliver k now underHighLoad)) :=
    fun s k now underHighLoad h e rest ht key hd => absurd hd (h (e, rest) ht key)
  have hxs : (purgeMachine.guarded Careful).Valid purgeMachine.initial removedOnBoth :=
    ⟨⟨by decide, fun t _ m hm => by cases hm⟩, ⟨by decide, trivial⟩,
      ⟨by decide, hdeliver _ _ _ _ (by decide)⟩, ⟨by decide, trivial⟩,
      ⟨by decide, trivial⟩,
      ⟨by decide, hdeliver _ _ _ _ (by decide)⟩, trivial⟩
  have hys : (purgeMachine.guarded Careful).Valid
      (purgeMachine.run purgeMachine.initial removedOnBoth) purgedAndPut :=
    ⟨⟨by decide, trivial⟩,
      ⟨by decide, hdeliver _ _ _ _ (by decide)⟩,
      ⟨by decide, hdeliver _ _ _ _ (by decide)⟩,
      ⟨by decide, fun key _ a _ => nothingOlder_removedOnBoth key a⟩,
      ⟨by decide, fun t ht m hm => by cases ht; cases hm; decide⟩, trivial⟩
  have hheld : ((purgeMachine.run purgeMachine.initial removedOnBoth).cluster.replicas true).content () =
      some (none, 2) := by decide
  have halive : ((purgeMachine.run purgeMachine.initial
      (removedOnBoth ++ purgedAndPut)).cluster.replicas true).content () = some (some 200, 5) := by
    decide
  exact ⟨200, 5, halive,
    removed_stays_removed ((valid_append _ _ _ _).mpr ⟨hxs, hys⟩) hheld le_rfl halive⟩

/-- The put arrives when the other node has learned of the removal and purged its tombstone. -/
def removedOnBothEarly : List (PurgeInput Unit ℕ ℕ Bool) :=
  [.gossip (.put false () 100 (some 1) 1 [true]), .gossip (.flush false true 1),
    .gossip (.remove false () none (some 2) 2 [true]), .gossip (.flush false true 1), .gossip (.deliver 1 3 false)]

def purgedAndDelivered : List (PurgeInput Unit ℕ ℕ Bool) :=
  [.gossip (.advertise true false 4), .gossip (.deliver 1 5 false), .gossip (.deliver 2 6 false),
    .gossip (.purge true [false]), .gossip (.deliver 0 7 false)]

theorem removal_undone :
    purgeMachine.Valid purgeMachine.initial (removedOnBothEarly ++ purgedAndDelivered) ∧
    ((purgeMachine.run purgeMachine.initial removedOnBothEarly).cluster.replicas false).content () =
      some (none, 2) ∧
    ((purgeMachine.run purgeMachine.initial removedOnBothEarly).cluster.replicas true).content () =
      some (none, 2) ∧
    ((purgeMachine.run purgeMachine.initial
      (removedOnBothEarly ++ purgedAndDelivered)).cluster.replicas true).content () =
      some (some 100, 1) := by
  refine ⟨?_, by decide, by decide, by decide⟩
  decide

end Runs

end ECMapPurge

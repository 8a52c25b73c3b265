import Onos.ECMapWrites
import Onos.Lib.CoordinateFold

/-! Handling an advertisement, key by key. Every local item is compared with the digest of its
key, and what is done about it depends on nothing else. -/
namespace ECMapAntiEntropy

open KeyedMap LastWriter CoordinateFold ECMapReplica ECMapReplica.Replica ECMapWrites

/-- One key in the course of the comparison: its item, whether it is requested, and the updates
queued for it with their peers. -/
@[ext] structure KeyView (K V T N : Type*) where
  item : Option (MapValue V T)
  wanted : Prop
  queued : Set (N × UpdateEntry K V T)

variable {K V T N : Type*}

def queuedFor (r : Replica K V T N) (key : K) : Set (N × UpdateEntry K V T) :=
  {x | x.2 ∈ r.senderPending x.1 ∧ x.2.key = key}

variable [DecidableEq K]

def view (c : LocalCheck K V T N) (key : K) : KeyView K V T N where
  item := c.replica.items.lookup key
  wanted := key ∈ c.staleOrMissing
  queued := queuedFor c.replica key

variable [LinearOrder T]

def buried (now : ℕ) (timestamp : T) (item : Option (MapValue V T)) : Option (MapValue V T) :=
  match item with
  | none => some (.tombstone timestamp now)
  | some v => if v.timestamp < timestamp then some (.tombstone timestamp now) else some v

def visit (ad : AntiEntropyAdvertisement K T N) (now : ℕ) (key : K) (localValue : MapValue V T)
    (k : KeyView K V T N) : KeyView K V T N :=
  match ad.digest.lookup key with
  | none => { k with queued := insert (ad.sender, ⟨key, some localValue⟩) k.queued }
  | some remote =>
    if remote.timestamp < localValue.timestamp then
      { k with queued := insert (ad.sender, ⟨key, some localValue⟩) k.queued }
    else if localValue.timestamp < remote.timestamp then
      if remote.isTombstone then { k with item := buried now remote.timestamp k.item }
      else { k with wanted := True }
    else k

variable [DecidableEq V] [DecidableEq N]

section

omit [LinearOrder T] [DecidableEq V]

theorem queuedFor_queueUpdate (r : Replica K V T N) (key j : K) (value : Option (MapValue V T))
    (peer : N) : queuedFor (r.queueUpdate ⟨key, value⟩ [peer]) j =
      if key = j then insert (peer, ⟨key, value⟩) (queuedFor r j) else queuedFor r j := by
  by_cases hj : key = j
  · rw [if_pos hj]
    ext ⟨n, e⟩
    simp only [queuedFor, Set.mem_ofPred_eq, mem_queueUpdate, List.mem_singleton,
      Set.mem_insert_iff, Prod.mk.injEq]
    constructor
    · rintro ⟨he | ⟨rfl, rfl⟩, hk⟩
      · exact Or.inr ⟨he, hk⟩
      · exact Or.inl ⟨rfl, rfl⟩
    · rintro (⟨rfl, rfl⟩ | ⟨he, hk⟩)
      · exact ⟨Or.inr ⟨rfl, rfl⟩, hj⟩
      · exact ⟨Or.inl he, hk⟩
  · rw [if_neg hj]
    ext ⟨n, e⟩
    simp only [queuedFor, Set.mem_ofPred_eq, mem_queueUpdate, List.mem_singleton]
    constructor
    · rintro ⟨he | ⟨rfl, rfl⟩, hk⟩
      · exact ⟨he, hk⟩
      · exact absurd hk hj
    · rintro ⟨he, hk⟩
      exact ⟨Or.inl he, hk⟩

theorem view_push (c : LocalCheck K V T N) (key j : K) (localValue : MapValue V T) (peer : N) :
    view { c with replica := c.replica.queueUpdate ⟨key, some localValue⟩ [peer] } j =
      if key = j then
        { view c j with queued := insert (peer, ⟨key, some localValue⟩) (view c j).queued }
      else view c j := by
  by_cases hj : key = j
  · rw [if_pos hj]
    refine KeyView.ext rfl rfl ?_
    exact (queuedFor_queueUpdate _ _ _ _ _).trans (if_pos hj)
  · rw [if_neg hj]
    refine KeyView.ext rfl rfl ?_
    exact (queuedFor_queueUpdate _ _ _ _ _).trans (if_neg hj)

end

section

omit [DecidableEq N]

theorem lookup_bury (r : Replica K V T N) (key j : K) (now : ℕ) (timestamp : T) :
    (r.removeInternal key none (some (.tombstone timestamp now))).1.items.lookup j =
      if j = key then buried now timestamp (r.items.lookup j) else r.items.lookup j := by
  rw [lookup_removeInternal]
  by_cases hj : j = key
  · subst hj
    cases he : r.items.lookup j with
    | none => simp [buried, removes_none_some]
    | some v =>
      by_cases hlt : v.timestamp < timestamp
      · simp [buried, removes_none_some, hlt, MapValue.tombstone]
      · simp [buried, removes_none_some, hlt, MapValue.tombstone]
  · simp [hj]

theorem view_bury (c : LocalCheck K V T N) (key j : K) (now : ℕ) (timestamp : T)
    (events : List (Event K V)) :
    view ⟨(c.replica.removeInternal key none (some (.tombstone timestamp now))).1, events,
        c.staleOrMissing⟩ j =
      if key = j then { view c j with item := buried now timestamp (view c j).item }
      else view c j := by
  have hqueued : ∀ j, queuedFor (c.replica.removeInternal key none
      (some (.tombstone timestamp now))).1 j = queuedFor c.replica j := by
    intro j
    unfold queuedFor
    rw [removeInternal_senderPending]
  by_cases hj : key = j
  · rw [if_pos hj]
    exact KeyView.ext ((lookup_bury _ _ _ _ _).trans (if_pos hj.symm)) rfl (hqueued j)
  · rw [if_neg hj]
    exact KeyView.ext ((lookup_bury _ _ _ _ _).trans (if_neg (Ne.symm hj))) rfl (hqueued j)

end

omit [LinearOrder T] [DecidableEq V] [DecidableEq N] in
theorem view_request (c : LocalCheck K V T N) (key j : K) :
    view { c with staleOrMissing := c.staleOrMissing ++ [key] } j =
      if key = j then { view c j with wanted := True } else view c j := by
  by_cases hj : key = j
  · subst hj
    rw [if_pos rfl]
    exact KeyView.ext rfl (by simp [view]) rfl
  · rw [if_neg hj]
    exact KeyView.ext rfl (by simp [view, Ne.symm hj]) rfl

theorem view_checkLocalItem (ad : AntiEntropyAdvertisement K T N) (now : ℕ)
    (c : LocalCheck K V T N) (key j : K) (localValue : MapValue V T) :
    view (checkLocalItem ad now c key localValue) j =
      if key = j then visit ad now j localValue (view c j) else view c j := by
  rw [checkLocalItem]
  cases hd : ad.digest.lookup key with
  | none =>
    dsimp only
    rw [view_push]
    by_cases hj : key = j
    · subst hj
      rw [if_pos rfl, if_pos rfl, visit, hd]
    · rw [if_neg hj, if_neg hj]
  | some remote =>
    have hvisit : ∀ v : KeyView K V T N, (if key = j then visit ad now j localValue v else v) =
        if key = j then
          (if remote.timestamp < localValue.timestamp then
            { v with queued := insert (ad.sender, ⟨key, some localValue⟩) v.queued }
          else if localValue.timestamp < remote.timestamp then
            if remote.isTombstone then { v with item := buried now remote.timestamp v.item }
            else { v with wanted := True }
          else v)
        else v := by
      intro v
      by_cases hj : key = j
      · subst hj
        rw [if_pos rfl, if_pos rfl, visit, hd]
      · rw [if_neg hj, if_neg hj]
    rw [hvisit]
    unfold Digest.isNewerThan MapValue.digest
    rcases lt_trichotomy remote.timestamp localValue.timestamp with hlt | heq | hgt
    · simp only [if_pos hlt]
      exact view_push _ _ _ _ _
    · simp [heq]
    · by_cases ht : remote.isTombstone = true
      · simp only [not_lt_of_gt hgt, hgt, ht, if_false, if_true, decide_true, Bool.and_true]
        exact view_bury c key j now remote.timestamp _
      · simp only [not_lt_of_gt hgt, hgt, ht, if_false, if_true, decide_true, Bool.and_false,
          Bool.false_eq_true]
        exact view_request c key j

theorem view_checkLocalItems (r : Replica K V T N) (ad : AntiEntropyAdvertisement K T N)
    (now : ℕ) (key : K) :
    view (r.checkLocalItems ad now) key =
      match r.items.lookup key with
      | none => view ⟨r, [], []⟩ key
      | some localValue => visit ad now key localValue (view ⟨r, [], []⟩ key) := by
  let act (c : LocalCheck K V T N) (k : K) : LocalCheck K V T N :=
    match r.items.lookup k with
    | none => c
    | some localValue => checkLocalItem ad now c k localValue
  have hact : ActsOn (fun _ => True) view act fun k v =>
      match r.items.lookup k with
      | none => v
      | some localValue => visit ad now k localValue v := by
    refine ⟨fun _ _ _ => trivial, fun c k _ => ?_, fun c k j _ hj => ?_⟩
    · dsimp only [act]
      cases r.items.lookup k with
      | none => rfl
      | some localValue => exact (view_checkLocalItem _ _ _ _ _ _).trans (if_pos rfl)
    · dsimp only [act]
      cases r.items.lookup k with
      | none => rfl
      | some localValue => exact (view_checkLocalItem _ _ _ _ _ _).trans (if_neg (Ne.symm hj))
  have hfold : r.checkLocalItems ad now = r.items.keys.foldl act ⟨r, [], []⟩ := by
    unfold checkLocalItems AList.keys List.keys
    rw [List.foldl_map]
    apply List.foldl_ext
    intro c e he
    have hlookup : r.items.lookup e.1 = some e.2 := (mem_entries_iff _ _ _).mp he
    dsimp only [act]
    rw [hlookup]
  rw [hfold]
  by_cases hkey : key ∈ r.items.keys
  · exact view_foldl_of_mem hact r.items.nodupKeys hkey trivial
  · rw [view_foldl_of_notMem hact hkey trivial]
    have hnone : r.items.lookup key = none := by
      rw [mem_keys_iff] at hkey
      exact Option.eq_none_iff_forall_ne_some.mpr fun v hv => hkey ⟨v, hv⟩
    rw [hnone]

section Handled
variable (r : Replica K V T N) (ad : AntiEntropyAdvertisement K T N) (now : ℕ)

omit [LinearOrder T] [DecidableEq K] [DecidableEq V] [DecidableEq N] in
theorem notified (events : List (Event K V)) (r : Replica K V T N) :
    (events.foldl notifyListeners r).items = r.items ∧
      (events.foldl notifyListeners r).senderPending = r.senderPending ∧
      (events.foldl notifyListeners r).config = r.config := by
  induction events generalizing r with
  | nil => exact ⟨rfl, rfl, rfl⟩
  | cons event events ih => exact ih (r.notifyListeners event)

theorem lookup_handled (key : K) :
    (r.handleAntiEntropyAdvertisement ad now false).1.items.lookup key =
      (view (r.checkLocalItems ad now) key).item :=
  congrArg (AList.lookup key) (notified _ _).1

theorem queuedFor_handled (key : K) :
    queuedFor (r.handleAntiEntropyAdvertisement ad now false).1 key =
      (view (r.checkLocalItems ad now) key).queued := by
  have hpending : (r.handleAntiEntropyAdvertisement ad now false).1.senderPending =
      (r.checkLocalItems ad now).replica.senderPending := (notified _ _).2.1
  rw [queuedFor]
  rw [hpending]
  rfl

theorem content_handled (key : K) : (r.handleAntiEntropyAdvertisement ad now false).1.content key =
      match r.content key, ad.digest.lookup key with
      | some c, some ⟨timestamp, true⟩ => take Prod.snd (some c) (none, timestamp)
      | held, _ => held := by
  rw [content_of_lookup (lookup_handled r ad now key), view_checkLocalItems]
  have hitem : (view ⟨r, [], []⟩ key).item = r.items.lookup key := rfl
  rw [content]
  cases hl : r.items.lookup key with
  | none => rw [hitem, hl]; rfl
  | some v =>
    cases hd : ad.digest.lookup key with
    | none => simp only [visit, hd, hitem, hl]; rfl
    | some remote =>
      obtain ⟨timestamp, isTombstone⟩ := remote
      simp only [visit, hd]
      rcases lt_trichotomy timestamp v.timestamp with hlt | heq | hgt
      · cases isTombstone <;>
          simp [hlt, hitem, hl, take, MapValue.content, not_lt_of_gt hlt]
      · cases isTombstone <;> simp [heq, hitem, hl, take, MapValue.content]
      · cases isTombstone <;>
          simp [hgt, not_lt_of_gt hgt, hitem, hl, take, MapValue.content, buried,
            MapValue.tombstone]

theorem config_handled (underHighLoad : Bool) :
    (r.handleAntiEntropyAdvertisement ad now underHighLoad).1.config = r.config := by
  have hone : ∀ (c : LocalCheck K V T N) (key : K) (v : MapValue V T),
      (checkLocalItem ad now c key v).replica.config = c.replica.config := by
    intro c key v
    rw [checkLocalItem]
    cases ad.digest.lookup key with
    | none => rfl
    | some remote =>
      dsimp only
      split_ifs
      · rfl
      · rcases removeInternal_cases c.replica key none
          (some (.tombstone remote.timestamp now)) with h | ⟨_, h⟩
        · rw [h]
        · rw [h]
          rfl
      · rfl
      · rfl
  have hall : ∀ (es : List (Sigma fun _ : K => MapValue V T)) (c : LocalCheck K V T N),
      (es.foldl (fun c e => checkLocalItem ad now c e.1 e.2) c).replica.config =
        c.replica.config := by
    intro es
    induction es with
    | nil => exact fun _ => rfl
    | cons e es ih => exact fun c => (ih _).trans (hone c e.1 e.2)
  cases underHighLoad with
  | true => rfl
  | false => exact (notified _ _).2.2.trans (hall _ _)

theorem queuesOnly_handled {P : N → UpdateEntry K V T → Prop} (h : QueuesOnly P r)
    (hP : ∀ key v, r.items.lookup key = some v → P ad.sender ⟨key, some v⟩) (underHighLoad : Bool) :
    QueuesOnly P (r.handleAntiEntropyAdvertisement ad now underHighLoad).1 := by
  cases underHighLoad with
  | true => exact h
  | false =>
    intro peer u hu
    have hmem : (peer, u) ∈
        queuedFor (r.handleAntiEntropyAdvertisement ad now false).1 u.key := ⟨hu, rfl⟩
    rw [queuedFor_handled, view_checkLocalItems] at hmem
    have hold : ∀ x ∈ queuedFor r u.key, P x.1 x.2 := fun x hx => h x.1 x.2 hx.1
    cases hl : r.items.lookup u.key with
    | none =>
      rw [hl] at hmem
      exact hold _ hmem
    | some v =>
      have hpush : ∀ x ∈ insert (ad.sender, (⟨u.key, some v⟩ : UpdateEntry K V T))
          (queuedFor r u.key), P x.1 x.2 := by
        rintro x (rfl | hx)
        · exact hP _ _ hl
        · exact hold x hx
      simp only [hl, visit] at hmem
      cases hd : ad.digest.lookup u.key with
      | none =>
        rw [hd] at hmem
        exact hpush _ hmem
      | some remote =>
        simp only [hd] at hmem
        split_ifs at hmem
        · exact hpush _ hmem
        · exact hold _ hmem
        · exact hold _ hmem
        · exact hold _ hmem

theorem queuedFor_handled_mono (key : K) : queuedFor r key ⊆
    queuedFor (r.handleAntiEntropyAdvertisement ad now false).1 key := by
  rw [queuedFor_handled, view_checkLocalItems]
  intro x hx
  have hold : x ∈ (view ⟨r, [], []⟩ key).queued := hx
  cases r.items.lookup key with
  | none => exact hold
  | some v =>
    unfold visit
    cases ad.digest.lookup key with
    | none => exact Or.inr hold
    | some remote =>
      dsimp only
      split_ifs
      · exact Or.inr hold
      · exact hold
      · exact hold
      · exact hold

theorem senderPending_handled {u : UpdateEntry K V T} {peer : N} (h : u ∈ r.senderPending peer)
    (underHighLoad : Bool) :
    u ∈ (r.handleAntiEntropyAdvertisement ad now underHighLoad).1.senderPending peer := by
  cases underHighLoad with
  | true => exact h
  | false =>
    have hmem : (peer, u) ∈ queuedFor r u.key := ⟨h, rfl⟩
    exact (queuedFor_handled_mono r ad now u.key hmem).1

theorem handled_pushes {key : K} {localValue : MapValue V T}
    (hl : r.items.lookup key = some localValue)
    (hd : ∀ d, ad.digest.lookup key = some d → d.timestamp < localValue.timestamp) :
    (⟨key, some localValue⟩ : UpdateEntry K V T) ∈
      (r.handleAntiEntropyAdvertisement ad now false).1.senderPending ad.sender := by
  have hmem : (ad.sender, (⟨key, some localValue⟩ : UpdateEntry K V T)) ∈
      queuedFor (r.handleAntiEntropyAdvertisement ad now false).1 key := by
    rw [queuedFor_handled, view_checkLocalItems, hl]
    simp only [visit]
    cases hdigest : ad.digest.lookup key with
    | none => exact Or.inl rfl
    | some d =>
      simp only [if_pos (hd d hdigest)]
      exact Or.inl rfl
  exact hmem.1

theorem mem_request_iff (key : K) : key ∈ (r.antiEntropyCheckLocalItems ad now).2.2.keys ↔
    ∃ d, ad.digest.lookup key = some d ∧
      match r.items.lookup key with
      | none => True
      | some v => v.timestamp < d.timestamp ∧ d.isTombstone = false := by
  have hkeys : key ∈ (r.antiEntropyCheckLocalItems ad now).2.2.keys ↔
      (view (r.checkLocalItems ad now) key).wanted ∨ key ∈ r.locallyUnknown ad :=
    List.mem_append
  have hnew : ¬ (view ⟨r, [], []⟩ key).wanted := List.not_mem_nil
  have hunknown : key ∈ r.locallyUnknown ad ↔
      (∃ d, ad.digest.lookup key = some d) ∧ r.items.lookup key = none := by
    rw [locallyUnknown]
    rw [List.mem_filter, mem_keys_iff, Option.isNone_iff_eq_none]
  rw [hkeys, hunknown, view_checkLocalItems]
  cases hl : r.items.lookup key with
  | none => simp [hnew]
  | some v =>
    simp only [visit, reduceCtorEq, and_false, or_false]
    cases hd : ad.digest.lookup key with
    | none => simp [hnew]
    | some d =>
      simp only [Option.some.injEq, exists_eq_left']
      rcases lt_trichotomy d.timestamp v.timestamp with hlt | heq | hgt
      · simp [hlt, not_lt_of_gt hlt, hnew]
      · simp [heq, hnew]
      · by_cases ht : d.isTombstone = true
        · simp [hgt, not_lt_of_gt hgt, ht, hnew]
        · simp [hgt, not_lt_of_gt hgt, ht]

theorem handled_learns {key : K} {d : Digest T} (hd : ad.digest.lookup key = some d) :
    (∃ b, (r.handleAntiEntropyAdvertisement ad now false).1.content key = some b ∧
      d.timestamp ≤ b.2) ∨ key ∈ (r.antiEntropyCheckLocalItems ad now).2.2.keys := by
  rw [mem_request_iff, content_handled, hd]
  obtain ⟨timestamp, isTombstone⟩ := d
  cases hl : r.items.lookup key with
  | none => exact Or.inr ⟨_, rfl, trivial⟩
  | some v =>
    rw [content_of_lookup hl]
    rcases lt_or_ge v.timestamp timestamp with hlt | hge
    · cases isTombstone with
      | true => exact Or.inl ⟨_, take_of_lt hlt, le_rfl⟩
      | false => exact Or.inr ⟨_, rfl, hlt, rfl⟩
    · left
      cases isTombstone with
      | true => exact ⟨_, take_of_le hge, hge⟩
      | false => exact ⟨_, rfl, hge⟩

end Handled

end ECMapAntiEntropy

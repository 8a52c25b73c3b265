import Onos.DeviceStorePresence

/-! Is a device available that was gossiped to be online and offline? Marking it offline keeps the
timestamp and marking it online forgets it, and an offline message is only compared with the
descriptions of the device. -/
namespace DeviceStoreAvailability

open KeyedMap InputMachine DeviceStoreReplica DeviceStorePresence

variable {T N : Type*} [LinearOrder T] [DecidableEq N] (hash : HashOrder)

structure Status (T : Type*) where
  timestamp : T
  available : Bool
  deriving DecidableEq

def Status.message (m : Status T) : Message T N := .deviceStatusChangeEvent m.timestamp m.available

structure DescribedBefore (s : Replica T N) (ms : List (Status T)) : Prop where
  known : s.devices.isSome
  older : ∀ p d, s.deviceDescs.lookup p = some d → ∀ m ∈ ms, d.getLatestTimestamp < m.timestamp

structure Newest (ms : List (Status T)) (g : Status T) : Prop where
  mem : g ∈ ms
  max : ∀ m ∈ ms, m.timestamp ≤ g.timestamp

/-- Online messages are older than offline messages, and an online newest message is newer than
the offline request that is recorded, if the device is not available anyway. -/
structure Ordered (s : Replica T N) (ms : List (Status T)) (g : Status T) : Prop where
  onlineFirst : ∀ off ∈ ms, off.available = false → ∀ on ∈ ms, on.available = true →
    on.timestamp < off.timestamp
  recorded : g.available = true →
    s.availableDevices = true ∨ ∀ t, s.offline = some t → t < g.timestamp

section Steps

def statuses (hash : HashOrder) (s : Replica T N) (ms : List (Status T)) : Replica T N :=
  (replicaMachine hash).run s (ms.map Status.message)

theorem statuses_cons (s : Replica T N) (m : Status T) (ms : List (Status T)) :
    statuses hash s (m :: ms) = statuses hash (s.handle hash m.message) ms := rfl

theorem statuses_append (s : Replica T N) (ms ms' : List (Status T)) :
    statuses hash s (ms ++ ms') = statuses hash (statuses hash s ms) ms' := by
  unfold statuses
  rw [List.map_append, run_append]

variable {s : Replica T N} {ms : List (Status T)}

theorem describedBefore_handle (h : DescribedBefore s ms) (m : Status T) :
    DescribedBefore (s.handle hash m.message) ms := by
  have hsame : SameRecords s (s.handle hash m.message) := by
    change SameRecords s (if m.available then _ else _)
    split_ifs
    · exact markOnline_same s _
    · exact markOffline_same hash s _
  constructor
  · rw [hsame.devices]
    exact h.known
  · rw [hsame.deviceDescs]
    exact h.older

theorem describedBefore_statuses (h : DescribedBefore s ms) (ms' : List (Status T)) :
    DescribedBefore (statuses hash s ms') ms := by
  induction ms' generalizing s with
  | nil => exact h
  | cons m ms' ih => exact ih (describedBefore_handle hash h m)

theorem handle_offline (h : DescribedBefore s ms)
    {m : Status T} (hm : m ∈ ms) (hoff : m.available = false) :
    (s.handle hash m.message).availableDevices = false ∧
      (s.handle hash m.message).offline = some m.timestamp := by
  have hhandle : s.handle hash m.message = s.markOfflineInternal hash m.timestamp := by
    change (if m.available then _ else _) = _
    rw [hoff]
    rfl
  rw [hhandle]
  unfold Replica.markOfflineInternal
  rcases s.getPrimaryDescriptions_cases hash with ⟨_, hnone⟩ | ⟨p, d, hd, hsome⟩
  · rw [hnone]
    exact ⟨rfl, rfl⟩
  · rw [hsome]
    have hnew : ¬ m.timestamp ≤ d.getLatestTimestamp := not_le.mpr (h.older p d hd m hm)
    simp [hnew]

theorem handle_online (hknown : s.devices.isSome) {m : Status T} (hon : m.available = true) :
    ((∀ t, s.offline = some t → t < m.timestamp) ∧
      (s.handle hash m.message).availableDevices = true ∧
        (s.handle hash m.message).offline = none) ∨
    (∃ t, s.offline = some t ∧ m.timestamp ≤ t ∧ s.handle hash m.message = s) := by
  have hhandle : s.handle hash m.message = s.markOnlineInternal m.timestamp := by
    change (if m.available then _ else _) = _
    rw [hon]
    rfl
  rw [hhandle]
  unfold Replica.markOnlineInternal
  rw [if_pos hknown]
  cases hoffline : s.offline with
  | none =>
    left
    refine ⟨fun t ht => ?_, rfl, rfl⟩
    cases ht
  | some t =>
    by_cases hlt : t < m.timestamp
    · left
      refine ⟨fun t' ht' => ?_, by simp [hlt], by simp [hlt]⟩
      obtain rfl := Option.some.inj ht'
      exact hlt
    · exact Or.inr ⟨t, rfl, not_lt.mp hlt, by simp [hlt]⟩

end Steps

section Orders

def OfflineSince (s : Replica T N) (ms : List (Status T)) : Prop :=
  s.availableDevices = false ∧
    ∃ off ∈ ms, off.available = false ∧ s.offline = some off.timestamp

variable {s : Replica T N} {ms : List (Status T)}

theorem offlineSince_handle (h : DescribedBefore s ms)
    (hfirst : ∀ off ∈ ms, off.available = false → ∀ on ∈ ms, on.available = true →
      on.timestamp < off.timestamp)
    (hs : OfflineSince s ms) {m : Status T} (hm : m ∈ ms) :
    OfflineSince (s.handle hash m.message) ms := by
  cases hon : m.available with
  | false =>
    obtain ⟨havailable, hoffline⟩ := handle_offline hash h hm hon
    exact ⟨havailable, m, hm, hon, hoffline⟩
  | true =>
    obtain ⟨havailable, off, hoff, hfalse, hoffline⟩ := hs
    rcases handle_online hash h.known hon with ⟨hnewer, _, _⟩ | ⟨_, _, _, hsame⟩
    · exact absurd (hnewer _ hoffline) (lt_asymm (hfirst off hoff hfalse m hm hon))
    · rw [hsame]
      exact ⟨havailable, off, hoff, hfalse, hoffline⟩

theorem offlineSince_statuses (h : DescribedBefore s ms)
    (hfirst : ∀ off ∈ ms, off.available = false → ∀ on ∈ ms, on.available = true →
      on.timestamp < off.timestamp)
    (hs : OfflineSince s ms) {ms' : List (Status T)} (hsub : ms' ⊆ ms) :
    OfflineSince (statuses hash s ms') ms := by
  induction ms' generalizing s with
  | nil => exact hs
  | cons m ms' ih =>
    obtain ⟨hm, hrest⟩ := List.cons_subset.mp hsub
    exact ih (describedBefore_handle hash h m) (offlineSince_handle hash h hfirst hs hm) hrest

theorem online_statuses (hknown : s.devices.isSome) (ms : List (Status T))
    (hon : ∀ m ∈ ms, m.available = true) :
    (s.availableDevices = true → (statuses hash s ms).availableDevices = true) ∧
      ∀ t, (statuses hash s ms).offline = some t → s.offline = some t := by
  induction ms generalizing s with
  | nil => exact ⟨id, fun _ => id⟩
  | cons m ms ih =>
    rw [List.forall_mem_cons] at hon
    have hempty : DescribedBefore s [] := ⟨hknown, by simp⟩
    have hnext := describedBefore_handle hash hempty m
    obtain ⟨havailable, hoffline⟩ := ih hnext.known hon.2
    rw [statuses_cons]
    rcases handle_online hash hknown hon.1 with ⟨_, htrue, hnone⟩ | ⟨_, _, _, hsame⟩
    · refine ⟨fun _ => havailable htrue, fun t ht => ?_⟩
      have hcleared := hoffline t ht
      rw [hnone] at hcleared
      cases hcleared
    · rw [hsame] at havailable hoffline ⊢
      exact ⟨havailable, hoffline⟩

theorem outdated_statuses (hknown : s.devices.isSome) {t : T} (hoffline : s.offline = some t)
    (hold : ∀ m ∈ ms, m.available = true ∧ m.timestamp ≤ t) : statuses hash s ms = s := by
  induction ms with
  | nil => rfl
  | cons m ms ih =>
    rw [List.forall_mem_cons] at hold
    obtain ⟨⟨hon, hle⟩, hrest⟩ := hold
    rw [statuses_cons]
    rcases handle_online hash hknown hon with ⟨hnewer, _, _⟩ | ⟨_, _, _, hsame⟩
    · exact absurd (hnewer t hoffline) (not_lt.mpr hle)
    · rw [hsame]
      exact ih hrest

theorem available_of_ordered {ms ms' : List (Status T)}
    (h : DescribedBefore s ms) {g : Status T} (hg : Newest ms g) (hordered : Ordered s ms g)
    (hperm : ms'.Perm ms) : (statuses hash s ms').availableDevices = g.available := by
  obtain ⟨before, after, rfl⟩ := List.append_of_mem (hperm.mem_iff.mpr hg.mem)
  have hsub := hperm.subset
  have hbefore := describedBefore_statuses hash h before
  rw [statuses_append, statuses_cons]
  cases hflag : g.available with
  | false =>
    obtain ⟨havailable, hoffline⟩ := handle_offline hash hbefore hg.mem hflag
    have hafter : after ⊆ ms := fun m hm =>
      hsub (List.mem_append_right _ (List.mem_cons_of_mem _ hm))
    have hsince := offlineSince_statuses hash (describedBefore_handle hash hbefore g)
      hordered.onlineFirst ⟨havailable, g, hg.mem, hflag, hoffline⟩ hafter
    exact hsince.1
  | true =>
    have hon : ∀ m ∈ ms, m.available = true := by
      intro m hm
      by_contra hfalse
      have hlt := hordered.onlineFirst m hm (Bool.eq_false_iff.mpr hfalse) g hg.mem hflag
      exact absurd (hg.max m hm) (not_le.mpr hlt)
    obtain ⟨havailable, hoffline⟩ := online_statuses hash h.known before
      fun m hm => hon m (hsub (List.mem_append_left _ hm))
    have hlater := (online_statuses hash (describedBefore_handle hash hbefore g).known
      after fun m hm =>
        hon m (hsub (List.mem_append_right _ (List.mem_cons_of_mem _ hm)))).1
    apply hlater
    rcases handle_online hash hbefore.known hflag with
      ⟨_, htrue, _⟩ | ⟨t, ht, hle, hsame⟩
    · exact htrue
    · rw [hsame]
      rcases hordered.recorded hflag with htrue | hnewer
      · exact havailable htrue
      · exact absurd (hnewer t (hoffline t ht)) (not_lt.mpr hle)

theorem ordered_of_available
    (hdistinct : (ms.map Status.timestamp).Nodup) (h : DescribedBefore s ms) {g : Status T}
    (hg : Newest ms g)
    (hall : ∀ ms', ms'.Perm ms → (statuses hash s ms').availableDevices = g.available) :
    Ordered s ms g := by
  have hfirst : ∀ off ∈ ms, off.available = false → ∀ on ∈ ms, on.available = true →
      on.timestamp < off.timestamp := by
    intro off hoff hfalse on hon htrue
    by_contra hnot
    have hne : off ≠ on := fun heq => by rw [heq, htrue] at hfalse; cases hfalse
    have hlt : off.timestamp < on.timestamp := by
      refine lt_of_le_of_ne (not_lt.mp hnot) fun heq => hne ?_
      exact List.inj_on_of_nodup_map hdistinct hoff hon heq
    cases hflag : g.available with
    | true =>
      obtain ⟨before, hperm⟩ := perm_ending ms [off] (by simp [hoff]) (by simp)
      have hlast := hall _ hperm
      rw [statuses_append, hflag] at hlast
      have hoffline := (handle_offline hash (describedBefore_statuses hash h before) hoff hfalse).1
      exact absurd (hlast.symm.trans hoffline) Bool.noConfusion
    | false =>
      obtain ⟨before, hperm⟩ := perm_ending ms [off, on]
        (by simp [hoff, hon]) (by simp [hne])
      have hlast := hall _ hperm
      rw [statuses_append, hflag] at hlast
      have hbefore := describedBefore_statuses hash h before
      obtain ⟨_, hoffline⟩ := handle_offline hash hbefore hoff hfalse
      have hon' := handle_online hash (describedBefore_handle hash hbefore off).known htrue
      rcases hon' with ⟨_, havailable, _⟩ | ⟨t, ht, hle, _⟩
      · exact absurd (hlast.symm.trans havailable) Bool.noConfusion
      · obtain rfl := Option.some.inj (hoffline.symm.trans ht)
        exact absurd hlt (not_lt.mpr hle)
  refine ⟨hfirst, fun hflag => ?_⟩
  by_contra hnot
  obtain ⟨hunavailable, hlater⟩ := not_or.mp hnot
  push Not at hlater
  obtain ⟨t, hoffline, hle⟩ := hlater
  have hsame : statuses hash s ms = s := by
    refine outdated_statuses hash h.known hoffline fun m hm => ⟨?_, (hg.max m hm).trans hle⟩
    by_contra hfalse
    have hlt := hfirst m hm (Bool.eq_false_iff.mpr hfalse) g hg.mem hflag
    exact absurd (hg.max m hm) (not_le.mpr hlt)
  have hlast := hall ms (List.Perm.refl ms)
  rw [hsame, hflag] at hlast
  exact hunavailable hlast

/-- Every order of the messages leaves the availability of the newest one exactly when they are
ordered. -/
theorem availability_iff {s : Replica T N} {ms : List (Status T)}
    (hdistinct : (ms.map Status.timestamp).Nodup) (h : DescribedBefore s ms) {g : Status T}
    (hg : Newest ms g) :
    (∀ ms', ms'.Perm ms → (statuses hash s ms').availableDevices = g.available) ↔
      Ordered s ms g :=
  ⟨ordered_of_available hash hdistinct h hg,
    fun hordered _ hperm => available_of_ordered hash h hg hordered hperm⟩

end Orders

section Regression

theorem describedBefore_announced {ms : List (Status ℕ)} (hms : ∀ m ∈ ms, 0 < m.timestamp) :
    DescribedBefore announced ms := by
  refine ⟨by decide, fun p d hd m hm => ?_⟩
  have hmem := (mem_entries_iff announced.deviceDescs p d).mpr hd
  rw [entries_announced, List.mem_singleton] at hmem
  cases hmem
  exact hms m hm

/-- The device went offline and then online, and the messages come the other way round. -/
theorem online_device_unavailable : let ms : List (Status ℕ) := [⟨2, true⟩, ⟨1, false⟩]
    DescribedBefore announced ms ∧ (ms.map Status.timestamp).Nodup ∧ Newest ms ⟨2, true⟩ ∧
      ¬ ∀ ms', ms'.Perm ms →
        (statuses insertionOrder announced ms').availableDevices = true := by
  intro ms
  refine ⟨describedBefore_announced (by decide), by decide, ⟨by decide, by decide⟩, fun h => ?_⟩
  have hlast := h ms (List.Perm.refl ms)
  exact absurd hlast (by decide)

theorem availability_iff_once : let ms : List (Status ℕ) := [⟨1, true⟩, ⟨2, false⟩]
    (∀ ms', ms'.Perm ms →
      (statuses insertionOrder announced ms').availableDevices = false) ↔
      Ordered announced ms ⟨2, false⟩ := by
  intro ms
  have hdistinct : (ms.map Status.timestamp).Nodup := by decide
  have hnewest : Newest ms ⟨2, false⟩ := ⟨by decide, by decide⟩
  exact availability_iff insertionOrder hdistinct (describedBefore_announced (by decide)) hnewest

end Regression

end DeviceStoreAvailability

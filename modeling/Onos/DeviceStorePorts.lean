import Onos.DeviceStoreReplica

/-! The ports of a device after full port lists of one provider. A port is only updated by a list
that is not older than what is known of the port, but every list removes the ports that are not
on it. Annotations are merged and not compared. -/
namespace DeviceStorePorts

open KeyedMap InputMachine DeviceStoreReplica

variable {T N : Type*} [LinearOrder T] [DecidableEq N] (hash : HashOrder)

structure OneProvider (s : Replica T N) (p : ProviderId) : Prop where
  known : s.devices.isSome
  provider : s.deviceDescs.keys = [p]
  filed : ∀ n port, s.devicePorts.lookup n = some port → port.number = n

structure PortState (N : Type*) where
  number : N
  isEnabled : Bool
  type : PortType
  portSpeed : ℕ
  deriving DecidableEq

def portOf (port : Port N) : PortState N :=
  ⟨port.number, port.isEnabled, port.type, port.portSpeed⟩

def described (x : PortDescription N) : PortState N :=
  ⟨x.portNumber, x.isEnabled, x.type, x.portSpeed⟩

abbrev PortList (T N : Type*) := Timestamped T (List (PortDescription N))

def listed : List (PortDescription N) → N → Option (PortState N)
  | [], _ => none
  | x :: xs, n => (listed xs n).or (if x.portNumber = n then some (described x) else none)

def portState (s : Replica T N) (n : N) : Option (PortState N) :=
  (s.devicePorts.lookup n).map portOf

def portTime (s : Replica T N) (p : ProviderId) (n : N) : Option T :=
  ((s.deviceDescs.lookup p).bind fun d => d.getPortDesc n).map Timestamped.timestamp

def isCurrent (s : Replica T N) (p : ProviderId) (n : N) (t : T) : Bool :=
  (portTime s p n).all fun existing => existing ≤ t

section OnePort

variable {s : Replica T N} {p : ProviderId}

omit [LinearOrder T] in
theorem lookup_provider (h : OneProvider s p) : ∃ d, s.deviceDescs.lookup p = some d := by
  rw [← mem_keys_iff, h.provider]
  exact List.mem_singleton_self p

variable {d : DeviceDescriptions T N}

theorem composePort_provider (hkeys : s.deviceDescs.keys = [p])
    (hd : s.deviceDescs.lookup p = some d) {n : N} {desc : Timestamped T (PortDescription N)}
    (hdesc : d.getPortDesc n = some desc) :
    ∃ port, s.composePort hash n = some port ∧
      portOf port = ⟨n, desc.value.isEnabled, desc.value.type, desc.value.portSpeed⟩ := by
  have horder : hash.order [p] = [p] := List.perm_singleton.mp (hash.perm [p])
  have hpick : s.pickPrimaryPid hash = some p := by
    rcases s.pickPrimaryPid_cases hash with ⟨hnil, _⟩ | ⟨q, hq, hpick⟩
    · rw [hkeys] at hnil
      cases hnil
    · rw [hkeys] at hq
      rw [hpick, List.mem_singleton.mp hq]
  rw [Replica.composePort]
  rw [hpick, Option.bind_some, hd, Option.map_some, hkeys, horder, hdesc]
  have hothers : [p].filter (fun q => q ≠ p) = [] := by simp
  rw [hothers]
  exact ⟨_, rfl, rfl⟩

omit [LinearOrder T] in
theorem getPortDesc_putPortDesc (d : DeviceDescriptions T N)
    (newDesc : Timestamped T (PortDescription N)) (n : N) :
    ∃ annotations, (d.putPortDesc newDesc).getPortDesc n =
      if n = newDesc.value.portNumber then
        some ⟨{ newDesc.value with annotations := annotations }, newDesc.timestamp⟩
      else d.getPortDesc n := by
  unfold DeviceDescriptions.putPortDesc DeviceDescriptions.getPortDesc
  cases d.portDescs.lookup newDesc.value.portNumber with
  | none => exact ⟨newDesc.value.annotations, lookup_store _ _ _ _⟩
  | some oldOne =>
    exact ⟨union oldOne.value.annotations newDesc.value.annotations, lookup_store _ _ _ _⟩

structure Processed (s s' : Replica T N) (p : ProviderId) (t : T)
    (xs : List (PortDescription N)) : Prop where
  provider : OneProvider s' p
  removalRequest : s'.removalRequest = s.removalRequest
  state : ∀ n, portState s' n =
    if isCurrent s p n t then (listed xs n).or (portState s n) else portState s n
  time : ∀ n, portTime s' p n =
    if isCurrent s p n t ∧ (listed xs n).isSome then some t else portTime s p n

section

omit [LinearOrder T]

theorem updatePort_state {oldPort newPort : Port N} {n : N}
    (hold : s.devicePorts.lookup n = some oldPort) (hnumber : oldPort.number = n)
    (hnew : newPort.number = n) (n' : N) :
    ((s.updatePort oldPort newPort).devicePorts.lookup n').map portOf =
      if n' = n then some (portOf newPort) else (s.devicePorts.lookup n').map portOf := by
  rw [Replica.updatePort]
  split_ifs with hchanged hn hn
  · dsimp only
    rw [hnumber, lookup_insert, if_pos hn, Option.map_some]
  · dsimp only
    rw [hnumber, lookup_insert, if_neg hn]
  · rw [hn, hold, Option.map_some]
    simp only [not_or, not_not, ne_eq] at hchanged
    obtain ⟨henabled, htype, hspeed, _⟩ := hchanged
    unfold portOf
    rw [henabled, htype, hspeed, hnumber, hnew]
  · rfl

theorem portTime_store
    (hd : s.deviceDescs.lookup p = some d) (newDesc : Timestamped T (PortDescription N)) (n : N) :
    (((store s.deviceDescs p (d.putPortDesc newDesc)).lookup p).bind
        fun d => d.getPortDesc n).map Timestamped.timestamp =
      if n = newDesc.value.portNumber then some newDesc.timestamp else portTime s p n := by
  obtain ⟨annotations, hput⟩ := getPortDesc_putPortDesc d newDesc n
  rw [portTime]
  rw [lookup_store, if_pos rfl, Option.bind_some, hput, hd, Option.bind_some]
  split_ifs <;> rfl

theorem updatePort_descs (s : Replica T N) (oldPort newPort : Port N) :
    (s.updatePort oldPort newPort).deviceDescs = s.deviceDescs ∧
      (s.updatePort oldPort newPort).devices = s.devices ∧
      (s.updatePort oldPort newPort).removalRequest = s.removalRequest := by
  rw [Replica.updatePort]
  split_ifs <;> exact ⟨rfl, rfl, rfl⟩

theorem updatePort_filed (h : OneProvider s p)
    {oldPort newPort : Port N} (hnumber : newPort.number = oldPort.number) (n : N) (port : Port N)
    (hport : (s.updatePort oldPort newPort).devicePorts.lookup n = some port) :
    port.number = n := by
  rw [Replica.updatePort] at hport
  split_ifs at hport
  · dsimp only at hport
    rw [lookup_insert] at hport
    split_ifs at hport with hn
    · obtain rfl := Option.some.inj hport
      rw [hnumber, hn]
    · exact h.filed n port hport
  · exact h.filed n port hport

end

variable {x : PortDescription N}

theorem processed_of_accepted {s s' : Replica T N} (hd : s.deviceDescs.lookup p = some d) {t : T}
    (hcurrent : isCurrent s p x.portNumber t) (hprovider : OneProvider s' p)
    (hremoval : s'.removalRequest = s.removalRequest)
    (hdescs : s'.deviceDescs = store s.deviceDescs p (d.putPortDesc ⟨x, t⟩))
    (hstate : ∀ n, portState s' n =
      if n = x.portNumber then some (described x) else portState s n) :
    Processed s s' p t [x] := by
  refine ⟨hprovider, hremoval, fun n => ?_, fun n => ?_⟩
  · rw [hstate]
    by_cases hn : n = x.portNumber
    · subst hn
      simp [listed, hcurrent]
    · have hlisted : listed [x] n = none := by simp [listed, Ne.symm hn]
      rw [if_neg hn, hlisted, Option.none_or, ite_self]
  · have htime := portTime_store hd ⟨x, t⟩ n
    rw [← hdescs] at htime
    rw [portTime, htime]
    by_cases hn : n = x.portNumber
    · subst hn
      simp [listed, hcurrent]
    · have hlisted : listed [x] n = none := by simp [listed, Ne.symm hn]
      simp [hn, hlisted]

theorem processed_of_outdated (h : OneProvider s p) {t : T}
    (hcurrent : ¬ isCurrent s p x.portNumber t) :
    Processed s s p t [x] := by
  have hlisted : ∀ n, isCurrent s p n t → listed [x] n = none := by
    intro n hn
    have hne : x.portNumber ≠ n := fun heq => hcurrent (heq ▸ hn)
    simp [listed, hne]
  refine ⟨h, rfl, fun n => ?_, fun n => ?_⟩
  · split_ifs with hn
    · rw [hlisted n hn, Option.none_or]
    · rfl
  · split_ifs with hn
    · rw [hlisted n hn.1] at hn
      exact absurd hn.2 Bool.false_ne_true
    · rfl

theorem processPort_processed (h : OneProvider s p) (t : T) (hx : x.isRemoved = false) :
    Processed s (s.processPort hash p t x) p t [x] := by
  obtain ⟨d, hd⟩ := lookup_provider h
  have hcurrent : ((d.getPortDesc x.portNumber).all fun existing => existing.timestamp ≤ t) =
      isCurrent s p x.portNumber t := by
    unfold isCurrent portTime
    rw [hd, Option.bind_some]
    cases d.getPortDesc x.portNumber <;> rfl
  rw [Replica.processPort]
  rw [hd]
  dsimp only
  rw [hcurrent]
  by_cases hcur : isCurrent s p x.portNumber t
  · rw [if_pos hcur]
    generalize hs₁ : ({ s with
      deviceDescs := store s.deviceDescs p (d.putPortDesc ⟨x, t⟩) } : Replica T N) = s₁
    have hdescs : s₁.deviceDescs = store s.deviceDescs p (d.putPortDesc ⟨x, t⟩) := by rw [← hs₁]
    have hports : s₁.devicePorts = s.devicePorts := by rw [← hs₁]
    have hkeys : s₁.deviceDescs.keys = [p] := by
      rw [hdescs, keys_store, if_pos ((AList.lookup_isSome).mp (by rw [hd]; rfl)), h.provider]
    have h₁ : OneProvider s₁ p := by
      refine ⟨by rw [← hs₁]; exact h.known, hkeys, fun n port hport => ?_⟩
      rw [hports] at hport
      exact h.filed n port hport
    have hremoval : s₁.removalRequest = s.removalRequest := by rw [← hs₁]
    obtain ⟨annotations, hput⟩ := getPortDesc_putPortDesc d ⟨x, t⟩ x.portNumber
    rw [if_pos rfl] at hput
    obtain ⟨port, hcompose, hport⟩ := composePort_provider hash hkeys
      (by rw [hdescs, lookup_store, if_pos rfl]) hput
    have hport : portOf port = described x := hport
    have hnumber : port.number = x.portNumber := congrArg PortState.number hport
    rw [hcompose, hx]
    cases hold : s.devicePorts.lookup x.portNumber with
    | none =>
      refine processed_of_accepted hd hcur ⟨h₁.known, hkeys, fun n q hq => ?_⟩ hremoval hdescs
        fun n => ?_
      · change (s₁.devicePorts.insert port.number port).lookup n = some q at hq
        rw [lookup_insert] at hq
        split_ifs at hq with hn
        · rw [hn, Option.some.inj hq]
        · exact h₁.filed n q hq
      · change ((s₁.devicePorts.insert port.number port).lookup n).map portOf = _
        rw [lookup_insert, hnumber, hports]
        split_ifs
        · rw [Option.map_some, hport]
        · rfl
    | some oldPort =>
      have holdNumber := h.filed _ _ hold
      obtain ⟨hsame, hdevices, hremoval'⟩ := updatePort_descs s₁ oldPort port
      refine processed_of_accepted hd hcur ⟨?_, ?_, ?_⟩ (hremoval'.trans hremoval)
        (hsame.trans hdescs) fun n => ?_
      · change (s₁.updatePort oldPort port).devices.isSome
        rw [hdevices]
        exact h₁.known
      · change (s₁.updatePort oldPort port).deviceDescs.keys = [p]
        rw [hsame, hkeys]
      · exact updatePort_filed h₁ (hnumber.trans holdNumber.symm)
      · rw [← hports] at hold
        have hstate := updatePort_state hold holdNumber hnumber n
        rw [hport, hports] at hstate
        exact hstate
  · rw [if_neg hcur]
    exact processed_of_outdated h hcur

end OnePort

section OneList

variable {p : ProviderId} {xs : List (PortDescription N)}

theorem isCurrent_of_processed {s s' : Replica T N} {t : T} (h : Processed s s' p t xs) (n : N) :
    isCurrent s' p n t = isCurrent s p n t := by
  unfold isCurrent
  rw [h.time]
  split_ifs with hn
  · have hcurrent := hn.1
    rw [isCurrent] at hcurrent
    rw [hcurrent, Option.all_some]
    exact decide_eq_true le_rfl
  · rfl

theorem processed_append {s s' s'' : Replica T N} {t : T}
    {x : PortDescription N} (h : Processed s s' p t [x])
    (h' : Processed s' s'' p t xs) : Processed s s'' p t (x :: xs) := by
  have hlisted : ∀ n, listed (x :: xs) n = (listed xs n).or (listed [x] n) := by
    intro n
    simp [listed]
  refine ⟨h'.provider, h'.removalRequest.trans h.removalRequest, fun n => ?_, fun n => ?_⟩
  · rw [h'.state, isCurrent_of_processed h, h.state, hlisted]
    split_ifs
    · rw [Option.or_assoc]
    · rfl
  · rw [h'.time, isCurrent_of_processed h, h.time, hlisted, Option.isSome_or]
    by_cases hcurrent : isCurrent s p n t
    · by_cases hxs : (listed xs n).isSome <;> simp [hcurrent, hxs]
    · simp [hcurrent]

theorem processPorts_processed {s : Replica T N} (h : OneProvider s p) (t : T)
    (hxs : ∀ x ∈ xs, x.isRemoved = false) :
    Processed s (xs.foldl (fun s x => s.processPort hash p t x) s) p t xs := by
  induction xs generalizing s with
  | nil => exact ⟨h, rfl, fun n => by simp [listed], fun n => by simp [listed]⟩
  | cons x xs ih =>
    rw [List.forall_mem_cons] at hxs
    have hhead := processPort_processed hash h t hxs.1
    exact processed_append hhead (ih hhead.provider hxs.2)

section

omit [LinearOrder T]

theorem lookup_pruneOldPorts (s : Replica T N) (processed : List N) (n : N) :
    (s.pruneOldPorts processed).devicePorts.lookup n =
      if n ∈ processed then s.devicePorts.lookup n else none := by
  have hfold : ∀ (entries : List (Sigma fun _ : N => Port N)) (ports : Table N (Port N)),
      (entries.foldl (fun ports e => if e.1 ∈ processed then ports else ports.erase e.1)
        ports).lookup n =
        if n ∈ entries.keys ∧ n ∉ processed then none else ports.lookup n := by
    intro entries
    induction entries with
    | nil => intro ports; simp
    | cons e entries ih =>
      intro ports
      rw [List.foldl_cons, ih]
      by_cases he : e.1 ∈ processed
      · rw [if_pos he]
        by_cases hn : n = e.1
        · rw [hn, List.keys_cons]
          simp [he]
        · rw [List.keys_cons]
          simp [hn]
      · rw [if_neg he, lookup_erase]
        by_cases hn : n = e.1
        · rw [hn, List.keys_cons]
          simp [he]
        · rw [List.keys_cons]
          simp [hn]
  rw [Replica.pruneOldPorts]
  dsimp only
  rw [hfold]
  by_cases hn : n ∈ processed
  · simp [hn]
  · rw [if_neg hn]
    split_ifs with hkey
    · rfl
    · have habsent : n ∉ s.devicePorts := fun hmem => hkey ⟨AList.mem_keys.mp hmem, hn⟩
      exact AList.lookup_eq_none.mpr habsent

theorem listed_isSome (xs : List (PortDescription N)) (n : N) :
    (listed xs n).isSome ↔ n ∈ xs.map PortDescription.portNumber := by
  induction xs with
  | nil => simp [listed]
  | cons x xs ih =>
    rw [listed, Option.isSome_or, Bool.or_eq_true, ih, List.map_cons, List.mem_cons]
    by_cases hx : x.portNumber = n
    · simp [hx]
    · simp [hx, Ne.symm hx]

end

structure Updated (s s' : Replica T N) (p : ProviderId) (m : PortList T N) : Prop where
  provider : OneProvider s' p
  removalRequest : s'.removalRequest = s.removalRequest
  state : ∀ n, portState s' n = if (listed m.value n).isSome then
    if isCurrent s p n m.timestamp then listed m.value n else portState s n else none
  time : ∀ n, portTime s' p n = if isCurrent s p n m.timestamp ∧ (listed m.value n).isSome then
    some m.timestamp else portTime s p n

theorem updatePorts_cases {s : Replica T N} (h : OneProvider s p)
    {m : PortList T N} (hm : ∀ x ∈ m.value, x.isRemoved = false) :
    (s.isDeviceRemoved m.timestamp ∧ s.updatePortsInternal hash p m = s) ∨
    (¬ s.isDeviceRemoved m.timestamp ∧ Updated s (s.updatePortsInternal hash p m) p m) := by
  obtain ⟨d, hd⟩ := lookup_provider h
  have hdevices : ¬ s.devices.isNone := by
    rw [Option.isNone_iff_eq_none, ← ne_eq, Option.ne_none_iff_isSome]
    exact h.known
  rw [Replica.updatePortsInternal]
  by_cases hremoved : s.isDeviceRemoved m.timestamp
  · rw [if_pos (Or.inr (Or.inl hremoved))]
    exact Or.inl ⟨hremoved, rfl⟩
  · rw [if_neg (by simp [hdevices, hremoved, hd])]
    have hprocessed := processPorts_processed hash h m.timestamp hm
    refine Or.inr ⟨hremoved, ⟨hprocessed.provider.known, hprocessed.provider.provider,
      fun n port hport => ?_⟩, hprocessed.removalRequest, fun n => ?_, hprocessed.time⟩
    · rw [lookup_pruneOldPorts] at hport
      split_ifs at hport
      exact hprocessed.provider.filed n port hport
    · rw [portState]
      rw [lookup_pruneOldPorts]
      by_cases hn : (listed m.value n).isSome
      · rw [if_pos ((listed_isSome m.value n).mp hn), if_pos hn]
        have hstate := hprocessed.state n
        rw [Option.or_of_isSome hn] at hstate
        exact hstate
      · rw [if_neg (fun hmem => hn ((listed_isSome m.value n).mpr hmem)), if_neg hn]
        rfl

end OneList

section Orders

structure FullLists (s : Replica T N) (p : ProviderId) (ms : List (PortList T N)) : Prop where
  provider : OneProvider s p
  unflagged : ∀ m ∈ ms, ∀ x ∈ m.value, x.isRemoved = false
  distinct : (ms.map Timestamped.timestamp).Nodup

structure Newest (ms : List (PortList T N)) (g : PortList T N) : Prop where
  mem : g ∈ ms
  max : ∀ m ∈ ms, m.timestamp ≤ g.timestamp

def HasPorts (s : Replica T N) (m : PortList T N) : Prop :=
  ∀ n, portState s n = listed m.value n

/-- The lists that no removal of the device supersedes have the ports of the newest one on them,
and besides only ports for which they are outdated. Where the newest list is outdated itself, the
port already is as it says. -/
structure Agree (s : Replica T N) (p : ProviderId) (ms : List (PortList T N)) (g : PortList T N) :
    Prop where
  outdated : ∀ n, (listed g.value n).isSome →
    isCurrent s p n g.timestamp ∨ portState s n = listed g.value n
  kept : ∀ m ∈ ms, ¬ s.isDeviceRemoved m.timestamp → ∀ n, (listed g.value n).isSome →
    (listed m.value n).isSome
  added : ∀ m ∈ ms, ¬ s.isDeviceRemoved m.timestamp → ∀ n, (listed m.value n).isSome →
    isCurrent s p n m.timestamp → (listed g.value n).isSome

def SamePorts (s : Replica T N) (p : ProviderId) (ms : List (PortList T N)) (g : PortList T N) :
    Prop :=
  if s.isDeviceRemoved g.timestamp then HasPorts s g else Agree s p ms g

def updatePorts (s : Replica T N) (p : ProviderId) (ms : List (PortList T N)) : Replica T N :=
  (replicaMachine hash).run s (ms.map (Message.portEvent p))

theorem updatePorts_append (s : Replica T N) (p : ProviderId) (ms ms' : List (PortList T N)) :
    updatePorts hash s p (ms ++ ms') = updatePorts hash (updatePorts hash s p ms) p ms' := by
  unfold updatePorts
  rw [List.map_append, run_append]

theorem updatePorts_cons (s : Replica T N) (p : ProviderId) (m : PortList T N)
    (ms : List (PortList T N)) :
    updatePorts hash s p (m :: ms) =
      updatePorts hash (s.updatePortsInternal hash p m) p ms := rfl

variable {s : Replica T N} {p : ProviderId} {ms : List (PortList T N)}

theorem updatePorts_frame (h : OneProvider s p)
    (hms : ∀ m ∈ ms, ∀ x ∈ m.value, x.isRemoved = false) :
    OneProvider (updatePorts hash s p ms) p ∧
      (updatePorts hash s p ms).removalRequest = s.removalRequest ∧
      ∀ n t, isCurrent s p n t → (∀ m ∈ ms, ¬ s.isDeviceRemoved m.timestamp →
        (listed m.value n).isSome → m.timestamp ≤ t) →
        isCurrent (updatePorts hash s p ms) p n t := by
  induction ms generalizing s with
  | nil => exact ⟨h, rfl, fun _ _ hcurrent _ => hcurrent⟩
  | cons m ms ih =>
    rw [List.forall_mem_cons] at hms
    rw [updatePorts_cons]
    rcases updatePorts_cases hash h hms.1 with ⟨_, hsame⟩ | ⟨hremoved, hupdated⟩
    · rw [hsame]
      obtain ⟨hprovider, hremoval, htimes⟩ := ih h hms.2
      exact ⟨hprovider, hremoval, fun n t hcurrent hle => htimes n t hcurrent fun m' hm' =>
        hle m' (List.mem_cons_of_mem m hm')⟩
    · obtain ⟨hprovider, hremoval, htimes⟩ := ih hupdated.provider hms.2
      refine ⟨hprovider, hremoval.trans hupdated.removalRequest, fun n t hcurrent hle => ?_⟩
      refine htimes n t ?_ fun m' hm' hremoved' => ?_
      · rw [isCurrent]
        rw [hupdated.time]
        split_ifs with hn
        · exact decide_eq_true (hle m List.mem_cons_self hremoved hn.2)
        · exact hcurrent
      · rw [Replica.isDeviceRemoved_congr hupdated.removalRequest] at hremoved'
        exact hle m' (List.mem_cons_of_mem m hm') hremoved'

theorem updatePorts_superseded (h : OneProvider s p)
    (hms : ∀ m ∈ ms, ∀ x ∈ m.value, x.isRemoved = false)
    (hremoved : ∀ m ∈ ms, s.isDeviceRemoved m.timestamp) : updatePorts hash s p ms = s := by
  induction ms with
  | nil => rfl
  | cons m ms ih =>
    rw [List.forall_mem_cons] at hms hremoved
    rw [updatePorts_cons]
    rcases updatePorts_cases hash h hms.1 with ⟨_, hsame⟩ | ⟨hnot, _⟩
    · rw [hsame]
      exact ih hms.2 hremoved.2
    · exact absurd hremoved.1 hnot

variable {n : N}

theorem isCurrent_of_le {t t' : T} (h : isCurrent s p n t) (hle : t ≤ t') : isCurrent s p n t' := by
  unfold isCurrent at h ⊢
  cases hp : portTime s p n with
  | none => rfl
  | some existing =>
    rw [hp, Option.all_some, decide_eq_true_iff] at h
    exact decide_eq_true (h.trans hle)

theorem isCurrent_of_updatePorts (h : OneProvider s p)
    (hms : ∀ m ∈ ms, ∀ x ∈ m.value, x.isRemoved = false) {t : T}
    (hcurrent : isCurrent (updatePorts hash s p ms) p n t) : isCurrent s p n t := by
  induction ms generalizing s with
  | nil => exact hcurrent
  | cons m ms ih =>
    rw [List.forall_mem_cons] at hms
    rw [updatePorts_cons] at hcurrent
    rcases updatePorts_cases hash h hms.1 with ⟨_, hsame⟩ | ⟨_, hupdated⟩
    · rw [hsame] at hcurrent
      exact ih h hms.2 hcurrent
    · have hnext := ih hupdated.provider hms.2 hcurrent
      rw [isCurrent] at hnext
      rw [hupdated.time] at hnext
      split_ifs at hnext with hn
      · rw [Option.all_some, decide_eq_true_iff] at hnext
        exact isCurrent_of_le hn.1 hnext
      · exact hnext

theorem portState_of_outdated (h : OneProvider s p)
    (hms : ∀ m ∈ ms, ∀ x ∈ m.value, x.isRemoved = false)
    (houtdated : ∀ m ∈ ms, ¬ s.isDeviceRemoved m.timestamp → (listed m.value n).isSome →
      ¬ isCurrent s p n m.timestamp)
    (habsent : ∀ m ∈ ms, ¬ s.isDeviceRemoved m.timestamp → ¬ (listed m.value n).isSome →
      portState s n = none) :
    portState (updatePorts hash s p ms) n = portState s n := by
  induction ms generalizing s with
  | nil => rfl
  | cons m ms ih =>
    rw [List.forall_mem_cons] at hms houtdated habsent
    rw [updatePorts_cons]
    rcases updatePorts_cases hash h hms.1 with ⟨_, hsame⟩ | ⟨hremoved, hupdated⟩
    · rw [hsame]
      exact ih h hms.2 houtdated.2 habsent.2
    · have hstate : portState (s.updatePortsInternal hash p m) n = portState s n := by
        rw [hupdated.state]
        split_ifs with hn hcurrent
        · exact absurd hcurrent (houtdated.1 hremoved hn)
        · rfl
        · exact (habsent.1 hremoved hn).symm
      have htime : ∀ t, isCurrent (s.updatePortsInternal hash p m) p n t = isCurrent s p n t := by
        intro t
        unfold isCurrent
        rw [hupdated.time, if_neg fun hboth => houtdated.1 hremoved hboth.2 hboth.1]
      rw [← hstate]
      refine ih hupdated.provider hms.2 (fun m' hm' hremoved' hn => ?_)
        fun m' hm' hremoved' hn => ?_
      · rw [Replica.isDeviceRemoved_congr hupdated.removalRequest] at hremoved'
        rw [htime]
        exact houtdated.2 m' hm' hremoved' hn
      · rw [Replica.isDeviceRemoved_congr hupdated.removalRequest] at hremoved'
        rw [hstate]
        exact habsent.2 m' hm' hremoved' hn

variable {g : PortList T N}

omit [DecidableEq N] in
theorem older_of_distinct (hg : Newest ms g)
    {before after : List (PortList T N)} (hperm : (before ++ g :: after).Perm ms)
    (hdistinct : (ms.map Timestamped.timestamp).Nodup) :
    ∀ m ∈ after, m.timestamp < g.timestamp := by
  intro m hm
  have hnodup := (hperm.map Timestamped.timestamp).nodup_iff.mpr hdistinct
  have hmem : m ∈ before ++ g :: after :=
    List.mem_append_right _ (List.mem_cons_of_mem g hm)
  refine lt_of_le_of_ne (hg.max m (hperm.subset hmem)) fun heq => ?_
  rw [List.map_append, List.map_cons] at hnodup
  have htail := List.nodup_cons.mp (List.nodup_append.mp hnodup).2.1
  exact htail.1 (heq ▸ List.mem_map_of_mem hm)

theorem portState_of_agree (h : OneProvider s p) {before after : List (PortList T N)}
    (hms : ∀ m ∈ before ++ g :: after, ∀ x ∈ m.value, x.isRemoved = false)
    (hremoved : ¬ s.isDeviceRemoved g.timestamp) (hmax : ∀ m ∈ before, m.timestamp ≤ g.timestamp)
    (hafter : ∀ m ∈ after, m.timestamp < g.timestamp) (hagree : Agree s p (before ++ g :: after) g)
    (n : N) : portState (updatePorts hash s p (before ++ g :: after)) n = listed g.value n := by
  have hbefore : ∀ m ∈ before, ∀ x ∈ m.value, x.isRemoved = false :=
    fun m hm => hms m (List.mem_append_left _ hm)
  have hrest : ∀ m ∈ after, m ∈ before ++ g :: after :=
    fun m hm => List.mem_append_right _ (List.mem_cons_of_mem g hm)
  have hg : ∀ x ∈ g.value, x.isRemoved = false :=
    hms g (List.mem_append_right _ List.mem_cons_self)
  by_cases hkeep : (listed g.value n).isSome ∧ ¬ isCurrent s p n g.timestamp
  · -- no list is new enough for the port
    have hstate := (hagree.outdated n hkeep.1).resolve_left hkeep.2
    rw [← hstate]
    refine portState_of_outdated hash h hms (fun m hm _ _ hcurrent => ?_) fun m hm hnot hn => ?_
    · refine hkeep.2 (isCurrent_of_le hcurrent ?_)
      rcases List.mem_append.mp hm with hm | hm
      · exact hmax m hm
      · rcases List.mem_cons.mp hm with rfl | hm
        · exact le_rfl
        · exact (hafter m hm).le
    · exact absurd (hagree.kept m hm hnot n hkeep.1) hn
  · obtain ⟨hprovider, hremoval, htimes⟩ := updatePorts_frame hash h hbefore
    rw [updatePorts_append, updatePorts_cons]
    rcases updatePorts_cases hash hprovider hg with ⟨hyes, _⟩ | ⟨_, hupdated⟩
    · rw [Replica.isDeviceRemoved_congr hremoval] at hyes
      exact absurd hyes hremoved
    · have hcongr := Replica.isDeviceRemoved_congr (hupdated.removalRequest.trans hremoval)
      have hold : ∀ t, isCurrent ((updatePorts hash s p before).updatePortsInternal hash p g) p n t →
          isCurrent s p n t := by
        intro t hcurrent
        have hone : isCurrent (updatePorts hash (updatePorts hash s p before) p [g]) p n t :=
          hcurrent
        have hflags : ∀ m ∈ [g], ∀ x ∈ m.value, x.isRemoved = false := by simpa using hg
        exact isCurrent_of_updatePorts hash h hbefore
          (isCurrent_of_updatePorts hash hprovider hflags hone)
      by_cases hn : (listed g.value n).isSome
      · have hcurrent : isCurrent (updatePorts hash s p before) p n g.timestamp := by
          apply htimes n g.timestamp
          · by_contra hnot
            exact hkeep ⟨hn, hnot⟩
          · exact fun m hm _ _ => hmax m hm
        have hstate := hupdated.state n
        have htime := hupdated.time n
        rw [if_pos hn, if_pos hcurrent] at hstate
        rw [if_pos ⟨hcurrent, hn⟩] at htime
        rw [← hstate]
        refine portState_of_outdated hash hupdated.provider
          (fun m hm => hms m (hrest m hm)) (fun m hm _ _ hcurrent' => ?_) fun m hm hnot hn' => ?_
        · rw [isCurrent] at hcurrent'
          rw [htime, Option.all_some, decide_eq_true_iff] at hcurrent'
          exact absurd hcurrent' (not_le.mpr (hafter m hm))
        · rw [hcongr] at hnot
          exact absurd (hagree.kept m (hrest m hm) hnot n hn) hn'
      · have hstate := hupdated.state n
        rw [if_neg hn] at hstate
        rw [Option.not_isSome_iff_eq_none.mp hn, ← hstate]
        refine portState_of_outdated hash hupdated.provider
          (fun m hm => hms m (hrest m hm)) (fun m hm hnot hn' hcurrent => ?_) fun _ _ _ _ => hstate
        rw [hcongr] at hnot
        exact hn (hagree.added m (hrest m hm) hnot n hn' (hold _ hcurrent))

theorem hasPorts_of_samePorts {ms ms' : List (PortList T N)}
    (h : FullLists s p ms) (hg : Newest ms g) (hsame : SamePorts s p ms g)
    (hperm : ms'.Perm ms) : HasPorts (updatePorts hash s p ms') g := by
  have hflags : ∀ m ∈ ms', ∀ x ∈ m.value, x.isRemoved = false :=
    fun m hm => h.unflagged m (hperm.subset hm)
  rw [SamePorts] at hsame
  by_cases hremoved : s.isDeviceRemoved g.timestamp
  · rw [if_pos hremoved] at hsame
    rw [updatePorts_superseded hash h.provider hflags fun m hm => ?_]
    · exact hsame
    · obtain ⟨r, hr, hlt⟩ := Replica.isDeviceRemoved_iff.mp hremoved
      exact Replica.isDeviceRemoved_iff.mpr ⟨r, hr, (hg.max m (hperm.subset hm)).trans_lt hlt⟩
  · rw [if_neg hremoved] at hsame
    obtain ⟨before, after, rfl⟩ := List.append_of_mem (hperm.mem_iff.mpr hg.mem)
    refine portState_of_agree hash h.provider hflags hremoved (fun m hm => ?_)
      (older_of_distinct hg hperm h.distinct) ⟨hsame.outdated, fun m hm => ?_, fun m hm => ?_⟩
    · exact hg.max m (hperm.subset (List.mem_append_left _ hm))
    · exact hsame.kept m (hperm.subset hm)
    · exact hsame.added m (hperm.subset hm)

theorem lost_port (h : FullLists s p ms) {m : PortList T N} (hm : m ∈ ms)
    (hnot : ¬ s.isDeviceRemoved m.timestamp) (hn : ¬ (listed m.value n).isSome) :
    ∃ ms', ms'.Perm ms ∧ portState (updatePorts hash s p ms') n = none := by
  obtain ⟨before, hperm⟩ := perm_ending ms [m] (by simp [hm]) (by simp)
  refine ⟨_, hperm, ?_⟩
  have hbefore : ∀ m' ∈ before, ∀ x ∈ m'.value, x.isRemoved = false :=
    fun m' hm' => h.unflagged m' (hperm.subset (List.mem_append_left _ hm'))
  obtain ⟨hprovider, hremoval, _⟩ := updatePorts_frame hash h.provider hbefore
  rw [← Replica.isDeviceRemoved_congr hremoval] at hnot
  rw [updatePorts_append, updatePorts_cons]
  rcases updatePorts_cases hash hprovider (h.unflagged m hm) with ⟨hyes, _⟩ | ⟨_, hupdated⟩
  · exact absurd hyes hnot
  · have hstate := hupdated.state n
    rw [if_neg hn] at hstate
    exact hstate

/-- The newest list with a port brings the port back when it is delivered last, unless it is
outdated for the port. -/
theorem added_port (h : FullLists s p ms) {m : PortList T N} (hm : m ∈ ms)
    (hnot : ¬ s.isDeviceRemoved m.timestamp) (hn : (listed m.value n).isSome)
    (hcurrent : isCurrent s p n m.timestamp)
    (hnewest : ∀ m' ∈ ms, ¬ s.isDeviceRemoved m'.timestamp → (listed m'.value n).isSome →
      m'.timestamp ≤ m.timestamp) :
    ∃ ms', ms'.Perm ms ∧ (portState (updatePorts hash s p ms') n).isSome := by
  obtain ⟨before, hperm⟩ := perm_ending ms [m] (by simp [hm]) (by simp)
  refine ⟨_, hperm, ?_⟩
  have hsub := fun m' hm' => hperm.subset (List.mem_append_left [m] (a := m') hm')
  have hbefore : ∀ m' ∈ before, ∀ x ∈ m'.value, x.isRemoved = false :=
    fun m' hm' => h.unflagged m' (hsub m' hm')
  obtain ⟨hprovider, hremoval, htimes⟩ := updatePorts_frame hash h.provider hbefore
  have hcurrent' := htimes n m.timestamp hcurrent fun m' hm' => hnewest m' (hsub m' hm')
  rw [← Replica.isDeviceRemoved_congr hremoval] at hnot
  rw [updatePorts_append, updatePorts_cons]
  rcases updatePorts_cases hash hprovider (h.unflagged m hm) with ⟨hyes, _⟩ | ⟨_, hupdated⟩
  · exact absurd hyes hnot
  · have hstate := hupdated.state n
    rw [if_pos hn, if_pos hcurrent'] at hstate
    change (portState ((updatePorts hash s p before).updatePortsInternal hash p m) n).isSome
    rw [hstate]
    exact hn

theorem samePorts_of_hasPorts (h : FullLists s p ms) (hg : Newest ms g)
    (hall : ∀ ms', ms'.Perm ms → HasPorts (updatePorts hash s p ms') g) :
    SamePorts s p ms g := by
  rw [SamePorts]
  split_ifs with hremoved
  · have hports := hall ms (List.Perm.refl ms)
    rw [updatePorts_superseded hash h.provider h.unflagged fun m hm => ?_] at hports
    · exact hports
    · obtain ⟨r, hr, hlt⟩ := Replica.isDeviceRemoved_iff.mp hremoved
      exact Replica.isDeviceRemoved_iff.mpr ⟨r, hr, (hg.max m hm).trans_lt hlt⟩
  · have hkept : ∀ m ∈ ms, ¬ s.isDeviceRemoved m.timestamp → ∀ n, (listed g.value n).isSome →
        (listed m.value n).isSome := by
      intro m hm hnot n hn
      by_contra habsent
      obtain ⟨ms', hperm, hlost⟩ := lost_port hash h hm hnot habsent
      rw [← hall ms' hperm n, hlost] at hn
      exact absurd hn Bool.false_ne_true
    refine ⟨fun n hn => ?_, hkept, fun m hm hnot n hn hcurrent => ?_⟩
    · by_contra hneither
      rw [not_or] at hneither
      have hports := hall ms (List.Perm.refl ms) n
      refine hneither.2 (Eq.trans (Eq.symm ?_) hports)
      refine portState_of_outdated hash h.provider h.unflagged (fun m hm _ _ hcurrent => ?_)
        fun m hm hnot hn' => absurd (hkept m hm hnot n hn) hn'
      exact hneither.1 (isCurrent_of_le hcurrent (hg.max m hm))
    · have hlists : (ms.filter fun m' => ¬ s.isDeviceRemoved m'.timestamp ∧
          (listed m'.value n).isSome) ≠ [] := by
        refine List.ne_nil_of_mem (a := m) (List.mem_filter.mpr ⟨hm, ?_⟩)
        exact decide_eq_true ⟨hnot, hn⟩
      obtain ⟨last, hlast, hmax⟩ := exists_latest Timestamped.timestamp hlists
      have hle := hmax m (List.mem_filter.mpr ⟨hm, decide_eq_true ⟨hnot, hn⟩⟩)
      obtain ⟨hmem, hlast⟩ := List.mem_filter.mp hlast
      obtain ⟨hnot', hn'⟩ := of_decide_eq_true hlast
      obtain ⟨ms', hperm, hadded⟩ := added_port hash h hmem hnot' hn' (isCurrent_of_le hcurrent hle)
        fun m' hm' hr' hl' => hmax m' (List.mem_filter.mpr ⟨hm', decide_eq_true ⟨hr', hl'⟩⟩)
      rw [← hall ms' hperm n]
      exact hadded

/-- Every delivery order leaves the ports of the newest list exactly when the lists that are not
superseded agree on the ports. -/
theorem ports_iff {s : Replica T N} {p : ProviderId} {ms : List (PortList T N)}
    (h : FullLists s p ms) {g : PortList T N} (hg : Newest ms g) :
    (∀ ms', ms'.Perm ms → HasPorts (updatePorts hash s p ms') g) ↔ SamePorts s p ms g :=
  ⟨samePorts_of_hasPorts hash h hg, fun hsame _ hperm =>
    hasPorts_of_samePorts hash h hg hsame hperm⟩

end Orders

section Regression

def copper (number : ℕ) : PortDescription ℕ := ⟨number, true, false, .COPPER, 1000, ∅⟩

theorem fullLists_announced {ms : List (PortList ℕ ℕ)}
    (hms : ∀ m ∈ ms, ∀ x ∈ m.value, x.isRemoved = false)
    (hdistinct : (ms.map Timestamped.timestamp).Nodup) : FullLists announced openflow ms := by
  refine ⟨⟨by decide, ?_, fun n port hport => ?_⟩, hms, hdistinct⟩
  · rw [AList.keys, entries_announced]
    rfl
  · cases hport

/-- An old list with one of the two ports arrives last. -/
theorem port_pruned_by_old_list :
    let ms : List (PortList ℕ ℕ) := [⟨[copper 1, copper 2], 2⟩, ⟨[copper 1], 1⟩]
    FullLists announced openflow ms ∧ Newest ms ⟨[copper 1, copper 2], 2⟩ ∧
      ¬ ∀ ms', ms'.Perm ms → HasPorts (updatePorts insertionOrder announced openflow ms')
        ⟨[copper 1, copper 2], 2⟩ := by
  intro ms
  refine ⟨fullLists_announced (by simp [ms, copper]) (by decide), ⟨List.mem_cons_self, ?_⟩,
    fun h => ?_⟩
  · simp [ms]
  · have hport := h ms (List.Perm.refl ms) 2
    exact absurd hport (by decide)

theorem ports_iff_once :
    let ms : List (PortList ℕ ℕ) := [⟨[copper 1, copper 2], 2⟩, ⟨[copper 2, copper 1], 1⟩]
    (∀ ms', ms'.Perm ms → HasPorts (updatePorts insertionOrder announced openflow ms')
      ⟨[copper 1, copper 2], 2⟩) ↔ SamePorts announced openflow ms ⟨[copper 1, copper 2], 2⟩ := by
  intro ms
  have hlists : FullLists announced openflow ms :=
    fullLists_announced (by simp [ms, copper]) (by decide)
  have hnewest : Newest ms ⟨[copper 1, copper 2], 2⟩ := ⟨List.mem_cons_self, by simp [ms]⟩
  exact ports_iff insertionOrder hlists hnewest

end Regression

end DeviceStorePorts

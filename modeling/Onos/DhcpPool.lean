import Mathlib.Algebra.Ring.Int.Defs
import Onos.Lib.InputMachine
import Onos.Lib.KeyedMap
import Onos.Lib.ResourcePool

/-! The addresses that a DHCP server leases: a map of assignments and a set of free addresses, which
five operations change one after the other. -/
namespace DhcpPool

open InputMachine KeyedMap ResourcePool

abbrev Ip4Address := BitVec 32

structure HostId where
  mac : BitVec 48
  vlanId : BitVec 16
  deriving DecidableEq, Repr

def UNTAGGED : BitVec 16 := -1

def HostId.hostId (mac : BitVec 48) : HostId := ⟨mac, UNTAGGED⟩

inductive AssignmentStatus where
  | Option_Requested
  | Option_RangeNotEnforced
  | Option_Assigned
  | Option_Expired
  deriving DecidableEq, Repr

structure IpAssignment where
  ipAddress : Ip4Address
  timestamp : ℤ
  leasePeriod : BitVec 32
  subnetMask : Option Ip4Address
  broadcast : Option Ip4Address
  dhcpServer : Option Ip4Address
  routerAddress : Option Ip4Address
  domainServer : Option Ip4Address
  assignmentStatus : AssignmentStatus
  deriving DecidableEq, Repr

structure DistributedDhcpStore where
  allocationMap : Table HostId IpAssignment
  freeIPPool : Finset Ip4Address
  startIPRange : Ip4Address
  endIPRange : Ip4Address
  timeoutForPendingAssignments : BitVec 32

structure Iteration where
  order : Finset Ip4Address → List Ip4Address
  mem_order : ∀ free a, a ∈ order free ↔ a ∈ free

section Operations

variable (s : DistributedDhcpStore)

def DistributedDhcpStore.ipWithinRange (ip : Ip4Address) : Prop :=
  s.startIPRange.toInt ≤ ip.toInt ∧ ip.toInt ≤ s.endIPRange.toInt

instance (ip : Ip4Address) : Decidable (s.ipWithinRange ip) :=
  inferInstanceAs (Decidable (_ ∧ _))

def DistributedDhcpStore.bind (hostId : HostId) (assignment : IpAssignment) : DistributedDhcpStore :=
  { s with allocationMap := s.allocationMap.insert hostId assignment }

def DistributedDhcpStore.removeFree (ip : Ip4Address) : DistributedDhcpStore :=
  { s with freeIPPool := s.freeIPPool.erase ip }

def DistributedDhcpStore.addFree (ip : Ip4Address) : DistributedDhcpStore :=
  if s.ipWithinRange ip then { s with freeIPPool := insert ip s.freeIPPool } else s

def DistributedDhcpStore.requested (ip : Ip4Address) (now : ℤ) : IpAssignment where
  ipAddress := ip
  timestamp := now
  leasePeriod := s.timeoutForPendingAssignments
  subnetMask := none
  broadcast := none
  dhcpServer := none
  routerAddress := none
  domainServer := none
  assignmentStatus := .Option_Requested

def DistributedDhcpStore.take (hostId : HostId) (ip : Ip4Address) (now : ℤ) : DistributedDhcpStore :=
  (s.removeFree ip).bind hostId (s.requested ip now)

def DistributedDhcpStore.fetchNextIP (pool : Iteration) : Option Ip4Address :=
  (pool.order s.freeIPPool).find? fun freeIP => freeIP ∈ s.freeIPPool

def DistributedDhcpStore.allocate (hostId : HostId) (now : ℤ) (pool : Iteration) :
    DistributedDhcpStore × Option Ip4Address :=
  match s.fetchNextIP pool with
  | some ip => (s.take hostId ip now, some ip)
  | none => (s, none)

def DistributedDhcpStore.suggestIP (hostId : HostId) (requestedIP : Ip4Address) (now : ℤ)
    (pool : Iteration) : DistributedDhcpStore × Option Ip4Address :=
  match s.allocationMap.lookup hostId with
  | some assignmentInfo =>
    match assignmentInfo.assignmentStatus with
    | .Option_RangeNotEnforced => (s, some assignmentInfo.ipAddress)
    | .Option_Assigned | .Option_Requested =>
      if s.ipWithinRange assignmentInfo.ipAddress then (s, some assignmentInfo.ipAddress)
      else s.allocate hostId now pool
    | .Option_Expired =>
      if assignmentInfo.ipAddress ∈ s.freeIPPool then
        (s.take hostId assignmentInfo.ipAddress now, some assignmentInfo.ipAddress)
      else s.allocate hostId now pool
  | none =>
    if requestedIP ≠ 0 ∧ requestedIP ∈ s.freeIPPool then
      (s.take hostId requestedIP now, some requestedIP)
    else s.allocate hostId now pool

def DistributedDhcpStore.assignIP (hostId : HostId) (ipAssignment : IpAssignment) (now : ℤ) :
    DistributedDhcpStore × Bool :=
  match s.allocationMap.lookup hostId with
  | none =>
    if ipAssignment.assignmentStatus = .Option_RangeNotEnforced then (s.bind hostId ipAssignment, true)
    else if ipAssignment.ipAddress ∈ s.freeIPPool then
      ((s.removeFree ipAssignment.ipAddress).bind hostId
        { ipAssignment with assignmentStatus := .Option_Assigned, timestamp := now }, true)
    else (s, false)
  | some existingAssignment =>
    if existingAssignment.ipAddress ≠ ipAssignment.ipAddress then (s, false)
    else
      match existingAssignment.assignmentStatus with
      | .Option_RangeNotEnforced => (s.bind hostId { existingAssignment with timestamp := now }, true)
      | .Option_Expired =>
        if ipAssignment.ipAddress ∈ s.freeIPPool then
          ((s.removeFree ipAssignment.ipAddress).bind hostId
            { existingAssignment with timestamp := now, assignmentStatus := .Option_Assigned }, true)
        else (s, false)
      | .Option_Assigned | .Option_Requested =>
        (s.bind hostId
          { existingAssignment with timestamp := now, assignmentStatus := .Option_Assigned }, true)

def DistributedDhcpStore.releaseIP (hostId : HostId) : DistributedDhcpStore × Option Ip4Address :=
  match s.allocationMap.lookup hostId with
  | none => (s, none)
  | some assignment =>
    if assignment.assignmentStatus = .Option_RangeNotEnforced then (s, none)
    else
      ((s.bind hostId { assignment with assignmentStatus := .Option_Expired }).addFree
        assignment.ipAddress, some assignment.ipAddress)

def DistributedDhcpStore.assignStaticIP (macAddress : BitVec 48) (ipAssignment : IpAssignment)
    (now : ℤ) : DistributedDhcpStore × Bool :=
  s.assignIP (.hostId macAddress) ipAssignment now

def DistributedDhcpStore.unbind (hostId : HostId) : DistributedDhcpStore :=
  { s with allocationMap := s.allocationMap.erase hostId }

def DistributedDhcpStore.removeStaticIP (macID : BitVec 48) : DistributedDhcpStore × Bool :=
  match s.allocationMap.lookup (.hostId macID) with
  | none => (s, false)
  | some assignment =>
    if assignment.assignmentStatus = .Option_RangeNotEnforced then (s.unbind (.hostId macID), true)
    else if assignment.leasePeriod.toInt < 0 then
      ((s.unbind (.hostId macID)).addFree assignment.ipAddress, true)
    else (s, false)

end Operations

def addressesFrom (first : ℤ) (n : ℕ) : List Ip4Address :=
  (List.range n).map fun i : ℕ => BitVec.ofInt 32 (first + i)

def populateIPPoolfromRange (timeoutForPendingAssignments : BitVec 32) (startIP endIP : Ip4Address) :
    Option DistributedDhcpStore :=
  if endIP.toInt = 2 ^ 31 - 1 then none
  else some
    { allocationMap := ∅
      freeIPPool := (addressesFrom startIP.toInt (endIP.toInt + 1 - startIP.toInt).toNat).toFinset
      startIPRange := startIP
      endIPRange := endIP
      timeoutForPendingAssignments }

inductive Event where
  | suggestIP (hostId : HostId) (requestedIP : Ip4Address) (now : ℤ) (pool : Iteration)
  | assignIP (hostId : HostId) (ipAssignment : IpAssignment) (now : ℤ)
  | releaseIP (hostId : HostId)
  | assignStaticIP (macAddress : BitVec 48) (ipAssignment : IpAssignment) (now : ℤ)
  | removeStaticIP (macID : BitVec 48)

def DistributedDhcpStore.step (s : DistributedDhcpStore) : Event → DistributedDhcpStore
  | .suggestIP hostId requestedIP now pool => (s.suggestIP hostId requestedIP now pool).1
  | .assignIP hostId ipAssignment now => (s.assignIP hostId ipAssignment now).1
  | .releaseIP hostId => (s.releaseIP hostId).1
  | .assignStaticIP macAddress ipAssignment now => (s.assignStaticIP macAddress ipAssignment now).1
  | .removeStaticIP macID => (s.removeStaticIP macID).1

def machine (s : DistributedDhcpStore) : Machine DistributedDhcpStore Event where
  initial := s
  enabled _ _ := True
  next := DistributedDhcpStore.step

def DistributedDhcpStore.bound (s : DistributedDhcpStore) (hostId : HostId) : Option Ip4Address :=
  (s.allocationMap.lookup hostId).bind fun assignment =>
    if assignment.assignmentStatus = .Option_Requested ∨
        assignment.assignmentStatus = .Option_Assigned then some assignment.ipAddress else none

/-- Every address of the range, and no other, is free or bound, and a bound one is not free and
bound to one host. -/
def DistributedDhcpStore.IsPartitioned (s : DistributedDhcpStore) : Prop :=
  Partitions s.ipWithinRange s.freeIPPool s.bound

def DistributedDhcpStore.IsStillFree (s : DistributedDhcpStore) (assignment : IpAssignment) : Prop :=
  assignment.assignmentStatus = .Option_Expired → s.ipWithinRange assignment.ipAddress →
    assignment.ipAddress ∈ s.freeIPPool

/-- No call gives back an address that the host had before and that somebody else has now. -/
def Harmless (s : DistributedDhcpStore) : Event → Prop
  | .releaseIP hostId => ∀ assignment, s.allocationMap.lookup hostId = some assignment →
      s.IsStillFree assignment
  | .removeStaticIP macID => ∀ assignment, s.allocationMap.lookup (.hostId macID) = some assignment →
      assignment.leasePeriod.toInt < 0 → s.IsStillFree assignment
  | _ => True

section Bindings

variable {s : DistributedDhcpStore} {hostId : HostId} {assignment : IpAssignment}

def boundBy (assignment : IpAssignment) : Option Ip4Address :=
  if assignment.assignmentStatus = .Option_Requested ∨ assignment.assignmentStatus = .Option_Assigned then
    some assignment.ipAddress
  else none

theorem bound_of_lookup (h : s.allocationMap.lookup hostId = some assignment) :
    s.bound hostId = boundBy assignment := by
  rw [DistributedDhcpStore.bound, h]
  rfl

theorem bound_of_none (h : s.allocationMap.lookup hostId = none) : s.bound hostId = none := by
  rw [DistributedDhcpStore.bound, h]
  rfl

theorem bound_bind (s : DistributedDhcpStore) (hostId : HostId) (assignment : IpAssignment) (k : HostId) :
    (s.bind hostId assignment).bound k = Function.update s.bound hostId (boundBy assignment) k := by
  rw [Function.update_apply, DistributedDhcpStore.bound, DistributedDhcpStore.bind, lookup_insert]
  split_ifs <;> rfl

theorem bound_unbind (s : DistributedDhcpStore) (hostId k : HostId) :
    (s.unbind hostId).bound k = Function.update s.bound hostId none k := by
  rw [Function.update_apply, DistributedDhcpStore.bound, DistributedDhcpStore.unbind, lookup_erase]
  split_ifs <;> rfl

section

variable (h : s.IsPartitioned)

include h

theorem partitioned_bind (hsame : boundBy assignment = s.bound hostId) :
    (s.bind hostId assignment).IsPartitioned := by
  apply Partitions.congr h
  intro k
  rw [bound_bind, hsame, Function.update_eq_self]

section

variable (hbound : s.bound hostId = none)

include hbound

theorem partitioned_bind_free {ip : Ip4Address}
    (hip : ip ∈ s.freeIPPool) (hassignment : boundBy assignment = some ip) :
    ((s.removeFree ip).bind hostId assignment).IsPartitioned := by
  apply Partitions.congr (Partitions.take h hbound hip)
  intro k
  rw [bound_bind, hassignment]
  rfl

theorem partitioned_take {ip : Ip4Address}
    (hip : ip ∈ s.freeIPPool) (now : ℤ) : (s.take hostId ip now).IsPartitioned :=
  partitioned_bind_free h hbound hip rfl

theorem partitioned_allocate (now : ℤ)
    (pool : Iteration) : (s.allocate hostId now pool).1.IsPartitioned := by
  unfold DistributedDhcpStore.allocate
  cases hfetch : s.fetchNextIP pool with
  | none => exact h
  | some ip =>
    have hip : ip ∈ s.freeIPPool := by
      have hfound := List.find?_some hfetch
      exact of_decide_eq_true hfound
    exact partitioned_take h hbound hip now

end

theorem partitioned_suggestIP (hostId : HostId) (requestedIP : Ip4Address)
    (now : ℤ) (pool : Iteration) : (s.suggestIP hostId requestedIP now pool).1.IsPartitioned := by
  unfold DistributedDhcpStore.suggestIP
  cases hlookup : s.allocationMap.lookup hostId with
  | none =>
    dsimp only
    have hbound := bound_of_none hlookup
    split_ifs with hfree
    · exact partitioned_take h hbound hfree.2 now
    · exact partitioned_allocate h hbound now pool
  | some assignment =>
    dsimp only
    have hbound := bound_of_lookup hlookup
    cases hstatus : assignment.assignmentStatus with
    | Option_RangeNotEnforced => exact h
    | Option_Requested =>
      rw [boundBy, if_pos (.inl hstatus)] at hbound
      have hrange : s.ipWithinRange assignment.ipAddress := (h.all _).mpr (.inr ⟨hostId, hbound⟩)
      dsimp only
      rw [if_pos hrange]
      exact h
    | Option_Assigned =>
      rw [boundBy, if_pos (.inr hstatus)] at hbound
      have hrange : s.ipWithinRange assignment.ipAddress := (h.all _).mpr (.inr ⟨hostId, hbound⟩)
      dsimp only
      rw [if_pos hrange]
      exact h
    | Option_Expired =>
      rw [boundBy, if_neg (by simp [hstatus])] at hbound
      dsimp only
      split_ifs with hfree
      · exact partitioned_take h hbound hfree now
      · exact partitioned_allocate h hbound now pool

theorem partitioned_assignIP (hostId : HostId) (ipAssignment : IpAssignment)
    (now : ℤ) : (s.assignIP hostId ipAssignment now).1.IsPartitioned := by
  unfold DistributedDhcpStore.assignIP
  cases hlookup : s.allocationMap.lookup hostId with
  | none =>
    have hbound := bound_of_none hlookup
    dsimp only
    split_ifs with hstatic hfree
    · apply partitioned_bind h
      rw [hbound, boundBy, if_neg (by simp [hstatic])]
    · exact partitioned_bind_free h hbound hfree rfl
    · exact h
  | some existing =>
    have hbound := bound_of_lookup hlookup
    dsimp only
    by_cases hother : existing.ipAddress ≠ ipAssignment.ipAddress
    · rw [if_pos hother]
      exact h
    · rw [if_neg hother]
      cases hstatus : existing.assignmentStatus with
      | Option_RangeNotEnforced =>
        apply partitioned_bind h
        rw [hbound, boundBy, boundBy, hstatus]
      | Option_Requested =>
        apply partitioned_bind h
        rw [hbound, boundBy, boundBy, if_pos (.inr rfl), if_pos (.inl hstatus)]
      | Option_Assigned =>
        apply partitioned_bind h
        rw [hbound, boundBy, boundBy, if_pos (.inr rfl), if_pos (.inr hstatus)]
      | Option_Expired =>
        rw [boundBy, if_neg (by simp [hstatus])] at hbound
        dsimp only
        split_ifs with hfree
        · apply partitioned_bind_free h hbound hfree
          rw [boundBy, if_pos (.inr rfl), not_not.mp hother]
        · exact h

theorem partitioned_giveBack {s' : DistributedDhcpStore}
    (hlookup : s.allocationMap.lookup hostId = some assignment)
    (hstatus : assignment.assignmentStatus ≠ .Option_RangeNotEnforced)
    (hpool : s'.freeIPPool = s.freeIPPool)
    (hrange : s'.startIPRange = s.startIPRange ∧ s'.endIPRange = s.endIPRange)
    (hbound : ∀ k, s'.bound k = Function.update s.bound hostId none k) :
    (s'.addFree assignment.ipAddress).IsPartitioned ↔ s.IsStillFree assignment := by
  have hwithin : s'.ipWithinRange = s.ipWithinRange := by
    funext ip
    rw [DistributedDhcpStore.ipWithinRange, DistributedDhcpStore.ipWithinRange, hrange.1, hrange.2]
  have hsame : s'.bound = Function.update s.bound hostId none := funext hbound
  have hpartition : ∀ free, Partitions s'.ipWithinRange free s'.bound ↔
      Partitions s.ipWithinRange free (Function.update s.bound hostId none) := by
    intro free
    rw [hwithin, hsame]
  have hin' : s'.ipWithinRange assignment.ipAddress ↔ s.ipWithinRange assignment.ipAddress := by
    rw [hwithin]
  have hadded : s.ipWithinRange assignment.ipAddress →
      ((s'.addFree assignment.ipAddress).IsPartitioned ↔ Partitions s.ipWithinRange
        (insert assignment.ipAddress s.freeIPPool) (Function.update s.bound hostId none)) := by
    intro hin
    rw [DistributedDhcpStore.addFree, if_pos (hin'.mpr hin), ← hpool]
    exact hpartition _
  have hkept : ¬ s.ipWithinRange assignment.ipAddress →
      ((s'.addFree assignment.ipAddress).IsPartitioned ↔ Partitions s.ipWithinRange
        s.freeIPPool (Function.update s.bound hostId none)) := by
    intro hout
    rw [DistributedDhcpStore.addFree, if_neg fun hin => hout (hin'.mp hin), ← hpool]
    exact hpartition _
  by_cases hexpired : assignment.assignmentStatus = .Option_Expired
  · have hnone : s.bound hostId = none := by
      rw [bound_of_lookup hlookup, boundBy, if_neg (by simp [hexpired])]
    by_cases hin : s.ipWithinRange assignment.ipAddress
    · rw [hadded hin, ← hnone, Function.update_eq_self, partitions_insert_iff h hin]
      exact ⟨fun hfree _ _ => hfree, fun hfree => hfree hexpired hin⟩
    · rw [hkept hin, ← hnone, Function.update_eq_self]
      exact ⟨fun _ _ hno => absurd hno hin, fun _ => h⟩
  · have hheld : s.bound hostId = some assignment.ipAddress := by
      rw [bound_of_lookup hlookup, boundBy, if_pos]
      cases hcase : assignment.assignmentStatus with
      | Option_Requested => exact .inl rfl
      | Option_Assigned => exact .inr rfl
      | Option_RangeNotEnforced => exact absurd hcase hstatus
      | Option_Expired => exact absurd hcase hexpired
    have hin : s.ipWithinRange assignment.ipAddress := (h.all _).mpr (.inr ⟨hostId, hheld⟩)
    rw [hadded hin]
    exact ⟨fun _ hno => absurd hno hexpired, fun _ => Partitions.giveBack h hheld⟩

theorem partitioned_releaseIP_iff (hostId : HostId) :
    (s.releaseIP hostId).1.IsPartitioned ↔ Harmless s (.releaseIP hostId) := by
  unfold DistributedDhcpStore.releaseIP Harmless
  cases hlookup : s.allocationMap.lookup hostId with
  | none =>
    refine iff_of_true h ?_
    intro assignment hno
    rw [hlookup] at hno
    cases hno
  | some assignment =>
    dsimp only
    rw [hlookup]
    simp only [Option.some.injEq, forall_eq']
    split_ifs with hstatic
    · refine ⟨fun _ hno => ?_, fun _ => h⟩
      rw [hstatic] at hno
      cases hno
    · apply partitioned_giveBack h hlookup hstatic
      · rfl
      · exact ⟨rfl, rfl⟩
      · intro k
        rw [bound_bind]
        rfl

theorem partitioned_removeStaticIP_iff (macID : BitVec 48) :
    (s.removeStaticIP macID).1.IsPartitioned ↔ Harmless s (.removeStaticIP macID) := by
  unfold DistributedDhcpStore.removeStaticIP Harmless
  cases hlookup : s.allocationMap.lookup (.hostId macID) with
  | none =>
    refine iff_of_true h ?_
    intro assignment hno
    rw [hlookup] at hno
    cases hno
  | some assignment =>
    dsimp only
    rw [hlookup]
    simp only [Option.some.injEq, forall_eq']
    split_ifs with hstatic hlease
    · refine ⟨fun _ _ hno => ?_, fun _ => ?_⟩
      · rw [hstatic] at hno
        cases hno
      · apply Partitions.congr h
        intro k
        have hnone : s.bound (.hostId macID) = none := by
          rw [bound_of_lookup hlookup, boundBy, if_neg (by simp [hstatic])]
        rw [bound_unbind, ← hnone, Function.update_eq_self]
    · have hpool : (s.unbind (.hostId macID)).freeIPPool = s.freeIPPool := rfl
      have hgive := partitioned_giveBack h hlookup hstatic hpool ⟨rfl, rfl⟩ (bound_unbind s _)
      exact hgive.trans ⟨fun hfree _ => hfree, fun hfree => hfree hlease⟩
    · exact ⟨fun _ hno => absurd hno hlease, fun _ => h⟩

theorem partitioned_step_iff (e : Event) : (s.step e).IsPartitioned ↔ Harmless s e := by
  cases e with
  | suggestIP hostId requestedIP now pool =>
    exact iff_of_true (partitioned_suggestIP h hostId requestedIP now pool) trivial
  | assignIP hostId ipAssignment now =>
    exact iff_of_true (partitioned_assignIP h hostId ipAssignment now) trivial
  | releaseIP hostId => exact partitioned_releaseIP_iff h hostId
  | assignStaticIP macAddress ipAssignment now =>
    exact iff_of_true (partitioned_assignIP h (.hostId macAddress) ipAssignment now) trivial
  | removeStaticIP macID => exact partitioned_removeStaticIP_iff h macID

end

end Bindings

section Populating

variable {timeoutForPendingAssignments : BitVec 32} {startIP endIP : Ip4Address}
  {s : DistributedDhcpStore}

theorem mem_addressesFrom (a first last : Ip4Address) :
    a ∈ addressesFrom first.toInt (last.toInt + 1 - first.toInt).toNat ↔
      first.toInt ≤ a.toInt ∧ a.toInt ≤ last.toInt := by
  have hfirst := first.le_toInt
  have hlast := last.toInt_lt
  rw [addressesFrom, List.mem_map]
  constructor
  · rintro ⟨i, hi, rfl⟩
    rw [List.mem_range] at hi
    rw [BitVec.toInt_ofInt, Int.bmod_eq_of_le (by omega) (by omega)]
    omega
  · rintro ⟨hle, hge⟩
    refine ⟨(a.toInt - first.toInt).toNat, ?_, ?_⟩
    · rw [List.mem_range]
      omega
    · have hsum : first.toInt + ((a.toInt - first.toInt).toNat : ℤ) = a.toInt := by omega
      rw [hsum, BitVec.ofInt_toInt]

theorem partitioned_populate
    (h : populateIPPoolfromRange timeoutForPendingAssignments startIP endIP = some s) :
    s.IsPartitioned := by
  unfold populateIPPoolfromRange at h
  split_ifs at h
  cases h
  have hnone : ∀ k, DistributedDhcpStore.bound
      ⟨∅, (addressesFrom startIP.toInt (endIP.toInt + 1 - startIP.toInt).toNat).toFinset, startIP, endIP,
        timeoutForPendingAssignments⟩ k = none := fun k => bound_of_none (AList.lookup_empty k)
  refine ⟨?_, ?_, ?_⟩
  · intro k k' a hk
    rw [hnone] at hk
    cases hk
  · intro k a hk
    rw [hnone] at hk
    cases hk
  · intro a
    rw [List.mem_toFinset, mem_addressesFrom]
    refine ⟨.inl, ?_⟩
    rintro (hin | ⟨k, hk⟩)
    · exact hin
    · rw [hnone] at hk
      cases hk

/-- The runs that keep every address of the range free or leased once are those whose calls are all
harmless. -/
theorem pool_partitioned_iff
    (h : populateIPPoolfromRange timeoutForPendingAssignments startIP endIP = some s) (es : List Event) :
    (∀ ys, ys <+: es → ((machine s).run s ys).IsPartitioned) ↔
      ((machine s).guarded Harmless).Valid s es := by
  apply invariant_iff DistributedDhcpStore.IsPartitioned
  · intro t e ht _
    exact partitioned_step_iff ht e
  · exact valid_of_enabled (fun _ _ => trivial) s es
  · exact partitioned_populate h

end Populating

def smallPool : DistributedDhcpStore :=
  ⟨∅, (addressesFrom 0x0a000001 2).toFinset, 0x0a000001#32, 0x0a000002#32, 60⟩

theorem populate_smallPool : populateIPPoolfromRange 60 0x0a000001#32 0x0a000002#32 = some smallPool := by
  rw [populateIPPoolfromRange, if_neg (by decide)]
  rfl

theorem pool_partitioned_iff_release :
    (∀ ys, ys <+: [.releaseIP (.hostId 1)] → ((machine smallPool).run smallPool ys).IsPartitioned) ↔
      ((machine smallPool).guarded Harmless).Valid smallPool [.releaseIP (.hostId 1)] :=
  pool_partitioned_iff populate_smallPool [.releaseIP (.hostId 1)]

/-- A host releases its address, another one requests it, and the first one releases it again. -/
def releasedTwice (pool : Iteration) : List Event :=
  [.suggestIP (.hostId 1) 0x0a000001#32 0 pool, .releaseIP (.hostId 1),
    .suggestIP (.hostId 2) 0x0a000001#32 1 pool, .releaseIP (.hostId 1)]

/-- The address is free while the other host has it. -/
theorem leased_and_free : ¬ ∀ (timeoutForPendingAssignments : BitVec 32) (startIP endIP : Ip4Address)
    (s : DistributedDhcpStore) (es : List Event),
    populateIPPoolfromRange timeoutForPendingAssignments startIP endIP = some s →
      ((machine s).run s es).IsPartitioned := by
  intro h
  let pool : Iteration := ⟨Finset.toList, fun free a => Finset.mem_toList⟩
  have hpartition := h 60 0x0a000001#32 0x0a000002#32 smallPool (releasedTwice pool) populate_smallPool
  have hbound : ((machine smallPool).run smallPool (releasedTwice pool)).bound (.hostId 2) =
      some 0x0a000001#32 := rfl
  have hfree : (0x0a000001#32 : Ip4Address) ∈
      ((machine smallPool).run smallPool (releasedTwice pool)).freeIPPool := by
    decide
  exact hpartition.apart _ _ hbound hfree

end DhcpPool

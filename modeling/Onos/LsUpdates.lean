import Onos.Lib.Packing
import Onos.LsRequests

/-! Link state updates: the answers to a request of a neighbor, and what is flooded to it. Both are
filled from a list of advertisements up to what the interface can send. -/
namespace LsUpdates

open KeyedMap LinkStateDatabase LinkStateHeaders LsRequests Packing

inductive OspfInterfaceState where
  | DOWN
  | LOOPBACK
  | WAITING
  | POINT2POINT
  | DROTHER
  | BDR
  | DR
  deriving DecidableEq, Repr

inductive OspfNeighborState where
  | DOWN
  | ATTEMPT
  | INIT
  | TWOWAY
  | EXSTART
  | EXCHANGE
  | LOADING
  | FULL
  deriving DecidableEq, Repr

def OspfInterfaceState.value : OspfInterfaceState → ℕ
  | .DOWN => 1
  | .LOOPBACK => 2
  | .WAITING => 3
  | .POINT2POINT => 4
  | .DROTHER => 5
  | .BDR => 6
  | .DR => 7

def OspfNeighborState.getValue : OspfNeighborState → ℕ
  | .DOWN => 1
  | .ATTEMPT => 2
  | .INIT => 3
  | .TWOWAY => 4
  | .EXSTART => 5
  | .EXCHANGE => 6
  | .LOADING => 7
  | .FULL => 8

def FOUR_BYTES : ℤ := 4

def INFTRA_NS_DELAY : ℤ := 1

def ALL_SPF_ROUTERS : Ip4Address := ⟨224, 0, 0, 5⟩

def ALL_DROUTERS : Ip4Address := ⟨224, 0, 0, 6⟩

structure OspfInterface where
  mtu : ℤ
  state : OspfInterfaceState
  routerId : Ip4Address
  areaId : Ip4Address

def OspfInterface.maxSize (i : OspfInterface) : ℤ := i.mtu - LSA_HEADER_LENGTH

def emptyLength : ℤ := OSPF_HEADER_LENGTH + FOUR_BYTES

structure LsUpdate where
  routerId : Ip4Address
  areaId : Ip4Address
  destinationIp : Option Ip4Address
  numberOfLsa : ℕ
  lsas : List Ref

def LsUpdate.ipLength (u : LsUpdate) (headers : Ref → LsaHeader) : ℤ :=
  LSA_HEADER_LENGTH + (emptyLength + (u.lsas.map fun r => (headers r).lsPacketLen).sum)

section Answering

variable (names : NameService) (s : OspfLsdb)

/-- The advertisement of a wrapper. Every wrapper gets one when it is added. -/
def ospfLsa (wrapper : Ref) : Option LsaHeader := some (s.wrappers wrapper).lsaHeader

/-- What an update takes of the requests, what it leaves, and how often a bad request is told. -/
structure Filled where
  lsas : List Ref
  noLsa : ℕ
  rest : List LsRequestPacket
  badLSReqs : ℕ

def find (lsRequest : LsRequestPacket) : Option Ref :=
  getLsa names s lsRequest.lsType lsRequest.linkStateId lsRequest.ownRouterId

def fillLsUpdate (maxSize : ℤ) : ℤ → List LsRequestPacket → Filled
  | _, [] => ⟨[], 0, [], 0⟩
  | currentLength, lsRequest :: rest =>
    match find names s lsRequest with
    | none => fillLsUpdate maxSize currentLength rest
    | some wrapper =>
      let lsPacketLen := (s.lsaHeader wrapper).lsPacketLen
      if currentLength + lsPacketLen ≥ maxSize then ⟨[], 0, lsRequest :: rest, 0⟩
      else match ospfLsa s wrapper with
        | some _ =>
          let filled := fillLsUpdate maxSize (currentLength + lsPacketLen) rest
          { filled with lsas := wrapper :: filled.lsas, noLsa := filled.noLsa + 1 }
        | none =>
          let filled := fillLsUpdate maxSize currentLength rest
          { filled with badLSReqs := filled.badLSReqs + 1 }

def destination : OspfInterfaceState → Option Ip4Address
  | .DR | .BDR | .POINT2POINT => some ALL_SPF_ROUTERS
  | .DROTHER => some ALL_DROUTERS
  | _ => none

/-- The updates for the requests, and how often a bad request is told. Without an end there is no
result, however much fuel. -/
def lsUpdates (i : OspfInterface) : ℕ → List LsRequestPacket → Option (List LsUpdate × ℕ)
  | _, [] => some ([], 0)
  | 0, _ :: _ => none
  | fuel + 1, lsRequest :: rest =>
    let filled := fillLsUpdate names s i.maxSize emptyLength (lsRequest :: rest)
    let lsupdate : LsUpdate :=
      ⟨i.routerId, i.areaId, destination i.state, filled.noLsa, filled.lsas⟩
    (lsUpdates i fuel filled.rest).map fun out => (lsupdate :: out.1, filled.badLSReqs + out.2)

def processLsRequestMessage (i : OspfInterface) (nbrState : OspfNeighborState) (fuel : ℕ)
    (linkStateRequests : List LsRequestPacket) : Option (List LsUpdate × ℕ) :=
  if nbrState = .EXCHANGE ∨ nbrState = .LOADING ∨ nbrState = .FULL then
    lsUpdates names s i fuel linkStateRequests
  else some ([], 0)

end Answering

section Flooding

/-- The lists of a neighbor, of what is to be flooded and of what was flooded and not acknowledged,
and the headers of the advertisements, which age as they are flooded. -/
structure Transmission where
  headers : Ref → LsaHeader
  reTxList : Table String (Option Ref)
  pendingReTxList : Table String (Option Ref)

inductive TxList where
  | reTx
  | pending
  deriving DecidableEq, Repr

variable (equals : (Ref → LsaHeader) → Ref → Ref → Bool)

def Transmission.list (t : Transmission) : TxList → Table String (Option Ref)
  | .reTx => t.reTxList
  | .pending => t.pendingReTxList

def Transmission.get (t : Transmission) (txList : TxList) (key : String) : Option Ref :=
  ((t.list txList).lookup key).join

def Transmission.setAge (t : Transmission) (lsa : Ref) (age : ℤ) : Transmission :=
  { t with headers := Function.update t.headers lsa ((t.headers lsa).setAge age) }

def Transmission.ageLsa (t : Transmission) (lsa : Ref) : Transmission :=
  let age := (t.headers lsa).age
  t.setAge lsa (if age + INFTRA_NS_DELAY ≥ MAXAGE then MAXAGE else age + INFTRA_NS_DELAY)

/-- The equality of maps of advertisements, of which `equals` tells when two are equal. -/
def Transmission.sameList (t : Transmission) (txList : TxList) : Bool :=
  let l := (t.list txList).entries
  txList = .reTx ∨ l.length = t.reTxList.entries.length ∧ l.all fun e =>
    match e.2, t.reTxList.lookup e.1 with
    | some lsa, some (some lsa') => equals t.headers lsa lsa'
    | none, some none => true
    | _, _ => false

/-- A key that was put in an update is no longer to be flooded, but to be acknowledged. -/
def Transmission.flooded (t : Transmission) (txList : TxList) (key : String) (lsa : Option Ref) :
    Transmission :=
  if t.sameList equals txList then
    { t with
      reTxList := t.reTxList.erase key
      pendingReTxList := t.pendingReTxList.insert key lsa }
  else t

structure Loaded where
  transmission : Transmission
  lsas : List Ref
  noLsa : ℕ
  rest : List String

def loadLsUpdate (maxSize : ℤ) (txList : TxList) : Transmission → ℤ → List String → Loaded
  | t, _, [] => ⟨t, [], 0, []⟩
  | t, currentLength, key :: rest =>
    match t.get txList key with
    | none =>
      loadLsUpdate maxSize txList (t.flooded equals txList key none) currentLength rest
    | some lsa =>
      let aged := t.ageLsa lsa
      let lsPacketLen := (aged.headers lsa).lsPacketLen
      if currentLength + lsPacketLen ≥ maxSize then ⟨aged, [], 0, key :: rest⟩
      else
        let loaded := loadLsUpdate maxSize txList (aged.flooded equals txList key (some lsa))
          (currentLength + lsPacketLen) rest
        { loaded with lsas := lsa :: loaded.lsas, noLsa := loaded.noLsa + 1 }

def floodUpdates (i : OspfInterface) (txList : TxList) :
    ℕ → Transmission → List String → Option (Transmission × List LsUpdate)
  | _, t, [] => some (t, [])
  | 0, _, _ :: _ => none
  | fuel + 1, t, key :: rest =>
    let loaded := loadLsUpdate equals i.maxSize txList t emptyLength (key :: rest)
    let lsupdate : LsUpdate := ⟨i.routerId, i.areaId, none, loaded.noLsa, loaded.lsas⟩
    (floodUpdates i txList fuel loaded.transmission loaded.rest).map fun out =>
      (out.1, lsupdate :: out.2)

def buildLsUpdate (i : OspfInterface) (fuel : ℕ) (t : Transmission) (txList : TxList) :
    Option (Transmission × List LsUpdate) :=
  floodUpdates equals i txList fuel t (t.list txList).keys

end Flooding

section Packets

variable {α : Type*} (look : α → Option Ref) (len : Ref → ℤ)

def sizeOf (a : α) : Option ℤ := (look a).map len

def Sent (mtu : ℤ) (l : List α) (updates : List (List Ref)) : Prop :=
  updates.flatten = l.filterMap look ∧
    ∀ u ∈ updates, 2 ≤ u.length → LSA_HEADER_LENGTH + (emptyLength + (u.map len).sum) ≤ mtu

theorem sum_filterMap (packet : List α) :
    ((packet.filterMap look).map len).sum = load (sizeOf look len) packet := by
  unfold load sizeOf
  induction packet with
  | nil => rfl
  | cons a rest ih =>
    cases h : look a with
    | none => simp [h, ih]
    | some r => simp [h, ih]

theorem filterMap_sized (l : List α) :
    (sized (sizeOf look len) l).filterMap look = l.filterMap look := by
  unfold sized sizeOf
  rw [List.filterMap_filter]
  apply List.filterMap_congr
  intro a _
  cases look a <;> rfl

theorem packing_ends_iff (mtu : ℤ) {l : List α} (hpos : ∀ a ∈ l, ∀ r, look a = some r → 0 ≤ len r) :
    (∃ fuel packets,
        pack (sizeOf look len) (mtu - LSA_HEADER_LENGTH) emptyLength fuel l = some packets) ↔
      ∀ a ∈ l, ∀ r, look a = some r → len r < mtu - 48 := by
  have hfits (a : α) : Fits (sizeOf look len) (mtu - LSA_HEADER_LENGTH) emptyLength a ↔
      ∀ r, look a = some r → len r < mtu - 48 := by
    unfold Fits sizeOf emptyLength OSPF_HEADER_LENGTH FOUR_BYTES LSA_HEADER_LENGTH
    constructor
    · intro h r hr
      have := h (len r) (by rw [hr]; rfl)
      omega
    · intro h n hn
      obtain ⟨r, hr, rfl⟩ := Option.map_eq_some_iff.mp hn
      have := h r hr
      omega
  rw [pack_ends_iff (sizeOf look len)]
  · exact forall_congr' fun a => forall_congr' fun _ => hfits a
  · intro a ha n hn
    obtain ⟨r, hr, rfl⟩ := Option.map_eq_some_iff.mp hn
    exact hpos a ha r hr

theorem sent_of_pack {mtu : ℤ} {l : List α} {fuel : ℕ} {packets : List (List α)}
    (h : pack (sizeOf look len) (mtu - LSA_HEADER_LENGTH) emptyLength fuel l = some packets) :
    Sent look len mtu l (packets.map (·.filterMap look)) := by
  constructor
  · rw [← List.filterMap_flatten, flatten_pack _ _ _ h, filterMap_sized]
  · intro u hu htwo
    obtain ⟨packet, hpacket, rfl⟩ := List.mem_map.mp hu
    have hne : packet ≠ [] := by
      rintro rfl
      simp at htwo
    have := load_pack _ _ _ h packet hpacket hne
    rw [sum_filterMap]
    omega

end Packets

section Answers

variable (names : NameService) (s : OspfLsdb)

def lsPacketLen (r : Ref) : ℤ := (s.lsaHeader r).lsPacketLen

theorem fillLsUpdate_eq (maxSize currentLength : ℤ) (l : List LsRequestPacket) :
    fillLsUpdate names s maxSize currentLength l =
      ⟨(fill (sizeOf (find names s) (lsPacketLen s)) maxSize currentLength l).1.filterMap (find names s),
        ((fill (sizeOf (find names s) (lsPacketLen s)) maxSize currentLength l).1.filterMap
          (find names s)).length,
        (fill (sizeOf (find names s) (lsPacketLen s)) maxSize currentLength l).2, 0⟩ := by
  induction l generalizing currentLength with
  | nil => rfl
  | cons q rest ih =>
    rw [fillLsUpdate, fill]
    cases hq : find names s q with
    | none =>
      have hs : sizeOf (find names s) (lsPacketLen s) q = none := by rw [sizeOf, hq]; rfl
      rw [hs]
      exact ih currentLength
    | some r =>
      have hs : sizeOf (find names s) (lsPacketLen s) q = some (lsPacketLen s r) := by
        rw [sizeOf, hq]; rfl
      have hlen : (s.lsaHeader r).lsPacketLen = lsPacketLen s r := rfl
      rw [hs]
      dsimp only [ospfLsa]
      rw [hlen, ih]
      split
      · rfl
      · rw [List.filterMap_cons_some hq, List.length_cons]

theorem lsUpdates_eq (i : OspfInterface) (fuel : ℕ) (l : List LsRequestPacket) :
    (lsUpdates names s i fuel l).map (fun out => (out.1.map LsUpdate.lsas, out.2)) =
      (pack (sizeOf (find names s) (lsPacketLen s)) i.maxSize emptyLength fuel l).map fun packets =>
        (packets.map (·.filterMap (find names s)), 0) := by
  induction fuel generalizing l with
  | zero =>
    cases l with
    | nil => rfl
    | cons q rest => rfl
  | succ fuel ih =>
    cases l with
    | nil => rfl
    | cons q rest =>
      have hrest := ih (fill (sizeOf (find names s) (lsPacketLen s)) i.maxSize emptyLength (q :: rest)).2
      rw [lsUpdates, pack, fillLsUpdate_eq]
      dsimp only
      cases hl : lsUpdates names s i fuel (fill (sizeOf (find names s) (lsPacketLen s)) i.maxSize
          emptyLength (q :: rest)).2 with
      | none =>
        rw [hl] at hrest
        rw [Option.map_none, eq_comm, Option.map_eq_none_iff] at hrest
        rw [hrest]
        rfl
      | some out =>
        rw [hl] at hrest
        obtain ⟨packets, hpack, hout⟩ := Option.map_eq_some_iff.mp hrest.symm
        obtain ⟨h1, h2⟩ := Prod.mk.inj hout
        rw [hpack]
        simp [← h1, ← h2]

/-- A request is answered: the answer comes to an end, each advertisement that is requested is in one
update if all of them are there, an update of more than one is not longer than the interface can
send, and a bad request is told if one is missing. -/
def Answered (i : OspfInterface) (nbrState : OspfNeighborState) (requests : List LsRequestPacket) :
    Prop :=
  ∃ fuel updates badLSReqs,
    processLsRequestMessage names s i nbrState fuel requests = some (updates, badLSReqs) ∧
      ((∀ q ∈ requests, find names s q ≠ none) →
        (updates.map LsUpdate.lsas).flatten.map some = requests.map (find names s)) ∧
      (∀ u ∈ updates, 2 ≤ u.lsas.length → u.ipLength s.lsaHeader ≤ i.mtu) ∧
      ((∃ q ∈ requests, find names s q = none) → 0 < badLSReqs)

theorem map_some_filterMap {l : List LsRequestPacket} (h : ∀ q ∈ l, find names s q ≠ none) :
    (l.filterMap (find names s)).map some = l.map (find names s) := by
  induction l with
  | nil => rfl
  | cons q rest ih =>
    obtain ⟨r, hr⟩ := Option.ne_none_iff_exists'.mp (h q List.mem_cons_self)
    rw [List.filterMap_cons_some hr, List.map_cons, List.map_cons, hr,
      ih fun p hp => h p (List.mem_cons_of_mem q hp)]

theorem answered_iff (i : OspfInterface) {nbrState : OspfNeighborState}
    (hstate : nbrState = .EXCHANGE ∨ nbrState = .LOADING ∨ nbrState = .FULL)
    (requests : List LsRequestPacket)
    (hpos : ∀ q ∈ requests, ∀ r, find names s q = some r → 0 ≤ lsPacketLen s r) :
    Answered names s i nbrState requests ↔
      ∀ q ∈ requests, ∃ r, find names s q = some r ∧ lsPacketLen s r < i.mtu - 48 := by
  have hends := packing_ends_iff (find names s) (lsPacketLen s) i.mtu hpos
  unfold Answered processLsRequestMessage
  simp only [if_pos hstate]
  constructor
  · rintro ⟨fuel, updates, bad, hrun, _, _, hbad⟩
    have heq := lsUpdates_eq names s i fuel requests
    rw [hrun, Option.map_some, eq_comm, Option.map_eq_some_iff] at heq
    obtain ⟨packets, hpack, hout⟩ := heq
    have hzero := (Prod.mk.inj hout).2
    intro q hq
    cases hr : find names s q with
    | none =>
      have := hbad ⟨q, hq, hr⟩
      omega
    | some r => exact ⟨r, rfl, hends.mp ⟨fuel, packets, hpack⟩ q hq r hr⟩
  · intro h
    have hfound : ∀ q ∈ requests, find names s q ≠ none := by
      intro q hq hnone
      obtain ⟨r, hr, _⟩ := h q hq
      rw [hnone] at hr
      cases hr
    obtain ⟨fuel, packets, hpack⟩ := hends.mpr fun q hq r hr => by
      obtain ⟨r', hr', hlt⟩ := h q hq
      rw [hr, Option.some.injEq] at hr'
      exact hr' ▸ hlt
    obtain ⟨hflat, hlength⟩ := sent_of_pack (find names s) (lsPacketLen s) hpack
    have heq := lsUpdates_eq names s i fuel requests
    rw [show pack _ i.maxSize emptyLength fuel requests = _ from hpack, Option.map_some,
      Option.map_eq_some_iff] at heq
    obtain ⟨⟨updates, bad⟩, hrun, hout⟩ := heq
    have hlsas := (Prod.mk.inj hout).1
    refine ⟨fuel, updates, bad, hrun, ?_, ?_, ?_⟩
    · intro _
      rw [hlsas, hflat, map_some_filterMap names s hfound]
    · intro u hu htwo
      have hmem : u.lsas ∈ packets.map (·.filterMap (find names s)) :=
        hlsas ▸ List.mem_map_of_mem hu
      exact hlength u.lsas hmem htwo
    · rintro ⟨q, hq, hnone⟩
      exact absurd hnone (hfound q hq)

end Answers

section Floods

variable (equals : (Ref → LsaHeader) → Ref → Ref → Bool) (txList : TxList)

/-- A state of the lists in which the keys that are left lead to what they led to, with the lengths
they had. -/
structure Keeps (t₀ t : Transmission) (keys : List String) : Prop where
  len : ∀ r, (t.headers r).lsPacketLen = (t₀.headers r).lsPacketLen
  get : ∀ key ∈ keys, t.get txList key = t₀.get txList key

variable {txList}

variable {t₀ t : Transmission} {keys : List String}

theorem Keeps.ageLsa (h : Keeps txList t₀ t keys) (r : Ref) :
    Keeps txList t₀ (t.ageLsa r) keys := by
  refine ⟨?_, ?_⟩
  · intro q
    rw [← h.len q]
    unfold Transmission.ageLsa Transmission.setAge
    by_cases e : q = r
    · subst e
      simp [LsaHeader.setAge]
    · simp [Function.update_of_ne e]
  · intro key hk
    rw [← h.get key hk]
    cases txList <;> rfl

theorem Keeps.flooded {key : String} {rest : List String}
    (h : Keeps txList t₀ t (key :: rest)) (hnodup : key ∉ rest) (lsa : Option Ref) :
    Keeps txList t₀ (t.flooded equals txList key lsa) rest := by
  refine ⟨?_, ?_⟩
  · intro q
    rw [← h.len q]
    unfold Transmission.flooded
    split <;> rfl
  · intro j hj
    have hne : j ≠ key := fun e => hnodup (e ▸ hj)
    rw [← h.get j (List.mem_cons_of_mem key hj)]
    unfold Transmission.flooded
    split
    · cases txList with
      | reTx => simp [Transmission.get, Transmission.list, hne]
      | pending => simp [Transmission.get, Transmission.list, hne]
    · rfl

theorem loadLsUpdate_eq (maxSize : ℤ) (currentLength : ℤ)
    (h : Keeps txList t₀ t keys) (hnodup : keys.Nodup) :
    let f := fill (sizeOf (t₀.get txList) fun r => (t₀.headers r).lsPacketLen) maxSize currentLength keys
    let loaded := loadLsUpdate equals maxSize txList t currentLength keys
    loaded.lsas = f.1.filterMap (t₀.get txList) ∧ loaded.rest = f.2 ∧
      Keeps txList t₀ loaded.transmission f.2 := by
  induction keys generalizing t currentLength with
  | nil => exact ⟨rfl, rfl, h⟩
  | cons key rest ih =>
    obtain ⟨hkey, hrest⟩ := List.nodup_cons.mp hnodup
    have hget := h.get key List.mem_cons_self
    rw [fill, loadLsUpdate, hget]
    cases hr : t₀.get txList key with
    | none =>
      have hs : sizeOf (t₀.get txList) (fun r => (t₀.headers r).lsPacketLen) key = none := by
        rw [sizeOf, hr, Option.map_none]
      rw [hs]
      exact ih currentLength (h.flooded equals hkey none) hrest
    | some r =>
      have hs : sizeOf (t₀.get txList) (fun r => (t₀.headers r).lsPacketLen) key =
          some (t₀.headers r).lsPacketLen := by
        rw [sizeOf, hr, Option.map_some]
      have haged := h.ageLsa r
      have hlen := haged.len r
      rw [hs]
      dsimp only
      rw [hlen]
      split
      · exact ⟨rfl, rfl, haged⟩
      · obtain ⟨hlsas, hleft, hkeeps⟩ := ih (currentLength + (t₀.headers r).lsPacketLen)
          (haged.flooded equals hkey (some r)) hrest
        refine ⟨?_, hleft, hkeeps⟩
        dsimp only
        rw [hlsas, List.filterMap_cons_some hr]

theorem floodUpdates_eq (i : OspfInterface) (fuel : ℕ)
    (h : Keeps txList t₀ t keys) (hnodup : keys.Nodup) :
    (floodUpdates equals i txList fuel t keys).map (fun out => out.2.map LsUpdate.lsas) =
      (pack (sizeOf (t₀.get txList) fun r => (t₀.headers r).lsPacketLen) i.maxSize emptyLength fuel
        keys).map (·.map (·.filterMap (t₀.get txList))) := by
  induction fuel generalizing t keys with
  | zero =>
    cases keys with
    | nil => rfl
    | cons key rest => rfl
  | succ fuel ih =>
    cases keys with
    | nil => rfl
    | cons key rest =>
      obtain ⟨hlsas, hleft, hkeeps⟩ := loadLsUpdate_eq equals i.maxSize emptyLength h hnodup
      have hsuffix := fill_suffix (sizeOf (t₀.get txList) fun r => (t₀.headers r).lsPacketLen)
        i.maxSize emptyLength (key :: rest)
      have hrest := ih hkeeps (hnodup.sublist hsuffix.sublist)
      rw [floodUpdates, pack, hleft, Option.map_map, Option.map_map]
      calc _ = ((floodUpdates equals i txList fuel _ _).map (fun out => out.2.map LsUpdate.lsas)).map
            (_ :: ·) := by rw [Option.map_map]; rfl
        _ = _ := by rw [hrest, Option.map_map, hlsas]; rfl

/-- Flooding comes to an end, and each advertisement of the list is in one update. -/
def Flooded (i : OspfInterface) (t : Transmission) (txList : TxList) : Prop :=
  ∃ fuel t' updates, buildLsUpdate equals i fuel t txList = some (t', updates) ∧
    Sent (t.get txList) (fun r => (t.headers r).lsPacketLen) i.mtu (t.list txList).keys
      (updates.map LsUpdate.lsas)

theorem flooded_iff (i : OspfInterface) (t : Transmission)
    (hpos : ∀ key ∈ (t.list txList).keys, ∀ r, t.get txList key = some r →
      0 ≤ (t.headers r).lsPacketLen) :
    Flooded equals i t txList ↔ ∀ key ∈ (t.list txList).keys, ∀ r, t.get txList key = some r →
      (t.headers r).lsPacketLen < i.mtu - 48 := by
  have hkeeps : Keeps txList t t (t.list txList).keys := ⟨fun _ => rfl, fun _ _ => rfl⟩
  have heq (fuel : ℕ) := floodUpdates_eq equals i fuel hkeeps (t.list txList).keys_nodup
  rw [← packing_ends_iff (t.get txList) (fun r => (t.headers r).lsPacketLen) _ hpos]
  unfold Flooded buildLsUpdate
  constructor
  · rintro ⟨fuel, t', updates, hrun, -⟩
    have hpacked := heq fuel
    rw [hrun, Option.map_some, eq_comm, Option.map_eq_some_iff] at hpacked
    obtain ⟨packets, hpack, -⟩ := hpacked
    exact ⟨fuel, packets, hpack⟩
  · rintro ⟨fuel, packets, hpack⟩
    have hpacked := heq fuel
    rw [show pack _ i.maxSize emptyLength fuel _ = _ from hpack, Option.map_some,
      Option.map_eq_some_iff] at hpacked
    obtain ⟨⟨t', updates⟩, hrun, hlsas⟩ := hpacked
    refine ⟨fuel, t', updates, hrun, ?_⟩
    have hsent := sent_of_pack (t.get txList) (fun r => (t.headers r).lsPacketLen) hpack
    rwa [← show updates.map LsUpdate.lsas = _ from hlsas] at hsent

end Floods

section Results

def ethernet (mtu : ℤ) : OspfInterface := ⟨mtu, .DR, ⟨10, 0, 0, 2⟩, ⟨0, 0, 0, 0⟩⟩

def opaqueRequest : LsRequestPacket := ⟨9, "1.1.0.0", "10.0.0.1"⟩

theorem find_opaqueRequest : find numeric opaqueStore opaqueRequest = some 0 := by decide

theorem lsPacketLen_opaqueStore : lsPacketLen opaqueStore 0 = 44 := by
  unfold lsPacketLen
  rw [lsaHeader_opaqueStore]
  rfl

def oneToFlood : Transmission :=
  ⟨fun _ => opaqueHeader 1 65536 "1.0.1.0",
    (∅ : Table String (Option Ref)).insert "9-165536-10.0.0.1" (some 0), ∅⟩

end Results

end LsUpdates

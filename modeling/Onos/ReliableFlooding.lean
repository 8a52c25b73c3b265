import Onos.FloodingPasses
import Onos.Lib.InputMachine
import Onos.ReceivedLsas

/-! Flooding to the neighbors of an area. The advertisements are objects that the database and the
lists of all neighbors share, and each list that is sent makes what it holds a second older. -/
namespace ReliableFlooding

open FloodingPasses InputMachine KeyedMap LinkStateDatabase LinkStateHeaders LsUpdates
open ReceivedLsas (isNullorLatest)

structure OspfNbr where
  neighborId : String
  ospfInterface : OspfInterface
  neighborIpAddr : Ip4Address
  neighborDr : Option Ip4Address
  isOpaqueCapable : Bool
  state : OspfNeighborState
  lsReqList : List String
  reTxList : Table String (Option Ref)
  pendingReTxList : Table String (Option Ref)

/-- The database and the neighbors of all interfaces. A wrapper of the database leads to the
advertisement that it was made for; what is still to be received or built has its header already. -/
structure Area (ν : Type*) where
  database : OspfLsdb
  ospfLsa : Ref → Ref
  headers : Ref → LsaHeader
  nbrs : ν → OspfNbr

section Handlers

variable {ν : Type*} (a : Area ν) (nbr : OspfNbr)

/-- What a flooded advertisement does to the requests of a neighbor that is exchanging databases,
and whether it is news to the neighbor. -/
def updateRequests (recLsa : LsaHeader) : List String × Bool :=
  let key := getLsaKey recLsa
  if (nbr.state = .EXCHANGE ∨ nbr.state = .LOADING) ∧ key ∈ nbr.lsReqList then
    match a.database.lsaLookup recLsa with
    | none => (nbr.lsReqList, true)
    | some lsWrapper =>
      match isNewerOrSameLsa recLsa (a.database.lsaHeader lsWrapper) with
      | .old => (nbr.lsReqList, false)
      | .same => (nbr.lsReqList.filter (· ≠ key), false)
      | .latest => (nbr.lsReqList.filter (· ≠ key), true)
  else (nbr.lsReqList, true)

/-- An advertisement is not sent to the neighbor it is from, and some opaque ones only to those that
know about them. -/
def isFloodedTo (recLsa : LsaHeader) : Bool :=
  recLsa.advertisingRouter.text ≠ nbr.neighborId ∧
    (recLsa.lsType = OspfLsaType.LINK_LOCAL_OPAQUE_LSA.value ∨
      recLsa.lsType = OspfLsaType.AREA_LOCAL_OPAQUE_LSA.value → nbr.isOpaqueCapable = true)

def addToTxList (recLsa : Ref) : OspfNbr :=
  let header := a.headers recLsa
  if nbr.state.getValue < OspfNeighborState.EXCHANGE.getValue then nbr
  else
    let updated := updateRequests a nbr header
    let nbr := { nbr with lsReqList := updated.1 }
    if updated.2 ∧ isFloodedTo nbr header then
      { nbr with reTxList := nbr.reTxList.insert (getLsaKey header) (some recLsa) }
    else nbr

def acknowledge (headers : Ref → LsaHeader) (pendingReTxList : Table String (Option Ref))
    (lsRequest : LsaHeader) : Table String (Option Ref) :=
  match (pendingReTxList.lookup (getLsaKey lsRequest)).join with
  | some ospfLsa =>
    if isNewerOrSameLsa lsRequest (headers ospfLsa) = .same then
      pendingReTxList.erase (getLsaKey lsRequest)
    else pendingReTxList
  | none => pendingReTxList

def processLsAckMessage (linkStateHeaders : List LsaHeader) : OspfNbr :=
  if nbr.state.getValue < OspfNeighborState.EXCHANGE.getValue then nbr
  else { nbr with
    pendingReTxList := linkStateHeaders.foldl (acknowledge a.headers) nbr.pendingReTxList }

/-- A neighbor returns an advertisement. One that is as new as the database's is as good as an
acknowledgement. -/
def receiveSame (recLsa : LsaHeader) : OspfNbr :=
  if isNullorLatest a.database (a.database.lsaLookup recLsa) recLsa = .same then
    { nbr with pendingReTxList := nbr.pendingReTxList.erase (getLsaKey recLsa) }
  else nbr

def reTxDestination : Option Ip4Address :=
  match nbr.ospfInterface.state with
  | .DR | .POINT2POINT => some ALL_SPF_ROUTERS
  | .DROTHER | .BDR => nbr.neighborDr
  | _ => none

/-- A run of the flooding task. There is no result if it does not come to an end. -/
def floodingTask (sameBody : Ref → Ref → Bool) (isConnected : Bool) (t : Transmission) :
    Option (Transmission × List Message) :=
  if isConnected then
    (transmit sameBody nbr.ospfInterface .pending (some nbr.neighborIpAddr) t).bind fun pending =>
      (transmit sameBody nbr.ospfInterface .reTx (reTxDestination nbr) pending.1).map fun reTx =>
        (reTx.1, pending.2 ++ reTx.2)
  else some (t, [])

end Handlers

/-- What happens in an area. Readings of a header from its wrapper, which bring its age up to date,
are inputs of their own; so is each part of what is done with an advertisement that is received. -/
inductive Input (ν : Type*) where
  | tick
  | addLsa (lsa : Ref) (isSelfOriginated : Bool)
  | deleteLsa (lsaHeader : LsaHeader)
  | addLsaToMaxAgeBin (wrapper : Ref) (age : Option ℤ)
  | lsaHeader (wrapper : Ref)
  | setMaxAge (lsa : Ref)
  | addToOtherNeighborLsaTxList (recLsa : Ref)
  | flood (n : ν) (isConnected : Bool)
  | lsAck (n : ν) (linkStateHeaders : List LsaHeader)
  | receive (n : ν) (recLsa : LsaHeader)
  | change (n : ν) (nbr : OspfNbr)
  | clear (n : ν)

section Running

variable {ν : Type*} [DecidableEq ν] (sameBody : Ref → Ref → Bool) (a : Area ν)

def Area.transmission (n : ν) : Transmission :=
  ⟨a.headers, (a.nbrs n).reTxList, (a.nbrs n).pendingReTxList⟩

def Area.databaseAge (r : Ref) : Option ℤ :=
  match a.database.lsaLookup (a.headers r) with
  | some wrapper => if a.ospfLsa wrapper = r then
      some ((a.database.wrappers wrapper).currentAge a.database.lsdbAge)
    else none
  | none => none

def Area.setAge (r : Ref) (age : ℤ) : Area ν :=
  { a with headers := Function.update a.headers r ((a.headers r).setAge age) }

def Area.put (n : ν) (nbr : OspfNbr) : Area ν := { a with nbrs := Function.update a.nbrs n nbr }

def Area.afterFlood (n : ν) (t : Transmission) : Area ν :=
  { a.put n { a.nbrs n with reTxList := t.reTxList, pendingReTxList := t.pendingReTxList } with
    headers := t.headers }

def Area.flooded (n : ν) (isConnected : Bool) : Option (Transmission × List Message) :=
  floodingTask (a.nbrs n) sameBody isConnected (a.transmission n)

/-- A change of a neighbor leaves its lists alone, unless it is to clear what it is to flood. -/
def Area.next : Input ν → Area ν
  | .tick => { a with database := (a.database.step .tick).1 }
  | .addLsa lsa isSelfOriginated =>
    { a with
      database := a.database.addLsa (a.headers lsa) isSelfOriginated
      ospfLsa := Function.update a.ospfLsa a.database.next lsa }
  | .deleteLsa lsaHeader => { a with database := a.database.deleteLsa lsaHeader }
  | .addLsaToMaxAgeBin wrapper age =>
    { a with database := (a.database.step (.addLsaToMaxAgeBin wrapper age)).1 }
  | .lsaHeader wrapper =>
    a.setAge (a.ospfLsa wrapper) ((a.database.wrappers wrapper).currentAge a.database.lsdbAge)
  | .setMaxAge lsa => a.setAge lsa MAXAGE
  | .addToOtherNeighborLsaTxList recLsa =>
    { a with nbrs := fun n => addToTxList a (a.nbrs n) recLsa }
  | .flood n isConnected =>
    match a.flooded sameBody n isConnected with
    | some out => a.afterFlood n out.1
    | none => a
  | .lsAck n linkStateHeaders => a.put n (processLsAckMessage a (a.nbrs n) linkStateHeaders)
  | .receive n recLsa => a.put n (receiveSame a (a.nbrs n) recLsa)
  | .change n nbr =>
    a.put n { nbr with
      reTxList := (a.nbrs n).reTxList
      pendingReTxList := (a.nbrs n).pendingReTxList }
  | .clear n => a.put n { a.nbrs n with reTxList := ∅ }

def machine : Machine (Area ν) (Input ν) where
  initial := a
  enabled _ _ := True
  next := Area.next sameBody

end Running

section Reliability

variable {ν : Type*} [DecidableEq ν] (sameBody : Ref → Ref → Bool)

/-- An instance is to be flooded to the neighbor, or waits for an acknowledgement. -/
def Holds (a : Area ν) (n : ν) (lsa : Instance) : Prop :=
  ∃ txList r, (a.transmission n).get txList lsa.key = some r ∧ instanceOf (a.headers r) = lsa

/-- The neighbor is sent an advertisement by `addToOtherNeighborLsaTxList`. -/
def Takes (a : Area ν) (n : ν) (recLsa : Ref) : Prop :=
  let nbr := a.nbrs n
  let updated := updateRequests a nbr (a.headers recLsa)
  OspfNeighborState.EXCHANGE.getValue ≤ nbr.state.getValue ∧ updated.2 = true ∧
    isFloodedTo { nbr with lsReqList := updated.1 } (a.headers recLsa) = true

def IsNewer (h : LsaHeader) (lsa : Instance) : Prop :=
  lsa.lsSequenceNo < h.lsSequenceNo ∨
    lsa.lsSequenceNo = h.lsSequenceNo ∧ lsa.lsCheckSum < h.lsCheckSum

/-- The neighbor acknowledges or returns an instance, or a newer one takes its key, or the adjacency
is reset. -/
def Releases (a : Area ν) (n : ν) (lsa : Instance) : Input ν → Prop
  | .lsAck m linkStateHeaders => m = n ∧ ∃ h ∈ linkStateHeaders, instanceOf h = lsa
  | .receive m recLsa =>
    m = n ∧ (instanceOf recLsa = lsa ∨ getLsaKey recLsa = lsa.key ∧ IsNewer recLsa lsa)
  | .addToOtherNeighborLsaTxList recLsa =>
    Takes a n recLsa ∧ getLsaKey (a.headers recLsa) = lsa.key ∧ IsNewer (a.headers recLsa) lsa
  | .clear m => m = n
  | _ => False

def Undisturbed (a : Area ν) (n : ν) (lsa : Instance) (xs : List (Input ν)) : Prop :=
  ((machine sameBody a).guarded fun a x => ¬ Releases a n lsa x).Valid a xs

def Area.run (a : Area ν) (xs : List (Input ν)) : Area ν := xs.foldl (Area.next sameBody) a

def Area.sent (a : Area ν) (n : ν) (isConnected : Bool) : List Message :=
  ((a.flooded sameBody n isConnected).map Prod.snd).getD []

/-- An instance that is placed in a list stays in one of the two until it is released. -/
def IsKept (a : Area ν) (xs : List (Input ν)) : Prop :=
  ∀ n recLsa ys zs, ys ++ Input.addToOtherNeighborLsaTxList recLsa :: zs <+: xs →
    Takes (a.run sameBody ys) n recLsa →
    Undisturbed sameBody (a.run sameBody (ys ++ [.addToOtherNeighborLsaTxList recLsa])) n
      (instanceOf ((a.run sameBody ys).headers recLsa)) zs →
    Holds (a.run sameBody (ys ++ .addToOtherNeighborLsaTxList recLsa :: zs)) n
      (instanceOf ((a.run sameBody ys).headers recLsa))

def IsIncluded (a : Area ν) (xs : List (Input ν)) : Prop :=
  ∀ n isConnected ys lsa, ys ++ [Input.flood n isConnected] <+: xs →
    Holds (a.run sameBody ys) n lsa →
    ∃ m ∈ (a.run sameBody ys).sent sameBody n isConnected, ∃ c ∈ m.copies, instanceOf c.2 = lsa

def IsAgedOnce (a : Area ν) (xs : List (Input ν)) : Prop :=
  ∀ n isConnected ys, ys ++ [Input.flood n isConnected] <+: xs →
    ∀ m ∈ (a.run sameBody ys).sent sameBody n isConnected, ∀ c ∈ m.copies, ∀ age,
      (a.run sameBody ys).databaseAge c.1 = some age →
        c.2.age = min (MAXAGE : ℤ) (age + INFTRA_NS_DELAY)

structure IsReliable (a : Area ν) (xs : List (Input ν)) : Prop where
  kept : IsKept sameBody a xs
  included : IsIncluded sameBody a xs
  agedOnce : IsAgedOnce sameBody a xs

/-- What a list holds fits in updates, and its headers tell the age that the database tells. An
advertisement that does not fit in an update is aged before it is put off, so one that is not old
has to be in a list that one update takes. -/
structure IsTimely (i : OspfInterface) (databaseAge : Ref → Option ℤ) (t : Transmission)
    (txList : TxList) : Prop where
  fits : FitsAlone i t txList
  fresh : ∀ key r age, t.get txList key = some r → databaseAge r = some age →
    grown (t.headers r).age = grown age
  once : ∀ key r age, t.get txList key = some r → databaseAge r = some age →
    MAXAGE - 1 ≤ (t.headers r).age ∨ IsWhole i t txList

/-- A run of the flooding task does no harm: the lists are not mixed up, and none of what they hold
is aged twice. -/
structure IsFloodable (i : OspfInterface) (databaseAge : Ref → Option ℤ) (t : Transmission) :
    Prop where
  firstAlike : FirstAlike sameBody t
  pending : IsTimely i databaseAge t .pending
  reTx : IsTimely i databaseAge (mixed sameBody t) .reTx
  apart : ∀ key key' r age, t.get .pending key = some r →
    (mixed sameBody t).get .reTx key' = some r → databaseAge r = some age →
    MAXAGE - 1 ≤ (t.headers r).age

/-- What takes the place of an instance, or releases it, is the same instance or a newer one, and the
flooding task runs on lists that are floodable. -/
def Harmless (a : Area ν) : Input ν → Prop
  | .addToOtherNeighborLsaTxList recLsa => ∀ n r, Takes a n recLsa →
    current (a.transmission n) (getLsaKey (a.headers recLsa)) = some r →
    instanceOf (a.headers recLsa) = instanceOf (a.headers r) ∨
      IsNewer (a.headers recLsa) (instanceOf (a.headers r))
  | .receive n recLsa => ∀ r,
    isNullorLatest a.database (a.database.lsaLookup recLsa) recLsa = .same →
    (a.transmission n).get .reTx (getLsaKey recLsa) = none →
    (a.transmission n).get .pending (getLsaKey recLsa) = some r →
    instanceOf recLsa = instanceOf (a.headers r) ∨ IsNewer recLsa (instanceOf (a.headers r))
  | .flood n isConnected => isConnected = true ∧
    IsFloodable sameBody (a.nbrs n).ospfInterface a.databaseAge (a.transmission n)
  | _ => True

end Reliability

section Task

variable {sameBody : Ref → Ref → Bool} {databaseAge : Ref → Option ℤ} {t : Transmission}
  {i : OspfInterface}

theorem lengthOf_eq {t' : Transmission} (h : Passes t t') : lengthOf t' = lengthOf t := by
  funext r
  obtain ⟨age, hr⟩ := h.header r
  rw [lengthOf, hr]
  rfl

/-- What is to be flooded is to be flooded still when the rest was sent again, or the same instance
was sent again. -/
theorem reTx_mixed (hk : WellKeyed t) (hfirst : FirstAlike sameBody t) {key : String} {r : Ref}
    (hr : t.get .reTx key = some r) : (mixed sameBody t).get .reTx key = some r ∨
      ∃ r', t.get .pending key = some r' ∧ instanceOf (t.headers r) = instanceOf (t.headers r') := by
  unfold mixed
  cases hentries : t.pendingReTxList.entries with
  | nil => exact Or.inl hr
  | cons e rest =>
    by_cases hsame : t.sameList (fun _ => sameBody) .pending = true
    · by_cases he : key = e.1
      · subst he
        have hlook : t.pendingReTxList.lookup e.1 = some e.2 :=
          (mem_entries_iff _ _ _).mp (hentries ▸ List.mem_cons_self)
        obtain ⟨r', he', _⟩ := hk .pending e.1 e.2 hlook
        refine Or.inr ⟨r', ?_, hfirst hsame e (by rw [hentries]; rfl) r' r he' hr⟩
        rw [Transmission.get, Transmission.list, hlook, he']
        rfl
      · left
        rw [get_reTx_flooded hsame, if_neg he, hr]
    · left
      have hflooded : t.flooded (fun _ => sameBody) .pending e.1 e.2 = t := if_neg hsame
      dsimp only
      rw [hflooded, hr]

theorem headers_mixed : (mixed sameBody t).headers = t.headers := by
  unfold mixed
  split
  · rfl
  · exact headers_flooded t .pending _ _

/-- A run of the flooding task on lists that are floodable writes all that they hold, and as old as
the database tells. -/
theorem floodingTask_spec (nbr : OspfNbr) (hk : WellKeyed t)
    (h : IsFloodable sameBody nbr.ospfInterface databaseAge t) :
    ∃ out, floodingTask nbr sameBody true t = some out ∧ Passes t out.1 ∧
      (∀ txList key r, t.get txList key = some r →
        ∃ m ∈ out.2, ∃ c ∈ m.copies, instanceOf c.2 = instanceOf (t.headers r)) ∧
      ∀ m ∈ out.2, ∀ c ∈ m.copies, ∀ age, databaseAge c.1 = some age → c.2.age = grown age := by
  obtain ⟨again, hagain, hall, honly⟩ := exists_transmit sameBody
    (some nbr.neighborIpAddr) h.pending.fits
  obtain ⟨hpasses, hlists⟩ := passes_pending hagain hk h.pending.fits h.firstAlike
  have hk' := hpasses.wellKeyed hk
  have hget : again.1.get .reTx = (mixed sameBody t).get .reTx := hlists.get .reTx
  have hlength : lengthOf again.1 = lengthOf (mixed sameBody t) := by
    rw [lengthOf_eq hpasses]
    unfold lengthOf
    rw [headers_mixed]
  have hfits : FitsAlone nbr.ospfInterface again.1 .reTx := by
    unfold FitsAlone
    rw [hget, hlength]
    exact h.reTx.fits
  obtain ⟨first, hfirst, hall', honly'⟩ := exists_transmit sameBody
    (reTxDestination nbr) hfits
  have hpasses' := passes_reTx hfirst hk'
  refine ⟨(first.1, again.2 ++ first.2), ?_, hpasses.trans hpasses', ?_, ?_⟩
  · unfold floodingTask
    rw [if_pos rfl, hagain, Option.bind_some, hfirst, Option.map_some]
  · have hpending : ∀ key r, t.get .pending key = some r →
        ∃ m ∈ again.2 ++ first.2, ∃ c ∈ m.copies, instanceOf c.2 = instanceOf (t.headers r) := by
      intro key r hr
      obtain ⟨m, hm, hc⟩ := hall key r hr
      exact ⟨m, List.mem_append_left _ hm, _, hc, hpasses.instanceOf_eq r⟩
    intro txList key r hr
    cases txList with
    | pending => exact hpending key r hr
    | reTx =>
      obtain hr' | ⟨r', hr', hsame⟩ := reTx_mixed hk h.firstAlike hr
      · obtain ⟨m, hm, hc⟩ := hall' key r (hget ▸ hr')
        exact ⟨m, List.mem_append_right _ hm, _, hc, (hpasses.trans hpasses').instanceOf_eq r⟩
      · rw [hsame]
        exact hpending key r' hr'
  · intro m hm c hc age hage
    obtain hm | hm := List.mem_append.mp hm
    · obtain ⟨⟨key, hr⟩, hheader⟩ := honly m hm c hc
      rw [hheader, age_transmit hagain hk hr (h.pending.once key c.1 age hr hage)]
      exact h.pending.fresh key c.1 age hr hage
    · obtain ⟨⟨key, hr⟩, hheader⟩ := honly' m hm c hc
      have hr' : (mixed sameBody t).get .reTx key = some c.1 := hget ▸ hr
      have hfresh := h.reTx.fresh key c.1 age hr' hage
      have honce := h.reTx.once key c.1 age hr' hage
      rw [headers_mixed] at hfresh honce
      rw [hheader]
      by_cases hlisted : ∃ key', t.get .pending key' = some c.1
      · obtain ⟨key', hr₀⟩ := hlisted
        -- What is in both lists is aged by both passes, so it is old already.
        have hold := h.apart key' key c.1 age hr₀ hr' hage
        have hage' := age_transmit hagain hk hr₀ (Or.inl hold)
        rw [grown_of_old hold] at hage' hfresh
        have hold' : MAXAGE - 1 ≤ (again.1.headers c.1).age := by omega
        rw [age_transmit hfirst hk' hr (Or.inl hold'), grown_of_old hold', hfresh]
      · have hsame := age_transmit_of_not hagain hk fun key' hr₀ => hlisted ⟨key', hr₀⟩
        rw [age_transmit hfirst hk' hr ?_, hsame, hfresh]
        rw [hsame]
        obtain hold | hwhole := honce
        · exact Or.inl hold
        · right
          unfold IsWhole
          rw [hget, hlength, hlists.list .reTx]
          exact hwhole

end Task

section Acknowledging

variable {headers : Ref → LsaHeader}

theorem instanceOf_same {h h' : LsaHeader} (hkey : getLsaKey h = getLsaKey h')
    (hsame : isNewerOrSameLsa h h' = .same) : instanceOf h = instanceOf h' := by
  obtain ⟨hseq, hsum⟩ := eq_of_same hsame
  rw [instanceOf, instanceOf, hkey, hseq, hsum]

variable {pendingReTxList : Table String (Option Ref)} {key : String}

theorem lookup_acknowledge {h : LsaHeader} {v : Option Ref}
    (hv : (acknowledge headers pendingReTxList h).lookup key = some v) :
    pendingReTxList.lookup key = some v := by
  unfold acknowledge at hv
  split at hv
  · split at hv
    · rw [lookup_erase] at hv
      split at hv
      · cases hv
      · exact hv
    · exact hv
  · exact hv

theorem acknowledge_of_ne {h : LsaHeader}
    {r : Ref} (hr : pendingReTxList.lookup key = some (some r))
    (hkey : getLsaKey (headers r) = key) (hne : instanceOf h ≠ instanceOf (headers r)) :
    (acknowledge headers pendingReTxList h).lookup key = some (some r) := by
  unfold acknowledge
  split
  · rename_i q hq
    split
    · rename_i hsame
      rw [lookup_erase]
      split
      · rename_i he
        rw [← he, hr, Option.join_some, Option.some.injEq] at hq
        rw [← hq] at hsame
        exact absurd (instanceOf_same (by rw [hkey, he]) hsame) hne
      · exact hr
    · exact hr
  · exact hr

theorem lookup_foldl_acknowledge {linkStateHeaders : List LsaHeader} {v : Option Ref}
    (hv : (linkStateHeaders.foldl (acknowledge headers) pendingReTxList).lookup key = some v) :
    pendingReTxList.lookup key = some v := by
  induction linkStateHeaders generalizing pendingReTxList with
  | nil => exact hv
  | cons h rest ih => exact lookup_acknowledge (ih hv)

theorem foldl_acknowledge_of_ne {linkStateHeaders : List LsaHeader} {r : Ref}
    (hr : pendingReTxList.lookup key = some (some r)) (hkey : getLsaKey (headers r) = key)
    (hne : ∀ h ∈ linkStateHeaders, instanceOf h ≠ instanceOf (headers r)) :
    (linkStateHeaders.foldl (acknowledge headers) pendingReTxList).lookup key =
      some (some r) := by
  induction linkStateHeaders generalizing pendingReTxList with
  | nil => exact hr
  | cons h rest ih =>
    exact ih (acknowledge_of_ne hr hkey (hne h List.mem_cons_self)) fun h' hh =>
      hne h' (List.mem_cons_of_mem h hh)

end Acknowledging

section Steps

variable {ν : Type*} {sameBody : Ref → Ref → Bool} {a : Area ν}

/-- What the neighbor is to be told under the key of an instance is that instance. -/
def Awaits (a : Area ν) (n : ν) (lsa : Instance) : Prop :=
  (current (a.transmission n) lsa.key).map (fun r => instanceOf (a.headers r)) = some lsa

variable {n : ν} {lsa : Instance}

theorem Awaits.holds (h : Awaits a n lsa) : Holds a n lsa := by
  obtain ⟨r, hr, hlsa⟩ := Option.map_eq_some_iff.mp h
  obtain hr | ⟨_, hr⟩ := Option.or_eq_some_iff.mp hr
  · exact ⟨.reTx, r, hr, hlsa⟩
  · exact ⟨.pending, r, hr, hlsa⟩

theorem Awaits.of_passes {a' : Area ν}
    (h : Passes (a.transmission n) (a'.transmission n)) (ha : Awaits a n lsa) : Awaits a' n lsa := by
  unfold Awaits
  rw [show (fun r => instanceOf (a'.headers r)) = fun r => instanceOf (a.headers r) from
    funext h.instanceOf_eq]
  exact (h.current lsa.key).trans ha

theorem passes_database (database : OspfLsdb) (ospfLsa : Ref → Ref) (n : ν) :
    Passes (a.transmission n)
      ((⟨database, ospfLsa, a.headers, a.nbrs⟩ : Area ν).transmission n) :=
  Passes.refl (a.transmission n)

theorem passes_of_sameLists {t t' : Transmission} (hlists : SameLists t t')
    (hheader : ∀ r, ∃ age, t'.headers r = (t.headers r).setAge age) : Passes t t' := by
  refine ⟨hheader, ?_, ?_⟩
  · intro key
    unfold FloodingPasses.current
    rw [hlists.get, hlists.get]
  · intro hk txList key v hv
    rw [hlists.list] at hv
    obtain ⟨r, hr, hkey⟩ := hk txList key v hv
    obtain ⟨age, hage⟩ := hheader r
    exact ⟨r, hr, by rw [hage, getLsaKey_setAge, hkey]⟩

theorem passes_setAge (r : Ref) (age : ℤ) (n : ν) :
    Passes (a.transmission n) ((a.setAge r age).transmission n) := by
  refine passes_of_sameLists ⟨rfl, rfl⟩ fun q => ?_
  unfold Area.transmission Area.setAge
  dsimp only
  by_cases h : q = r
  · subst h
    exact ⟨age, Function.update_self _ _ _⟩
  · exact ⟨(a.headers q).age, Function.update_of_ne h _ _⟩

theorem wellKeyed_mk (nbr : OspfNbr) (hk : WellKeyed (a.transmission n))
    (hreTx : ∀ key v, nbr.reTxList.lookup key = some v → (a.nbrs n).reTxList.lookup key = some v ∨
      ∃ r, v = some r ∧ getLsaKey (a.headers r) = key)
    (hpending : ∀ key v, nbr.pendingReTxList.lookup key = some v →
      (a.nbrs n).pendingReTxList.lookup key = some v) :
    WellKeyed ⟨a.headers, nbr.reTxList, nbr.pendingReTxList⟩ := by
  intro txList key v hv
  cases txList with
  | reTx => exact (hreTx key v hv).elim (hk .reTx key v) id
  | pending => exact hk .pending key v (hpending key v hv)

/-- What an advertisement that is flooded does to a neighbor: nothing to its lists, or it is put in
one. -/
theorem lists_addToTxList (recLsa : Ref) (n : ν) :
    (addToTxList a (a.nbrs n) recLsa).pendingReTxList = (a.nbrs n).pendingReTxList ∧
      ((Takes a n recLsa ∧ (addToTxList a (a.nbrs n) recLsa).reTxList =
          (a.nbrs n).reTxList.insert (getLsaKey (a.headers recLsa)) (some recLsa)) ∨
        (¬ Takes a n recLsa ∧
          (addToTxList a (a.nbrs n) recLsa).reTxList = (a.nbrs n).reTxList)) := by
  unfold addToTxList Takes
  dsimp only
  by_cases hstate : (a.nbrs n).state.getValue < OspfNeighborState.EXCHANGE.getValue
  · rw [if_pos hstate]
    exact ⟨rfl, Or.inr ⟨fun h => absurd h.1 (Nat.not_le.mpr hstate), rfl⟩⟩
  · rw [if_neg hstate]
    split
    · rename_i hput
      exact ⟨rfl, Or.inl ⟨⟨Nat.not_lt.mp hstate, hput⟩, rfl⟩⟩
    · rename_i hput
      exact ⟨rfl, Or.inr ⟨fun h => hput h.2, rfl⟩⟩

/-- What is awaited is awaited still when a key of the list for acknowledgements keeps what it leads
to, as far as it counts. -/
theorem awaits_mk (nbr : OspfNbr) (hreTx : nbr.reTxList = (a.nbrs n).reTxList)
    (hpending : ∀ r, (a.transmission n).get .reTx lsa.key = none →
      (a.nbrs n).pendingReTxList.lookup lsa.key = some (some r) → instanceOf (a.headers r) = lsa →
      nbr.pendingReTxList.lookup lsa.key = some (some r))
    (ha : Awaits a n lsa) :
    (current ⟨a.headers, nbr.reTxList, nbr.pendingReTxList⟩ lsa.key).map
      (fun r => instanceOf (a.headers r)) = some lsa := by
  have hget : Transmission.get ⟨a.headers, nbr.reTxList, nbr.pendingReTxList⟩ .reTx lsa.key =
      (a.transmission n).get .reTx lsa.key := by
    unfold Transmission.get Transmission.list
    dsimp only
    rw [hreTx]
    rfl
  unfold Awaits FloodingPasses.current at ha
  unfold FloodingPasses.current
  rw [hget]
  cases hq : (a.transmission n).get .reTx lsa.key with
  | some q =>
    rw [hq] at ha
    exact ha
  | none =>
    rw [hq, Option.none_or] at ha
    obtain ⟨r, hr, hlsa⟩ := Option.map_eq_some_iff.mp ha
    have hlook := hpending r hq (lookup_of_get hr) hlsa
    rw [Option.none_or, Transmission.get, Transmission.list, hlook, Option.join_some,
      Option.map_some, hlsa]

def Keyed (a : Area ν) : Prop := ∀ n, WellKeyed (a.transmission n)

theorem sent_spec (hk : Keyed a) {isConnected : Bool}
    (h : Harmless sameBody a (.flood n isConnected)) :
    (∀ lsa, Holds a n lsa →
      ∃ m ∈ a.sent sameBody n isConnected, ∃ c ∈ m.copies, instanceOf c.2 = lsa) ∧
      ∀ m ∈ a.sent sameBody n isConnected, ∀ c ∈ m.copies, ∀ age, a.databaseAge c.1 = some age →
        c.2.age = grown age := by
  obtain ⟨rfl, hfloodable⟩ := h
  obtain ⟨out, hout, _, hall, hages⟩ := floodingTask_spec (a.nbrs n) (hk n) hfloodable
  have hsent : a.sent sameBody n true = out.2 := by
    rw [Area.sent, Area.flooded, hout]
    rfl
  rw [hsent]
  refine ⟨?_, hages⟩
  rintro lsa ⟨txList, r, hr, hlsa⟩
  obtain ⟨m, hm, c, hc, hsame⟩ := hall txList lsa.key r hr
  exact ⟨m, hm, c, hc, hsame.trans hlsa⟩

structure Carries (a a' : Area ν) (n : ν) (x : Input ν) : Prop where
  wellKeyed : WellKeyed (a'.transmission n)
  awaits : ∀ lsa, Awaits a n lsa → ¬ Releases a n lsa x → Awaits a' n lsa

section Own

variable [DecidableEq ν]

theorem transmission_put_self (n : ν) (nbr : OspfNbr) :
    (a.put n nbr).transmission n = ⟨a.headers, nbr.reTxList, nbr.pendingReTxList⟩ := by
  unfold Area.transmission Area.put
  simp only [Function.update_self]

theorem transmission_put_of_ne {n m : ν} (h : n ≠ m) (nbr : OspfNbr) :
    (a.put m nbr).transmission n = a.transmission n := by
  unfold Area.transmission Area.put
  simp only [Function.update_of_ne h]

/-- The input does not touch the lists of a neighbor, but for its flooding task. -/
def IsQuiet (n : ν) : Input ν → Prop
  | .addToOtherNeighborLsaTxList _ => False
  | .lsAck m _ => m ≠ n
  | .receive m _ => m ≠ n
  | .clear m => m ≠ n
  | _ => True

/-- A run of the flooding task of a neighbor leaves its lists as the task does, and those of the
others alone. -/
theorem passes_flood (hk : ∀ n, WellKeyed (a.transmission n)) {m : ν} {isConnected : Bool}
    (h : Harmless sameBody a (.flood m isConnected)) (n : ν) :
    Passes (a.transmission n) ((a.next sameBody (.flood m isConnected)).transmission n) := by
  obtain ⟨rfl, hfloodable⟩ := h
  obtain ⟨out, hout, hpasses, _⟩ := floodingTask_spec (a.nbrs m) (hk m) hfloodable
  have hnext : a.next sameBody (.flood m true) = a.afterFlood m out.1 := by
    rw [Area.next, Area.flooded, hout]
  rw [hnext]
  by_cases hm : n = m
  · subst hm
    have hself : (a.afterFlood n out.1).transmission n = out.1 := by
      unfold Area.afterFlood Area.transmission Area.put
      simp only [Function.update_self]
    rw [hself]
    exact hpasses
  · apply passes_of_sameLists
    · unfold SameLists Area.afterFlood Area.transmission Area.put
      simp only [Function.update_of_ne hm, and_self]
    · exact hpasses.header

theorem passes_next (hk : ∀ n, WellKeyed (a.transmission n)) {x : Input ν}
    (hx : Harmless sameBody a x) {n : ν} (hquiet : IsQuiet n x) :
    Passes (a.transmission n) ((a.next sameBody x).transmission n) := by
  cases x with
  | tick =>
    rw [Area.next]
    exact passes_database _ _ n
  | addLsa lsa isSelfOriginated =>
    rw [Area.next]
    exact passes_database _ _ n
  | deleteLsa lsaHeader =>
    rw [Area.next]
    exact passes_database _ _ n
  | addLsaToMaxAgeBin wrapper age =>
    rw [Area.next]
    exact passes_database _ _ n
  | lsaHeader wrapper => exact passes_setAge _ _ n
  | setMaxAge lsa => exact passes_setAge _ _ n
  | addToOtherNeighborLsaTxList recLsa => exact absurd hquiet id
  | flood m isConnected => exact passes_flood hk hx n
  | lsAck m linkStateHeaders =>
    rw [Area.next, transmission_put_of_ne (Ne.symm hquiet)]
    exact Passes.refl _
  | receive m recLsa =>
    rw [Area.next, transmission_put_of_ne (Ne.symm hquiet)]
    exact Passes.refl _
  | change m nbr =>
    by_cases hm : n = m
    · subst hm
      rw [Area.next, transmission_put_self]
      exact Passes.refl _
    · rw [Area.next, transmission_put_of_ne hm]
      exact Passes.refl _
  | clear m =>
    rw [Area.next, transmission_put_of_ne (Ne.symm hquiet)]
    exact Passes.refl _

section

variable (hk : Keyed a)

include hk

theorem carries_addToTxList {recLsa : Ref}
    (hx : Harmless sameBody a (.addToOtherNeighborLsaTxList recLsa)) (n : ν) :
    Carries a (a.next sameBody (.addToOtherNeighborLsaTxList recLsa)) n
      (.addToOtherNeighborLsaTxList recLsa) := by
  rw [Area.next]
  obtain ⟨hpending, ⟨htakes, hreTx⟩ | ⟨_, hreTx⟩⟩ := lists_addToTxList (a := a) recLsa n
  · constructor
    · apply wellKeyed_mk _ (hk n)
      · intro key v hv
        rw [hreTx, lookup_insert] at hv
        split at hv
        · rename_i he
          exact Or.inr ⟨recLsa, (Option.some.inj hv).symm, he.symm⟩
        · exact Or.inl hv
      · intro key v hv
        rwa [hpending] at hv
    · intro lsa ha hnot
      have hget (key : String) : Transmission.get ⟨a.headers,
          (addToTxList a (a.nbrs n) recLsa).reTxList,
          (addToTxList a (a.nbrs n) recLsa).pendingReTxList⟩ .reTx key =
          if key = getLsaKey (a.headers recLsa) then some recLsa
          else (a.transmission n).get .reTx key := by
        unfold Transmission.get Transmission.list
        dsimp only
        rw [hreTx, lookup_insert]
        split <;> rfl
      by_cases hkey : lsa.key = getLsaKey (a.headers recLsa)
      · obtain ⟨r, hr, hlsa⟩ := Option.map_eq_some_iff.mp ha
        obtain hsame | hnewer := hx n r htakes (hkey ▸ hr)
        · unfold Awaits FloodingPasses.current Area.transmission
          dsimp only
          rw [hget, if_pos hkey, Option.some_or, Option.map_some, hsame, hlsa]
        · exact absurd ⟨htakes, hkey.symm, hlsa ▸ hnewer⟩ hnot
      · unfold Awaits FloodingPasses.current Area.transmission
        dsimp only
        rw [hget, if_neg hkey, hpending]
        exact ha
  · have hsame : SameLists (a.transmission n) (⟨a.headers, (addToTxList a (a.nbrs n) recLsa).reTxList,
        (addToTxList a (a.nbrs n) recLsa).pendingReTxList⟩) := ⟨hreTx, hpending⟩
    have hpasses := passes_of_sameLists hsame fun r => ⟨(a.headers r).age, rfl⟩
    exact ⟨hpasses.wellKeyed (hk n), fun lsa ha _ => ha.of_passes hpasses⟩

theorem carries_lsAck (n : ν) (linkStateHeaders : List LsaHeader) :
    Carries a (a.next sameBody (.lsAck n linkStateHeaders)) n (.lsAck n linkStateHeaders) := by
  have hlists : (processLsAckMessage a (a.nbrs n) linkStateHeaders).reTxList =
      (a.nbrs n).reTxList := by
    unfold processLsAckMessage
    split <;> rfl
  rw [Area.next]
  constructor
  · rw [transmission_put_self]
    apply wellKeyed_mk _ (hk n)
    · intro key v hv
      rw [hlists] at hv
      exact Or.inl hv
    · intro key v hv
      unfold processLsAckMessage at hv
      split at hv
      · exact hv
      · exact lookup_foldl_acknowledge hv
  · intro lsa ha hnot
    unfold Awaits
    rw [transmission_put_self]
    refine awaits_mk (a := a) _ hlists ?_ ha
    intro r _ hr hlsa
    unfold processLsAckMessage
    split
    · exact hr
    · apply foldl_acknowledge_of_ne hr
      · rw [← hlsa]
        rfl
      · intro h hh he
        exact hnot ⟨rfl, h, hh, he.trans hlsa⟩

theorem carries_receive {n : ν} {recLsa : LsaHeader}
    (hx : Harmless sameBody a (.receive n recLsa)) :
    Carries a (a.next sameBody (.receive n recLsa)) n (.receive n recLsa) := by
  rw [Area.next]
  unfold receiveSame
  split
  · rename_i hsame
    constructor
    · rw [transmission_put_self]
      apply wellKeyed_mk { a.nbrs n with
        pendingReTxList := (a.nbrs n).pendingReTxList.erase (getLsaKey recLsa) } (hk n)
      · exact fun key v hv => Or.inl hv
      · intro key v hv
        dsimp only at hv
        rw [lookup_erase] at hv
        split at hv
        · cases hv
        · exact hv
    · intro lsa ha hnot
      unfold Awaits
      rw [transmission_put_self]
      refine awaits_mk (a := a) { a.nbrs n with
        pendingReTxList := (a.nbrs n).pendingReTxList.erase (getLsaKey recLsa) } rfl ?_ ha
      intro r hnone hr hlsa
      dsimp only
      rw [lookup_erase]
      split
      · rename_i hkey
        have hget : (a.transmission n).get .pending lsa.key = some r := by
          rw [Transmission.get, Transmission.list, show (a.transmission n).pendingReTxList.lookup
            lsa.key = some (some r) from hr, Option.join_some]
        rw [hkey] at hnone hget
        obtain he | hnewer := hx r hsame hnone hget
        · exact absurd ⟨rfl, Or.inl (he.trans hlsa)⟩ hnot
        · exact absurd ⟨rfl, Or.inr ⟨hkey.symm, hlsa ▸ hnewer⟩⟩ hnot
      · exact hr
  · refine ⟨?_, fun lsa ha _ => ?_⟩
    · rw [transmission_put_self]
      exact hk n
    · unfold Awaits
      rw [transmission_put_self]
      exact ha

theorem carries_clear (n : ν) : Carries a (a.next sameBody (.clear n)) n (.clear n) := by
  rw [Area.next]
  refine ⟨?_, fun lsa _ hnot => absurd rfl hnot⟩
  rw [transmission_put_self]
  apply wellKeyed_mk { a.nbrs n with reTxList := ∅ } (hk n)
  · intro key v hv
    rw [AList.lookup_empty] at hv
    cases hv
  · exact fun key v hv => hv

theorem carries_next {x : Input ν} (hx : Harmless sameBody a x) (n : ν) :
    Carries a (a.next sameBody x) n x := by
  have hquiet (h : IsQuiet n x) : Carries a (a.next sameBody x) n x :=
    ⟨(passes_next hk hx h).wellKeyed (hk n), fun _ ha _ => ha.of_passes (passes_next hk hx h)⟩
  cases x with
  | addToOtherNeighborLsaTxList recLsa => exact carries_addToTxList hk hx n
  | lsAck m linkStateHeaders =>
    by_cases hm : m = n
    · subst hm
      exact carries_lsAck hk m linkStateHeaders
    · exact hquiet hm
  | receive m recLsa =>
    by_cases hm : m = n
    · subst hm
      exact carries_receive hk hx
    · exact hquiet hm
  | clear m =>
    by_cases hm : m = n
    · subst hm
      exact carries_clear hk m
    · exact hquiet hm
  | _ => exact hquiet trivial

end

theorem awaits_of_takes {n : ν} {recLsa : Ref} (h : Takes a n recLsa) :
    Awaits (a.next sameBody (.addToOtherNeighborLsaTxList recLsa)) n
      (instanceOf (a.headers recLsa)) := by
  obtain ⟨_, ⟨_, hreTx⟩ | ⟨hnot, _⟩⟩ := lists_addToTxList (a := a) recLsa n
  · have hget : ((addToTxList a (a.nbrs n) recLsa).reTxList.lookup
        (getLsaKey (a.headers recLsa))).join = some recLsa := by
      rw [hreTx, AList.lookup_insert, Option.join_some]
    have hcurrent : current ((a.next sameBody (.addToOtherNeighborLsaTxList recLsa)).transmission n)
        (getLsaKey (a.headers recLsa)) = some recLsa := Option.or_eq_some_iff.mpr (Or.inl hget)
    exact Option.map_eq_some_iff.mpr ⟨recLsa, hcurrent, rfl⟩
  · exact absurd h hnot

end Own

end Steps

section Runs

variable {ν : Type*} [DecidableEq ν] {sameBody : Ref → Ref → Bool} {a b : Area ν}

theorem run_append (ys zs : List (Input ν)) :
    a.run sameBody (ys ++ zs) = (a.run sameBody ys).run sameBody zs := List.foldl_append

theorem valid_initial {p : Area ν → Input ν → Prop} {s : Area ν} {xs : List (Input ν)}
    (h : ((machine sameBody a).guarded p).Valid s xs) :
    ((machine sameBody b).guarded p).Valid s xs := by
  induction xs generalizing s with
  | nil => trivial
  | cons x xs ih => exact ⟨h.1, ih h.2⟩

def IsHarmless (sameBody : Ref → Ref → Bool) (a : Area ν) (xs : List (Input ν)) : Prop :=
  ((machine sameBody a).guarded (Harmless sameBody)).Valid a xs

theorem IsHarmless.append {ys zs : List (Input ν)} (h : IsHarmless sameBody a (ys ++ zs)) :
    IsHarmless sameBody a ys ∧ IsHarmless sameBody (a.run sameBody ys) zs := by
  obtain ⟨hy, hz⟩ := (valid_append _ a ys zs).mp h
  exact ⟨hy, valid_initial hz⟩

theorem IsHarmless.of_isPrefix {xs ys : List (Input ν)} (h : IsHarmless sameBody a xs)
    (hp : ys <+: xs) : IsHarmless sameBody a ys := by
  obtain ⟨zs, rfl⟩ := hp
  exact h.append.1

theorem keyed_run (hk : Keyed a) {xs : List (Input ν)} (h : IsHarmless sameBody a xs) :
    Keyed (a.run sameBody xs) :=
  invariant_run Keyed (fun s x hs (hx : True ∧ Harmless sameBody s x) n =>
    (carries_next hs hx.2 n).wellKeyed) h hk

theorem awaits_run (hk : Keyed a) {n : ν} {lsa : Instance} {xs : List (Input ν)}
    (h : IsHarmless sameBody a xs) (hu : Undisturbed sameBody a n lsa xs) (ha : Awaits a n lsa) :
    Awaits (a.run sameBody xs) n lsa := by
  refine (invariant_run (fun b => Keyed b ∧ Awaits b n lsa) ?_ (h.guarded_and hu) ⟨hk, ha⟩).2
  intro s x hs hx
  obtain ⟨⟨_, hharmless⟩, hnot⟩ := hx
  exact ⟨fun m => (carries_next hs.1 hharmless m).wellKeyed,
    (carries_next hs.1 hharmless n).awaits lsa hs.2 hnot⟩

theorem isKept_of_isHarmless (hk : Keyed a) {xs : List (Input ν)}
    (h : IsHarmless sameBody a xs) : IsKept sameBody a xs := by
  intro n recLsa ys zs hp htakes hu
  have hall := h.of_isPrefix hp
  rw [List.append_cons] at hall ⊢
  obtain ⟨hplaced, hrest⟩ := hall.append
  rw [run_append]
  apply Awaits.holds
  refine awaits_run (keyed_run hk hplaced) hrest hu ?_
  rw [run_append]
  show Awaits ((a.run sameBody ys).next sameBody (.addToOtherNeighborLsaTxList recLsa)) n _
  exact awaits_of_takes htakes

end Runs

section Results

/-- The advertisements of a router about itself, which differ in their sequence numbers. -/
def routerLsa (r : Ref) : LsaHeader where
  age := 1
  options := 2
  lsType := OspfLsaType.ROUTER.value
  linkStateId := "10.0.0.2"
  opaqueType := 0
  opaqueId := 0
  advertisingRouter := ⟨10, 0, 0, 2⟩
  lsSequenceNo := STARTLSSEQUENCENUM + r
  lsCheckSum := 4660
  lsPacketLen := 36

def peer (neighborId : String) : OspfNbr where
  neighborId := neighborId
  ospfInterface := ethernet 1500
  neighborIpAddr := ⟨10, 0, 0, 1⟩
  neighborDr := none
  isOpaqueCapable := true
  state := .FULL
  lsReqList := []
  reTxList := ∅
  pendingReTxList := ∅

def twoPeers : Area Bool where
  database := OspfLsdb.initial ⟨0, 0, Nat.zero_le MAXAGE⟩
  ospfLsa := fun _ => 0
  headers := routerLsa
  nbrs := fun n => if n then peer "10.0.0.1" else peer "10.0.0.3"

def originate (lsa : Ref) : List (Input Bool) :=
  [.addLsa lsa true, .addToOtherNeighborLsaTxList lsa]

theorem reTx_originate {key : String} {r : Ref}
    (h : ((twoPeers.run (fun _ _ => true) (originate 0)).transmission true).get .reTx key = some r) :
    r = 0 := by
  have hlists : ((twoPeers.run (fun _ _ => true) (originate 0)).transmission true).reTxList =
      (∅ : Table String (Option Ref)).insert "1-10.0.0.2-10.0.0.2" (some 0) :=
    AList.ext (by decide)
  rw [Transmission.get, Transmission.list, hlists, lookup_insert] at h
  split at h
  · rw [Option.join_some, Option.some.injEq] at h
    exact h.symm
  · rw [AList.lookup_empty] at h
    cases h

/-- An advertisement that is refreshed before it was acknowledged, with the body that it had. -/
def refreshed : List (Input Bool) :=
  originate 0 ++ [.flood true true] ++ originate 1 ++ [.flood true true]

def floodedTwice : List (Input Bool) := originate 0 ++ [.flood true true, .flood false true]

end Results

end ReliableFlooding

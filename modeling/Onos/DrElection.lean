import Mathlib.Data.List.MinMax
import Mathlib.Data.Prod.Lex
import Onos.LsUpdates

/-! The election of the designated router of a network and of its backup. An interface elects among
the neighbors that it talks to both ways and itself, by what each claims to be, and takes a role of
its own from the outcome. -/
namespace DrElection

open LinkStateHeaders LsUpdates WireBytes

def DEFAULTIP : Ip4Address := ⟨0, 0, 0, 0⟩

def ipAddressToLong (a : Ip4Address) : ℕ := valueOf a.toOctets

structure OspfNbr where
  neighborId : Ip4Address
  neighborIpAddr : Ip4Address
  routerPriority : ℤ
  state : OspfNeighborState
  neighborDr : Ip4Address
  neighborBdr : Ip4Address

/-- An interface as the election sees it. A message is let in only if both its address and its
router id are not the interface's own, and neighbors are kept by their router ids. -/
structure OspfInterfaceImpl where
  ipAddress : Ip4Address
  routerId : Ip4Address
  routerPriority : ℤ
  state : OspfInterfaceState
  dr : Ip4Address
  bdr : Ip4Address
  listOfNeighbors : List OspfNbr
  addressed : ipAddress ≠ DEFAULTIP
  foreign : ∀ nbr ∈ listOfNeighbors,
    nbr.neighborIpAddr ≠ ipAddress ∧ nbr.neighborIpAddr ≠ DEFAULTIP
  distinct : (routerId :: listOfNeighbors.map OspfNbr.neighborId).Nodup

/-- A router that takes part. Nothing reads the router id of a new one. -/
structure OspfEligibleRouter where
  ipAddress : Ip4Address := DEFAULTIP
  routerId : Ip4Address := DEFAULTIP
  routerPriority : ℤ := 0
  isDr : Bool := false
  isBdr : Bool := false

section Electing

def select : OspfEligibleRouter → List OspfEligibleRouter → OspfEligibleRouter
  | initialRouter, [] => initialRouter
  | initialRouter, router :: rest =>
    if router.routerPriority > initialRouter.routerPriority then select router rest
    else if router.routerPriority = initialRouter.routerPriority ∧
        ipAddressToLong router.ipAddress > ipAddressToLong initialRouter.ipAddress then
      select router rest
    else select initialRouter rest

def selectRouterBasedOnPriority : List OspfEligibleRouter → OspfEligibleRouter
  | [] => {}
  | router :: rest => select router rest

def electBdr (eligibleRouters : List OspfEligibleRouter) : OspfEligibleRouter :=
  let declaredAsBdr := eligibleRouters.filter fun r => r.isBdr
  let notDrAndBdr := eligibleRouters.filter fun r => !r.isBdr && !r.isDr
  let electedBdr := if declaredAsBdr ≠ [] then selectRouterBasedOnPriority declaredAsBdr
    else selectRouterBasedOnPriority notDrAndBdr
  { electedBdr with isBdr := true, isDr := false }

def electDr (eligibleRouters : List OspfEligibleRouter) (electedBdr : OspfEligibleRouter) :
    OspfEligibleRouter :=
  let declaredAsDr := eligibleRouters.filter fun r => r.isDr
  if declaredAsDr ≠ [] then
    if declaredAsDr.length = 1 ∨ eligibleRouters.length > 1 then
      selectRouterBasedOnPriority declaredAsDr
    else {}
  else { electedBdr with isDr := true, isBdr := false }

def neighborRouter (electedDr : Ip4Address) (nbr : OspfNbr) : OspfEligibleRouter :=
  let isDr := nbr.neighborDr = nbr.neighborIpAddr ∨ electedDr = nbr.neighborIpAddr
  { ipAddress := nbr.neighborIpAddr
    routerId := nbr.neighborId
    routerPriority := nbr.routerPriority
    isDr := isDr
    isBdr := ¬ isDr ∧ nbr.neighborBdr = nbr.neighborIpAddr }

def ownRouter (electedDr : Ip4Address) (i : OspfInterfaceImpl) : OspfEligibleRouter :=
  let isDr := i.dr = i.ipAddress ∨ electedDr = i.ipAddress
  { ipAddress := i.ipAddress
    routerId := i.routerId
    routerPriority := i.routerPriority
    isDr := isDr
    isBdr := ¬ isDr ∧ i.bdr = i.ipAddress }

def calculateListOfEligibleRouters (i : OspfInterfaceImpl) (electedDr : OspfEligibleRouter) :
    List OspfEligibleRouter :=
  let neighbors := i.listOfNeighbors.filter fun nbr =>
    nbr.state.getValue ≥ OspfNeighborState.TWOWAY.getValue ∧ nbr.routerPriority > 0
  neighbors.map (neighborRouter electedDr.ipAddress) ++
    if i.routerPriority > 0 then [ownRouter electedDr.ipAddress i] else []

def OspfInterfaceImpl.setState (i : OspfInterfaceImpl) (state : OspfInterfaceState) :
    OspfInterfaceImpl :=
  { i with state := state }

def OspfInterfaceImpl.setRouters (i : OspfInterfaceImpl) (dr bdr : Ip4Address) : OspfInterfaceImpl :=
  { i with dr := dr, bdr := bdr }

def OspfInterfaceImpl.elect (i : OspfInterfaceImpl) : OspfInterfaceImpl :=
  let eligibleRouters := calculateListOfEligibleRouters i {}
  let electedBdr := electBdr eligibleRouters
  let electedDr := electDr eligibleRouters electedBdr
  i.setRouters electedDr.ipAddress electedBdr.ipAddress

def OspfInterfaceImpl.takeRole (i : OspfInterfaceImpl) (currentDr currentBdr : Ip4Address) :
    OspfInterfaceImpl :=
  let i := if i.bdr = i.ipAddress ∧ i.bdr ≠ currentBdr then i.setState .BDR else i
  if i.dr = i.ipAddress ∧ i.dr ≠ currentDr then i.setState .DR else i

/-- The election. It has the area originate its advertisements again and the neighbors form
adjacencies, which changes neither role nor routers. -/
def electRouter (i : OspfInterfaceImpl) : OspfInterfaceImpl :=
  let first := i.elect.takeRole i.dr i.bdr
  let last :=
    if first.state ≠ i.state ∧
        ¬ (first.state = .DROTHER ∧ i.state.value < OspfInterfaceState.DROTHER.value) then
      first.elect
    else first
  last.takeRole i.dr i.bdr

end Electing

section Rules

inductive Tie where
  | ipAddress
  | routerId
  deriving DecidableEq, Repr

def Tie.of : Tie → OspfEligibleRouter → Ip4Address
  | .ipAddress, r => r.ipAddress
  | .routerId, r => r.routerId

def rank (key : Tie) (r : OspfEligibleRouter) : ℤ ×ₗ ℕ :=
  toLex (r.routerPriority, ipAddressToLong (key.of r))

/-- The order of ranks from the orders of their parts that compute. -/
instance rankPreorder : Preorder (ℤ ×ₗ ℕ) :=
  @Prod.Lex.instPreorder ℤ ℕ Int.instLinearOrder.toPartialOrder.toPreorder
    Nat.instLinearOrder.toPartialOrder.toPreorder

def winner (key : Tie) (l : List OspfEligibleRouter) : Ip4Address :=
  ((l.argmax (rank key)).map OspfEligibleRouter.ipAddress).getD DEFAULTIP

def bdrCandidates (l : List OspfEligibleRouter) : List OspfEligibleRouter :=
  if l.filter (·.isBdr) ≠ [] then l.filter (·.isBdr) else l.filter fun r => !r.isBdr && !r.isDr

def drCandidates (l : List OspfEligibleRouter) : List OspfEligibleRouter :=
  if l.filter (·.isDr) ≠ [] then l.filter (·.isDr) else bdrCandidates l

def OspfInterfaceImpl.routers (i : OspfInterfaceImpl) : List OspfEligibleRouter :=
  calculateListOfEligibleRouters i {}

def OspfInterfaceImpl.chosen (key : Tie) (i : OspfInterfaceImpl) :
    OspfInterfaceImpl :=
  i.setRouters (winner key (drCandidates i.routers)) (winner key (bdrCandidates i.routers))

/-- The election of the rules, where router ids break ties. A router that gains or loses a role
chooses once more, with what it claims to be by then. -/
def OspfInterfaceImpl.elected (i : OspfInterfaceImpl) : OspfInterfaceImpl :=
  let first := i.chosen .routerId
  if (first.dr = i.ipAddress ↔ i.dr = i.ipAddress) ∧ (first.bdr = i.ipAddress ↔ i.bdr = i.ipAddress) then
    first
  else first.chosen .routerId

end Rules

section Winners

variable {key : Tie}

theorem argmax_append {l : List OspfEligibleRouter} (s : OspfEligibleRouter) :
    (l ++ [s]).argmax (rank key) =
      if ∀ r ∈ l, rank key r < rank key s then some s else l.argmax (rank key) := by
  rw [List.argmax_concat]
  cases hm : l.argmax (rank key) with
  | none =>
    rw [List.argmax_eq_none] at hm
    subst hm
    simp
  | some m =>
    have hmem := List.argmax_mem hm
    dsimp only
    by_cases hlt : rank key m < rank key s
    · have hall : ∀ r ∈ l, rank key r < rank key s := fun r hr =>
        lt_of_le_of_lt (List.le_of_mem_argmax hr hm) hlt
      rw [if_pos hlt, if_pos hall]
    · have hno : ¬ ∀ r ∈ l, rank key r < rank key s := fun h => hlt (h m hmem)
      rw [if_neg hlt, if_neg hno]

theorem winner_append (l : List OspfEligibleRouter) (s : OspfEligibleRouter) :
    winner key (l ++ [s]) =
      if ∀ r ∈ l, rank key r < rank key s then s.ipAddress else winner key l := by
  unfold winner
  rw [argmax_append]
  split <;> rfl

theorem winner_mem (key : Tie) (l : List OspfEligibleRouter) :
    winner key l = DEFAULTIP ∨ ∃ r ∈ l, r.ipAddress = winner key l := by
  unfold winner
  cases hm : l.argmax (rank key) with
  | none => exact Or.inl rfl
  | some m => exact Or.inr ⟨m, List.argmax_mem hm, rfl⟩

theorem rank_lt_iff (key : Tie) (m r : OspfEligibleRouter) :
    rank key m < rank key r ↔ r.routerPriority > m.routerPriority ∨
      r.routerPriority = m.routerPriority ∧ ipAddressToLong (key.of r) > ipAddressToLong (key.of m) := by
  unfold rank
  rw [Prod.Lex.toLex_lt_toLex, eq_comm (a := m.routerPriority)]

theorem argmax_select (initialRouter : OspfEligibleRouter) (rest : List OspfEligibleRouter) :
    (initialRouter :: rest).argmax (rank .ipAddress) = some (select initialRouter rest) := by
  have hfold (m : OspfEligibleRouter) : rest.foldl
      (List.argAux fun b c => rank .ipAddress c < rank .ipAddress b) (some m) =
        some (select m rest) := by
    induction rest generalizing m with
    | nil => rfl
    | cons r rest ih =>
      rw [List.foldl_cons, select, List.argAux]
      dsimp only
      by_cases hgt : r.routerPriority > m.routerPriority
      · rw [if_pos ((rank_lt_iff .ipAddress m r).mpr (Or.inl hgt)), if_pos hgt, ih]
      · by_cases htie : r.routerPriority = m.routerPriority ∧
            ipAddressToLong r.ipAddress > ipAddressToLong m.ipAddress
        · rw [if_pos ((rank_lt_iff .ipAddress m r).mpr (Or.inr htie)), if_neg hgt, if_pos htie, ih]
        · have hno : ¬ rank .ipAddress m < rank .ipAddress r := by
            rw [rank_lt_iff]
            rintro (h | h)
            · exact hgt h
            · exact htie h
          rw [if_neg hno, if_neg hgt, if_neg htie, ih]
  exact hfold initialRouter

theorem winner_select (l : List OspfEligibleRouter) :
    (selectRouterBasedOnPriority l).ipAddress = winner .ipAddress l := by
  cases l with
  | nil => rfl
  | cons r rest =>
    unfold winner
    rw [argmax_select]
    rfl

theorem elect_eq (i : OspfInterfaceImpl) : i.elect = i.chosen .ipAddress := by
  have hbdr : (electBdr i.routers).ipAddress = winner .ipAddress (bdrCandidates i.routers) := by
    unfold electBdr bdrCandidates
    dsimp only
    split
    · exact winner_select _
    · exact winner_select _
  have hdr : (electDr i.routers (electBdr i.routers)).ipAddress =
      winner .ipAddress (drCandidates i.routers) := by
    unfold electDr drCandidates
    dsimp only
    by_cases hnone : i.routers.filter (·.isDr) = []
    · rw [if_neg (not_not.mpr hnone), if_neg (not_not.mpr hnone)]
      exact hbdr
    · have hsize : (i.routers.filter (·.isDr)).length = 1 ∨ i.routers.length > 1 := by
        have hle := List.length_filter_le (·.isDr) i.routers
        have hpos := List.length_pos_iff.mpr hnone
        omega
      rw [if_pos hnone, if_pos hnone, if_pos hsize]
      exact winner_select _
  unfold OspfInterfaceImpl.elect OspfInterfaceImpl.chosen
  rw [← hbdr, ← hdr]
  rfl

end Winners

section Shapes

variable (key : Tie) (i : OspfInterfaceImpl)

def neighborRouters : List OspfEligibleRouter :=
  (i.listOfNeighbors.filter fun nbr =>
    nbr.state.getValue ≥ OspfNeighborState.TWOWAY.getValue ∧ nbr.routerPriority > 0).map
      (neighborRouter DEFAULTIP)

def declaredDr : List OspfEligibleRouter := (neighborRouters i).filter (·.isDr)

def declaredBdr : List OspfEligibleRouter := (neighborRouters i).filter (·.isBdr)

def undeclared : List OspfEligibleRouter := (neighborRouters i).filter fun r => !r.isBdr && !r.isDr

def Beats (l : List OspfEligibleRouter) : Prop :=
  ∀ r ∈ l, rank key r < rank key (ownRouter DEFAULTIP i)

instance (l : List OspfEligibleRouter) : Decidable (Beats key i l) :=
  inferInstanceAs (Decidable (∀ r ∈ l, rank key r < rank key (ownRouter DEFAULTIP i)))

def against (l : List OspfEligibleRouter) : Ip4Address :=
  if Beats key i l then i.ipAddress else winner key l

theorem winner_own (l : List OspfEligibleRouter) :
    winner key (l ++ [ownRouter DEFAULTIP i]) = against key i l := by
  unfold against Beats
  rw [winner_append]
  rfl

theorem own_isDr : (ownRouter DEFAULTIP i).isDr = decide (i.dr = i.ipAddress) := by
  have hno : ¬ DEFAULTIP = i.ipAddress := fun e => i.addressed e.symm
  simp [ownRouter, hno]

theorem own_isBdr :
    (ownRouter DEFAULTIP i).isBdr = decide (i.dr ≠ i.ipAddress ∧ i.bdr = i.ipAddress) := by
  have hno : ¬ DEFAULTIP = i.ipAddress := fun e => i.addressed e.symm
  simp [ownRouter, hno]

theorem routers_eq : i.routers =
    neighborRouters i ++ if 0 < i.routerPriority then [ownRouter DEFAULTIP i] else [] := rfl

theorem dr_chosen : (i.chosen key).dr =
    if 0 < i.routerPriority ∧ i.dr = i.ipAddress then against key i (declaredDr i)
    else if declaredDr i ≠ [] then winner key (declaredDr i)
    else (i.chosen key).bdr := by
  have hdr : (i.chosen key).dr = winner key (drCandidates i.routers) := rfl
  rw [hdr]
  unfold drCandidates
  rw [routers_eq, List.filter_append]
  change winner key (if declaredDr i ++ _ ≠ [] then declaredDr i ++ _ else _) = _
  by_cases hp : 0 < i.routerPriority
  · by_cases hd : i.dr = i.ipAddress
    · simp [hp, hd, own_isDr, winner_own]
    · simp only [hp, hd, own_isDr, ↓reduceIte, List.filter_cons, List.filter_nil, decide_false,
        Bool.false_eq_true, List.append_nil, and_false]
      split
      · rfl
      · unfold OspfInterfaceImpl.chosen
        rw [routers_eq, if_pos hp]
        rfl
  · simp only [hp, ↓reduceIte, List.filter_nil, List.append_nil, false_and]
    split
    · rfl
    · unfold OspfInterfaceImpl.chosen
      rw [routers_eq, if_neg hp, List.append_nil]
      rfl

theorem bdr_chosen : (i.chosen key).bdr =
    if 0 < i.routerPriority ∧ i.dr ≠ i.ipAddress ∧ i.bdr = i.ipAddress then
      against key i (declaredBdr i)
    else if declaredBdr i ≠ [] then winner key (declaredBdr i)
    else if 0 < i.routerPriority ∧ i.dr ≠ i.ipAddress then against key i (undeclared i)
    else winner key (undeclared i) := by
  have hbdr : (i.chosen key).bdr = winner key (bdrCandidates i.routers) := rfl
  rw [hbdr]
  unfold bdrCandidates
  rw [routers_eq, List.filter_append, List.filter_append]
  change winner key (if declaredBdr i ++ _ ≠ [] then declaredBdr i ++ _ else undeclared i ++ _) = _
  by_cases hp : 0 < i.routerPriority
  · by_cases hd : i.dr = i.ipAddress
    · simp [hp, hd, own_isDr, own_isBdr]
      split <;> rfl
    · by_cases hb : i.bdr = i.ipAddress
      · simp [hp, hd, hb, own_isBdr, winner_own]
      · simp [hp, hd, hb, own_isDr, own_isBdr]
        split
        · rw [winner_own]
        · rfl
  · simp [hp]
    split <;> rfl

theorem against_setRouters (d b : Ip4Address) (l : List OspfEligibleRouter) :
    against key (i.setRouters d b) l = against key i l := by
  cases key <;> rfl

theorem dr_again (d b : Ip4Address) : ((i.setRouters d b).chosen key).dr =
    if 0 < i.routerPriority ∧ d = i.ipAddress then against key i (declaredDr i)
    else if declaredDr i ≠ [] then winner key (declaredDr i)
    else ((i.setRouters d b).chosen key).bdr := by
  rw [dr_chosen, against_setRouters]
  rfl

theorem bdr_again (d b : Ip4Address) : ((i.setRouters d b).chosen key).bdr =
    if 0 < i.routerPriority ∧ d ≠ i.ipAddress ∧ b = i.ipAddress then
      against key i (declaredBdr i)
    else if declaredBdr i ≠ [] then winner key (declaredBdr i)
    else if 0 < i.routerPriority ∧ d ≠ i.ipAddress then against key i (undeclared i)
    else winner key (undeclared i) := by
  rw [bdr_chosen, against_setRouters, against_setRouters]
  rfl

theorem dr_unclaimed {d : Ip4Address} (b : Ip4Address) (hd : d ≠ i.ipAddress) :
    ((i.setRouters d b).chosen key).dr = if declaredDr i ≠ [] then winner key (declaredDr i)
      else ((i.setRouters d b).chosen key).bdr := by
  rw [dr_again, if_neg]
  exact fun h => hd h.2

theorem bdr_unclaimed {d b : Ip4Address} (hd : d ≠ i.ipAddress) (hb : b ≠ i.ipAddress) :
    ((i.setRouters d b).chosen key).bdr =
      if declaredBdr i ≠ [] then winner key (declaredBdr i)
      else if 0 < i.routerPriority then against key i (undeclared i)
      else winner key (undeclared i) := by
  rw [bdr_again]
  simp [hd, hb]

theorem winner_ne_own {l : List OspfEligibleRouter} (h : ∀ r ∈ l, r ∈ neighborRouters i) :
    winner key l ≠ i.ipAddress := by
  obtain hnone | ⟨r, hr, haddress⟩ := winner_mem key l
  · rw [hnone]
    exact i.addressed.symm
  · obtain ⟨nbr, hnbr, rfl⟩ := List.mem_map.mp (h r hr)
    rw [← haddress]
    exact (i.foreign nbr (List.mem_filter.mp hnbr).1).1

theorem winner_declaredDr_ne : winner key (declaredDr i) ≠ i.ipAddress :=
  winner_ne_own key i fun _ hr => (List.mem_filter.mp hr).1

theorem winner_declaredBdr_ne : winner key (declaredBdr i) ≠ i.ipAddress :=
  winner_ne_own key i fun _ hr => (List.mem_filter.mp hr).1

theorem winner_undeclared_ne : winner key (undeclared i) ≠ i.ipAddress :=
  winner_ne_own key i fun _ hr => (List.mem_filter.mp hr).1

theorem against_nil : against key i [] = i.ipAddress :=
  if_pos fun _ hr => absurd hr List.not_mem_nil

theorem against_of_ne {l : List OspfEligibleRouter} (h : against key i l ≠ i.ipAddress) :
    against key i l = winner key l := by
  unfold against at h ⊢
  split at h
  · exact absurd rfl h
  · rename_i hno
    exact if_neg hno

end Shapes

section Rounds

variable (key : Tie) {i : OspfInterfaceImpl}

theorem bdr_ne_own {d : Ip4Address} (b : Ip4Address) (h : d = i.ipAddress) :
    ((i.setRouters d b).chosen key).bdr ≠ i.ipAddress := by
  rw [bdr_again]
  simp only [h, ne_eq, not_true_eq_false, false_and, and_false, ↓reduceIte]
  split
  · exact winner_declaredBdr_ne key i
  · exact winner_undeclared_ne key i

/-- A router that is not the designated one becomes it only where no other claims to be, as the one
that was chosen as the backup. -/
theorem gains_dr {d b : Ip4Address} (hd : d ≠ i.ipAddress)
    (h : ((i.setRouters d b).chosen key).dr = i.ipAddress) :
    declaredDr i = [] ∧ 0 < i.routerPriority ∧
      ((i.setRouters d b).chosen key).bdr = i.ipAddress := by
  rw [dr_again] at h
  simp only [hd, and_false, ↓reduceIte] at h
  split at h
  · exact absurd h (winner_declaredDr_ne key i)
  · rename_i hnone
    refine ⟨not_not.mp hnone, ?_, h⟩
    by_contra hp
    rw [bdr_again] at h
    simp only [hp, false_and, ↓reduceIte] at h
    split at h
    · exact winner_declaredBdr_ne key i h
    · exact winner_undeclared_ne key i h

theorem keeps_dr {d b : Ip4Address} (b' : Ip4Address) (hd : d ≠ i.ipAddress)
    (h : ((i.setRouters d b).chosen key).dr = i.ipAddress) :
    ((i.setRouters i.ipAddress b').chosen key).dr = i.ipAddress := by
  obtain ⟨hnone, hp, -⟩ := gains_dr key hd h
  rw [dr_again, if_pos ⟨hp, rfl⟩, hnone, against_nil]

theorem chosen_congr {d b d' b' : Ip4Address} (hd : d = i.ipAddress ↔ d' = i.ipAddress)
    (hb : d ≠ i.ipAddress → (b = i.ipAddress ↔ b' = i.ipAddress)) :
    ((i.setRouters d b).chosen key).dr = ((i.setRouters d' b').chosen key).dr ∧
      ((i.setRouters d b).chosen key).bdr = ((i.setRouters d' b').chosen key).bdr := by
  have hbdr : ((i.setRouters d b).chosen key).bdr = ((i.setRouters d' b').chosen key).bdr := by
    rw [bdr_again, bdr_again]
    by_cases e : d = i.ipAddress
    · simp [e, hd.mp e]
    · have e' : d' ≠ i.ipAddress := fun h => e (hd.mpr h)
      simp [e, e', hb e]
  refine ⟨?_, hbdr⟩
  rw [dr_again, dr_again, hbdr]
  simp [hd]

theorem chosen_bystander (hp : ¬ 0 < i.routerPriority) (d b d' b' : Ip4Address) :
    ((i.setRouters d b).chosen key).dr = ((i.setRouters d' b').chosen key).dr ∧
      ((i.setRouters d b).chosen key).bdr = ((i.setRouters d' b').chosen key).bdr := by
  have hbdr : ((i.setRouters d b).chosen key).bdr = ((i.setRouters d' b').chosen key).bdr := by
    rw [bdr_again, bdr_again]
    simp [hp]
  refine ⟨?_, hbdr⟩
  rw [dr_again, dr_again, hbdr]
  simp [hp]

theorem keeps_bdr {d b : Ip4Address} (hd : d ≠ i.ipAddress)
    (hdr : ((i.setRouters d b).chosen key).dr ≠ i.ipAddress)
    (hbdr : ((i.setRouters d b).chosen key).bdr = i.ipAddress) {d' : Ip4Address}
    (hd' : d' ≠ i.ipAddress) :
    ((i.setRouters d' i.ipAddress).chosen key).dr = ((i.setRouters d b).chosen key).dr ∧
      ((i.setRouters d' i.ipAddress).chosen key).bdr = i.ipAddress := by
  have hsome : declaredDr i ≠ [] := by
    intro hnone
    rw [dr_unclaimed key i b hd, if_neg (not_not.mpr hnone)] at hdr
    exact hdr hbdr
  constructor
  · rw [dr_unclaimed key i _ hd', dr_unclaimed key i b hd, if_pos hsome, if_pos hsome]
  · by_cases hb : b = i.ipAddress
    · have hsame : ((i.setRouters d' i.ipAddress).chosen key).bdr =
          ((i.setRouters d b).chosen key).bdr :=
        (chosen_congr key (by simp [hd, hd']) (by simp [hb])).2
      rw [hsame, hbdr]
    · rw [bdr_unclaimed key i hd hb] at hbdr
      have hnone : declaredBdr i = [] := by
        by_contra hne
        rw [if_pos hne] at hbdr
        exact winner_declaredBdr_ne key i hbdr
      have hp : 0 < i.routerPriority := by
        by_contra hp
        rw [if_neg (not_not.mpr hnone), if_neg hp] at hbdr
        exact winner_undeclared_ne key i hbdr
      rw [bdr_again, if_pos ⟨hp, hd', rfl⟩, hnone, against_nil]

/-- A router that others are chosen over chooses the same others when it claims nothing, but after a
claim to be the designated one it can be the backup. -/
theorem loses {d b d' b' : Ip4Address} (hdr : ((i.setRouters d b).chosen key).dr ≠ i.ipAddress)
    (hbdr : ((i.setRouters d b).chosen key).bdr ≠ i.ipAddress) (hd' : d' ≠ i.ipAddress)
    (hb' : b' ≠ i.ipAddress) :
    ((i.setRouters d' b').chosen key).dr = ((i.setRouters d b).chosen key).dr ∧
      (((i.setRouters d' b').chosen key).bdr = ((i.setRouters d b).chosen key).bdr ∨
        d = i.ipAddress ∧ ((i.setRouters d' b').chosen key).bdr = i.ipAddress) := by
  by_cases hp : 0 < i.routerPriority
  · by_cases hd : d = i.ipAddress
    · have hagainst := dr_again key i d b
      rw [if_pos ⟨hp, hd⟩] at hagainst
      rw [hagainst] at hdr
      have hsome : declaredDr i ≠ [] := by
        intro hnone
        rw [hnone, against_nil] at hdr
        exact hdr rfl
      have hbdr' := bdr_again key i d b
      simp only [hd, ne_eq, not_true_eq_false, false_and, and_false, ↓reduceIte] at hbdr'
      constructor
      · rw [dr_unclaimed key i b' hd', if_pos hsome, hagainst, against_of_ne key i hdr]
      · rw [bdr_unclaimed key i hd' hb', hd, hbdr', if_pos hp]
        split
        · exact Or.inl rfl
        · unfold against
          split
          · exact Or.inr ⟨rfl, rfl⟩
          · exact Or.inl rfl
    · have hsame : ((i.setRouters d' b').chosen key).bdr = ((i.setRouters d b).chosen key).bdr := by
        by_cases hb : b = i.ipAddress
        · have hagainst := bdr_again key i d b
          rw [if_pos ⟨hp, hd, hb⟩] at hagainst
          rw [hagainst] at hbdr
          have hsome : declaredBdr i ≠ [] := by
            intro hnone
            rw [hnone, against_nil] at hbdr
            exact hbdr rfl
          rw [bdr_unclaimed key i hd' hb', if_pos hsome, hagainst, against_of_ne key i hbdr]
        · rw [bdr_unclaimed key i hd' hb', bdr_unclaimed key i hd hb]
      refine ⟨?_, Or.inl hsame⟩
      rw [dr_unclaimed key i b' hd', dr_unclaimed key i b hd, hsame]
  · have hsame := chosen_bystander key hp d' b' d b
    exact ⟨hsame.1, Or.inl hsame.2⟩

end Rounds

section Results

variable (i : OspfInterfaceImpl)

theorem takeRole_eq (currentDr currentBdr : Ip4Address) : i.takeRole currentDr currentBdr =
      i.setState (if i.dr = i.ipAddress ∧ currentDr ≠ i.ipAddress then .DR
        else if i.bdr = i.ipAddress ∧ currentBdr ≠ i.ipAddress then .BDR else i.state) := by
  have hbdr : (i.bdr = i.ipAddress ∧ i.bdr ≠ currentBdr) ↔
      i.bdr = i.ipAddress ∧ currentBdr ≠ i.ipAddress := by
    constructor
    · rintro ⟨h, hne⟩
      exact ⟨h, fun e => hne (h.trans e.symm)⟩
    · rintro ⟨h, hne⟩
      exact ⟨h, fun e => hne (e.symm.trans h)⟩
  have hdr : (i.dr = i.ipAddress ∧ i.dr ≠ currentDr) ↔
      i.dr = i.ipAddress ∧ currentDr ≠ i.ipAddress := by
    constructor
    · rintro ⟨h, hne⟩
      exact ⟨h, fun e => hne (h.trans e.symm)⟩
    · rintro ⟨h, hne⟩
      exact ⟨h, fun e => hne (e.symm.trans h)⟩
  unfold OspfInterfaceImpl.takeRole
  simp only [hbdr]
  by_cases hb : i.bdr = i.ipAddress ∧ currentBdr ≠ i.ipAddress
  · rw [if_pos hb, if_pos hb]
    change (if i.dr = i.ipAddress ∧ i.dr ≠ currentDr then i.setState .DR else i.setState .BDR) = _
    simp only [hdr]
    split <;> rfl
  · rw [if_neg hb, if_neg hb]
    simp only [hdr]
    split <;> rfl

theorem takeRole_dr {i : OspfInterfaceImpl} {currentDr : Ip4Address} (currentBdr : Ip4Address)
    (h : i.dr = i.ipAddress ∧ currentDr ≠ i.ipAddress) :
    i.takeRole currentDr currentBdr = i.setState .DR := by
  rw [takeRole_eq, if_pos h]

theorem takeRole_bdr {i : OspfInterfaceImpl} {currentDr currentBdr : Ip4Address}
    (hdr : ¬ (i.dr = i.ipAddress ∧ currentDr ≠ i.ipAddress))
    (h : i.bdr = i.ipAddress ∧ currentBdr ≠ i.ipAddress) :
    i.takeRole currentDr currentBdr = i.setState .BDR := by
  rw [takeRole_eq, if_neg hdr, if_pos h]

theorem takeRole_none {i : OspfInterfaceImpl} {currentDr currentBdr : Ip4Address}
    (hdr : ¬ (i.dr = i.ipAddress ∧ currentDr ≠ i.ipAddress))
    (hbdr : ¬ (i.bdr = i.ipAddress ∧ currentBdr ≠ i.ipAddress)) :
    i.takeRole currentDr currentBdr = i := by
  rw [takeRole_eq, if_neg hdr, if_neg hbdr]
  rfl

theorem elect_setState (state : OspfInterfaceState) :
    (i.setState state).elect = (i.chosen .ipAddress).setState state := by
  rw [elect_eq]
  rfl

/-- What the code elects: a router that becomes the designated one elects twice, if that changes its
state; any other one takes what is chosen first. -/
theorem electRouter_cases : let c := i.chosen .ipAddress
    (i.dr ≠ i.ipAddress ∧ c.dr = i.ipAddress ∧ i.state ≠ .DR ∧
        electRouter i = ((i.setRouters i.ipAddress i.ipAddress).chosen .ipAddress).setState .DR) ∨
      (i.dr ≠ i.ipAddress ∧ c.dr = i.ipAddress ∧ i.state = .DR ∧ electRouter i = c) ∨
      (¬ (i.dr ≠ i.ipAddress ∧ c.dr = i.ipAddress) ∧
        electRouter i =
          c.setState (if c.bdr = i.ipAddress ∧ i.bdr ≠ i.ipAddress then .BDR else i.state)) := by
  intro c
  have hfirst : i.elect.takeRole i.dr i.bdr =
      c.setState (if c.dr = i.ipAddress ∧ i.dr ≠ i.ipAddress then .DR
        else if c.bdr = i.ipAddress ∧ i.bdr ≠ i.ipAddress then .BDR else i.state) := by
    rw [elect_eq, takeRole_eq]
    rfl
  unfold electRouter
  rw [hfirst]
  by_cases hgain : c.dr = i.ipAddress ∧ i.dr ≠ i.ipAddress
  · simp only [if_pos hgain]
    have hbdr := (gains_dr .ipAddress hgain.2 (show ((i.setRouters i.dr i.bdr).chosen .ipAddress).dr = _ from
      hgain.1)).2.2
    by_cases hs : i.state = .DR
    · refine Or.inr (Or.inl ⟨hgain.2, hgain.1, hs, ?_⟩)
      have hstate : (c.setState .DR).state = i.state := hs.symm
      rw [if_neg (fun h => h.1 hstate)]
      refine (takeRole_dr (i := c.setState .DR) i.bdr hgain).trans ?_
      change c.setState .DR = c
      rw [← hs]
      rfl
    · refine Or.inl ⟨hgain.2, hgain.1, hs, ?_⟩
      have hstate : (c.setState .DR).state ≠ i.state ∧ ¬ ((c.setState .DR).state = .DROTHER ∧
          i.state.value < OspfInterfaceState.DROTHER.value) := by
        refine ⟨fun e => hs e.symm, ?_⟩
        rintro ⟨e, _⟩
        cases e
      have hagain : c.chosen .ipAddress = (i.setRouters i.ipAddress i.ipAddress).chosen .ipAddress := by
        change (i.setRouters c.dr c.bdr).chosen .ipAddress = _
        rw [hgain.1, show c.bdr = i.ipAddress from hbdr]
      have hdr := keeps_dr .ipAddress i.ipAddress hgain.2
        (show ((i.setRouters i.dr i.bdr).chosen .ipAddress).dr = _ from hgain.1)
      rw [if_pos hstate, elect_setState, hagain]
      exact takeRole_dr i.bdr ⟨hdr, hgain.2⟩
  · simp only [if_neg hgain]
    refine Or.inr (Or.inr ⟨fun h => hgain ⟨h.2, h.1⟩, ?_⟩)
    by_cases hb : c.bdr = i.ipAddress ∧ i.bdr ≠ i.ipAddress
    · have hd : i.dr ≠ i.ipAddress := fun e => bdr_ne_own .ipAddress i.bdr e hb.1
      have hcdr : c.dr ≠ i.ipAddress := fun e => hgain ⟨e, hd⟩
      simp only [if_pos hb]
      by_cases hs : i.state = .BDR
      · have hstate : (c.setState .BDR).state = i.state := hs.symm
        rw [if_neg (fun h => h.1 hstate)]
        exact takeRole_bdr hgain hb
      · have hstate : (c.setState .BDR).state ≠ i.state ∧ ¬ ((c.setState .BDR).state = .DROTHER ∧
            i.state.value < OspfInterfaceState.DROTHER.value) := by
          refine ⟨fun e => hs e.symm, ?_⟩
          rintro ⟨e, _⟩
          cases e
        obtain ⟨hdr, hbdr⟩ := keeps_bdr .ipAddress hd hcdr hb.1 hcdr
        have hagain : c.chosen .ipAddress = c := by
          change (i.setRouters c.dr c.bdr).chosen .ipAddress = i.setRouters c.dr c.bdr
          rw [hb.1]
          exact congrArg₂ i.setRouters hdr hbdr
        rw [if_pos hstate, elect_setState, hagain]
        exact takeRole_bdr hgain hb
    · simp only [if_neg hb]
      have hstate : (c.setState i.state).state = i.state := rfl
      rw [if_neg (fun h => h.1 hstate)]
      exact takeRole_none hgain hb

/-- What the rules elect. A router that loses the claim to be the designated one can be elected the
backup by the second choice. -/
theorem elected_cases :
    let c := i.chosen .routerId
    (i.dr ≠ i.ipAddress ∧ c.dr = i.ipAddress ∧
        i.elected = (i.setRouters i.ipAddress i.ipAddress).chosen .routerId) ∨
      (i.dr = i.ipAddress ∧ c.dr ≠ i.ipAddress ∧ i.elected.dr = c.dr ∧
        (i.elected.bdr = c.bdr ∨ i.elected.bdr = i.ipAddress)) ∨
      ((i.dr = i.ipAddress ↔ c.dr = i.ipAddress) ∧ i.elected.dr = c.dr ∧ i.elected.bdr = c.bdr) := by
  intro c
  have hagain : i.elected =
      if (c.dr = i.ipAddress ↔ i.dr = i.ipAddress) ∧ (c.bdr = i.ipAddress ↔ i.bdr = i.ipAddress) then c
      else (i.setRouters c.dr c.bdr).chosen .routerId := rfl
  by_cases hd : i.dr = i.ipAddress
  · have hbdr : c.bdr ≠ i.ipAddress := bdr_ne_own .routerId i.bdr hd
    by_cases hc : c.dr = i.ipAddress
    · refine Or.inr (Or.inr ⟨⟨fun _ => hc, fun _ => hd⟩, ?_⟩)
      rw [hagain]
      split
      · exact ⟨rfl, rfl⟩
      · have hsame : ((i.setRouters c.dr c.bdr).chosen .routerId).dr =
            ((i.setRouters i.dr i.bdr).chosen .routerId).dr ∧
            ((i.setRouters c.dr c.bdr).chosen .routerId).bdr =
              ((i.setRouters i.dr i.bdr).chosen .routerId).bdr :=
          chosen_congr .routerId ⟨fun _ => hd, fun _ => hc⟩ fun h => absurd hc h
        exact hsame
    · refine Or.inr (Or.inl ⟨hd, hc, ?_⟩)
      rw [hagain, if_neg fun h => hc (h.1.mpr hd)]
      obtain ⟨h1, h2⟩ := loses .routerId (show ((i.setRouters i.dr i.bdr).chosen .routerId).dr ≠ _
        from hc) hbdr hc hbdr
      exact ⟨h1, h2.imp id fun h => h.2⟩
  · by_cases hc : c.dr = i.ipAddress
    · refine Or.inl ⟨hd, hc, ?_⟩
      have hbdr : c.bdr = i.ipAddress := (gains_dr .routerId hd
        (show ((i.setRouters i.dr i.bdr).chosen .routerId).dr = _ from hc)).2.2
      rw [hagain, if_neg fun h => hd (h.1.mp hc), hc, hbdr]
    · refine Or.inr (Or.inr ⟨⟨fun h => absurd h hd, fun h => absurd h hc⟩, ?_⟩)
      rw [hagain]
      split
      · exact ⟨rfl, rfl⟩
      · rename_i hchanged
        have hcb : ¬ (c.bdr = i.ipAddress ↔ i.bdr = i.ipAddress) := fun h =>
          hchanged ⟨⟨fun e => absurd e hc, fun e => absurd e hd⟩, h⟩
        by_cases hbdr : c.bdr = i.ipAddress
        · rw [hbdr]
          exact keeps_bdr .routerId hd hc hbdr hc
        · obtain ⟨h1, h2⟩ := loses .routerId
            (show ((i.setRouters i.dr i.bdr).chosen .routerId).dr ≠ _ from hc) hbdr hc hbdr
          exact ⟨h1, h2.resolve_right fun h => hd h.1⟩

end Results

section Ties

/-- Where the highest router of a list is not the only one of its priority, it is the one of the
highest address too. -/
def TiesAgree (l : List OspfEligibleRouter) : Prop :=
  ∀ r ∈ l, (∀ q ∈ l, rank .routerId q ≤ rank .routerId r) →
    ∀ q ∈ l, q.routerPriority = r.routerPriority →
      ipAddressToLong q.ipAddress ≤ ipAddressToLong r.ipAddress

theorem rank_le_iff (key : Tie) (m r : OspfEligibleRouter) :
    rank key m ≤ rank key r ↔ m.routerPriority < r.routerPriority ∨
      m.routerPriority = r.routerPriority ∧ ipAddressToLong (key.of m) ≤ ipAddressToLong (key.of r) := by
  unfold rank
  rw [Prod.Lex.toLex_le_toLex]

theorem ipAddressToLong_inj {a b : Ip4Address} (h : ipAddressToLong a = ipAddressToLong b) : a = b := by
  unfold ipAddressToLong at h
  have hbytes := congrArg (bytesOf 4) h
  rw [show bytesOf 4 (valueOf a.toOctets) = a.toOctets from bytesOf_valueOf a.toOctets,
    show bytesOf 4 (valueOf b.toOctets) = b.toOctets from bytesOf_valueOf b.toOctets] at hbytes
  cases a
  cases b
  simpa [Ip4Address.toOctets] using hbytes

theorem winner_eq_iff {l : List OspfEligibleRouter}
    (hinj : ∀ r ∈ l, ∀ q ∈ l, r.routerId = q.routerId → r = q) :
    winner .ipAddress l = winner .routerId l ↔ TiesAgree l := by
  unfold winner
  cases hm : l.argmax (rank .routerId) with
  | none =>
    rw [List.argmax_eq_none] at hm
    subst hm
    simp [TiesAgree]
  | some m =>
    cases hn : l.argmax (rank .ipAddress) with
    | none =>
      rw [List.argmax_eq_none] at hn
      subst hn
      cases hm
    | some n =>
      have hmem := List.argmax_mem hm
      have hmem' := List.argmax_mem hn
      have hle (q : OspfEligibleRouter) (hq : q ∈ l) := List.le_of_mem_argmax hq hm
      have hle' (q : OspfEligibleRouter) (hq : q ∈ l) := List.le_of_mem_argmax hq hn
      have hmn := (rank_le_iff .ipAddress m n).mp (hle' m hmem)
      have hnm := (rank_le_iff .routerId n m).mp (hle n hmem')
      simp only [Option.map_some, Option.getD_some]
      constructor
      · intro he r hr hhigh q hq hprio
        have hrm := (rank_le_iff .routerId r m).mp (hle r hr)
        have hmr := (rank_le_iff .routerId m r).mp (hhigh m hmem)
        have hsame : r = m := hinj r hr m hmem (ipAddressToLong_inj (by
          simp only [Tie.of] at hrm hmr
          omega))
        have hqn := (rank_le_iff .ipAddress q n).mp (hle' q hq)
        subst hsame
        simp only [Tie.of, he] at hqn hmn hnm
        omega
      · intro hties
        have := hties m hmem hle n hmem'
        apply ipAddressToLong_inj
        simp only [Tie.of] at hmn hnm
        omega

end Ties

section Outcome

variable (i : OspfInterfaceImpl)

theorem routers_inj : ∀ r ∈ i.routers, ∀ q ∈ i.routers, r.routerId = q.routerId → r = q := by
  have hids : (i.routers.map OspfEligibleRouter.routerId).Nodup := by
    have hsub : ((i.listOfNeighbors.filter fun nbr =>
        nbr.state.getValue ≥ OspfNeighborState.TWOWAY.getValue ∧ nbr.routerPriority > 0).map
          OspfNbr.neighborId).Sublist (i.listOfNeighbors.map OspfNbr.neighborId) :=
      List.filter_sublist.map _
    obtain ⟨hown, hnbrs⟩ := List.nodup_cons.mp i.distinct
    have hmap : (neighborRouters i).map OspfEligibleRouter.routerId =
        (i.listOfNeighbors.filter fun nbr =>
          nbr.state.getValue ≥ OspfNeighborState.TWOWAY.getValue ∧ nbr.routerPriority > 0).map
            OspfNbr.neighborId := by
      unfold neighborRouters
      rw [List.map_map]
      rfl
    rw [routers_eq, List.map_append, hmap, List.nodup_append]
    refine ⟨hnbrs.sublist hsub, ?_, ?_⟩
    · split
      · exact List.nodup_singleton _
      · exact List.nodup_nil
    · rintro x hx y hy rfl
      split at hy
      · rw [List.map_singleton, List.mem_singleton] at hy
        subst hy
        exact hown (hsub.mem hx)
      · cases hy
  intro r hr q hq h
  exact List.inj_on_of_nodup_map hids hr hq h

theorem mem_bdrCandidates {r : OspfEligibleRouter} {l : List OspfEligibleRouter}
    (h : r ∈ bdrCandidates l) : r ∈ l := by
  unfold bdrCandidates at h
  split at h
  · exact (List.mem_filter.mp h).1
  · exact (List.mem_filter.mp h).1

theorem mem_drCandidates {r : OspfEligibleRouter} {l : List OspfEligibleRouter}
    (h : r ∈ drCandidates l) : r ∈ l := by
  unfold drCandidates at h
  split at h
  · exact (List.mem_filter.mp h).1
  · exact mem_bdrCandidates h

theorem dr_chosen_eq_iff : (i.chosen .ipAddress).dr = (i.chosen .routerId).dr ↔
    TiesAgree (drCandidates i.routers) :=
  winner_eq_iff fun r hr q hq => routers_inj i r (mem_drCandidates hr) q (mem_drCandidates hq)

theorem bdr_chosen_eq_iff : (i.chosen .ipAddress).bdr = (i.chosen .routerId).bdr ↔
    TiesAgree (bdrCandidates i.routers) :=
  winner_eq_iff fun r hr q hq => routers_inj i r (mem_bdrCandidates hr) q (mem_bdrCandidates hq)

/-- The address of a router that talks both ways and has a priority above zero. -/
def TakesPart (a : Ip4Address) : Prop :=
  (a = i.ipAddress ∧ 0 < i.routerPriority) ∨ ∃ nbr ∈ i.listOfNeighbors, a = nbr.neighborIpAddr ∧
    nbr.state.getValue ≥ OspfNeighborState.TWOWAY.getValue ∧ 0 < nbr.routerPriority

theorem takesPart_of_mem {r : OspfEligibleRouter} (h : r ∈ i.routers) : TakesPart i r.ipAddress := by
  rw [routers_eq, List.mem_append] at h
  obtain h | h := h
  · obtain ⟨nbr, hnbr, rfl⟩ := List.mem_map.mp h
    obtain ⟨hmem, hpart⟩ := List.mem_filter.mp hnbr
    rw [decide_eq_true_eq] at hpart
    exact Or.inr ⟨nbr, hmem, rfl, hpart⟩
  · split at h
    · rename_i hp
      rw [List.mem_singleton] at h
      subst h
      exact Or.inl ⟨rfl, hp⟩
    · cases h

theorem takesPart_chosen (key : Tie) :
    ((i.chosen key).dr = DEFAULTIP ∨ TakesPart i (i.chosen key).dr) ∧
      ((i.chosen key).bdr = DEFAULTIP ∨ TakesPart i (i.chosen key).bdr) := by
  constructor
  · obtain h | ⟨r, hr, ha⟩ := winner_mem key (drCandidates i.routers)
    · exact Or.inl h
    · have hpart := takesPart_of_mem i (mem_drCandidates hr)
      rw [ha] at hpart
      exact Or.inr hpart
  · obtain h | ⟨r, hr, ha⟩ := winner_mem key (bdrCandidates i.routers)
    · exact Or.inl h
    · have hpart := takesPart_of_mem i (mem_bdrCandidates hr)
      rw [ha] at hpart
      exact Or.inr hpart

theorem takesPart_electRouter : ((electRouter i).dr = DEFAULTIP ∨ TakesPart i (electRouter i).dr) ∧
      ((electRouter i).bdr = DEFAULTIP ∨ TakesPart i (electRouter i).bdr) := by
  obtain ⟨-, -, -, h⟩ | ⟨-, -, -, h⟩ | ⟨-, h⟩ := electRouter_cases i
  · rw [h]
    exact takesPart_chosen (i.setRouters i.ipAddress i.ipAddress) .ipAddress
  · rw [h]
    exact takesPart_chosen i .ipAddress
  · rw [h]
    exact takesPart_chosen i .ipAddress

def OspfInterfaceImpl.role : OspfInterfaceState :=
  if i.dr = i.ipAddress then .DR else if i.bdr = i.ipAddress then .BDR else .DROTHER

/-- An election leaves the interface in the state of its role, with routers that take part or none,
which are those that the rules elect. -/
structure Settled : Prop where
  state : (electRouter i).state = (electRouter i).role
  dr_part : (electRouter i).dr = DEFAULTIP ∨ TakesPart i (electRouter i).dr
  bdr_part : (electRouter i).bdr = DEFAULTIP ∨ TakesPart i (electRouter i).bdr
  dr_rule : (electRouter i).dr = i.elected.dr
  bdr_rule : (electRouter i).bdr = i.elected.bdr

/-- Ties agree in each list that a router is elected from, and the state that an interface is in is
the one of the role that it keeps; one that has a role to gain may be in any other state. -/
structure Prepared : Prop where
  dr_ties : TiesAgree (drCandidates i.routers)
  bdr_ties : TiesAgree (bdrCandidates
    (if i.elected.dr = i.ipAddress ∧ i.dr ≠ i.ipAddress then
      (i.setRouters i.ipAddress i.ipAddress).routers
    else i.routers))
  dr_state : i.elected.dr = i.ipAddress → (i.dr = i.ipAddress ↔ i.state = .DR)
  bdr_state : i.elected.dr ≠ i.ipAddress → i.elected.bdr = i.ipAddress →
    i.dr ≠ i.ipAddress ∧ (i.bdr = i.ipAddress → i.state = .BDR)
  other_state : i.elected.dr ≠ i.ipAddress → i.elected.bdr ≠ i.ipAddress → i.state = .DROTHER

theorem settled_iff_of_gains (hd : i.dr ≠ i.ipAddress) (hcr : (i.chosen .routerId).dr = i.ipAddress)
    (hR : i.elected = (i.setRouters i.ipAddress i.ipAddress).chosen .routerId) :
    Settled i ↔ Prepared i := by
  have hdrTies := dr_chosen_eq_iff i
  obtain ⟨hdrPart, hbdrPart⟩ := takesPart_electRouter i
  have hRdr : i.elected.dr = i.ipAddress := by
    rw [hR]
    exact keeps_dr .routerId i.ipAddress hd (show ((i.setRouters i.dr i.bdr).chosen _).dr = _ from hcr)
  have hRbdr : i.elected.bdr ≠ i.ipAddress := by
    rw [hR]
    exact bdr_ne_own .routerId i.ipAddress rfl
  have hagain : ((i.setRouters i.ipAddress i.ipAddress).chosen .ipAddress).bdr = i.elected.bdr ↔
      TiesAgree (bdrCandidates (i.setRouters i.ipAddress i.ipAddress).routers) := by
    rw [hR]
    exact bdr_chosen_eq_iff (i.setRouters i.ipAddress i.ipAddress)
  obtain ⟨-, hci, hs, hE⟩ | ⟨-, hci, hs, hE⟩ | ⟨hno, hE⟩ := electRouter_cases i
  · have hEdr : (electRouter i).dr = i.ipAddress := by
      rw [hE]
      exact keeps_dr .ipAddress i.ipAddress hd
        (show ((i.setRouters i.dr i.bdr).chosen _).dr = _ from hci)
    have hEbdr : (electRouter i).bdr =
        ((i.setRouters i.ipAddress i.ipAddress).chosen .ipAddress).bdr := by rw [hE]; rfl
    constructor
    · rintro ⟨-, -, -, -, hrule⟩
      refine ⟨hdrTies.mp (hci.trans hcr.symm), ?_, ?_, fun h => absurd hRdr h, fun h => absurd hRdr h⟩
      · rw [if_pos ⟨hRdr, hd⟩]
        exact hagain.mp (hEbdr.symm.trans hrule)
      · intro _
        exact ⟨fun h => absurd h hd, fun h => absurd h hs⟩
    · rintro ⟨-, hties, -, -, -⟩
      rw [if_pos ⟨hRdr, hd⟩] at hties
      refine ⟨?_, hdrPart, hbdrPart, hEdr.trans hRdr.symm, hEbdr.trans (hagain.mpr hties)⟩
      have hrole : (electRouter i).role = .DR := by
        unfold OspfInterfaceImpl.role
        rw [hEdr, hE]
        exact if_pos rfl
      rw [hrole, hE]
      rfl
  · constructor
    · rintro ⟨-, -, -, -, hrule⟩
      have hbdr : (electRouter i).bdr = i.ipAddress := by
        rw [hE]
        exact (gains_dr .ipAddress hd
          (show ((i.setRouters i.dr i.bdr).chosen _).dr = _ from hci)).2.2
      exact absurd (hrule.symm.trans hbdr) hRbdr
    · intro h
      exact absurd ((h.dr_state hRdr).mpr hs) hd
  · have hci : (i.chosen .ipAddress).dr ≠ i.ipAddress := fun h => hno ⟨hd, h⟩
    constructor
    · rintro ⟨-, -, -, hrule, -⟩
      rw [hE] at hrule
      exact absurd (hrule.trans hRdr) hci
    · rintro ⟨hties, -⟩
      exact absurd ((hdrTies.mpr hties).trans hcr) hci
theorem settled_iff_of_loses (hd : i.dr = i.ipAddress)
    (hcr : (i.chosen .routerId).dr ≠ i.ipAddress) (hRdr : i.elected.dr = (i.chosen .routerId).dr)
    (hRbdr : i.elected.bdr = (i.chosen .routerId).bdr ∨ i.elected.bdr = i.ipAddress) :
    Settled i ↔ Prepared i := by
  have hdrTies := dr_chosen_eq_iff i
  have hbdrTies := bdr_chosen_eq_iff i
  obtain ⟨hdrPart, hbdrPart⟩ := takesPart_electRouter i
  have hcibdr : (i.chosen .ipAddress).bdr ≠ i.ipAddress := bdr_ne_own .ipAddress i.bdr hd
  have hRne : i.elected.dr ≠ i.ipAddress := by
    rw [hRdr]
    exact hcr
  obtain ⟨h, -⟩ | ⟨h, -⟩ | ⟨-, hE⟩ := electRouter_cases i
  · exact absurd hd h
  · exact absurd hd h
  · rw [if_neg fun h => hcibdr h.1] at hE
    constructor
    · rintro ⟨hstate, -, -, hdr, hbdr⟩
      rw [hE] at hstate hdr hbdr
      have hcidr : (i.chosen .ipAddress).dr = (i.chosen .routerId).dr := hdr.trans hRdr
      have hbdr : (i.chosen .ipAddress).bdr = i.elected.bdr := hbdr
      have hRbdrNe : i.elected.bdr ≠ i.ipAddress := fun h => hcibdr (hbdr.trans h)
      refine ⟨hdrTies.mp hcidr, ?_, fun h => absurd h hRne, fun _ h => absurd h hRbdrNe, ?_⟩
      · rw [if_neg fun h => hRne h.1]
        exact hbdrTies.mp (hbdr.trans (hRbdr.resolve_right hRbdrNe))
      · intro _ _
        have hrole : ((i.chosen .ipAddress).setState i.state).role = .DROTHER := by
          have h1 : ¬ (i.chosen .ipAddress).dr = i.ipAddress := by
            rw [hcidr]
            exact hcr
          exact (if_neg h1).trans (if_neg hcibdr)
        exact hstate.trans hrole
    · rintro ⟨hdties, hbties, -, hbstate, hostate⟩
      rw [if_neg fun h => hRne h.1] at hbties
      have hRbdrNe : i.elected.bdr ≠ i.ipAddress := fun h => (hbstate hRne h).1 hd
      have hcidr := hdrTies.mpr hdties
      refine ⟨?_, hdrPart, hbdrPart, ?_, ?_⟩
      · rw [hE]
        have h1 : ¬ (i.chosen .ipAddress).dr = i.ipAddress := by
          rw [hcidr]
          exact hcr
        exact (hostate hRne hRbdrNe).trans ((if_neg h1).trans (if_neg hcibdr)).symm
      · rw [hE, hRdr]
        exact hcidr
      · rw [hE, hRbdr.resolve_right hRbdrNe]
        exact hbdrTies.mpr hbties
theorem role_eq_iff (hsame : i.dr = i.ipAddress ↔ (i.chosen .ipAddress).dr = i.ipAddress) :
    (if (i.chosen .ipAddress).bdr = i.ipAddress ∧ i.bdr ≠ i.ipAddress then .BDR else i.state) =
        ((i.chosen .ipAddress).setState i.state).role ↔
      ((i.chosen .ipAddress).dr = i.ipAddress → i.state = .DR) ∧
        ((i.chosen .ipAddress).dr ≠ i.ipAddress → (i.chosen .ipAddress).bdr = i.ipAddress →
          (i.bdr = i.ipAddress → i.state = .BDR)) ∧
        ((i.chosen .ipAddress).dr ≠ i.ipAddress → (i.chosen .ipAddress).bdr ≠ i.ipAddress →
          i.state = .DROTHER) := by
  have hrole : ((i.chosen .ipAddress).setState i.state).role =
      if (i.chosen .ipAddress).dr = i.ipAddress then .DR
      else if (i.chosen .ipAddress).bdr = i.ipAddress then .BDR else .DROTHER := rfl
  rw [hrole]
  by_cases hdr : (i.chosen .ipAddress).dr = i.ipAddress
  · have hbdr : (i.chosen .ipAddress).bdr ≠ i.ipAddress :=
      bdr_ne_own .ipAddress i.bdr (hsame.mpr hdr)
    simp [hdr, hbdr]
  · by_cases hbdr : (i.chosen .ipAddress).bdr = i.ipAddress
    · by_cases hb : i.bdr = i.ipAddress
      · simp [hdr, hbdr, hb]
      · simp [hdr, hbdr, hb]
    · simp [hdr, hbdr]

theorem settled_iff_of_stands (hsame : i.dr = i.ipAddress ↔ (i.chosen .routerId).dr = i.ipAddress)
    (hRdr : i.elected.dr = (i.chosen .routerId).dr)
    (hRbdr : i.elected.bdr = (i.chosen .routerId).bdr) : Settled i ↔ Prepared i := by
  have hdrTies := dr_chosen_eq_iff i
  have hbdrTies := bdr_chosen_eq_iff i
  obtain ⟨hdrPart, hbdrPart⟩ := takesPart_electRouter i
  have hfirst : ¬ (i.elected.dr = i.ipAddress ∧ i.dr ≠ i.ipAddress) := by
    rw [hRdr]
    exact fun h => h.2 (hsame.mpr h.1)
  have hgained (hd : i.dr ≠ i.ipAddress) (hci : (i.chosen .ipAddress).dr = i.ipAddress)
      (hE : (electRouter i).dr = i.ipAddress) : Settled i ↔ Prepared i := by
    have hne : (i.chosen .routerId).dr ≠ i.ipAddress := fun h => hd (hsame.mpr h)
    constructor
    · rintro ⟨-, -, -, hrule, -⟩
      exact absurd (hRdr.symm.trans (hrule.symm.trans hE)) hne
    · rintro ⟨hties, -⟩
      exact absurd ((hdrTies.mpr hties).symm.trans hci) hne
  obtain ⟨hd, hci, -, hE⟩ | ⟨hd, hci, -, hE⟩ | ⟨hno, hE⟩ := electRouter_cases i
  · apply hgained hd hci
    rw [hE]
    exact keeps_dr .ipAddress i.ipAddress hd
      (show ((i.setRouters i.dr i.bdr).chosen _).dr = _ from hci)
  · apply hgained hd hci
    rw [hE]
    exact hci
  · constructor
    · rintro ⟨hstate, -, -, hdr, hbdr⟩
      rw [hE] at hstate hdr hbdr
      have hcidr : (i.chosen .ipAddress).dr = i.elected.dr := hdr
      have hcibdr : (i.chosen .ipAddress).bdr = i.elected.bdr := hbdr
      have hsame' : i.dr = i.ipAddress ↔ (i.chosen .ipAddress).dr = i.ipAddress := by
        rw [hcidr, hRdr]
        exact hsame
      obtain ⟨hsdr, hsbdr, hsother⟩ := (role_eq_iff i hsame').mp hstate
      rw [hcidr] at hsame' hsdr hsbdr hsother
      rw [hcibdr] at hsbdr hsother
      refine ⟨hdrTies.mp (hcidr.trans hRdr), ?_, ?_, ?_, hsother⟩
      · rw [if_neg hfirst]
        exact hbdrTies.mp (hcibdr.trans hRbdr)
      · intro h
        exact ⟨fun _ => hsdr h, fun _ => hsame'.mpr h⟩
      · intro h hb
        exact ⟨fun hd => h (hsame'.mp hd), hsbdr h hb⟩
    · rintro ⟨hdties, hbties, hsdr, hsbdr, hsother⟩
      rw [if_neg hfirst] at hbties
      have hcidr : i.elected.dr = (i.chosen .ipAddress).dr := hRdr.trans (hdrTies.mpr hdties).symm
      have hcibdr : i.elected.bdr = (i.chosen .ipAddress).bdr := hRbdr.trans (hbdrTies.mpr hbties).symm
      have hsame' : i.dr = i.ipAddress ↔ (i.chosen .ipAddress).dr = i.ipAddress := by
        rw [← hcidr, hRdr]
        exact hsame
      rw [hcidr] at hsdr hsbdr hsother
      rw [hcibdr] at hsbdr hsother
      refine ⟨?_, hdrPart, hbdrPart, ?_, ?_⟩
      · rw [hE]
        exact (role_eq_iff i hsame').mpr
          ⟨fun h => (hsdr h).mp (hsame'.mpr h), fun h hb => (hsbdr h hb).2, hsother⟩
      · rw [hE, hcidr]
        rfl
      · rw [hE, hcibdr]
        rfl

/-- An election settles an interface if and only if the interface is prepared for it. -/
theorem settled_iff_prepared : Settled i ↔ Prepared i := by
  obtain ⟨hd, hcr, hR⟩ | ⟨hd, hcr, hRdr, hRbdr⟩ | ⟨hsame, hRdr, hRbdr⟩ := elected_cases i
  · exact settled_iff_of_gains i hd hcr hR
  · exact settled_iff_of_loses i hd hcr hRdr hRbdr
  · exact settled_iff_of_stands i hsame hRdr hRbdr

def challenged : OspfInterfaceImpl where
  ipAddress := ⟨10, 0, 0, 1⟩
  routerId := ⟨1, 1, 1, 1⟩
  routerPriority := 1
  state := .DR
  dr := ⟨10, 0, 0, 1⟩
  bdr := DEFAULTIP
  listOfNeighbors := [⟨⟨2, 2, 2, 2⟩, ⟨10, 0, 0, 2⟩, 2, .FULL, ⟨10, 0, 0, 2⟩, DEFAULTIP⟩]
  addressed := by simp [DEFAULTIP]
  foreign := by simp [DEFAULTIP]
  distinct := by simp

/-- It elects the other one and stays in the state of a designated router. -/
theorem loser_stays_dr : ¬ ∀ i : OspfInterfaceImpl, Settled i := by
  intro h
  have hstate := (h challenged).state
  revert hstate
  decide

end Outcome

end DrElection

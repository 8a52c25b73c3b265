import Onos.DagScheduler

/-! The delays of the tasks of a job, and the finish time that is reported for it: the delay of the
task with the last number, whichever tasks come after it. -/
namespace DagDelays

open DagTaskQueue DagRoutes DagScheduler FallibleRun

/-- The finish time bounds the delay of each task, and each task is done after the tasks before
it. -/
structure BoundsWork (job : JobInfo) (s : Sched) (totalDelay : Int32) : Prop where
  total : ∀ t < job.taskNum, (s.delay t).toInt ≤ totalDelay.toInt
  steps : ∀ p t, Follows job p t → t < job.taskNum →
    (s.delay p).toInt + COMDELAY.toInt ≤ (s.delay t).toInt

variable (matrix : Matrix) (job : JobInfo) (preList : ℕ → List ℕ)

def RouteReaches (taskIndex : ℕ) (s : Sched) (pre : ℕ) : Prop :=
  Reaches matrix (room s.slice (job.resource pre).2) (s.taskNode pre) (s.taskNode taskIndex)

/-- When the task is about to be placed, all tasks before it have been placed, and once it has been
placed it can be reached from the others of them. -/
def IsReady (s : Sched) (taskIndex : ℕ) : Prop :=
  s.taskStatus taskIndex = false →
    (∀ p, Follows job p taskIndex → s.taskStatus p = true) ∧
    ∀ first rest, preList taskIndex = first :: rest →
      ∀ s', placeFirst matrix job s taskIndex first = .ok s' →
        Meets (routeFrom matrix job taskIndex) (RouteReaches matrix job taskIndex) s' rest

def PlacedWhenReady (fuel : ℕ) (s : Sched) (input : JobInfo × Fin 10) : Prop :=
  ∀ s' queue preList, readJob input.1 s = .ok s' → queueTasks input.1 fuel = .ok (queue, preList) →
    Meets (placeTask matrix input.1 preList (randomNode input.2))
      (IsReady matrix input.1 preList) (startTasks s') queue

def EndsInLast : Prop :=
  ∀ t < job.taskNum, Relation.ReflTransGen (Follows job) t (job.taskNum - 1)

section Placing

variable {matrix job preList} {start : Node} {s s' : Sched} {t : ℕ}

def occupied (s : Sched) : ℕ := (Finset.univ.filter fun n : Node => s.occupation n = true).card

def longest : ℕ := N * 100 + 100

theorem occupied_le (s : Sched) : occupied s ≤ N :=
  (Finset.card_le_univ _).trans_eq (Fintype.card_fin N)

theorem occupied_update {n : Node} (h : s.occupation n = false)
    (hs : s'.occupation = Function.update s.occupation n true) : occupied s' = occupied s + 1 := by
  have hinsert : (Finset.univ.filter fun m : Node => s'.occupation m = true) =
      insert n (Finset.univ.filter fun m : Node => s.occupation m = true) := by
    ext m
    by_cases hm : m = n
    · subst hm
      simp [hs]
    · simp [hs, hm]
  rw [occupied, hinsert, Finset.card_insert_of_notMem (by simp [h])]
  rfl

theorem toInt_transDelay {weight : ℕ} (h : weight ≤ N) :
    (Int32.ofNat weight * TRANSDELAY).toInt = weight * 100 := by
  have hN : N = 40 := rfl
  have htrans : TRANSDELAY.toInt = 100 := rfl
  have hweight : (Int32.ofNat weight).toInt = weight := Int32.toInt_ofNat_of_lt (by omega)
  rw [Int32.toInt_mul, hweight, htrans]
  exact Int.bmod_eq_of_le (by omega) (by omega)

theorem toInt_delay {delay : Int32} {weight : ℕ} (hdelay : 0 ≤ delay.toInt)
    (hlongest : delay.toInt ≤ longest * N) (h : weight ≤ N) :
    (delay + Int32.ofNat weight * TRANSDELAY + COMDELAY).toInt =
      delay.toInt + weight * 100 + 100 := by
  have hN : N = 40 := rfl
  have hlongest' : (longest : ℤ) * N = 164000 := rfl
  have hcom : COMDELAY.toInt = 100 := rfl
  have hmul := toInt_transDelay h
  have hsum : (delay + Int32.ofNat weight * TRANSDELAY).toInt = delay.toInt + weight * 100 := by
    rw [Int32.toInt_add, hmul]
    exact Int.bmod_eq_of_le (by omega) (by omega)
  rw [Int32.toInt_add, hsum, hcom]
  exact Int.bmod_eq_of_le (by omega) (by omega)

section

variable (hlinks : ∀ a b, matrix a b ≤ 1)

include hlinks

theorem placeFirst_delay {first : ℕ} (h : placeFirst matrix job s t first = .ok s') :
    s'.delay = s.delay ∧ s'.taskStatus = s.taskStatus ∧ occupied s' = occupied s + 1 ∧
      ∃ weight ≤ N, s'.maxDelay = s.delay first + Int32.ofNat weight * TRANSDELAY + COMDELAY := by
  obtain ⟨⟨s₁, weight⟩, hroute, h⟩ := map_eq_ok.mp h
  have hroute := orFail_eq_ok.mp hroute
  unfold dijkstraPathPlacing at hroute
  dsimp only at hroute
  cases hnext : getMinIndex s (dijkstra matrix (room s.slice (job.resource first).2)
      (s.taskNode first)).weights (job.resource t).1 with
  | none =>
    rw [hnext] at hroute
    cases hroute
  | some nextPort =>
    rw [hnext] at hroute
    obtain ⟨nodesInPath, -, hroute⟩ := bind_eq_ok.mp hroute
    obtain ⟨slice, -, hroute⟩ := map_eq_ok.mp hroute
    cases hroute
    obtain ⟨hlt, hfree, -⟩ := getMinIndex_spec hnext
    have hweight := (weights_dijkstra hlinks (room s.slice (job.resource first).2)
      (s.taskNode first) nextPort).1
    subst h
    exact ⟨rfl, rfl, occupied_update hfree rfl, _, hweight.resolve_left hlt.ne, rfl⟩

theorem routeFrom_delay {pre : ℕ} (h : routeFrom matrix job t s pre = .ok s') :
    s'.delay = s.delay ∧ s'.taskStatus = s.taskStatus ∧ s'.occupation = s.occupation ∧
      ∃ weight, (RouteReaches matrix job t s pre → weight ≤ N) ∧
        s'.maxDelay = if s.maxDelay < s.delay pre + Int32.ofNat weight * TRANSDELAY + COMDELAY then
          s.delay pre + Int32.ofNat weight * TRANSDELAY + COMDELAY else s.maxDelay := by
  obtain ⟨⟨s₁, weight⟩, hroute, h⟩ := map_eq_ok.mp h
  obtain ⟨nodesInPath, hprevs, hroute⟩ := bind_eq_ok.mp (orFail_eq_ok.mp hroute)
  obtain ⟨slice, -, hroute⟩ := map_eq_ok.mp hroute
  cases hroute
  subst h
  obtain ⟨hweight, hreached⟩ := weights_dijkstra hlinks (room s.slice (job.resource pre).2)
    (s.taskNode pre) (s.taskNode t)
  refine ⟨rfl, rfl, rfl, _, fun hreaches => hweight.resolve_left (hreached hreaches ?_), rfl⟩
  -- from a node to itself no way back would be found
  intro heq
  have hsearched := (searched_dijkstra hlinks (room s.slice (job.resource pre).2)
    (s.taskNode pre)).1
  rw [allPrevs, (hsearched.start _).mpr heq] at hprevs
  cases hprevs

/-- The delay of a task that can be reached from the others before it is longer than that of each of
them. -/
theorem routesFrom_delay {rest : List ℕ} {bound : ℕ} (hbound : bound ≤ longest * N)
    (hmeets : Meets (routeFrom matrix job t) (RouteReaches matrix job t) s rest)
    (h : rest.foldlM (routeFrom matrix job t) s = .ok s')
    (hdelay : ∀ x, 0 ≤ (s.delay x).toInt ∧ (s.delay x).toInt ≤ bound)
    (hmax : (s.maxDelay).toInt ≤ bound + longest) :
    s'.delay = s.delay ∧ s'.taskStatus = s.taskStatus ∧ s'.occupation = s.occupation ∧
      (s.maxDelay).toInt ≤ (s'.maxDelay).toInt ∧ (s'.maxDelay).toInt ≤ bound + longest ∧
      ∀ pre ∈ rest, (s.delay pre).toInt + 100 ≤ (s'.maxDelay).toInt := by
  induction rest generalizing s with
  | nil =>
    obtain rfl := Except.ok.inj h
    exact ⟨rfl, rfl, rfl, le_rfl, hmax, fun pre hpre => absurd hpre List.not_mem_nil⟩
  | cons pre rest ih =>
    rw [List.foldlM_cons] at h
    obtain ⟨s₁, hstep, hrest⟩ := bind_eq_ok.mp h
    obtain ⟨hd, hstatus, hocc, weight, hweight, hm⟩ := routeFrom_delay hlinks hstep
    have hle := hweight hmeets.1
    have hlongest : longest = 4100 := rfl
    have hN : N = 40 := rfl
    obtain ⟨hlow, hhigh⟩ := hdelay pre
    have hsum := toInt_delay hlow (by omega) hle
    generalize s.delay pre + Int32.ofNat weight * TRANSDELAY + COMDELAY = delayTemp at hm hsum
    have hmax₁ : (s₁.maxDelay).toInt ≤ bound + longest ∧
        (s.maxDelay).toInt ≤ (s₁.maxDelay).toInt ∧ delayTemp.toInt ≤ (s₁.maxDelay).toInt := by
      rw [hm]
      split_ifs with hlt
      · rw [Int32.lt_iff_toInt_lt] at hlt
        omega
      · rw [Int32.lt_iff_toInt_lt] at hlt
        omega
    obtain ⟨hd', hstatus', hocc', hge, hle', hall⟩ :=
      ih (hmeets.2 s₁ hstep) hrest (by rwa [hd]) hmax₁.1
    refine ⟨hd'.trans hd, hstatus'.trans hstatus, hocc'.trans hocc, by omega, hle', ?_⟩
    intro x hx
    rcases List.mem_cons.mp hx with rfl | hx
    · omega
    · rw [← hd]
      exact hall x hx

end

/-- What holds of the delays while tasks are placed, each when it is ready. -/
structure DelaysInv (job : JobInfo) (s : Sched) : Prop where
  opened : s.taskStatus 0 = true
  bound : ∀ t, 0 ≤ (s.delay t).toInt ∧ (s.delay t).toInt ≤ (longest * occupied s : ℕ)
  before : ∀ p t, Follows job p t → s.taskStatus t = true →
    s.taskStatus p = true ∧ (s.delay p).toInt + 100 ≤ (s.delay t).toInt

theorem DelaysInv.update (h : DelaysInv job s) (ht : s.taskStatus t = false)
    (hocc : occupied s' = occupied s + 1)
    (hstatus : s'.taskStatus = Function.update s.taskStatus t true)
    (hdelay : s'.delay = Function.update s.delay t (s'.delay t))
    (hbound : (s'.delay t).toInt ≤ (longest * occupied s : ℕ) + longest)
    (hbefore : ∀ p, Follows job p t →
      s.taskStatus p = true ∧ (s.delay p).toInt + 100 ≤ (s'.delay t).toInt)
    (hpos : 0 ≤ (s'.delay t).toInt) : DelaysInv job s' := by
  have hkept : ∀ x, x ≠ t → s'.delay x = s.delay x := by
    intro x hx
    rw [hdelay, Function.update_of_ne hx]
  have hplaced : ∀ x, s.taskStatus x = true → x ≠ t ∧ s'.taskStatus x = true := by
    intro x hx
    have hne : x ≠ t := by
      rintro rfl
      rw [ht] at hx
      cases hx
    refine ⟨hne, ?_⟩
    rw [hstatus, Function.update_of_ne hne]
    exact hx
  refine ⟨(hplaced 0 h.opened).2, fun x => ?_, fun p x hfollows hx => ?_⟩
  · have hsplit : longest * occupied s' = longest * occupied s + longest := by
      rw [hocc, Nat.mul_succ]
    rw [hsplit]
    by_cases hx : x = t
    · subst hx
      omega
    · obtain ⟨hlow, hhigh⟩ := h.bound x
      rw [hkept x hx]
      omega
  · by_cases hxt : x = t
    · subst hxt
      obtain ⟨hp, hle⟩ := hbefore p hfollows
      obtain ⟨hne, hp'⟩ := hplaced p hp
      rw [hkept p hne]
      exact ⟨hp', hle⟩
    · rw [hstatus, Function.update_of_ne hxt] at hx
      obtain ⟨hp, hle⟩ := h.before p x hfollows hx
      obtain ⟨hne, hp'⟩ := hplaced p hp
      rw [hkept p hne, hkept x hxt]
      exact ⟨hp', hle⟩

theorem DelaysInv.placeTask (hlinks : ∀ a b, matrix a b ≤ 1)
    (hpre : ∀ p t, t ≠ 0 → Follows job p t → p ∈ preList t) (hready : IsReady matrix job preList s t)
    (hstep : placeTask matrix job preList start s t = .ok s') (h : DelaysInv job s) :
    DelaysInv job s' := by
  rw [DagScheduler.placeTask] at hstep
  by_cases ht : s.taskStatus t = true
  · rw [if_pos ht] at hstep
    exact Except.ok.inj hstep ▸ h
  · rw [if_neg ht] at hstep
    rw [Bool.not_eq_true] at ht
    have hne : t ≠ 0 := by
      rintro rfl
      rw [h.opened] at ht
      cases ht
    rw [if_neg hne] at hstep
    obtain ⟨hplaced, hroutes⟩ := hready ht
    cases hlist : preList t with
    | nil =>
      rw [hlist] at hstep
      cases hstep
    | cons first rest =>
      rw [hlist] at hstep
      obtain ⟨s₂, hrest, rfl⟩ := map_eq_ok.mp hstep
      obtain ⟨s₁, hfirst, hrest⟩ := bind_eq_ok.mp hrest
      obtain ⟨hd₁, hstatus₁, hocc₁, weight, hweight, hmax⟩ := placeFirst_delay hlinks hfirst
      have hlow := (h.bound first).1
      have hhigh := (h.bound first).2
      have hocc := occupied_le s
      have hbound : longest * occupied s ≤ longest * N := Nat.mul_le_mul_left _ hocc
      have hlongest : longest = N * 100 + 100 := rfl
      have hsum := toInt_delay hlow (by omega) hweight
      rw [← hmax] at hsum
      have hdelays : ∀ x, 0 ≤ (s₁.delay x).toInt ∧
          (s₁.delay x).toInt ≤ (longest * occupied s : ℕ) := by
        rw [hd₁]
        exact h.bound
      obtain ⟨hd₂, hstatus₂, hocc₂, hge, hle, hall⟩ := routesFrom_delay hlinks hbound
        (hroutes first rest hlist s₁ hfirst) hrest hdelays (by omega)
      refine h.update ht ?_ ?_ ?_ ?_ ?_ ?_
      · rw [← hocc₁, occupied, occupied, ← hocc₂]
      · dsimp only
        rw [hstatus₂, hstatus₁]
      · dsimp only
        rw [Function.update_self, hd₂, hd₁]
      · dsimp only
        rw [Function.update_self]
        exact hle
      · intro p hfollows
        dsimp only
        rw [Function.update_self]
        refine ⟨hplaced p hfollows, ?_⟩
        have hmem := hpre p t hne hfollows
        rw [hlist] at hmem
        rcases List.mem_cons.mp hmem with rfl | hmem
        · omega
        · rw [← hd₁]
          exact hall p hmem
      · dsimp only
        rw [Function.update_self]
        omega

theorem delaysInv_first (hready : IsReady matrix job preList (startTasks s) 0)
    (hstep : placeTask matrix job preList start (startTasks s) 0 = .ok s') : DelaysInv job s' := by
  have hs := Except.ok.inj hstep
  have hdelay : s'.delay = Function.update (fun _ => 0) 0 COMDELAY := by
    rw [← hs]
    rfl
  have hstatus : s'.taskStatus = Function.update (fun _ => false) 0 true := by
    rw [← hs]
    rfl
  have hoccupied : s'.occupation start = true := by
    rw [← hs]
    simp
  have hocc : 0 < occupied s' := Finset.card_pos.mpr ⟨start, by simp [hoccupied]⟩
  have hle := Nat.le_mul_of_pos_right longest hocc
  refine ⟨by simp [hstatus], fun t => ?_, fun p t hfollows ht => ?_⟩
  · have hlongest : longest = 4100 := rfl
    have hcom : COMDELAY.toInt = 100 := rfl
    have hzero := Int32.toInt_zero
    rw [hdelay]
    by_cases ht : t = 0
    · subst ht
      rw [Function.update_self]
      omega
    · rw [Function.update_of_ne ht]
      omega
  · by_cases hzero : t = 0
    · subst hzero
      exact absurd ((hready rfl).1 p hfollows) Bool.false_ne_true
    · rw [hstatus, Function.update_of_ne hzero] at ht
      cases ht

theorem delaysInv_tasks (hlinks : ∀ a b, matrix a b ≤ 1) {fuel : ℕ} {queue : List ℕ}
    (hqueue : queueTasks job fuel = .ok (queue, preList))
    (hmeets : Meets (placeTask matrix job preList start) (IsReady matrix job preList)
      (startTasks s) queue)
    (hrun : queue.foldlM (placeTask matrix job preList start) (startTasks s) = .ok s')
    (hall : ∀ t < job.taskNum, s'.taskStatus t = true) : DelaysInv job s' := by
  obtain ⟨⟨rest, rfl⟩, hlisted⟩ := queueTasks_listed hqueue
  have hpre : ∀ p t, t ≠ 0 → Follows job p t → p ∈ preList t := by
    intro p t ht hfollows
    have hp := (taskStatus_foldlM hlinks hrun p).mp (hall p hfollows.1)
    exact hlisted p (hp.resolve_right Bool.false_ne_true) t ht hfollows
  rw [List.foldlM_cons] at hrun
  obtain ⟨s₁, hfirst, hrest⟩ := bind_eq_ok.mp hrun
  refine (hmeets.2 s₁ hfirst).keeps (fun s₂ t s₃ hready hstep h => ?_) hrest
    (delaysInv_first hmeets.1 hfirst)
  exact h.placeTask hlinks hpre hready hstep

/-- The raw data is there after a delay that is not negative, and not longer than that of a route
over all nodes. -/
theorem routeData_bound (hlinks : ∀ a b, matrix a b ≤ 1) {comTransDelay : Int32}
    (h : job.data.foldlM (routeData matrix job s) 0 = .ok comTransDelay) :
    0 ≤ comTransDelay.toInt ∧ comTransDelay.toInt ≤ N * 100 := by
  have hN : N = 40 := rfl
  have hstep : Ensures (job.data.foldlM (routeData matrix job s) 0)
      (fun delay => 0 ≤ delay.toInt ∧ delay.toInt ≤ N * 100) fun _ => True := by
    refine Ensures.foldlM (fun delay line _ hdelay => ⟨fun {delay'} hok => ?_, fun _ => trivial⟩)
      ⟨Int32.toInt_zero.ge, by rw [Int32.toInt_zero]; omega⟩
    unfold routeData at hok
    cases line with
    | none => exact Except.ok.inj hok ▸ hdelay
    | some d =>
      dsimp only at hok
      split_ifs at hok
      · exact Except.ok.inj hok ▸ hdelay
      · cases hport : d.dataPort with
        | none =>
          rw [hport] at hok
          cases hok
        | some n =>
          rw [hport] at hok
          obtain ⟨weight, hroute, rfl⟩ := map_eq_ok.mp hok
          obtain ⟨nodesInPath, -, rfl⟩ := map_eq_ok.mp (orFail_eq_ok.mp hroute)
          have htransfer : (Int32.ofNat ((dijkstra matrix (fun _ _ => true) n).weights
              (s.taskNode (d.task - 1))) * TRANSDELAY).toInt ≤ N * 100 := by
            rcases (weights_dijkstra hlinks (fun _ _ => true) n (s.taskNode (d.task - 1))).1 with
              hmax | hle
            · rw [hmax]
              decide
            · rw [toInt_transDelay hle]
              omega
          split_ifs with hlt
          · rw [Int32.lt_iff_toInt_lt] at hlt
            omega
          · exact hdelay
  exact hstep.ok h

/-- Where each task is placed when it is ready, and all lead to the last one, the finish time bounds
the work of the job. -/
theorem boundsWork_of_ready (topology : List (Node × Node)) {fuel : ℕ} {input : JobInfo × Fin 10}
    (h : handleJob (readLink topology) fuel s input = .ok s')
    (hall : ∀ t < input.1.taskNum, s'.taskStatus t = true)
    (hready : PlacedWhenReady (readLink topology) fuel s input) (hlast : EndsInLast input.1) :
    ∃ totalDelay, s'.finishTimes.getLast? = some totalDelay ∧ BoundsWork input.1 s' totalDelay := by
  have hlinks := readLink_le topology
  obtain ⟨s₁, hread, h⟩ := bind_eq_ok.mp h
  obtain ⟨⟨queue, preList⟩, hqueue, h⟩ := bind_eq_ok.mp h
  obtain ⟨s₂, hrun, hfinish⟩ := bind_eq_ok.mp h
  obtain ⟨comTransDelay, hdata, rfl⟩ := map_eq_ok.mp hfinish
  have hqueue := orFail_eq_ok.mp hqueue
  have hinv := delaysInv_tasks hlinks hqueue (hready s₁ queue preList hread hqueue) hrun hall
  have hcom := routeData_bound hlinks hdata
  have hstep : ∀ p t, Follows input.1 p t → t < input.1.taskNum →
      (s₂.delay p).toInt + 100 ≤ (s₂.delay t).toInt :=
    fun p t hfollows ht => (hinv.before p t hfollows (hall t ht)).2
  have hlow := (hinv.bound (input.1.taskNum - 1)).1
  have hhigh := (hinv.bound (input.1.taskNum - 1)).2
  have hocc : longest * occupied s₂ ≤ longest * N := Nat.mul_le_mul_left _ (occupied_le s₂)
  have hlongest : longest * N = 164000 := rfl
  have hN : N = 40 := rfl
  have htotal : (comTransDelay + s₂.delay (input.1.taskNum - 1)).toInt =
      comTransDelay.toInt + (s₂.delay (input.1.taskNum - 1)).toInt := by
    rw [Int32.toInt_add]
    exact Int.bmod_eq_of_le (by omega) (by omega)
  refine ⟨comTransDelay + s₂.delay (input.1.taskNum - 1), by simp, fun t ht => ?_, hstep⟩
  have hle : (s₂.delay t).toInt ≤ (s₂.delay (input.1.taskNum - 1)).toInt := by
    induction hlast t ht using Relation.ReflTransGen.head_induction_on with
    | refl => exact le_rfl
    | @head p next hfollows hrest ih =>
      have hnext : next < input.1.taskNum := by
        rcases Relation.ReflTransGen.cases_head hrest with heq | ⟨d, hnext, -⟩
        · have hpos := hfollows.1
          omega
        · exact hnext.1
      have hfirst := hstep p next hfollows hnext
      have hrest := ih hnext
      omega
  rw [htotal]
  dsimp only
  omega

end Placing

section Examples

def line : Matrix := readLink [(0, 1), (1, 2)]

def lineWeights (y : Node) : ℕ := if y.val = 1 then 1 else if y.val = 2 then 2 else MAX_VALUE

def linePrevs (y : Node) : Option Node :=
  if y.val = 0 then none else if y.val = 2 then some 1 else some 0

def allRoom : Node → Node → Bool := fun _ _ => true

theorem dijkstra_line : (dijkstra line allRoom 0).weights = lineWeights ∧
    (dijkstra line allRoom 0).prevs = linePrevs := by
  have hvisited : ∀ p y, 0 < line p y → y = 0 ∨ y = 1 ∨ y = 2 := by decide
  have hfirst : indexOfMin (relax line allRoom (start 0) 0) = 1 := by decide +kernel
  have hsecond : indexOfMin (relax line allRoom (relax line allRoom (start 0) 0) 1) = 2 := by
    decide +kernel
  obtain ⟨hweights, hprevs⟩ := dijkstra_three_rounds hvisited hfirst hsecond
  rw [hweights, hprevs]
  exact ⟨funext (by decide), funext (by decide)⟩

def pair : JobInfo where
  taskNum := 2
  data := []
  resource _ := (1, 1)
  link t := if t = 0 then [2] else []

def fork : JobInfo where
  taskNum := 3
  data := []
  resource _ := (1, 1)
  link t := if t = 0 then [3, 2] else []

def placedOnLine (s : Sched) (t : ℕ) (nextPort : Node) (nodesInPath : List Node)
    (slice : Matrix) : Sched :=
  { s with
    occupation := Function.update s.occupation nextPort true
    taskNode := Function.update s.taskNode t nextPort
    cpu := Function.update s.cpu nextPort (s.cpu nextPort + 1)
    slice := slice
    placements := s.placements ++ [⟨nextPort, t, 1⟩]
    routes := s.routes ++ [⟨0, nodesInPath, nextPort, 1⟩]
    maxDelay := s.delay 0 + Int32.ofNat (lineWeights nextPort) * TRANSDELAY + COMDELAY
    delay := Function.update s.delay t
      (s.delay 0 + Int32.ofNat (lineWeights nextPort) * TRANSDELAY + COMDELAY)
    taskStatus := Function.update s.taskStatus t true }

variable {job : JobInfo} {preList : ℕ → List ℕ}

theorem placeTask_line {s : Sched} {start : Node} {t : ℕ}
    {nextPort : Node} {nodesInPath : List Node} {slice : Matrix}
    (hjob : ∀ t, job.resource t = (1, 1)) (hnew : s.taskStatus t = false) (ht : t ≠ 0)
    (hpre : preList t = [0]) (hnode : s.taskNode 0 = 0) (hroom : room s.slice 1 = allRoom)
    (hnext : getMinIndex s lineWeights 1 = some nextPort)
    (hprevs : allPrevs linePrevs nextPort = .ok nodesInPath)
    (hslice : reserveAll linePrevs 1 (N + 1) nextPort s.slice = .ok slice) :
    placeTask line job preList start s t = .ok (placedOnLine s t nextPort nodesInPath slice) := by
  obtain ⟨hweights, hsearch⟩ := dijkstra_line
  rw [placeTask, hnew, if_neg Bool.false_ne_true, if_neg ht, hpre]
  dsimp only
  rw [placeFirst_eq hjob (by rw [hroom, hnode, hweights]) (by rw [hroom, hnode, hsearch]) hnext
    hprevs hslice, hnode]
  rfl

def afterFirst : Sched :=
  { initial with
    occupation := Function.update (fun _ => false) 0 true
    delay := Function.update (fun _ => 0) 0 COMDELAY
    placements := [⟨0, 0, 1⟩]
    taskStatus := Function.update (fun _ => false) 0 true }

section

variable (hjob : ∀ t, job.resource t = (1, 1))

include hjob

theorem placeTask_afterFirst {matrix : Matrix} :
    placeTask matrix job preList 0 (startTasks initial) 0 = .ok afterFirst := by
  have hnew : (startTasks initial).taskStatus 0 = false := rfl
  rw [placeTask, hnew, if_neg Bool.false_ne_true, if_pos rfl, hjob]
  congr 1
  rw [afterFirst, startTasks, initial]
  dsimp only
  rw [Function.update_eq_self_iff.mpr rfl]
  rfl

theorem readJob_initial (hdata : job.data = []) : readJob job initial = .ok initial := by
  have hcheck : ∀ tasks : List ℕ, tasks.foldlM (checkResource job) initial = .ok initial := by
    intro tasks
    induction tasks with
    | nil => rfl
    | cons t tasks ih =>
      rw [List.foldlM_cons, checkResource, hjob, if_neg (by decide), if_neg (by decide)]
      exact ih
  rw [readJob, hdata]
  exact hcheck _

theorem handleJob_line {queue : List ℕ} {fuel : ℕ} {s : Sched} (hdata : job.data = [])
    (hqueue : queueTasks job fuel = .ok (0 :: queue, preList))
    (hrun : queue.foldlM (placeTask line job preList 0) afterFirst = .ok s) :
    handleJob line fuel initial (job, 0) =
      .ok { s with finishTimes := s.finishTimes ++ [0 + s.delay (job.taskNum - 1)] } := by
  have hnode : randomNode 0 = 0 := rfl
  have hfold : (0 :: queue).foldlM (placeTask line job preList 0) (startTasks initial) = .ok s := by
    rw [List.foldlM_cons, placeTask_afterFirst hjob]
    exact hrun
  rw [handleJob]
  dsimp only
  rw [readJob_initial hjob hdata, hqueue, hnode]
  refine bind_eq_ok.mpr ⟨_, rfl, bind_eq_ok.mpr ⟨_, rfl, bind_eq_ok.mpr ⟨s, hfold, ?_⟩⟩⟩
  rw [finishJob, hdata]
  rfl

end

theorem handleJob_pair : ∃ s, handleJob line 2 initial (pair, 0) = .ok s ∧
    ∀ t < 2, s.taskStatus t = true := by
  obtain ⟨preList, hqueue, hpre⟩ : ∃ preList, queueTasks pair 2 = .ok ([0, 1], preList) ∧
      preList 1 = [0] := ⟨_, rfl, rfl⟩
  have hlast : placeTask line pair preList 0 afterFirst 1 =
      .ok (placedOnLine afterFirst 1 1 [] (reserve (fun _ _ => 0) 0 1 1)) :=
    placeTask_line (fun _ => rfl) rfl (by decide) hpre rfl rfl (by decide) rfl rfl
  refine ⟨_, handleJob_line (fun _ => rfl) rfl hqueue (bind_eq_ok.mpr ⟨_, hlast, rfl⟩), ?_⟩
  decide

theorem boundsWork_of_ready_pair : ∃ s totalDelay, handleJob line 2 initial (pair, 0) = .ok s ∧
    s.finishTimes.getLast? = some totalDelay ∧ BoundsWork pair s totalDelay := by
  obtain ⟨s, hrun, hall⟩ := handleJob_pair
  have hfollows : ∀ p t, Follows pair p t → p = 0 := by
    rintro p t ⟨hp, hlink⟩
    by_contra hne
    rw [pair] at hlink
    simp [hne] at hlink
  have hready : PlacedWhenReady line 2 initial (pair, 0) := by
    intro s' queue preList hread hqueue
    rw [readJob_initial (fun _ => rfl) rfl] at hread
    obtain rfl := Except.ok.inj hread
    obtain ⟨rfl, rfl⟩ := Prod.mk.inj (Except.ok.inj hqueue)
    refine ⟨fun _ => ⟨fun p hp => ?_, fun first rest h => by cases h⟩, fun s₁ hfirst =>
      ⟨fun _ => ⟨fun p hp => ?_, fun first rest h => ?_⟩, fun _ _ => trivial⟩⟩
    · obtain rfl := hfollows p 0 hp
      exact absurd hp (by decide)
    · obtain rfl := hfollows p 1 hp
      rw [← Except.ok.inj hfirst]
      rfl
    · obtain ⟨-, rfl⟩ := List.cons.inj h
      exact fun _ _ => trivial
  have hlast : EndsInLast pair := by
    intro t ht
    have ht : t < 2 := ht
    by_cases h0 : t = 0
    · subst h0
      exact .single (show Follows pair 0 1 by decide)
    · obtain rfl : t = 1 := by omega
      exact .refl
  obtain ⟨totalDelay, hfinish, hbound⟩ := boundsWork_of_ready [(0, 1), (1, 2)] hrun hall hready hlast
  exact ⟨s, totalDelay, hrun, hfinish, hbound⟩

/-- The last task is placed next to the first one, and the other one farther away: it is done after
the finish time that is reported. -/
theorem finish_before_other_task : ∃ s, handleJob line 3 initial (fork, 0) = .ok s ∧
    (∀ t < 3, s.taskStatus t = true) ∧ ∀ totalDelay, s.finishTimes.getLast? = some totalDelay →
      ¬BoundsWork fork s totalDelay := by
  obtain ⟨preList, hqueue, hpre₁, hpre₂⟩ : ∃ preList,
      queueTasks fork 3 = .ok ([0, 2, 1], preList) ∧ preList 1 = [0] ∧ preList 2 = [0] :=
    ⟨_, rfl, rfl, rfl⟩
  have hlast : placeTask line fork preList 0 afterFirst 2 =
      .ok (placedOnLine afterFirst 2 1 [] (reserve (fun _ _ => 0) 0 1 1)) :=
    placeTask_line (fun _ => rfl) rfl (by decide) hpre₂ rfl rfl (by decide) rfl rfl
  have hroom : room (reserve (fun _ _ => 0) 0 1 1) 1 = allRoom := by
    funext i j
    unfold room reserve allRoom
    split_ifs <;> rfl
  have hother : placeTask line fork preList 0
      (placedOnLine afterFirst 2 1 [] (reserve (fun _ _ => 0) 0 1 1)) 1 =
      .ok (placedOnLine (placedOnLine afterFirst 2 1 [] (reserve (fun _ _ => 0) 0 1 1)) 1 2 [1]
        (reserve (reserve (reserve (fun _ _ => 0) 0 1 1) 1 2 1) 0 1 1)) :=
    placeTask_line (fun _ => rfl) rfl (by decide) hpre₁ rfl hroom (by decide) rfl rfl
  refine ⟨_, handleJob_line (fun _ => rfl) rfl hqueue (bind_eq_ok.mpr ⟨_, hlast,
    bind_eq_ok.mpr ⟨_, hother, rfl⟩⟩), by decide, fun totalDelay htotal hbound => ?_⟩
  obtain rfl := Option.some.inj htotal
  exact absurd (hbound.total 1 (by decide)) (by decide)

end Examples

end DagDelays

import Onos.DagRoutes

/-! The scheduler that places the tasks of jobs on nodes and reserves the routes between them. The
first task goes to any node of the inner ring; each other one to the nearest node that is free and
has computing left, counted from the first of the tasks before it. -/
namespace DagScheduler

open DagTaskQueue DagRoutes FallibleRun

def COMDELAY : Int32 := 100
def TRANSDELAY : Int32 := 100
def MAX_CPU : ℕ := 100
def MAX_STORAGE : ℕ := 100
def MAX_SLICE : ℕ := 100

structure Placement where
  node : Node
  task : ℕ
  compute : ℕ

structure Route where
  start : Node
  nodesInPath : List Node
  target : Node
  trans : ℕ

def Route.hops (r : Route) : List (Node × Node) :=
  links (r.target :: r.nodesInPath.reverse ++ [r.start])

/-- The ledgers, the variables of one job, and what has been placed, routed and printed. -/
structure Sched where
  cpu : Node → ℕ
  storage : Node → ℕ
  slice : Matrix
  occupation : Node → Bool
  taskNode : ℕ → Node
  taskStatus : ℕ → Bool
  delay : ℕ → Int32
  maxDelay : Int32
  placements : List Placement
  routes : List Route
  finishTimes : List Int32

def initial : Sched where
  cpu _ := 0
  storage _ := 0
  slice _ _ := 0
  occupation _ := false
  taskNode _ := 0
  taskStatus _ := false
  delay _ := 0
  maxDelay := 0
  placements := []
  routes := []
  finishTimes := []

inductive Exit where
  | report (message : String) (s : Sched)
  | failure (f : Failure)

def Exit.final : Exit → Option Sched
  | .report _ s => some s
  | .failure _ => none

def orFail {α : Type*} (r : Except Failure α) : Except Exit α := r.mapError .failure

def storeData (s : Sched) (line : Option DataInfo) : Except Exit Sched :=
  match line with
  | none => .error (.report "原始数据信息读取错误！" s)
  | some d => match d.dataPort with
    | none => .error (.failure (.exception "ArrayIndexOutOfBoundsException"))
    | some n =>
      let s := { s with storage := Function.update s.storage n (s.storage n + d.amount) }
      if MAX_STORAGE < s.storage n then .error (.report "存储资源溢出，分配失败！" s) else .ok s

def checkResource (job : JobInfo) (s : Sched) (task : ℕ) : Except Exit Sched :=
  if MAX_CPU < (job.resource task).1 then .error (.report "计算资源溢出，分配失败！" s)
  else if MAX_SLICE < (job.resource task).2 then .error (.report "传输资源溢出，分配失败！" s)
  else .ok s

def room (slice : Matrix) (trans : ℕ) (i j : Node) : Bool := slice i j + trans ≤ MAX_SLICE

def getMinIndex (s : Sched) (weights : Node → ℕ) (comp : ℕ) : Option Node :=
  ((List.finRange N).foldl (fun (minIndex, min) i =>
    if weights i < min ∧ s.occupation i = false ∧ s.cpu i + comp ≤ MAX_CPU then (some i, weights i)
    else (minIndex, min)) (none, MAX_VALUE)).1

variable (matrix : Matrix)

/-- Places the task and reserves the route to it; the weight of the route comes along. -/
def dijkstraPathPlacing (s : Sched) (index : Node) (taskIndex trans comp : ℕ) :
    Except Failure (Sched × ℕ) :=
  let search := dijkstra matrix (room s.slice trans) index
  match getMinIndex s search.weights comp with
  | none => .error (.exception "ArrayIndexOutOfBoundsException")
  | some nextPort =>
    (allPrevs search.prevs nextPort).bind fun nodesInPath =>
      (reserveAll search.prevs trans (N + 1) nextPort s.slice).map fun slice =>
        ({ s with
            occupation := Function.update s.occupation nextPort true
            taskNode := Function.update s.taskNode taskIndex nextPort
            cpu := Function.update s.cpu nextPort (s.cpu nextPort + comp)
            slice := slice
            placements := s.placements ++ [⟨nextPort, taskIndex, comp⟩]
            routes := s.routes ++ [⟨index, nodesInPath, nextPort, trans⟩] },
          search.weights nextPort)

def dijkstraPathReserving (s : Sched) (index taskNode : Node) (trans : ℕ) :
    Except Failure (Sched × ℕ) :=
  let search := dijkstra matrix (room s.slice trans) index
  (allPrevs search.prevs taskNode).bind fun nodesInPath =>
    (reserveAll search.prevs trans (N + 1) taskNode s.slice).map fun slice =>
      ({ s with
          slice := slice
          routes := s.routes ++ [⟨index, nodesInPath, taskNode, trans⟩] },
        search.weights taskNode)

def dijkstraPathData (index taskNode : Node) : Except Failure ℕ :=
  let search := dijkstra matrix (fun _ _ => true) index
  (allPrevs search.prevs taskNode).map fun _ => search.weights taskNode

variable (job : JobInfo)

def placeFirst (s : Sched) (taskIndex first : ℕ) : Except Exit Sched :=
  (orFail (dijkstraPathPlacing matrix s (s.taskNode first) taskIndex (job.resource first).2
    (job.resource taskIndex).1)).map fun (s, weight) =>
      { s with maxDelay := s.delay first + Int32.ofNat weight * TRANSDELAY + COMDELAY }

def routeFrom (taskIndex : ℕ) (s : Sched) (pre : ℕ) : Except Exit Sched :=
  (orFail (dijkstraPathReserving matrix s (s.taskNode pre) (s.taskNode taskIndex)
    (job.resource pre).2)).map fun (s, weight) =>
      let delayTemp := s.delay pre + Int32.ofNat weight * TRANSDELAY + COMDELAY
      { s with maxDelay := if s.maxDelay < delayTemp then delayTemp else s.maxDelay }

variable (preList : ℕ → List ℕ) (start : Node)

def placeTask (s : Sched) (taskIndex : ℕ) : Except Exit Sched :=
  if s.taskStatus taskIndex then .ok s
  else if taskIndex = 0 then
    .ok { s with
      taskNode := Function.update s.taskNode 0 start
      occupation := Function.update s.occupation start true
      delay := Function.update s.delay 0 COMDELAY
      placements := s.placements ++ [⟨start, 0, (job.resource 0).1⟩]
      taskStatus := Function.update s.taskStatus 0 true }
  else match preList taskIndex with
    | [] => .error (.failure (.exception "IndexOutOfBoundsException"))
    | first :: rest =>
      ((placeFirst matrix job s taskIndex first).bind fun s =>
        rest.foldlM (routeFrom matrix job taskIndex) s).map fun s =>
          { s with
            delay := Function.update s.delay taskIndex s.maxDelay
            taskStatus := Function.update s.taskStatus taskIndex true }

def routeData (s : Sched) (comTransDelay : Int32) (line : Option DataInfo) : Except Exit Int32 :=
  match line with
  | none => .ok comTransDelay
  | some d =>
    if d.task = 0 ∨ job.taskNum < d.task then
      .error (.failure (.exception "ArrayIndexOutOfBoundsException"))
    else if d.dataPort = some (s.taskNode (d.task - 1)) then .ok comTransDelay
    else match d.dataPort with
      | none => .error (.failure (.exception "ArrayIndexOutOfBoundsException"))
      | some n => (orFail (dijkstraPathData matrix n (s.taskNode (d.task - 1)))).map fun weight =>
          let delayTemp := Int32.ofNat weight * TRANSDELAY
          if comTransDelay < delayTemp then delayTemp else comTransDelay

def startTasks (s : Sched) : Sched :=
  { s with taskNode := fun _ => 0, taskStatus := fun _ => false, delay := fun _ => 0 }

def readJob (s : Sched) : Except Exit Sched :=
  (job.data.foldlM storeData { s with occupation := fun _ => false }).bind fun s =>
    (List.range job.taskNum).foldlM (checkResource job) s

def finishJob (s : Sched) : Except Exit Sched :=
  (job.data.foldlM (routeData matrix job s) 0).map fun comTransDelay =>
    { s with finishTimes := s.finishTimes ++ [comTransDelay + s.delay (job.taskNum - 1)] }

def randomNode (drawn : Fin 10) : Node := Fin.castLE (by decide) drawn

/-- One job, with the node of the inner ring that was drawn for its first task. -/
def handleJob (fuel : ℕ) (s : Sched) (input : JobInfo × Fin 10) : Except Exit Sched :=
  (readJob input.1 s).bind fun s =>
    (orFail (queueTasks input.1 fuel)).bind fun (queue, preList) =>
      (queue.foldlM (placeTask matrix input.1 preList (randomNode input.2))
        (startTasks s)).bind fun s => finishJob matrix input.1 s

def test (fuel : ℕ) (s : Sched) (jobs : List (JobInfo × Fin 10)) : Except Exit Sched :=
  jobs.foldlM (handleJob matrix fuel) s

section Routing

variable {matrix : Matrix} {job : JobInfo} {s s' : Sched} {index target : Node} {trans weight : ℕ}

/-- What computing a route does: its links are reserved, and the target can be reached over links
with room if and only if these have room. -/
structure Routed (matrix : Matrix) (s s' : Sched) (index target : Node) (trans : ℕ) : Prop where
  slice : ∃ r : Route, s'.routes = s.routes ++ [r] ∧ r.trans = trans ∧
    (∀ i j, s'.slice i j = s.slice i j + if Uses r.hops i j then trans else 0) ∧
    (Reaches matrix (room s.slice trans) index target ↔
      ∀ hop ∈ r.hops, Usable matrix (room s.slice trans) hop.1 hop.2)
  storage : s'.storage = s.storage
  taskStatus : s'.taskStatus = s.taskStatus

theorem Routed.symmetric (h : Routed matrix s s' index target trans)
    (hs : ∀ i j, s.slice i j = s.slice j i) (i j : Node) : s'.slice i j = s'.slice j i := by
  obtain ⟨r, -, -, hslice, -⟩ := h.slice
  rw [hslice, hslice, hs i j]
  congr 1
  exact if_congr uses_symm rfl rfl

variable {nodesInPath : List Node} {slice : Matrix}

theorem reserve_spec (hlinks : ∀ a b, matrix a b ≤ 1)
    (hprevs : allPrevs (dijkstra matrix (room s.slice trans) index).prevs target =
      .ok nodesInPath)
    (hreserve : reserveAll (dijkstra matrix (room s.slice trans) index).prevs trans (N + 1) target
      s.slice = .ok slice) :
    (∀ i j, slice i j = s.slice i j +
      if Uses (Route.hops ⟨index, nodesInPath, target, trans⟩) i j then trans else 0) ∧
    (Reaches matrix (room s.slice trans) index target ↔
      ∀ hop ∈ Route.hops ⟨index, nodesInPath, target, trans⟩,
        Usable matrix (room s.slice trans) hop.1 hop.2) := by
  obtain ⟨hsearched, -⟩ := searched_dijkstra hlinks (room s.slice trans) index
  have hway := allPrevs_eq_ok hprevs
  have hlen := hway.length_le
  rw [reserveAll_eq_ok hsearched.start hway (by omega)] at hreserve
  obtain rfl := Except.ok.inj hreserve
  refine ⟨fun i j => ?_, hsearched.reaches_iff hway⟩
  dsimp only
  rw [reserved_links (hway.nodup_append hsearched.start)]
  rfl

theorem dijkstraPathReserving_spec (hlinks : ∀ a b, matrix a b ≤ 1)
    (h : dijkstraPathReserving matrix s index target trans = .ok (s', weight)) :
    Routed matrix s s' index target trans ∧ s'.cpu = s.cpu ∧ s'.placements = s.placements := by
  obtain ⟨nodesInPath, hprevs, h⟩ := bind_eq_ok.mp h
  obtain ⟨slice, hreserve, h⟩ := map_eq_ok.mp h
  cases h
  obtain ⟨hslice, hreaches⟩ := reserve_spec hlinks hprevs hreserve
  exact ⟨⟨⟨_, rfl, rfl, hslice, hreaches⟩, rfl, rfl⟩, rfl, rfl⟩

variable {weights : Node → ℕ} {comp : ℕ}

theorem getMinIndex_spec {nextPort : Node} (h : getMinIndex s weights comp = some nextPort) :
    weights nextPort < MAX_VALUE ∧ s.occupation nextPort = false ∧
      s.cpu nextPort + comp ≤ MAX_CPU := by
  have hfold : ∀ (nodes : List Node) (acc : Option Node × ℕ),
      (acc.2 ≤ MAX_VALUE ∧ ∀ n, acc.1 = some n →
        weights n < MAX_VALUE ∧ s.occupation n = false ∧ s.cpu n + comp ≤ MAX_CPU) →
      ∀ n, (nodes.foldl (fun (minIndex, min) i =>
        if weights i < min ∧ s.occupation i = false ∧ s.cpu i + comp ≤ MAX_CPU then
          (some i, weights i)
        else (minIndex, min)) acc).1 = some n →
          weights n < MAX_VALUE ∧ s.occupation n = false ∧ s.cpu n + comp ≤ MAX_CPU := by
    intro nodes
    induction nodes with
    | nil => exact fun acc hacc => hacc.2
    | cons i nodes ih =>
      intro acc hacc
      rw [List.foldl_cons]
      refine ih _ ?_
      dsimp only
      split_ifs with hi
      · refine ⟨hi.1.le.trans hacc.1, fun n hn => ?_⟩
        obtain rfl := Option.some.inj hn
        exact ⟨hi.1.trans_le hacc.1, hi.2⟩
      · exact hacc
  exact hfold _ _ ⟨le_rfl, fun n hn => by cases hn⟩ nextPort h

theorem dijkstraPathPlacing_spec (hlinks : ∀ a b, matrix a b ≤ 1) {taskIndex comp : ℕ}
    (h : dijkstraPathPlacing matrix s index taskIndex trans comp = .ok (s', weight)) :
    ∃ nextPort,
      getMinIndex s (dijkstra matrix (room s.slice trans) index).weights comp = some nextPort ∧
      Routed matrix s s' index nextPort trans ∧
      s'.cpu = Function.update s.cpu nextPort (s.cpu nextPort + comp) ∧
      s'.placements = s.placements ++ [⟨nextPort, taskIndex, comp⟩] := by
  unfold dijkstraPathPlacing at h
  dsimp only at h
  cases hnext : getMinIndex s (dijkstra matrix (room s.slice trans) index).weights comp with
  | none =>
    rw [hnext] at h
    cases h
  | some nextPort =>
    rw [hnext] at h
    obtain ⟨nodesInPath, hprevs, h⟩ := bind_eq_ok.mp h
    obtain ⟨slice, hreserve, h⟩ := map_eq_ok.mp h
    cases h
    obtain ⟨hslice, hreaches⟩ := reserve_spec hlinks hprevs hreserve
    exact ⟨nextPort, rfl, ⟨⟨_, rfl, rfl, hslice, hreaches⟩, rfl, rfl⟩, rfl, rfl⟩

theorem orFail_eq_ok {α : Type*} {r : Except Failure α} {x : α} : orFail r = .ok x ↔ r = .ok x := by
  cases r with
  | error e => simp [orFail, Except.mapError]
  | ok y => simp [orFail, Except.mapError]

theorem final_of_orFail {α : Type*} {r : Except Failure α} {e : Exit} (h : orFail r = .error e) :
    e.final = none := by
  cases r with
  | error f =>
    obtain rfl := Except.error.inj h
    rfl
  | ok y => cases h

theorem routeFrom_spec (hlinks : ∀ a b, matrix a b ≤ 1) {t pre : ℕ}
    (h : routeFrom matrix job t s pre = .ok s') :
    Routed matrix s s' (s.taskNode pre) (s.taskNode t) (job.resource pre).2 ∧
      s'.cpu = s.cpu ∧ s'.placements = s.placements := by
  obtain ⟨⟨s₁, weight⟩, hroute, h⟩ := map_eq_ok.mp h
  obtain ⟨hrouted, hcpu, hplaced⟩ := dijkstraPathReserving_spec hlinks (orFail_eq_ok.mp hroute)
  subst h
  exact ⟨⟨hrouted.slice, hrouted.storage, hrouted.taskStatus⟩, hcpu, hplaced⟩

theorem placeFirst_spec (hlinks : ∀ a b, matrix a b ≤ 1) {t first : ℕ}
    (h : placeFirst matrix job s t first = .ok s') :
    ∃ nextPort,
      getMinIndex s (dijkstra matrix (room s.slice (job.resource first).2)
        (s.taskNode first)).weights (job.resource t).1 = some nextPort ∧
      Routed matrix s s' (s.taskNode first) nextPort (job.resource first).2 ∧
      s'.cpu = Function.update s.cpu nextPort (s.cpu nextPort + (job.resource t).1) ∧
      s'.placements = s.placements ++ [⟨nextPort, t, (job.resource t).1⟩] := by
  obtain ⟨⟨s₁, weight⟩, hroute, h⟩ := map_eq_ok.mp h
  obtain ⟨nextPort, hnext, hrouted, hcpu, hplaced⟩ :=
    dijkstraPathPlacing_spec hlinks (orFail_eq_ok.mp hroute)
  subst h
  exact ⟨nextPort, hnext, ⟨hrouted.slice, hrouted.storage, hrouted.taskStatus⟩, hcpu, hplaced⟩

theorem placeFirst_eq {prevs : Node → Option Node} {t first : ℕ} {nextPort : Node}
    (hjob : ∀ t, job.resource t = (comp, trans))
    (hweights : (dijkstra matrix (room s.slice trans) (s.taskNode first)).weights = weights)
    (hsearch : (dijkstra matrix (room s.slice trans) (s.taskNode first)).prevs = prevs)
    (hnext : getMinIndex s weights comp = some nextPort)
    (hprevs : allPrevs prevs nextPort = .ok nodesInPath)
    (hslice : reserveAll prevs trans (N + 1) nextPort s.slice = .ok slice) :
    placeFirst matrix job s t first = .ok { s with
      occupation := Function.update s.occupation nextPort true
      taskNode := Function.update s.taskNode t nextPort
      cpu := Function.update s.cpu nextPort (s.cpu nextPort + comp)
      slice := slice
      placements := s.placements ++ [⟨nextPort, t, comp⟩]
      routes := s.routes ++ [⟨s.taskNode first, nodesInPath, nextPort, trans⟩]
      maxDelay := s.delay first + Int32.ofNat (weights nextPort) * TRANSDELAY + COMDELAY } := by
  unfold placeFirst dijkstraPathPlacing
  dsimp only
  rw [hjob, hjob, hweights, hsearch, hnext]
  dsimp only
  rw [hprevs, Except.bind, hslice]
  rfl

theorem routeFrom_eq {prevs : Node → Option Node} {t pre : ℕ}

    (hjob : ∀ t, job.resource t = (comp, trans))
    (hweights : (dijkstra matrix (room s.slice trans) (s.taskNode pre)).weights = weights)
    (hsearch : (dijkstra matrix (room s.slice trans) (s.taskNode pre)).prevs = prevs)
    (hprevs : allPrevs prevs (s.taskNode t) = .ok nodesInPath)
    (hslice : reserveAll prevs trans (N + 1) (s.taskNode t) s.slice = .ok slice) :
    ∃ maxDelay, routeFrom matrix job t s pre = .ok { s with
      slice := slice
      routes := s.routes ++ [⟨s.taskNode pre, nodesInPath, s.taskNode t, trans⟩]
      maxDelay := maxDelay } := by
  unfold routeFrom dijkstraPathReserving
  dsimp only
  rw [hjob, hweights, hsearch, hprevs, Except.bind, hslice]
  exact ⟨_, rfl⟩

end Routing

section Order

variable {matrix : Matrix} {job : JobInfo} {preList : ℕ → List ℕ} {start : Node} {s s' : Sched}
  {t : ℕ}

theorem taskStatus_placeTask (hlinks : ∀ a b, matrix a b ≤ 1)
    (h : placeTask matrix job preList start s t = .ok s') (x : ℕ) :
    s'.taskStatus x = true ↔ x = t ∨ s.taskStatus x = true := by
  rw [placeTask] at h
  split_ifs at h with hstatus hzero
  · obtain rfl := Except.ok.inj h
    constructor
    · exact .inr
    · rintro (rfl | hx)
      · exact hstatus
      · exact hx
  · obtain rfl := Except.ok.inj h
    subst hzero
    by_cases hx : x = 0 <;> simp [hx]
  · cases hpre : preList t with
    | nil =>
      rw [hpre] at h
      cases h
    | cons first rest =>
      rw [hpre] at h
      obtain ⟨s₂, hroutes, rfl⟩ := map_eq_ok.mp h
      obtain ⟨s₁, hfirst, hrest⟩ := bind_eq_ok.mp hroutes
      obtain ⟨nextPort, -, hrouted, -⟩ := placeFirst_spec hlinks hfirst
      have hsame : Ensures (rest.foldlM (routeFrom matrix job t) s₁)
          (fun s₂ => s₂.taskStatus = s.taskStatus) fun _ => True := by
        refine Ensures.foldlM (fun s₂ pre _ hs₂ => ?_) hrouted.taskStatus
        cases hstep : routeFrom matrix job t s₂ pre with
        | error e => exact ensures_error trivial
        | ok s₃ => exact ensures_ok ((routeFrom_spec hlinks hstep).1.taskStatus.trans hs₂)
      have hstatuses := hsame.ok hrest
      by_cases hx : x = t <;> simp [hx, hstatuses]

theorem taskStatus_foldlM (hlinks : ∀ a b, matrix a b ≤ 1) {tasks : List ℕ}
    (h : tasks.foldlM (placeTask matrix job preList start) s = .ok s') (x : ℕ) :
    s'.taskStatus x = true ↔ x ∈ tasks ∨ s.taskStatus x = true := by
  induction tasks generalizing s with
  | nil =>
    obtain rfl := Except.ok.inj h
    simp
  | cons t tasks ih =>
    rw [List.foldlM_cons] at h
    obtain ⟨s₁, hstep, hrest⟩ := bind_eq_ok.mp h
    rw [ih hrest, taskStatus_placeTask hlinks hstep, List.mem_cons]
    tauto

/-- Whenever a task is taken from the queue for the first time, all tasks before it have been
placed. -/
def PlacedInOrder (matrix : Matrix) (job : JobInfo) (preList : ℕ → List ℕ) (start : Node)
    (s : Sched) (queue : List ℕ) : Prop :=
  ∀ pre t post, queue = pre ++ t :: post →
    ∀ s', pre.foldlM (placeTask matrix job preList start) (startTasks s) = .ok s' →
      s'.taskStatus t = false → ∀ p, Follows job p t → s'.taskStatus p = true

theorem placedInOrder_of_before (hlinks : ∀ a b, matrix a b ≤ 1) {queue : List ℕ}
    (h : ∀ p t, Follows job p t → Before queue p t) :
    PlacedInOrder matrix job preList start s queue := by
  intro pre t post hqueue s' hrun ht p hfollows
  rw [taskStatus_foldlM hlinks hrun]
  exact .inl (h p t hfollows pre post hqueue)

theorem before_of_placedInOrder (hlinks : ∀ a b, matrix a b ≤ 1) {queue : List ℕ}
    (hrun : queue.foldlM (placeTask matrix job preList start) (startTasks s) = .ok s')
    (h : PlacedInOrder matrix job preList start s queue) {p t : ℕ} (hfollows : Follows job p t) :
    Before queue p t := by
  refine before_iff_first.mpr fun pre post hqueue hnot => ?_
  rw [hqueue, List.foldlM_append] at hrun
  obtain ⟨s₁, hpre, -⟩ := bind_eq_ok.mp hrun
  have hnew : s₁.taskStatus t = false := by
    rw [Bool.eq_false_iff, ne_eq, taskStatus_foldlM hlinks hpre]
    rintro (ht | ht)
    · exact hnot ht
    · cases ht
  have hp := h pre t post hqueue s₁ hpre hnew p hfollows
  rw [taskStatus_foldlM hlinks hpre] at hp
  exact hp.resolve_right Bool.false_ne_true

theorem readLink_le (topology : List (Node × Node)) (a b : Node) : readLink topology a b ≤ 1 := by
  rw [readLink]
  split_ifs
  · exact le_rfl
  · exact Nat.zero_le 1

/-- The queue comes to an end, and the tasks are placed in order if and only if each link leads from
a task to one that it precedes on the levels of the graph. -/
theorem placedInOrder_iff (topology : List (Node × Node)) (h : TaskGraph job) (start : Node)
    (s : Sched) : ∃ fuel queue preList,
      (∀ more, queueTasks job (fuel + more) = .ok (queue, preList)) ∧
      ((∀ p t, Follows job p t → Precedes job p t) →
        PlacedInOrder (readLink topology) job preList start s queue) ∧
      ∀ s', queue.foldlM (placeTask (readLink topology) job preList start) (startTasks s) = .ok s' →
        PlacedInOrder (readLink topology) job preList start s queue →
          ∀ p t, Follows job p t → Precedes job p t := by
  obtain ⟨preList, hqueue, -⟩ := queueTasks_spec h.acyclicTasks
  refine ⟨_, _, preList, hqueue, fun hprecedes => ?_, fun s' hrun horder p t hfollows => ?_⟩
  · refine placedInOrder_of_before (readLink_le topology) fun p t hfollows => ?_
    exact (h.before_iff (h.acyclicTasks.lt_of_follows hfollows)).mpr (hprecedes p t hfollows)
  · rw [← h.before_iff (h.acyclicTasks.lt_of_follows hfollows)]
    exact before_of_placedInOrder (readLink_le topology) hrun horder hfollows

/-- The last task follows the first one directly, and also the one between. -/
def shortcut : JobInfo where
  taskNum := 3
  data := []
  resource _ := (1, 1)
  link t := if t = 0 then [3, 2] else if t = 1 then [3] else []

theorem taskGraph_shortcut : TaskGraph shortcut := by
  have hfollows : ∀ p t, Follows shortcut p t ↔ p = 0 ∧ t = 2 ∨ p = 0 ∧ t = 1 ∨ p = 1 ∧ t = 2 := by
    intro p t
    unfold Follows shortcut
    dsimp only
    split_ifs with h0 h1
    · subst h0
      simp
    · subst h1
      simp
    · simp [h0, h1]
  refine ⟨by decide, fun p hp number hnumber => ?_, acyclic_of_lt fun p t h => ?_, fun t ht => ?_⟩
  · unfold shortcut at hnumber ⊢
    dsimp only at hnumber ⊢
    split_ifs at hnumber <;> simp at hnumber <;> omega
  · rw [hfollows] at h
    omega
  · have ht : t < 3 := ht
    by_cases h0 : t = 0
    · rw [h0]
    · refine Relation.ReflTransGen.single ((hfollows 0 t).mpr ?_)
      omega

theorem placedInOrder_iff_shortcut : ∃ fuel queue preList,
    (∀ more, queueTasks shortcut (fuel + more) = .ok (queue, preList)) ∧
    ((∀ p t, Follows shortcut p t → Precedes shortcut p t) →
      PlacedInOrder (readLink [(0, 1), (1, 2)]) shortcut preList 0 initial queue) ∧
    ∀ s', queue.foldlM (placeTask (readLink [(0, 1), (1, 2)]) shortcut preList 0)
        (startTasks initial) = .ok s' →
      PlacedInOrder (readLink [(0, 1), (1, 2)]) shortcut preList 0 initial queue →
        ∀ p t, Follows shortcut p t → Precedes shortcut p t :=
  placedInOrder_iff [(0, 1), (1, 2)] taskGraph_shortcut 0 initial

/-- The last task is taken when only the first one has been placed, so the one between is still
unplaced and counts as lying on node 0. -/
theorem task_taken_before_predecessor : TaskGraph shortcut ∧ ∃ queue preList,
    queueTasks shortcut 4 = .ok (queue, preList) ∧
    ¬ PlacedInOrder (readLink [(0, 1), (1, 2)]) shortcut preList 0 initial queue := by
  have hqueue : (queueTasks shortcut 4).map Prod.fst = .ok [0, 2, 1, 2] := by decide
  obtain ⟨⟨_, preList⟩, hok, rfl⟩ := map_eq_ok.mp hqueue
  refine ⟨taskGraph_shortcut, _, preList, hok, fun h => ?_⟩
  have hplaced := h [0] 2 [1, 2] rfl _ rfl rfl 1 (by decide)
  cases hplaced

end Order

end DagScheduler

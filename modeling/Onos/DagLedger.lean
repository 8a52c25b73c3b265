import Onos.DagScheduler

/-! What the ledgers of the scheduler say: whether they stay within the capacities, and whether they
are the sums of what has been placed and routed. -/
namespace DagLedger

open DagTaskQueue DagRoutes DagScheduler FallibleRun

section Capacity

structure WithinCapacity (matrix : Matrix) (s : Sched) : Prop where
  symmetric : ∀ i j, s.slice i j = s.slice j i
  slices : ∀ i j, s.slice i j ≤ MAX_SLICE
  links : ∀ i j, s.slice i j ≠ 0 → 0 < matrix i j
  cpus : ∀ n, s.cpu n ≤ MAX_CPU
  storages : ∀ n, s.storage n ≤ MAX_STORAGE

structure Steady (s : Sched) : Prop where
  symmetric : ∀ i j, s.slice i j = s.slice j i
  cpus : ∀ n, s.cpu n ≤ MAX_CPU

def Fits (s : Sched) (line : Option DataInfo) : Prop :=
  ∀ d n, line = some d → d.dataPort = some n → s.storage n + d.amount ≤ MAX_STORAGE

/-- The target can be reached over links with room, unless there is nothing to transfer. -/
def HasRoom (matrix : Matrix) (s : Sched) (index target : Node) (trans : ℕ) : Prop :=
  trans = 0 ∨ Reaches matrix (room s.slice trans) index target

variable (matrix : Matrix) (job : JobInfo)

def PlacingHasRoom (s : Sched) (taskIndex first : ℕ) : Prop :=
  ∀ nextPort, getMinIndex s (dijkstra matrix (room s.slice (job.resource first).2)
      (s.taskNode first)).weights (job.resource taskIndex).1 = some nextPort →
    HasRoom matrix s (s.taskNode first) nextPort (job.resource first).2

def RouteHasRoom (taskIndex : ℕ) (s : Sched) (pre : ℕ) : Prop :=
  HasRoom matrix s (s.taskNode pre) (s.taskNode taskIndex) (job.resource pre).2

def TaskHasRoom (preList : ℕ → List ℕ) (s : Sched) (taskIndex : ℕ) : Prop :=
  s.taskStatus taskIndex = false → taskIndex ≠ 0 → ∀ first rest, preList taskIndex = first :: rest →
    PlacingHasRoom matrix job s taskIndex first ∧
    ∀ s', placeFirst matrix job s taskIndex first = .ok s' →
      Meets (routeFrom matrix job taskIndex) (RouteHasRoom matrix job taskIndex) s' rest

def JobHasRoom (fuel : ℕ) (s : Sched) (input : JobInfo × Fin 10) : Prop :=
  Meets storeData Fits { s with occupation := fun _ => false } input.1.data ∧
  ∀ s', readJob input.1 s = .ok s' → ∀ queue preList,
    queueTasks input.1 fuel = .ok (queue, preList) →
    Meets (placeTask matrix input.1 preList (randomNode input.2))
      (TaskHasRoom matrix input.1 preList) (startTasks s') queue

variable {matrix job} {s s' : Sched}

theorem withinCapacity_congr (hslice : s'.slice = s.slice) (hcpu : s'.cpu = s.cpu)
    (hstorage : s'.storage = s.storage) : WithinCapacity matrix s' ↔ WithinCapacity matrix s := by
  constructor
  · rintro ⟨h₁, h₂, h₃, h₄, h₅⟩
    rw [hslice] at h₁ h₂ h₃
    rw [hcpu] at h₄
    rw [hstorage] at h₅
    exact ⟨h₁, h₂, h₃, h₄, h₅⟩
  · rintro ⟨h₁, h₂, h₃, h₄, h₅⟩
    rw [← hslice] at h₁ h₂ h₃
    rw [← hcpu] at h₄
    rw [← hstorage] at h₅
    exact ⟨h₁, h₂, h₃, h₄, h₅⟩

theorem readLink_symm (topology : List (Node × Node)) (i j : Node) :
    readLink topology i j = readLink topology j i := by
  unfold readLink
  have hany : (topology.any fun link => link.1 == i && link.2 == j || link.1 == j && link.2 == i) =
      topology.any fun link => link.1 == j && link.2 == i || link.1 == i && link.2 == j := by
    congr 1
    funext link
    rw [Bool.or_comm]
  rw [hany]

theorem withinCapacity_routed {index target : Node} {trans : ℕ}
    (h : Routed matrix s s' index target trans) (hmatrix : ∀ i j, matrix i j = matrix j i)
    (hs : Steady s) (hs' : Steady s') (hcpu : WithinCapacity matrix s → ∀ n, s'.cpu n ≤ MAX_CPU) :
    WithinCapacity matrix s' ↔ WithinCapacity matrix s ∧ HasRoom matrix s index target trans := by
  obtain ⟨r, -, -, hslice, hreaches⟩ := h.slice
  rw [HasRoom]
  rw [hreaches]
  constructor
  · intro hwithin
    have hle : ∀ i j, s.slice i j ≤ s'.slice i j := by
      intro i j
      rw [hslice]
      exact Nat.le_add_right _ _
    refine ⟨⟨hs.symmetric, fun i j => (hle i j).trans (hwithin.slices i j), fun i j hne => ?_,
      hs.cpus, fun n => ?_⟩, ?_⟩
    · have := hle i j
      exact hwithin.links i j (by omega)
    · rw [← h.storage]
      exact hwithin.storages n
    · by_cases htrans : trans = 0
      · exact .inl htrans
      · right
        intro hop hhop
        have hused := hslice hop.1 hop.2
        rw [if_pos (.inl hhop)] at hused
        have hmax := hwithin.slices hop.1 hop.2
        refine ⟨hwithin.links hop.1 hop.2 (by omega), ?_⟩
        exact decide_eq_true (by omega)
  · rintro ⟨hwithin, hroom⟩
    have hused : ∀ i j, Uses r.hops i j → trans ≠ 0 →
        0 < matrix i j ∧ s.slice i j + trans ≤ MAX_SLICE := by
      rintro i j huses htrans
      have hall := hroom.resolve_left htrans
      rcases huses with hij | hji
      · exact ⟨(hall _ hij).1, of_decide_eq_true (hall _ hij).2⟩
      · rw [hmatrix, hs.symmetric]
        exact ⟨(hall _ hji).1, of_decide_eq_true (hall _ hji).2⟩
    refine ⟨hs'.symmetric, fun i j => ?_, fun i j hne => ?_, hcpu hwithin, fun n => ?_⟩
    · have hmax := hwithin.slices i j
      rw [hslice]
      split_ifs with huses
      · by_cases htrans : trans = 0
        · omega
        · exact (hused i j huses htrans).2
      · omega
    · rw [hslice] at hne
      split_ifs at hne with huses
      · by_cases htrans : trans = 0
        · exact hwithin.links i j (by omega)
        · exact (hused i j huses htrans).1
      · exact hwithin.links i j (by omega)
    · rw [h.storage]
      exact hwithin.storages n

theorem withinCapacity_initial : WithinCapacity matrix initial :=
  ⟨fun _ _ => rfl, fun _ _ => Nat.zero_le _, fun _ _ h => absurd rfl h, fun _ => Nat.zero_le _,
    fun _ => Nat.zero_le _⟩

variable {preList : ℕ → List ℕ} {start : Node} {index target : Node} {trans t : ℕ}

section

variable (hlinks : ∀ a b, matrix a b ≤ 1)

include hlinks

theorem steady_routeFrom (hs : Steady s) (pre : ℕ) :
    Ensures (routeFrom matrix job t s pre) Steady fun _ => True := by
  cases hstep : routeFrom matrix job t s pre with
  | error e => exact ensures_error trivial
  | ok s' =>
    obtain ⟨hrouted, hcpu, -⟩ := routeFrom_spec hlinks hstep
    exact ensures_ok ⟨hrouted.symmetric hs.symmetric, hcpu ▸ hs.cpus⟩

theorem steady_placeFirst (hs : Steady s) (first : ℕ) :
    Ensures (placeFirst matrix job s t first) Steady fun _ => True := by
  cases hstep : placeFirst matrix job s t first with
  | error e => exact ensures_error trivial
  | ok s' =>
    obtain ⟨nextPort, hnext, hrouted, hcpu, -⟩ := placeFirst_spec hlinks hstep
    refine ensures_ok ⟨hrouted.symmetric hs.symmetric, fun n => ?_⟩
    rw [hcpu]
    by_cases hn : n = nextPort
    · rw [hn, Function.update_self]
      exact (getMinIndex_spec hnext).2.2
    · rw [Function.update_of_ne hn]
      exact hs.cpus n

theorem steady_placeTask (hs : Steady s) :
    Ensures (placeTask matrix job preList start s t) Steady fun _ => True := by
  rw [placeTask]
  split_ifs with hstatus hzero
  · exact ensures_ok hs
  · exact ensures_ok ⟨hs.symmetric, hs.cpus⟩
  · cases preList t with
    | nil => exact ensures_error trivial
    | cons first rest =>
      dsimp only
      refine Ensures.map ?_ fun s₂ (hs₂ : Steady s₂) => ⟨hs₂.symmetric, hs₂.cpus⟩
      refine Ensures.bind (steady_placeFirst hlinks hs first) fun s₁ _ hs₁ => ?_
      exact Ensures.foldlM (fun s₂ pre _ hs₂ => steady_routeFrom hlinks hs₂ pre) hs₁

end

theorem steady_readJob (hs : Steady s) : Ensures (readJob job s) Steady fun _ => True := by
  rw [readJob]
  refine Ensures.bind (Ensures.foldlM (fun s₁ line _ hs₁ => ?_) ⟨hs.symmetric, hs.cpus⟩)
    fun s₁ _ hs₁ => Ensures.foldlM (fun s₂ task _ hs₂ => ?_) hs₁
  · unfold storeData
    cases line with
    | none => exact ensures_error trivial
    | some d =>
      dsimp only
      cases d.dataPort with
      | none => exact ensures_error trivial
      | some n =>
        dsimp only
        split_ifs
        · exact ensures_error trivial
        · exact ensures_ok ⟨hs₁.symmetric, hs₁.cpus⟩
  · rw [checkResource]
    split_ifs
    · exact ensures_error trivial
    · exact ensures_error trivial
    · exact ensures_ok hs₂

theorem steady_handleJob (hlinks : ∀ a b, matrix a b ≤ 1) (hs : Steady s) (fuel : ℕ)
    (input : JobInfo × Fin 10) : Ensures (handleJob matrix fuel s input) Steady fun _ => True := by
  rw [handleJob]
  refine (steady_readJob hs).bind fun s₁ _ hs₁ => ?_
  refine Ensures.bind_of (fun _ _ => trivial) fun ⟨queue, preList⟩ _ => ?_
  refine Ensures.bind (Ensures.foldlM (fun s₂ t _ hs₂ => steady_placeTask hlinks hs₂)
    ⟨hs₁.symmetric, hs₁.cpus⟩) fun s₂ _ hs₂ => ?_
  exact Ensures.map_of (fun _ _ => trivial) fun _ _ => ⟨hs₂.symmetric, hs₂.cpus⟩

theorem withinCapacity_update {n : Node} {amount : ℕ}
    (hslice : s'.slice = s.slice) (hcpu : s'.cpu = s.cpu)
    (hstorage : s'.storage = Function.update s.storage n (s.storage n + amount)) :
    WithinCapacity matrix s' ↔ WithinCapacity matrix s ∧ s.storage n + amount ≤ MAX_STORAGE := by
  have hupdate := Function.forall_update_iff s.storage (a := n) (b := s.storage n + amount)
    fun _ stored => stored ≤ MAX_STORAGE
  rw [← hstorage] at hupdate
  constructor
  · rintro ⟨h₁, h₂, h₃, h₄, h₅⟩
    rw [hslice] at h₁ h₂ h₃
    rw [hcpu] at h₄
    obtain ⟨hn, hother⟩ := hupdate.mp h₅
    refine ⟨⟨h₁, h₂, h₃, h₄, fun m => ?_⟩, hn⟩
    by_cases hm : m = n
    · rw [hm]
      omega
    · exact hother m hm
  · rintro ⟨⟨h₁, h₂, h₃, h₄, h₅⟩, hn⟩
    rw [← hslice] at h₁ h₂ h₃
    rw [← hcpu] at h₄
    exact ⟨h₁, h₂, h₃, h₄, hupdate.mpr ⟨hn, fun m _ => h₅ m⟩⟩

theorem decides_storeData (s : Sched) (line : Option DataInfo) :
    Decides Exit.final (WithinCapacity matrix) s (storeData s line) (Fits s line) := by
  unfold storeData
  cases line with
  | none =>
    refine decides_error fun s' hs' => ?_
    obtain rfl := Option.some.inj hs'
    exact (and_iff_left fun d n hd => by cases hd).symm
  | some d =>
    dsimp only
    cases hport : d.dataPort with
    | none => exact decides_error fun s' hs' => by cases hs'
    | some n =>
      have hfits : Fits s (some d) ↔ s.storage n + d.amount ≤ MAX_STORAGE := by
        constructor
        · exact fun h => h d n rfl hport
        · rintro h d' n' hd hn
          obtain rfl := Option.some.inj hd
          rw [hport] at hn
          obtain rfl := Option.some.inj hn
          exact h
      dsimp only
      rw [hfits]
      split_ifs
      · refine decides_error fun s' hs' => ?_
        obtain rfl := Option.some.inj hs'
        exact withinCapacity_update rfl rfl rfl
      · exact decides_ok (withinCapacity_update rfl rfl rfl)

theorem decides_checkResource (s : Sched) (task : ℕ) :
    Decides Exit.final (WithinCapacity matrix) s (checkResource job s task) True := by
  rw [checkResource]
  split_ifs
  · refine decides_error fun s' hs' => ?_
    exact Option.some.inj hs' ▸ (and_iff_left trivial).symm
  · refine decides_error fun s' hs' => ?_
    exact Option.some.inj hs' ▸ (and_iff_left trivial).symm
  · exact decides_ok (and_iff_left trivial).symm

theorem decides_readJob (s : Sched) : Decides Exit.final (WithinCapacity matrix) s (readJob job s)
      (Meets storeData Fits { s with occupation := fun _ => false } job.data) := by
  have hstored : Decides Exit.final (WithinCapacity matrix) { s with occupation := fun _ => false }
      (job.data.foldlM storeData { s with occupation := fun _ => false })
      (Meets storeData Fits { s with occupation := fun _ => false } job.data) :=
    Decides.foldlM_of fun s line _ => decides_storeData s line
  have hchecked : ∀ s', Decides Exit.final (WithinCapacity matrix) s'
      ((List.range job.taskNum).foldlM (checkResource job) s') True := fun s' =>
    (Decides.foldlM_of fun s task _ => decides_checkResource s task).congr (iff_true_intro meets_true)
  exact ((hstored.bind fun s' _ => hchecked s').congr (and_iff_left fun s' _ => trivial)).of_start
    (withinCapacity_congr rfl rfl rfl)

theorem decides_finishJob (s : Sched) :
    Decides Exit.final (WithinCapacity matrix) s (finishJob matrix job s) True := by
  have hdata : Ensures (job.data.foldlM (routeData matrix job s) 0) (fun _ => True)
      fun e => e.final = none := by
    refine Ensures.foldlM (fun comTransDelay line _ _ => ⟨fun _ => trivial, fun {e} he => ?_⟩) trivial
    unfold routeData at he
    cases line with
    | none => cases he
    | some d =>
      dsimp only at he
      split_ifs at he
      · obtain rfl := Except.error.inj he
        rfl
      · cases hport : d.dataPort with
        | none =>
          rw [hport] at he
          obtain rfl := Except.error.inj he
          rfl
        | some n =>
          rw [hport] at he
          exact final_of_orFail (map_eq_error.mp he)
  refine decides_of_ok (fun e he => hdata.error (map_eq_error.mp he)) fun s' hs' => ?_
  obtain ⟨comTransDelay, -, rfl⟩ := map_eq_ok.mp hs'
  rw [and_true]
  exact withinCapacity_congr rfl rfl rfl

section Handling

variable (hlinks : ∀ a b, matrix a b ≤ 1) (hmatrix : ∀ i j, matrix i j = matrix j i)
include hlinks hmatrix

section

variable (hs : Steady s)

include hs

theorem decides_routeFrom (pre : ℕ) :
    Decides Exit.final (WithinCapacity matrix) s (routeFrom matrix job t s pre)
      (RouteHasRoom matrix job t s pre) := by
  refine decides_of_ok (fun e he => final_of_orFail (map_eq_error.mp he)) fun s' hs' => ?_
  obtain ⟨hrouted, hcpu, -⟩ := routeFrom_spec hlinks hs'
  refine withinCapacity_routed hrouted hmatrix hs ((steady_routeFrom hlinks hs pre).ok hs') ?_
  exact fun h => hcpu ▸ h.cpus

theorem decides_placeFirst (first : ℕ) :
    Decides Exit.final (WithinCapacity matrix) s (placeFirst matrix job s t first)
      (PlacingHasRoom matrix job s t first) := by
  refine decides_of_ok (fun e he => final_of_orFail (map_eq_error.mp he)) fun s' hs' => ?_
  have hs'' := (steady_placeFirst hlinks hs first).ok hs'
  obtain ⟨nextPort, hnext, hrouted, -⟩ := placeFirst_spec hlinks hs'
  rw [withinCapacity_routed hrouted hmatrix hs hs'' fun _ => hs''.cpus]
  rw [PlacingHasRoom]
  simp [hnext]

theorem decides_placeTask (t : ℕ) :
    Decides Exit.final (WithinCapacity matrix) s (placeTask matrix job preList start s t)
      (TaskHasRoom matrix job preList s t) := by
  unfold placeTask TaskHasRoom
  split_ifs with hstatus hzero
  · refine decides_ok (and_iff_left fun hnew => ?_).symm
    rw [hstatus] at hnew
    cases hnew
  · refine decides_ok ?_
    rw [and_iff_left fun _ hne => absurd hzero hne]
    exact withinCapacity_congr rfl rfl rfl
  · cases preList t with
    | nil => exact decides_error fun s' hs' => by cases hs'
    | cons first rest =>
      dsimp only
      have hrest : ∀ s₁, placeFirst matrix job s t first = .ok s₁ →
          Decides Exit.final (WithinCapacity matrix) s₁ (rest.foldlM (routeFrom matrix job t) s₁)
            (Meets (routeFrom matrix job t) (RouteHasRoom matrix job t) s₁ rest) := fun s₁ hs₁ =>
        Decides.foldlM Steady (fun s₂ pre _ hs₂ => steady_routeFrom hlinks hs₂ pre)
          (fun s₂ pre _ hs₂ => decides_routeFrom hlinks hmatrix hs₂ pre)
          ((steady_placeFirst hlinks hs first).ok hs₁)
      have hroutes := (decides_placeFirst hlinks hmatrix hs first).bind hrest
      refine Decides.congr (hroutes.map fun s₂ => ?_) ?_
      · exact withinCapacity_congr rfl rfl rfl
      · simp [hstatus, hzero]

theorem decides_tasks (job : JobInfo) (queue : List ℕ) (preList : ℕ → List ℕ) (start : Node) :
    Decides Exit.final (WithinCapacity matrix) s
      ((queue.foldlM (placeTask matrix job preList start) (startTasks s)).bind fun s =>
        finishJob matrix job s)
      (Meets (placeTask matrix job preList start) (TaskHasRoom matrix job preList) (startTasks s)
        queue) := by
  have hplaced : Decides Exit.final (WithinCapacity matrix) (startTasks s)
      (queue.foldlM (placeTask matrix job preList start) (startTasks s))
      (Meets (placeTask matrix job preList start) (TaskHasRoom matrix job preList) (startTasks s)
        queue) :=
    Decides.foldlM Steady (fun s₂ t _ hs₂ => steady_placeTask hlinks hs₂)
      (fun s₂ t _ hs₂ => decides_placeTask hlinks hmatrix hs₂ t) ⟨hs.symmetric, hs.cpus⟩
  refine Decides.of_start (Decides.congr (hplaced.bind fun s₂ _ => decides_finishJob s₂) ?_)
    (withinCapacity_congr rfl rfl rfl)
  exact and_iff_left fun s₂ _ => trivial

theorem decides_handleJob (fuel : ℕ) (input : JobInfo × Fin 10) :
    Decides Exit.final (WithinCapacity matrix) s (handleJob matrix fuel s input)
      (JobHasRoom matrix fuel s input) := by
  rw [handleJob]
  refine (decides_readJob s).bind fun s₁ hread => ?_
  have hs₁ := (steady_readJob hs).ok hread
  have hqueued := Decides.bind_of (a := orFail (queueTasks input.1 fuel))
    (fun _ he => final_of_orFail he) fun queued _ => decides_tasks hlinks hmatrix hs₁ input.1
      queued.1 queued.2 (randomNode input.2)
  refine hqueued.congr ⟨fun h queue preList hok => ?_, fun h queued hok => ?_⟩
  · exact h (queue, preList) (orFail_eq_ok.mpr hok)
  · exact h queued.1 queued.2 (orFail_eq_ok.mp hok)

end

end Handling

/-- However many jobs are handled, the ledgers stay within the capacities and on the links if and
only if the raw data fits and the routes that are taken have room. -/
theorem withinCapacity_iff (topology : List (Node × Node)) (fuel : ℕ)
    (jobs : List (JobInfo × Fin 10))
    (h : Returns Exit.final (test (readLink topology) fuel initial jobs) s) :
    WithinCapacity (readLink topology) s ↔
      Meets (handleJob (readLink topology) fuel) (JobHasRoom (readLink topology) fuel) initial
        jobs := by
  have hlinks := readLink_le topology
  have hjobs : Decides Exit.final (WithinCapacity (readLink topology)) initial
      (test (readLink topology) fuel initial jobs)
      (Meets (handleJob (readLink topology) fuel) (JobHasRoom (readLink topology) fuel) initial
        jobs) :=
    Decides.foldlM Steady (fun s₁ input _ hs₁ => steady_handleJob hlinks hs₁ fuel input)
      (fun s₁ input _ hs₁ => decides_handleJob hlinks (readLink_symm topology) hs₁ fuel input)
      ⟨fun _ _ => rfl, fun _ => Nat.zero_le _⟩
  rw [hjobs s h]
  exact and_iff_right withinCapacity_initial

def pair : JobInfo where
  taskNum := 2
  data := []
  resource _ := (10, 5)
  link t := if t = 0 then [2] else []

/-- The first task lies on a node without links. The second one goes to an end of the only link, and
the way back leads over node 0. -/
theorem slice_pair : ∃ s, test (readLink [(1, 2)]) 2 initial [(pair, 0)] = .ok s ∧
    s.slice 0 1 = 5 := by
  have hslice : (test (readLink [(1, 2)]) 2 initial [(pair, 0)]).toOption.map
      (fun s => s.slice 0 1) = some 5 := by decide +kernel
  cases hrun : test (readLink [(1, 2)]) 2 initial [(pair, 0)] with
  | error e =>
    rw [hrun] at hslice
    cases hslice
  | ok s =>
    rw [hrun] at hslice
    exact ⟨s, rfl, Option.some.inj hslice⟩

theorem withinCapacity_iff_pair : ∃ s,
    Returns Exit.final (test (readLink [(1, 2)]) 2 initial [(pair, 0)]) s ∧
    (WithinCapacity (readLink [(1, 2)]) s ↔
      Meets (handleJob (readLink [(1, 2)]) 2) (JobHasRoom (readLink [(1, 2)]) 2) initial
        [(pair, 0)]) := by
  obtain ⟨s, hrun, -⟩ := slice_pair
  exact ⟨s, .inl hrun, withinCapacity_iff [(1, 2)] 2 [(pair, 0)] (.inl hrun)⟩

/-- Capacity is reserved between two nodes that no link joins. -/
theorem reserved_without_link : ∃ s, test (readLink [(1, 2)]) 2 initial [(pair, 0)] = .ok s ∧
    ¬ WithinCapacity (readLink [(1, 2)]) s := by
  obtain ⟨s, hrun, hslice⟩ := slice_pair
  refine ⟨s, hrun, fun h => ?_⟩
  have hlink := h.links 0 1 (by omega)
  revert hlink
  decide

end Capacity

section Exact

def computeOn (placements : List Placement) (n : Node) : ℕ :=
  ((placements.filter fun p => p.node = n).map Placement.compute).sum

def transferOn (routes : List Route) (i j : Node) : ℕ :=
  ((routes.filter fun r => Uses r.hops i j).map Route.trans).sum

structure LedgerExact (s : Sched) : Prop where
  cpu : ∀ n, s.cpu n = computeOn s.placements n
  slice : ∀ i j, s.slice i j = transferOn s.routes i j

def isFirst (p : Placement) : Bool := p.task == 0

structure Charged (s : Sched) : Prop where
  cpu : ∀ n, s.cpu n = computeOn (s.placements.filter fun p => !isFirst p) n
  slice : ∀ i j, s.slice i j = transferOn s.routes i j

def FirstsFree (s : Sched) : Prop := ∀ p ∈ s.placements, isFirst p → p.compute = 0

theorem computeOn_append (placements : List Placement) (p : Placement) (n : Node) :
    computeOn (placements ++ [p]) n =
      computeOn placements n + if p.node = n then p.compute else 0 := by
  by_cases hp : p.node = n <;> simp [computeOn, hp]

theorem transferOn_append (routes : List Route) (r : Route) (i j : Node) :
    transferOn (routes ++ [r]) i j =
      transferOn routes i j + if Uses r.hops i j then r.trans else 0 := by
  by_cases hr : Uses r.hops i j <;> simp [transferOn, hr]

theorem computeOn_split (placements : List Placement) (n : Node) :
    computeOn placements n = computeOn (placements.filter fun p => !isFirst p) n +
      computeOn (placements.filter isFirst) n := by
  induction placements with
  | nil => rfl
  | cons p placements ih =>
    unfold computeOn at ih ⊢
    by_cases hn : p.node = n <;> cases hp : isFirst p <;> simp [hn, hp, ih] <;> omega

theorem Charged.exact_iff {s : Sched} (h : Charged s) : LedgerExact s ↔ FirstsFree s := by
  have hsplit : LedgerExact s ↔ ∀ n, computeOn (s.placements.filter isFirst) n = 0 := by
    constructor
    · intro hexact n
      have hn := hexact.cpu n
      rw [h.cpu, computeOn_split s.placements] at hn
      omega
    · intro hzero
      refine ⟨fun n => ?_, h.slice⟩
      rw [h.cpu, computeOn_split s.placements, hzero n, Nat.add_zero]
  rw [hsplit]
  simp only [computeOn, List.sum_eq_zero_iff_forall_eq_nat, List.mem_map, List.mem_filter]
  constructor
  · intro hzero p hp hfirst
    exact hzero p.node _ ⟨p, ⟨⟨hp, hfirst⟩, by simp⟩, rfl⟩
  · rintro hfree n _ ⟨p, ⟨⟨hp, hfirst⟩, -⟩, rfl⟩
    exact hfree p hp hfirst

variable {matrix : Matrix} {job : JobInfo} {preList : ℕ → List ℕ} {start index target : Node}
  {s s' : Sched} {trans t : ℕ}

theorem Routed.transfer (h : Routed matrix s s' index target trans)
    (hs : ∀ i j, s.slice i j = transferOn s.routes i j) (i j : Node) :
    s'.slice i j = transferOn s'.routes i j := by
  obtain ⟨r, hroutes, rfl, hslice, -⟩ := h.slice
  rw [hslice, hroutes, transferOn_append, hs]

theorem placeTask_spec (hlinks : ∀ a b, matrix a b ≤ 1)
    (h : placeTask matrix job preList start s t = .ok s') :
    (s.taskStatus t = true ∧ s' = s) ∨
    (t = 0 ∧ s.taskStatus t = false ∧ s'.cpu = s.cpu ∧ s'.slice = s.slice ∧ s'.routes = s.routes ∧
      s'.placements = s.placements ++ [⟨start, 0, (job.resource 0).1⟩]) ∨
    (t ≠ 0 ∧ ∃ n, s'.cpu = Function.update s.cpu n (s.cpu n + (job.resource t).1) ∧
      s'.placements = s.placements ++ [⟨n, t, (job.resource t).1⟩] ∧
      ((∀ i j, s.slice i j = transferOn s.routes i j) →
        ∀ i j, s'.slice i j = transferOn s'.routes i j)) := by
  rw [placeTask] at h
  split_ifs at h with hstatus hzero
  · exact .inl ⟨hstatus, (Except.ok.inj h).symm⟩
  · obtain rfl := Except.ok.inj h
    exact .inr (.inl ⟨hzero, Bool.eq_false_iff.mpr hstatus, rfl, rfl, rfl, rfl⟩)
  · right
    right
    refine ⟨hzero, ?_⟩
    cases hpre : preList t with
    | nil =>
      rw [hpre] at h
      cases h
    | cons first rest =>
      rw [hpre] at h
      obtain ⟨s₂, hroutes, rfl⟩ := map_eq_ok.mp h
      obtain ⟨s₁, hfirst, hrest⟩ := bind_eq_ok.mp hroutes
      obtain ⟨n, -, hrouted, hcpu, hplaced⟩ := placeFirst_spec hlinks hfirst
      have hsame : Ensures (rest.foldlM (routeFrom matrix job t) s₁)
          (fun s₂ => s₂.cpu = s₁.cpu ∧ s₂.placements = s₁.placements ∧
            ((∀ i j, s.slice i j = transferOn s.routes i j) →
              ∀ i j, s₂.slice i j = transferOn s₂.routes i j)) fun _ => True := by
        refine Ensures.foldlM (fun s₂ pre _ hs₂ => ⟨fun {s₃} hs₃ => ?_, fun _ => trivial⟩)
          ⟨rfl, rfl, fun hs => Routed.transfer hrouted hs⟩
        obtain ⟨hrouted₃, hcpu₃, hplaced₃⟩ := routeFrom_spec hlinks hs₃
        exact ⟨hcpu₃.trans hs₂.1, hplaced₃.trans hs₂.2.1,
          fun hs => Routed.transfer hrouted₃ (hs₂.2.2 hs)⟩
      obtain ⟨hcpu₂, hplaced₂, hslice₂⟩ := hsame.ok hrest
      exact ⟨n, hcpu₂.trans hcpu, hplaced₂.trans hplaced, hslice₂⟩

theorem Charged.placeTask (hlinks : ∀ a b, matrix a b ≤ 1) (hs : Charged s)
    (h : placeTask matrix job preList start s t = .ok s') : Charged s' := by
  rcases placeTask_spec hlinks h with
    ⟨-, rfl⟩ | ⟨rfl, -, hcpu, hslice, hroutes, hplaced⟩ | ⟨hzero, n, hcpu, hplaced, hslice⟩
  · exact hs
  · refine ⟨fun n => ?_, fun i j => ?_⟩
    · rw [hcpu, hs.cpu, hplaced, List.filter_append]
      simp [isFirst]
    · rw [hslice, hroutes, hs.slice]
  · refine ⟨fun m => ?_, hslice hs.slice⟩
    have hcharged : ([⟨n, t, (job.resource t).1⟩] : List Placement).filter (fun p => !isFirst p) =
        [⟨n, t, (job.resource t).1⟩] := by
      simp [isFirst, hzero]
    rw [hcpu, hplaced, List.filter_append, hcharged, computeOn_append, ← hs.cpu]
    by_cases hm : m = n
    · rw [hm, Function.update_self, if_pos rfl]
    · rw [Function.update_of_ne hm, if_neg (Ne.symm hm), Nat.add_zero]

theorem firstsFree_append {p : Placement} (h : s'.placements = s.placements ++ [p]) :
    FirstsFree s' ↔ FirstsFree s ∧ (isFirst p → p.compute = 0) := by
  unfold FirstsFree
  rw [h, List.forall_mem_append, List.forall_mem_singleton]

theorem firstsFree_placeTask (hlinks : ∀ a b, matrix a b ≤ 1)
    (h : placeTask matrix job preList start s t = .ok s') {free : Prop}
    (hs : FirstsFree s ↔ free ∧ (s.taskStatus 0 = true → (job.resource 0).1 = 0)) :
    FirstsFree s' ↔ free ∧ (s'.taskStatus 0 = true → (job.resource 0).1 = 0) := by
  have hstatus := taskStatus_placeTask hlinks h 0
  rcases placeTask_spec hlinks h with
    ⟨-, rfl⟩ | ⟨rfl, hnew, -, -, -, hplaced⟩ | ⟨hzero, n, -, hplaced, -⟩
  · exact hs
  · rw [firstsFree_append hplaced, hs, hstatus, hnew]
    simp [isFirst]
  · rw [firstsFree_append hplaced, hs, hstatus]
    simp [isFirst, hzero, Ne.symm hzero]

structure SameLedger (s s' : Sched) : Prop where
  cpu : s'.cpu = s.cpu
  slice : s'.slice = s.slice
  placements : s'.placements = s.placements
  routes : s'.routes = s.routes

theorem SameLedger.charged (h : SameLedger s s') (hs : Charged s) : Charged s' := by
  refine ⟨fun n => ?_, fun i j => ?_⟩
  · rw [h.cpu, h.placements, hs.cpu]
  · rw [h.slice, h.routes, hs.slice]

theorem SameLedger.firstsFree (h : SameLedger s s') : FirstsFree s' ↔ FirstsFree s := by
  unfold FirstsFree
  rw [h.placements]

theorem sameLedger_readJob (h : readJob job s = .ok s') : SameLedger s s' := by
  obtain ⟨s₁, hstored, hchecked⟩ := bind_eq_ok.mp h
  have hstore : Ensures (job.data.foldlM storeData { s with occupation := fun _ => false })
      (SameLedger s) fun _ => True := by
    refine Ensures.foldlM (fun s₂ line _ hs₂ => ?_) ⟨rfl, rfl, rfl, rfl⟩
    unfold storeData
    cases line with
    | none => exact ensures_error trivial
    | some d =>
      dsimp only
      cases d.dataPort with
      | none => exact ensures_error trivial
      | some n =>
        dsimp only
        split_ifs
        · exact ensures_error trivial
        · exact ensures_ok ⟨hs₂.cpu, hs₂.slice, hs₂.placements, hs₂.routes⟩
  have hcheck : Ensures ((List.range job.taskNum).foldlM (checkResource job) s₁)
      (SameLedger s) fun _ => True := by
    refine Ensures.foldlM (fun s₂ task _ hs₂ => ?_) (hstore.ok hstored)
    rw [checkResource]
    split_ifs
    · exact ensures_error trivial
    · exact ensures_error trivial
    · exact ensures_ok hs₂
  exact hcheck.ok hchecked

variable {fuel : ℕ} {input : JobInfo × Fin 10}

theorem handleJob_spec (h : handleJob matrix fuel s input = .ok s') :
    ∃ s₁ queue preList s₂, SameLedger s s₁ ∧ queueTasks input.1 fuel = .ok (queue, preList) ∧
      queue.foldlM (placeTask matrix input.1 preList (randomNode input.2))
        (startTasks s₁) = .ok s₂ ∧ SameLedger s₂ s' := by
  obtain ⟨s₁, hread, h⟩ := bind_eq_ok.mp h
  obtain ⟨⟨queue, preList⟩, hqueued, h⟩ := bind_eq_ok.mp h
  obtain ⟨s₂, hplaced, hfinish⟩ := bind_eq_ok.mp h
  obtain ⟨comTransDelay, -, rfl⟩ := map_eq_ok.mp hfinish
  exact ⟨s₁, queue, preList, s₂, sameLedger_readJob hread, orFail_eq_ok.mp hqueued, hplaced,
    ⟨rfl, rfl, rfl, rfl⟩⟩

theorem Charged.handleJob (hlinks : ∀ a b, matrix a b ≤ 1) (hs : Charged s)
    (h : handleJob matrix fuel s input = .ok s') : Charged s' := by
  obtain ⟨s₁, queue, preList, s₂, hread, -, hplaced, hfinish⟩ := handleJob_spec h
  have hstart : Charged (startTasks s₁) :=
    SameLedger.charged ⟨hread.cpu, hread.slice, hread.placements, hread.routes⟩ hs
  have htasks : Ensures (queue.foldlM
      (DagScheduler.placeTask matrix input.1 preList (randomNode input.2))
      (startTasks s₁)) Charged fun _ => True :=
    Ensures.foldlM (fun s₃ t _ hs₃ => ⟨fun hs₄ => hs₃.placeTask hlinks hs₄, fun _ => trivial⟩) hstart
  exact hfinish.charged (htasks.ok hplaced)

theorem firstsFree_handleJob (hlinks : ∀ a b, matrix a b ≤ 1)
    (h : handleJob matrix fuel s input = .ok s') :
    FirstsFree s' ↔ FirstsFree s ∧ (input.1.resource 0).1 = 0 := by
  obtain ⟨s₁, queue, preList, s₂, hread, hqueued, hplaced, hfinish⟩ := handleJob_spec h
  have htasks : Ensures (queue.foldlM
      (placeTask matrix input.1 preList (randomNode input.2)) (startTasks s₁))
      (fun s₃ => FirstsFree s₃ ↔ FirstsFree s ∧
        (s₃.taskStatus 0 = true → (input.1.resource 0).1 = 0)) fun _ => True := by
    refine Ensures.foldlM (fun s₃ t _ hs₃ => ?_) ?_
    · exact ⟨fun hs₄ => firstsFree_placeTask hlinks hs₄ hs₃, fun _ => trivial⟩
    · rw [and_iff_left fun hstatus => by cases hstatus]
      exact hread.firstsFree
  have hfirst : s₂.taskStatus 0 = true :=
    (taskStatus_foldlM hlinks hplaced 0).mpr (.inl (zero_mem_queueTasks hqueued))
  rw [hfinish.firstsFree, htasks.ok hplaced]
  simp [hfirst]

/-- When all jobs are completed, the ledgers are exact if and only if the first tasks ask for no
computing. -/
theorem ledgerExact_iff (topology : List (Node × Node)) (fuel : ℕ) (jobs : List (JobInfo × Fin 10))
    (h : test (readLink topology) fuel initial jobs = .ok s) :
    LedgerExact s ↔ ∀ input ∈ jobs, (input.1.resource 0).1 = 0 := by
  have hlinks := readLink_le topology
  have hcharged : Ensures (test (readLink topology) fuel initial jobs) Charged fun _ => True :=
    Ensures.foldlM (fun s₁ input _ hs₁ => ⟨fun hs₂ => hs₁.handleJob hlinks hs₂, fun _ => trivial⟩)
      ⟨fun _ => rfl, fun _ _ => rfl⟩
  have hfree : Decides (fun _ => none) FirstsFree initial
      (test (readLink topology) fuel initial jobs)
      (Meets (handleJob (readLink topology) fuel) (fun _ input => (input.1.resource 0).1 = 0)
        initial jobs) :=
    Decides.foldlM_of fun s₁ input _ =>
      decides_of_ok (fun _ _ => rfl) fun s₂ hs₂ => firstsFree_handleJob hlinks hs₂
  rw [(hcharged.ok h).exact_iff, hfree s (.inl h), meets_iff_forall h]
  exact and_iff_right fun p hp => absurd hp List.not_mem_nil

def single : JobInfo where
  taskNum := 1
  data := []
  resource _ := (10, 5)
  link _ := []

theorem ledgerExact_iff_single : ∃ s, test (readLink []) 1 initial [(single, 0)] = .ok s ∧
    (LedgerExact s ↔ ∀ input ∈ [(single, (0 : Fin 10))], (input.1.resource 0).1 = 0) :=
  ⟨_, rfl, ledgerExact_iff [] 1 [(single, 0)] rfl⟩

/-- The first task is placed on node 0, where no computing is recorded. -/
theorem first_task_not_charged : ∃ s, test (readLink []) 1 initial [(single, 0)] = .ok s ∧
    ¬ LedgerExact s := by
  refine ⟨_, rfl, fun h => ?_⟩
  have hcpu := h.cpu 0
  revert hcpu
  decide

end Exact

end DagLedger

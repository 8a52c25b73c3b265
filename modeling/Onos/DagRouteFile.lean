import Onos.DagDelays
import Onos.DagLedger

/-! The routes that the scheduler writes to its output file. Each is written port by port; for the
tasks before a task other than the first of them, the nodes between are all written with the port
whose index is the place of that task among the tasks before. -/
namespace DagRouteFile

open DagTaskQueue DagRoutes DagScheduler FallibleRun

/-- Where a route is written: for the first of the tasks before a task, for another one at the given
place, or for raw data. -/
inductive Kind where
  | first
  | other (place : ℕ)
  | data

/-- An entry of the file: the route that was computed, and the ports as they are written. -/
structure Entry where
  kind : Kind
  label : String
  start : Node
  nodesInPath : List Node
  target : Node
  ports : List String

def Entry.text (e : Entry) : String :=
  "\"" ++ e.label ++ ": " ++ "-".intercalate e.ports ++ "\""

structure Output where
  sched : Sched
  entries : List Entry

abbrev Writing := Except (Exit × List Entry)

def keeping {α : Type} (entries : List Entry) (r : Except Exit α) : Writing α :=
  r.mapError fun e => (e, entries)

def taskLabel (pre taskIndex : ℕ) : String :=
  "task" ++ toString (pre + 1) ++ "->task" ++ toString (taskIndex + 1)

def dataLabel (j task : ℕ) : String := "data" ++ toString (j + 1) ++ "->task" ++ toString task

def lastNodes (s : Sched) : List Node := (s.routes.getLast?.map Route.nodesInPath).getD []

variable (port : Node → String) (matrix : Matrix) (job : JobInfo)

/-- The route from the first of the tasks before; each node between is written with its port. -/
def writeFirst (o : Output) (taskIndex first : ℕ) : Writing Output :=
  (keeping o.entries (placeFirst matrix job o.sched taskIndex first)).map fun s =>
    { sched := s
      entries := o.entries ++ [{
        kind := .first
        label := taskLabel first taskIndex
        start := o.sched.taskNode first
        nodesInPath := lastNodes s
        target := s.taskNode taskIndex
        ports := port (s.taskNode first) :: (lastNodes s).map port ++
          [port (s.taskNode taskIndex)] }] }

def portAt (j : ℕ) : Option String := if h : j < N then some (port ⟨j, h⟩) else none

def portsBetween (j : ℕ) : List Node → Option (List String)
  | [] => some []
  | _ :: nodes => (portAt port j).bind fun p => (portsBetween j nodes).map (p :: ·)

/-- The route from another of the tasks before, which is at place `j` among them. -/
def writeOther (taskIndex : ℕ) (o : Output) (preAt : ℕ × ℕ) : Writing Output :=
  (keeping o.entries (routeFrom matrix job taskIndex o.sched preAt.1)).bind fun s =>
    match portsBetween port preAt.2 (lastNodes s) with
    | none => .error (.failure (.exception "ArrayIndexOutOfBoundsException"), o.entries)
    | some between => .ok {
        sched := s
        entries := o.entries ++ [{
          kind := .other preAt.2
          label := taskLabel preAt.1 taskIndex
          start := o.sched.taskNode preAt.1
          nodesInPath := lastNodes s
          target := s.taskNode taskIndex
          ports := port (s.taskNode preAt.1) :: between ++ [port (s.taskNode taskIndex)] }] }

variable (preList : ℕ → List ℕ) (start : Node)

def writeTask (o : Output) (taskIndex : ℕ) : Writing Output :=
  if o.sched.taskStatus taskIndex ∨ taskIndex = 0 then
    (keeping o.entries (placeTask matrix job preList start o.sched taskIndex)).map fun s =>
      { o with sched := s }
  else match preList taskIndex with
    | [] => .error (.failure (.exception "IndexOutOfBoundsException"), o.entries)
    | first :: rest =>
      ((writeFirst port matrix job o taskIndex first).bind fun o =>
        (rest.zipIdx 1).foldlM (writeOther port matrix job taskIndex) o).map fun o =>
          { o with sched := { o.sched with
              delay := Function.update o.sched.delay taskIndex o.sched.maxDelay
              taskStatus := Function.update o.sched.taskStatus taskIndex true } }

def dataNodes (index target : Node) : List Node :=
  match allPrevs (dijkstra matrix (fun _ _ => true) index).prevs target with
  | .ok nodesInPath => nodesInPath
  | .error _ => []

/-- The entry for raw data; it is not routed where it lies on the node of its task. -/
def dataEntries (s : Sched) (line : Option DataInfo) (j : ℕ) : List Entry :=
  match line with
  | none => []
  | some d => match d.dataPort with
    | none => []
    | some n =>
      let target := s.taskNode (d.task - 1)
      let nodesInPath := if n = target then [] else dataNodes matrix n target
      [{ kind := .data
         label := dataLabel j d.task
         start := n
         nodesInPath := nodesInPath
         target := target
         ports := port n :: nodesInPath.map port ++ [port target] }]

def writeData (s : Sched) (acc : Int32 × List Entry) (lineAt : Option DataInfo × ℕ) :
    Writing (Int32 × List Entry) :=
  (keeping acc.2 (routeData matrix job s acc.1 lineAt.1)).map fun comTransDelay =>
    (comTransDelay, acc.2 ++ dataEntries port matrix s lineAt.1 lineAt.2)

def writeFinish (o : Output) : Writing Output :=
  (job.data.zipIdx.foldlM (writeData port matrix job o.sched) (0, o.entries)).map
    fun (comTransDelay, entries) =>
      { sched := { o.sched with finishTimes :=
          o.sched.finishTimes ++ [comTransDelay + o.sched.delay (job.taskNum - 1)] }
        entries := entries }

def writeJob (fuel : ℕ) (o : Output) (input : JobInfo × Fin 10) : Writing Output :=
  (keeping o.entries (readJob input.1 o.sched)).bind fun s =>
    (keeping o.entries (orFail (queueTasks input.1 fuel))).bind fun (queue, preList) =>
      (queue.foldlM (writeTask port matrix input.1 preList (randomNode input.2))
        ⟨startTasks s, o.entries⟩).bind fun o => writeFinish port matrix input.1 o

def writeFile (fuel : ℕ) (jobs : List (JobInfo × Fin 10)) : Writing Output :=
  jobs.foldlM (writeJob port matrix fuel) ⟨initial, []⟩

def written (r : Writing Output) : List Entry :=
  match r with
  | .ok o => o.entries
  | .error e => e.2

def Entry.IsExact (e : Entry) : Prop :=
  e.ports = port e.start :: e.nodesInPath.map port ++ [port e.target]

def Entry.Matches (e : Entry) : Prop :=
  ∀ j, e.kind = .other j → ∀ k ∈ e.nodesInPath, portAt port j = some (port k)

section Entries

variable {port matrix job preList start} {o o' : Output} {s s' : Sched} {t : ℕ}

theorem keeping_eq_ok {α : Type} {entries : List Entry} {r : Except Exit α} {x : α} :
    keeping entries r = .ok x ↔ r = .ok x := mapError_eq_ok

theorem keeping_error {α : Type} {entries : List Entry} {r : Except Exit α}
    {e : Exit × List Entry} (h : keeping entries r = .error e) : e.2 = entries := by
  cases r with
  | error e' =>
    obtain rfl := Except.error.inj h
    rfl
  | ok x => cases h

theorem portsBetween_exact {j : ℕ} {nodes : List Node} {between : List String}
    (h : portsBetween port j nodes = some between) :
    between = nodes.map port ↔ ∀ k ∈ nodes, portAt port j = some (port k) := by
  induction nodes generalizing between with
  | nil =>
    obtain rfl := Option.some.inj h
    simp
  | cons k nodes ih =>
    obtain ⟨p, hp, h⟩ := Option.bind_eq_some_iff.mp h
    obtain ⟨rest, hrest, rfl⟩ := Option.map_eq_some_iff.mp h
    rw [List.map_cons, List.cons.injEq, ih hrest, List.forall_mem_cons, hp, Option.some_inj]

def Decided (port : Node → String) (entries : List Entry) : Prop :=
  ∀ e ∈ entries, e.IsExact port ↔ e.Matches port

theorem Decided.append {entries : List Entry} {e : Entry} (h : Decided port entries)
    (he : e.IsExact port ↔ e.Matches port) : Decided port (entries ++ [e]) := by
  intro x hx
  rcases List.mem_append.mp hx with hx | hx
  · exact h x hx
  · rw [List.mem_singleton.mp hx]
    exact he

theorem taskNode_placeFirst {first : ℕ} (h : placeFirst matrix job s t first = .ok s') :
    ∃ nextPort, s'.taskNode = Function.update s.taskNode t nextPort := by
  obtain ⟨⟨s₁, weight⟩, hroute, rfl⟩ := map_eq_ok.mp h
  have hroute := orFail_eq_ok.mp hroute
  unfold dijkstraPathPlacing at hroute
  dsimp only at hroute
  cases hnext : getMinIndex s (dijkstra matrix (room s.slice (job.resource first).2)
      (s.taskNode first)).weights (job.resource t).1 with
  | none =>
    rw [hnext] at hroute
    cases hroute
  | some nextPort =>
    rw [hnext] at hroute
    obtain ⟨nodesInPath, -, hroute⟩ := bind_eq_ok.mp hroute
    obtain ⟨slice, -, hroute⟩ := map_eq_ok.mp hroute
    cases hroute
    exact ⟨nextPort, rfl⟩

theorem taskNode_routeFrom {pre : ℕ} (h : routeFrom matrix job t s pre = .ok s') :
    s'.taskNode = s.taskNode := by
  obtain ⟨⟨s₁, weight⟩, hroute, rfl⟩ := map_eq_ok.mp h
  obtain ⟨nodesInPath, -, hroute⟩ := bind_eq_ok.mp (orFail_eq_ok.mp hroute)
  obtain ⟨slice, -, hroute⟩ := map_eq_ok.mp hroute
  cases hroute
  rfl

theorem decided_writeFirst {first : ℕ} (hne : first ≠ t) (h : Decided port o.entries) :
    Ensures (writeFirst port matrix job o t first) (fun o' => Decided port o'.entries)
      fun e => Decided port e.2 := by
  refine Ensures.map_of (fun e he => keeping_error he ▸ h) fun s hs => h.append ?_
  obtain ⟨nextPort, hnode⟩ := taskNode_placeFirst (keeping_eq_ok.mp hs)
  refine iff_of_true ?_ fun j hj => by cases hj
  rw [Entry.IsExact]
  dsimp only
  rw [hnode, Function.update_of_ne hne]

theorem decided_writeOther (preAt : ℕ × ℕ) (h : Decided port o.entries) :
    Ensures (writeOther port matrix job t o preAt) (fun o' => Decided port o'.entries)
      fun e => Decided port e.2 := by
  refine Ensures.bind_of (fun e he => keeping_error he ▸ h) fun s hs => ?_
  have hnode := taskNode_routeFrom (keeping_eq_ok.mp hs)
  cases hbetween : portsBetween port preAt.2 (lastNodes s) with
  | none => exact ensures_error h
  | some between =>
    refine ensures_ok (h.append ?_)
    have hexact := portsBetween_exact hbetween
    rw [Entry.IsExact, Entry.Matches]
    dsimp only
    rw [hnode, List.cons_append, List.cons_append, List.cons.injEq, and_iff_right rfl,
      List.append_left_inj, hexact]
    constructor
    · rintro hall j hj
      obtain rfl := Kind.other.inj hj
      exact hall
    · exact fun hall => hall preAt.2 rfl

theorem decided_writeTask (hself : t ∉ preList t) (h : Decided port o.entries) :
    Ensures (writeTask port matrix job preList start o t) (fun o' => Decided port o'.entries)
      fun e => Decided port e.2 := by
  rw [writeTask]
  split_ifs
  · exact Ensures.map_of (fun e he => keeping_error he ▸ h) fun s _ => h
  · cases hpre : preList t with
    | nil => exact ensures_error h
    | cons first rest =>
      have hne : first ≠ t := by
        rintro rfl
        exact hself (hpre ▸ List.mem_cons_self)
      refine Ensures.map (Ensures.bind (decided_writeFirst hne h) fun o₁ _ ho₁ => ?_) fun _ ho => ho
      exact Ensures.foldlM (fun o preAt _ ho => decided_writeOther preAt ho) ho₁

theorem decided_dataEntries (s : Sched) (line : Option DataInfo) (j : ℕ) :
    Decided port (dataEntries port matrix s line j) := by
  unfold dataEntries Decided
  cases line with
  | none => simp
  | some d =>
    cases hport : d.dataPort with
    | none => simp [hport]
    | some n =>
      simp only [hport, List.mem_singleton, forall_eq]
      refine iff_of_true rfl fun j hj => by cases hj

theorem decided_writeFinish (h : Decided port o.entries) :
    Ensures (writeFinish port matrix job o) (fun o' => Decided port o'.entries)
      fun e => Decided port e.2 := by
  have hdata : Ensures (job.data.zipIdx.foldlM (writeData port matrix job o.sched) (0, o.entries))
      (fun acc => Decided port acc.2) fun e => Decided port e.2 := by
    refine Ensures.foldlM (fun acc lineAt _ hacc => ?_) h
    refine Ensures.map_of (fun e he => keeping_error he ▸ hacc) fun comTransDelay _ => ?_
    intro e he
    rcases List.mem_append.mp he with he | he
    · exact hacc e he
    · exact decided_dataEntries o.sched lineAt.1 lineAt.2 e he
  exact Ensures.map_of (fun e he => hdata.error he) fun acc hacc => hdata.ok hacc

theorem decided_writeJob {fuel : ℕ} {input : JobInfo × Fin 10} (h : Decided port o.entries) :
    Ensures (writeJob port matrix fuel o input) (fun o' => Decided port o'.entries)
      fun e => Decided port e.2 := by
  refine Ensures.bind_of (fun e he => keeping_error he ▸ h) fun s _ => ?_
  refine Ensures.bind_of (fun e he => keeping_error he ▸ h) fun ⟨queue, preList⟩ hqueue => ?_
  have hself := queueTasks_irreflexive (orFail_eq_ok.mp (keeping_eq_ok.mp hqueue))
  refine Ensures.bind ?_ fun o₁ _ ho₁ => decided_writeFinish ho₁
  exact Ensures.foldlM (fun o t _ ho => decided_writeTask (hself t) ho) h

theorem decided_writeFile (fuel : ℕ) (jobs : List (JobInfo × Fin 10)) :
    Decided port (written (writeFile port matrix fuel jobs)) := by
  have hfile : Ensures (writeFile port matrix fuel jobs) (fun o => Decided port o.entries)
      fun e => Decided port e.2 :=
    Ensures.foldlM (fun o input _ ho => decided_writeJob ho) fun e he => by cases he
  cases hrun : writeFile port matrix fuel jobs with
  | ok o => exact hfile.ok hrun
  | error e => exact hfile.error hrun

/-- The file lists the ports of all routes, in the order of their nodes, if and only if the nodes
between on the routes from tasks other than the first before have the ports that are written for
them. -/
theorem isExact_iff (topology : List (Node × Node)) (port : Node → String) (fuel : ℕ)
    (jobs : List (JobInfo × Fin 10)) :
    (∀ e ∈ written (writeFile port (readLink topology) fuel jobs), e.IsExact port) ↔
      ∀ e ∈ written (writeFile port (readLink topology) fuel jobs), e.Matches port :=
  forall₂_congr fun e he => decided_writeFile fuel jobs e he

end Entries

section Routes

variable {port matrix job preList start} {o o' : Output} {s s' : Sched} {t : ℕ}

def Entry.route (e : Entry) : Option (Node × List Node × Node) :=
  match e.kind with
  | .data => none
  | _ => some (e.start, e.nodesInPath, e.target)

/-- The entries for tasks are those of the routes that were computed, in that order. -/
def IsFiled (s : Sched) (entries : List Entry) : Prop :=
  entries.filterMap (Entry.route) = s.routes.map fun r => (r.start, r.nodesInPath, r.target)

theorem IsFiled.append {entries : List Entry} {r : Route} {e : Entry} (h : IsFiled s entries)
    (hs : s'.routes = s.routes ++ [r]) (he : e.route = some (r.start, r.nodesInPath, r.target)) :
    IsFiled s' (entries ++ [e]) := by
  rw [IsFiled, hs, List.filterMap_append, h, List.map_append]
  simp [he]

theorem routes_placeFirst {first : ℕ} (h : placeFirst matrix job s t first = .ok s') :
    s'.routes = s.routes ++ [⟨s.taskNode first, lastNodes s', s'.taskNode t,
      (job.resource first).2⟩] := by
  obtain ⟨⟨s₁, weight⟩, hroute, rfl⟩ := map_eq_ok.mp h
  have hroute := orFail_eq_ok.mp hroute
  unfold dijkstraPathPlacing at hroute
  dsimp only at hroute
  cases hnext : getMinIndex s (dijkstra matrix (room s.slice (job.resource first).2)
      (s.taskNode first)).weights (job.resource t).1 with
  | none =>
    rw [hnext] at hroute
    cases hroute
  | some nextPort =>
    rw [hnext] at hroute
    obtain ⟨nodesInPath, -, hroute⟩ := bind_eq_ok.mp hroute
    obtain ⟨slice, -, hroute⟩ := map_eq_ok.mp hroute
    cases hroute
    simp [lastNodes]

theorem routes_routeFrom {pre : ℕ} (h : routeFrom matrix job t s pre = .ok s') :
    s'.routes = s.routes ++ [⟨s.taskNode pre, lastNodes s', s'.taskNode t,
      (job.resource pre).2⟩] := by
  obtain ⟨⟨s₁, weight⟩, hroute, rfl⟩ := map_eq_ok.mp h
  obtain ⟨nodesInPath, -, hroute⟩ := bind_eq_ok.mp (orFail_eq_ok.mp hroute)
  obtain ⟨slice, -, hroute⟩ := map_eq_ok.mp hroute
  cases hroute
  simp [lastNodes]

structure Refines (o o' : Output) (r : Except Exit Sched) : Prop where
  sched : r = .ok o'.sched
  filed : IsFiled o.sched o.entries → IsFiled o'.sched o'.entries

theorem refines_writeFirst {first : ℕ} (h : writeFirst port matrix job o t first = .ok o') :
    Refines o o' (placeFirst matrix job o.sched t first) := by
  obtain ⟨s, hs, rfl⟩ := map_eq_ok.mp h
  have hs := keeping_eq_ok.mp hs
  exact ⟨hs, fun hfiled => hfiled.append (routes_placeFirst hs) rfl⟩

theorem refines_writeOther {preAt : ℕ × ℕ} (h : writeOther port matrix job t o preAt = .ok o') :
    Refines o o' (routeFrom matrix job t o.sched preAt.1) := by
  obtain ⟨s, hs, h⟩ := bind_eq_ok.mp h
  have hs := keeping_eq_ok.mp hs
  cases hbetween : portsBetween port preAt.2 (lastNodes s) with
  | none =>
    rw [hbetween] at h
    cases h
  | some between =>
    rw [hbetween] at h
    obtain rfl := Except.ok.inj h
    exact ⟨hs, fun hfiled => hfiled.append (routes_routeFrom hs) rfl⟩

theorem refines_foldlM {ι κ : Type} {write : Output → ι → Writing Output}
    {step : Sched → κ → Except Exit Sched} {key : ι → κ}
    (hstep : ∀ o x o', write o x = .ok o' → Refines o o' (step o.sched (key x))) {xs : List ι}
    (h : xs.foldlM write o = .ok o') : Refines o o' ((xs.map key).foldlM step o.sched) := by
  induction xs generalizing o with
  | nil =>
    obtain rfl := Except.ok.inj h
    exact ⟨rfl, fun hfiled => hfiled⟩
  | cons x xs ih =>
    rw [List.foldlM_cons] at h
    obtain ⟨o₁, hx, hrest⟩ := bind_eq_ok.mp h
    have hfirst := hstep o x o₁ hx
    have hlater := ih hrest
    refine ⟨?_, fun hfiled => hlater.filed (hfirst.filed hfiled)⟩
    rw [List.map_cons, List.foldlM_cons, hfirst.sched]
    exact hlater.sched

theorem refines_writeTask (h : writeTask port matrix job preList start o t = .ok o') :
    Refines o o' (placeTask matrix job preList start o.sched t) := by
  rw [writeTask] at h
  split_ifs at h with hskip
  · obtain ⟨s, hs, rfl⟩ := map_eq_ok.mp h
    have hs := keeping_eq_ok.mp hs
    refine ⟨hs, fun hfiled => ?_⟩
    have hroutes : s.routes = o.sched.routes := by
      rw [placeTask] at hs
      split_ifs at hs with hstatus hzero
      · rw [← Except.ok.inj hs]
      · rw [← Except.ok.inj hs]
      · exact absurd hskip (not_or.mpr ⟨hstatus, hzero⟩)
    rw [IsFiled, hroutes]
    exact hfiled
  · obtain ⟨hstatus, hzero⟩ := not_or.mp hskip
    rw [placeTask, if_neg hstatus, if_neg hzero]
    cases hpre : preList t with
    | nil =>
      rw [hpre] at h
      cases h
    | cons first rest =>
      rw [hpre] at h
      obtain ⟨o₂, hroutes, rfl⟩ := map_eq_ok.mp h
      obtain ⟨o₁, hfirst, hrest⟩ := bind_eq_ok.mp hroutes
      have hplaced := refines_writeFirst hfirst
      have hothers : Refines o₁ o₂
          (((rest.zipIdx 1).map Prod.fst).foldlM (routeFrom matrix job t) o₁.sched) :=
        refines_foldlM (fun o preAt o' h => refines_writeOther h) hrest
      have hkeys : (rest.zipIdx 1).map Prod.fst = rest := List.zipIdx_map_fst 1 rest
      rw [hkeys] at hothers
      refine ⟨?_, fun hfiled => hothers.filed (hplaced.filed hfiled)⟩
      dsimp only
      rw [hplaced.sched, Except.bind, hothers.sched]
      rfl

theorem refines_writeFinish (h : writeFinish port matrix job o = .ok o') :
    finishJob matrix job o.sched = .ok o'.sched ∧ (IsFiled o.sched o.entries →
      IsFiled o'.sched o'.entries) := by
  obtain ⟨⟨comTransDelay, entries⟩, hdata, rfl⟩ := map_eq_ok.mp h
  have hfold : ∀ (lines : List (Option DataInfo × ℕ)) (acc acc' : Int32 × List Entry),
      lines.foldlM (writeData port matrix job o.sched) acc = .ok acc' →
      (lines.map Prod.fst).foldlM (routeData matrix job o.sched) acc.1 = .ok acc'.1 ∧
        acc'.2.filterMap Entry.route = acc.2.filterMap Entry.route := by
    intro lines
    induction lines with
    | nil =>
      intro acc acc' hacc
      obtain rfl := Except.ok.inj hacc
      exact ⟨rfl, rfl⟩
    | cons lineAt lines ih =>
      intro acc acc' hacc
      rw [List.foldlM_cons] at hacc
      obtain ⟨acc₁, hstep, hrest⟩ := bind_eq_ok.mp hacc
      obtain ⟨delay, hdelay, rfl⟩ := map_eq_ok.mp hstep
      obtain ⟨hrun, hsame⟩ := ih _ acc' hrest
      refine ⟨?_, hsame.trans ?_⟩
      · rw [List.map_cons, List.foldlM_cons, keeping_eq_ok.mp hdelay]
        exact hrun
      · rw [List.filterMap_append]
        have hdata : (dataEntries port matrix o.sched lineAt.1 lineAt.2).filterMap Entry.route =
            [] := by
          unfold dataEntries
          cases lineAt.1 with
          | none => rfl
          | some d => cases hport : d.dataPort <;> simp [hport, Entry.route]
        rw [hdata, List.append_nil]
  obtain ⟨hrun, hsame⟩ := hfold _ _ _ hdata
  rw [List.zipIdx_map_fst] at hrun
  refine ⟨?_, fun hfiled => hsame.trans hfiled⟩
  rw [finishJob, hrun]
  rfl

theorem refines_writeJob {fuel : ℕ} {input : JobInfo × Fin 10}
    (h : writeJob port matrix fuel o input = .ok o') :
    Refines o o' (handleJob matrix fuel o.sched input) := by
  obtain ⟨s, hread, h⟩ := bind_eq_ok.mp h
  obtain ⟨⟨queue, preList⟩, hqueue, h⟩ := bind_eq_ok.mp h
  obtain ⟨o₁, htasks, hfinish⟩ := bind_eq_ok.mp h
  have hread := keeping_eq_ok.mp hread
  have hplaced : Refines ⟨startTasks s, o.entries⟩ o₁ ((queue.map id).foldlM
      (placeTask matrix input.1 preList (randomNode input.2)) (startTasks s)) :=
    refines_foldlM (fun o t o' h => refines_writeTask h) htasks
  obtain ⟨hfinished, hfiled⟩ := refines_writeFinish hfinish
  refine ⟨?_, fun hstart => hfiled (hplaced.filed ?_)⟩
  · have hrun := hplaced.sched
    rw [List.map_id] at hrun
    rw [handleJob, hread, keeping_eq_ok.mp hqueue]
    dsimp only [Except.bind]
    rw [hrun]
    exact hfinished
  · have hroutes : (startTasks s).routes = o.sched.routes :=
      (DagLedger.sameLedger_readJob hread).routes
    rw [IsFiled, hroutes]
    exact hstart

end Routes

section Examples

open DagDelays (afterFirst allRoom placeTask_afterFirst readJob_initial)

def star : Matrix := readLink [(0, 1), (0, 2)]

def join : JobInfo where
  taskNum := 3
  data := []
  resource _ := (1, 1)
  link t := if t = 0 then [2, 3] else if t = 1 then [3] else []

def starPort (n : Node) : String := toString (10000 + n.val)

def centreWeights (y : Node) : ℕ := if y.val = 1 ∨ y.val = 2 then 1 else MAX_VALUE

def centrePrevs (y : Node) : Option Node := if y.val = 0 then none else some 0

def leafPrevs (y : Node) : Option Node :=
  if y.val = 1 then none else if y.val = 0 then some 1 else some 0

theorem dijkstra_centre : (dijkstra star allRoom 0).weights = centreWeights ∧
    (dijkstra star allRoom 0).prevs = centrePrevs := by
  have hvisited : ∀ p y, 0 < star p y → y = 0 ∨ y = 1 ∨ y = 2 := by decide
  have hfirst : indexOfMin (relax star allRoom (DagRoutes.start 0) 0) = 1 := by decide +kernel
  have hsecond : indexOfMin
      (relax star allRoom (relax star allRoom (DagRoutes.start 0) 0) 1) = 2 := by decide +kernel
  obtain ⟨hweights, hprevs⟩ := dijkstra_three_rounds hvisited hfirst hsecond
  rw [hweights, hprevs]
  exact ⟨funext (by decide), funext (by decide)⟩

theorem dijkstra_leaf : (dijkstra star allRoom 1).prevs = leafPrevs := by
  have hvisited : ∀ p y, 0 < star p y → y = 1 ∨ y = 0 ∨ y = 2 := by decide
  have hfirst : indexOfMin (relax star allRoom (DagRoutes.start 1) 1) = 0 := by decide +kernel
  have hsecond : indexOfMin
      (relax star allRoom (relax star allRoom (DagRoutes.start 1) 1) 0) = 2 := by decide +kernel
  rw [(dijkstra_three_rounds hvisited hfirst hsecond).2]
  exact funext (by decide)

def placedAt (s : Sched) (t : ℕ) (nextPort : Node) : Sched :=
  { s with
    occupation := Function.update s.occupation nextPort true
    taskNode := Function.update s.taskNode t nextPort
    cpu := Function.update s.cpu nextPort (s.cpu nextPort + 1)
    slice := reserve s.slice 0 nextPort 1
    placements := s.placements ++ [⟨nextPort, t, 1⟩]
    routes := s.routes ++ [⟨0, [], nextPort, 1⟩]
    maxDelay := s.delay 0 + Int32.ofNat (centreWeights nextPort) * TRANSDELAY + COMDELAY }

theorem placeFirst_star {s : Sched} {t : ℕ} {nextPort : Node} (hnode : s.taskNode 0 = 0)
    (hroom : room s.slice 1 = allRoom) (hne : nextPort.val ≠ 0)
    (hnext : getMinIndex s centreWeights 1 = some nextPort) :
    placeFirst star join s t 0 = .ok (placedAt s t nextPort) := by
  obtain ⟨hweights, hsearch⟩ := dijkstra_centre
  have hlast : centrePrevs nextPort = some 0 := if_neg hne
  have hzero : centrePrevs 0 = none := rfl
  have hprevs : allPrevs centrePrevs nextPort = .ok [] := by
    rw [allPrevs, hlast]
    dsimp only
    rw [DagRoutes.follow, hzero]
    rfl
  have hslice : reserveAll centrePrevs 1 (N + 1) nextPort s.slice =
      .ok (reserve s.slice 0 nextPort 1) := by
    have hdone : ∀ slice, reserveAll centrePrevs 1 (39 + 1) 0 slice = .ok slice := by
      intro slice
      rw [reserveAll, hzero]
    rw [reserveAll, hlast]
    exact hdone _
  rw [placeFirst_eq (fun _ => rfl) (by rw [hroom, hnode, hweights]) (by rw [hroom, hnode, hsearch])
    hnext hprevs hslice, hnode]
  rfl

theorem room_of_le {slice : Matrix} (h : ∀ i j, slice i j ≤ 2) : room slice 1 = allRoom := by
  funext i j
  have hle := h i j
  have hmax : MAX_SLICE = 100 := rfl
  exact decide_eq_true (by omega)

def secondPlaced : Sched :=
  { placedAt afterFirst 1 1 with
    delay := Function.update (placedAt afterFirst 1 1).delay 1 (placedAt afterFirst 1 1).maxDelay
    taskStatus := Function.update (placedAt afterFirst 1 1).taskStatus 1 true }

theorem routeFrom_second : ∃ slice maxDelay,
    routeFrom star join 2 (placedAt secondPlaced 2 2) 1 = .ok { placedAt secondPlaced 2 2 with
      slice := slice
      routes := (placedAt secondPlaced 2 2).routes ++ [⟨1, [0], 2, 1⟩]
      maxDelay := maxDelay } := by
  obtain ⟨slice, hslice⟩ : ∃ slice, reserveAll leafPrevs 1 (N + 1)
      ((placedAt secondPlaced 2 2).taskNode 2) (placedAt secondPlaced 2 2).slice = .ok slice :=
    ⟨_, rfl⟩
  have hsearch : (dijkstra star (room (placedAt secondPlaced 2 2).slice 1)
      ((placedAt secondPlaced 2 2).taskNode 1)).prevs = leafPrevs := by
    rw [room_of_le (by decide)]
    exact dijkstra_leaf
  have hprevs : allPrevs leafPrevs ((placedAt secondPlaced 2 2).taskNode 2) = .ok [0] := rfl
  obtain ⟨maxDelay, hroute⟩ := routeFrom_eq (fun _ => rfl : ∀ t, join.resource t = (1, 1)) rfl
    hsearch hprevs hslice
  exact ⟨slice, maxDelay, hroute⟩

theorem writeTask_second {preList : ℕ → List ℕ} (hpre : preList 1 = [0]) :
    ∃ entries, writeTask starPort star join preList 0 ⟨afterFirst, []⟩ 1 =
      .ok ⟨secondPlaced, entries⟩ := by
  have hplaced : placeFirst star join afterFirst 1 0 = .ok (placedAt afterFirst 1 1) :=
    placeFirst_star rfl (room_of_le fun _ _ => Nat.zero_le 2) (by decide) (by decide)
  have hnew : ¬(afterFirst.taskStatus 1 = true ∨ 1 = 0) := by decide
  rw [writeTask, if_neg hnew, hpre]
  dsimp only
  rw [writeFirst, hplaced]
  exact ⟨_, rfl⟩

def wrongEntry : Entry where
  kind := .other 1
  label := taskLabel 1 2
  start := 1
  nodesInPath := [0]
  target := 2
  ports := [starPort 1, starPort 1, starPort 2]

theorem writeOther_second (entries : List Entry) : ∃ s, writeOther starPort star join 2
    ⟨placedAt secondPlaced 2 2, entries⟩ (1, 1) = .ok ⟨s, entries ++ [wrongEntry]⟩ := by
  obtain ⟨slice, maxDelay, hroute⟩ := routeFrom_second
  exact ⟨_, bind_eq_ok.mpr ⟨_, keeping_eq_ok.mpr hroute, rfl⟩⟩

theorem writeTask_last {preList : ℕ → List ℕ} (hpre : preList 2 = [0, 1])
    (entries : List Entry) : ∃ o, writeTask starPort star join preList 0 ⟨secondPlaced, entries⟩ 2 =
      .ok o ∧ wrongEntry ∈ o.entries ∧ o.sched.taskStatus 2 = true := by
  have hplaced : placeFirst star join secondPlaced 2 0 = .ok (placedAt secondPlaced 2 2) :=
    placeFirst_star rfl (room_of_le (by decide)) (by decide) (by decide)
  obtain ⟨entry, hfirst⟩ : ∃ entry, writeFirst starPort star join ⟨secondPlaced, entries⟩ 2 0 =
      .ok ⟨placedAt secondPlaced 2 2, entries ++ [entry]⟩ := by
    rw [writeFirst, hplaced]
    exact ⟨_, rfl⟩
  obtain ⟨s, hother⟩ := writeOther_second (entries ++ [entry])
  have hplace : [1].zipIdx 1 = [(1, 1)] := rfl
  have hnew : ¬(secondPlaced.taskStatus 2 = true ∨ 2 = 0) := by decide
  rw [writeTask, if_neg hnew, hpre]
  dsimp only
  rw [hfirst, hplace, Except.bind, List.foldlM_cons, hother]
  refine ⟨_, rfl, ?_, ?_⟩
  · exact List.mem_append_right _ List.mem_cons_self
  · simp

/-- The way from node 1 to node 2 leads over node 0, but it is the port of node 1 that is written
for it, as the task there is at place 1 among those before. -/
theorem wrong_port_written : ∃ e ∈ written (writeFile starPort star 4 [(join, 0)]),
    e.label = "task2->task3" ∧ e.nodesInPath = [0] ∧ e.ports = ["10001", "10001", "10002"] ∧
      ¬e.IsExact starPort := by
  obtain ⟨preList, hqueue, hpre₁, hpre₂⟩ : ∃ preList,
      queueTasks join 4 = .ok ([0, 1, 2, 2], preList) ∧ preList 1 = [0] ∧ preList 2 = [0, 1] :=
    ⟨_, rfl, rfl, rfl⟩
  obtain ⟨entries, hsecond⟩ := writeTask_second hpre₁
  obtain ⟨o, hlast, hmem, hstatus⟩ := writeTask_last hpre₂ entries
  -- the last task has been placed when it comes from the queue again
  have hagain : writeTask starPort star join preList 0 o 2 = .ok o := by
    rw [writeTask, if_pos (.inl hstatus), placeTask, if_pos hstatus]
    rfl
  have hfirst : writeTask starPort star join preList 0 ⟨startTasks initial, []⟩ 0 =
      .ok ⟨afterFirst, []⟩ := by
    rw [writeTask, if_pos (.inr rfl), placeTask_afterFirst fun _ => rfl]
    rfl
  have hfold : [0, 1, 2, 2].foldlM (writeTask starPort star join preList 0)
      ⟨startTasks initial, []⟩ = .ok o := by
    rw [List.foldlM_cons, hfirst]
    refine bind_eq_ok.mpr ⟨_, rfl, ?_⟩
    rw [List.foldlM_cons, hsecond]
    refine bind_eq_ok.mpr ⟨_, rfl, ?_⟩
    rw [List.foldlM_cons, hlast]
    refine bind_eq_ok.mpr ⟨_, rfl, ?_⟩
    rw [List.foldlM_cons, hagain]
    exact bind_eq_ok.mpr ⟨_, rfl, rfl⟩
  have hnode : randomNode 0 = 0 := rfl
  have hjob : writeJob starPort star 4 ⟨initial, []⟩ (join, 0) = .ok { o with sched := { o.sched with
      finishTimes := o.sched.finishTimes ++ [0 + o.sched.delay 2] } } := by
    rw [writeJob]
    dsimp only
    rw [readJob_initial (fun _ => rfl) rfl, hqueue, hnode]
    exact bind_eq_ok.mpr ⟨_, rfl, bind_eq_ok.mpr ⟨_, rfl, bind_eq_ok.mpr ⟨o, hfold, rfl⟩⟩⟩
  have hfile : writeFile starPort star 4 [(join, 0)] = .ok { o with sched := { o.sched with
      finishTimes := o.sched.finishTimes ++ [0 + o.sched.delay 2] } } := by
    rw [writeFile, List.foldlM_cons, hjob]
    rfl
  refine ⟨wrongEntry, ?_, rfl, rfl, by decide, ?_⟩
  · rw [hfile]
    exact hmem
  · intro hexact
    have hports : wrongEntry.ports = [starPort 1, starPort 0, starPort 2] := hexact
    revert hports
    decide

def pair : JobInfo := ⟨2, [], fun _ => (1, 1), fun t => if t = 0 then [2] else []⟩

end Examples

end DagRouteFile

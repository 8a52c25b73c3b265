import Mathlib.Data.List.Perm.Subperm
import Mathlib.Data.List.Range
import Mathlib.Data.Nat.Find
import Mathlib.Algebra.GroupWithZero.Nat
import Onos.Lib.FallibleRun

/-! The order in which the tasks of a job are queued. A task is queued once for each way that leads
to it from the first task; only the first time counts. -/
namespace DagTaskQueue

open FallibleRun

def N : ℕ := 40

instance : NeZero N := ⟨by decide⟩

abbrev Node := Fin N

/-- Raw data: the node it lies on, if the port is known, the number of the task it is for, and the
storage it takes. -/
structure DataInfo where
  dataPort : Option Node
  task : ℕ
  amount : ℕ

/-- What is read of a job: the demands for computing and transfer of each task, and the numbers of
the tasks that follow it. Tasks are counted from zero, their numbers from one. -/
structure JobInfo where
  taskNum : ℕ
  data : List (Option DataInfo)
  resource : ℕ → ℕ × ℕ
  link : ℕ → List ℕ

inductive Failure where
  | exception (name : String)
  | endless
  deriving DecidableEq

structure Queues where
  queue : List ℕ
  queueTemp : List ℕ
  preList : ℕ → List ℕ

def offer (taskNum task : ℕ) (q : Queues) (number : ℕ) : Except Failure Queues :=
  if number = 0 ∨ taskNum < number then .error (.exception "ArrayIndexOutOfBoundsException")
  else .ok {
    queue := q.queue ++ [number - 1], queueTemp := q.queueTemp ++ [number - 1],
    preList := Function.update q.preList (number - 1) (q.preList (number - 1) ++ [task]) }

def queueUp (job : JobInfo) : ℕ → Queues → ℕ → Except Failure Queues
  | 0, _, _ => .error .endless
  | fuel + 1, q, task =>
    ((job.link task).foldlM (offer job.taskNum task) q).bind fun q => match q.queueTemp with
      | [] => .ok q
      | next :: queueTemp => queueUp job fuel { q with queueTemp := queueTemp } next

/-- The queue, and for each task but the first the tasks before it, each once. -/
def queueTasks (job : JobInfo) (fuel : ℕ) : Except Failure (List ℕ × (ℕ → List ℕ)) :=
  if job.taskNum = 0 then .error (.exception "ArrayIndexOutOfBoundsException")
  else (queueUp job fuel ⟨[0], [], fun _ => []⟩ 0).map fun q =>
    (q.queue, fun j => if j = 0 then [] else (q.preList j).eraseDups)

variable {job : JobInfo} {p t : ℕ}

def Follows (job : JobInfo) (p t : ℕ) : Prop := p < job.taskNum ∧ t + 1 ∈ job.link p

instance : Decidable (Follows job p t) := inferInstanceAs (Decidable (_ ∧ _))

structure TaskGraph (job : JobInfo) : Prop where
  pos : 0 < job.taskNum
  inRange : ∀ p < job.taskNum, ∀ number ∈ job.link p, 0 < number ∧ number ≤ job.taskNum
  acyclic : ∀ t, ¬ Relation.TransGen (Follows job) t t
  reached : ∀ t < job.taskNum, Relation.ReflTransGen (Follows job) 0 t

structure AcyclicTasks (job : JobInfo) : Prop where
  pos : 0 < job.taskNum
  inRange : ∀ p < job.taskNum, ∀ number ∈ job.link p, 0 < number ∧ number ≤ job.taskNum
  acyclic : ∀ t, ¬ Relation.TransGen (Follows job) t t

theorem TaskGraph.acyclicTasks (h : TaskGraph job) : AcyclicTasks job :=
  ⟨h.pos, h.inRange, h.acyclic⟩

def IsReached (job : JobInfo) (t : ℕ) : Prop := Relation.ReflTransGen (Follows job) 0 t

def successors (job : JobInfo) (task : ℕ) : List ℕ := (job.link task).map fun number => number - 1

/-- The tasks at the end of all ways of `k` links from the first one, in the order of the links. -/
def level (job : JobInfo) : ℕ → List ℕ
  | 0 => [0]
  | k + 1 => (level job k).flatMap (successors job)

def Before (l : List ℕ) (p t : ℕ) : Prop := ∀ pre post, l = pre ++ t :: post → p ∈ pre

/-- Some way to `p` is shorter than all ways to `t`, or comes before those of its length. -/
def Precedes (job : JobInfo) (p t : ℕ) : Prop :=
  ∃ k, p ∈ level job k ∧ ∀ j ≤ k, Before (level job j) p t

section Levels

section

variable (h : AcyclicTasks job)

include h

theorem AcyclicTasks.mem_successors (hp : p < job.taskNum) :
    t ∈ successors job p ↔ Follows job p t := by
  rw [successors, List.mem_map]
  constructor
  · rintro ⟨number, hnumber, rfl⟩
    have hpos := (h.inRange p hp number hnumber).1
    refine ⟨hp, ?_⟩
    rwa [Nat.sub_add_cancel hpos]
  · intro hfollows
    exact ⟨t + 1, hfollows.2, Nat.add_sub_cancel t 1⟩

theorem AcyclicTasks.lt_of_follows (hfollows : Follows job p t) :
    t < job.taskNum := (h.inRange p hfollows.1 _ hfollows.2).2

theorem AcyclicTasks.lt_of_level {k : ℕ} (ht : t ∈ level job k) : t < job.taskNum := by
  induction k generalizing t with
  | zero =>
    obtain rfl := List.mem_singleton.mp ht
    exact h.pos
  | succ k ih =>
    obtain ⟨p, hp, ht⟩ := List.mem_flatMap.mp ht
    exact h.lt_of_follows ((h.mem_successors (ih hp)).mp ht)

theorem AcyclicTasks.exists_level (ht : IsReached job t) : ∃ k, t ∈ level job k := by
  induction ht with
  | refl => exact ⟨0, List.mem_singleton_self 0⟩
  | tail _ hfollows ih =>
    obtain ⟨k, hk⟩ := ih
    exact ⟨k + 1, List.mem_flatMap.mpr ⟨_, hk, (h.mem_successors hfollows.1).mpr hfollows⟩⟩

theorem AcyclicTasks.reached_of_level {k : ℕ} (ht : t ∈ level job k) : IsReached job t := by
  induction k generalizing t with
  | zero =>
    obtain rfl := List.mem_singleton.mp ht
    exact .refl
  | succ k ih =>
    obtain ⟨p, hp, ht⟩ := List.mem_flatMap.mp ht
    exact (ih hp).tail ((h.mem_successors (h.lt_of_level hp)).mp ht)

end

theorem acyclic_of_lt (h : ∀ p t, Follows job p t → p < t) (t : ℕ) :
    ¬ Relation.TransGen (Follows job) t t := by
  have hlt : ∀ a b, Relation.TransGen (Follows job) a b → a < b := by
    intro a b hab
    induction hab with
    | single hfollows => exact h _ _ hfollows
    | tail _ hfollows ih => exact ih.trans (h _ _ hfollows)
  exact fun ht => lt_irrefl t (hlt t t ht)

theorem AcyclicTasks.exists_way (h : AcyclicTasks job) {k : ℕ} (ht : t ∈ level job k) :
    ∃ way, way.length = k ∧ (t :: way).IsChain (fun a b => Follows job b a) ∧
      ∀ x ∈ t :: way, x < job.taskNum := by
  induction k generalizing t with
  | zero =>
    refine ⟨[], rfl, List.isChain_singleton t, fun x hx => ?_⟩
    rw [List.mem_singleton.mp hx]
    exact h.lt_of_level ht
  | succ k ih =>
    have hlt := h.lt_of_level ht
    obtain ⟨p, hp, ht⟩ := List.mem_flatMap.mp ht
    obtain ⟨way, hlen, hchain, hway⟩ := ih hp
    have hfollows := (h.mem_successors (h.lt_of_level hp)).mp ht
    refine ⟨p :: way, by rw [List.length_cons, hlen], List.isChain_cons_cons.mpr ⟨hfollows, hchain⟩,
      fun x hx => ?_⟩
    rcases List.mem_cons.mp hx with rfl | hx
    · exact hlt
    · exact hway x hx

theorem AcyclicTasks.lt_of_mem_level (h : AcyclicTasks job) {k : ℕ} (ht : t ∈ level job k) :
    k < job.taskNum := by
  obtain ⟨way, hlen, hchain, hway⟩ := h.exists_way ht
  have htrans : (t :: way).IsChain (fun a b => Relation.TransGen (Follows job) b a) :=
    hchain.imp fun a b hab => .single hab
  have hpairwise : (t :: way).Pairwise (fun a b => Relation.TransGen (Follows job) b a) := by
    have : IsTrans ℕ (fun a b => Relation.TransGen (Follows job) b a) :=
      ⟨fun a b c hab hbc => hbc.trans hab⟩
    exact List.isChain_iff_pairwise.mp htrans
  have hnodup : (t :: way).Nodup := hpairwise.imp fun hab => by
    rintro rfl
    exact h.acyclic _ hab
  have hsub : t :: way ⊆ List.range job.taskNum := fun x hx => List.mem_range.mpr (hway x hx)
  have hle := (List.subperm_of_subset hnodup hsub).length_le
  rwa [List.length_cons, hlen, List.length_range] at hle

theorem AcyclicTasks.level_eq_nil (h : AcyclicTasks job) : level job job.taskNum = [] := by
  by_contra hne
  obtain ⟨t, ht⟩ := List.exists_mem_of_ne_nil _ hne
  exact lt_irrefl _ (h.lt_of_mem_level ht)

end Levels

section Queueing

theorem offer_all (h : AcyclicTasks job) (hp : p < job.taskNum) (q : Queues) :
    ∃ preList, (job.link p).foldlM (offer job.taskNum p) q =
        .ok ⟨q.queue ++ successors job p, q.queueTemp ++ successors job p, preList⟩ ∧
      ∀ x y, y ∈ preList x ↔ y ∈ q.preList x ∨ y = p ∧ x ∈ successors job p := by
  have hrange := h.inRange p hp
  rw [successors]
  generalize job.link p = numbers at hrange
  induction numbers generalizing q with
  | nil => exact ⟨q.preList, by simp; rfl, by simp⟩
  | cons number numbers ih =>
    rw [List.forall_mem_cons] at hrange
    obtain ⟨preList, hok, hmem⟩ := ih ⟨q.queue ++ [number - 1], q.queueTemp ++ [number - 1],
      Function.update q.preList (number - 1) (q.preList (number - 1) ++ [p])⟩ hrange.2
    refine ⟨preList, ?_, fun x y => ?_⟩
    · have hin : ¬ (number = 0 ∨ job.taskNum < number) := by omega
      rw [List.foldlM_cons, offer, if_neg hin]
      change List.foldlM _ _ numbers = _
      simpa using hok
    · rw [hmem, List.map_cons, List.mem_cons]
      by_cases hx : x = number - 1
      · subst hx
        simp only [Function.update_self, List.mem_append, List.mem_singleton, true_or, and_true]
        tauto
      · simp [hx]

def drain (job : JobInfo) (fuel : ℕ) (queue : List ℕ) (preList : ℕ → List ℕ) :
    List ℕ → Except Failure Queues
  | [] => .ok ⟨queue, [], preList⟩
  | next :: queueTemp => queueUp job fuel ⟨queue, queueTemp, preList⟩ next

theorem queueUp_eq_drain (h : AcyclicTasks job) (hp : p < job.taskNum) (q : Queues) :
    ∃ preList, (∀ fuel, queueUp job (fuel + 1) q p =
        drain job fuel (q.queue ++ successors job p) preList (q.queueTemp ++ successors job p)) ∧
      ∀ x y, y ∈ preList x ↔ y ∈ q.preList x ∨ y = p ∧ x ∈ successors job p := by
  obtain ⟨preList, hok, hmem⟩ := offer_all h hp q
  refine ⟨preList, fun fuel => ?_, hmem⟩
  rw [queueUp, hok]
  dsimp only [Except.bind]
  cases q.queueTemp ++ successors job p <;> rfl

theorem drain_append (h : AcyclicTasks job) {tasks : List ℕ} (htasks : ∀ x ∈ tasks, x < job.taskNum)
    (queue rest : List ℕ) (preList : ℕ → List ℕ) :
    ∃ preList', (∀ fuel, drain job (tasks.length + fuel) queue preList (tasks ++ rest) =
        drain job fuel (queue ++ tasks.flatMap (successors job)) preList'
          (rest ++ tasks.flatMap (successors job))) ∧
      ∀ x y, y ∈ preList' x ↔ y ∈ preList x ∨ y ∈ tasks ∧ x ∈ successors job y := by
  induction tasks generalizing queue rest preList with
  | nil => exact ⟨preList, by simp, by simp⟩
  | cons task tasks ih =>
    rw [List.forall_mem_cons] at htasks
    obtain ⟨preList₁, hstep, hmem₁⟩ :=
      queueUp_eq_drain h htasks.1 ⟨queue, tasks ++ rest, preList⟩
    obtain ⟨preList₂, hrest, hmem₂⟩ :=
      ih htasks.2 (queue ++ successors job task) (rest ++ successors job task) preList₁
    refine ⟨preList₂, fun fuel => ?_, fun x y => ?_⟩
    · have hlen : (task :: tasks).length + fuel = tasks.length + fuel + 1 := by
        rw [List.length_cons]
        omega
      rw [hlen, List.cons_append, drain, hstep]
      simpa using hrest fuel
    · rw [hmem₂, hmem₁, List.mem_cons]
      constructor
      · rintro ((hy | ⟨rfl, hx⟩) | ⟨hy, hx⟩)
        · exact .inl hy
        · exact .inr ⟨.inl rfl, hx⟩
        · exact .inr ⟨.inr hy, hx⟩
      · rintro (hy | ⟨rfl | hy, hx⟩)
        · exact .inl (.inl hy)
        · exact .inl (.inr ⟨rfl, hx⟩)
        · exact .inr ⟨hy, hx⟩

def levels (job : JobInfo) (k : ℕ) : List ℕ := (List.range k).flatMap (level job)

theorem levels_succ (k : ℕ) : levels job (k + 1) = levels job k ++ level job k := by
  rw [levels, List.range_succ, List.flatMap_append, List.flatMap_singleton, levels]

theorem mem_levels {k m : ℕ} (ht : t ∈ level job k) (hk : k < m) : t ∈ levels job m :=
  List.mem_flatMap.mpr ⟨k, List.mem_range.mpr hk, ht⟩

theorem AcyclicTasks.mem_levels_of_reached (h : AcyclicTasks job) (ht : IsReached job t) :
    t ∈ levels job job.taskNum := by
  obtain ⟨k, hk⟩ := h.exists_level ht
  exact mem_levels hk (h.lt_of_mem_level hk)

theorem drain_levels (h : AcyclicTasks job) (k : ℕ) :
    ∃ preList, (∀ fuel, drain job ((levels job k).length + fuel) [0] (fun _ => []) [0] =
        drain job fuel (levels job (k + 1)) preList (level job k)) ∧
      ∀ x y, y ∈ preList x ↔ y ∈ levels job k ∧ x ∈ successors job y := by
  induction k with
  | zero => exact ⟨fun _ => [], fun fuel => by simp [levels, level], by simp [levels]⟩
  | succ k ih =>
    obtain ⟨preList, hok, hmem⟩ := ih
    obtain ⟨preList', hstep, hmem'⟩ := drain_append h (fun x hx => h.lt_of_level hx)
      (levels job (k + 1)) [] preList
    refine ⟨preList', fun fuel => ?_, fun x y => ?_⟩
    · rw [levels_succ, List.length_append, Nat.add_assoc, hok]
      rw [List.append_nil] at hstep
      rw [hstep, List.nil_append, levels_succ (k + 1)]
      rfl
    · rw [hmem', hmem, levels_succ, List.mem_append, or_and_right]

theorem queueTasks_spec (h : AcyclicTasks job) :
    ∃ preList, (∀ fuel, queueTasks job ((levels job job.taskNum).length + 1 + fuel) =
        .ok (levels job job.taskNum, preList)) ∧
      ∀ x, x ≠ 0 → ∀ y, y ∈ preList x ↔ IsReached job y ∧ Follows job y x := by
  obtain ⟨preList, hok, hmem⟩ := drain_levels h job.taskNum
  refine ⟨fun j => if j = 0 then [] else (preList j).eraseDups, fun fuel => ?_, fun x hx y => ?_⟩
  · have hstart := hok (1 + fuel)
    rw [levels_succ, h.level_eq_nil, List.append_nil, drain, drain] at hstart
    rw [queueTasks, if_neg (by have := h.pos; omega), Nat.add_assoc, hstart]
    rfl
  · dsimp only
    rw [if_neg hx, List.mem_eraseDups, hmem]
    constructor
    · rintro ⟨hy, hxy⟩
      obtain ⟨k, -, hy⟩ := List.mem_flatMap.mp hy
      exact ⟨h.reached_of_level hy, (h.mem_successors (h.lt_of_level hy)).mp hxy⟩
    · rintro ⟨hy, hxy⟩
      exact ⟨h.mem_levels_of_reached hy, (h.mem_successors hxy.1).mpr hxy⟩

/-- The queue is complete, and so are the lists of the tasks before each task. -/
theorem queueTasks_complete (h : AcyclicTasks job) : ∃ queue preList,
    (∃ rounds, ∀ fuel, rounds ≤ fuel → queueTasks job fuel = .ok (queue, preList)) ∧
      (∀ t, IsReached job t → t ∈ queue) ∧
      ∀ t, IsReached job t → t ≠ 0 → ∀ p, p ∈ preList t ↔ IsReached job p ∧ Follows job p t := by
  obtain ⟨preList, hok, hmem⟩ := queueTasks_spec h
  refine ⟨levels job job.taskNum, preList, ⟨(levels job job.taskNum).length + 1, ?_⟩,
    fun t ht => h.mem_levels_of_reached ht, fun t _ hne p => hmem t hne p⟩
  intro fuel hfuel
  obtain ⟨more, rfl⟩ := Nat.exists_eq_add_of_le hfuel
  exact hok more

def besideJob : JobInfo where
  taskNum := 3
  data := []
  resource _ := (1, 1)
  link t := if t < 2 then [3] else []

theorem acyclicTasks_besideJob : AcyclicTasks besideJob where
  pos := by decide
  inRange := by decide
  acyclic := by
    refine acyclic_of_lt fun p t hfollows => ?_
    obtain ⟨-, hlink⟩ := hfollows
    simp only [besideJob] at hlink
    split_ifs at hlink
    · have := List.mem_singleton.mp hlink
      omega
    · cases hlink

theorem queueTasks_besideJob : ∃ queue preList,
    (∃ rounds, ∀ fuel, rounds ≤ fuel → queueTasks besideJob fuel = .ok (queue, preList)) ∧
      (∀ t, IsReached besideJob t → t ∈ queue) ∧
      ∀ t, IsReached besideJob t → t ≠ 0 → ∀ p, p ∈ preList t ↔ IsReached besideJob p ∧
        Follows besideJob p t :=
  queueTasks_complete acyclicTasks_besideJob

theorem mem_queueUp {fuel x : ℕ} {q q' : Queues} (h : queueUp job fuel q t = .ok q')
    (hx : x ∈ q.queue) : x ∈ q'.queue := by
  induction fuel generalizing q t with
  | zero => cases h
  | succ fuel ih =>
    rw [queueUp] at h
    obtain ⟨q₁, hoffered, hrest⟩ := bind_eq_ok.mp h
    have hkeeps : Ensures ((job.link t).foldlM (offer job.taskNum t) q)
        (fun q => x ∈ q.queue) fun _ => True := by
      refine Ensures.foldlM (fun q number _ hq => ?_) hx
      rw [offer]
      split_ifs
      · exact ensures_error trivial
      · exact ensures_ok (List.mem_append_left _ hq)
    have hx₁ := hkeeps.ok hoffered
    cases htemp : q₁.queueTemp with
    | nil =>
      rw [htemp] at hrest
      obtain rfl := Except.ok.inj hrest
      exact hx₁
    | cons next queueTemp =>
      rw [htemp] at hrest
      exact ih hrest hx₁

theorem zero_mem_queueTasks {fuel : ℕ} {queue : List ℕ} {preList : ℕ → List ℕ}
    (h : queueTasks job fuel = .ok (queue, preList)) : 0 ∈ queue := by
  rw [queueTasks] at h
  split_ifs at h
  obtain ⟨q, hqueued, hq⟩ := map_eq_ok.mp h
  cases hq
  exact mem_queueUp hqueued (List.mem_singleton_self 0)

end Queueing

section Offers

/-- The tasks of the queue that are not waiting to be looked at are before those that follow
them. -/
def Listed (job : JobInfo) (q : Queues) (waiting : List ℕ) : Prop :=
  ∀ p ∈ q.queue, p ∈ waiting ∨ ∀ t, Follows job p t → p ∈ q.preList t

variable {task : ℕ} {q q' : Queues}

theorem offers_spec {numbers : List ℕ} (h : numbers.foldlM (offer job.taskNum task) q = .ok q') :
    (∃ rest, q'.queue = q.queue ++ rest ∧ q'.queueTemp = q.queueTemp ++ rest ∧
      ∀ t, t + 1 ∈ numbers → t ∈ rest) ∧
      ∀ x y, y ∈ q'.preList x ↔ y ∈ q.preList x ∨ y = task ∧ x + 1 ∈ numbers := by
  induction numbers generalizing q with
  | nil =>
    obtain rfl := Except.ok.inj h
    exact ⟨⟨[], by simp, by simp, by simp⟩, by simp⟩
  | cons number numbers ih =>
    rw [List.foldlM_cons] at h
    obtain ⟨q₁, hoffer, hrest⟩ := bind_eq_ok.mp h
    rw [offer] at hoffer
    split_ifs at hoffer with hrange
    obtain rfl := Except.ok.inj hoffer
    obtain ⟨⟨rest, hqueue, htemp, hmem⟩, hlisted⟩ := ih hrest
    refine ⟨⟨(number - 1) :: rest, by simpa using hqueue, by simpa using htemp, fun t ht => ?_⟩,
      fun x y => ?_⟩
    · rcases List.mem_cons.mp ht with rfl | ht
      · exact List.mem_cons_self
      · exact List.mem_cons_of_mem _ (hmem t ht)
    · rw [hlisted, List.mem_cons]
      by_cases hx : x = number - 1
      · subst hx
        have hnumber : number - 1 + 1 = number := by omega
        simp only [Function.update_self, List.mem_append, List.mem_singleton, hnumber, true_or,
          and_true]
        tauto
      · have hne : x + 1 ≠ number := by omega
        simp [Function.update_of_ne hx, hne]

variable {fuel : ℕ}

theorem queueUp_spec (h : queueUp job fuel q task = .ok q')
    (hq : Listed job q (task :: q.queueTemp)) :
    (∃ rest, q'.queue = q.queue ++ rest) ∧ Listed job q' [] := by
  induction fuel generalizing q task with
  | zero => cases h
  | succ fuel ih =>
    rw [queueUp] at h
    obtain ⟨q₁, hoffered, hrest⟩ := bind_eq_ok.mp h
    obtain ⟨⟨rest, hqueue, htemp, -⟩, hlisted₁⟩ := offers_spec hoffered
    have hlisted : Listed job q₁ q₁.queueTemp := by
      intro p hp
      rw [hqueue, List.mem_append] at hp
      rw [htemp, List.mem_append]
      rcases hp with hp | hp
      · rcases hq p hp with hwaiting | hdone
        · rcases List.mem_cons.mp hwaiting with rfl | hwaiting
          · exact .inr fun t hfollows => (hlisted₁ t p).mpr (.inr ⟨rfl, hfollows.2⟩)
          · exact .inl (.inl hwaiting)
        · exact .inr fun t hfollows => (hlisted₁ t p).mpr (.inl (hdone t hfollows))
      · exact .inl (.inr hp)
    cases hcase : q₁.queueTemp with
    | nil =>
      rw [hcase] at hrest hlisted
      obtain rfl := Except.ok.inj hrest
      exact ⟨⟨rest, hqueue⟩, hlisted⟩
    | cons next queueTemp =>
      rw [hcase] at hrest hlisted
      obtain ⟨⟨rest', hqueue'⟩, hlisted'⟩ := ih hrest hlisted
      refine ⟨⟨rest ++ rest', ?_⟩, hlisted'⟩
      rw [hqueue', hqueue, List.append_assoc]

theorem queueUp_self {fuel task t : ℕ} (hself : t + 1 ∈ job.link t)
    (ht : t ∈ task :: q.queueTemp) : queueUp job fuel q task ≠ .ok q' := by
  intro h
  induction fuel generalizing q task with
  | zero => cases h
  | succ fuel ih =>
    rw [queueUp] at h
    obtain ⟨q₁, hoffered, hrest⟩ := bind_eq_ok.mp h
    obtain ⟨⟨rest, -, htemp, hmem⟩, -⟩ := offers_spec hoffered
    have hwaiting : t ∈ q₁.queueTemp := by
      rw [htemp, List.mem_append]
      rcases List.mem_cons.mp ht with rfl | ht
      · exact .inr (hmem t hself)
      · exact .inl ht
    cases hcase : q₁.queueTemp with
    | nil =>
      rw [hcase] at hwaiting
      cases hwaiting
    | cons next queueTemp =>
      rw [hcase] at hrest hwaiting
      exact ih hwaiting hrest

theorem queueUp_irreflexive (h : queueUp job fuel q task = .ok q')
    (hq : ∀ t, t ∉ q.preList t) (t : ℕ) : t ∉ q'.preList t := by
  induction fuel generalizing q task with
  | zero => cases h
  | succ fuel ih =>
    have hself : task + 1 ∉ job.link task := fun hself =>
      queueUp_self hself List.mem_cons_self h
    rw [queueUp] at h
    obtain ⟨q₁, hoffered, hrest⟩ := bind_eq_ok.mp h
    obtain ⟨-, hlisted⟩ := offers_spec hoffered
    have hq₁ : ∀ t, t ∉ q₁.preList t := by
      intro t ht
      rcases (hlisted t t).mp ht with ht | ⟨rfl, hlink⟩
      · exact hq t ht
      · exact hself hlink
    cases hcase : q₁.queueTemp with
    | nil =>
      rw [hcase] at hrest
      obtain rfl := Except.ok.inj hrest
      exact hq₁ t
    | cons next queueTemp =>
      rw [hcase] at hrest
      exact ih hrest hq₁

theorem queueTasks_irreflexive {queue : List ℕ} {preList : ℕ → List ℕ}
    (h : queueTasks job fuel = .ok (queue, preList)) (t : ℕ) : t ∉ preList t := by
  rw [queueTasks] at h
  split_ifs at h
  obtain ⟨q, hqueued, hq⟩ := map_eq_ok.mp h
  cases hq
  have hnot := queueUp_irreflexive hqueued (fun t => List.not_mem_nil) t
  dsimp only
  split_ifs
  · exact List.not_mem_nil
  · rwa [List.mem_eraseDups]

/-- The first task comes first, and each task of the queue is among the tasks before those that
follow it. -/
theorem queueTasks_listed {queue : List ℕ} {preList : ℕ → List ℕ}
    (h : queueTasks job fuel = .ok (queue, preList)) :
    (∃ rest, queue = 0 :: rest) ∧
      ∀ p ∈ queue, ∀ t, t ≠ 0 → Follows job p t → p ∈ preList t := by
  rw [queueTasks] at h
  split_ifs at h
  obtain ⟨q, hqueued, hq⟩ := map_eq_ok.mp h
  cases hq
  obtain ⟨⟨rest, hqueue⟩, hlisted⟩ := queueUp_spec hqueued fun p hp => .inl hp
  refine ⟨⟨rest, hqueue⟩, fun p hp t ht hfollows => ?_⟩
  dsimp only
  rw [if_neg ht, List.mem_eraseDups]
  exact (hlisted p hp).resolve_left List.not_mem_nil t hfollows

end Offers

section Order

variable {l l' : List ℕ}

theorem before_of_not_mem (h : t ∉ l) : Before l p t := by
  rintro pre post rfl
  exact absurd (List.mem_append_right pre List.mem_cons_self) h

theorem before_append : Before (l ++ l') p t ↔ Before l p t ∧ (p ∈ l ∨ Before l' p t) := by
  constructor
  · intro h
    refine ⟨fun pre post hl => h pre (post ++ l') (by rw [hl]; simp), ?_⟩
    by_cases hp : p ∈ l
    · exact .inl hp
    · right
      rintro pre post rfl
      have hmem := h (l ++ pre) post (List.append_assoc l pre (t :: post)).symm
      exact (List.mem_append.mp hmem).resolve_left hp
  · rintro ⟨hl, hl'⟩ pre post heq
    rcases List.append_eq_append_iff.mp heq with ⟨mid, rfl, hmid⟩ | ⟨mid, hmid, hpost⟩
    · rcases hl' with hp | hl'
      · exact List.mem_append_left mid hp
      · exact List.mem_append_right l (hl' mid post hmid)
    · cases mid with
      | nil =>
        rw [List.append_nil] at hmid
        rw [List.nil_append] at hpost
        rcases hl' with hp | hl'
        · exact hmid ▸ hp
        · exact absurd (hl' [] post hpost.symm) List.not_mem_nil
      | cons x mid =>
        obtain ⟨rfl, -⟩ := List.cons.inj hpost
        exact hl pre mid hmid

theorem before_iff_first : Before l p t ↔ ∀ pre post, l = pre ++ t :: post → t ∉ pre → p ∈ pre := by
  constructor
  · exact fun h pre post hl _ => h pre post hl
  · intro h pre post hl
    by_cases ht : t ∈ pre
    · obtain ⟨pre', post', rfl, hfirst⟩ := List.eq_append_cons_of_mem ht
      have hp := h pre' (post' ++ t :: post) (by rw [hl]; simp) hfirst
      exact List.mem_append_left _ hp
    · exact h pre post hl ht

theorem before_of_le {k m : ℕ} (hle : k ≤ m) (h : Before (levels job m) p t) :
    Before (levels job k) p t := by
  induction m, hle using Nat.le_induction with
  | base => exact h
  | succ m _ ih =>
    rw [levels_succ, before_append] at h
    exact ih h.1

theorem TaskGraph.before_iff (h : TaskGraph job) (ht : t < job.taskNum) :
    Before (levels job job.taskNum) p t ↔ Precedes job p t := by
  constructor
  · intro hbefore
    obtain ⟨pre, post, heq⟩ :=
      List.append_of_mem (h.acyclicTasks.mem_levels_of_reached (h.reached t ht))
    have hp : p ∈ levels job job.taskNum := by
      rw [heq]
      exact List.mem_append_left _ (hbefore pre post heq)
    obtain ⟨k', -, hk'⟩ := List.mem_flatMap.mp hp
    classical
    -- the first level that has p on it
    have hex : ∃ k, p ∈ level job k := ⟨k', hk'⟩
    have hlt := h.acyclicTasks.lt_of_mem_level (Nat.find_spec hex)
    refine ⟨Nat.find hex, Nat.find_spec hex, fun j hj => ?_⟩
    have hlevels : Before (levels job (j + 1)) p t := before_of_le (by omega) hbefore
    rw [levels_succ, before_append] at hlevels
    refine hlevels.2.resolve_left fun hmem => ?_
    obtain ⟨i, hi, hpi⟩ := List.mem_flatMap.mp hmem
    exact Nat.find_min hex (lt_of_lt_of_le (List.mem_range.mp hi) hj) hpi
  · rintro ⟨k, hk, hbefore⟩
    generalize job.taskNum = m
    induction m with
    | zero => exact before_of_not_mem List.not_mem_nil
    | succ m ih =>
      rw [levels_succ, before_append]
      refine ⟨ih, ?_⟩
      by_cases hm : m ≤ k
      · exact .inr (hbefore m hm)
      · exact .inl (mem_levels hk (by omega))

end Order

end DagTaskQueue

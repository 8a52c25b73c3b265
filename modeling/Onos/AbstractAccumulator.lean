import Onos.Lib.InFlight
import Onos.Lib.InputMachine
import Mathlib.Data.Finset.Basic
import Mathlib.Data.List.Nodup

/-! The accumulator of items. The steps of any number of calls of `add` and of the tasks on the one
thread of the timer interleave: the list of items is locked, the references to the tasks and the
timer are not. A task may start at any time once it is scheduled, so its delay is left out. -/
namespace AbstractAccumulator

open InFlight InputMachine

structure Config where
  maxItems : ℕ
  maxBatchMillis : ℕ
  maxIdleMillis : ℕ
  items_gt : 1 < maxItems
  batch_pos : 0 < maxBatchMillis
  idle_pos : 0 < maxIdleMillis

abbrev TaskId := ℕ

inductive TaskRef where
  | idleTask
  | maxTask
  deriving DecidableEq, Repr

/-- What a thread has still to do. `cancel` is the rest of `swapAndCancelTask`, after the swap. -/
inductive Action where
  | rescheduleTask (taskRef : TaskRef)
  | swapAndCancelTask (taskRef : TaskRef) (newTask : Option TaskId)
  | cancel (oldTask : TaskId)
  deriving DecidableEq, Repr

def cancelTask (taskRef : TaskRef) : Action := .swapAndCancelTask taskRef none

def Config.addActions (cfg : Config) (sizeAtTimeOfAdd : ℕ) : List Action :=
  if cfg.maxItems ≤ sizeAtTimeOfAdd then
    (if cfg.maxIdleMillis < cfg.maxBatchMillis then [cancelTask .idleTask] else []) ++
      [.rescheduleTask .maxTask]
  else
    (if cfg.maxIdleMillis < cfg.maxBatchMillis then [.rescheduleTask .idleTask] else []) ++
      (if sizeAtTimeOfAdd = 1 then [.rescheduleTask .maxTask] else [])

inductive TimerThread (T : Type*) where
  | waiting
  | run
  | postpone
  | finalizeCurrentBatch (finalizedList : List T)
  | processItems (batch : List T)
  deriving DecidableEq, Repr

/-- Beside the fields of the accumulator: what the timer has scheduled, what its thread and the calls
of `add` have still to do, and all items that were added and batches that were processed. -/
structure State (T : Type*) where
  items : List T
  refs : TaskRef → Option TaskId
  scheduled : Finset TaskId
  nextTask : TaskId
  thread : TimerThread T
  threadActions : List Action
  calls : List (List Action)
  added : List T
  batches : List (List T)

variable {T : Type*} (cfg : Config)

def State.initial : State T := ⟨[], fun _ => none, ∅, 0, .waiting, [], [], [], []⟩

def State.perform (s : State T) : Action → State T × List Action
  | .rescheduleTask taskRef =>
    ({ s with scheduled := insert s.nextTask s.scheduled, nextTask := s.nextTask + 1 },
      [.swapAndCancelTask taskRef (some s.nextTask)])
  | .swapAndCancelTask taskRef newTask =>
    ({ s with refs := Function.update s.refs taskRef newTask },
      (s.refs taskRef).toList.map .cancel)
  | .cancel oldTask => ({ s with scheduled := s.scheduled.erase oldTask }, [])

def State.proceed (s : State T) : List Action → List (List Action) → State T
  | [], others => { s with calls := others }
  | action :: actions, others =>
    let r := s.perform action
    { r.1 with calls := (r.2 ++ actions) :: others }

def State.finish (s : State T) : State T :=
  match s.thread with
  | .finalizeCurrentBatch batch => { s with thread := .processItems batch }
  | .processItems batch =>
    { s with
      thread := .waiting
      batches := if batch.isEmpty then s.batches else s.batches ++ [batch] }
  | _ => { s with thread := .waiting }

def State.runOn (s : State T) : State T :=
  match s.threadActions with
  | action :: actions =>
    let r := s.perform action
    { r.1 with threadActions := r.2 ++ actions }
  | [] => s.finish

inductive Input (T : Type*) where
  | add (item : T)
  | proceed (call : ℕ)
  | start (task : TaskId)
  | isReady (ready : Bool)
  | runOn
  deriving DecidableEq, Repr

def TimerThread.isBusy : TimerThread T → Bool
  | .waiting | .run => false
  | _ => true

def TimerThread.holdsLock : TimerThread T → Bool
  | .finalizeCurrentBatch _ => true
  | _ => false

def Enabled (s : State T) : Input T → Prop
  | .add _ => s.thread.holdsLock = false
  | .proceed call => call < s.calls.length
  | .start task => s.thread = .waiting ∧ task ∈ s.scheduled
  | .isReady _ => s.thread = .run
  | .runOn => s.thread.isBusy = true

instance [DecidableEq T] (s : State T) (x : Input T) : Decidable (Enabled s x) := by
  cases x <;> unfold Enabled <;> infer_instance

def State.next (s : State T) : Input T → State T
  | .add item =>
    { s with
      items := s.items ++ [item]
      added := s.added ++ [item]
      calls := s.calls ++ [cfg.addActions (s.items ++ [item]).length] }
  | .proceed call =>
    match takeAt call s.calls with
    | some (actions, others) => s.proceed actions others
    | none => s
  | .start task => { s with scheduled := s.scheduled.erase task, thread := .run }
  | .isReady true =>
    { s with
      items := []
      thread := .finalizeCurrentBatch s.items
      threadActions := [cancelTask .maxTask, cancelTask .idleTask] }
  | .isReady false =>
    { s with thread := .postpone, threadActions := [.rescheduleTask .idleTask] }
  | .runOn => s.runOn

def accumulator : Machine (State T) (Input T) := ⟨State.initial, Enabled, State.next cfg⟩

instance [DecidableEq T] (s : State T) (x : Input T) :
    Decidable ((accumulator cfg).enabled s x) := inferInstanceAs (Decidable (Enabled s x))

section Order

def TimerThread.batch : TimerThread T → List T
  | .finalizeCurrentBatch batch | .processItems batch => batch
  | _ => []

structure Ordered (s : State T) : Prop where
  items : s.batches.flatten ++ s.thread.batch ++ s.items = s.added
  nonempty : [] ∉ s.batches

variable {cfg} {s : State T} {x : Input T}

variable (cfg) in
theorem next_proceed {call : ℕ} (hx : Enabled s (.proceed call)) : ∃ actions others,
    s.calls.Perm (actions :: others) ∧ s.next cfg (.proceed call) = s.proceed actions others := by
  obtain ⟨actions, others, htake⟩ := takeAt_isSome hx
  exact ⟨actions, others, takeAt_perm htake, by rw [State.next, htake]⟩

theorem ordered_finish (h : Ordered s) : Ordered s.finish := by
  have hitems := h.items
  unfold State.finish
  cases hthread : s.thread with
  | processItems batch =>
    rw [hthread] at hitems
    cases batch with
    | nil => exact ⟨hitems, h.nonempty⟩
    | cons item batch =>
      refine ⟨.trans ?_ hitems, by simp [h.nonempty]⟩
      simp [TimerThread.batch]
  | _ =>
    rw [hthread] at hitems
    exact ⟨hitems, h.nonempty⟩

theorem ordered_next (h : Ordered s) (hx : Enabled s x) : Ordered (s.next cfg x) := by
  have hitems := h.items
  cases x with
  | add item =>
    refine ⟨?_, h.nonempty⟩
    change s.batches.flatten ++ s.thread.batch ++ (s.items ++ [item]) = s.added ++ [item]
    rw [← List.append_assoc, hitems]
  | proceed call =>
    obtain ⟨actions, others, -, hnext⟩ := next_proceed cfg hx
    rw [hnext]
    rcases actions with _ | ⟨action, actions⟩
    · exact ⟨hitems, h.nonempty⟩
    · cases action <;> exact ⟨hitems, h.nonempty⟩
  | start task =>
    rw [hx.1] at hitems
    exact ⟨hitems, h.nonempty⟩
  | isReady ready =>
    rw [show s.thread = .run from hx] at hitems
    cases ready with
    | false => exact ⟨hitems, h.nonempty⟩
    | true =>
      refine ⟨.trans ?_ hitems, h.nonempty⟩
      simp [State.next, TimerThread.batch]
  | runOn =>
    change Ordered s.runOn
    unfold State.runOn
    cases s.threadActions with
    | nil => exact ordered_finish h
    | cons action actions => cases action <;> exact ⟨hitems, h.nonempty⟩

/-- Over all batches the items are processed in the order in which they entered the list, each at
most once; what is not yet processed is the batch at hand and the list. No batch is empty. -/
theorem batches_in_order (h : (accumulator cfg).Reachable s) :
    s.batches.flatten ++ s.thread.batch ++ s.items = s.added ∧ [] ∉ s.batches := by
  obtain ⟨xs, hxs, rfl⟩ := h
  have hordered := invariant_run Ordered (fun _ _ => ordered_next) hxs ⟨rfl, List.not_mem_nil⟩
  exact ⟨hordered.items, hordered.nonempty⟩

def eager : Config := ⟨2, 1, 1, by decide, by decide, by decide⟩

/-- A batch is processed while the calls that added its items are under way. -/
def firstBatch : List (Input ℕ) :=
  [.add 7, .proceed 0, .add 8, .start 0, .isReady true, .runOn, .runOn, .runOn, .runOn, .add 9]

theorem first_batch_in_order :
    let s := (accumulator eager).run State.initial firstBatch
    s.batches = [[7, 8]] ∧ s.batches.flatten ++ s.thread.batch ++ s.items = s.added :=
  ⟨by decide, (batches_in_order ⟨firstBatch, by decide, rfl⟩).1⟩

end Order

section Watch

def Action.newTask : Action → Option TaskId
  | .swapAndCancelTask _ newTask => newTask
  | _ => none

def Action.task : Action → Option TaskId
  | .cancel oldTask => some oldTask
  | action => action.newTask

def Action.Arms : Action → Prop
  | .rescheduleTask _ => True
  | action => action.newTask.isSome

def State.pending (s : State T) : List Action := s.threadActions ++ s.calls.flatten

def State.tasks (s : State T) (pending : List Action) : List TaskId :=
  (s.refs .idleTask).toList ++ (s.refs .maxTask).toList ++ pending.filterMap Action.task

/-- Each task is in one place, and no task is started or cancelled before it is in its reference. -/
structure Sound (s : State T) (pending : List Action) : Prop where
  nodup : (s.tasks pending).Nodup
  fresh : ∀ task ∈ s.tasks pending, task < s.nextTask
  scheduled : ∀ action ∈ pending, ∀ task, action.newTask = some task → task ∈ s.scheduled

def Watched (s : State T) (pending : List Action) : Prop :=
  (∃ action ∈ pending, action.Arms) ∨ ∃ taskRef task, s.refs taskRef = some task ∧ task ∈ s.scheduled

def Followed : List Action → Prop
  | [] => True
  | action :: actions =>
    (∀ taskRef, action = cancelTask taskRef → ∃ next ∈ actions, next.Arms) ∧ Followed actions

structure Attended (s : State T) : Prop where
  sound : Sound s s.pending
  calls : ∀ actions ∈ s.calls, Followed actions
  thread : s.thread.holdsLock = true ∨ Followed s.threadActions
  quiet : s.thread.isBusy = false → s.threadActions = []
  locked : s.thread.holdsLock = true → s.items = []
  watched : s.items ≠ [] → s.thread = .run ∨ Watched s s.pending

variable {cfg} {s : State T} {x : Input T} {action : Action} {actions pending pending' : List Action}

theorem sound_of_perm (h : Sound s pending) (hperm : pending.Perm pending') : Sound s pending' := by
  have htasks : (s.tasks pending).Perm (s.tasks pending') :=
    (hperm.filterMap Action.task).append_left _
  refine ⟨htasks.nodup_iff.mp h.nodup, fun task ht => ?_, fun action ha => ?_⟩
  · exact h.fresh task (htasks.mem_iff.mpr ht)
  · exact h.scheduled action (hperm.mem_iff.mpr ha)

theorem watched_of_perm (h : Watched s pending) (hperm : pending.Perm pending') :
    Watched s pending' :=
  h.imp_left fun ⟨action, ha, harms⟩ => ⟨action, hperm.mem_iff.mp ha, harms⟩

theorem perm_tasks_swap (s : State T) (taskRef : TaskRef) (newTask : Option TaskId)
    (actions : List Action) :
    (({ s with refs := Function.update s.refs taskRef newTask } : State T).tasks
      ((s.refs taskRef).toList.map .cancel ++ actions)).Perm
        (s.tasks (.swapAndCancelTask taskRef newTask :: actions)) := by
  have hold : ((s.refs taskRef).toList.map Action.cancel).filterMap Action.task =
      (s.refs taskRef).toList := by
    rw [List.filterMap_map]
    exact List.filterMap_some
  refine List.perm_iff_count.mpr fun task => ?_
  rw [State.tasks, List.filterMap_append, hold]
  cases taskRef <;> cases newTask <;>
    simp [State.tasks, List.filterMap_cons, Action.task, Action.newTask, List.count_cons] <;> omega

theorem task_of_newTask {task : TaskId} (h : action.newTask = some task) :
    action.task = some task := by
  cases action with
  | swapAndCancelTask taskRef newTask => exact h
  | rescheduleTask taskRef => cases h
  | cancel oldTask => cases h

variable (actions) in
theorem sound_append (h : Sound s pending) (hnone : ∀ action ∈ actions, action.task = none) :
    Sound s (actions ++ pending) := by
  have htasks : s.tasks (actions ++ pending) = s.tasks pending := by
    rw [State.tasks, List.filterMap_append, List.filterMap_eq_nil_iff.mpr hnone, List.nil_append]
    rfl
  refine ⟨htasks ▸ h.nodup, htasks ▸ h.fresh, fun action ha task htask => ?_⟩
  rcases List.mem_append.mp ha with ha | ha
  · cases (hnone action ha).symm.trans (task_of_newTask htask)
  · exact h.scheduled action ha task htask

theorem sound_perform (h : Sound s (action :: actions)) :
    Sound (s.perform action).1 ((s.perform action).2 ++ actions) := by
  cases action with
  | rescheduleTask taskRef =>
    have hfresh : s.nextTask ∉ s.tasks actions := fun ht => (h.fresh _ ht).false
    refine ⟨List.nodup_middle.mpr (List.nodup_cons.mpr ⟨hfresh, h.nodup⟩), fun task ht => ?_, ?_⟩
    · rcases List.mem_cons.mp (List.perm_middle.mem_iff.mp ht) with rfl | ht
      · exact Nat.lt_succ_self _
      · exact (h.fresh task ht).trans (Nat.lt_succ_self _)
    · rintro _ ha task htask
      rcases List.mem_cons.mp ha with rfl | ha
      · obtain rfl := Option.some.inj htask
        exact Finset.mem_insert_self _ _
      · exact Finset.mem_insert_of_mem (h.scheduled _ (List.mem_cons_of_mem _ ha) task htask)
  | swapAndCancelTask taskRef newTask =>
    have hperm := perm_tasks_swap s taskRef newTask actions
    refine ⟨hperm.nodup_iff.mpr h.nodup, fun task ht => h.fresh task (hperm.mem_iff.mp ht), ?_⟩
    intro action ha task htask
    rcases List.mem_append.mp ha with ha | ha
    · obtain ⟨oldTask, -, rfl⟩ := List.mem_map.mp ha
      cases htask
    · exact h.scheduled action (List.mem_cons_of_mem _ ha) task htask
  | cancel oldTask =>
    obtain ⟨hold, hnodup⟩ := List.nodup_cons.mp (List.nodup_middle.mp h.nodup)
    refine ⟨hnodup, fun task ht => ?_, fun action ha task htask => ?_⟩
    · exact h.fresh task (List.perm_middle.mem_iff.mpr (List.mem_cons_of_mem _ ht))
    · refine Finset.mem_erase.mpr ⟨?_, h.scheduled action (List.mem_cons_of_mem _ ha) task htask⟩
      rintro rfl
      have hlater := List.mem_filterMap.mpr ⟨action, ha, task_of_newTask htask⟩
      exact hold (List.mem_append_right _ hlater)

theorem watched_perform (h : Sound s (action :: actions)) (hw : Watched s (action :: actions))
    (hnext : ∀ taskRef, action = cancelTask taskRef → ∃ next ∈ actions, next.Arms) :
    Watched (s.perform action).1 ((s.perform action).2 ++ actions) := by
  cases action with
  | rescheduleTask taskRef => exact .inl ⟨_, List.mem_append_left _ (List.mem_singleton_self _), rfl⟩
  | swapAndCancelTask taskRef newTask =>
    cases newTask with
    | none =>
      obtain ⟨next, hmem, harms⟩ := hnext taskRef rfl
      exact .inl ⟨next, List.mem_append_right _ hmem, harms⟩
    | some task =>
      refine .inr ⟨taskRef, task, Function.update_self .., ?_⟩
      exact h.scheduled _ List.mem_cons_self task rfl
  | cancel oldTask =>
    rcases hw with ⟨next, hmem, harms⟩ | ⟨taskRef, task, href, htask⟩
    · rcases List.mem_cons.mp hmem with rfl | hmem
      · cases harms
      · exact .inl ⟨next, hmem, harms⟩
    · refine .inr ⟨taskRef, task, href, Finset.mem_erase.mpr ⟨?_, htask⟩⟩
      rintro rfl
      refine (List.nodup_cons.mp (List.nodup_middle.mp h.nodup)).1 (List.mem_append_left _ ?_)
      cases taskRef <;> simp [href]

theorem followed_perform (h : Followed (action :: actions)) :
    Followed ((s.perform action).2 ++ actions) := by
  cases action with
  | rescheduleTask taskRef => exact ⟨nofun, h.2⟩
  | swapAndCancelTask taskRef newTask =>
    change Followed ((s.refs taskRef).toList.map .cancel ++ actions)
    cases s.refs taskRef with
    | none => exact h.2
    | some oldTask => exact ⟨nofun, h.2⟩
  | cancel oldTask => exact h.2

theorem followed_addActions (cfg : Config) (size : ℕ) : Followed (cfg.addActions size) := by
  unfold Config.addActions
  split_ifs <;> simp [Followed, cancelTask, Action.Arms, Action.newTask]

theorem arms_addActions (cfg : Config) : ∃ action ∈ cfg.addActions 1, action.Arms := by
  have hone : ¬cfg.maxItems ≤ 1 := Nat.not_le_of_lt cfg.items_gt
  rw [Config.addActions, if_neg hone]
  exact ⟨_, List.mem_append_right _ (List.mem_singleton_self _), trivial⟩

theorem task_addActions (cfg : Config) (size : ℕ) :
    ∀ action ∈ cfg.addActions size, action.task = none := by
  unfold Config.addActions
  split_ifs <;> simp [cancelTask, Action.task, Action.newTask]

theorem attended_add (h : Attended s) (item : T) (hx : s.thread.holdsLock = false) :
    Attended (s.next cfg (.add item)) := by
  let added := cfg.addActions (s.items ++ [item]).length
  have hperm : (added ++ s.pending).Perm (s.next cfg (.add item)).pending := by
    refine List.perm_append_comm.trans (List.Perm.of_eq ?_)
    simp [State.pending, State.next, added]
  have hsound := sound_of_perm (sound_append _ h.sound (task_addActions cfg _)) hperm
  refine ⟨⟨hsound.nodup, hsound.fresh, hsound.scheduled⟩, ?_, h.thread, h.quiet, ?_, fun _ => ?_⟩
  · exact List.forall_mem_append.mpr
      ⟨h.calls, List.forall_mem_singleton.mpr (followed_addActions cfg _)⟩
  · exact fun hlock => absurd (hx.symm.trans hlock) Bool.false_ne_true
  · by_cases hitems : s.items = []
    · obtain ⟨action, ha, harms⟩ := arms_addActions cfg
      have hmem : action ∈ added := by simpa [added, hitems] using ha
      exact .inr (.inl ⟨action, hperm.mem_iff.mp (List.mem_append_left _ hmem), harms⟩)
    · refine (h.watched hitems).imp_right (Or.imp_left ?_)
      rintro ⟨action, ha, harms⟩
      exact ⟨action, hperm.mem_iff.mp (List.mem_append_right _ ha), harms⟩

/-- An action that is performed with `rest` pending beside it. -/
theorem attended_perform (h : Attended s) {rest : List Action}
    (hperm : s.pending.Perm (action :: rest))
    (hnext : s.items ≠ [] → ∀ taskRef, action = cancelTask taskRef → ∃ next ∈ rest, next.Arms)
    (hpending : ((s.perform action).2 ++ rest).Perm pending') :
    Sound (s.perform action).1 pending' ∧
      (s.items ≠ [] → s.thread = .run ∨ Watched (s.perform action).1 pending') := by
  have hsound := sound_of_perm h.sound hperm
  refine ⟨sound_of_perm (sound_perform hsound) hpending, fun hitems => ?_⟩
  refine (h.watched hitems).imp_right fun hw => watched_of_perm ?_ hpending
  exact watched_perform hsound (watched_of_perm hw hperm) (hnext hitems)

theorem attended_proceed (h : Attended s) {others : List (List Action)}
    (hcalls : s.calls.Perm (actions :: others)) : Attended (s.proceed actions others) := by
  have hflat := hcalls.flatten.append_left s.threadActions
  obtain ⟨hfollowed, hothers⟩ :=
    List.forall_mem_cons.mp fun actions hm => h.calls actions (hcalls.mem_iff.mpr hm)
  cases actions with
  | nil =>
    have hsound := sound_of_perm h.sound hflat
    refine ⟨⟨hsound.nodup, hsound.fresh, hsound.scheduled⟩, hothers, h.thread, h.quiet, h.locked, ?_⟩
    exact fun hitems => (h.watched hitems).imp_right fun hw => watched_of_perm hw hflat
  | cons action actions =>
    have hnext : ∀ taskRef, action = cancelTask taskRef →
        ∃ next ∈ s.threadActions ++ (actions ++ others.flatten), next.Arms := fun taskRef heq => by
      obtain ⟨next, hmem, harms⟩ := hfollowed.1 taskRef heq
      exact ⟨next, List.mem_append_right _ (List.mem_append_left _ hmem), harms⟩
    have hafter : ((s.perform action).2 ++ (s.threadActions ++ (actions ++ others.flatten))).Perm
        (s.threadActions ++ (((s.perform action).2 ++ actions) :: others).flatten) := by
      rw [List.flatten_cons, List.append_assoc]
      exact List.perm_append_comm_assoc _ _ _
    obtain ⟨hsound, hwatched⟩ :=
      attended_perform h (hflat.trans List.perm_middle) (fun _ => hnext) hafter
    have hcalls' := List.forall_mem_cons.mpr ⟨followed_perform (s := s) hfollowed, hothers⟩
    cases action <;> exact ⟨⟨hsound.nodup, hsound.fresh, hsound.scheduled⟩, hcalls', h.thread,
      h.quiet, h.locked, hwatched⟩

theorem attended_runOn (h : Attended s) (hx : s.thread.isBusy = true) : Attended s.runOn := by
  unfold State.runOn
  cases hactions : s.threadActions with
  | nil =>
    have hsound := h.sound
    have hwatched := fun hitems => (h.watched hitems).resolve_left fun hrun => by
      rw [hrun] at hx
      cases hx
    change Attended s.finish
    unfold State.finish
    split <;> exact ⟨⟨hsound.nodup, hsound.fresh, hsound.scheduled⟩, h.calls,
      .inr (hactions ▸ trivial), fun _ => hactions, nofun, fun hitems => .inr (hwatched hitems)⟩
  | cons action actions =>
    have hpending : s.pending = action :: (actions ++ s.calls.flatten) := by
      rw [State.pending, hactions]
      rfl
    have hthread : s.thread.holdsLock = true ∨ Followed (action :: actions) := hactions ▸ h.thread
    have hnext : s.items ≠ [] → ∀ taskRef, action = cancelTask taskRef →
        ∃ next ∈ actions ++ s.calls.flatten, next.Arms := fun hitems taskRef heq => by
      have hfollowed := hthread.resolve_left fun hlock => hitems (h.locked hlock)
      obtain ⟨next, hmem, harms⟩ := hfollowed.1 taskRef heq
      exact ⟨next, List.mem_append_left _ hmem, harms⟩
    obtain ⟨hsound, hwatched⟩ :=
      attended_perform h (.of_eq hpending) hnext (.of_eq (List.append_assoc _ _ _).symm)
    have hthread' := hthread.imp_right (followed_perform (s := s))
    cases action <;> exact ⟨⟨hsound.nodup, hsound.fresh, hsound.scheduled⟩, h.calls, hthread',
      fun hidle => absurd (hidle.symm.trans hx) Bool.false_ne_true, h.locked, hwatched⟩

/-- A task starts after the call of `add` that schedules it has put it in its reference. -/
def StartsInstalled (s : State T) : Input T → Prop
  | .start task => ∀ action ∈ s.calls.flatten, action.newTask ≠ some task
  | _ => True

instance (s : State T) (x : Input T) : Decidable (StartsInstalled s x) := by
  cases x <;> unfold StartsInstalled <;> infer_instance

theorem attended_next (h : Attended s) (hx : Enabled s x) (hok : StartsInstalled s x) :
    Attended (s.next cfg x) := by
  cases x with
  | add item => exact attended_add h item hx
  | proceed call =>
    obtain ⟨actions, others, hcalls, hnext⟩ := next_proceed cfg hx
    exact hnext ▸ attended_proceed h hcalls
  | runOn => exact attended_runOn h hx
  | start task =>
    have hquiet := h.quiet (hx.1 ▸ rfl)
    refine ⟨⟨h.sound.nodup, h.sound.fresh, fun action ha other hother => ?_⟩, h.calls,
      .inr (hquiet ▸ trivial), fun _ => hquiet, nofun, fun _ => .inl rfl⟩
    refine Finset.mem_erase.mpr ⟨?_, h.sound.scheduled action ha other hother⟩
    rintro rfl
    change action ∈ s.threadActions ++ s.calls.flatten at ha
    rw [hquiet] at ha
    exact hok action ha hother
  | isReady ready =>
    have hsound := h.sound
    have hpending : s.pending = s.calls.flatten := by
      rw [State.pending, h.quiet (by rw [show s.thread = .run from hx]; rfl)]
      rfl
    rw [hpending] at hsound
    cases ready with
    | true =>
      have hcancel := sound_append [cancelTask .maxTask, cancelTask .idleTask] hsound
        (by simp [cancelTask, Action.task, Action.newTask])
      exact ⟨⟨hcancel.nodup, hcancel.fresh, hcancel.scheduled⟩, h.calls, .inl rfl, nofun,
        fun _ => rfl, fun hitems => absurd rfl hitems⟩
    | false =>
      have hpostpone := sound_append [.rescheduleTask .idleTask] hsound
        (by simp [Action.task, Action.newTask])
      exact ⟨⟨hpostpone.nodup, hpostpone.fresh, hpostpone.scheduled⟩, h.calls, .inr ⟨nofun, trivial⟩,
        nofun, nofun, fun _ => .inr (.inl ⟨_, List.mem_cons_self, trivial⟩)⟩

/-- Nothing is stranded: while items wait and no thread is at work, a scheduled task refers to them. -/
theorem items_watched (h : ((accumulator cfg).guarded StartsInstalled).Reachable s)
    (hthread : s.thread = .waiting) (hcalls : s.calls = []) (hitems : s.items ≠ []) :
    ∃ taskRef task, s.refs taskRef = some task ∧ task ∈ s.scheduled := by
  obtain ⟨xs, hxs, rfl⟩ := h
  have hattended := invariant_run Attended (fun s x h hx => attended_next h (And.left hx) (And.right hx)) hxs
    ⟨⟨List.nodup_nil, nofun, nofun⟩, nofun, .inr trivial, fun _ => rfl, fun _ => rfl,
      fun hne => absurd rfl hne⟩
  rcases hattended.watched hitems with hrun | ⟨action, ha, -⟩ | hwatched
  · cases hthread.symm.trans hrun
  · rw [State.pending, hattended.quiet (hthread ▸ rfl), hcalls] at ha
    cases ha
  · exact hwatched

theorem item_watched :
    let s := (accumulator eager).run State.initial [.add 7, .proceed 0, .proceed 0, .proceed 0]
    ∃ taskRef task, s.refs taskRef = some task ∧ task ∈ s.scheduled :=
  items_watched ⟨_, by decide, rfl⟩ rfl rfl (by decide)

/-- The task of the first call starts before it is in its reference. When it gets there, the task of
the second call is cancelled for it, and nothing will look at the second item. -/
theorem item_stranded : ∃ xs : List (Input ℕ), (accumulator eager).Valid State.initial xs ∧
    let s := (accumulator eager).run State.initial xs
    s.thread = .waiting ∧ s.calls = [] ∧ s.items = [8] ∧ s.scheduled = ∅ := by
  refine ⟨[.add 7, .proceed 0, .start 0, .isReady true, .runOn, .runOn, .runOn, .runOn, .add 8,
    .proceed 1, .proceed 0, .proceed 0, .proceed 0, .proceed 0, .proceed 0], ?_⟩
  decide

end Watch

end AbstractAccumulator

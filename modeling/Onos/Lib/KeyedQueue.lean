import Mathlib.Data.List.Basic

/-! Tasks that are submitted to executors under a key. The tasks of one key run one after the other,
in the order of their submission; those of different keys run in any order. -/
namespace KeyedQueue

abbrev Queue (κ τ : Type*) := List (κ × τ)

variable {κ τ : Type*} [DecidableEq κ]

def tasksOf (q : Queue κ τ) (k : κ) : List τ := (q.filter fun e => e.1 = k).map Prod.snd

def submit (q : Queue κ τ) (k : κ) (t : τ) : Queue κ τ := q ++ [(k, t)]

def proceed (k : κ) (t : Option τ) : Queue κ τ → Queue κ τ
  | [] => []
  | e :: q =>
    if e.1 = k then (t.map fun t => (k, t)).toList ++ q else e :: proceed k t q

variable {q : Queue κ τ} {k : κ} {t : τ}

theorem tasksOf_cons (e : κ × τ) (q : Queue κ τ) (k : κ) :
    tasksOf (e :: q) k = if e.1 = k then e.2 :: tasksOf q k else tasksOf q k := by
  by_cases h : e.1 = k
  · rw [if_pos h, tasksOf, List.filter_cons_of_pos (by simpa using h)]
    rfl
  · rw [if_neg h, tasksOf, List.filter_cons_of_neg (by simpa using h)]
    rfl

theorem mem_tasksOf : t ∈ tasksOf q k ↔ (k, t) ∈ q := by
  simp only [tasksOf, List.mem_map, List.mem_filter, decide_eq_true_eq]
  constructor
  · rintro ⟨⟨j, u⟩, ⟨hmem, rfl⟩, rfl⟩
    exact hmem
  · intro hmem
    exact ⟨(k, t), ⟨hmem, rfl⟩, rfl⟩

theorem tasksOf_submit (q : Queue κ τ) (k j : κ) (t : τ) :
    tasksOf (submit q k t) j = if k = j then tasksOf q j ++ [t] else tasksOf q j := by
  rw [tasksOf, submit, List.filter_append, List.map_append]
  by_cases h : k = j
  · rw [if_pos h, List.filter_cons_of_pos (by simpa using h)]
    rfl
  · rw [if_neg h, List.filter_cons_of_neg (by simpa using h), List.filter_nil, List.map_nil,
      List.append_nil]
    rfl

variable {e : κ × τ}

omit [DecidableEq κ] in
theorem mem_submit : e ∈ submit q k t ↔ e ∈ q ∨ e = (k, t) := by
  rw [submit, List.mem_append, List.mem_singleton]

theorem tasksOf_proceed_of_ne {j : κ} (h : j ≠ k) (t : Option τ) (q : Queue κ τ) :
    tasksOf (proceed k t q) j = tasksOf q j := by
  induction q with
  | nil => rfl
  | cons e q ih =>
    rw [proceed]
    by_cases he : e.1 = k
    · rw [if_pos he, tasksOf_cons, if_neg fun hj => h (hj.symm.trans he)]
      cases t with
      | none => rfl
      | some t =>
        refine (tasksOf_cons _ _ _).trans ?_
        rw [if_neg fun hj => h (Eq.symm hj)]
        rfl
    · rw [if_neg he, tasksOf_cons, tasksOf_cons, ih]

variable {first : τ} {rest : List τ}

theorem tasksOf_proceed_self (h : tasksOf q k = first :: rest)
    (t : Option τ) : tasksOf (proceed k t q) k = t.toList ++ rest := by
  induction q with
  | nil => cases h
  | cons e q ih =>
    rw [tasksOf_cons] at h
    rw [proceed]
    by_cases he : e.1 = k
    · rw [if_pos he] at h ⊢
      injection h with _ hrest
      cases t with
      | none => exact hrest
      | some t =>
        refine (tasksOf_cons _ _ _).trans ?_
        rw [if_pos rfl]
        exact congrArg (t :: ·) hrest
    · rw [if_neg he] at h ⊢
      rw [tasksOf_cons, if_neg he]
      exact ih h

theorem mem_of_mem_proceed {u : Option τ} (h : e ∈ proceed k u q) :
    e ∈ q ∨ e.1 = k ∧ u = some e.2 := by
  induction q with
  | nil => exact Or.inl h
  | cons d q ih =>
    rw [proceed] at h
    split at h
    · rcases List.mem_append.mp h with hnew | hold
      · obtain ⟨t, hu, rfl⟩ := Option.map_eq_some_iff.mp (Option.mem_toList.mp hnew)
        exact Or.inr ⟨rfl, hu⟩
      · exact Or.inl (List.mem_cons_of_mem _ hold)
    · rcases List.mem_cons.mp h with rfl | hrest
      · exact Or.inl List.mem_cons_self
      · rcases ih hrest with hold | hnew
        · exact Or.inl (List.mem_cons_of_mem _ hold)
        · exact Or.inr hnew

theorem mem_proceed (h : tasksOf q k = first :: rest) (u : Option τ)
    (he : e ∈ q) : e ∈ proceed k u q ∨ e = (k, first) := by
  obtain ⟨j, v⟩ := e
  by_cases hk : j = k
  · subst hk
    have hmem : v ∈ tasksOf q j := mem_tasksOf.mpr he
    rw [h] at hmem
    rcases List.mem_cons.mp hmem with rfl | hrest
    · exact Or.inr rfl
    · left
      apply mem_tasksOf.mp
      rw [tasksOf_proceed_self h]
      exact List.mem_append_right _ hrest
  · left
    apply mem_tasksOf.mp
    rw [tasksOf_proceed_of_ne hk]
    exact mem_tasksOf.mpr he

theorem mem_proceed_some (h : tasksOf q k = first :: rest) (u : τ) :
    (k, u) ∈ proceed k (some u) q := by
  apply mem_tasksOf.mp
  rw [tasksOf_proceed_self h]
  exact List.mem_cons_self

end KeyedQueue

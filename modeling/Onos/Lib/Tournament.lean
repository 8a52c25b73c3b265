import Mathlib.Data.List.Basic

/-! The winner among the members of a list by a comparison of two, which need not be transitive: a
member that is better than every other one. One pass over the list finds it where there is one. -/
namespace Tournament

variable {α : Type*} (better : α → α → Bool)

def pick (best : Option α) (a : α) : Option α :=
  match best with
  | none => some a
  | some b => if better a b then some a else some b

def IsWinner (as : List α) (w : α) : Prop := w ∈ as ∧ ∀ a ∈ as, better w a = true

variable {better} {as : List α} {w : α}

theorem IsWinner.congr {bs : List α} (h : IsWinner better as w) (hsame : ∀ a, a ∈ as ↔ a ∈ bs) :
    IsWinner better bs w :=
  ⟨(hsame w).mp h.1, fun a ha => h.2 a ((hsame a).mpr ha)⟩

theorem foldl_pick_stays (h : ∀ a ∈ as, better a w = true → a = w) :
    as.foldl (pick better) (some w) = some w := by
  induction as with
  | nil => rfl
  | cons a as ih =>
    have hrest := ih fun b hb => h b (List.mem_cons_of_mem _ hb)
    rw [List.foldl_cons, pick]
    by_cases ha : better a w = true
    · rw [if_pos ha, h a List.mem_cons_self ha]
      exact hrest
    · rw [if_neg ha]
      exact hrest

theorem foldl_pick_of_isWinner {best : Option α} (hwins : IsWinner better as w)
    (honly : ∀ a ∈ as, better a w = true → a = w) (hbest : ∀ b, best = some b → better w b = true) :
    as.foldl (pick better) best = some w := by
  induction as generalizing best with
  | nil => exact absurd hwins.1 List.not_mem_nil
  | cons a as ih =>
    have honly' : ∀ b ∈ as, better b w = true → b = w :=
      fun b hb => honly b (List.mem_cons_of_mem _ hb)
    rw [List.foldl_cons]
    rcases List.mem_cons.mp hwins.1 with rfl | hmem
    · have hpick : pick better best w = some w := by
        cases hb : best with
        | none => rfl
        | some b => rw [pick, if_pos (hbest b hb)]
      rw [hpick]
      exact foldl_pick_stays honly'
    · refine ih ⟨hmem, fun b hb => hwins.2 b (List.mem_cons_of_mem _ hb)⟩ honly' ?_
      intro b hb
      have ha := hwins.2 a List.mem_cons_self
      cases hold : best with
      | none =>
        rw [hold] at hb
        cases hb
        exact ha
      | some old =>
        rw [hold, pick] at hb
        split at hb
        · cases hb
          exact ha
        · cases hb
          exact hbest _ hold

theorem foldl_pick_mem {best : Option α} {b : α} (h : as.foldl (pick better) best = some b) :
    b ∈ as ∨ best = some b := by
  induction as generalizing best with
  | nil => exact Or.inr h
  | cons a as ih =>
    rcases ih h with hmem | hpick
    · exact Or.inl (List.mem_cons_of_mem _ hmem)
    · cases hold : best with
      | none =>
        rw [hold] at hpick
        cases hpick
        exact Or.inl List.mem_cons_self
      | some old =>
        rw [hold, pick] at hpick
        split at hpick
        · cases hpick
          exact Or.inl List.mem_cons_self
        · exact Or.inr hpick

theorem isSome_foldl_pick {best : Option α} (h : best.isSome) :
    (as.foldl (pick better) best).isSome := by
  induction as generalizing best with
  | nil => exact h
  | cons a as ih =>
    apply ih
    cases best with
    | none => rfl
    | some b =>
      rw [pick]
      split <;> rfl

theorem foldl_pick_eq_none : as.foldl (pick better) none = none ↔ as = [] := by
  cases as with
  | nil => exact iff_of_true rfl rfl
  | cons a as =>
    refine iff_of_false ?_ (List.cons_ne_nil a as)
    intro hnone
    have hsome : (as.foldl (pick better) (some a)).isSome := isSome_foldl_pick rfl
    rw [show as.foldl (pick better) (some a) = none from hnone] at hsome
    cases hsome

section Lesser

variable {cmp : α → α → Ordering} {a b : α} {as : List α}

def lesser (cmp : α → α → Ordering) (a b : α) : α := if (cmp a b).isLE then a else b

theorem foldl_lesser_mem (cmp : α → α → Ordering) (a : α) (as : List α) :
    as.foldl (lesser cmp) a ∈ a :: as := by
  induction as generalizing a with
  | nil => exact List.mem_cons_self
  | cons b as ih =>
    rw [List.foldl_cons]
    have hmem := ih (lesser cmp a b)
    have hpick : lesser cmp a b = a ∨ lesser cmp a b = b := by
      unfold lesser
      split
      · exact Or.inl rfl
      · exact Or.inr rfl
    rcases List.mem_cons.mp hmem with heq | hrest
    · rw [heq]
      rcases hpick with h | h
      · rw [h]
        exact List.mem_cons_self
      · rw [h]
        exact List.mem_cons_of_mem _ List.mem_cons_self
    · exact List.mem_cons_of_mem _ (List.mem_cons_of_mem _ hrest)

theorem lesser_le [Std.TransCmp cmp] (a b : α) :
    (cmp (lesser cmp a b) a).isLE = true ∧ (cmp (lesser cmp a b) b).isLE = true := by
  unfold lesser
  by_cases h : (cmp a b).isLE = true
  · rw [if_pos h]
    exact ⟨Std.ReflCmp.isLE_rfl, h⟩
  · rw [if_neg h]
    refine ⟨?_, Std.ReflCmp.isLE_rfl⟩
    have hswap : cmp b a = (cmp a b).swap := Std.OrientedCmp.eq_swap
    rw [hswap]
    cases hcmp : cmp a b with
    | lt => simp [hcmp] at h
    | eq => simp [hcmp] at h
    | gt => rfl

theorem foldl_lesser_le (cmp : α → α → Ordering) [Std.TransCmp cmp] (a : α) (as : List α) :
    ∀ b ∈ a :: as, (cmp (as.foldl (lesser cmp) a) b).isLE = true := by
  induction as generalizing a with
  | nil =>
    intro b hb
    rw [List.mem_singleton.mp hb]
    exact Std.ReflCmp.isLE_rfl
  | cons c as ih =>
    intro b hb
    rw [List.foldl_cons]
    have hfirst := ih (lesser cmp a c) _ List.mem_cons_self
    rcases List.mem_cons.mp hb with rfl | hb
    · exact Std.TransCmp.isLE_trans hfirst (lesser_le b c).1
    · rcases List.mem_cons.mp hb with rfl | hb
      · exact Std.TransCmp.isLE_trans hfirst (lesser_le a b).2
      · exact ih _ b (List.mem_cons_of_mem _ hb)

end Lesser

end Tournament

import Mathlib.Data.List.Basic

/-! Mapping a function that can fail over a list: the first failure is the result. -/
namespace FailingMap

variable {α β ε : Type*} {f : α → Except ε β} {l : List α}

theorem mapM_ok (h : ∀ a ∈ l, ∃ b, f a = .ok b) :
    ∃ bs, l.mapM f = .ok bs ∧ ∀ b, b ∈ bs ↔ ∃ a ∈ l, f a = .ok b := by
  induction l with
  | nil => exact ⟨[], rfl, by simp⟩
  | cons a l ih =>
    obtain ⟨b, hb⟩ := h a List.mem_cons_self
    obtain ⟨bs, hbs, hmem⟩ := ih fun a' ha' => h a' (List.mem_cons_of_mem a ha')
    refine ⟨b :: bs, ?_, ?_⟩
    · rw [List.mapM_cons, hb, hbs]
      rfl
    · intro b'
      rw [List.mem_cons, hmem, List.exists_mem_cons_iff, hb, Except.ok.injEq, eq_comm]

/-- A relation that each element has to its result gives every element a result and every result an
element. -/
theorem mapM_related {R : α → β → Prop} (h : ∀ a ∈ l, ∃ b, f a = .ok b ∧ R a b) :
    ∃ bs, l.mapM f = .ok bs ∧ (∀ b ∈ bs, ∃ a ∈ l, R a b) ∧ ∀ a ∈ l, ∃ b ∈ bs, R a b := by
  obtain ⟨bs, hbs, hmem⟩ := mapM_ok fun a ha => (h a ha).imp fun _ hb => hb.1
  refine ⟨bs, hbs, fun b hb => ?_, fun a ha => ?_⟩
  · obtain ⟨a, ha, hab⟩ := (hmem b).mp hb
    obtain ⟨b', hab', hrel⟩ := h a ha
    rw [hab] at hab'
    exact ⟨a, ha, Except.ok.inj hab' ▸ hrel⟩
  · obtain ⟨b, hab, hrel⟩ := h a ha
    exact ⟨b, (hmem b).mpr ⟨a, ha, hab⟩, hrel⟩

theorem forall₂_of_mapM {bs : List β} (h : l.mapM f = .ok bs) :
    List.Forall₂ (fun a b => f a = .ok b) l bs := by
  induction l generalizing bs with
  | nil =>
    obtain rfl := Except.ok.inj h
    exact List.Forall₂.nil
  | cons a l ih =>
    rw [List.mapM_cons] at h
    cases hfa : f a with
    | error e =>
      rw [hfa] at h
      cases h
    | ok first =>
      cases hrest : l.mapM f with
      | error e =>
        rw [hfa, hrest] at h
        cases h
      | ok rest =>
        rw [hfa, hrest] at h
        obtain rfl := Except.ok.inj h
        exact List.Forall₂.cons hfa (ih hrest)

theorem mem_of_mapM {bs : List β} (h : l.mapM f = .ok bs) {b : β} (hb : b ∈ bs) :
    ∃ a ∈ l, f a = .ok b := by
  have hall := forall₂_of_mapM h
  clear h
  induction hall with
  | nil => cases hb
  | @cons a first l rest ha hrest ih =>
    rcases List.mem_cons.mp hb with rfl | hb
    · exact ⟨a, List.mem_cons_self, ha⟩
    · obtain ⟨a', ha', hb⟩ := ih hb
      exact ⟨a', List.mem_cons_of_mem a ha', hb⟩

theorem exists_of_mapM_error {e : ε} (h : l.mapM f = .error e) : ∃ a ∈ l, f a = .error e := by
  induction l with
  | nil => cases h
  | cons a l ih =>
    rw [List.mapM_cons] at h
    cases hfa : f a with
    | error e' =>
      rw [hfa] at h
      obtain rfl := Except.error.inj h
      exact ⟨a, List.mem_cons_self, hfa⟩
    | ok first =>
      cases hrest : l.mapM f with
      | ok rest =>
        rw [hfa, hrest] at h
        cases h
      | error e' =>
        rw [hfa, hrest] at h
        obtain rfl := Except.error.inj h
        obtain ⟨a', ha', hfa'⟩ := ih hrest
        exact ⟨a', List.mem_cons_of_mem a ha', hfa'⟩

theorem mapM_fails (h : ∃ a ∈ l, ∃ e, f a = .error e) : ∃ e, l.mapM f = .error e := by
  induction l with
  | nil =>
    obtain ⟨a, ha, -⟩ := h
    cases ha
  | cons a l ih =>
    rw [List.mapM_cons]
    cases hfa : f a with
    | error e => exact ⟨e, rfl⟩
    | ok b =>
      obtain ⟨a', ha', e', he'⟩ := h
      rcases List.mem_cons.mp ha' with rfl | ha'
      · rw [hfa] at he'
        cases he'
      · obtain ⟨e, he⟩ := ih ⟨a', ha', e', he'⟩
        exact ⟨e, by rw [he]; rfl⟩

theorem flatten_ok {γ : Type*} {f : α → Except ε (List γ)} {R : α → γ → Prop}
    (h : ∀ a ∈ l, ∃ cs, f a = .ok cs ∧ ∀ c, c ∈ cs ↔ R a c) :
    ∃ cs, (l.mapM f).map List.flatten = .ok cs ∧ ∀ c, c ∈ cs ↔ ∃ a ∈ l, R a c := by
  obtain ⟨lists, hlists, hmem⟩ := mapM_ok fun a ha => (h a ha).imp fun _ hcs => hcs.1
  refine ⟨lists.flatten, by rw [hlists]; rfl, fun c => ?_⟩
  rw [List.mem_flatten]
  constructor
  · rintro ⟨cs, hcs, hc⟩
    obtain ⟨a, ha, hok⟩ := (hmem cs).mp hcs
    obtain ⟨cs', hok', hmem'⟩ := h a ha
    obtain rfl := Except.ok.inj (hok.symm.trans hok')
    exact ⟨a, ha, (hmem' c).mp hc⟩
  · rintro ⟨a, ha, hc⟩
    obtain ⟨cs, hok, hmem'⟩ := h a ha
    exact ⟨cs, (hmem cs).mpr ⟨a, ha, hok⟩, (hmem' c).mpr hc⟩

end FailingMap

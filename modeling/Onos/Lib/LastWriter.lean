import Mathlib.Data.Set.Insert

/-! Registers that keep the entry with the greatest stamp. An arriving entry replaces the held
one only when its stamp is strictly greater, so the first of two entries of one stamp stays. -/
namespace LastWriter

variable {α τ : Type*} [LinearOrder τ] (stamp : α → τ)

def take (held : Option α) (a : α) : Option α :=
  match held with
  | none => some a
  | some b => if stamp b < stamp a then some a else some b

def takeAll (held : Option α) (arrived : List α) : Option α := arrived.foldl (take stamp) held

/-- `held` is an entry of `S` with the greatest stamp, or nothing when there is none. -/
structure IsNewest (S : Set α) (held : Option α) : Prop where
  mem : ∀ b, held = some b → b ∈ S
  newest : ∀ a ∈ S, ∃ b, held = some b ∧ stamp a ≤ stamp b

def Distinct (S : Set α) : Prop := ∀ a ∈ S, ∀ b ∈ S, stamp a = stamp b → a = b

variable {stamp}

theorem take_of_lt {a b : α} (h : stamp b < stamp a) : take stamp (some b) a = some a :=
  if_pos h

theorem take_of_le {a b : α} (h : stamp a ≤ stamp b) : take stamp (some b) a = some b :=
  if_neg (not_lt.mpr h)

variable {held : Option α}

theorem take_eq_some {a b : α} (h : take stamp held a = some b) : held = some b ∨ b = a := by
  cases held with
  | none => exact Or.inr (Option.some.inj h).symm
  | some c =>
    unfold take at h
    dsimp only at h
    split_ifs at h
    · exact Or.inr (Option.some.inj h).symm
    · exact Or.inl h

theorem le_take (held : Option α) (a : α) : ∃ b, take stamp held a = some b ∧ stamp a ≤ stamp b := by
  cases held with
  | none => exact ⟨a, rfl, le_rfl⟩
  | some c =>
    rcases lt_or_ge (stamp c) (stamp a) with h | h
    · exact ⟨a, take_of_lt h, le_rfl⟩
    · exact ⟨c, take_of_le h, h⟩

theorem take_mono {c : α} (hc : held = some c) (a : α) :
    ∃ b, take stamp held a = some b ∧ stamp c ≤ stamp b := by
  subst hc
  rcases lt_or_ge (stamp c) (stamp a) with h | h
  · exact ⟨a, take_of_lt h, h.le⟩
  · exact ⟨c, take_of_le h, le_rfl⟩

variable {S : Set α}

theorem isNewest_take (h : IsNewest stamp S held) (a : α) :
    IsNewest stamp (insert a S) (take stamp held a) := by
  constructor
  · intro b hb
    rcases take_eq_some hb with hold | rfl
    · exact Set.mem_insert_of_mem _ (h.mem b hold)
    · exact Set.mem_insert _ _
  · intro c hc
    rcases hc with rfl | hc
    · exact le_take held c
    · obtain ⟨b, hb, hle⟩ := h.newest c hc
      obtain ⟨d, hd, hle'⟩ : ∃ d, take stamp held a = some d ∧ stamp b ≤ stamp d :=
        take_mono hb a
      exact ⟨d, hd, hle.trans hle'⟩

theorem isNewest_takeAll (h : IsNewest stamp S held)
    (arrived : List α) : IsNewest stamp (S ∪ {a | a ∈ arrived}) (takeAll stamp held arrived) := by
  induction arrived generalizing S held with
  | nil => simpa [takeAll] using h
  | cons a arrived ih =>
    have hall := ih (isNewest_take h a)
    have hset : insert a S ∪ {b | b ∈ arrived} = S ∪ {b | b ∈ a :: arrived} := by
      ext b
      simp [or_assoc, or_left_comm]
    rwa [hset] at hall

theorem takeAll_some (c : α) (arrived : List α) : ∃ d, takeAll stamp (some c) arrived = some d ∧
    (d = c ∨ (stamp c < stamp d ∧ d ∈ arrived)) := by
  induction arrived generalizing c with
  | nil => exact ⟨c, rfl, Or.inl rfl⟩
  | cons a arrived ih =>
    rcases lt_or_ge (stamp c) (stamp a) with h | h
    · obtain ⟨d, hd, hcase⟩ := ih a
      refine ⟨d, ?_, Or.inr ?_⟩
      · rw [takeAll, List.foldl_cons, take_of_lt h]
        exact hd
      · rcases hcase with rfl | ⟨hlt, hmem⟩
        · exact ⟨h, List.mem_cons_self⟩
        · exact ⟨h.trans hlt, List.mem_cons_of_mem _ hmem⟩
    · obtain ⟨d, hd, hcase⟩ := ih c
      refine ⟨d, ?_, hcase.imp_right fun hlt => ⟨hlt.1, List.mem_cons_of_mem _ hlt.2⟩⟩
      rw [takeAll, List.foldl_cons, take_of_le h]
      exact hd

theorem isNewest_held (held : Option α) : IsNewest stamp {a | held = some a} held :=
  ⟨fun _ h => h, fun a h => ⟨a, h, le_rfl⟩⟩

theorem isNewest_unique (hd : Distinct stamp S) {held held' : Option α}
    (h : IsNewest stamp S held) (h' : IsNewest stamp S held') : held = held' := by
  cases held with
  | none =>
    cases held' with
    | none => rfl
    | some b =>
      obtain ⟨c, hc, _⟩ := h.newest b (h'.mem b rfl)
      cases hc
  | some a =>
    obtain ⟨b, rfl, hab⟩ := h'.newest a (h.mem a rfl)
    obtain ⟨c, hc, hba⟩ := h.newest b (h'.mem b rfl)
    cases hc
    rw [hd a (h.mem a rfl) b (h'.mem b rfl) (le_antisymm hab hba)]

end LastWriter

import Mathlib.Data.List.Basic

/-! Programs that go from state to state and may end early, with or without a last state. A loop is
a fold of its step. -/
namespace FallibleRun

variable {σ ι ε : Type*}

/-- What a program ensures: of the next state, or of the way it ends early. -/
structure Ensures (r : Except ε σ) (post : σ → Prop) (ends : ε → Prop) : Prop where
  ok : ∀ {s}, r = .ok s → post s
  error : ∀ {e}, r = .error e → ends e

/-- Each step of the loop that is taken meets the condition in the state in which it is taken. -/
def Meets (step : σ → ι → Except ε σ) (ok : σ → ι → Prop) : σ → List ι → Prop
  | _, [] => True
  | s, x :: xs => ok s x ∧ ∀ s', step s x = .ok s' → Meets step ok s' xs

def Returns (final : ε → Option σ) (r : Except ε σ) (s : σ) : Prop :=
  r = .ok s ∨ ∃ e, r = .error e ∧ final e = some s

def Decides (final : ε → Option σ) (good : σ → Prop) (s : σ) (r : Except ε σ) (met : Prop) : Prop :=
  ∀ s', Returns final r s' → (good s' ↔ good s ∧ met)

section Values

variable {α β : Type*}

theorem bind_eq_ok {a : Except ε α} {p : α → Except ε β} {b : β} :
    a.bind p = .ok b ↔ ∃ x, a = .ok x ∧ p x = .ok b := by
  cases a with
  | error e => simp [Except.bind]
  | ok x => simp [Except.bind]

theorem map_eq_ok {a : Except ε α} {f : α → β} {b : β} :
    a.map f = .ok b ↔ ∃ x, a = .ok x ∧ f x = b := by
  cases a with
  | error e => simp [Except.map]
  | ok x => simp [Except.map]

theorem mapError_eq_ok {ε' : Type*} {a : Except ε α} {f : ε → ε'} {b : α} :
    a.mapError f = .ok b ↔ a = .ok b := by
  cases a with
  | error e => simp [Except.mapError]
  | ok x => simp [Except.mapError]

theorem map_eq_error {a : Except ε α} {f : α → β} {e : ε} : a.map f = .error e ↔ a = .error e := by
  cases a with
  | error e => simp [Except.map]
  | ok x => simp [Except.map]

end Values

section Ensuring

variable {post mid : σ → Prop} {ends : ε → Prop} {r : Except ε σ}

theorem ensures_ok {s : σ} (h : post s) : Ensures (.ok s) post ends :=
  ⟨fun hr => Except.ok.inj hr ▸ h, fun hr => by cases hr⟩

theorem ensures_error {e : ε} (h : ends e) : Ensures (.error e) post ends :=
  ⟨fun hr => (by cases hr), fun hr => Except.error.inj hr ▸ h⟩

theorem Ensures.bind_of {α : Type*} {a : Except ε α} {p : α → Except ε σ}
    (ha : ∀ e, a = .error e → ends e) (hp : ∀ x, a = .ok x → Ensures (p x) post ends) :
    Ensures (a.bind p) post ends := by
  cases a with
  | ok x => exact hp x rfl
  | error e => exact ensures_error (ha e rfl)

theorem Ensures.bind {p : σ → Except ε σ} (h : Ensures r mid ends)
    (hp : ∀ s, r = .ok s → mid s → Ensures (p s) post ends) : Ensures (r.bind p) post ends :=
  Ensures.bind_of (fun _ hr => h.error hr) fun s hr => hp s hr (h.ok hr)

theorem Ensures.map_of {α : Type*} {a : Except ε α} {f : α → σ}
    (ha : ∀ e, a = .error e → ends e) (hf : ∀ x, a = .ok x → post (f x)) :
    Ensures (a.map f) post ends := by
  cases a with
  | ok x => exact ensures_ok (hf x rfl)
  | error e => exact ensures_error (ha e rfl)

theorem Ensures.map {f : σ → σ} (h : Ensures r mid ends) (hf : ∀ s, mid s → post (f s)) :
    Ensures (r.map f) post ends :=
  Ensures.map_of (fun _ hr => h.error hr) fun s hr => hf s (h.ok hr)

theorem Ensures.foldlM {step : σ → ι → Except ε σ} {xs : List ι}
    (hstep : ∀ s, ∀ x ∈ xs, post s → Ensures (step s x) post ends) {s : σ} (h : post s) :
    Ensures (xs.foldlM step s) post ends := by
  induction xs generalizing s with
  | nil => exact ensures_ok h
  | cons x xs ih =>
    rw [List.foldlM_cons]
    refine Ensures.bind (hstep s x List.mem_cons_self h) fun s' _ hs' => ?_
    exact ih (fun t y hy => hstep t y (List.mem_cons_of_mem x hy)) hs'

end Ensuring

section Returning

variable {final : ε → Option σ} {s s' : σ} {e : ε}

@[simp] theorem returns_ok : Returns final (.ok s) s' ↔ s = s' := by
  simp [Returns]

@[simp] theorem returns_error : Returns final (.error e) s' ↔ final e = some s' := by
  simp [Returns]

end Returning

section Deciding

variable {final : ε → Option σ} {good : σ → Prop} {s : σ} {r : Except ε σ} {met met' : Prop}

theorem Decides.congr (h : Decides final good s r met) (hmet : met ↔ met') :
    Decides final good s r met' := by
  intro s' hs'
  rw [h s' hs', hmet]

variable {s' : σ}

theorem decides_ok (h : good s' ↔ good s ∧ met) : Decides final good s (.ok s') met := by
  intro t ht
  obtain rfl := returns_ok.mp ht
  exact h

theorem decides_error {e : ε} (h : ∀ s', final e = some s' → (good s' ↔ good s ∧ met)) :
    Decides final good s (.error e) met :=
  fun s' hs' => h s' (returns_error.mp hs')

theorem decides_of_ok (hfinal : ∀ e, r = .error e → final e = none)
    (h : ∀ s', r = .ok s' → (good s' ↔ good s ∧ met)) : Decides final good s r met := by
  cases r with
  | ok s₁ => exact decides_ok (h s₁ rfl)
  | error e =>
    refine decides_error fun s' hs' => ?_
    rw [hfinal e rfl] at hs'
    cases hs'

theorem Decides.of_start {s₀ : σ} (h : Decides final good s₀ r met) (hs : good s₀ ↔ good s) :
    Decides final good s r met := by
  intro s' hs'
  rw [h s' hs', hs]

theorem Decides.map {f : σ → σ} (h : Decides final good s r met) (hf : ∀ s, good (f s) ↔ good s) :
    Decides final good s (r.map f) met := by
  intro s' hs'
  cases r with
  | ok s₁ =>
    obtain rfl := returns_ok.mp hs'
    rw [hf, h s₁ (returns_ok.mpr rfl)]
  | error e => exact h s' (returns_error.mpr (returns_error.mp hs'))

theorem Decides.bind_of {α : Type*} {a : Except ε α} {p : α → Except ε σ} {met : α → Prop}
    (ha : ∀ e, a = .error e → final e = none)
    (hp : ∀ x, a = .ok x → Decides final good s (p x) (met x)) :
    Decides final good s (a.bind p) (∀ x, a = .ok x → met x) := by
  intro s' hs'
  cases a with
  | ok x =>
    rw [hp x rfl s' hs']
    simp
  | error e =>
    rw [Except.bind, returns_error, ha e rfl] at hs'
    cases hs'

theorem Decides.bind {p : σ → Except ε σ} {met' : σ → Prop} (h : Decides final good s r met)
    (hp : ∀ s', r = .ok s' → Decides final good s' (p s') (met' s')) :
    Decides final good s (r.bind p) (met ∧ ∀ s', r = .ok s' → met' s') := by
  intro t ht
  cases r with
  | ok s₁ =>
    rw [hp s₁ rfl t ht, h s₁ (returns_ok.mpr rfl), and_assoc]
    refine and_congr_right fun _ => and_congr_right fun _ => ?_
    constructor
    · rintro hmet s' hs'
      exact Except.ok.inj hs' ▸ hmet
    · intro hall
      exact hall s₁ rfl
  | error e =>
    rw [h t (returns_error.mpr (returns_error.mp ht))]
    refine and_congr_right fun _ => (and_iff_left ?_).symm
    rintro s' hs'
    cases hs'

variable {step : σ → ι → Except ε σ} {xs : List ι}

theorem Decides.foldlM (inv : σ → Prop) {ok : σ → ι → Prop}
    (hinv : ∀ s, ∀ x ∈ xs, inv s → Ensures (step s x) inv fun _ => True)
    (hstep : ∀ s, ∀ x ∈ xs, inv s → Decides final good s (step s x) (ok s x)) (h : inv s) :
    Decides final good s (xs.foldlM step s) (Meets step ok s xs) := by
  induction xs generalizing s with
  | nil =>
    intro s' hs'
    obtain rfl := returns_ok.mp hs'
    exact (and_iff_left trivial).symm
  | cons x xs ih =>
    rw [List.foldlM_cons]
    refine Decides.bind (hstep s x List.mem_cons_self h) fun s' hs' => ?_
    refine ih (fun t y hy => hinv t y (List.mem_cons_of_mem x hy))
      (fun t y hy => hstep t y (List.mem_cons_of_mem x hy)) ?_
    exact (hinv s x List.mem_cons_self h).ok hs'

theorem Decides.foldlM_of {ok : σ → ι → Prop}
    (hstep : ∀ s, ∀ x ∈ xs, Decides final good s (step s x) (ok s x)) :
    Decides final good s (xs.foldlM step s) (Meets step ok s xs) := by
  refine Decides.foldlM (fun _ => True) (fun s x _ _ => ?_) (fun s x hx _ => hstep s x hx)
    trivial
  exact ⟨fun _ => trivial, fun _ => trivial⟩

theorem meets_true : Meets step (fun _ _ => True) s xs := by
  induction xs generalizing s with
  | nil => trivial
  | cons x xs ih => exact ⟨trivial, fun _ _ => ih⟩

theorem Meets.keeps {ok : σ → ι → Prop} {inv : σ → Prop}
    (hstep : ∀ s x s', ok s x → step s x = .ok s' → inv s → inv s')
    (hmeets : Meets step ok s xs) (h : xs.foldlM step s = .ok s') (hs : inv s) : inv s' := by
  induction xs generalizing s with
  | nil => exact Except.ok.inj h ▸ hs
  | cons x xs ih =>
    rw [List.foldlM_cons] at h
    obtain ⟨s₁, hx, hrest⟩ := bind_eq_ok.mp h
    exact ih (hmeets.2 s₁ hx) hrest (hstep s x s₁ hmeets.1 hx hs)

theorem meets_iff_forall {ok : ι → Prop}
    (h : xs.foldlM step s = .ok s') : Meets step (fun _ => ok) s xs ↔ ∀ x ∈ xs, ok x := by
  induction xs generalizing s with
  | nil => simp [Meets]
  | cons x xs ih =>
    rw [List.foldlM_cons] at h
    obtain ⟨s₁, hstep, hrest⟩ := bind_eq_ok.mp h
    rw [Meets, List.forall_mem_cons, ← ih hrest]
    refine and_congr_right fun _ => ?_
    simp [hstep]

end Deciding

end FallibleRun

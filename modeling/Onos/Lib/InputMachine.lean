import Mathlib.Data.List.Basic

/-! Machines driven by inputs. A run is the list of inputs that were handled, in order;
an input is handled only in a state that enables it. A guard narrows the enabled inputs
and leaves the transition function alone, so "every step of the run meets a condition"
is a run of the guarded machine. -/
namespace InputMachine

structure Machine (σ ι : Type*) where
  initial : σ
  enabled : σ → ι → Prop
  next : σ → ι → σ

variable {σ ι : Type*} (M : Machine σ ι)

def Machine.run (s : σ) (xs : List ι) : σ := xs.foldl M.next s

def Machine.Valid (s : σ) : List ι → Prop
  | [] => True
  | x :: xs => M.enabled s x ∧ Machine.Valid (M.next s x) xs

def Machine.Reachable (s : σ) : Prop := ∃ xs, M.Valid M.initial xs ∧ M.run M.initial xs = s

def Machine.guarded (ok : σ → ι → Prop) : Machine σ ι :=
  { M with enabled := fun s x => M.enabled s x ∧ ok s x }

@[simp] theorem run_nil (s : σ) : M.run s [] = s := rfl

@[simp] theorem run_cons (s : σ) (x : ι) (xs : List ι) :
    M.run s (x :: xs) = M.run (M.next s x) xs := rfl

@[simp] theorem run_append (s : σ) (xs ys : List ι) :
    M.run s (xs ++ ys) = M.run (M.run s xs) ys := by simp [Machine.run]

@[simp] theorem valid_nil (s : σ) : M.Valid s [] := trivial

@[simp] theorem valid_cons (s : σ) (x : ι) (xs : List ι) :
    M.Valid s (x :: xs) ↔ M.enabled s x ∧ M.Valid (M.next s x) xs := Iff.rfl

@[simp] theorem valid_append (s : σ) (xs ys : List ι) :
    M.Valid s (xs ++ ys) ↔ M.Valid s xs ∧ M.Valid (M.run s xs) ys := by
  induction xs generalizing s with
  | nil => simp
  | cons x xs ih => simp [ih, and_assoc]

@[simp] theorem guarded_next (ok : σ → ι → Prop) : (M.guarded ok).next = M.next := rfl

@[simp] theorem guarded_enabled (ok : σ → ι → Prop) (s : σ) (x : ι) :
    (M.guarded ok).enabled s x ↔ M.enabled s x ∧ ok s x := Iff.rfl

@[simp] theorem guarded_run (ok : σ → ι → Prop) (s : σ) (xs : List ι) :
    (M.guarded ok).run s xs = M.run s xs := rfl

instance decidableValid [∀ s x, Decidable (M.enabled s x)] :
    (s : σ) → (xs : List ι) → Decidable (M.Valid s xs)
  | _, [] => isTrue trivial
  | s, x :: xs =>
    have := decidableValid (M.next s x) xs
    inferInstanceAs (Decidable (M.enabled s x ∧ M.Valid (M.next s x) xs))

instance decidableGuarded (ok : σ → ι → Prop) (s : σ) (x : ι) [Decidable (M.enabled s x)]
    [Decidable (ok s x)] : Decidable ((M.guarded ok).enabled s x) :=
  inferInstanceAs (Decidable (M.enabled s x ∧ ok s x))

variable {M}

theorem Machine.Valid.guarded_and {p q : σ → ι → Prop} {s : σ} {xs : List ι}
    (hp : (M.guarded p).Valid s xs) (hq : (M.guarded q).Valid s xs) :
    ((M.guarded p).guarded q).Valid s xs := by
  induction xs generalizing s with
  | nil => trivial
  | cons x xs ih => exact ⟨⟨hp.1, hq.1.2⟩, ih hp.2 hq.2⟩

theorem Machine.Valid.guarded_mono {p q : σ → ι → Prop} (h : ∀ s x, p s x → q s x) {s : σ}
    {xs : List ι} (hv : (M.guarded p).Valid s xs) : (M.guarded q).Valid s xs := by
  induction xs generalizing s with
  | nil => trivial
  | cons x xs ih => exact ⟨⟨hv.1.1, h s x hv.1.2⟩, ih hv.2⟩

theorem guarded_or_breaks (ok : σ → ι → Prop) {s : σ} {xs : List ι} (hv : M.Valid s xs) :
    (M.guarded ok).Valid s xs ∨ ∃ ys x zs, xs = ys ++ x :: zs ∧ ¬ ok (M.run s ys) x := by
  induction xs generalizing s with
  | nil => exact Or.inl trivial
  | cons x xs ih =>
    by_cases hx : ok s x
    · rcases ih hv.2 with h | ⟨ys, y, zs, rfl, hy⟩
      · exact Or.inl ⟨⟨hv.1, hx⟩, h⟩
      · exact Or.inr ⟨x :: ys, y, zs, rfl, hy⟩
    · exact Or.inr ⟨[], x, xs, rfl, hx⟩

theorem invariant_run (Inv : σ → Prop) (hstep : ∀ s x, Inv s → M.enabled s x → Inv (M.next s x))
    {s : σ} {xs : List ι} (hv : M.Valid s xs) (h : Inv s) : Inv (M.run s xs) := by
  induction xs generalizing s with
  | nil => exact h
  | cons x xs ih => exact ih hv.2 (hstep s x h hv.1)

theorem valid_of_enabled (h : ∀ s x, M.enabled s x) (s : σ) (xs : List ι) : M.Valid s xs := by
  induction xs generalizing s with
  | nil => trivial
  | cons x xs ih => exact ⟨h s x, ih (M.next s x)⟩

/-- When a guard says exactly which steps preserve an invariant, the runs that keep it
throughout are the guarded ones. -/
theorem invariant_iff_of {ok : σ → ι → Prop} (Base Inv : σ → Prop)
    (hbase : ∀ s x, Base s → M.enabled s x → Base (M.next s x))
    (hstep : ∀ s x, Base s → Inv s → M.enabled s x → (Inv (M.next s x) ↔ ok s x)) {s : σ}
    {xs : List ι} (hv : M.Valid s xs) (hs : Base s) (h : Inv s) :
    (∀ ys, ys <+: xs → Inv (M.run s ys)) ↔ (M.guarded ok).Valid s xs := by
  induction xs generalizing s with
  | nil =>
    refine ⟨fun _ => trivial, fun _ ys hys => ?_⟩
    rw [List.prefix_nil.mp hys]
    exact h
  | cons x xs ih =>
    have hs' := hbase s x hs hv.1
    constructor
    · intro hall
      have hnext : Inv (M.next s x) := hall [x] (List.prefix_append [x] xs)
      refine ⟨⟨hv.1, (hstep s x hs h hv.1).mp hnext⟩, (ih hv.2 hs' hnext).mp fun ys hys => ?_⟩
      exact hall (x :: ys) (List.prefix_cons_iff.mpr (Or.inr ⟨ys, rfl, hys⟩))
    · rintro ⟨⟨_, hok⟩, hrest⟩ ys hys
      rcases List.prefix_cons_iff.mp hys with rfl | ⟨zs, rfl, hzs⟩
      · exact h
      · exact (ih hv.2 hs' ((hstep s x hs h hv.1).mpr hok)).mpr hrest zs hzs

theorem invariant_iff {ok : σ → ι → Prop} (Inv : σ → Prop)
    (hstep : ∀ s x, Inv s → M.enabled s x → (Inv (M.next s x) ↔ ok s x)) {s : σ} {xs : List ι}
    (hv : M.Valid s xs) (h : Inv s) :
    (∀ ys, ys <+: xs → Inv (M.run s ys)) ↔ (M.guarded ok).Valid s xs :=
  invariant_iff_of (fun _ => True) Inv (fun _ _ _ _ => trivial) (fun s x _ => hstep s x) hv trivial h

theorem guarded_iff {p q : σ → ι → Prop} (Inv : σ → Prop)
    (hinv : ∀ s x, Inv s → M.enabled s x → Inv (M.next s x))
    (hiff : ∀ s x, Inv s → M.enabled s x → (p s x ↔ q s x)) {s : σ} {xs : List ι}
    (hv : M.Valid s xs) (h : Inv s) : (M.guarded p).Valid s xs ↔ (M.guarded q).Valid s xs := by
  induction xs generalizing s with
  | nil => exact Iff.rfl
  | cons x xs ih =>
    have hrest := ih hv.2 (hinv s x h hv.1)
    exact ⟨fun ⟨⟨hx, hp⟩, hxs⟩ => ⟨⟨hx, (hiff s x h hx).mp hp⟩, hrest.mp hxs⟩,
      fun ⟨⟨hx, hq⟩, hxs⟩ => ⟨⟨hx, (hiff s x h hx).mpr hq⟩, hrest.mpr hxs⟩⟩

theorem invariant_reachable (Inv : σ → Prop) (hinit : Inv M.initial)
    (hstep : ∀ s x, Inv s → M.enabled s x → Inv (M.next s x))
    {s : σ} (h : M.Reachable s) : Inv s := by
  obtain ⟨xs, hv, rfl⟩ := h
  exact invariant_run Inv hstep hv hinit

/-- A reflexive and transitive relation that every step respects, for states satisfying an
invariant, relates the two ends of a run. -/
theorem relation_run (Inv : σ → Prop) (R : σ → σ → Prop) (hrefl : ∀ s, R s s)
    (htrans : ∀ a b c, R a b → R b c → R a c)
    (hinv : ∀ s x, Inv s → M.enabled s x → Inv (M.next s x))
    (hstep : ∀ s x, Inv s → M.enabled s x → R s (M.next s x))
    {s : σ} {xs : List ι} (hv : M.Valid s xs) (h : Inv s) : R s (M.run s xs) := by
  induction xs generalizing s with
  | nil => exact hrefl s
  | cons x xs ih => exact htrans _ _ _ (hstep s x h hv.1) (ih hv.2 (hinv s x h hv.1))

theorem established_run (Inv P : σ → Prop) {y : ι}
    (hinv : ∀ s x, Inv s → M.enabled s x → Inv (M.next s x))
    (hkeep : ∀ s x, Inv s → M.enabled s x → P s → P (M.next s x))
    (hmake : ∀ s, Inv s → M.enabled s y → P (M.next s y))
    {s : σ} {xs : List ι} (hv : M.Valid s xs) (h : Inv s) (hy : y ∈ xs) : P (M.run s xs) := by
  have hkept : ∀ {t : σ} {zs : List ι}, M.Valid t zs → Inv t → P t → P (M.run t zs) :=
    fun ht hi hp => (invariant_run (fun u => Inv u ∧ P u)
      (fun u x hu hx => ⟨hinv u x hu.1 hx, hkeep u x hu.1 hx hu.2⟩) ht ⟨hi, hp⟩).2
  induction xs generalizing s with
  | nil => exact absurd hy List.not_mem_nil
  | cons x xs ih =>
    have hnext := hinv s x h hv.1
    rcases List.mem_cons.mp hy with rfl | hy
    · have hrest : P (M.run (M.next s y) xs) := hkept hv.2 hnext (hmake s h hv.1)
      exact hrest
    · exact ih hv.2 hnext hy

end InputMachine

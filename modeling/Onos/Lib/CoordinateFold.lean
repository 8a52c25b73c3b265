import Mathlib.Data.List.Nodup

/-! Loops that visit keys and change one coordinate per visit. What a visit does to its own
coordinate may depend on that coordinate alone, so a loop over distinct keys does it once to
every key it visits. -/
namespace CoordinateFold

variable {σ ι κ ν : Type*}

/-- On states satisfying `P`, the visit of `i` changes the coordinate `key i` of the view by `f i`
and leaves the other coordinates alone. -/
structure ActsAt (P : σ → Prop) (view : σ → κ → ν) (act : σ → ι → σ) (key : ι → κ)
    (f : ι → ν → ν) : Prop where
  keeps : ∀ s i, P s → P (act s i)
  at_key : ∀ s i, P s → view (act s i) (key i) = f i (view s (key i))
  elsewhere : ∀ s i j, P s → j ≠ key i → view (act s i) j = view s j

/-- On states satisfying `P`, visiting `k` changes the coordinate `k` of the view by `f k` and
leaves the other coordinates alone. -/
structure ActsOn (P : σ → Prop) (view : σ → κ → ν) (act : σ → κ → σ) (f : κ → ν → ν) :
    Prop where
  keeps : ∀ s k, P s → P (act s k)
  at_key : ∀ s k, P s → view (act s k) k = f k (view s k)
  elsewhere : ∀ s k j, P s → j ≠ k → view (act s k) j = view s j

variable {P : σ → Prop} {view : σ → κ → ν}

section At

variable {act : σ → ι → σ} {key : ι → κ} {f : ι → ν → ν}

section

variable (h : ActsAt P view act key f)

include h

theorem ActsAt.foldl_keeps (is : List ι) {s : σ} (hs : P s) : P (is.foldl act s) := by
  induction is generalizing s with
  | nil => exact hs
  | cons i is ih => exact ih (h.keeps s i hs)

theorem ActsAt.foldl_of_notMem {is : List ι} {j : κ}
    (hj : ∀ i ∈ is, key i ≠ j) {s : σ} (hs : P s) : view (is.foldl act s) j = view s j := by
  induction is generalizing s with
  | nil => rfl
  | cons i is ih =>
    rw [List.forall_mem_cons] at hj
    exact (ih hj.2 (h.keeps s i hs)).trans (h.elsewhere s i j hs (Ne.symm hj.1))

theorem ActsAt.foldl_of_mem {is : List ι}
    (his : (is.map key).Nodup) {i : ι} (hi : i ∈ is) {s : σ} (hs : P s) :
    view (is.foldl act s) (key i) = f i (view s (key i)) := by
  induction is generalizing s with
  | nil => exact absurd hi List.not_mem_nil
  | cons first is ih =>
    rw [List.map_cons, List.nodup_cons] at his
    have hkept := h.keeps s first hs
    rcases List.mem_cons.mp hi with rfl | hi
    · have hother : ∀ i' ∈ is, key i' ≠ key i :=
        fun i' hi' hsame => his.1 (hsame ▸ List.mem_map_of_mem hi')
      exact (h.foldl_of_notMem hother hkept).trans (h.at_key s i hs)
    · have hne : key i ≠ key first := fun hsame => his.1 (hsame ▸ List.mem_map_of_mem hi)
      rw [← h.elsewhere s first (key i) hs hne]
      exact ih his.2 hi hkept

end

end At

variable {act : σ → κ → σ} {f : κ → ν → ν}

theorem ActsOn.actsAt (h : ActsOn P view act f) : ActsAt P view act id f :=
  ⟨h.keeps, h.at_key, h.elsewhere⟩

theorem view_foldl_of_notMem (h : ActsOn P view act f) {ks : List κ} {j : κ} (hj : j ∉ ks)
    {s : σ} (hs : P s) : view (ks.foldl act s) j = view s j :=
  h.actsAt.foldl_of_notMem (fun _ hk => ne_of_mem_of_not_mem hk hj) hs

theorem view_foldl_of_mem (h : ActsOn P view act f) {ks : List κ} (hks : ks.Nodup) {j : κ}
    (hj : j ∈ ks) {s : σ} (hs : P s) : view (ks.foldl act s) j = f j (view s j) :=
  h.actsAt.foldl_of_mem (by rwa [List.map_id]) hj hs

end CoordinateFold

import Mathlib.Algebra.Order.BigOperators.Group.List
import Mathlib.Algebra.Order.Group.Defs
import Mathlib.Algebra.Ring.Int.Defs
import Mathlib.Data.List.Nodup

/-! Walks in a directed multigraph, as lists of edges; `src` and `dst` are the ends of an edge.
A walk is simple if it visits no vertex twice. -/
namespace DirectedWalk

variable {V E M : Type*} (src dst : E → V)

def IsWalk : V → List E → V → Prop
  | u, [], v => u = v
  | u, e :: p, v => src e = u ∧ IsWalk (dst e) p v

def IsSimple (u : V) (p : List E) : Prop := (u :: p.map dst).Nodup

structure IsPath (u : V) (p : List E) (v : V) : Prop where
  walk : IsWalk src dst u p v
  simple : IsSimple dst u p

section Deciding

variable [DecidableEq V]

instance decidableIsWalk : ∀ (u : V) (p : List E) (v : V), Decidable (IsWalk src dst u p v)
  | u, [], v => inferInstanceAs (Decidable (u = v))
  | u, e :: p, v =>
    have := decidableIsWalk (dst e) p v
    inferInstanceAs (Decidable (src e = u ∧ IsWalk src dst (dst e) p v))

instance (u : V) (p : List E) : Decidable (IsSimple dst u p) :=
  inferInstanceAs (Decidable (u :: p.map dst).Nodup)

instance (u : V) (p : List E) (v : V) : Decidable (IsPath src dst u p v) :=
  decidable_of_iff (IsWalk src dst u p v ∧ IsSimple dst u p)
    ⟨fun h => ⟨h.1, h.2⟩, fun h => ⟨h.walk, h.simple⟩⟩

end Deciding

section Walks

variable {src dst}

variable {u v : V}

@[simp] theorem isWalk_nil : IsWalk src dst u [] v ↔ u = v := Iff.rfl

variable {e : E} {p : List E}

@[simp] theorem isWalk_cons :
    IsWalk src dst u (e :: p) v ↔ src e = u ∧ IsWalk src dst (dst e) p v := Iff.rfl

theorem isWalk_append {p q : List E} :
    IsWalk src dst u (p ++ q) v ↔ ∃ x, IsWalk src dst u p x ∧ IsWalk src dst x q v := by
  induction p generalizing u with
  | nil => simp
  | cons e p ih => simp [ih, and_assoc]

theorem isWalk_concat : IsWalk src dst u (p ++ [e]) v ↔ IsWalk src dst u p (src e) ∧ dst e = v := by
  simp [isWalk_append]

theorem IsWalk.end_unique {u v v' : V} (h : IsWalk src dst u p v)
    (h' : IsWalk src dst u p v') : v = v' := by
  induction p generalizing u with
  | nil => exact h.symm.trans h'
  | cons e p ih => exact ih h.2 h'.2

section

variable (h : IsWalk src dst u p v)

include h

theorem IsWalk.end_mem : v ∈ u :: p.map dst := by
  induction p generalizing u with
  | nil => simp [isWalk_nil.mp h]
  | cons e p ih => exact List.mem_cons_of_mem u (ih h.2)

theorem IsWalk.src_mem (he : e ∈ p) : src e ∈ u :: p.map dst := by
  induction p generalizing u with
  | nil => cases he
  | cons f p ih =>
    rcases List.mem_cons.mp he with rfl | he
    · rw [h.1]
      exact List.mem_cons_self
    · exact List.mem_cons_of_mem u (ih h.2 he)

theorem IsWalk.end_or_src {y : V} (hy : y ∈ u :: p.map dst) : y = v ∨ ∃ e ∈ p, src e = y := by
  induction p generalizing u with
  | nil =>
    rw [List.map_nil, List.mem_singleton] at hy
    exact .inl (hy.trans h)
  | cons e p ih =>
    rcases List.mem_cons.mp hy with rfl | hy
    · exact .inr ⟨e, List.mem_cons_self, h.1⟩
    · rcases ih h.2 hy with hv | ⟨f, hf, hsrc⟩
      · exact .inl hv
      · exact .inr ⟨f, List.mem_cons_of_mem e hf, hsrc⟩

theorem IsWalk.exists_leaving (S : V → Prop)
    (hu : S u) (hv : ¬ S v) : ∃ e ∈ p, S (src e) ∧ ¬ S (dst e) := by
  induction p generalizing u with
  | nil => exact absurd (isWalk_nil.mp h ▸ hu) hv
  | cons e p ih =>
    by_cases hd : S (dst e)
    · obtain ⟨f, hf, hS⟩ := ih h.2 hd
      exact ⟨f, List.mem_cons_of_mem e hf, hS⟩
    · exact ⟨e, List.mem_cons_self, h.1 ▸ hu, hd⟩

end

theorem IsWalk.exists_from {u v x : V} (h : IsWalk src dst u p v)
    (hx : x ∈ u :: p.map dst) : ∃ p₁ p₂, p = p₁ ++ p₂ ∧ IsWalk src dst u p₁ x ∧
      IsWalk src dst x p₂ v := by
  induction p generalizing u with
  | nil =>
    obtain rfl : x = u := by simpa using hx
    exact ⟨[], [], rfl, rfl, h⟩
  | cons e p ih =>
    rcases List.mem_cons.mp hx with rfl | hx
    · exact ⟨[], e :: p, rfl, rfl, h⟩
    · obtain ⟨p₁, p₂, rfl, h₁, h₂⟩ := ih h.2 hx
      exact ⟨e :: p₁, p₂, rfl, ⟨h.1, h₁⟩, h₂⟩

end Walks

section Simple

variable {src dst}

variable {u : V} {e : E} {p : List E}

theorem isSimple_cons :
    IsSimple dst u (e :: p) ↔ u ∉ dst e :: p.map dst ∧ IsSimple dst (dst e) p := List.nodup_cons

theorem IsPath.eq_nil (h : IsPath src dst u p u) : p = [] := by
  cases p with
  | nil => rfl
  | cons e p => exact absurd h.walk.2.end_mem (isSimple_cons.mp h.simple).1

theorem IsPath.tail {u v : V} (h : IsPath src dst u (e :: p) v) :
    IsPath src dst (dst e) p v := ⟨h.walk.2, (isSimple_cons.mp h.simple).2⟩

variable {q : List E}

theorem IsPath.drop {u v x : V} (h : IsPath src dst u (p ++ q) v)
    (hx : IsWalk src dst u p x) : IsPath src dst x q v := by
  induction p generalizing u with
  | nil => exact hx ▸ h
  | cons e p ih => exact ih h.tail hx.2

theorem IsPath.take {u v x : V} (h : IsPath src dst u (p ++ q) v)
    (hx : IsWalk src dst u p x) : IsPath src dst u p x := by
  refine ⟨hx, ?_⟩
  have hsimple := h.simple
  unfold IsSimple at hsimple ⊢
  rw [List.map_append, ← List.cons_append] at hsimple
  exact (List.nodup_append.mp hsimple).1

theorem IsPath.append {u x v : V} (hp : IsPath src dst u p x)
    (hq : IsPath src dst x q v) (hnew : ∀ y ∈ q.map dst, y ∉ u :: p.map dst) :
    IsPath src dst u (p ++ q) v := by
  refine ⟨isWalk_append.mpr ⟨x, hp.walk, hq.walk⟩, ?_⟩
  unfold IsSimple
  rw [List.map_append, ← List.cons_append, List.nodup_append]
  refine ⟨hp.simple, (List.nodup_cons.mp hq.simple).2, fun y hy z hz hyz => hnew z hz ?_⟩
  rwa [← hyz]

theorem IsPath.ne_src {u x v : V} (h : IsPath src dst u (p ++ q) v)
    (hx : IsWalk src dst u p x) (he : e ∈ p) {y : V} (hy : y ∈ x :: q.map dst) :
    y ≠ src e := by
  induction p generalizing u with
  | nil => cases he
  | cons f p ih =>
    rcases List.mem_cons.mp he with rfl | he
    · rintro rfl
      apply (isSimple_cons.mp h.simple).1
      change u ∈ dst e :: (p ++ q).map dst
      rw [← h.walk.1, List.map_append]
      rcases List.mem_cons.mp hy with hy | hy
      · rw [← List.cons_append]
        exact List.mem_append_left _ (hy ▸ hx.2.end_mem)
      · exact List.mem_cons_of_mem _ (List.mem_append_right _ hy)
    · exact ih h.tail hx.2 he

theorem IsPath.concat (h : IsPath src dst u p (src e))
    (hnew : dst e ∉ u :: p.map dst) : IsPath src dst u (p ++ [e]) (dst e) := by
  refine ⟨isWalk_concat.mpr ⟨h.walk, rfl⟩, ?_⟩
  unfold IsSimple
  rw [List.map_append, ← List.cons_append, List.nodup_append]
  refine ⟨h.simple, List.nodup_singleton _, fun x hx y hy hxy => hnew ?_⟩
  rw [← List.mem_singleton.mp hy, ← hxy]
  exact hx

theorem IsWalk.exists_path {u v : V} (h : IsWalk src dst u p v) :
    ∃ q, IsPath src dst u q v ∧ q.Sublist p := by
  induction p generalizing u with
  | nil => exact ⟨[], ⟨h, List.nodup_singleton u⟩, List.Sublist.refl []⟩
  | cons e p ih =>
    obtain ⟨q, hq, hsub⟩ := ih h.2
    by_cases hu : u ∈ dst e :: q.map dst
    · obtain ⟨q₁, q₂, rfl, h₁, h₂⟩ := hq.walk.exists_from hu
      exact ⟨q₂, hq.drop h₁, ((List.sublist_append_right q₁ q₂).trans hsub).cons e⟩
    · exact ⟨e :: q, ⟨⟨h.1, hq.walk⟩, isSimple_cons.mpr ⟨hu, hq.simple⟩⟩, hsub.cons_cons e⟩

theorem IsPath.nodup {u v : V} (h : IsPath src dst u p v) : p.Nodup :=
  List.Nodup.of_map dst (List.nodup_cons.mp h.simple).2

end Simple

section Potential

variable {src dst}

theorem IsWalk.sum_potential {u v : V} {p : List E} (h : IsWalk src dst u p v) (f : V → ℤ) :
    (p.map fun e => f (src e) - f (dst e)).sum = f u - f v := by
  induction p generalizing u with
  | nil => rw [isWalk_nil.mp h, List.map_nil, List.sum_nil, sub_self]
  | cons e p ih =>
    rw [List.map_cons, List.sum_cons, ih h.2, h.1]
    omega

/-- Edges that lose something of every potential that is lower at `t` than at `s` lead from `s`
to `t`. -/
theorem exists_walk_of_potential {edges : List E} {s t : V}
    (h : ∀ f : V → ℤ, f t < f s → 0 < (edges.map fun e => f (src e) - f (dst e)).sum) :
    ∃ p, IsWalk src dst s p t ∧ ∀ e ∈ p, e ∈ edges := by
  classical
  by_contra hnone
  -- the potential that is 1 where the edges lead from `s`
  let reached v := ∃ p, IsWalk src dst s p v ∧ ∀ e ∈ p, e ∈ edges
  have hs : reached s := ⟨[], rfl, by simp⟩
  have hpos := h (fun v => if reached v then 1 else 0) (by rw [if_pos hs, if_neg hnone]; omega)
  have hle : ∀ x ∈ edges.map (fun e => (if reached (src e) then (1 : ℤ) else 0) -
      if reached (dst e) then 1 else 0), x ≤ 0 := by
    intro x hx
    obtain ⟨e, he, rfl⟩ := List.mem_map.mp hx
    by_cases hsrc : reached (src e)
    · obtain ⟨p, hp, hmem⟩ := hsrc
      have hdst : reached (dst e) := by
        refine ⟨p ++ [e], isWalk_concat.mpr ⟨hp, rfl⟩, ?_⟩
        intro f hf
        rcases List.mem_append.mp hf with hf | hf
        · exact hmem f hf
        · exact List.mem_singleton.mp hf ▸ he
      rw [if_pos hdst]
      split_ifs <;> omega
    · rw [if_neg hsrc]
      split_ifs <;> omega
  have hsum := List.sum_le_card_nsmul _ _ hle
  rw [nsmul_zero] at hsum
  omega

end Potential

section Cost

variable [AddCommMonoid M] (w : E → M)

def cost (p : List E) : M := (p.map w).sum

@[simp] theorem cost_nil : cost w [] = 0 := rfl

@[simp] theorem cost_cons (e : E) (p : List E) : cost w (e :: p) = w e + cost w p := List.sum_cons

theorem cost_append (p q : List E) : cost w (p ++ q) = cost w p + cost w q := by
  simp [cost]

variable {w} [PartialOrder M] [IsOrderedCancelAddMonoid M]

theorem cost_nonneg {p : List E} (h : ∀ e ∈ p, 0 ≤ w e) : 0 ≤ cost w p :=
  List.sum_nonneg (by simpa using h)

theorem cost_pos {p : List E} (h : ∀ e ∈ p, 0 < w e) (hne : p ≠ []) : 0 < cost w p := by
  obtain ⟨e, p, rfl⟩ := List.exists_cons_of_ne_nil hne
  rw [cost_cons]
  apply add_pos_of_pos_of_nonneg (h e List.mem_cons_self)
  exact cost_nonneg fun f hf => (h f (List.mem_cons_of_mem e hf)).le

theorem cost_le_of_sublist {p q : List E} (hsub : q.Sublist p) (h : ∀ e ∈ p, 0 ≤ w e) :
    cost w q ≤ cost w p := by
  induction hsub with
  | slnil => exact le_rfl
  | cons e _ ih =>
    rw [cost_cons]
    have hle := ih fun f hf => h f (List.mem_cons_of_mem e hf)
    exact le_add_of_nonneg_of_le (h e List.mem_cons_self) hle
  | cons_cons e _ ih =>
    rw [cost_cons, cost_cons]
    exact add_le_add_right (ih fun f hf => h f (List.mem_cons_of_mem e hf)) (w e)

theorem cost_lt_of_sublist {p q : List E} (hsub : q.Sublist p) (h : ∀ e ∈ p, 0 < w e)
    (hne : q ≠ p) : cost w q < cost w p := by
  induction hsub with
  | slnil => exact absurd rfl hne
  | @cons q p e hsub _ =>
    rw [cost_cons]
    have hle := cost_le_of_sublist hsub fun f hf => (h f (List.mem_cons_of_mem e hf)).le
    exact lt_add_of_pos_of_le (h e List.mem_cons_self) hle
  | cons_cons e _ ih =>
    rw [cost_cons, cost_cons]
    apply add_lt_add_right (ih (fun f hf => h f (List.mem_cons_of_mem e hf)) _) (w e)
    exact fun heq => hne (congrArg (e :: ·) heq)

end Cost

end DirectedWalk

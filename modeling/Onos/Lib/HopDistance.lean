import Onos.Lib.DirectedWalk
import Mathlib.Order.Lattice.Nat

/-! How many edges it takes from a vertex to the others. -/
namespace HopDistance

open DirectedWalk

variable {V E : Type*} (src dst : E → V) (usable : E → Prop) (s : V)

structure Leads (p : List E) (v : V) : Prop where
  walk : IsWalk src dst s p v
  usable : ∀ e ∈ p, usable e

def Reaches (v : V) : Prop := ∃ p, Leads src dst usable s p v

/-- The fewest edges that lead to the vertex, if any do. -/
noncomputable def hops (v : V) : ℕ := sInf {n | ∃ p, Leads src dst usable s p v ∧ p.length = n}

variable {src dst usable s} {v : V} {e : E}

theorem leads_nil : Leads src dst usable s [] s := ⟨rfl, fun _ he => absurd he List.not_mem_nil⟩

theorem reaches_start : Reaches src dst usable s s := ⟨[], leads_nil⟩

theorem Leads.concat {p : List E} (h : Leads src dst usable s p (src e)) (he : usable e) :
    Leads src dst usable s (p ++ [e]) (dst e) := by
  refine ⟨isWalk_concat.mpr ⟨h.walk, rfl⟩, fun f hf => ?_⟩
  rcases List.mem_append.mp hf with hf | hf
  · exact h.usable f hf
  · exact List.mem_singleton.mp hf ▸ he

theorem leads_nil_iff {u : V} : Leads src dst usable u [] v ↔ u = v :=
  ⟨fun h => h.walk, fun h => h ▸ leads_nil⟩

theorem leads_concat_iff {p : List E} : Leads src dst usable s (p ++ [e]) v ↔
    Leads src dst usable s p (src e) ∧ usable e ∧ dst e = v := by
  constructor
  · intro h
    obtain ⟨hwalk, hdst⟩ := isWalk_concat.mp h.walk
    exact ⟨⟨hwalk, fun f hf => h.usable f (List.mem_append_left _ hf)⟩,
      h.usable e (List.mem_append_right p List.mem_cons_self), hdst⟩
  · rintro ⟨hp, he, rfl⟩
    exact hp.concat he

theorem Leads.append {p q : List E} {x : V} (hp : Leads src dst usable s p v)
    (hq : Leads src dst usable v q x) : Leads src dst usable s (p ++ q) x := by
  refine ⟨isWalk_append.mpr ⟨v, hp.walk, hq.walk⟩, fun e he => ?_⟩
  rcases List.mem_append.mp he with he | he
  · exact hp.usable e he
  · exact hq.usable e he

theorem Leads.mono {usable' : E → Prop} {p : List E} (h : Leads src dst usable s p v)
    (hsub : ∀ e, usable e → usable' e) : Leads src dst usable' s p v :=
  ⟨h.walk, fun e he => hsub e (h.usable e he)⟩

theorem Leads.hops_le {p : List E} (h : Leads src dst usable s p v) :
    hops src dst usable s v ≤ p.length := Nat.sInf_le ⟨p, h, rfl⟩

theorem Reaches.exists_shortest (h : Reaches src dst usable s v) :
    ∃ p, Leads src dst usable s p v ∧ p.length = hops src dst usable s v := by
  obtain ⟨p, hp⟩ := h
  have hsome : {n | ∃ p, Leads src dst usable s p v ∧ p.length = n}.Nonempty :=
    ⟨p.length, p, hp, rfl⟩
  exact Nat.sInf_mem hsome

theorem Reaches.next (h : Reaches src dst usable s (src e)) (he : usable e) :
    Reaches src dst usable s (dst e) := by
  obtain ⟨p, hp⟩ := h
  exact ⟨p ++ [e], hp.concat he⟩

theorem Reaches.mono {usable' : E → Prop} (h : Reaches src dst usable s v)
    (hsub : ∀ e, usable e → usable' e) : Reaches src dst usable' s v := by
  obtain ⟨p, hp⟩ := h
  exact ⟨p, hp.mono hsub⟩

theorem Reaches.trans {x : V} (h : Reaches src dst usable s v) (h' : Reaches src dst usable v x) :
    Reaches src dst usable s x := by
  obtain ⟨p, hp⟩ := h
  obtain ⟨q, hq⟩ := h'
  exact ⟨p ++ q, hp.append hq⟩

theorem Reaches.mem_of_closed {x : V} (h : Reaches src dst usable s x) {S : V → Prop}
    (hclosed : ∀ e, usable e → S (src e) → S (dst e)) (hs : S s) : S x := by
  obtain ⟨p, hp⟩ := h
  by_contra hx
  obtain ⟨e, he, hsrc, hdst⟩ := hp.walk.exists_leaving S hs hx
  exact hdst (hclosed e (hp.usable e he) hsrc)

theorem hops_next_le (h : Reaches src dst usable s (src e)) (he : usable e) :
    hops src dst usable s (dst e) ≤ hops src dst usable s (src e) + 1 := by
  obtain ⟨p, hp, hlength⟩ := h.exists_shortest
  refine (hp.concat he).hops_le.trans ?_
  rw [List.length_append, hlength]
  rfl

@[simp] theorem hops_start : hops src dst usable s s = 0 := Nat.le_zero.mp leads_nil.hops_le

section

variable (h : Reaches src dst usable s v)

include h

theorem eq_start_of_hops (hzero : hops src dst usable s v = 0) : v = s := by
  obtain ⟨p, hp, hlength⟩ := h.exists_shortest
  rw [hzero, List.length_eq_zero_iff] at hlength
  subst hlength
  exact (isWalk_nil.mp hp.walk).symm

theorem exists_nearer {k : ℕ} (hk : hops src dst usable s v = k + 1) : ∃ e, usable e ∧ dst e = v ∧
      Reaches src dst usable s (src e) ∧ hops src dst usable s (src e) = k := by
  obtain ⟨p, hp, hlength⟩ := h.exists_shortest
  rcases List.eq_nil_or_concat p with rfl | ⟨q, e, rfl⟩
  · rw [hk] at hlength
    cases hlength
  · rw [List.concat_eq_append] at hp hlength
    obtain ⟨hq, he, rfl⟩ := leads_concat_iff.mp hp
    refine ⟨e, he, rfl, ⟨q, hq⟩, ?_⟩
    have hle := hq.hops_le
    have hnext := hops_next_le ⟨q, hq⟩ he
    rw [List.length_append, List.length_singleton] at hlength
    omega

theorem exists_at {k : ℕ} (hk : k ≤ hops src dst usable s v) :
    ∃ u, Reaches src dst usable s u ∧ hops src dst usable s u = k := by
  obtain ⟨n, hn⟩ := Nat.exists_eq_add_of_le hk
  induction n generalizing v with
  | zero => exact ⟨v, h, hn⟩
  | succ n ih =>
    obtain ⟨e, -, -, hreaches, hhops⟩ := exists_nearer h hn
    exact ih hreaches (hhops ▸ Nat.le_add_right k n) hhops

end

theorem hops_lt_length {vertexes : List V} (hs : s ∈ vertexes)
    (hdst : ∀ e, usable e → dst e ∈ vertexes) (h : Reaches src dst usable s v) :
    hops src dst usable s v < vertexes.length := by
  obtain ⟨p, hp⟩ := h
  obtain ⟨q, hq, hsub⟩ := hp.walk.exists_path
  have hleads : Leads src dst usable s q v := ⟨hq.walk, fun e he => hp.usable e (hsub.subset he)⟩
  have hle := hleads.hops_le
  have hsubset : s :: q.map dst ⊆ vertexes := by
    refine List.cons_subset.mpr ⟨hs, fun x hx => ?_⟩
    obtain ⟨e, he, rfl⟩ := List.mem_map.mp hx
    exact hdst e (hp.usable e (hsub.subset he))
  have hlength := (List.subperm_of_subset hq.simple hsubset).length_le
  rw [List.length_cons, List.length_map] at hlength
  omega

end HopDistance

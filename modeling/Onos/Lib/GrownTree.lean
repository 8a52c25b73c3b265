import Onos.Lib.HopDistance

/-! Directed trees that are grown from a root leaf by leaf: lists of edges, the last one first. -/
namespace GrownTree

open DirectedWalk HopDistance

variable {V E : Type*} (src dst : E → V)

inductive Grown (root : V) : List E → Prop
  | root : Grown root []
  | leaf {t : List E} {e : E} (tree : Grown root t) (grows : src e ∈ root :: t.map dst)
      (leaf : dst e ∉ root :: t.map dst) : Grown root (e :: t)

abbrev IsAbove (t : List E) (u v : V) : Prop := Reaches src dst (· ∈ t) u v

structure IsArborescence (root : V) (edges : Set E) (vertexes : Set V) : Prop where
  walk : ∀ v ∈ vertexes, ∃ p, Leads src dst (· ∈ edges) root p v ∧
    ∀ q, Leads src dst (· ∈ edges) root q v → q = p
  inside : ∀ e ∈ edges, src e ∈ vertexes ∧ dst e ∈ vertexes

variable {src dst} {root : V} {t : List E} {e f : E} {u v x : V}

section

variable (h : Grown src dst root t)

include h

theorem Grown.src_mem (he : e ∈ t) : src e ∈ root :: t.map dst := by
  induction h with
  | root => cases he
  | leaf tree grows leaf ih =>
    rw [List.map_cons]
    rcases List.mem_cons.mp he with rfl | he
    · exact List.cons_subset_cons root (List.subset_cons_self _ _) grows
    · exact List.cons_subset_cons root (List.subset_cons_self _ _) (ih he)

theorem Grown.nodup : (root :: t.map dst).Nodup := by
  induction h with
  | root => exact List.nodup_singleton root
  | leaf tree grows leaf ih =>
    rw [List.map_cons]
    refine (List.Perm.swap root _ _).nodup ?_
    exact List.nodup_cons.mpr ⟨leaf, ih⟩

theorem Grown.dst_ne_root (he : e ∈ t) : dst e ≠ root := by
  intro heq
  exact (List.nodup_cons.mp h.nodup).1 (heq ▸ List.mem_map_of_mem he)

theorem Grown.edge_unique (he : e ∈ t) (hf : f ∈ t) (heq : dst e = dst f) : e = f :=
  List.inj_on_of_nodup_map (List.nodup_cons.mp h.nodup).2 he hf heq

theorem Grown.leads_unique {p q : List E}
    (hp : Leads src dst (· ∈ t) root p v) (hq : Leads src dst (· ∈ t) root q v) : p = q := by
  induction p using List.reverseRecOn generalizing q v with
  | nil =>
    obtain rfl := leads_nil_iff.mp hp
    rcases List.eq_nil_or_concat q with rfl | ⟨q, f, rfl⟩
    · rfl
    · rw [List.concat_eq_append] at hq
      obtain ⟨-, hf, hroot⟩ := leads_concat_iff.mp hq
      exact absurd hroot (h.dst_ne_root hf)
  | append_singleton p e ih =>
    obtain ⟨hp, he, hdst⟩ := leads_concat_iff.mp hp
    rcases List.eq_nil_or_concat q with rfl | ⟨q, f, rfl⟩
    · rw [← leads_nil_iff.mp hq] at hdst
      exact absurd hdst (h.dst_ne_root he)
    · rw [List.concat_eq_append] at hq ⊢
      obtain ⟨hq, hf, hdst'⟩ := leads_concat_iff.mp hq
      obtain rfl := h.edge_unique he hf (hdst.trans hdst'.symm)
      rw [ih hp hq]

theorem Grown.above_root (hv : v ∈ root :: t.map dst) : IsAbove src dst t root v := by
  induction h generalizing v with
  | root =>
    obtain rfl := List.mem_singleton.mp hv
    exact reaches_start
  | @leaf t e tree grows leaf ih =>
    have hsub : ∀ f, f ∈ t → f ∈ e :: t := fun f hf => List.mem_cons_of_mem e hf
    rw [List.map_cons] at hv
    rcases List.mem_cons.mp hv with rfl | hv
    · exact reaches_start
    · rcases List.mem_cons.mp hv with rfl | hv
      · exact ((ih grows).mono hsub).next List.mem_cons_self
      · exact (ih (List.mem_cons_of_mem root hv)).mono hsub

end

theorem mem_of_above (hu : u ∈ root :: t.map dst)
    (huv : IsAbove src dst t u v) : v ∈ root :: t.map dst := by
  obtain ⟨p, hp⟩ := huv
  rcases List.mem_cons.mp hp.walk.end_mem with rfl | hv
  · exact hu
  · obtain ⟨e, he, rfl⟩ := List.mem_map.mp hv
    exact List.mem_cons_of_mem root (List.mem_map_of_mem (hp.usable e he))

section

variable (h : Grown src dst root t)

include h

theorem Grown.above_dst (he : e ∈ t) :
    IsAbove src dst t u (dst e) ↔ u = dst e ∨ IsAbove src dst t u (src e) := by
  constructor
  · rintro ⟨p, hp⟩
    rcases List.eq_nil_or_concat p with rfl | ⟨p, f, rfl⟩
    · exact Or.inl (leads_nil_iff.mp hp)
    · rw [List.concat_eq_append] at hp
      obtain ⟨hwalk, hf, hdst⟩ := leads_concat_iff.mp hp
      obtain rfl := h.edge_unique hf he hdst
      exact Or.inr ⟨p, hwalk⟩
  · rintro (rfl | hu)
    · exact reaches_start
    · exact hu.next he

theorem Grown.above_antisymm (hu : u ∈ root :: t.map dst)
    (huv : IsAbove src dst t u v) (hvu : IsAbove src dst t v u) : u = v := by
  obtain ⟨r, hr⟩ := h.above_root hu
  obtain ⟨p, hp⟩ := huv
  obtain ⟨q, hq⟩ := hvu
  have hround := h.leads_unique hr ((hr.append hp).append hq)
  rw [List.append_assoc] at hround
  obtain ⟨rfl, -⟩ := List.append_eq_nil_iff.mp (List.self_eq_append_right.mp hround)
  exact leads_nil_iff.mp hp

theorem Grown.not_above_src (he : e ∈ t) : ¬ IsAbove src dst t (dst e) (src e) := by
  rintro ⟨q, hq⟩
  obtain ⟨p, hp⟩ := h.above_root (h.src_mem he)
  have hround := h.leads_unique hp ((hp.concat he).append hq)
  rw [List.append_assoc] at hround
  cases List.self_eq_append_right.mp hround

theorem Grown.above_root_iff : IsAbove src dst t u root ↔ u = root := by
  refine ⟨?_, fun hu => hu ▸ reaches_start⟩
  rintro ⟨p, hp⟩
  rcases List.eq_nil_or_concat p with rfl | ⟨p, e, rfl⟩
  · exact leads_nil_iff.mp hp
  · rw [List.concat_eq_append] at hp
    obtain ⟨-, he, hdst⟩ := leads_concat_iff.mp hp
    exact absurd hdst (h.dst_ne_root he)

theorem Grown.above_leaf (hleaf : dst e ∉ root :: t.map dst)
    (hv : v ∈ root :: t.map dst) : IsAbove src dst (e :: t) u v ↔ IsAbove src dst t u v := by
  refine ⟨?_, fun huv => huv.mono fun f hf => List.mem_cons_of_mem e hf⟩
  rintro ⟨p, hp⟩
  induction p using List.reverseRecOn generalizing v with
  | nil => exact leads_nil_iff.mp hp ▸ reaches_start
  | append_singleton p f ih =>
    obtain ⟨hwalk, hf, rfl⟩ := leads_concat_iff.mp hp
    rcases List.mem_cons.mp hf with rfl | hf
    · exact absurd hv hleaf
    · exact (ih (h.src_mem hf) hwalk).next hf

theorem Grown.mem_walk_of_above {p : List E}
    (hp : Leads src dst (· ∈ t) root p v) (hu : u ∈ root :: t.map dst)
    (huv : IsAbove src dst t u v) : u ∈ root :: p.map dst := by
  obtain ⟨r, hr⟩ := h.above_root hu
  obtain ⟨q, hq⟩ := huv
  rw [h.leads_unique hp (hr.append hq), List.map_append, ← List.cons_append]
  exact List.mem_append_left _ hr.walk.end_mem

end

theorem above_of_mem_walk {p : List E} (hp : Leads src dst (· ∈ t) root p v)
    (hu : u ∈ root :: p.map dst) : IsAbove src dst t u v := by
  obtain ⟨p₁, p₂, rfl, -, h₂⟩ := hp.walk.exists_from hu
  exact ⟨p₂, h₂, fun e he => hp.usable e (List.mem_append_right p₁ he)⟩

theorem Grown.simple (h : Grown src dst root t) {p : List E}
    (hp : Leads src dst (· ∈ t) root p v) : IsSimple dst root p := by
  obtain ⟨q, hq, hsub⟩ := hp.walk.exists_path
  have hleads : Leads src dst (· ∈ t) root q v :=
    ⟨hq.walk, fun e he => hp.usable e (hsub.subset he)⟩
  rw [h.leads_unique hp hleads]
  exact hq.simple

theorem Grown.length_le (h : Grown src dst root t) {p : List E}
    (hp : Leads src dst (· ∈ t) root p v) : p.length ≤ t.length := by
  obtain ⟨q, hq, hlength⟩ := Reaches.exists_shortest ⟨p, hp⟩
  have hdst : ∀ e ∈ t, dst e ∈ root :: t.map dst :=
    fun e he => List.mem_cons_of_mem root (List.mem_map_of_mem he)
  have hlt := hops_lt_length List.mem_cons_self hdst ⟨p, hp⟩
  rw [List.length_cons, List.length_map] at hlt
  rw [h.leads_unique hp hq, hlength]
  exact Nat.lt_succ_iff.mp hlt

theorem Grown.isArborescence (h : Grown src dst root t) :
    IsArborescence src dst root {e | e ∈ t} {v | v ∈ root :: t.map dst} where
  walk v hv := by
    obtain ⟨p, hp⟩ := h.above_root hv
    exact ⟨p, hp, fun q hq => h.leads_unique hq hp⟩
  inside e he := ⟨h.src_mem he, List.mem_cons_of_mem root (List.mem_map_of_mem he)⟩

end GrownTree

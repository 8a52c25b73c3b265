import Onos.Lib.HopDistance

/-! Strongly connected components of a directed graph, listed so that no edge leads from one of
them to a later one. -/
namespace StrongComponents

open HopDistance

variable {V E : Type*} (src dst : E → V) (usable : E → Prop)

/-- The vertexes of a component reach each other, and no edge leaves the first components. -/
structure ListsComponents (components : List (List V)) : Prop where
  connected : ∀ c ∈ components, ∀ u ∈ c, ∀ v ∈ c, Reaches src dst usable u v
  closed : ∀ first, first <+: components → ∀ e, usable e →
    src e ∈ first.flatten → dst e ∈ first.flatten
  nodup : components.flatten.Nodup

variable {src dst usable} {components : List (List V)} {u v : V} {i j : ℕ}

theorem listsComponents_nil : ListsComponents src dst usable [] where
  connected c hc := absurd hc List.not_mem_nil
  closed first hfirst e _ he := by
    rw [List.prefix_nil.mp hfirst] at he
    exact absurd he List.not_mem_nil
  nodup := List.nodup_nil

theorem ListsComponents.concat (h : ListsComponents src dst usable components) {c : List V}
    (hconnected : ∀ u ∈ c, ∀ v ∈ c, Reaches src dst usable u v)
    (hclosed : ∀ e, usable e → src e ∈ c → dst e ∈ components.flatten ∨ dst e ∈ c)
    (hnodup : c.Nodup) (hapart : ∀ v ∈ c, v ∉ components.flatten) :
    ListsComponents src dst usable (components ++ [c]) where
  connected c' hc' := by
    rcases List.mem_append.mp hc' with hc' | hc'
    · exact h.connected c' hc'
    · obtain rfl := List.mem_singleton.mp hc'
      exact hconnected
  closed first hfirst e he hsrc := by
    rcases List.prefix_concat_iff.mp hfirst with rfl | hfirst
    · rw [List.flatten_concat, List.mem_append] at hsrc ⊢
      rcases hsrc with hsrc | hsrc
      · exact Or.inl (h.closed components (List.prefix_refl _) e he hsrc)
      · exact hclosed e he hsrc
    · exact h.closed first hfirst e he hsrc
  nodup := by
    rw [List.flatten_concat]
    exact h.nodup.append hnodup fun v hv hc => hapart v hc hv

theorem mem_flatten_take (hi : ∃ c, components[i]? = some c ∧ v ∈ c) :
    v ∈ (components.take (i + 1)).flatten := by
  obtain ⟨c, hc, hv⟩ := hi
  refine List.mem_flatten.mpr ⟨c, List.mem_of_getElem? (i := i) ?_, hv⟩
  rw [List.getElem?_take_of_lt (Nat.lt_succ_self i), hc]

section

variable (h : ListsComponents src dst usable components)

include h

theorem ListsComponents.index_le
    (hi : ∃ c, components[i]? = some c ∧ u ∈ c) (hj : ∃ c, components[j]? = some c ∧ v ∈ c)
    (hreach : Reaches src dst usable u v) : j ≤ i := by
  by_contra hlt
  have hv := hreach.mem_of_closed (h.closed _ (List.take_prefix (i + 1) components))
    (mem_flatten_take hi)
  obtain ⟨c, hc, hmem⟩ := hj
  -- the component is not among the first ones, so its vertexes are not either
  have hlater : c ∈ components.drop (i + 1) := by
    refine List.mem_of_getElem? (i := j - (i + 1)) ?_
    rw [List.getElem?_drop, Nat.add_sub_cancel' (Nat.lt_of_not_le hlt), hc]
  have hnodup := h.nodup
  rw [← List.take_append_drop (i + 1) components, List.flatten_append] at hnodup
  exact (List.nodup_append.mp hnodup).2.2 v hv v (List.mem_flatten.mpr ⟨c, hlater, hmem⟩) rfl

theorem ListsComponents.share_iff (hu : u ∈ components.flatten) (hv : v ∈ components.flatten) :
    (∃ c ∈ components, u ∈ c ∧ v ∈ c) ↔
      Reaches src dst usable u v ∧ Reaches src dst usable v u := by
  constructor
  · rintro ⟨c, hc, hu, hv⟩
    exact ⟨h.connected c hc u hu v hv, h.connected c hc v hv u hu⟩
  · rintro ⟨huv, hvu⟩
    obtain ⟨c, hc, hu⟩ := List.mem_flatten.mp hu
    obtain ⟨c', hc', hv⟩ := List.mem_flatten.mp hv
    obtain ⟨i, hi⟩ := List.mem_iff_getElem?.mp hc
    obtain ⟨j, hj⟩ := List.mem_iff_getElem?.mp hc'
    have hle := h.index_le ⟨c, hi, hu⟩ ⟨c', hj, hv⟩ huv
    have hge := h.index_le ⟨c', hj, hv⟩ ⟨c, hi, hu⟩ hvu
    obtain rfl := le_antisymm hle hge
    rw [hi] at hj
    obtain rfl := Option.some.inj hj
    exact ⟨c, hc, hu, hv⟩

theorem ListsComponents.precedes {e : E}
    {a b : List V} (hi : components[i]? = some a) (hj : components[j]? = some b) (hne : a ≠ b)
    (he : usable e) (hsrc : src e ∈ a) (hdst : dst e ∈ b) : j < i := by
  refine lt_of_le_of_ne (h.index_le ⟨a, hi, hsrc⟩ ⟨b, hj, hdst⟩ (reaches_start.next he)) ?_
  rintro rfl
  rw [hi] at hj
  exact hne (Option.some.inj hj)

end

end StrongComponents

import Onos.Lib.DirectedWalk
import Mathlib.Data.List.Induction

/-! Labels that a search for shortest paths gives the vertices, starting from `s` with the label
`c₀`. The labels of settled vertices are final, and their edges have been looked at. -/
namespace ShortestPaths

open DirectedWalk

variable {V E M : Type*} [AddCommGroup M] [LinearOrder M] [IsOrderedAddMonoid M]

structure Network (V E M : Type*) where
  src : E → V
  dst : E → V
  usable : E → Prop
  weight : E → M

variable (N : Network V E M)

structure IsRoute (u : V) (p : List E) (v : V) : Prop where
  walk : IsWalk N.src N.dst u p v
  usable : ∀ e ∈ p, N.usable e

structure IsShortest (u : V) (p : List E) (v : V) : Prop where
  route : IsRoute N u p v
  least : ∀ q, IsRoute N u q v → cost N.weight p ≤ cost N.weight q

def Tight (d : V → Option M) (e : E) : Prop :=
  ∃ a, d (N.src e) = some a ∧ d (N.dst e) = some (a + N.weight e)

structure Frontier (s : V) (c₀ : M) (settled : V → Prop) (d : V → Option M) : Prop where
  source : d s = some c₀
  relaxed : ∀ e a, N.usable e → settled (N.src e) → d (N.src e) = some a →
    ∃ b, d (N.dst e) = some b ∧ b ≤ a + N.weight e
  nearer : ∀ u v b, settled u → ¬ settled v → d v = some b → ∃ a, d u = some a ∧ a ≤ b

structure Nearest (settled : V → Prop) (d : V → Option M) (t : V) : Prop where
  unsettled : ¬ settled t
  least : ∀ x a, ¬ settled x → d x = some a → ∃ b, d t = some b ∧ b ≤ a

def Realised (s : V) (c₀ : M) (d : V → Option M) : Prop :=
  ∀ v a, d v = some a → ∃ p, IsRoute N s p v ∧ a = c₀ + cost N.weight p

section Routes

variable {N}

section

omit [AddCommGroup M] [LinearOrder M] [IsOrderedAddMonoid M]

theorem isRoute_append {u v : V} {p q : List E} :
    IsRoute N u (p ++ q) v ↔ ∃ x, IsRoute N u p x ∧ IsRoute N x q v := by
  constructor
  · rintro ⟨hwalk, husable⟩
    obtain ⟨x, hp, hq⟩ := isWalk_append.mp hwalk
    exact ⟨x, ⟨hp, fun e he => husable e (List.mem_append_left q he)⟩,
      ⟨hq, fun e he => husable e (List.mem_append_right p he)⟩⟩
  · rintro ⟨x, hp, hq⟩
    refine ⟨isWalk_append.mpr ⟨x, hp.walk, hq.walk⟩, fun e he => ?_⟩
    exact (List.mem_append.mp he).elim (hp.usable e) (hq.usable e)

theorem isRoute_singleton {e : E} (he : N.usable e) : IsRoute N (N.src e) [e] (N.dst e) :=
  ⟨⟨rfl, rfl⟩, by simpa using he⟩

theorem IsRoute.exists_path {u v : V} {p : List E} (h : IsRoute N u p v) :
    ∃ q, IsPath N.src N.dst u q v ∧ IsRoute N u q v ∧ q.Sublist p := by
  obtain ⟨q, hq, hsub⟩ := h.walk.exists_path
  exact ⟨q, hq, ⟨hq.walk, fun e he => h.usable e (hsub.subset he)⟩, hsub⟩

end

theorem IsShortest.isPath (hpos : ∀ e, N.usable e → 0 < N.weight e) {u v : V} {p : List E}
    (h : IsShortest N u p v) : IsPath N.src N.dst u p v := by
  obtain ⟨q, hq, hroute, hsub⟩ := h.route.exists_path
  by_cases heq : q = p
  · exact heq ▸ hq
  · have hlt := cost_lt_of_sublist hsub (fun e he => hpos e (h.route.usable e he)) heq
    exact absurd (h.least q hroute) (not_le.mpr hlt)

omit [LinearOrder M] [IsOrderedAddMonoid M] in
theorem tight_walk {d : V → Option M} {u v : V} {p : List E} {a : M}
    (hwalk : IsWalk N.src N.dst u p v) (htight : ∀ e ∈ p, Tight N d e) (hu : d u = some a) :
    d v = some (a + cost N.weight p) := by
  induction p generalizing u a with
  | nil => rw [← isWalk_nil.mp hwalk, hu, cost_nil, add_zero]
  | cons e p ih =>
    obtain ⟨b, hb, hnext⟩ := htight e List.mem_cons_self
    obtain rfl : b = a := Option.some.inj (hb.symm.trans (hwalk.1 ▸ hu))
    rw [ih hwalk.2 (fun f hf => htight f (List.mem_cons_of_mem e hf)) hnext, cost_cons, add_assoc]

end Routes

section Frontiers

variable {N} {s : V} {c₀ : M} {settled : V → Prop} {d : V → Option M}

section

variable (h : Frontier N s c₀ settled d)

include h

section

variable (hnonneg : ∀ e, N.usable e → 0 ≤ N.weight e)

include hnonneg

/-- Every route to a settled vertex is at least as long as its label says, and every route to
another one has passed a vertex on the frontier. -/
theorem Frontier.bound {v : V} {p : List E} (hp : IsRoute N s p v) :
    (settled v → ∃ a, d v = some a ∧ a ≤ c₀ + cost N.weight p) ∧
    (¬ settled v → ∃ x a, ¬ settled x ∧ d x = some a ∧ a ≤ c₀ + cost N.weight p) := by
  -- on the last edge of the route
  induction p using List.reverseRecOn generalizing v with
  | nil =>
    obtain rfl : s = v := hp.walk
    have hle : c₀ ≤ c₀ + cost N.weight ([] : List E) := by rw [cost_nil, add_zero]
    exact ⟨fun _ => ⟨c₀, h.source, hle⟩, fun hs => ⟨s, c₀, hs, h.source, hle⟩⟩
  | append_singleton p e ih =>
    obtain ⟨hwalk, rfl⟩ := isWalk_concat.mp hp.walk
    have he : N.usable e := hp.usable e (by simp)
    have hcost : cost N.weight (p ++ [e]) = cost N.weight p + N.weight e := by
      rw [cost_append, cost_cons, cost_nil, add_zero]
    have hle : cost N.weight p ≤ cost N.weight (p ++ [e]) := by
      rw [hcost]
      exact le_add_of_nonneg_right (hnonneg e he)
    obtain ⟨hin, hout⟩ := ih ⟨hwalk, fun f hf => hp.usable f (List.mem_append_left _ hf)⟩
    by_cases hsrc : settled (N.src e)
    · obtain ⟨a, ha, hap⟩ := hin hsrc
      obtain ⟨b, hb, hba⟩ := h.relaxed e a he hsrc ha
      have hbp : b ≤ c₀ + cost N.weight (p ++ [e]) := by
        rw [hcost, ← add_assoc]
        exact hba.trans (add_le_add_left hap _)
      exact ⟨fun _ => ⟨b, hb, hbp⟩, fun hv => ⟨N.dst e, b, hv, hb, hbp⟩⟩
    · obtain ⟨x, a, hx, ha, hap⟩ := hout hsrc
      have hap' := hap.trans (add_le_add_right hle c₀)
      refine ⟨fun hv => ?_, fun _ => ⟨x, a, hx, ha, hap'⟩⟩
      obtain ⟨b, hb, hba⟩ := h.nearer (N.dst e) x a hv hx ha
      exact ⟨b, hb, hba.trans hap'⟩

theorem Frontier.nearest_le {t : V} (ht : Nearest settled d t) {p : List E}
    (hp : IsRoute N s p t) : ∃ b, d t = some b ∧ b ≤ c₀ + cost N.weight p := by
  obtain ⟨x, a, hx, ha, hap⟩ := (h.bound hnonneg hp).2 ht.unsettled
  obtain ⟨b, hb, hba⟩ := ht.least x a hx ha
  exact ⟨b, hb, hba.trans hap⟩

theorem Frontier.shortest_of_tight {t : V} (ht : Nearest settled d t) {p : List E}
    (hp : IsRoute N s p t) (htight : ∀ e ∈ p, Tight N d e) :
    IsShortest N s p t ∧ d t = some (c₀ + cost N.weight p) := by
  have hlabel := tight_walk hp.walk htight h.source
  refine ⟨⟨hp, fun q hq => ?_⟩, hlabel⟩
  obtain ⟨b, hb, hbq⟩ := h.nearest_le hnonneg ht hq
  obtain rfl := Option.some.inj (hlabel.symm.trans hb)
  exact le_of_add_le_add_left hbq

end

/-- With positive weights the edges of a shortest route to the nearest vertex are tight, and
leave settled vertices. -/
theorem Frontier.tight_of_shortest
    (hpos : ∀ e, N.usable e → 0 < N.weight e) (hreal : Realised N s c₀ d) {t : V}
    (ht : Nearest settled d t) {p : List E} (hp : IsShortest N s p t) {e : E} (he : e ∈ p) :
    settled (N.src e) ∧ Tight N d e := by
  have hnonneg : ∀ e, N.usable e → 0 ≤ N.weight e := fun e he => (hpos e he).le
  have husable := hp.route.usable e he
  obtain ⟨p₁, p₂, rfl⟩ := List.append_of_mem he
  obtain ⟨x, hp₁, hp₂⟩ := isRoute_append.mp hp.route
  obtain rfl : N.src e = x := hp₂.walk.1
  have htail : IsRoute N (N.dst e) p₂ t :=
    ⟨hp₂.walk.2, fun f hf => hp₂.usable f (List.mem_cons_of_mem e hf)⟩
  have hcost : cost N.weight (p₁ ++ e :: p₂) =
      cost N.weight p₁ + N.weight e + cost N.weight p₂ := by
    rw [cost_append, cost_cons, add_assoc]
  -- no unsettled vertex is as near as the source of the edge
  have hsettled : settled (N.src e) := by
    by_contra hun
    obtain ⟨y, a, hy, hya, hle⟩ := (h.bound hnonneg hp₁).2 hun
    obtain ⟨b, hb, hba⟩ := ht.least y a hy hya
    obtain ⟨q, hq, rfl⟩ := hreal t b hb
    have hpq := hp.least q hq
    have hqp := le_of_add_le_add_left (hba.trans hle)
    have hlt : cost N.weight p₁ < cost N.weight (p₁ ++ e :: p₂) := by
      rw [cost_append]
      exact lt_add_of_pos_right _ (cost_pos (fun f hf => hpos f (hp₂.usable f hf)) (by simp))
    exact absurd (hlt.trans_le hpq) (not_lt.mpr hqp)
  refine ⟨hsettled, ?_⟩
  obtain ⟨a, ha, hap⟩ := (h.bound hnonneg hp₁).1 hsettled
  obtain ⟨b, hb, hba⟩ := h.relaxed e a husable hsettled ha
  obtain ⟨q, hq, rfl⟩ := hreal _ b hb
  -- a shorter way to the end of the edge would make the whole route shorter
  have hle := hp.least (q ++ p₂) (isRoute_append.mpr ⟨_, hq, htail⟩)
  rw [hcost, cost_append] at hle
  have hqe : c₀ + (cost N.weight p₁ + N.weight e) ≤ c₀ + cost N.weight q :=
    add_le_add_right (le_of_add_le_add_right hle) c₀
  have heq : c₀ + cost N.weight q = a + N.weight e := by
    apply hba.antisymm
    rw [← add_assoc] at hqe
    exact (add_le_add_left hap _).trans hqe
  exact ⟨a, ha, heq ▸ hb⟩

end

end Frontiers

section Parents

variable (reached : V → Prop) (parent : E → Prop) (s : V)

/-- Every reached vertex but the source has a parent edge from a vertex that comes after it. -/
def Grounded : List V → Prop
  | [] => True
  | v :: order => (reached v → v ≠ s → ∃ e, parent e ∧ N.dst e = v ∧ reached (N.src e) ∧
      N.src e ∈ order) ∧ Grounded order

variable {N reached parent s}

omit [AddCommGroup M] [LinearOrder M] [IsOrderedAddMonoid M]

theorem Grounded.mono {reached' : V → Prop} {parent' : E → Prop} {order : List V}
    (h : Grounded N reached parent s order) (hreached : ∀ v ∈ order, reached' v ↔ reached v)
    (hparent : ∀ e, parent e → N.dst e ∈ order → parent' e) :
    Grounded N reached' parent' s order := by
  induction order with
  | nil => trivial
  | cons v order ih =>
    refine ⟨fun hv hne => ?_, ih h.2 (fun x hx => hreached x (List.mem_cons_of_mem v hx))
      fun e he hd => hparent e he (List.mem_cons_of_mem v hd)⟩
    obtain ⟨e, he, rfl, hsrc, hmem⟩ := h.1 ((hreached v List.mem_cons_self).mp hv) hne
    exact ⟨e, hparent e he List.mem_cons_self, rfl,
      (hreached _ (List.mem_cons_of_mem _ hmem)).mpr hsrc, hmem⟩

theorem Grounded.exists_path {order : List V} (h : Grounded N reached parent s order)
    (hnodup : order.Nodup) {v : V} (hv : v ∈ order) (hreached : reached v) :
    ∃ p, IsPath N.src N.dst s p v ∧ (∀ e ∈ p, parent e) ∧ ∀ x ∈ s :: p.map N.dst, x ∈ order := by
  induction order generalizing v with
  | nil => cases hv
  | cons u order ih =>
    obtain ⟨hu, hrest⟩ := List.nodup_cons.mp hnodup
    rcases List.mem_cons.mp hv with rfl | hv
    · by_cases hs : v = s
      · subst hs
        exact ⟨[], ⟨rfl, by simp [IsSimple]⟩, by simp, by simp⟩
      · obtain ⟨e, he, rfl, hsrc, hmem⟩ := h.1 hreached hs
        obtain ⟨p, hp, hparent, hin⟩ := ih h.2 hrest hmem hsrc
        have hnew : N.dst e ∉ s :: p.map N.dst := fun hx => hu (hin _ hx)
        refine ⟨p ++ [e], hp.concat hnew, ?_, ?_⟩
        · intro f hf
          rcases List.mem_append.mp hf with hf | hf
          · exact hparent f hf
          · exact List.mem_singleton.mp hf ▸ he
        · intro x hx
          rw [List.map_append, ← List.cons_append] at hx
          rcases List.mem_append.mp hx with hx | hx
          · exact List.mem_cons_of_mem _ (hin x hx)
          · obtain rfl : x = N.dst e := by simpa using hx
            exact List.mem_cons_self
    · obtain ⟨p, hp, hparent, hin⟩ := ih h.2 hrest hv hreached
      exact ⟨p, hp, hparent, fun x hx => List.mem_cons_of_mem u (hin x hx)⟩

end Parents

end ShortestPaths

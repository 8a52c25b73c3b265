import Onos.Lib.ShortestPaths
import Mathlib.Tactic.Abel

/-! Edges that are relaxed one after the other, in any order and any number of times. What the
vertices are labelled with are the least weights of the routes that follow the order: those whose
edges are a sublist of the edges that were relaxed. -/
namespace RelaxationOrder

open DirectedWalk ShortestPaths

variable {V E M : Type*} [AddCommGroup M] [LinearOrder M] [IsOrderedAddMonoid M]
variable (N : Network V E M) (s : V) (c₀ : M)

structure Follows (S : List E) (v : V) (p : List E) : Prop where
  route : IsRoute N s p v
  sublist : p.Sublist S

structure IsCheapest (S : List E) (v : V) (c : M) : Prop where
  followed : ∃ p, Follows N s S v p ∧ c = c₀ + cost N.weight p
  least : ∀ p, Follows N s S v p → c ≤ c₀ + cost N.weight p

/-- A vertex has a label exactly when a route to it follows the order, and then the least one. -/
def IsExact (S : List E) (d : V → Option M) : Prop :=
  ∀ v, (∀ c, d v = some c → IsCheapest N s c₀ S v c) ∧ (d v = none → ∀ p, ¬Follows N s S v p)

def IsLast (S : List E) (d : V → Option M) (e : E) : Prop :=
  N.usable e ∧ ∃ p, Follows N s S (N.dst e) (p ++ [e]) ∧
    d (N.dst e) = some (c₀ + cost N.weight (p ++ [e]))

variable {N s c₀} {S T : List E} {d d' : V → Option M} {v : V} {e : E} {a c : M} {p : List E}

omit [LinearOrder M] [IsOrderedAddMonoid M] in
theorem cost_concat (w : E → M) (p : List E) (e : E) : cost w (p ++ [e]) = cost w p + w e := by
  rw [cost_append, cost_cons, cost_nil, add_zero]

theorem sublist_concat_iff {p S : List E} {e : E} :
    p.Sublist (S ++ [e]) ↔ p.Sublist S ∨ ∃ q, p = q ++ [e] ∧ q.Sublist S := by
  rw [List.sublist_append_iff]
  constructor
  · rintro ⟨q, r, rfl, hq, hr⟩
    rcases List.sublist_singleton.mp hr with rfl | rfl
    · exact Or.inl (by rwa [List.append_nil])
    · exact Or.inr ⟨q, rfl, hq⟩
  · rintro (hp | ⟨q, rfl, hq⟩)
    · exact ⟨p, [], (List.append_nil p).symm, hp, List.nil_sublist _⟩
    · exact ⟨q, [e], rfl, hq, List.Sublist.refl _⟩

section

omit [AddCommGroup M] [LinearOrder M] [IsOrderedAddMonoid M]

theorem isRoute_concat : IsRoute N s (p ++ [e]) v ↔
    IsRoute N s p (N.src e) ∧ N.usable e ∧ N.dst e = v := by
  constructor
  · intro h
    obtain ⟨hp, hv⟩ := isWalk_concat.mp h.walk
    exact ⟨⟨hp, fun f hf => h.usable f (List.mem_append_left _ hf)⟩,
      h.usable e (List.mem_append_right _ List.mem_cons_self), hv⟩
  · rintro ⟨hp, he, rfl⟩
    exact isRoute_append.mpr ⟨_, hp, isRoute_singleton he⟩

theorem follows_concat : Follows N s (S ++ [e]) v p ↔ Follows N s S v p ∨
    N.usable e ∧ N.dst e = v ∧ ∃ q, p = q ++ [e] ∧ Follows N s S (N.src e) q := by
  constructor
  · rintro ⟨hroute, hsub⟩
    rcases sublist_concat_iff.mp hsub with hsub | ⟨q, rfl, hq⟩
    · exact Or.inl ⟨hroute, hsub⟩
    · obtain ⟨hroute', he, hv⟩ := isRoute_concat.mp hroute
      exact Or.inr ⟨he, hv, q, rfl, hroute', hq⟩
  · rintro (⟨hroute, hsub⟩ | ⟨he, hv, q, rfl, hroute, hsub⟩)
    · exact ⟨hroute, sublist_concat_iff.mpr (Or.inl hsub)⟩
    · exact ⟨isRoute_concat.mpr ⟨hroute, he, hv⟩, sublist_concat_iff.mpr (Or.inr ⟨q, rfl, hsub⟩)⟩

theorem Follows.mono (h : Follows N s S v p) (hsub : S.Sublist T) : Follows N s T v p :=
  ⟨h.route, h.sublist.trans hsub⟩

end

section

omit [IsOrderedAddMonoid M]

theorem IsCheapest.unique {b : M} (h : IsCheapest N s c₀ S v c) (h' : IsCheapest N s c₀ S v b) :
    c = b := by
  obtain ⟨p, hp, rfl⟩ := h.followed
  obtain ⟨q, hq, rfl⟩ := h'.followed
  exact le_antisymm (h.least q hq) (h'.least p hp)

theorem IsExact.le_of_follows (h : IsExact N s c₀ S d) (hp : Follows N s S v p) :
    ∃ c, d v = some c ∧ c ≤ c₀ + cost N.weight p := by
  cases hv : d v with
  | none => exact absurd hp ((h v).2 hv p)
  | some c => exact ⟨c, rfl, ((h v).1 c hv).least p hp⟩

end

omit [AddCommGroup M] [LinearOrder M] [IsOrderedAddMonoid M] in
theorem follows_nil_iff : Follows N s [] v p ↔ p = [] ∧ s = v := by
  constructor
  · rintro ⟨hroute, hsub⟩
    obtain rfl := List.sublist_nil.mp hsub
    exact ⟨rfl, hroute.walk⟩
  · rintro ⟨rfl, rfl⟩
    exact ⟨⟨rfl, by simp⟩, List.Sublist.refl _⟩

section

omit [IsOrderedAddMonoid M]

theorem isExact_nil (hsource : d s = some c₀) (hother : ∀ v, v ≠ s → d v = none) :
    IsExact N s c₀ [] d := by
  intro v
  by_cases hv : v = s
  · subst hv
    refine ⟨fun c hc => ?_, fun hnone => ?_⟩
    · rw [hsource] at hc
      obtain rfl := Option.some.inj hc
      refine ⟨⟨[], follows_nil_iff.mpr ⟨rfl, rfl⟩, by rw [cost_nil, add_zero]⟩, fun p hp => ?_⟩
      rw [(follows_nil_iff.mp hp).1, cost_nil, add_zero]
    · rw [hsource] at hnone
      cases hnone
  · refine ⟨fun c hc => ?_, fun _ p hp => hv (follows_nil_iff.mp hp).2.symm⟩
    rw [hother v hv] at hc
    cases hc

theorem IsExact.skip (h : IsExact N s c₀ S d) (hskip : ¬N.usable e ∨ d (N.src e) = none) :
    IsExact N s c₀ (S ++ [e]) d := by
  have hsame : ∀ v p, Follows N s (S ++ [e]) v p ↔ Follows N s S v p := by
    intro v p
    rw [follows_concat]
    refine ⟨fun hp => hp.resolve_right ?_, Or.inl⟩
    rintro ⟨he, -, q, -, hq⟩
    rcases hskip with hunusable | hnone
    · exact hunusable he
    · exact (h _).2 hnone q hq
  intro v
  refine ⟨fun c hc => ?_, fun hnone p hp => (h v).2 hnone p ((hsame v p).mp hp)⟩
  obtain ⟨⟨p, hp, hcost⟩, hleast⟩ := (h v).1 c hc
  exact ⟨⟨p, (hsame v p).mpr hp, hcost⟩, fun q hq => hleast q ((hsame v q).mp hq)⟩

end

theorem IsExact.relax (h : IsExact N s c₀ S d) (he : N.usable e) (ha : d (N.src e) = some a)
    (hother : ∀ v, v ≠ N.dst e → d' v = d v)
    (hdst : (∃ old, d (N.dst e) = some old ∧ old ≤ a + N.weight e ∧ d' (N.dst e) = some old) ∨
      (∀ old, d (N.dst e) = some old → a + N.weight e ≤ old) ∧
        d' (N.dst e) = some (a + N.weight e)) : IsExact N s c₀ (S ++ [e]) d' := by
  have hsrc := (h _).1 a ha
  -- what the routes over the edge weigh
  have hlast : ∀ q, Follows N s S (N.src e) q → a + N.weight e ≤ c₀ + cost N.weight (q ++ [e]) := by
    intro q hq
    rw [cost_concat, ← add_assoc]
    exact add_le_add_left (hsrc.least q hq) _
  intro v
  by_cases hv : v = N.dst e
  · subst hv
    have hlabel : ∀ c, d' (N.dst e) = some c → IsCheapest N s c₀ (S ++ [e]) (N.dst e) c := by
      intro c hc
      rcases hdst with ⟨old, hold, hle, hnew⟩ | ⟨hle, hnew⟩
      · obtain rfl : old = c := Option.some.inj (hnew.symm.trans hc)
        obtain ⟨⟨p, hp, hcost⟩, hleast⟩ := (h _).1 old hold
        refine ⟨⟨p, follows_concat.mpr (Or.inl hp), hcost⟩, fun q hq => ?_⟩
        rcases follows_concat.mp hq with hold' | ⟨-, -, r, rfl, hr⟩
        · exact hleast q hold'
        · exact hle.trans (hlast r hr)
      · obtain rfl : a + N.weight e = c := Option.some.inj (hnew.symm.trans hc)
        obtain ⟨p, hp, hcost⟩ := hsrc.followed
        refine ⟨⟨p ++ [e], follows_concat.mpr (Or.inr ⟨he, rfl, p, rfl, hp⟩), ?_⟩, fun q hq => ?_⟩
        · rw [cost_concat, ← add_assoc, ← hcost]
        · rcases follows_concat.mp hq with hold' | ⟨-, -, r, rfl, hr⟩
          · obtain ⟨old, hold, hcost'⟩ := h.le_of_follows hold'
            exact (hle old hold).trans hcost'
          · exact hlast r hr
    refine ⟨hlabel, fun hnone => ?_⟩
    rcases hdst with ⟨old, -, -, hnew⟩ | ⟨-, hnew⟩
    · rw [hnew] at hnone
      cases hnone
    · rw [hnew] at hnone
      cases hnone
  · have hsame : ∀ p, Follows N s (S ++ [e]) v p ↔ Follows N s S v p := by
      intro p
      rw [follows_concat]
      exact ⟨fun hp => hp.resolve_right fun hnew => hv hnew.2.1.symm, Or.inl⟩
    rw [hother v hv]
    refine ⟨fun c hc => ?_, fun hnone p hp => (h v).2 hnone p ((hsame p).mp hp)⟩
    obtain ⟨⟨p, hp, hcost⟩, hleast⟩ := (h v).1 c hc
    exact ⟨⟨p, (hsame p).mpr hp, hcost⟩, fun q hq => hleast q ((hsame q).mp hq)⟩

section Last

variable {f : E}

omit [LinearOrder M] [IsOrderedAddMonoid M] in
theorem IsLast.mono (h : IsLast N s c₀ S d f) (hsub : S.Sublist T)
    (hsame : d' (N.dst f) = d (N.dst f)) : IsLast N s c₀ T d' f := by
  obtain ⟨hf, p, hp, hlabel⟩ := h
  exact ⟨hf, p, hp.mono hsub, hsame.trans hlabel⟩

omit [IsOrderedAddMonoid M] in
theorem IsExact.isLast_concat (h : IsExact N s c₀ S d) (he : N.usable e) (ha : d (N.src e) = some a)
    (hnew : d' (N.dst e) = some (a + N.weight e)) : IsLast N s c₀ (S ++ [e]) d' e := by
  obtain ⟨p, hp, rfl⟩ := ((h _).1 a ha).followed
  refine ⟨he, p, follows_concat.mpr (Or.inr ⟨he, rfl, p, rfl, hp⟩), hnew.trans ?_⟩
  rw [cost_concat, add_assoc]

theorem IsExact.label_of_isLast (h : IsExact N s c₀ S d) (hf : IsLast N s c₀ S d f) :
    ∃ a b, d (N.src f) = some a ∧ d (N.dst f) = some b ∧ a + N.weight f ≤ b := by
  obtain ⟨-, p, hp, hlabel⟩ := hf
  obtain ⟨hroute, -, -⟩ := isRoute_concat.mp hp.route
  have hsub : p.Sublist S := (List.sublist_append_left p [f]).trans hp.sublist
  obtain ⟨a, ha, hle⟩ := h.le_of_follows ⟨hroute, hsub⟩
  refine ⟨a, _, ha, hlabel, ?_⟩
  rw [cost_concat, ← add_assoc]
  exact add_le_add_left hle _

theorem IsExact.isLast_cases (h : IsExact N s c₀ S d) (h' : IsExact N s c₀ (S ++ [e]) d')
    (hlower : ∀ old, d (N.dst f) = some old → ∃ new, d' (N.dst f) = some new ∧ new ≤ old)
    (hf : IsLast N s c₀ (S ++ [e]) d' f) : IsLast N s c₀ S d f ∧ d' (N.dst f) = d (N.dst f) ∨
      f = e ∧ N.usable e ∧ ∃ a, d (N.src e) = some a ∧ d' (N.dst e) = some (a + N.weight e) := by
  obtain ⟨husable, p, hp, hlabel⟩ := hf
  rcases follows_concat.mp hp with hold | ⟨he, hdst, q, heq, hq⟩
  · left
    obtain ⟨c, hc, hle⟩ := h.le_of_follows hold
    obtain ⟨new, hnew, hle'⟩ := hlower c hc
    obtain rfl := Option.some.inj (hnew.symm.trans hlabel)
    obtain rfl := le_antisymm hle hle'
    exact ⟨⟨husable, p, hold, hc⟩, hlabel.trans hc.symm⟩
  · right
    obtain ⟨rfl, hfe⟩ := List.append_inj' heq rfl
    obtain rfl : f = e := List.head_eq_of_cons_eq hfe
    obtain ⟨a, ha, hle⟩ := h.le_of_follows hq
    refine ⟨rfl, he, a, ha, ?_⟩
    obtain ⟨r, hr, rfl⟩ := ((h _).1 a ha).followed
    have hlast := ((h' _).1 _ hlabel).least (r ++ [f])
      (follows_concat.mpr (Or.inr ⟨he, rfl, r, rfl, hr⟩))
    rw [hlabel, cost_concat, ← add_assoc, Option.some.injEq]
    rw [cost_concat, cost_concat, ← add_assoc, ← add_assoc] at hlast
    exact le_antisymm hlast (add_le_add_left hle _)

end Last

theorem sublist_rounds {L p : List E} {n : ℕ} (hmem : ∀ e ∈ p, e ∈ L) (hlen : p.length ≤ n) :
    p.Sublist (List.replicate n L).flatten := by
  induction p generalizing n with
  | nil => exact List.nil_sublist _
  | cons e p ih =>
    cases n with
    | zero => cases hlen
    | succ n =>
      rw [List.replicate_succ, List.flatten_cons, ← List.singleton_append]
      refine List.Sublist.append (List.singleton_sublist.mpr (hmem e List.mem_cons_self)) ?_
      exact ih (fun f hf => hmem f (List.mem_cons_of_mem _ hf)) (Nat.le_of_succ_le_succ hlen)

section Cycles

structure IsCycle (N : Network V E M) (u : V) (p : List E) : Prop where
  route : IsRoute N u p u
  ne_nil : p ≠ []
  nodup : (p.map N.dst).Nodup

def HasPositiveCycles (N : Network V E M) : Prop := ∀ u p, IsCycle N u p → 0 < cost N.weight p

theorem IsRoute.exists_cheaper (hpos : HasPositiveCycles N) {u : V} (h : IsRoute N u p v) :
    ∃ q, IsPath N.src N.dst u q v ∧ IsRoute N u q v ∧
      (q = p ∨ cost N.weight q < cost N.weight p) := by
  induction p generalizing u with
  | nil => exact ⟨[], ⟨h.walk, List.nodup_singleton u⟩, h, Or.inl rfl⟩
  | cons e p ih =>
    have htail : IsRoute N (N.dst e) p v :=
      ⟨h.walk.2, fun f hf => h.usable f (List.mem_cons_of_mem e hf)⟩
    have he := h.usable e List.mem_cons_self
    obtain ⟨q, hq, hroute, hcost⟩ := ih htail
    have hle : cost N.weight q ≤ cost N.weight p := hcost.elim (fun heq => heq ▸ le_rfl) le_of_lt
    by_cases hu : u ∈ N.dst e :: q.map N.dst
    · obtain ⟨q₁, q₂, rfl, h₁, h₂⟩ := hq.walk.exists_from hu
      have hroute₁ : IsRoute N (N.dst e) q₁ u :=
        ⟨h₁, fun f hf => hroute.usable f (List.mem_append_left _ hf)⟩
      have hroute₂ : IsRoute N u q₂ v :=
        ⟨h₂, fun f hf => hroute.usable f (List.mem_append_right _ hf)⟩
      have hcycle : IsCycle N u (e :: q₁) := by
        refine ⟨⟨⟨h.walk.1, h₁⟩, ?_⟩, List.cons_ne_nil _ _, (hq.take h₁).simple⟩
        intro f hf
        rcases List.mem_cons.mp hf with rfl | hf
        · exact he
        · exact hroute₁.usable f hf
      refine ⟨q₂, hq.drop h₁, hroute₂, Or.inr ?_⟩
      calc cost N.weight q₂
          < cost N.weight (e :: q₁) + cost N.weight q₂ := lt_add_of_pos_left _ (hpos u _ hcycle)
        _ = N.weight e + cost N.weight (q₁ ++ q₂) := by rw [cost_cons, cost_append, add_assoc]
        _ ≤ N.weight e + cost N.weight p := add_le_add_right hle _
        _ = cost N.weight (e :: p) := (cost_cons _ _ _).symm
    · refine ⟨e :: q, ⟨⟨h.walk.1, hq.walk⟩, isSimple_cons.mpr ⟨hu, hq.simple⟩⟩, ⟨⟨h.walk.1, hq.walk⟩, ?_⟩, ?_⟩
      · intro f hf
        rcases List.mem_cons.mp hf with rfl | hf
        · exact he
        · exact hroute.usable f hf
      · rcases hcost with rfl | hlt
        · exact Or.inl rfl
        · rw [cost_cons, cost_cons]
          exact Or.inr (add_lt_add_right hlt _)

theorem IsShortest.isPath_of_positive (hpos : HasPositiveCycles N) {u : V}
    (h : IsShortest N u p v) : IsPath N.src N.dst u p v := by
  obtain ⟨q, hq, hroute, hcost⟩ := IsRoute.exists_cheaper hpos h.route
  rcases hcost with rfl | hlt
  · exact hq
  · exact absurd (h.least q hroute) (not_le.mpr hlt)

omit [LinearOrder M] [IsOrderedAddMonoid M] in
theorem cost_potential (φ : V → M) {u : V} (h : IsRoute N u p v) :
    cost (fun e => φ (N.src e) + N.weight e - φ (N.dst e)) p = φ u + cost N.weight p - φ v := by
  induction p generalizing u with
  | nil =>
    obtain rfl : u = v := h.walk
    rw [cost_nil, cost_nil, add_zero, sub_self]
  | cons e p ih =>
    obtain rfl : N.src e = u := h.walk.1
    have htail : IsRoute N (N.dst e) p v :=
      ⟨h.walk.2, fun f hf => h.usable f (List.mem_cons_of_mem e hf)⟩
    rw [cost_cons, cost_cons, ih htail]
    abel

theorem hasPositiveCycles_of_potential (φ : V → M)
    (hup : ∀ f, N.usable f → φ (N.dst f) < φ (N.src f) + N.weight f) : HasPositiveCycles N := by
  intro u p hp
  have hpos := cost_pos (w := fun e => φ (N.src e) + N.weight e - φ (N.dst e))
    (fun f hf => sub_pos.mpr (hup f (hp.route.usable f hf))) hp.ne_nil
  rwa [cost_potential φ hp.route, add_sub_cancel_left] at hpos

end Cycles

section Final

def IsFinal (N : Network V E M) (s : V) (c₀ : M) (d : V → Option M) : Prop :=
  ∀ v p, IsRoute N s p v → ∃ c, d v = some c ∧ c ≤ c₀ + cost N.weight p

theorem IsExact.isFinal {L : List E} {n : ℕ} (hpos : HasPositiveCycles N)
    (husable : ∀ f, N.usable f → f ∈ L)
    (hlen : ∀ v p, IsRoute N s p v → IsPath N.src N.dst s p v → p.length ≤ n)
    (h : IsExact N s c₀ (List.replicate n L).flatten d) : IsFinal N s c₀ d := by
  intro v p hp
  obtain ⟨q, hq, hroute, hcost⟩ := IsRoute.exists_cheaper hpos hp
  have hsub : q.Sublist (List.replicate n L).flatten :=
    sublist_rounds (fun f hf => husable f (hroute.usable f hf)) (hlen v q hroute hq)
  obtain ⟨c, hc, hle⟩ := h.le_of_follows ⟨hroute, hsub⟩
  have hqp : cost N.weight q ≤ cost N.weight p := hcost.elim (fun heq => heq ▸ le_rfl) le_of_lt
  exact ⟨c, hc, hle.trans (add_le_add_right hqp c₀)⟩

section

omit [IsOrderedAddMonoid M]

theorem IsFinal.mono (h : IsFinal N s c₀ d)
    (hlower : ∀ v old, d v = some old → ∃ new, d' v = some new ∧ new ≤ old) :
    IsFinal N s c₀ d' := by
  intro v p hp
  obtain ⟨c, hc, hle⟩ := h v p hp
  obtain ⟨new, hnew, hle'⟩ := hlower v c hc
  exact ⟨new, hnew, hle'.trans hle⟩

theorem IsFinal.le_edge (h : IsFinal N s c₀ d) (hexact : IsExact N s c₀ S d) (he : N.usable e)
    (ha : d (N.src e) = some a) : ∃ b, d (N.dst e) = some b ∧ b ≤ a + N.weight e := by
  obtain ⟨p, hp, rfl⟩ := ((hexact _).1 a ha).followed
  obtain ⟨b, hb, hle⟩ := h _ _ (isRoute_concat.mpr ⟨hp.route, he, rfl⟩)
  rw [cost_concat, ← add_assoc] at hle
  exact ⟨b, hb, hle⟩

end

section

variable (h : IsFinal N s c₀ d)

include h

theorem IsFinal.tight_of_isLast (hexact : IsExact N s c₀ S d)
    (he : IsLast N s c₀ S d e) : Tight N d e := by
  obtain ⟨a, b, ha, hb, hle⟩ := hexact.label_of_isLast he
  obtain ⟨b', hb', hle'⟩ := h.le_edge hexact he.1 ha
  obtain rfl := Option.some.inj (hb.symm.trans hb')
  exact ⟨a, ha, by rw [hb, le_antisymm hle' hle]⟩

theorem IsFinal.shortest_of_tight (hsource : d s = some c₀)
    (hp : IsRoute N s p v) (htight : ∀ f ∈ p, Tight N d f) : IsShortest N s p v := by
  have hlabel := tight_walk hp.walk htight hsource
  refine ⟨hp, fun q hq => ?_⟩
  obtain ⟨b, hb, hle⟩ := h v q hq
  obtain rfl := Option.some.inj (hlabel.symm.trans hb)
  exact le_of_add_le_add_left hle

theorem IsFinal.label_of_shortest (hexact : IsExact N s c₀ S d)
    (hp : IsShortest N s p v) : d v = some (c₀ + cost N.weight p) := by
  obtain ⟨c, hc, hle⟩ := h v p hp.route
  obtain ⟨q, hq, rfl⟩ := ((hexact v).1 c hc).followed
  rw [hc, le_antisymm hle (add_le_add_right (hp.least q hq.route) c₀)]

/-- Every edge of a shortest route is the last one of a cheapest route, if its beginning follows
the order. -/
theorem IsFinal.isLast_of_shortest {p₁ p₂ : List E}
    (hexact : IsExact N s c₀ S d) (hp : IsShortest N s (p₁ ++ e :: p₂) v)
    (hsub : (p₁ ++ [e]).Sublist S) : IsLast N s c₀ S d e := by
  obtain ⟨x, hp₁, hp₂⟩ := isRoute_append.mp hp.route
  obtain rfl : N.src e = x := hp₂.walk.1
  have he : N.usable e := hp₂.usable e List.mem_cons_self
  have hfirst : IsRoute N s (p₁ ++ [e]) (N.dst e) := isRoute_concat.mpr ⟨hp₁, he, rfl⟩
  have hrest : IsRoute N (N.dst e) p₂ v :=
    ⟨hp₂.walk.2, fun f hf => hp₂.usable f (List.mem_cons_of_mem e hf)⟩
  obtain ⟨c, hc, hle⟩ := h _ _ hfirst
  obtain ⟨q, hq, rfl⟩ := ((hexact _).1 c hc).followed
  -- a cheaper way to the end of the edge would make the whole route cheaper
  have hleast := hp.least (q ++ p₂) (isRoute_append.mpr ⟨_, hq.route, hrest⟩)
  rw [List.append_cons, cost_append, cost_append _ q] at hleast
  have hge := add_le_add_right (le_of_add_le_add_right hleast) c₀
  refine ⟨he, p₁, ⟨hfirst, hsub⟩, ?_⟩
  rw [hc, le_antisymm hle hge]

end

end Final

section Balance

/-- When the edges `L` are relaxed after `S`, the edge offers its end exactly the label it has, and
no edge after it offers less. -/
def IsBalanced (N : Network V E M) (s : V) (c₀ : M) (S L : List E) (e : E) : Prop :=
  N.usable e ∧ ∃ T T' a, L = T ++ e :: T' ∧ IsCheapest N s c₀ (S ++ T) (N.src e) a ∧
    IsCheapest N s c₀ (S ++ T) (N.dst e) (a + N.weight e) ∧
    IsCheapest N s c₀ (S ++ L) (N.dst e) (a + N.weight e)

def IsBalancedAt (N : Network V E M) (s : V) (c₀ : M) (S T : List E) (d : V → Option M) (e : E) :
    Prop :=
  N.usable e ∧ ∃ T₁ T₂ a, T = T₁ ++ e :: T₂ ∧ IsCheapest N s c₀ (S ++ T₁) (N.src e) a ∧
    IsCheapest N s c₀ (S ++ T₁) (N.dst e) (a + N.weight e) ∧
    d (N.dst e) = some (a + N.weight e)

variable {f : E}

omit [IsOrderedAddMonoid M]

theorem IsExact.isBalancedAt_iff (h : IsExact N s c₀ (S ++ T) d) :
    IsBalancedAt N s c₀ S T d e ↔ IsBalanced N s c₀ S T e := by
  constructor
  · rintro ⟨he, T₁, T₂, a, rfl, hsrc, hdst, hlabel⟩
    exact ⟨he, T₁, T₂, a, rfl, hsrc, hdst, (h _).1 _ hlabel⟩
  · rintro ⟨he, T₁, T₂, a, rfl, hsrc, hdst, hlast⟩
    refine ⟨he, T₁, T₂, a, rfl, hsrc, hdst, ?_⟩
    obtain ⟨p, hp, -⟩ := hlast.followed
    obtain ⟨c, hc, -⟩ := h.le_of_follows hp
    rw [hc, ((h _).1 c hc).unique hlast]

theorem IsBalancedAt.concat (h : IsBalancedAt N s c₀ S T d f)
    (hsame : d' (N.dst f) = d (N.dst f)) : IsBalancedAt N s c₀ S (T ++ [e]) d' f := by
  obtain ⟨hf, T₁, T₂, a, rfl, hsrc, hdst, hlabel⟩ := h
  exact ⟨hf, T₁, T₂ ++ [e], a, by simp, hsrc, hdst, hsame.trans hlabel⟩

theorem IsExact.isBalancedAt_concat (h : IsExact N s c₀ (S ++ T) d) (he : N.usable e)
    (ha : d (N.src e) = some a) (hb : d (N.dst e) = some (a + N.weight e))
    (hsame : d' (N.dst e) = d (N.dst e)) : IsBalancedAt N s c₀ S (T ++ [e]) d' e :=
  ⟨he, T, [], a, rfl, (h _).1 a ha, (h _).1 _ hb, hsame.trans hb⟩

theorem IsExact.isBalancedAt_cases (h : IsExact N s c₀ (S ++ T) d)
    (hlower : ∀ old, d (N.dst f) = some old → ∃ new, d' (N.dst f) = some new ∧ new ≤ old)
    (hf : IsBalancedAt N s c₀ S (T ++ [e]) d' f) :
    IsBalancedAt N s c₀ S T d f ∧ d' (N.dst f) = d (N.dst f) ∨
      f = e ∧ N.usable e ∧ ∃ a, d (N.src e) = some a ∧ d (N.dst e) = some (a + N.weight e) := by
  obtain ⟨husable, T₁, T₂, a, heq, hsrc, hdst, hlabel⟩ := hf
  rcases List.eq_nil_or_concat T₂ with rfl | ⟨T₃, g, rfl⟩
  · right
    obtain ⟨rfl, hfe⟩ := List.append_inj' heq rfl
    obtain rfl : e = f := List.head_eq_of_cons_eq hfe
    have hsame : ∀ v c, IsCheapest N s c₀ (S ++ T) v c → d v = some c := by
      intro v c hc
      obtain ⟨p, hp, -⟩ := hc.followed
      obtain ⟨c', hc', -⟩ := h.le_of_follows hp
      rw [hc', ((h v).1 c' hc').unique hc]
    exact ⟨rfl, husable, a, hsame _ _ hsrc, hsame _ _ hdst⟩
  · left
    rw [List.concat_eq_append, ← List.cons_append, ← List.append_assoc] at heq
    obtain ⟨rfl, -⟩ := List.append_inj' heq rfl
    obtain ⟨p, hp, hcost⟩ := hdst.followed
    have hsub : (S ++ T₁).Sublist (S ++ (T₁ ++ f :: T₃)) :=
      (List.Sublist.refl S).append (List.sublist_append_left T₁ _)
    obtain ⟨c, hc, hle⟩ := h.le_of_follows (hp.mono hsub)
    obtain ⟨new, hnew, hle'⟩ := hlower c hc
    obtain rfl := Option.some.inj (hnew.symm.trans hlabel)
    rw [← hcost] at hle
    obtain rfl := le_antisymm hle' hle
    exact ⟨⟨husable, T₁, T₃, a, rfl, hsrc, hdst, hc⟩, hlabel.trans hc.symm⟩

end Balance

end RelaxationOrder

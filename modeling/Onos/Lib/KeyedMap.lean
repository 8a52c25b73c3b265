import Mathlib.Data.List.AList
import Mathlib.Data.List.Induction

/-! Finite maps with the operations of a concurrent map that are not in `AList`: storing or
removing by an optional value, and mapping the values. -/
namespace KeyedMap

abbrev Table (κ α : Type*) := AList fun _ : κ => α

variable {κ α β : Type*} [DecidableEq κ]

def put (m : Table κ α) (k : κ) : Option α → Table κ α
  | none => m.erase k
  | some a => m.insert k a

theorem lookup_put (m : Table κ α) (k j : κ) (a : Option α) :
    (put m k a).lookup j = if j = k then a else m.lookup j := by
  cases a with
  | none =>
    by_cases h : j = k
    · subst h; simp [put]
    · simp [put, h]
  | some a =>
    by_cases h : j = k
    · subst h; simp [put]
    · simp [put, h]

/-- Store the value unless the key has one; the value that was there is returned. -/
def putIfAbsent (m : Table κ α) (k : κ) (a : α) : Table κ α × Option α :=
  match m.lookup k with
  | none => (m.insert k a, none)
  | some old => (m, some old)

def replace [DecidableEq α] (m : Table κ α) (k : κ) (old new : α) : Option (Table κ α) :=
  if m.lookup k = some old then some (m.insert k new) else none

theorem putIfAbsent_of_none {m : Table κ α} {k : κ} (h : m.lookup k = none) (a : α) :
    putIfAbsent m k a = (m.insert k a, none) := by rw [putIfAbsent, h]

theorem putIfAbsent_of_some {m : Table κ α} {k : κ} {old : α} (h : m.lookup k = some old)
    (a : α) : putIfAbsent m k a = (m, some old) := by rw [putIfAbsent, h]

theorem replace_of_lookup [DecidableEq α] {m : Table κ α} {k : κ} {old : α}
    (h : m.lookup k = some old) (new : α) : replace m k old new = some (m.insert k new) :=
  if_pos h

theorem lookup_insert (m : Table κ α) (k j : κ) (a : α) :
    (m.insert k a).lookup j = if j = k then some a else m.lookup j := lookup_put m k j (some a)

theorem lookup_erase (m : Table κ α) (k j : κ) :
    (m.erase k).lookup j = if j = k then none else m.lookup j := lookup_put m k j none

def store (m : Table κ α) (k : κ) (a : α) : Table κ α :=
  if k ∈ m then m.replace k a else m.insert k a

theorem dlookup_kreplace (k j : κ) (a : α) (l : List (Sigma fun _ : κ => α)) :
    (l.kreplace k a).dlookup j = if j = k ∧ k ∈ l.keys then some a else l.dlookup j := by
  induction l with
  | nil => simp [List.kreplace]
  | cons e l ih =>
    obtain ⟨i, b⟩ := e
    by_cases hi : k = i
    · subst hi
      have hhead : (⟨k, b⟩ :: l : List (Sigma fun _ : κ => α)).kreplace k a = ⟨k, a⟩ :: l := by
        simp [List.kreplace, List.lookmap_cons_some]
      rw [hhead]
      by_cases hj : j = k
      · subst hj
        simp
      · rw [List.dlookup_cons_ne _ _ hj, List.dlookup_cons_ne _ _ hj, if_neg (fun h => hj h.1)]
    · have htail : (⟨i, b⟩ :: l : List (Sigma fun _ : κ => α)).kreplace k a =
          ⟨i, b⟩ :: l.kreplace k a := by
        simp [List.kreplace, List.lookmap_cons_none, hi]
      rw [htail]
      by_cases hj : j = i
      · subst hj
        rw [List.dlookup_cons_eq, List.dlookup_cons_eq, if_neg (fun h => hi h.1.symm)]
      · rw [List.dlookup_cons_ne _ _ hj, List.dlookup_cons_ne _ _ hj, ih, List.keys_cons]
        simp [hi]

theorem lookup_store (m : Table κ α) (k j : κ) (a : α) :
    (store m k a).lookup j = if j = k then some a else m.lookup j := by
  unfold store
  split_ifs with hk hj hj
  · change (m.entries.kreplace k a).dlookup j = some a
    rw [dlookup_kreplace, if_pos ⟨hj, hk⟩]
  · change (m.entries.kreplace k a).dlookup j = m.lookup j
    rw [dlookup_kreplace, if_neg fun h => hj h.1]
    rfl
  · rw [lookup_insert, if_pos hj]
  · rw [lookup_insert, if_neg hj]

theorem keys_store (m : Table κ α) (k : κ) (a : α) :
    (store m k a).keys = if k ∈ m then m.keys else k :: m.keys := by
  unfold store
  split_ifs with hk
  · exact AList.keys_replace k a m
  · rw [AList.keys_insert, List.erase_of_not_mem fun h => hk (AList.mem_keys.mp h)]

def mapValues (f : α → β) (m : Table κ α) : Table κ β where
  entries := m.entries.map fun e => ⟨e.1, f e.2⟩
  nodupKeys := by
    have h := m.nodupKeys
    unfold List.NodupKeys List.keys at h ⊢
    simpa [List.map_map, Function.comp_def] using h

theorem lookup_mapValues (f : α → β) (m : Table κ α) (k : κ) :
    (mapValues f m).lookup k = (m.lookup k).map f := by
  unfold AList.lookup mapValues
  dsimp only
  induction m.entries with
  | nil => rfl
  | cons e es ih =>
    obtain ⟨j, a⟩ := e
    by_cases h : k = j
    · subst h
      rw [List.map_cons, List.dlookup_cons_eq, List.dlookup_cons_eq]
      rfl
    · rw [List.map_cons, List.dlookup_cons_ne _ _ h, List.dlookup_cons_ne _ _ h]
      exact ih

theorem mem_entries_iff (m : Table κ α) (k : κ) (a : α) :
    (⟨k, a⟩ : Sigma fun _ : κ => α) ∈ m.entries ↔ m.lookup k = some a :=
  AList.mem_lookup_iff.symm

theorem mem_keys_iff (m : Table κ α) (k : κ) : k ∈ m.keys ↔ ∃ a, m.lookup k = some a := by
  rw [← AList.mem_keys, ← AList.lookup_isSome, Option.isSome_iff_exists]

section Bulk

def values (m : Table κ α) : List α := m.entries.map Sigma.snd

theorem mem_values_iff (m : Table κ α) (a : α) : a ∈ values m ↔ ∃ k, m.lookup k = some a := by
  simp only [values, List.mem_map, ← mem_entries_iff]
  constructor
  · rintro ⟨⟨k, b⟩, hmem, rfl⟩
    exact ⟨k, hmem⟩
  · rintro ⟨k, hmem⟩
    exact ⟨⟨k, a⟩, hmem, rfl⟩

theorem pairwise_values {key : α → κ} {m : Table κ α} (h : ∀ k a, m.lookup k = some a → key a = k) :
    (values m).Pairwise fun a b => key a ≠ key b := by
  have hkeys : (values m).map key = m.keys := by
    rw [values, AList.keys, List.keys, List.map_map]
    refine List.map_congr_left fun e he => ?_
    exact h e.1 e.2 ((mem_entries_iff m e.1 e.2).mp he)
  have hnodup : ((values m).map key).Nodup := by
    rw [hkeys]
    exact m.keys_nodup
  exact List.pairwise_map.mp hnodup

def insertAll (key : α → κ) (m : Table κ α) (as : List α) : Table κ α :=
  as.foldl (fun m a => m.insert (key a) a) m

def eraseAll (m : Table κ α) (ks : List κ) : Table κ α := ks.foldl (fun m k => m.erase k) m

def lastOf (key : α → κ) (as : List α) (k : κ) : Option α := as.reverse.find? fun a => key a = k

theorem lookup_insertAll (key : α → κ) (m : Table κ α) (as : List α) (j : κ) :
    (insertAll key m as).lookup j = (lastOf key as j).or (m.lookup j) := by
  induction as using List.reverseRecOn with
  | nil => rfl
  | append_singleton as a ih =>
    rw [insertAll, List.foldl_concat, lookup_insert, lastOf, List.reverse_concat]
    by_cases h : key a = j
    · rw [if_pos h.symm, List.find?_cons_of_pos (by simpa using h), Option.some_or]
    · rw [if_neg (Ne.symm h), List.find?_cons_of_neg (by simpa using h)]
      exact ih

theorem lookup_eraseAll (m : Table κ α) (ks : List κ) (j : κ) :
    (eraseAll m ks).lookup j = if j ∈ ks then none else m.lookup j := by
  induction ks using List.reverseRecOn with
  | nil => rfl
  | append_singleton ks k ih =>
    rw [eraseAll, List.foldl_concat, lookup_erase]
    by_cases h : j = k
    · rw [if_pos h, if_pos (by simp [h])]
    · rw [if_neg h]
      refine ih.trans ?_
      simp only [List.mem_append, List.mem_singleton, h, or_false]

theorem lastOf_eq_some {key : α → κ} {as : List α} {k : κ} {a : α} (h : lastOf key as k = some a) :
    a ∈ as ∧ key a = k := by
  refine ⟨List.mem_reverse.mp (List.mem_of_find?_eq_some h), ?_⟩
  simpa using List.find?_some h

theorem lastOf_eq_none {key : α → κ} {as : List α} {k : κ} :
    lastOf key as k = none ↔ ∀ a ∈ as, key a ≠ k := by
  simp [lastOf]

theorem lastOf_values {key : α → κ} {m : Table κ α} (h : ∀ k a, m.lookup k = some a → key a = k)
    (k : κ) : lastOf key (values m) k = m.lookup k := by
  cases hk : m.lookup k with
  | none =>
    rw [lastOf_eq_none]
    intro a ha heq
    obtain ⟨j, hj⟩ := (mem_values_iff m a).mp ha
    rw [← heq, h j a hj, hj] at hk
    cases hk
  | some a =>
    cases hlast : lastOf key (values m) k with
    | none =>
      exact absurd (h k a hk) (lastOf_eq_none.mp hlast a ((mem_values_iff m a).mpr ⟨k, hk⟩))
    | some b =>
      obtain ⟨hmem, hkey⟩ := lastOf_eq_some hlast
      obtain ⟨j, hj⟩ := (mem_values_iff m b).mp hmem
      rw [← h j b hj, hkey, hk] at hj
      exact hj.symm

theorem lookup_foldl_insert (f : κ → α) (m : Table κ α) (ks : List κ) (j : κ) :
    (ks.foldl (fun m k => m.insert k (f k)) m).lookup j =
      if j ∈ ks then some (f j) else m.lookup j := by
  induction ks using List.reverseRecOn with
  | nil => rfl
  | append_singleton ks k ih =>
    rw [List.foldl_concat, lookup_insert, ih]
    by_cases h : j = k
    · subst h
      simp
    · simp [h]

theorem lookup_foldlM {ε : Type*} (m : Table κ α) (start : Table κ β)
    {step : Table κ β → (Sigma fun _ : κ => α) → Except ε (Table κ β)} (val : κ → α → Option β)
    (hstep : ∀ t k a, m.lookup k = some a → t.lookup k = start.lookup k →
      ∃ t', step t ⟨k, a⟩ = .ok t' ∧
        ∀ j, t'.lookup j = if j = k then val k a else t.lookup j) :
    ∃ t, m.entries.foldlM step start = .ok t ∧
      ∀ j, t.lookup j = (m.lookup j).elim (start.lookup j) (val j) := by
  have hloop : ∀ (es : List (Sigma fun _ : κ => α)) (t : Table κ β), es.NodupKeys →
      (∀ e ∈ es, m.lookup e.1 = some e.2 ∧ t.lookup e.1 = start.lookup e.1) →
      ∃ t', es.foldlM step t = .ok t' ∧
        ∀ j, t'.lookup j = (es.dlookup j).elim (t.lookup j) (val j) := by
    intro es
    induction es with
    | nil => exact fun t _ _ => ⟨t, rfl, fun j => rfl⟩
    | cons e es ih =>
      intro t hnodup hes
      obtain ⟨k, a⟩ := e
      obtain ⟨hk, hnodup⟩ := List.nodupKeys_cons.mp hnodup
      obtain ⟨⟨hm, ht⟩, hes⟩ := List.forall_mem_cons.mp hes
      obtain ⟨t₁, hok, hlookup⟩ := hstep t k a hm ht
      have hne : ∀ e ∈ es, e.1 ≠ k := by
        rintro ⟨j, b⟩ he heq
        obtain rfl : j = k := heq
        exact hk (List.mem_keys.mpr ⟨b, he⟩)
      obtain ⟨t', hrest, hlookup'⟩ := ih t₁ hnodup fun e he =>
        ⟨(hes e he).1, by rw [hlookup, if_neg (hne e he), (hes e he).2]⟩
      refine ⟨t', ?_, fun j => ?_⟩
      · rw [List.foldlM_cons, hok]
        exact hrest
      · rw [hlookup', hlookup]
        by_cases hj : j = k
        · subst hj
          rw [if_pos rfl, List.dlookup_cons_eq, List.dlookup_eq_none.mpr hk]
          rfl
        · rw [if_neg hj, List.dlookup_cons_ne _ _ hj]
  exact hloop m.entries start m.nodupKeys fun e he => ⟨(mem_entries_iff m e.1 e.2).mp he, rfl⟩
end Bulk

end KeyedMap

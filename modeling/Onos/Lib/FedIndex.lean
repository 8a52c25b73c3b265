import Onos.Lib.KeyedMap

/-! A table under one key and an index of its values under another. A feed of the changes of the
table brings the index up to date; some values are also posted to the index directly. The feed of a
removal has only the key, and what to take out of the index is found by a search for it. -/
namespace FedIndex

open KeyedMap

inductive Change (κ α : Type*) where
  | put (a : α)
  | remove (k : κ)
  deriving DecidableEq, Repr

structure Indexed (κ ι α : Type*) where
  table : Table κ α
  index : Table ι α
  feed : List (Change κ α)

variable {κ ι α β : Type*} [DecidableEq κ] [DecidableEq ι]

section Operations

variable (key : α → κ) (id : α → ι)

def Change.subject : Change κ α → κ
  | .put a => key a
  | .remove k => k

def Change.value : Change κ α → Option α
  | .put a => some a
  | .remove _ => none

namespace Indexed

def put (s : Indexed κ ι α) (a : α) : Indexed κ ι α :=
  { s with table := s.table.insert (key a) a, feed := s.feed ++ [.put a] }

def remove (s : Indexed κ ι α) (k : κ) : Indexed κ ι α :=
  if k ∈ s.table then { s with table := s.table.erase k, feed := s.feed ++ [.remove k] } else s

def post (s : Indexed κ ι α) (a : α) : Indexed κ ι α :=
  { s with index := s.index.insert (id a) a }

def held (s : Indexed κ ι α) (k : κ) : Option α := (values s.index).find? fun a => key a = k

def applied (s : Indexed κ ι α) : Change κ α → Table ι α
  | .put a => s.index.insert (id a) a
  | .remove k =>
    match s.held key k with
    | none => s.index
    | some a => s.index.erase (id a)

def deliver (s : Indexed κ ι α) : Indexed κ ι α :=
  match s.feed with
  | [] => s
  | c :: cs => { s with index := s.applied key id c, feed := cs }

def settled (s : Indexed κ ι α) (k : κ) : Option α :=
  match lastOf (Change.subject key) s.feed k with
  | none => s.held key k
  | some c => c.value

/-- The pair is that of a value of the index, or of one that the feed has for it. -/
def Knows (s : Indexed κ ι α) (k : κ) (i : ι) : Prop :=
  (∃ a, s.index.lookup i = some a ∧ key a = k) ∨ ∃ a, .put a ∈ s.feed ∧ key a = k ∧ id a = i

def Fits (s : Indexed κ ι α) (a : α) : Prop := ∀ k i, s.Knows key id k i → (k = key a ↔ i = id a)

def Quiet (s : Indexed κ ι α) (k : κ) (i : ι) : Prop :=
  ∀ c ∈ s.feed, c.subject key ≠ k ∧ c.value.map id ≠ some i

end Indexed

end Operations

section Consistency

open Indexed

variable {key : α → κ} {id : α → ι}

theorem lastOf_append_singleton {σ : Type*} (f : σ → κ) (cs : List σ) (c : σ) (k : κ) :
    lastOf f (cs ++ [c]) k = if f c = k then some c else lastOf f cs k := by
  rw [lastOf, List.reverse_concat]
  split_ifs with h
  · exact List.find?_cons_of_pos (by simpa using h)
  · exact List.find?_cons_of_neg (by simpa using h)

theorem lastOf_cons {σ : Type*} (f : σ → κ) (c : σ) (cs : List σ) (k : κ) :
    lastOf f (c :: cs) k = (lastOf f cs k).or (if f c = k then some c else none) := by
  rw [lastOf, List.reverse_cons, List.find?_append]
  congr 1
  split_ifs with h
  · exact List.find?_cons_of_pos (by simpa using h)
  · rw [List.find?_cons_of_neg (by simpa using h), List.find?_nil]

structure Consistent (key : α → κ) (id : α → ι) (content : α → β) (s : Indexed κ ι α) : Prop where
  own_key : ∀ k a, s.table.lookup k = some a → key a = k
  own_id : ∀ i a, s.index.lookup i = some a → id a = i
  paired : ∀ k i k' i', s.Knows key id k i → s.Knows key id k' i' → (k = k' ↔ i = i')
  current : ∀ k, (s.table.lookup k).map content = (s.settled key k).map content

variable {content : α → β} {s : Indexed κ ι α}

variable {k : κ} {a : α}

theorem held_eq_some (h : s.held key k = some a) :
    (∃ i, s.index.lookup i = some a) ∧ key a = k := by
  refine ⟨(mem_values_iff _ _).mp (List.mem_of_find?_eq_some h), ?_⟩
  simpa using List.find?_some h

theorem held_eq_none : s.held key k = none ↔ ∀ i a, s.index.lookup i = some a → key a ≠ k := by
  simp only [held, List.find?_eq_none, mem_values_iff, decide_eq_true_eq]
  exact ⟨fun h i a hi => h a ⟨i, hi⟩, fun h a ⟨i, hi⟩ => h i a hi⟩

theorem held_iff (hone : ∀ i j a b, s.index.lookup i = some a → s.index.lookup j = some b →
    key a = key b → i = j) :
    s.held key k = some a ↔ ∃ i, s.index.lookup i = some a ∧ key a = k := by
  constructor
  · intro h
    obtain ⟨⟨i, hi⟩, hkey⟩ := held_eq_some h
    exact ⟨i, hi, hkey⟩
  · rintro ⟨i, hi, rfl⟩
    cases hheld : s.held key (key a) with
    | none => exact absurd rfl (held_eq_none.mp hheld i a hi)
    | some b =>
      obtain ⟨⟨j, hj⟩, hkey⟩ := held_eq_some hheld
      rw [hone j i b a hj hi hkey, hi] at hj
      exact hj.symm

omit [DecidableEq κ] in
theorem one_of_paired (hpaired : ∀ k i k' i', s.Knows key id k i → s.Knows key id k' i' →
    (k = k' ↔ i = i')) (i j : ι) (a b : α) (hi : s.index.lookup i = some a)
    (hj : s.index.lookup j = some b) (hkey : key a = key b) : i = j :=
  (hpaired _ _ _ _ (Or.inl ⟨a, hi, rfl⟩) (Or.inl ⟨b, hj, rfl⟩)).mp hkey

theorem knows_put (a : α) (k : κ) (i : ι) :
    (s.put key a).Knows key id k i ↔ s.Knows key id k i ∨ (k = key a ∧ i = id a) := by
  simp only [Knows, Indexed.put, List.mem_append, List.mem_singleton, Change.put.injEq]
  constructor
  · rintro (h | ⟨b, hb | rfl, hkey, hid⟩)
    · exact Or.inl (Or.inl h)
    · exact Or.inl (Or.inr ⟨b, hb, hkey, hid⟩)
    · exact Or.inr ⟨hkey.symm, hid.symm⟩
  · rintro ((h | ⟨b, hb, hkey, hid⟩) | ⟨hkey, hid⟩)
    · exact Or.inl h
    · exact Or.inr ⟨b, Or.inl hb, hkey, hid⟩
    · exact Or.inr ⟨a, Or.inr rfl, hkey.symm, hid.symm⟩

theorem knows_remove (j : κ) (k : κ) (i : ι) :
    (s.remove j).Knows key id k i ↔ s.Knows key id k i := by
  unfold Indexed.remove
  split_ifs
  · simp [Knows]
  · exact Iff.rfl

section

omit [DecidableEq κ]

theorem knows_of_knows_post {i : ι} (h : (s.post id a).Knows key id k i) :
    s.Knows key id k i ∨ (k = key a ∧ i = id a) := by
  rcases h with ⟨b, hb, hkey⟩ | h
  · rw [Indexed.post, lookup_insert] at hb
    split_ifs at hb with hi
    · obtain rfl := Option.some.inj hb
      exact Or.inr ⟨hkey.symm, hi⟩
    · exact Or.inl (Or.inl ⟨b, hb, hkey⟩)
  · exact Or.inl (Or.inr h)

theorem knows_post (hfit : s.Fits key id a) {i : ι} (h : s.Knows key id k i) :
    (s.post id a).Knows key id k i := by
  by_cases hi : i = id a
  · refine Or.inl ⟨a, ?_, ((hfit k i h).mpr hi).symm⟩
    rw [Indexed.post, lookup_insert, if_pos hi]
  · rcases h with ⟨b, hb, hkey⟩ | h
    · refine Or.inl ⟨b, ?_, hkey⟩
      rw [Indexed.post, lookup_insert, if_neg hi]
      exact hb
    · exact Or.inr h

end

section

omit [DecidableEq ι]

theorem settled_of_some {c : Change κ α}
    (h : lastOf (Change.subject key) s.feed k = some c) : s.settled key k = c.value := by
  rw [settled, h]

theorem settled_of_none (h : lastOf (Change.subject key) s.feed k = none) :
    s.settled key k = s.held key k := by rw [settled, h]

theorem settled_put (a : α) (k : κ) :
    (s.put key a).settled key k = if key a = k then some a else s.settled key k := by
  unfold settled
  rw [Indexed.put, lastOf_append_singleton]
  split_ifs with h h' h'
  · rfl
  · exact absurd h h'
  · exact absurd h' h
  · rfl

theorem settled_remove {j : κ} (h : j ∈ s.table) (k : κ) :
    (s.remove j).settled key k = if j = k then none else s.settled key k := by
  unfold settled
  rw [Indexed.remove, if_pos h, lastOf_append_singleton]
  split_ifs with h h' h'
  · rfl
  · exact absurd h h'
  · exact absurd h' h
  · rfl

end

section Preserved

variable (hs : Consistent key id content s)
include hs

variable {a : α}

theorem Consistent.fits_of_knows (h : s.Knows key id (key a) (id a)) :
    s.Fits key id a := fun k i hk => hs.paired k i (key a) (id a) hk h

theorem Consistent.paired_of_fits (hfit : s.Fits key id a) {s' : Indexed κ ι α}
    (hsub : ∀ k i, s'.Knows key id k i → s.Knows key id k i ∨ (k = key a ∧ i = id a)) :
    ∀ k i k' i', s'.Knows key id k i → s'.Knows key id k' i' → (k = k' ↔ i = i') := by
  intro k i k' i' h h'
  rcases hsub k i h with h | ⟨rfl, rfl⟩ <;> rcases hsub k' i' h' with h' | ⟨rfl, rfl⟩
  · exact hs.paired k i k' i' h h'
  · exact hfit k i h
  · exact eq_comm.trans ((hfit k' i' h').trans eq_comm)
  · exact iff_of_true rfl rfl

theorem Consistent.put (hfit : s.Fits key id a) : Consistent key id content (s.put key a) where
  own_key := by
    intro k b hb
    rw [Indexed.put, lookup_insert] at hb
    split_ifs at hb with hk
    · rw [← Option.some.inj hb, hk]
    · exact hs.own_key k b hb
  own_id := hs.own_id
  paired := hs.paired_of_fits hfit fun k i h => (knows_put a k i).mp h
  current := by
    intro k
    rw [settled_put, Indexed.put, lookup_insert]
    by_cases hk : key a = k
    · rw [if_pos hk, if_pos hk.symm]
    · rw [if_neg hk, if_neg (Ne.symm hk)]
      exact hs.current k

theorem Consistent.remove (j : κ) : Consistent key id content (s.remove j) := by
  by_cases hj : j ∈ s.table
  · refine ⟨?_, ?_, ?_, ?_⟩
    · intro k b hb
      rw [Indexed.remove, if_pos hj, lookup_erase] at hb
      split_ifs at hb
      exact hs.own_key k b hb
    · intro i b hb
      rw [Indexed.remove, if_pos hj] at hb
      exact hs.own_id i b hb
    · intro k i k' i' h h'
      exact hs.paired k i k' i' ((knows_remove j k i).mp h) ((knows_remove j k' i').mp h')
    · intro k
      rw [settled_remove hj, Indexed.remove, if_pos hj, lookup_erase]
      by_cases hk : j = k
      · rw [if_pos hk, if_pos hk.symm]
      · rw [if_neg hk, if_neg (Ne.symm hk)]
        exact hs.current k
  · rw [Indexed.remove, if_neg hj]
    exact hs

variable {k : κ}

theorem Consistent.held_post_of_ne (hfit : s.Fits key id a) (hk : k ≠ key a) :
    (s.post id a).held key k = s.held key k := by
  have hpaired := hs.paired_of_fits hfit fun k i h => knows_of_knows_post (s := s) (a := a) h
  apply Option.ext
  intro b
  rw [held_iff (one_of_paired hpaired), held_iff (one_of_paired hs.paired)]
  have hne : ∀ i, s.index.lookup i = some b → key b = k → i ≠ id a := fun i hi hkey hid =>
    hk ((hfit k i (Or.inl ⟨b, hi, hkey⟩)).mpr hid)
  constructor
  · rintro ⟨i, hi, hkey⟩
    rw [Indexed.post, lookup_insert] at hi
    split_ifs at hi with hid
    · rw [Option.some.inj hi] at hk
      exact absurd hkey.symm hk
    · exact ⟨i, hi, hkey⟩
  · rintro ⟨i, hi, hkey⟩
    refine ⟨i, ?_, hkey⟩
    rw [Indexed.post, lookup_insert, if_neg (hne i hi hkey)]
    exact hi

theorem Consistent.held_post_self (hfit : s.Fits key id a) :
    (s.post id a).held key (key a) = some a := by
  have hpaired := hs.paired_of_fits hfit fun k i h => knows_of_knows_post (s := s) (a := a) h
  exact (held_iff (one_of_paired hpaired)).mpr ⟨id a, AList.lookup_insert s.index, rfl⟩

/-- A value can be posted while a change of its key is under way, or in the place of one that has
the same content. -/
theorem Consistent.post (hfit : s.Fits key id a)
    (h : (lastOf (Change.subject key) s.feed (key a)).isSome ∨
      ∃ b, s.index.lookup (id a) = some b ∧ key b = key a ∧ content b = content a) :
    Consistent key id content (s.post id a) where
  own_key := hs.own_key
  own_id := by
    intro i b hb
    rw [Indexed.post, lookup_insert] at hb
    split_ifs at hb with hi
    · rw [← Option.some.inj hb, hi]
    · exact hs.own_id i b hb
  paired := hs.paired_of_fits hfit fun k i h => knows_of_knows_post h
  current := by
    intro k
    refine (hs.current k).trans ?_
    cases hlast : lastOf (Change.subject key) s.feed k with
    | some c => rw [settled_of_some hlast, settled_of_some (s := s.post id a) hlast]
    | none =>
      rw [settled_of_none hlast, settled_of_none (s := s.post id a) hlast]
      by_cases hk : k = key a
      · obtain ⟨b, hb, hkey, hsame⟩ : ∃ b, s.index.lookup (id a) = some b ∧ key b = key a ∧
            content b = content a := h.resolve_left (by rw [← hk, hlast]; exact Bool.false_ne_true)
        have hold : s.held key k = some b :=
          (held_iff (one_of_paired hs.paired)).mpr ⟨_, hb, hkey.trans hk.symm⟩
        have hnew : (s.post id a).held key k = some a := by
          rw [hk]
          exact hs.held_post_self hfit
        rw [hold, hnew, Option.map_some, Option.map_some, hsame]
      · rw [hs.held_post_of_ne hfit hk]

theorem Consistent.own_held (h : s.held key k = some a) : s.index.lookup (id a) = some a := by
  obtain ⟨⟨i, hi⟩, _⟩ := held_eq_some h
  rw [hs.own_id i a hi]
  exact hi

theorem Consistent.held_applied_remove (j k : κ) (cs : List (Change κ α)) :
    Indexed.held key ⟨s.table, s.applied key id (.remove j), cs⟩ k =
      if j = k then none else s.held key k := by
  have hpaired := hs.paired
  cases hheld : s.held key j with
  | none =>
    have hsame : s.applied key id (.remove j) = s.index := by rw [applied, hheld]
    rw [hsame]
    split_ifs with hk
    · rw [← hk]
      exact hheld
    · rfl
  | some a =>
    have herase : s.applied key id (.remove j) = s.index.erase (id a) := by rw [applied, hheld]
    have hkey : key a = j := (held_eq_some hheld).2
    have hown : s.index.lookup (id a) = some a := hs.own_held hheld
    rw [herase]
    have hone := one_of_paired hs.paired
    have hold : ∀ i b, (s.index.erase (id a)).lookup i = some b → s.index.lookup i = some b ∧
        i ≠ id a := by
      intro i b hb
      rw [lookup_erase] at hb
      split_ifs at hb with hi
      exact ⟨hb, hi⟩
    apply Option.ext
    intro b
    rw [held_iff fun i i' c c' hc hc' => hone i i' c c' (hold i c hc).1 (hold i' c' hc').1]
    constructor
    · rintro ⟨i, hi, hb⟩
      obtain ⟨hi, hne⟩ := hold i b hi
      have hk : j ≠ k := fun hk => hne (hone i (id a) b a hi hown (by rw [hb, hkey, hk]))
      rw [if_neg hk, held_iff hone]
      exact ⟨i, hi, hb⟩
    · intro hb
      split_ifs at hb with hk
      obtain ⟨i, hi, hb⟩ := (held_iff hone).mp hb
      refine ⟨i, ?_, hb⟩
      rw [lookup_erase, if_neg, hi]
      rintro rfl
      rw [hown] at hi
      rw [← Option.some.inj hi, hkey] at hb
      exact hk hb

variable {c : Change κ α}

omit hs in
theorem lookup_applied {i : ι} {b : α} (h : (s.applied key id c).lookup i = some b) :
    (c = .put b ∧ i = id b) ∨ s.index.lookup i = some b := by
  cases c with
  | put a =>
    rw [applied, lookup_insert] at h
    split_ifs at h with hi
    · obtain rfl := Option.some.inj h
      exact Or.inl ⟨rfl, hi⟩
    · exact Or.inr h
  | remove j =>
    rw [applied] at h
    cases hheld : s.held key j with
    | none =>
      rw [hheld] at h
      exact Or.inr h
    | some a =>
      rw [hheld] at h
      change (s.index.erase (id a)).lookup i = some b at h
      rw [lookup_erase] at h
      split_ifs at h
      exact Or.inr h

omit hs in
theorem knows_of_applied {cs : List (Change κ α)} (hfeed : s.feed = c :: cs)
    {i : ι} (h : Indexed.Knows key id ⟨s.table, s.applied key id c, cs⟩ k i) :
    s.Knows key id k i := by
  rcases h with ⟨b, hb, hkey⟩ | ⟨b, hb, hkey, hid⟩
  · rcases lookup_applied hb with ⟨rfl, rfl⟩ | hb
    · exact Or.inr ⟨b, by rw [hfeed]; exact List.mem_cons_self, hkey, rfl⟩
    · exact Or.inl ⟨b, hb, hkey⟩
  · exact Or.inr ⟨b, by rw [hfeed]; exact List.mem_cons_of_mem c hb, hkey, hid⟩

theorem Consistent.held_applied {cs : List (Change κ α)} (hfeed : s.feed = c :: cs) (k : κ) :
    Indexed.held key ⟨s.table, s.applied key id c, cs⟩ k =
      if c.subject key = k then c.value else s.held key k := by
  cases c with
  | remove j => exact hs.held_applied_remove j k cs
  | put a =>
    have hknows : s.Knows key id (key a) (id a) :=
      Or.inr ⟨a, by rw [hfeed]; exact List.mem_cons_self, rfl, rfl⟩
    have hfit := hs.fits_of_knows hknows
    change (s.post id a).held key k = if key a = k then some a else s.held key k
    split_ifs with hk
    · rw [← hk]
      exact hs.held_post_self hfit
    · exact hs.held_post_of_ne hfit (Ne.symm hk)

theorem Consistent.deliver : Consistent key id content (s.deliver key id) := by
  cases hfeed : s.feed with
  | nil =>
    rw [Indexed.deliver, hfeed]
    exact hs
  | cons c cs =>
    rw [Indexed.deliver, hfeed]
    refine ⟨hs.own_key, ?_, ?_, ?_⟩
    · intro i b hb
      rcases lookup_applied hb with ⟨_, hid⟩ | hb
      · exact hid.symm
      · exact hs.own_id i b hb
    · intro k i k' i' h h'
      exact hs.paired k i k' i' (knows_of_applied hfeed h) (knows_of_applied hfeed h')
    · intro k
      refine (hs.current k).trans (congrArg (Option.map content) ?_)
      have hlast := lastOf_cons (Change.subject key) c cs k
      rw [← hfeed] at hlast
      cases hrest : lastOf (Change.subject key) cs k with
      | some d =>
        rw [hrest, Option.some_or] at hlast
        rw [settled_of_some hlast, settled_of_some (s := ⟨_, _, cs⟩) hrest]
      | none =>
        rw [hrest, Option.none_or] at hlast
        rw [settled_of_none (s := ⟨_, _, cs⟩) hrest, hs.held_applied hfeed]
        split_ifs at hlast ⊢ with hk
        · exact settled_of_some hlast
        · exact settled_of_none hlast

theorem Consistent.fits_of_quiet (htable : s.table.lookup (key a) = none)
    (hindex : s.index.lookup (id a) = none) (hquiet : s.Quiet key id (key a) (id a)) :
    s.Fits key id a := by
  have hlast : lastOf (Change.subject key) s.feed (key a) = none :=
    lastOf_eq_none.mpr fun c hc => (hquiet c hc).1
  have hheld : s.held key (key a) = none := by
    have hcurrent := hs.current (key a)
    rw [htable, settled_of_none hlast] at hcurrent
    exact Option.map_eq_none_iff.mp hcurrent.symm
  rintro k i (⟨b, hb, hkey⟩ | ⟨b, hb, hkey, hid⟩)
  · refine iff_of_false (fun hk => ?_) (fun hi => ?_)
    · exact held_eq_none.mp hheld i b hb (hkey.trans hk)
    · rw [hi, hindex] at hb
      cases hb
  · obtain ⟨hne, hne'⟩ := hquiet _ hb
    refine iff_of_false (fun hk => hne (hkey.trans hk)) (fun hi => hne' ?_)
    rw [← hi, ← hid]
    rfl

variable (hcontent : ∀ a b, content a = content b → key a = key b ∧ id a = id b)
include hcontent

theorem Consistent.knows_of_lookup (h : s.table.lookup k = some a) :
    s.Knows key id (key a) (id a) := by
  have hcurrent := hs.current k
  rw [h, Option.map_some] at hcurrent
  obtain ⟨b, hb, hsame⟩ := Option.map_eq_some_iff.mp hcurrent.symm
  obtain ⟨hkey, hid⟩ := hcontent b a hsame
  cases hlast : lastOf (Change.subject key) s.feed k with
  | some c =>
    rw [settled_of_some hlast] at hb
    cases c with
    | put d =>
      obtain rfl := Option.some.inj hb
      exact Or.inr ⟨d, (lastOf_eq_some hlast).1, hkey, hid⟩
    | remove j => cases hb
  | none =>
    rw [settled_of_none hlast] at hb
    exact Or.inl ⟨b, by rw [← hid]; exact hs.own_held hb, hkey⟩

theorem Consistent.mirrored (hfeed : s.feed = []) :
    (∀ k k' a a', s.table.lookup k = some a → s.table.lookup k' = some a' → id a = id a' →
      k = k') ∧
    (∀ k a, s.table.lookup k = some a →
      ∃ b, s.index.lookup (id a) = some b ∧ content b = content a) ∧
    ∀ i b, s.index.lookup i = some b →
      ∃ a, s.table.lookup (key b) = some a ∧ id a = i ∧ content a = content b := by
  have hsettled : ∀ k, s.settled key k = s.held key k := fun k =>
    settled_of_none (by rw [hfeed]; rfl)
  refine ⟨?_, ?_, ?_⟩
  · intro k k' a a' h h' hid
    rw [← hs.own_key k a h, ← hs.own_key k' a' h']
    exact (hs.paired _ _ _ _ (hs.knows_of_lookup hcontent h)
      (hs.knows_of_lookup hcontent h')).mpr hid
  · intro k a h
    have hcurrent := hs.current k
    rw [h, hsettled] at hcurrent
    obtain ⟨b, hb, hsame⟩ := Option.map_eq_some_iff.mp hcurrent.symm
    rw [← (hcontent b a hsame).2]
    exact ⟨b, hs.own_held hb, hsame⟩
  · intro i b h
    have hcurrent := hs.current (key b)
    rw [hsettled, (held_iff (one_of_paired hs.paired)).mpr ⟨i, h, rfl⟩] at hcurrent
    obtain ⟨a, ha, hsame⟩ := Option.map_eq_some_iff.mp hcurrent
    exact ⟨a, ha, (hcontent a b hsame).2.trans (hs.own_id i b h), hsame⟩

end Preserved

section Extension

/-- Consistency goes over from the first to the second, and no pair is forgotten. -/
def Extends (key : α → κ) (id : α → ι) (content : α → β) (s s' : Indexed κ ι α) : Prop :=
  Consistent key id content s →
    Consistent key id content s' ∧ ∀ k i, s.Knows key id k i → s'.Knows key id k i

theorem Extends.refl (s : Indexed κ ι α) : Extends key id content s s :=
  fun hs => ⟨hs, fun _ _ h => h⟩

theorem Extends.trans {s s' s'' : Indexed κ ι α} (h : Extends key id content s s')
    (h' : Extends key id content s' s'') : Extends key id content s s'' := by
  intro hs
  obtain ⟨hs', hknows⟩ := h hs
  obtain ⟨hs'', hknows'⟩ := h' hs'
  exact ⟨hs'', fun k i hk => hknows' k i (hknows k i hk)⟩

theorem extends_remove (s : Indexed κ ι α) (k : κ) : Extends key id content s (s.remove k) :=
  fun hs => ⟨hs.remove k, fun j i h => (knows_remove k j i).mpr h⟩

theorem extends_put {a : α} (hfit : s.Fits key id a) : Extends key id content s (s.put key a) :=
  fun hs => ⟨hs.put hfit, fun k i h => (knows_put a k i).mpr (Or.inl h)⟩

theorem extends_record {a : α} (hfit : s.Fits key id a) :
    Extends key id content s ((s.put key a).post id a) := by
  intro hs
  have hput := hs.put hfit
  have hfit' : (s.put key a).Fits key id a := fun k i h => by
    rcases (knows_put a k i).mp h with h | ⟨rfl, rfl⟩
    · exact hfit k i h
    · exact iff_of_true rfl rfl
  refine ⟨hput.post hfit' (Or.inl ?_), fun k i h => knows_post hfit' ?_⟩
  · rw [Indexed.put, lastOf_append_singleton, if_pos (show (Change.put a).subject key = key a from rfl)]
    rfl
  · exact (knows_put a k i).mpr (Or.inl h)

theorem extends_post {a b : α} (hb : s.index.lookup (id a) = some b) (hkey : key b = key a)
    (hsame : content b = content a) : Extends key id content s (s.post id a) := by
  intro hs
  have hfit : s.Fits key id a := hs.fits_of_knows (Or.inl ⟨b, hb, hkey⟩)
  exact ⟨hs.post hfit (Or.inr ⟨b, hb, hkey, hsame⟩), fun k i h => knows_post hfit h⟩

end Extension

end Consistency

end FedIndex

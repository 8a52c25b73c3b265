import Onos.ECMapReplica
import Mathlib.Data.Multiset.Basic

/-! Replicas that receive the same updates. The order, the batching and the duplicates differ
from replica to replica; the items do not. -/
namespace ECMapConvergence

open LastWriter ECMapReplica ECMapReplica.Replica

variable {K V T N : Type*} [DecidableEq K]

def carried (updates : List (UpdateEntry K V T)) (key : K) : List (Option V × T) :=
  updates.filterMap fun u => if u.key = key then u.value.map MapValue.content else none

def received (batches : List (ℕ × List (UpdateEntry K V T))) : List (UpdateEntry K V T) :=
  batches.flatMap Prod.snd

/-- The messages arrive in some order and batching, each of them at least once. -/
def Delivers (messages : Multiset (UpdateEntry K V T))
    (batches : List (ℕ × List (UpdateEntry K V T))) : Prop :=
  ∀ u, u ∈ received batches ↔ u ∈ messages

def writes (r : Replica K V T N) (messages : Multiset (UpdateEntry K V T)) (key : K) :
    Set (Option V × T) :=
  {c | r.content key = some c} ∪
    {c | ∃ u ∈ messages, u.key = key ∧ u.value.map MapValue.content = some c}

theorem mem_carried (updates : List (UpdateEntry K V T)) (key : K) (c : Option V × T) :
    c ∈ carried updates key ↔
      ∃ u ∈ updates, u.key = key ∧ u.value.map MapValue.content = some c := by
  unfold carried
  rw [List.mem_filterMap]
  constructor
  · rintro ⟨u, hu, hc⟩
    by_cases hkey : u.key = key
    · rw [if_pos hkey] at hc
      exact ⟨u, hu, hkey, hc⟩
    · rw [if_neg hkey] at hc
      cases hc
  · rintro ⟨u, hu, hkey, hc⟩
    exact ⟨u, hu, by rw [if_pos hkey, hc]⟩

theorem carried_cons (key j : K) (v : MapValue V T) (updates : List (UpdateEntry K V T)) :
    carried (⟨key, some v⟩ :: updates) j =
      if key = j then v.content :: carried updates j else carried updates j := by
  unfold carried
  by_cases h : key = j
  · simp [h]
  · simp [h]

variable [LinearOrder T] [DecidableEq V]

def receive (r : Replica K V T N) (batches : List (ℕ × List (UpdateEntry K V T))) :
    Replica K V T N :=
  batches.foldl (fun r batch => r.processUpdates batch.1 batch.2) r

theorem content_processUpdates (r : Replica K V T N) (now : ℕ) (key : K)
    {updates : List (UpdateEntry K V T)} (hvalues : ∀ u ∈ updates, u.value ≠ none) :
    (r.processUpdates now updates).content key =
      takeAll Prod.snd (r.content key) (carried updates key) := by
  induction updates generalizing r with
  | nil => rfl
  | cons u updates ih =>
    obtain ⟨hu, hrest⟩ := List.forall_mem_cons.mp hvalues
    obtain ⟨j, value⟩ := u
    obtain ⟨v, rfl⟩ := Option.ne_none_iff_exists'.mp hu
    have htail := ih (r.processUpdate now ⟨j, some v⟩) hrest
    have hstep : r.processUpdates now (⟨j, some v⟩ :: updates) =
        (r.processUpdate now ⟨j, some v⟩).processUpdates now updates := rfl
    rw [hstep, htail, content_processUpdate, carried_cons]
    by_cases hj : key = j
    · subst hj
      rw [if_pos rfl, if_pos rfl]
      rfl
    · rw [if_neg hj, if_neg (Ne.symm hj)]

theorem content_receive (r : Replica K V T N) (key : K)
    {batches : List (ℕ × List (UpdateEntry K V T))}
    (hvalues : ∀ u ∈ received batches, u.value ≠ none) :
    (receive r batches).content key =
      takeAll Prod.snd (r.content key) (carried (received batches) key) := by
  induction batches generalizing r with
  | nil => rfl
  | cons batch batches ih =>
    have hall : ∀ u ∈ batch.2 ++ received batches, u.value ≠ none := hvalues
    rw [List.forall_mem_append] at hall
    have htail := ih (r.processUpdates batch.1 batch.2) hall.2
    have hcarried : carried (received (batch :: batches)) key =
        carried batch.2 key ++ carried (received batches) key :=
      List.filterMap_append
    rw [hcarried, takeAll, List.foldl_append]
    rw [content_processUpdates r batch.1 key hall.1] at htail
    exact htail

theorem receive_isNewest (r : Replica K V T N) {messages : Multiset (UpdateEntry K V T)}
    (hvalues : ∀ u ∈ messages, u.value ≠ none)
    {batches : List (ℕ × List (UpdateEntry K V T))} (h : Delivers messages batches) (key : K) :
    IsNewest Prod.snd (writes r messages key) ((receive r batches).content key) := by
  have hset : writes r messages key =
      {c | r.content key = some c} ∪ {c | c ∈ carried (received batches) key} := by
    ext c
    simp only [writes, Set.mem_union, Set.mem_ofPred_eq, mem_carried, h _]
  rw [hset, content_receive r key fun u hu => hvalues u ((h u).mp hu)]
  exact isNewest_takeAll (isNewest_held _) _

theorem replicas_converge (r : Replica K V T N) {messages : Multiset (UpdateEntry K V T)}
    (hvalues : ∀ u ∈ messages, u.value ≠ none)
    (hdistinct : ∀ key, Distinct Prod.snd (writes r messages key))
    {batches batches' : List (ℕ × List (UpdateEntry K V T))}
    (h : Delivers messages batches) (h' : Delivers messages batches') :
    (∀ key, (receive r batches).content key = (receive r batches').content key) ∧
      ∀ key, IsNewest Prod.snd (writes r messages key) ((receive r batches).content key) := by
  refine ⟨fun key => ?_, receive_isNewest r hvalues h⟩
  exact isNewest_unique (hdistinct key) (receive_isNewest r hvalues h key)
    (receive_isNewest r hvalues h' key)

def withoutItems : Replica ℕ ℕ ℕ ℕ := ⟨0, false, ∅, fun _ => [], ∅, 0, []⟩

def putOfFive : UpdateEntry ℕ ℕ ℕ := ⟨1, some ⟨some 5, 3, 0⟩⟩

def laterRemoval : UpdateEntry ℕ ℕ ℕ := ⟨1, some ⟨none, 4, 0⟩⟩

theorem replicas_converge_once : (receive withoutItems [(0, [putOfFive, laterRemoval])]).content 1 =
      (receive withoutItems
        [(7, [laterRemoval]), (9, [putOfFive, laterRemoval])]).content 1 := by
  have hmem : ∀ u, u ∈ ({putOfFive, laterRemoval} : Multiset (UpdateEntry ℕ ℕ ℕ)) ↔
      u = putOfFive ∨ u = laterRemoval := by simp
  refine (replicas_converge withoutItems (fun u hu => ?_) (fun key => ?_)
    (fun u => (?_ : _ ↔ u ∈ ({putOfFive, laterRemoval} : Multiset _)))
    (fun u => ?_)).1 1
  · rcases (hmem u).mp hu with rfl | rfl <;> decide
  · have hstamp : ∀ c ∈ writes withoutItems {putOfFive, laterRemoval} key,
        c = (some 5, 3) ∨ c = (none, 4) := by
      rintro c (hc | ⟨u, hu, _, hc⟩)
      · exact absurd hc (by simp [withoutItems, content])
      · rcases (hmem u).mp hu with rfl | rfl
        · exact Or.inl (Option.some.inj hc).symm
        · exact Or.inr (Option.some.inj hc).symm
    intro a ha b hb
    rcases hstamp a ha with rfl | rfl <;> rcases hstamp b hb with rfl | rfl <;> simp
  · rw [hmem]
    simp [received]
  · rw [hmem]
    simp only [received, List.flatMap_cons, List.flatMap_nil, List.mem_append, List.mem_cons,
      List.not_mem_nil, or_false]
    exact or_iff_right_of_imp Or.inr

end ECMapConvergence

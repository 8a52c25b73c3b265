import Mathlib.Data.List.Nodup
import Mathlib.Logic.Function.Basic

/-! Writes that lead from one table to another, in any order. -/
namespace TablePatch

variable {K V : Type*} [DecidableEq K]

def write (table : K → Option V) (entry : K × Option V) : K → Option V :=
  Function.update table entry.1 entry.2

/-- A key is written at most once, with what the table is to have there; what is not written is
the same before and after. -/
structure IsPatch (before after : K → Option V) (entries : List (K × Option V)) : Prop where
  nodup : (entries.map Prod.fst).Nodup
  written : ∀ entry ∈ entries, after entry.1 = entry.2
  kept : ∀ k ∉ entries.map Prod.fst, after k = before k

variable {before after table : K → Option V} {entries entries' : List (K × Option V)}

theorem foldl_write_of_notMem {k : K} (h : k ∉ entries.map Prod.fst) :
    entries.foldl write table k = table k := by
  induction entries generalizing table with
  | nil => rfl
  | cons entry entries ih =>
    rw [List.map_cons, List.mem_cons, not_or] at h
    exact (ih h.2).trans (Function.update_of_ne h.1 _ _)

theorem foldl_write_of_mem (hnodup : (entries.map Prod.fst).Nodup) {entry : K × Option V}
    (h : entry ∈ entries) : entries.foldl write table entry.1 = entry.2 := by
  induction entries generalizing table with
  | nil => exact absurd h List.not_mem_nil
  | cons e entries ih =>
    rw [List.map_cons, List.nodup_cons] at hnodup
    rcases List.mem_cons.mp h with rfl | h
    · exact (foldl_write_of_notMem hnodup.1).trans (Function.update_self _ _ _)
    · exact ih hnodup.2 h

omit [DecidableEq K] in
theorem IsPatch.perm (h : IsPatch before after entries) (hperm : entries'.Perm entries) :
    IsPatch before after entries' where
  nodup := (hperm.map Prod.fst).nodup_iff.mpr h.nodup
  written := fun entry hentry => h.written entry (hperm.mem_iff.mp hentry)
  kept := fun k hk => h.kept k fun hmem => hk ((hperm.map Prod.fst).mem_iff.mpr hmem)

theorem IsPatch.foldl_write (h : IsPatch before after entries) :
    entries.foldl write before = after := by
  funext k
  by_cases hk : k ∈ entries.map Prod.fst
  · obtain ⟨entry, hentry, rfl⟩ := List.mem_map.mp hk
    exact (foldl_write_of_mem h.nodup hentry).trans (h.written entry hentry).symm
  · exact (foldl_write_of_notMem hk).trans (h.kept k hk).symm

end TablePatch

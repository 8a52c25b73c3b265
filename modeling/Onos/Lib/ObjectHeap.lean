import Mathlib.Data.Fintype.Basic

/-! A map whose values are mutable objects. The map holds references into a heap, so that
changing an object in place (`mutate`) and putting another object in the map (`replace`)
are different things: a reference read before a replacement still reaches the old object,
which the map no longer holds. Every object knows the key it is stored under. -/
namespace ObjectHeap

abbrev Ref := ℕ

structure ObjectMap (K α : Type*) (keyOf : α → K) where
  heap : Ref → α
  ref : K → Ref
  next : Ref
  allocated : ∀ k, ref k < next
  named : ∀ k, keyOf (heap (ref k)) = k

variable {K α : Type*} {keyOf : α → K}

def ObjectMap.get (m : ObjectMap K α keyOf) (k : K) : α := m.heap (m.ref k)

theorem heap_ref (m : ObjectMap K α keyOf) (k : K) : m.heap (m.ref k) = m.get k := rfl

theorem ref_ne_next (m : ObjectMap K α keyOf) (k : K) : m.ref k ≠ m.next :=
  Nat.ne_of_lt (m.allocated k)

def ObjectMap.mutate (m : ObjectMap K α keyOf) (r : Ref) (f : α → α)
    (hf : ∀ a, keyOf (f a) = keyOf a) : ObjectMap K α keyOf where
  heap := Function.update m.heap r (f (m.heap r))
  ref := m.ref
  next := m.next
  allocated := m.allocated
  named k := by
    by_cases h : m.ref k = r
    · subst h; simp [hf, m.named]
    · simp [h, m.named]

/-- Put another object in the map, under its own key. The old object stays in the heap. -/
def ObjectMap.replace [DecidableEq K] (m : ObjectMap K α keyOf) (a : α) :
    ObjectMap K α keyOf where
  heap := Function.update m.heap m.next a
  ref := Function.update m.ref (keyOf a) m.next
  next := m.next + 1
  allocated k := by
    by_cases h : k = keyOf a
    · subst h; simp
    · simp only [Function.update_of_ne h]; exact Nat.lt_succ_of_lt (m.allocated k)
  named k := by
    by_cases h : k = keyOf a
    · subst h; simp
    · simp [Function.update_of_ne h, ref_ne_next, m.named]

/-- Change in place every object the map holds now. Objects it held before are not reached. -/
def ObjectMap.mutateHeld [Fintype K] (m : ObjectMap K α keyOf) (f : α → α)
    (hf : ∀ a, keyOf (f a) = keyOf a) : ObjectMap K α keyOf where
  heap r := if ∃ k, m.ref k = r then f (m.heap r) else m.heap r
  ref := m.ref
  next := m.next
  allocated := m.allocated
  named k := by simp [hf, m.named]

section Lemmas

variable (m : ObjectMap K α keyOf) (r : Ref) (f : α → α) (hf : ∀ a, keyOf (f a) = keyOf a)

theorem heap_mutate (q : Ref) :
    (m.mutate r f hf).heap q = if q = r then f (m.heap r) else m.heap q := by
  simp [ObjectMap.mutate, Function.update_apply]

theorem get_mutate (k : K) :
    (m.mutate r f hf).get k = if m.ref k = r then f (m.get k) else m.get k := by
  change (m.mutate r f hf).heap (m.ref k) = _
  rw [heap_mutate]
  split_ifs with h
  · rw [← h, heap_ref]
  · rfl

theorem ref_replace [DecidableEq K] (a : α) (k : K) :
    (m.replace a).ref k = if k = keyOf a then m.next else m.ref k := by
  simp [ObjectMap.replace, Function.update_apply]

theorem heap_replace [DecidableEq K] (a : α) (h : r ≠ m.next) :
    (m.replace a).heap r = m.heap r := by
  simp [ObjectMap.replace, h]

theorem get_replace [DecidableEq K] (a : α) (k : K) :
    (m.replace a).get k = if k = keyOf a then a else m.get k := by
  change (m.replace a).heap ((m.replace a).ref k) = _
  rw [ref_replace]
  split_ifs with h
  · simp [ObjectMap.replace]
  · rw [heap_replace m _ a (ref_ne_next m k), heap_ref]

variable [Fintype K]

@[simp] theorem get_mutateHeld (k : K) : (m.mutateHeld f hf).get k = f (m.get k) := by
  simp [ObjectMap.get, ObjectMap.mutateHeld]

end Lemmas

end ObjectHeap

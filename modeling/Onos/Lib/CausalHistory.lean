import Mathlib.Data.List.Basic
import Mathlib.Logic.Relation

/-! Histories of events at nodes. An event may be the receipt of a message, and then it names the
event in which the message was sent; it is after that one, and after all earlier ones of its node.
A clock that each event moves beyond both grows along every chain of such steps. -/
namespace CausalHistory

/-- The node of an event, what it leaves on the clock of that node, and the position of the event
whose message it receives. -/
structure Reading (E N : Type*) where
  node : E → N
  clock : E → ℕ
  received : E → Option ℕ

variable {E N : Type*} {R : Reading E N} {history : List E} {clocks : N → ℕ} {i j : ℕ} {e f : E}

def Precedes (R : Reading E N) (history : List E) (i j : ℕ) : Prop :=
  ∃ e f, history[i]? = some e ∧ history[j]? = some f ∧
    (i < j ∧ R.node e = R.node f ∨ R.received f = some i)

def HappensBefore (R : Reading E N) (history : List E) : ℕ → ℕ → Prop :=
  Relation.TransGen (Precedes R history)

structure IsClocked (R : Reading E N) (history : List E) (clocks : N → ℕ) : Prop where
  le_clock : ∀ e ∈ history, R.clock e ≤ clocks (R.node e)
  lt_of_node : ∀ (i j : ℕ) (e f : E), i < j → history[i]? = some e → history[j]? = some f →
    R.node e = R.node f → R.clock e < R.clock f
  received : ∀ (i j : ℕ) (f : E), history[j]? = some f → R.received f = some i →
    i < j ∧ ∃ e, history[i]? = some e ∧ R.clock e < R.clock f

theorem isClocked_nil (clocks : N → ℕ) : IsClocked R [] clocks where
  le_clock _ he := absurd he List.not_mem_nil
  lt_of_node _ _ _ _ _ he := by cases he
  received _ _ _ hf := by cases hf

theorem getElem?_concat (h : (history ++ [f])[i]? = some e) :
    history[i]? = some e ∨ i = history.length ∧ e = f := by
  rcases Nat.lt_trichotomy i history.length with hlt | rfl | hgt
  · rw [List.getElem?_append_left hlt] at h
    exact .inl h
  · rw [List.getElem?_concat_length] at h
    exact .inr ⟨rfl, (Option.some.inj h).symm⟩
  · rw [List.getElem?_eq_none (by rw [List.length_append, List.length_singleton]; omega)] at h
    cases h

theorem getElem?_concat_of_some (h : history[i]? = some e) (f : E) :
    (history ++ [f])[i]? = some e := by
  rw [List.getElem?_append_left (List.getElem?_eq_some_iff.mp h).1, h]

section Concat

variable [DecidableEq N]

theorem IsClocked.le_clock_concat (h : IsClocked R history clocks)
    (hclock : clocks (R.node f) < R.clock f) :
    ∀ e ∈ history ++ [f], R.clock e ≤ Function.update clocks (R.node f) (R.clock f) (R.node e) := by
  intro e he
  rw [Function.update_apply]
  rcases List.mem_append.mp he with hold | hnew
  · have hle := h.le_clock e hold
    split_ifs with hnode
    · rw [hnode] at hle
      omega
    · exact hle
  · obtain rfl := List.mem_singleton.mp hnew
    exact Nat.le_of_eq (if_pos rfl).symm

theorem IsClocked.concat (h : IsClocked R history clocks) (hclock : clocks (R.node f) < R.clock f)
    (hreceived : ∀ i, R.received f = some i → ∃ e, history[i]? = some e ∧ R.clock e < R.clock f) :
    IsClocked R (history ++ [f]) (Function.update clocks (R.node f) (R.clock f)) := by
  refine ⟨h.le_clock_concat hclock, ?_, ?_⟩
  · intro i j e g hlt he hg hnode
    rcases getElem?_concat hg with hgold | ⟨rfl, rfl⟩
    · rcases getElem?_concat he with heold | ⟨rfl, rfl⟩
      · exact h.lt_of_node i j e g hlt heold hgold hnode
      · have hj := (List.getElem?_eq_some_iff.mp hgold).1
        omega
    · rcases getElem?_concat he with heold | ⟨rfl, rfl⟩
      · have hle := h.le_clock e (List.mem_of_getElem? heold)
        rw [hnode] at hle
        omega
      · omega
  · intro i j g hg hi
    rcases getElem?_concat hg with hgold | ⟨rfl, rfl⟩
    · obtain ⟨hlt, e, he, hclocks⟩ := h.received i j g hgold hi
      exact ⟨hlt, e, getElem?_concat_of_some he f, hclocks⟩
    · obtain ⟨e, he, hclocks⟩ := hreceived i hi
      exact ⟨(List.getElem?_eq_some_iff.mp he).1, e, getElem?_concat_of_some he g, hclocks⟩

end Concat

theorem IsClocked.lt_of_precedes (h : IsClocked R history clocks) (hij : Precedes R history i j)
    (he : history[i]? = some e) (hf : history[j]? = some f) : R.clock e < R.clock f := by
  obtain ⟨e', f', he', hf', ⟨hlt, hnode⟩ | hreceived⟩ := hij
  · obtain rfl := Option.some.inj (he.symm.trans he')
    obtain rfl := Option.some.inj (hf.symm.trans hf')
    exact h.lt_of_node i j e f hlt he hf hnode
  · obtain rfl := Option.some.inj (hf.symm.trans hf')
    obtain ⟨_, sent, hsent, hlt⟩ := h.received i j f hf hreceived
    obtain rfl := Option.some.inj (he.symm.trans hsent)
    exact hlt

theorem IsClocked.lt_of_happensBefore (h : IsClocked R history clocks)
    (hij : HappensBefore R history i j) (he : history[i]? = some e) (hf : history[j]? = some f) :
    R.clock e < R.clock f := by
  induction hij generalizing f with
  | single hij => exact h.lt_of_precedes hij he hf
  | tail _ hstep ih =>
    obtain ⟨mid, _, hmid, _⟩ := id hstep
    exact Nat.lt_trans (ih hmid) (h.lt_of_precedes hstep hmid hf)

end CausalHistory

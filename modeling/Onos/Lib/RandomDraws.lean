import Mathlib.Data.List.Basic

/-! Programs that draw random numbers and may fail. The numbers that will be drawn are a sequence
that is not restricted: what holds for all sequences holds for all runs. -/
namespace RandomDraws

abbrev Draws := ℕ → ℕ

abbrev Randomly (ε α : Type*) := Draws → Except ε (α × Draws)

variable {ε α β : Type*}

namespace Randomly

def pure (a : α) : Randomly ε α := fun r => .ok (a, r)

def bind (p : Randomly ε α) (f : α → Randomly ε β) : Randomly ε β := fun r =>
  (p r).bind fun x => f x.1 x.2

def map (f : α → β) (p : Randomly ε α) : Randomly ε β := p.bind fun a => pure (f a)

def lift (x : Except ε α) : Randomly ε α := fun r => x.map fun a => (a, r)

def mapM (f : α → Randomly ε β) : List α → Randomly ε (List β)
  | [] => pure []
  | a :: l => (f a).bind fun b => (mapM f l).map fun bs => b :: bs

end Randomly

def nextBoolean : Randomly ε Bool := fun r => .ok (r 0 % 2 = 1, fun i => r (i + 1))

def nextBooleans (n : ℕ) : Randomly ε (Fin n → Bool) := fun r =>
  .ok (fun i => r i % 2 = 1, fun i => r (i + n))

def nextInt : (bound : ℕ) → Randomly String (Fin bound)
  | 0, _ => .error "IllegalArgumentException"
  | bound + 1, r => .ok (⟨r 0 % (bound + 1), Nat.mod_lt _ bound.succ_pos⟩, fun i => r (i + 1))

structure Ensures (p : Randomly ε α) (post : α → Prop) (ends : ε → Prop) : Prop where
  ok : ∀ {r r' a}, p r = .ok (a, r') → post a
  error : ∀ {r e}, p r = .error e → ends e

variable {post mid : α → Prop} {post' : β → Prop} {ends : ε → Prop}

theorem ensures_pure {a : α} (h : post a) : Ensures (Randomly.pure a) post ends where
  ok hr := by
    obtain ⟨rfl, -⟩ := Prod.ext_iff.mp (Except.ok.inj hr)
    exact h
  error hr := by cases hr

theorem ensures_lift {x : Except ε α} (hok : ∀ a, x = .ok a → post a)
    (herror : ∀ e, x = .error e → ends e) : Ensures (Randomly.lift x) post ends := by
  cases x with
  | ok a => exact ensures_pure (hok a rfl)
  | error e =>
    refine ⟨fun hr => (by cases hr), fun hr => ?_⟩
    obtain rfl := Except.error.inj hr
    exact herror _ rfl

variable {p : Randomly ε α}

theorem Ensures.mono {ends' : ε → Prop} (h : Ensures p mid ends')
    (hpost : ∀ a, mid a → post a) (hends : ∀ e, ends' e → ends e) : Ensures p post ends :=
  ⟨fun hr => hpost _ (h.ok hr), fun hr => hends _ (h.error hr)⟩

variable {f : α → Randomly ε β}

theorem Ensures.bind (h : Ensures p mid ends)
    (hf : ∀ a, mid a → Ensures (f a) post' ends) : Ensures (p.bind f) post' ends where
  ok {r r' b} hr := by
    cases hp : p r with
    | error e =>
      rw [Randomly.bind, hp] at hr
      cases hr
    | ok x =>
      rw [Randomly.bind, hp] at hr
      exact (hf x.1 (h.ok hp)).ok hr
  error {r e} hr := by
    cases hp : p r with
    | error e' =>
      rw [Randomly.bind, hp] at hr
      obtain rfl := Except.error.inj hr
      exact h.error hp
    | ok x =>
      rw [Randomly.bind, hp] at hr
      exact (hf x.1 (h.ok hp)).error hr

theorem ensures_lift_bind {x : Except ε α}
    (herror : ∀ e, x = .error e → ends e) (hf : ∀ a, x = .ok a → Ensures (f a) post' ends) :
    Ensures ((Randomly.lift x).bind f) post' ends :=
  (ensures_lift (fun _ ha => ha) herror).bind hf

theorem Ensures.map {f : α → β} (h : Ensures p mid ends)
    (hf : ∀ a, mid a → post' (f a)) : Ensures (p.map f) post' ends :=
  h.bind fun a ha => ensures_pure (hf a ha)

theorem ensures_mapM {l : List α} (hf : ∀ a ∈ l, Ensures (f a) post' ends) :
    Ensures (Randomly.mapM f l) (fun bs => bs.length = l.length ∧ ∀ b ∈ bs, post' b) ends := by
  induction l with
  | nil => exact ensures_pure ⟨rfl, fun b hb => absurd hb List.not_mem_nil⟩
  | cons a l ih =>
    obtain ⟨ha, hl⟩ := List.forall_mem_cons.mp hf
    refine ha.bind fun b hb => (ih hl).map fun bs hbs => ?_
    exact ⟨congrArg Nat.succ hbs.1, List.forall_mem_cons.mpr ⟨hb, hbs.2⟩⟩

theorem ensures_nextBoolean : Ensures (nextBoolean : Randomly ε Bool) (fun _ => True) ends :=
  ⟨fun _ => trivial, fun hr => by cases hr⟩

theorem ensures_nextBooleans {n : ℕ} :
    Ensures (nextBooleans n : Randomly ε (Fin n → Bool)) (fun _ => True) ends :=
  ⟨fun _ => trivial, fun hr => by cases hr⟩

theorem ensures_nextInt {bound : ℕ} {ends : String → Prop} (h : bound = 0 → ∀ e, ends e) :
    Ensures (nextInt bound) (fun _ => True) ends := by
  refine ⟨fun _ => trivial, fun {r e} hr => ?_⟩
  cases bound with
  | zero => exact h rfl e
  | succ bound => cases hr

theorem Ensures.result (h : Ensures p post fun _ => False) (r : Draws) :
    ∃ a r', p r = .ok (a, r') ∧ post a := by
  cases hp : p r with
  | error e => exact absurd hp fun hr => h.error hr
  | ok x => exact ⟨x.1, x.2, rfl, h.ok hp⟩

end RandomDraws

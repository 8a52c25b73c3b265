import Onos.Lib.ByteBuffer
import Onos.Lib.FallibleRun

/-! Rules for readers over buffers: which exceptions escape from them, how far they read, and that
they see nothing but what is between the position and the limit. -/
namespace BufferReaders

open ByteBuffer FallibleRun WireBytes

variable {χ α β : Type}

def Checked (e : Thrown χ) : Prop := ∃ c, e = .checked c

section Reading

/-- Nothing but checked exceptions escapes, and what is read meets the postcondition. -/
def Reads (x : Reader χ α) (b : ReadBuffer) (post : α → ReadBuffer → Prop) : Prop :=
  Ensures (x b) (fun r => post r.1 r.2) Checked

variable {x : Reader χ α} {f : α → Reader χ β} {b : ReadBuffer} {mid : α → ReadBuffer → Prop}
  {post : β → ReadBuffer → Prop}

theorem Reads.mono {post' : α → ReadBuffer → Prop} (h : Reads x b mid)
    (hpost : ∀ a b', mid a b' → post' a b') : Reads x b post' :=
  ⟨fun hr => hpost _ _ (h.ok hr), h.error⟩

theorem reads_pure {a : α} (h : mid a b) : Reads (pure a : Reader χ α) b mid :=
  ensures_ok h

theorem Reads.bind (h : Reads x b mid) (hf : ∀ a b', mid a b' → Reads (f a) b' post) :
    Reads (x >>= f) b post :=
  Ensures.bind_of (fun _ he => h.error he) fun _ hr => hf _ _ (h.ok hr)

theorem reads_lift {r : Except (Thrown χ) α} {ends : α → Prop} (h : Ensures r ends Checked) :
    Reads (liftM r : Reader χ α) b fun a b' => ends a ∧ b' = b := by
  cases r with
  | ok a => exact ensures_ok ⟨h.ok rfl, rfl⟩
  | error e => exact ensures_error (h.error rfl)

theorem reads_lift_ok {r : Except (Thrown χ) α} {a : α} (h : r = .ok a) :
    Reads (liftM r : Reader χ α) b fun a' b' => a' = a ∧ b' = b := by
  rw [h]
  exact ensures_ok ⟨rfl, rfl⟩

theorem Reads.run' (h : Reads x b mid) : Ensures (x.run' b) (fun a => ∃ b', mid a b') Checked := by
  rw [StateT.run']
  cases hx : x b with
  | ok r => exact ensures_ok ⟨r.2, h.ok hx⟩
  | error e => exact ensures_error (h.error hx)

theorem reads_getRemaining :
    Reads (getRemaining : Reader χ ℕ) b fun n b' => n = b.remaining ∧ b' = b :=
  ensures_ok ⟨rfl, rfl⟩

theorem reads_get {n : ℕ} (h : n ≤ b.remaining) :
    Reads (get n : Reader χ _) b fun bs b' => bs.length = n ∧ b' = b.advance n := by
  rw [Reads, ByteBuffer.get, if_pos h]
  refine ensures_ok ⟨?_, rfl⟩
  rw [List.length_take]
  exact Nat.min_eq_left h

theorem reads_getByte (h : 1 ≤ b.remaining) :
    Reads (getByte : Reader χ _) b fun _ b' => b' = b.advance 1 := by
  obtain ⟨before, rest, beyond⟩ := b
  cases rest with
  | nil => simp [ReadBuffer.remaining] at h
  | cons y ys => exact ensures_ok (by simp [ReadBuffer.advance])

theorem reads_getShort (h : 2 ≤ b.remaining) :
    Reads (getShort : Reader χ _) b fun _ b' => b' = b.advance 2 :=
  (reads_get h).bind fun _ _ hget => reads_pure hget.2

@[simp] theorem remaining_advance (b : ReadBuffer) (n : ℕ) :
    (b.advance n).remaining = b.remaining - n := by
  simp [ReadBuffer.advance, ReadBuffer.remaining]

@[simp] theorem remaining_mk (before rest beyond : List Byte) :
    ReadBuffer.remaining ⟨before, rest, beyond⟩ = rest.length := rfl

end Reading

section Locality

/-- The result does not depend on what is outside of the window, nor does what is left of it. -/
def Local (x : Reader χ α) : Prop :=
  ∀ b b' : ReadBuffer, b.rest = b'.rest →
    (x b).map (fun r => (r.1, r.2.rest)) = (x b').map fun r => (r.1, r.2.rest)

theorem local_pure (a : α) : Local (pure a : Reader χ α) := by
  intro b b' hrest
  change Except.ok (a, b.rest) = Except.ok (a, b'.rest)
  rw [hrest]

theorem local_lift (r : Except (Thrown χ) α) : Local (liftM r : Reader χ α) := by
  intro b b' hrest
  cases r with
  | ok a => exact local_pure a b b' hrest
  | error e => rfl

theorem local_get (n : ℕ) : Local (get n : Reader χ _) := by
  rintro ⟨before, rest, beyond⟩ ⟨before', rest', beyond'⟩ hrest
  cases hrest
  rw [ByteBuffer.get, ByteBuffer.get]
  have hremaining : ReadBuffer.remaining ⟨before', rest, beyond'⟩ =
      ReadBuffer.remaining ⟨before, rest, beyond⟩ := rfl
  rw [hremaining]
  split_ifs <;> rfl

theorem local_getRemaining : Local (getRemaining : Reader χ _) := by
  intro b b' hrest
  simp only [getRemaining, ReadBuffer.remaining, hrest]
  simp [Except.map, hrest]

theorem Local.bind_congr {γ : Type} {x : Reader χ α} (hx : Local x) {b b' : ReadBuffer}
    (hrest : b.rest = b'.rest) {f g : α × ReadBuffer → Except (Thrown χ) γ}
    (hfg : ∀ a c c', x b = .ok (a, c) → c.rest = c'.rest → f (a, c) = g (a, c')) :
    (x b).bind f = (x b').bind g := by
  have hfirst := hx b b' hrest
  cases hb : x b with
  | error e =>
    cases hb' : x b' with
    | error e' =>
      rw [hb, hb'] at hfirst
      cases hfirst
      rfl
    | ok r' =>
      rw [hb, hb'] at hfirst
      cases hfirst
  | ok r =>
    cases hb' : x b' with
    | error e' =>
      rw [hb, hb'] at hfirst
      cases hfirst
    | ok r' =>
      rw [hb, hb'] at hfirst
      obtain ⟨ha, hrest'⟩ := Prod.mk.inj (Except.ok.inj hfirst)
      have hr' : r' = (r.1, r'.2) := Prod.ext ha.symm rfl
      rw [hr']
      exact hfg r.1 r.2 r'.2 hb hrest'

theorem Local.bind {x : Reader χ α} {f : α → Reader χ β} (hx : Local x) (hf : ∀ a, Local (f a)) :
    Local (x >>= f) := by
  intro b b' hrest
  rw [bind_apply, bind_apply]
  have hmap : ∀ c : ReadBuffer, ((x c).bind fun r => f r.1 r.2).map
      (fun r => (r.1, r.2.rest)) = (x c).bind fun r => (f r.1 r.2).map fun r => (r.1, r.2.rest) := by
    intro c
    cases x c <;> rfl
  rw [hmap, hmap]
  apply hx.bind_congr hrest
  intro a c c' _ hrest'
  exact hf a c c' hrest'

theorem local_getShort : Local (getShort : Reader χ _) :=
  (local_get 2).bind fun _ => local_pure _

theorem local_ite {p : Prop} [Decidable p] {x y : Reader χ α} (hx : Local x) (hy : Local y) :
    Local (if p then x else y) := by
  split_ifs
  · exact hx
  · exact hy

end Locality

section Positions

def getPosition : Reader χ ℕ := fun b => .ok (b.position, b)

def setPosition (newPosition : ℤ) : Reader χ Unit := fun b =>
  if 0 ≤ newPosition ∧ newPosition ≤ b.position + b.remaining then
    .ok ((), ⟨(b.before ++ b.rest).take newPosition.toNat, (b.before ++ b.rest).drop newPosition.toNat,
      b.beyond⟩)
  else .error .illegalArgument

@[simp] theorem getPosition_apply (b : ReadBuffer) :
    (getPosition : Reader χ ℕ) b = .ok (b.position, b) := rfl

theorem setPosition_append (before xs ys beyond : List Byte) (newPosition : ℤ)
    (h : newPosition = before.length + xs.length) :
    (setPosition newPosition : Reader χ Unit) ⟨before, xs ++ ys, beyond⟩ =
      .ok ((), ⟨before ++ xs, ys, beyond⟩) := by
  have hin : 0 ≤ newPosition ∧ newPosition ≤ ReadBuffer.position ⟨before, xs ++ ys, beyond⟩ +
      ReadBuffer.remaining ⟨before, xs ++ ys, beyond⟩ := by
    simp only [ReadBuffer.position, ReadBuffer.remaining, List.length_append]
    omega
  have hnat : newPosition.toNat = (before ++ xs).length := by
    rw [List.length_append]
    omega
  rw [setPosition, if_pos hin, hnat, ← List.append_assoc, List.take_left, List.drop_left]

theorem wrap_self (b : ReadBuffer) :
    (wrap b.array b.position b.remaining : Except (Thrown χ) _) = .ok b := by
  obtain ⟨before, rest, beyond⟩ := b
  have hend : ((before.length : ℤ) + rest.length).toNat = (before ++ rest).length := by
    rw [List.length_append]
    omega
  have hbeyond : (before ++ rest ++ beyond).drop ((before.length : ℤ) + rest.length).toNat = beyond := by
    rw [hend, List.drop_left]
  simp only [wrap, ReadBuffer.array, ReadBuffer.position, ReadBuffer.remaining, hbeyond]
  simp

end Positions

section Repeating

/-- Read so many values, one after the other. Each reader is told how many are still to be read. -/
def times (x : ℕ → Reader χ α) : ℕ → Reader χ (List α)
  | 0 => pure []
  | n + 1 => do
    let a ← x (n + 1)
    let as ← times x n
    return a :: as

variable {x : ℕ → Reader χ α}

theorem times_succ {n : ℕ} {b b' : ReadBuffer} {a : α} (h : x (n + 1) b = .ok (a, b')) :
    times x (n + 1) b = (times x n b').map fun r => (a :: r.1, r.2) := by
  rw [times, bind_of_ok h, bind_apply]
  cases times x n b' <;> rfl

theorem times_append (encode : α → List Byte) (beyond ys : List Byte) (as : List α)
    (hx : ∀ before a as', a :: as' <:+ as →
      x (as'.length + 1) ⟨before, encode a ++ ((as'.map encode).flatten ++ ys), beyond⟩ =
        .ok (a, ⟨before ++ encode a, (as'.map encode).flatten ++ ys, beyond⟩)) (before : List Byte) :
    times x as.length ⟨before, (as.map encode).flatten ++ ys, beyond⟩ =
      .ok (as, ⟨before ++ (as.map encode).flatten, ys, beyond⟩) := by
  induction as generalizing before with
  | nil => simp [times]
  | cons a as ih =>
    have hfirst := hx before a as (List.suffix_refl _)
    have hrest := ih (fun before a' as' h => hx before a' as' (h.trans (List.suffix_cons a as)))
      (before ++ encode a)
    rw [List.map_cons, List.flatten_cons, List.append_assoc, List.length_cons, times_succ hfirst,
      hrest, List.append_assoc]
    rfl

theorem times_eq_ok {n : ℕ} {b b' : ReadBuffer} {as : List α} (h : times x n b = .ok (as, b')) :
    as.length = n ∧ ∀ a ∈ as, ∃ m c c', x m c = .ok (a, c') := by
  induction n generalizing b as with
  | zero =>
    cases h
    simp
  | succ n ih =>
    obtain ⟨a, c, ha, h⟩ := bind_apply_eq_ok h
    obtain ⟨as', c', has, h⟩ := bind_apply_eq_ok h
    cases h
    obtain ⟨hlen, hall⟩ := ih has
    refine ⟨by rw [List.length_cons, hlen], ?_⟩
    intro a' ha'
    obtain rfl | hmem := List.mem_cons.mp ha'
    · exact ⟨_, _, _, ha⟩
    · exact hall a' hmem

end Repeating

end BufferReaders

import Onos.Lib.BufferReaders

/-! Channel buffers: unsigned reads that throw on an index past the end, and loops that read as long
as the reader index is before a stop. -/
namespace ChannelBuffer

open WireBytes ByteBuffer BufferReaders

variable {χ α : Type}

def readBytes (n : ℕ) : Reader χ (List Byte) := fun b =>
  if n ≤ b.remaining then .ok (b.rest.take n, b.advance n) else .error .indexOutOfBounds

def readUnsignedByte : Reader χ ℕ := do return valueOf (← readBytes 1)

def readUnsignedShort : Reader χ ℕ := do return valueOf (← readBytes 2)

def readUnsignedInt : Reader χ ℕ := do return valueOf (← readBytes 4)

def skipBytes (n : ℕ) : Reader χ Unit := do let _ ← readBytes n

/-- Read items while the index is before the stop, at most so many of them. -/
def readAtMost (item : Reader χ α) (stop : ℕ) : ℕ → Reader χ (List α)
  | 0 => pure []
  | fuel + 1 => do
    if (← getPosition) < stop then
      let a ← item
      let as ← readAtMost item stop fuel
      return a :: as
    else
      return []

/-- Read items while the index is before the stop. An item moves the index on, so the distance to
the stop bounds the number of items. -/
def readUntil (item : Reader χ α) (stop : ℕ) : Reader χ (List α) := do
  readAtMost item stop (stop - (← getPosition))

/-- What the reader leaves is further on by so much at least, and ends where it did. -/
def Advances (item : Reader χ α) (n : ℕ) : Prop :=
  ∀ b a b', item b = .ok (a, b') → b.position + n ≤ b'.position ∧
    b'.position + b'.remaining = b.position + b.remaining

variable {item : Reader χ α}

theorem Advances.mono {m n : ℕ} (h : Advances item n) (hle : m ≤ n) : Advances item m := by
  intro b a b' hok
  have := h b a b' hok
  omega

theorem position_advance {b : ReadBuffer} {n : ℕ} (h : n ≤ b.remaining) :
    (b.advance n).position = b.position + n := by
  have hrest : n ≤ b.rest.length := h
  simp [ReadBuffer.position, ReadBuffer.advance, hrest]

theorem advances_readBytes (n : ℕ) : Advances (readBytes n : Reader χ _) n := by
  intro b bs b' h
  by_cases hn : n ≤ b.remaining
  · rw [readBytes, if_pos hn] at h
    cases h
    rw [position_advance hn, remaining_advance]
    omega
  · rw [readBytes, if_neg hn] at h
    cases h

variable {x : Reader χ α}

theorem Advances.bind {β : Type} {f : α → Reader χ β} {m n : ℕ}
    (hx : Advances x m) (hf : ∀ a, Advances (f a) n) : Advances (x >>= f) (m + n) := by
  intro b r b' h
  obtain ⟨a, mid, hmid, hlast⟩ := bind_apply_eq_ok h
  have h1 := hx b a mid hmid
  have h2 := hf a mid r b' hlast
  omega

theorem advances_pure (a : α) : Advances (pure a : Reader χ α) 0 := by
  intro b a' b' h
  cases h
  exact ⟨Nat.le_refl _, rfl⟩

theorem advances_error (h : ∀ b, ∃ e, x b = .error e) (n : ℕ) : Advances x n := by
  intro b a b' hok
  obtain ⟨e, he⟩ := h b
  rw [he] at hok
  cases hok

theorem advances_lift (x : Except (Thrown χ) α) : Advances (liftM x : Reader χ α) 0 := by
  intro b a b' h
  obtain ⟨_, rfl⟩ := eq_of_lift h
  exact ⟨Nat.le_refl _, rfl⟩

theorem advances_getPosition : Advances (getPosition : Reader χ _) 0 := by
  intro b a b' h
  cases h
  exact ⟨Nat.le_refl _, rfl⟩

theorem Advances.andThen {β : Type} {f : α → Reader χ β} {n : ℕ}
    (hx : Advances x n) (hf : ∀ a, Advances (f a) 0) : Advances (x >>= f) n := hx.bind hf

theorem advances_ite {p : Prop} [Decidable p] {x y : Reader χ α} {n : ℕ} (hx : Advances x n)
    (hy : Advances y n) : Advances (if p then x else y) n := by
  split
  · exact hx
  · exact hy

theorem advances_readAtMost (hitem : Advances item 0) (stop fuel : ℕ) :
    Advances (readAtMost item stop fuel) 0 := by
  induction fuel with
  | zero => exact advances_pure []
  | succ fuel ih =>
    refine advances_getPosition.andThen fun position => ?_
    refine advances_ite ?_ (advances_pure [])
    exact hitem.andThen fun a => ih.andThen fun as => advances_pure _

theorem advances_readUntil (hitem : Advances item 0) (stop : ℕ) :
    Advances (readUntil item stop) 0 :=
  advances_getPosition.andThen fun _ => advances_readAtMost hitem stop _

theorem advances_times {x : ℕ → Reader χ α} (hx : ∀ n, Advances (x n) 0) (n : ℕ) :
    Advances (times x n) 0 := by
  induction n with
  | zero => exact advances_pure []
  | succ n ih => exact (hx _).andThen fun a => ih.andThen fun as => advances_pure _

theorem readAtMost_ends (hitem : Advances item 1) {stop fuel : ℕ}
    {b b' : ReadBuffer} {as : List α} (hfuel : stop ≤ b.position + fuel)
    (h : readAtMost item stop fuel b = .ok (as, b')) : stop ≤ b'.position := by
  induction fuel generalizing b as with
  | zero =>
    cases h
    exact hfuel
  | succ fuel ih =>
    obtain ⟨position, mid, hposition, h⟩ := bind_apply_eq_ok h
    cases hposition
    by_cases hstop : b.position < stop
    · rw [if_pos hstop] at h
      obtain ⟨a, mid, ha, h⟩ := bind_apply_eq_ok h
      obtain ⟨rest, last, hrest, h⟩ := bind_apply_eq_ok h
      cases h
      have hmoved := (hitem b a mid ha).1
      exact ih (by omega) hrest
    · rw [if_neg hstop] at h
      cases h
      omega

theorem readUntil_ends (hitem : Advances item 1) {stop : ℕ} {b b' : ReadBuffer}
    {as : List α} (h : readUntil item stop b = .ok (as, b')) : stop ≤ b'.position := by
  obtain ⟨position, mid, hposition, h⟩ := bind_apply_eq_ok h
  cases hposition
  exact readAtMost_ends hitem (by omega) h

section Escaping

variable {β : Type} {b b' : ReadBuffer}

def Escapes (x : Reader χ α) (b : ReadBuffer) : Prop := ∃ e, x b = .error e ∧ ¬Checked e

theorem escapes_bind {x : Reader χ α} {f : α → Reader χ β} :
    Escapes (x >>= f) b ↔ Escapes x b ∨ ∃ a b', x b = .ok (a, b') ∧ Escapes (f a) b' := by
  rw [Escapes, Escapes, bind_apply]
  cases x b with
  | error e => simp [Except.bind]
  | ok r =>
    refine ⟨fun h => .inr ⟨r.1, r.2, rfl, h⟩, ?_⟩
    rintro (⟨_, hok, _⟩ | ⟨a, b', hr, h⟩)
    · cases hok
    · cases hr
      exact h

theorem escapes_of_ok {x : Reader χ α} {f : α → Reader χ β} {a : α} (h : x b = .ok (a, b')) :
    Escapes (x >>= f) b ↔ Escapes (f a) b' := by
  rw [Escapes, bind_of_ok h, Escapes]

theorem escapes_of_error {x : Reader χ α} {f : α → Reader χ β} {e : Thrown χ}
    (h : x b = .error e) : Escapes (x >>= f) b ↔ ¬Checked e := by
  rw [Escapes, bind_apply, h]
  simp [Except.bind]

theorem not_escapes_pure {a : α} : ¬Escapes (pure a : Reader χ α) b := nofun

theorem escapes_map {x : Reader χ α} {f : α → β} :
    Escapes (x >>= fun a => pure (f a)) b ↔ Escapes x b := by
  rw [escapes_bind]
  refine or_iff_left ?_
  rintro ⟨_, _, _, hlast⟩
  exact not_escapes_pure hlast

theorem escapes_getPosition {f : ℕ → Reader χ β} :
    Escapes (getPosition >>= f) b ↔ Escapes (f b.position) b := Iff.rfl

theorem escapes_getRemaining {f : ℕ → Reader χ β} :
    Escapes (getRemaining >>= f) b ↔ Escapes (f b.remaining) b := Iff.rfl

theorem escapes_readBytes {n : ℕ} {f : List Byte → Reader χ β} (h : n ≤ b.remaining) :
    Escapes (readBytes n >>= f) b ↔ Escapes (f (b.rest.take n)) (b.advance n) :=
  escapes_of_ok (if_pos h)

theorem escapes_number {n : ℕ} {f : ℕ → Reader χ β} (h : n ≤ b.remaining) :
    Escapes ((do return valueOf (← readBytes n)) >>= f) b ↔
      Escapes (f (valueOf (b.rest.take n))) (b.advance n) := by
  refine escapes_of_ok ?_
  rw [bind_of_ok (if_pos h)]
  rfl

theorem not_escapes_skipBytes {n : ℕ} {a : α} (h : n ≤ b.remaining) :
    ¬Escapes (do skipBytes n; return a : Reader χ α) b := by
  have hskip : (skipBytes n : Reader χ Unit) b = .ok ((), b.advance n) := by
    rw [skipBytes, bind_of_ok (if_pos h)]
    rfl
  rw [escapes_of_ok hskip]
  exact not_escapes_pure

theorem not_escapes_times {k n : ℕ} (h : k * n ≤ b.remaining) :
    ¬Escapes (times (fun _ => readBytes k) n : Reader χ _) b := by
  induction n generalizing b with
  | zero => exact not_escapes_pure
  | succ n ih =>
    rw [Nat.mul_succ] at h
    rw [times, escapes_readBytes (by omega), escapes_map]
    exact ih (by rw [remaining_advance]; omega)

inductive Visits (item : Reader χ α) (stop : ℕ) : ReadBuffer → ReadBuffer → Prop
  | here {b : ReadBuffer} (h : b.position < stop) : Visits item stop b b
  | next {b mid b' : ReadBuffer} {a : α} (h : b.position < stop) (hitem : item b = .ok (a, mid))
    (hrest : Visits item stop mid b') : Visits item stop b b'

theorem Visits.ends {item : Reader χ α} (hitem : Advances item 0) {stop : ℕ}
    (h : Visits item stop b b') : b'.position < stop ∧
      b'.position + b'.remaining = b.position + b.remaining := by
  induction h with
  | here h => exact ⟨h, rfl⟩
  | next h hok _ ih => exact ⟨ih.1, ih.2.trans (hitem _ _ _ hok).2⟩

theorem escapes_readUntil {item : Reader χ α} (hitem : Advances item 1) {stop : ℕ} :
    Escapes (readUntil item stop) b ↔ ∃ b', Visits item stop b b' ∧ Escapes item b' := by
  have hfuel : ∀ fuel b, stop ≤ b.position + fuel → (Escapes (readAtMost item stop fuel) b ↔
      ∃ b', Visits item stop b b' ∧ Escapes item b') := by
    intro fuel
    induction fuel with
    | zero =>
      refine fun b hfuel => iff_of_false not_escapes_pure ?_
      rintro ⟨b', hvisit, -⟩
      cases hvisit <;> omega
    | succ fuel ih =>
      intro b hfuel
      rw [readAtMost, escapes_getPosition]
      split
      · next hlt =>
        rw [escapes_bind]
        constructor
        · rintro (hhere | ⟨a, mid, hok, hrest⟩)
          · exact ⟨b, .here hlt, hhere⟩
          · have hmoved := (hitem b a mid hok).1
            obtain ⟨b', hvisit, hescapes⟩ := (ih mid (by omega)).mp (escapes_map.mp hrest)
            exact ⟨b', .next hlt hok hvisit, hescapes⟩
        · rintro ⟨b', hvisit, hescapes⟩
          cases hvisit with
          | here => exact .inl hescapes
          | @next _ mid _ a _ hok hrest =>
            have hmoved := (hitem b a mid hok).1
            exact .inr ⟨a, mid, hok, escapes_map.mpr ((ih mid (by omega)).mpr ⟨b', hrest, hescapes⟩)⟩
      · next hstop =>
        refine iff_of_false not_escapes_pure ?_
        rintro ⟨b', hvisit, -⟩
        cases hvisit <;> omega
  exact hfuel _ b (by omega)

end Escaping

end ChannelBuffer

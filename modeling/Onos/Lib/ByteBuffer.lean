import Onos.Lib.WireBytes

/-! Buffers over byte arrays: relative reads between a position and a limit, relative writes into an
array of fixed size, and the exceptions that both throw. -/
namespace ByteBuffer

open WireBytes

/-- What a method throws: an exception of its own kind, or a runtime exception. -/
inductive Thrown (χ : Type) where
  | checked (e : χ)
  | bufferUnderflow
  | bufferOverflow
  | negativeArraySize
  | indexOutOfBounds
  | illegalArgument
  | nullPointer
  deriving DecidableEq, Repr

def Thrown.map {χ ψ : Type} (f : χ → ψ) : Thrown χ → Thrown ψ
  | checked e => checked (f e)
  | bufferUnderflow => bufferUnderflow
  | bufferOverflow => bufferOverflow
  | negativeArraySize => negativeArraySize
  | indexOutOfBounds => indexOutOfBounds
  | illegalArgument => illegalArgument
  | nullPointer => nullPointer

structure ReadBuffer where
  before : List Byte
  rest : List Byte
  beyond : List Byte
  deriving DecidableEq, Repr

namespace ReadBuffer

def array (b : ReadBuffer) : List Byte := b.before ++ b.rest ++ b.beyond

def position (b : ReadBuffer) : ℕ := b.before.length

def remaining (b : ReadBuffer) : ℕ := b.rest.length

def hasRemaining (b : ReadBuffer) : Bool := !b.rest.isEmpty

def advance (b : ReadBuffer) (n : ℕ) : ReadBuffer :=
  ⟨b.before ++ b.rest.take n, b.rest.drop n, b.beyond⟩

end ReadBuffer

variable {χ : Type}

abbrev Reader (χ : Type) := StateT ReadBuffer (Except (Thrown χ))

/-- The window of the array from the offset on, as long as the length says. -/
def wrap (data : List Byte) (offset length : ℤ) : Except (Thrown χ) ReadBuffer :=
  if 0 ≤ offset ∧ 0 ≤ length ∧ offset + length ≤ data.length then
    .ok ⟨data.take offset.toNat, (data.drop offset.toNat).take length.toNat,
      data.drop (offset + length).toNat⟩
  else .error .indexOutOfBounds

def get (n : ℕ) : Reader χ (List Byte) := fun b =>
  if n ≤ b.remaining then .ok (b.rest.take n, b.advance n) else .error .bufferUnderflow

def getRemaining : Reader χ ℕ := fun b => .ok (b.remaining, b)

def getByte : Reader χ Byte := fun b =>
  match b.rest with
  | [] => .error .bufferUnderflow
  | x :: xs => .ok (x, ⟨b.before ++ [x], xs, b.beyond⟩)

def getShort : Reader χ (BitVec 16) := do return ofBytes 16 (← get 2)

def getInt : Reader χ (BitVec 32) := do return ofBytes 32 (← get 4)

def getLong : Reader χ (BitVec 64) := do return ofBytes 64 (← get 8)

def getMacAddress : Reader χ (BitVec 48) := do return ofBytes 48 (← get 6)

def getAddress : Reader χ (BitVec 128) := do return ofBytes 128 (← get 16)

section Sequencing

variable {α β : Type}

theorem bind_apply (x : Reader χ α) (f : α → Reader χ β) (b : ReadBuffer) :
    (x >>= f) b = (x b).bind fun r => f r.1 r.2 := rfl

variable {b b' : ReadBuffer} {a : α}

theorem bind_of_ok {x : Reader χ α} {f : α → Reader χ β}
    (h : x b = .ok (a, b')) : (x >>= f) b = f a b' := by
  rw [bind_apply, h]
  rfl

theorem bind_apply_eq_ok {x : Reader χ α} {f : α → Reader χ β}
    {r : β × ReadBuffer} (h : (x >>= f) b = .ok r) :
    ∃ a b', x b = .ok (a, b') ∧ f a b' = .ok r := by
  rw [bind_apply] at h
  cases hx : x b with
  | error e =>
    rw [hx] at h
    cases h
  | ok first =>
    rw [hx] at h
    exact ⟨first.1, first.2, rfl, h⟩

@[simp] theorem get_state_apply (b : ReadBuffer) : (StateT.get : Reader χ _) b = .ok (b, b) := rfl

@[simp] theorem getRemaining_apply (b : ReadBuffer) :
    (getRemaining : Reader χ _) b = .ok (b.remaining, b) := rfl

@[simp] theorem liftM_ok_apply (a : α) (b : ReadBuffer) :
    (liftM (.ok a : Except (Thrown χ) α) : Reader χ α) b = .ok (a, b) := rfl

@[simp] theorem liftM_error_apply (e : Thrown χ) (b : ReadBuffer) :
    (liftM (.error e : Except (Thrown χ) α) : Reader χ α) b = .error e := rfl

@[simp] theorem pure_apply (a : α) (b : ReadBuffer) : (pure a : Reader χ α) b = .ok (a, b) := rfl

variable {x : Except (Thrown χ) α}

theorem lift_of_ok (h : x = .ok a) (b : ReadBuffer) : (liftM x : Reader χ α) b = .ok (a, b) := by
  rw [h]
  rfl

theorem ok_of_lift (h : (liftM x : Reader χ α) b = .ok (a, b')) : x = .ok a := by
  cases x with
  | error e => cases h
  | ok a' =>
    cases h
    rfl

theorem eq_of_lift (h : (liftM x : Reader χ α) b = .ok (a, b')) : b' = b := by
  cases x with
  | error e => cases h
  | ok a' =>
    cases h
    rfl

theorem run'_of_ok {x : Reader χ α} (h : x b = .ok (a, b')) : x.run' b = .ok a := by
  rw [StateT.run', h]
  rfl

theorem run'_eq_ok {x : Reader χ α} (h : x.run' b = .ok a) : ∃ b', x b = .ok (a, b') := by
  rw [StateT.run'] at h
  cases hx : x b with
  | error e =>
    rw [hx] at h
    cases h
  | ok r =>
    rw [hx] at h
    cases h
    exact ⟨r.2, rfl⟩

end Sequencing

section Reading

variable (before xs ys beyond : List Byte)

theorem get_of_length {n : ℕ} (h : xs.length = n) :
    (get n : Reader χ _) ⟨before, xs ++ ys, beyond⟩ = .ok (xs, ⟨before ++ xs, ys, beyond⟩) := by
  subst h
  simp [get, ReadBuffer.remaining, ReadBuffer.advance]

theorem length_of_get {n : ℕ} {b b' : ReadBuffer} {bs : List Byte}
    (h : (get n : Reader χ _) b = .ok (bs, b')) : bs.length = n := by
  rw [get] at h
  split_ifs at h with hn
  cases h
  rw [List.length_take]
  exact Nat.min_eq_left hn

@[simp] theorem get_append :
    (get xs.length : Reader χ _) ⟨before, xs ++ ys, beyond⟩ = .ok (xs, ⟨before ++ xs, ys, beyond⟩) :=
  get_of_length before xs ys beyond rfl

@[simp] theorem getByte_cons (x : Byte) :
    (getByte : Reader χ _) ⟨before, x :: ys, beyond⟩ = .ok (x, ⟨before ++ [x], ys, beyond⟩) := rfl

theorem read_number {w n : ℕ} {bs : List Byte} (h : bs.length = n) :
    (do return ofBytes w (← get n) : Reader χ _) ⟨before, bs ++ ys, beyond⟩ =
      .ok (ofBytes w bs, ⟨before ++ bs, ys, beyond⟩) := by
  rw [bind_of_ok (get_of_length before bs ys beyond h)]
  rfl

@[simp] theorem getShort_append (x : BitVec 16) :
    (getShort : Reader χ _) ⟨before, short x ++ ys, beyond⟩ =
      .ok (x, ⟨before ++ short x, ys, beyond⟩) := by
  rw [getShort, read_number before ys beyond (length_short x), ofBytes_short]

@[simp] theorem getInt_append (x : BitVec 32) :
    (getInt : Reader χ _) ⟨before, int x ++ ys, beyond⟩ =
      .ok (x, ⟨before ++ int x, ys, beyond⟩) := by
  rw [getInt, read_number before ys beyond (length_int x), ofBytes_int]

@[simp] theorem getMacAddress_append (x : BitVec 48) :
    (getMacAddress : Reader χ _) ⟨before, macAddress x ++ ys, beyond⟩ =
      .ok (x, ⟨before ++ macAddress x, ys, beyond⟩) := by
  rw [getMacAddress, read_number before ys beyond (length_macAddress x), ofBytes_macAddress]

@[simp] theorem getAddress_append (x : BitVec 128) :
    (getAddress : Reader χ _) ⟨before, address x ++ ys, beyond⟩ =
      .ok (x, ⟨before ++ address x, ys, beyond⟩) := by
  rw [getAddress, read_number before ys beyond (length_address x), ofBytes_address]

end Reading

structure WriteBuffer where
  written : List Byte
  free : ℕ
  deriving DecidableEq, Repr

namespace WriteBuffer

def array (w : WriteBuffer) : List Byte := w.written ++ List.replicate w.free 0

def put (w : WriteBuffer) (bs : List Byte) : Except (Thrown χ) WriteBuffer :=
  if bs.length ≤ w.free then .ok ⟨w.written ++ bs, w.free - bs.length⟩ else .error .bufferOverflow

def puts (w : WriteBuffer) (chunks : List (List Byte)) : Except (Thrown χ) WriteBuffer :=
  chunks.foldlM put w

theorem puts_eq (w : WriteBuffer) (chunks : List (List Byte)) :
    (w.puts chunks : Except (Thrown χ) _) = if chunks.flatten.length ≤ w.free then
      .ok ⟨w.written ++ chunks.flatten, w.free - chunks.flatten.length⟩ else .error .bufferOverflow := by
  induction chunks generalizing w with
  | nil => simp [puts, Pure.pure, Except.pure]
  | cons bs chunks ih =>
    rw [puts, List.foldlM_cons, put]
    have hlen : (bs :: chunks).flatten.length = bs.length + chunks.flatten.length := by
      rw [List.flatten_cons, List.length_append]
    split_ifs with hbs hall hall
    · have hrest : chunks.flatten.length ≤ w.free - bs.length := by omega
      change puts _ chunks = _
      rw [ih, if_pos hrest, hlen, List.flatten_cons, List.append_assoc, Nat.sub_sub]
    · have hrest : ¬ chunks.flatten.length ≤ w.free - bs.length := by omega
      change puts _ chunks = _
      rw [ih, if_neg hrest]
    · omega
    · rfl

end WriteBuffer

def fillNew (size : ℤ) (chunks : List (List Byte)) : Except (Thrown χ) (List Byte) :=
  if size < 0 then .error .negativeArraySize
  else (WriteBuffer.puts ⟨[], size.toNat⟩ chunks).map WriteBuffer.array

def putAt (data : List Byte) (index : ℕ) (bs : List Byte) : Except (Thrown χ) (List Byte) :=
  if index + bs.length ≤ data.length then
    .ok (data.take index ++ bs ++ data.drop (index + bs.length))
  else .error .indexOutOfBounds

section Filling

variable {size : ℤ} {chunks : List (List Byte)}

theorem fillNew_of_le (h : (chunks.flatten.length : ℤ) ≤ size) :
    (fillNew size chunks : Except (Thrown χ) _) =
      .ok (chunks.flatten ++ List.replicate (size.toNat - chunks.flatten.length) 0) := by
  have hsize : ¬ size < 0 := by omega
  have hfree : chunks.flatten.length ≤ size.toNat := by omega
  rw [fillNew, if_neg hsize, WriteBuffer.puts_eq, if_pos hfree]
  rfl

theorem fillNew_exact (h : size = chunks.flatten.length) :
    (fillNew size chunks : Except (Thrown χ) _) = .ok chunks.flatten := by
  subst h
  simp [fillNew_of_le]

theorem fillNew_of_lt (h : size < chunks.flatten.length) (bs : List Byte) :
    (fillNew size chunks : Except (Thrown χ) _) ≠ .ok bs := by
  rw [fillNew]
  split_ifs with hsize
  · nofun
  · have hfree : ¬ chunks.flatten.length ≤ size.toNat := by omega
    rw [WriteBuffer.puts_eq, if_neg hfree]
    nofun

theorem fillNew_eq_ok {data : List Byte} (h : (fillNew size chunks : Except (Thrown χ) _) = .ok data) :
    (chunks.flatten.length : ℤ) ≤ size ∧
      data = chunks.flatten ++ List.replicate (size.toNat - chunks.flatten.length) 0 := by
  by_cases hle : (chunks.flatten.length : ℤ) ≤ size
  · rw [fillNew_of_le hle] at h
    exact ⟨hle, (Except.ok.inj h).symm⟩
  · exact absurd h (fillNew_of_lt (by omega) data)

theorem length_of_fillNew {data : List Byte}
    (h : (fillNew size chunks : Except (Thrown χ) _) = .ok data) : (data.length : ℤ) = size := by
  obtain ⟨hle, rfl⟩ := fillNew_eq_ok h
  rw [List.length_append, List.length_replicate]
  omega

theorem putAt_append {before old after bs : List Byte} (h : bs.length = old.length) :
    (putAt (before ++ (old ++ after)) before.length bs : Except (Thrown χ) _) =
      .ok (before ++ (bs ++ after)) := by
  have hle : before.length + bs.length ≤ (before ++ (old ++ after)).length := by
    simp only [List.length_append]
    omega
  rw [putAt, if_pos hle, List.take_left, List.append_assoc, ← List.drop_drop, List.drop_left, h,
    List.drop_left]

end Filling

end ByteBuffer

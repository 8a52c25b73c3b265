import Mathlib.Algebra.BigOperators.Group.List.Basic
import Mathlib.Algebra.Order.Ring.Int

/-! Packing a list into packets, each filled from the front of what is left. An item without a size
is passed over; one that does not fit begins the next packet. -/
namespace Packing

variable {α : Type*} (size : α → Option ℤ) (room start : ℤ)

def fill : ℤ → List α → List α × List α
  | _, [] => ([], [])
  | used, a :: rest => match size a with
    | none => fill used rest
    | some n =>
      if used + n ≥ room then ([], a :: rest)
      else (a :: (fill (used + n) rest).1, (fill (used + n) rest).2)

def pack : ℕ → List α → Option (List (List α))
  | _, [] => some []
  | 0, _ :: _ => none
  | fuel + 1, a :: rest =>
    let filled := fill size room start (a :: rest)
    (pack fuel filled.2).map (filled.1 :: ·)

def sized (l : List α) : List α := l.filter fun a => (size a).isSome

def Fits (a : α) : Prop := ∀ n, size a = some n → start + n < room

def load (packet : List α) : ℤ := (packet.map fun a => (size a).getD 0).sum

section Filling

attribute [local simp] fill

theorem fill_append (used : ℤ) (l : List α) :
    (fill size room used l).1 ++ sized size (fill size room used l).2 = sized size l := by
  induction l generalizing used with
  | nil => rfl
  | cons a rest ih =>
    rw [fill]
    cases hn : size a with
    | none =>
      have hskip : sized size (a :: rest) = sized size rest := by simp [sized, hn]
      rw [hskip]
      exact ih used
    | some n =>
      have hkeep : sized size (a :: rest) = a :: sized size rest := by simp [sized, hn]
      dsimp only
      split
      · rfl
      · rw [hkeep, List.cons_append, ih]

theorem load_fill (used : ℤ) (l : List α) (h : (fill size room used l).1 ≠ []) :
    used + load size (fill size room used l).1 < room := by
  induction l generalizing used with
  | nil => exact absurd rfl h
  | cons a rest ih =>
    rw [fill] at h ⊢
    cases hn : size a with
    | none =>
      rw [hn] at h
      exact ih used h
    | some n =>
      rw [hn] at h
      dsimp only at h ⊢
      split at h
      · exact absurd rfl h
      · rename_i hfits
        rw [if_neg hfits]
        have hcons : load size (a :: (fill size room (used + n) rest).1) =
            n + load size (fill size room (used + n) rest).1 := by simp [load, hn]
        rw [hcons]
        by_cases he : (fill size room (used + n) rest).1 = []
        · rw [he, load, List.map_nil, List.sum_nil]
          omega
        · have := ih (used + n) he
          omega

theorem fill_suffix (used : ℤ) (l : List α) : (fill size room used l).2 <:+ l := by
  induction l generalizing used with
  | nil => exact List.suffix_rfl
  | cons a rest ih =>
    rw [fill]
    cases size a with
    | none => exact (ih used).trans (List.suffix_cons a rest)
    | some n =>
      dsimp only
      split
      · exact List.suffix_rfl
      · exact (ih (used + n)).trans (List.suffix_cons a rest)

theorem length_fill_lt {a : α} (h : Fits size room start a) (rest : List α) :
    (fill size room start (a :: rest)).2.length < (a :: rest).length := by
  rw [fill]
  cases hn : size a with
  | none => exact Nat.lt_succ_of_le (fill_suffix size room start rest).length_le
  | some n =>
    dsimp only
    rw [if_neg (Int.not_le.mpr (h n hn))]
    exact Nat.lt_succ_of_le (fill_suffix size room (start + n) rest).length_le

theorem mem_fill {a : α} {n : ℤ} (hn : size a = some n) (hbig : start + n ≥ room)
    {l : List α} (hpos : ∀ b ∈ l, ∀ m, size b = some m → 0 ≤ m) (ha : a ∈ l) {used : ℤ}
    (hused : start ≤ used) : a ∈ (fill size room used l).2 := by
  induction l generalizing used with
  | nil => cases ha
  | cons b rest ih =>
    have hrest := fun c hc => hpos c (List.mem_cons_of_mem b hc)
    rw [fill]
    cases hm : size b with
    | none =>
      obtain rfl | ha := List.mem_cons.mp ha
      · rw [hn] at hm
        cases hm
      · exact ih hrest ha hused
    | some m =>
      have hm0 := hpos b List.mem_cons_self m hm
      dsimp only
      split
      · exact ha
      · rename_i hfits
        obtain rfl | ha := List.mem_cons.mp ha
        · rw [hn, Option.some.injEq] at hm
          omega
        · exact ih hrest ha (by omega)

end Filling

section Packets

variable {fuel : ℕ} {l : List α}

theorem flatten_pack {packets : List (List α)}
    (h : pack size room start fuel l = some packets) : packets.flatten = sized size l := by
  induction fuel generalizing l packets with
  | zero =>
    cases l with
    | nil =>
      cases h
      rfl
    | cons a rest => cases h
  | succ fuel ih =>
    cases l with
    | nil =>
      cases h
      rfl
    | cons a rest =>
      obtain ⟨packets, hpack, rfl⟩ := Option.map_eq_some_iff.mp h
      rw [List.flatten_cons, ih hpack, fill_append]

theorem load_pack {packets : List (List α)} (h : pack size room start fuel l = some packets) :
    ∀ packet ∈ packets, packet ≠ [] → start + load size packet < room := by
  induction fuel generalizing l packets with
  | zero =>
    cases l with
    | nil =>
      cases h
      intro packet hp
      cases hp
    | cons a rest => cases h
  | succ fuel ih =>
    cases l with
    | nil =>
      cases h
      intro packet hp
      cases hp
    | cons a rest =>
      obtain ⟨packets, hpack, rfl⟩ := Option.map_eq_some_iff.mp h
      rw [List.forall_mem_cons]
      exact ⟨load_fill size room start (a :: rest), ih hpack⟩

theorem pack_of_fits (h : ∀ a ∈ l, Fits size room start a)
    (hfuel : l.length ≤ fuel) : ∃ packets, pack size room start fuel l = some packets := by
  induction fuel generalizing l with
  | zero =>
    obtain rfl := List.length_eq_zero_iff.mp (Nat.le_zero.mp hfuel)
    exact ⟨[], rfl⟩
  | succ fuel ih =>
    cases l with
    | nil => exact ⟨[], rfl⟩
    | cons a rest =>
      have hlt := length_fill_lt size room start (h a List.mem_cons_self) rest
      obtain ⟨packets, hpack⟩ := ih (l := (fill size room start (a :: rest)).2)
        (fun b hb => h b ((fill_suffix size room start (a :: rest)).mem hb)) (by omega)
      exact ⟨_, Option.map_eq_some_iff.mpr ⟨packets, hpack, rfl⟩⟩

theorem pack_eq_none {a : α} {n : ℤ} (hn : size a = some n) (hbig : start + n ≥ room) (fuel : ℕ)
    (hpos : ∀ b ∈ l, ∀ m, size b = some m → 0 ≤ m) (ha : a ∈ l) :
    pack size room start fuel l = none := by
  induction fuel generalizing l with
  | zero =>
    cases l with
    | nil => cases ha
    | cons b rest => rfl
  | succ fuel ih =>
    cases l with
    | nil => cases ha
    | cons b rest =>
      rw [pack, Option.map_eq_none_iff]
      apply ih
      · exact fun c hc => hpos c ((fill_suffix size room start (b :: rest)).mem hc)
      · exact mem_fill size room start hn hbig hpos ha (Int.le_refl start)

theorem pack_ends_iff (hpos : ∀ b ∈ l, ∀ m, size b = some m → 0 ≤ m) :
    (∃ fuel packets, pack size room start fuel l = some packets) ↔
      ∀ a ∈ l, Fits size room start a := by
  constructor
  · rintro ⟨fuel, packets, hpack⟩ a ha n hn
    by_contra hbig
    rw [pack_eq_none size room start hn (Int.not_lt.mp hbig) fuel hpos ha] at hpack
    cases hpack
  · intro h
    obtain ⟨packets, hpack⟩ := pack_of_fits size room start h (Nat.le_refl _)
    exact ⟨l.length, packets, hpack⟩

end Packets

end Packing

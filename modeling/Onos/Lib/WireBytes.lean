import Mathlib.Tactic.Ring

/-! Bytes on the wire: numbers in network order, most significant byte first. -/
namespace WireBytes

abbrev Byte := BitVec 8

def bytesOf : ℕ → ℕ → List Byte
  | 0, _ => []
  | n + 1, v => BitVec.ofNat 8 (v / 256 ^ n) :: bytesOf n v

def valueOf : List Byte → ℕ
  | [] => 0
  | b :: bs => b.toNat * 256 ^ bs.length + valueOf bs

@[simp] theorem length_bytesOf (n v : ℕ) : (bytesOf n v).length = n := by
  induction n with
  | zero => rfl
  | succ n ih => rw [bytesOf, List.length_cons, ih]

theorem valueOf_lt (bs : List Byte) : valueOf bs < 256 ^ bs.length := by
  induction bs with
  | nil => exact Nat.one_pos
  | cons b bs ih =>
    have hb : b.toNat < 256 := b.isLt
    calc b.toNat * 256 ^ bs.length + valueOf bs
        < b.toNat * 256 ^ bs.length + 256 ^ bs.length := by omega
      _ = (b.toNat + 1) * 256 ^ bs.length := by ring
      _ ≤ 256 * 256 ^ bs.length := Nat.mul_le_mul_right _ hb
      _ = 256 ^ (b :: bs).length := by rw [List.length_cons, pow_succ, mul_comm]

theorem valueOf_bytesOf (n v : ℕ) : valueOf (bytesOf n v) = v % 256 ^ n := by
  induction n with
  | zero => simp [bytesOf, valueOf, Nat.mod_one]
  | succ n ih =>
    have hb : (BitVec.ofNat 8 (v / 256 ^ n)).toNat = v / 256 ^ n % 256 := by simp
    rw [bytesOf, valueOf, hb, ih, length_bytesOf, pow_succ, Nat.mod_mul]
    ring

theorem bytesOf_add (n a v : ℕ) : bytesOf n (a * 256 ^ n + v) = bytesOf n v := by
  induction n generalizing a with
  | zero => rfl
  | succ n ih =>
    have hv : a * 256 ^ (n + 1) + v = a * 256 * 256 ^ n + v := by rw [pow_succ]; ring
    have hpos : 0 < 256 ^ n := Nat.pow_pos (by decide)
    rw [bytesOf, bytesOf, hv, ih]
    congr 1
    apply BitVec.eq_of_toNat_eq
    rw [BitVec.toNat_ofNat, BitVec.toNat_ofNat, Nat.add_comm, Nat.add_mul_div_right _ _ hpos]
    omega

theorem bytesOf_valueOf (bs : List Byte) : bytesOf bs.length (valueOf bs) = bs := by
  induction bs with
  | nil => rfl
  | cons b bs ih =>
    have hlt := valueOf_lt bs
    rw [List.length_cons, bytesOf, valueOf, bytesOf_add, ih, Nat.add_comm,
      Nat.add_mul_div_right _ _ (Nat.pow_pos (by decide)), Nat.div_eq_of_lt hlt]
    simp

section Widths

def short (x : BitVec 16) : List Byte := bytesOf 2 x.toNat

def int (x : BitVec 32) : List Byte := bytesOf 4 x.toNat

def long (x : BitVec 64) : List Byte := bytesOf 8 x.toNat

def macAddress (x : BitVec 48) : List Byte := bytesOf 6 x.toNat

def address (x : BitVec 128) : List Byte := bytesOf 16 x.toNat

@[simp] theorem length_short (x : BitVec 16) : (short x).length = 2 := length_bytesOf 2 _

@[simp] theorem length_int (x : BitVec 32) : (int x).length = 4 := length_bytesOf 4 _

@[simp] theorem length_long (x : BitVec 64) : (long x).length = 8 := length_bytesOf 8 _

@[simp] theorem length_macAddress (x : BitVec 48) : (macAddress x).length = 6 := length_bytesOf 6 _

@[simp] theorem length_address (x : BitVec 128) : (address x).length = 16 := length_bytesOf 16 _

def ofBytes (w : ℕ) (bs : List Byte) : BitVec w := BitVec.ofNat w (valueOf bs)

@[simp] theorem ofBytes_short (x : BitVec 16) : ofBytes 16 (short x) = x := by
  apply BitVec.eq_of_toNat_eq
  have hx : x.toNat < 65536 := x.isLt
  rw [ofBytes, short, valueOf_bytesOf, BitVec.toNat_ofNat]
  omega

@[simp] theorem ofBytes_int (x : BitVec 32) : ofBytes 32 (int x) = x := by
  apply BitVec.eq_of_toNat_eq
  have hx : x.toNat < 4294967296 := x.isLt
  rw [ofBytes, int, valueOf_bytesOf, BitVec.toNat_ofNat]
  omega

@[simp] theorem ofBytes_long (x : BitVec 64) : ofBytes 64 (long x) = x := by
  apply BitVec.eq_of_toNat_eq
  have hx : x.toNat < 18446744073709551616 := x.isLt
  rw [ofBytes, long, valueOf_bytesOf, BitVec.toNat_ofNat]
  omega

@[simp] theorem ofBytes_macAddress (x : BitVec 48) : ofBytes 48 (macAddress x) = x := by
  apply BitVec.eq_of_toNat_eq
  have hx : x.toNat < 281474976710656 := x.isLt
  rw [ofBytes, macAddress, valueOf_bytesOf, BitVec.toNat_ofNat]
  omega

@[simp] theorem ofBytes_address (x : BitVec 128) : ofBytes 128 (address x) = x := by
  apply BitVec.eq_of_toNat_eq
  have hx : x.toNat < 340282366920938463463374607431768211456 := x.isLt
  rw [ofBytes, address, valueOf_bytesOf, BitVec.toNat_ofNat]
  omega

theorem short_ofBytes {bs : List Byte} (h : bs.length = 2) : short (ofBytes 16 bs) = bs := by
  have hlt : valueOf bs < 2 ^ 16 := by
    have := valueOf_lt bs
    rwa [h] at this
  rw [short, ofBytes, BitVec.toNat_ofNat, Nat.mod_eq_of_lt hlt, ← h, bytesOf_valueOf]

theorem address_ofBytes {bs : List Byte} (h : bs.length = 16) : address (ofBytes 128 bs) = bs := by
  have hlt : valueOf bs < 2 ^ 128 := by
    have := valueOf_lt bs
    rwa [h] at this
  rw [address, ofBytes, BitVec.toNat_ofNat, Nat.mod_eq_of_lt hlt, ← h, bytesOf_valueOf]

theorem toInt_ofNat_of_lt {w n : ℕ} (h : 2 * n < 2 ^ w) : (BitVec.ofNat w n).toInt = n := by
  have hmod : n < 2 ^ w := by omega
  rw [BitVec.toInt_eq_toNat_of_lt, BitVec.toNat_ofNat, Nat.mod_eq_of_lt hmod]
  rwa [BitVec.toNat_ofNat, Nat.mod_eq_of_lt hmod]

end Widths

section BitFields

variable {w : ℕ}

theorem toNat_and_mask (x : BitVec w) {m : ℕ} (h : m ≤ w) :
    (x &&& BitVec.ofNat w (2 ^ m - 1)).toNat = x.toNat % 2 ^ m := by
  have hle : 2 ^ m ≤ 2 ^ w := Nat.pow_le_pow_right (by decide) h
  have hpos : 0 < 2 ^ m := Nat.two_pow_pos m
  have hmod : 2 ^ m - 1 < 2 ^ w := by omega
  rw [BitVec.toNat_and, BitVec.toNat_ofNat, Nat.mod_eq_of_lt hmod, Nat.and_two_pow_sub_one_eq_mod]

theorem toNat_shift_and_mask (x : BitVec w) {k m : ℕ} (h : k + m ≤ w) :
    (x.sshiftRight k &&& BitVec.ofNat w (2 ^ m - 1)).toNat = x.toNat / 2 ^ k % 2 ^ m := by
  have hshift : x.sshiftRight k &&& BitVec.ofNat w (2 ^ m - 1) =
      x >>> k &&& BitVec.ofNat w (2 ^ m - 1) := by
    apply BitVec.eq_of_getElem_eq
    intro i hi
    by_cases him : i < m
    · have hin : k + i < w := by omega
      simp [BitVec.getElem_sshiftRight, hin]
    · have hmask : (BitVec.ofNat w (2 ^ m - 1))[i] = false := by
        rw [← BitVec.getLsbD_eq_getElem]
        simp [BitVec.getLsbD_ofNat, Nat.testBit_two_pow_sub_one, him]
      simp [hmask]
  have hm : m ≤ w := by omega
  rw [hshift, toNat_and_mask _ hm, BitVec.toNat_ushiftRight, Nat.shiftRight_eq_div_pow]

theorem toNat_or_of_dvd {x y : BitVec w} {k : ℕ} (hx : 2 ^ k ∣ x.toNat) (hy : y.toNat < 2 ^ k) :
    (x ||| y).toNat = x.toNat + y.toNat := by
  obtain ⟨a, ha⟩ := hx
  have hshift : x.toNat = a <<< k := by rw [ha, Nat.shiftLeft_eq, Nat.mul_comm]
  rw [BitVec.toNat_or, hshift, Nat.shiftLeft_add_eq_or_of_lt hy]

end BitFields
end WireBytes

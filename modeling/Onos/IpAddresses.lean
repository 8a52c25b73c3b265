import Onos.Lib.ByteBuffer

/-! Addresses of both versions of IP, and prefixes of them. -/
namespace IpAddresses

open WireBytes

inductive IpAddress where
  | INET (octets : BitVec 32)
  | INET6 (octets : BitVec 128)
  deriving DecidableEq, Repr

namespace IpAddress

def isIp4 : IpAddress → Bool
  | INET _ => true
  | INET6 _ => false

def toOctets : IpAddress → List Byte
  | INET octets => int octets
  | INET6 octets => address octets

def getIp4Address : IpAddress → Option (BitVec 32)
  | INET octets => some octets
  | INET6 _ => none

theorem length_toOctets_of_isIp4 {a : IpAddress} (h : a.isIp4 = true) : a.toOctets.length = 4 := by
  cases a with
  | INET octets => exact length_int octets
  | INET6 octets => cases h

def bitLength : IpAddress → ℕ
  | INET _ => 32
  | INET6 _ => 128

def maskOf (w prefixLength : ℕ) : BitVec w := BitVec.allOnes w <<< (w - prefixLength)

def makeMaskedAddress (prefixLength : ℕ) : IpAddress → IpAddress
  | INET octets => INET (octets &&& maskOf 32 prefixLength)
  | INET6 octets => INET6 (octets &&& maskOf 128 prefixLength)

theorem makeMaskedAddress_bitLength (a : IpAddress) : makeMaskedAddress a.bitLength a = a := by
  have hones : ∀ w, maskOf w w = BitVec.allOnes w := by
    intro w
    rw [maskOf, Nat.sub_self, BitVec.shiftLeft_zero]
  cases a with
  | INET octets => rw [bitLength, makeMaskedAddress, hones, BitVec.and_allOnes]
  | INET6 octets => rw [bitLength, makeMaskedAddress, hones, BitVec.and_allOnes]

end IpAddress

structure IpPrefix where
  address : IpAddress
  prefixLength : ℕ
  le_bitLength : prefixLength ≤ address.bitLength
  isMasked : address.makeMaskedAddress prefixLength = address
  deriving DecidableEq, Repr

def IpAddress.toIpPrefix (a : IpAddress) : IpPrefix :=
  ⟨a, a.bitLength, Nat.le_refl _, a.makeMaskedAddress_bitLength⟩

theorem IpPrefix.toIpPrefix_address (p : IpPrefix) :
    p.address.toIpPrefix = p ↔ p.prefixLength = p.address.bitLength := by
  obtain ⟨address, prefixLength, hle, hmasked⟩ := p
  constructor
  · intro h
    exact (congrArg IpPrefix.prefixLength h).symm
  · intro h
    have hlength : prefixLength = address.bitLength := h
    subst hlength
    rfl

end IpAddresses

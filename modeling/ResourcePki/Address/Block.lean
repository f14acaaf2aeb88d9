import ResourcePki.Address.Text
import ResourcePki.BitString
import ResourcePki.Error.Resource

/-!
Blocks of consecutive addresses: those that share their first bits, and ranges given by both ends.

A block of the first kind is written as the bit string of the shared bits. The ends of a range are
written the same way in the fewest bits: the first address stands for itself with its trailing zeros
dropped, the last one with its trailing ones dropped. Reading fills the dropped bits back in, with
zeros for the first address and ones for the last, which is why nothing is lost.
-/

namespace ResourcePki

/-- The addresses that share the first `length` bits with `address`. -/
structure AddressPrefix where
  address : Address
  length : Nat
  deriving DecidableEq, Repr

namespace AddressPrefix

/-- The block with the first `len` bits of an address; there is none beyond 128 bits. -/
def make? (a : Address) (len : Nat) : Option AddressPrefix :=
  if len ≤ 128 then some ⟨a.floor len, len⟩ else none

/-- The smallest address of the block. -/
def first (p : AddressPrefix) : Address :=
  p.address

/-- The largest address of the block. -/
def last (p : AddressPrefix) : Address :=
  p.address.ceil p.length

/-- Reads the shared bits of a block. They may not be more than an address of the family has. -/
def ofBitString (family : Family) (b : BitString) : Except IpResourceError AddressPrefix :=
  if b.unused > 7 ∨ (b.octets = [] ∧ b.unused > 0) then .error .badAddress
  else if b.octets.length > family.octets then .error .badAddress
  else
    let a := Address.ofOctets (b.octets ++ List.replicate (16 - b.octets.length) 0)
    .ok ⟨a.floor b.length, b.length⟩

/-- The shared bits of the block. Only lengths up to 128 have them. -/
def bitString (p : AddressPrefix) : BitString :=
  if p.length % 8 = 0 then ⟨0, p.address.octets.take (p.length / 8)⟩
  else ⟨8 - p.length % 8, p.address.octets.take (p.length / 8 + 1)⟩

/-- The text of the block in a family. -/
def text (family : Family) (p : AddressPrefix) : String :=
  p.address.text family ++ "/" ++ Decimal.text p.length

end AddressPrefix

/-- How many of the lowest `width` bits of a number are zero before the first one that is set. -/
def trailingZeros : (width : Nat) → Nat → Nat
  | 0, _ => 0
  | width + 1, n => if n % 2 = 0 then 1 + trailingZeros width (n / 2) else 0

/-- The addresses from `first` to `last`, both included. -/
structure AddressRange where
  first : Address
  last : Address
  deriving DecidableEq, Repr

namespace AddressRange

/-- The range between two addresses, which may not be out of order. -/
def make (first last : Address) : Except IpResourceError AddressRange :=
  if first.value > last.value then .error .reversed else .ok ⟨first, last⟩

/-- The first address without its trailing zeros. -/
def firstPrefix (r : AddressRange) : AddressPrefix :=
  let len := 128 - trailingZeros 128 r.first.value
  ⟨r.first.floor len, len⟩

/-- The last address without its trailing ones. -/
def lastPrefix (r : AddressRange) : AddressPrefix :=
  let len := 128 - trailingZeros 128 (0xffffffffffffffffffffffffffffffff - r.last.value)
  ⟨r.last.floor len, len⟩

/-- The text of the range in a family. -/
def text (family : Family) (r : AddressRange) : String :=
  r.first.text family ++ "-" ++ r.last.text family

end AddressRange

/-- A block of consecutive addresses. -/
inductive AddressBlock where
  /-- The block is given by shared first bits. -/
  | ofPrefix (p : AddressPrefix)
  /-- The block is given by its ends. -/
  | ofRange (r : AddressRange)
  deriving DecidableEq, Repr

namespace AddressBlock

/-- The smallest address of the block. -/
def first : AddressBlock → Address
  | .ofPrefix p => p.first
  | .ofRange r => r.first

/-- The largest address of the block. -/
def last : AddressBlock → Address
  | .ofPrefix p => p.last
  | .ofRange r => r.last

/-- The text of the block in a family. -/
def text (family : Family) : AddressBlock → String
  | .ofPrefix p => p.text family
  | .ofRange r => r.text family

end AddressBlock

end ResourcePki

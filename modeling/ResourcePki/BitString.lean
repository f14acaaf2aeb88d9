import ResourcePki.Octets

/-!
Bit strings as octets of which the last one may have bits to spare.
-/

namespace ResourcePki

/-- Octets, of the last of which the lowest `unused` bits do not count. -/
structure BitString where
  unused : Nat
  octets : Octets
  deriving DecidableEq, Repr

namespace BitString

/-- The number of bits. -/
def length (b : BitString) : Nat :=
  b.octets.length * 8 - b.unused

/-- The bit at a position counted from the first; positions past the end give `false`. -/
def bit (b : BitString) (i : Nat) : Bool :=
  i < b.length && (b.octets[i / 8]?.getD 0).toNat.testBit (7 - i % 8)

end BitString

end ResourcePki

import ResourcePki.Octets

/-!
Headers of encoded values: what kind of value follows and how long it is.

A tag has one octet, or up to three further ones if its number is large. Only its first octet is
kept, without the bit that tells whether the value is made of other values; no tag in use has
further octets, so such a tag equals none of them. A length stands in the fewest octets, at most
four behind the one that counts them. An indefinite length is recognised as such, and whoever reads
the header decides whether it is allowed.
-/

namespace ResourcePki.Der

/-- The first octet of a tag, without the bit for values made of other values. -/
abbrev Tag := UInt8

namespace Tag

/-- The mark that ends a value of indefinite length. -/
def endOfContents : Tag := 0x00

def boolean : Tag := 0x01
def integer : Tag := 0x02
def bitString : Tag := 0x03
def octetString : Tag := 0x04
def null : Tag := 0x05
def objectId : Tag := 0x06
def sequence : Tag := 0x10
def ia5String : Tag := 0x16
def utcTime : Tag := 0x17
def generalizedTime : Tag := 0x18

/-- The tag that the context gives a meaning, by its number. -/
def context (n : UInt8) : Tag := 0x80 + n

end Tag

/-- The octets behind the further octets of a tag, of which there are at most `n`. -/
def afterLongTag : (n : Nat) → Octets → Option Octets
  | n + 1, b :: bs => if b < 0x80 then some bs else afterLongTag n bs
  | _, _ => none

/-- Reads a tag and whether the value is made of other values. -/
def readTag : Octets → Option (Tag × Bool × Octets)
  | [] => none
  | b :: bs =>
    let tag := b &&& 0xdf
    let constructed := b &&& 0x20 != 0
    if b &&& 0x1f = 0x1f then (afterLongTag 3 bs).map fun rest => (tag, constructed, rest)
    else some (tag, constructed, bs)

/-- The length of a value. -/
inductive Length where
  | definite (n : Nat)
  | indefinite
  deriving DecidableEq, Repr

/-- Reads a length in its shortest form. -/
def readLength : Octets → Option (Length × Octets)
  | [] => none
  | b :: bs =>
    if b < 0x80 then some (.definite b.toNat, bs)
    else if b = 0x80 then some (.indefinite, bs)
    else
      let count := b.toNat - 0x80
      if count > 4 then none
      else do
        let (digits, rest) ← Octets.split? count bs
        let n := Octets.toNat digits
        if n < 0x80 ∨ digits.head? = some 0 then none else some (.definite n, rest)

/-- Writes a length in its shortest form. -/
def writeLength (n : Nat) : Octets :=
  if n < 0x80 then [UInt8.ofNat n]
  else
    let digits := Octets.shortest n
    UInt8.ofNat (0x80 + digits.length) :: digits

/-- What stands in front of the content of a value. -/
structure Header where
  tag : Tag
  constructed : Bool
  length : Length
  deriving DecidableEq, Repr

/-- Reads a header. -/
def readHeader (bs : Octets) : Option (Header × Octets) := do
  let (tag, constructed, bs) ← readTag bs
  let (length, bs) ← readLength bs
  return (⟨tag, constructed, length⟩, bs)

end ResourcePki.Der

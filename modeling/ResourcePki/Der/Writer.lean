import ResourcePki.Der.Header
import ResourcePki.BitString
import ResourcePki.ObjectId

/-!
Writing encoded values. Lengths and whole numbers take the fewest octets. The length of a value is
that of its content, or it is announced before the content is written.
-/

namespace ResourcePki.Der

/-- How many octets a value with `n` octets of content has. -/
def valueLength (n : Nat) : Nat :=
  1 + (writeLength n).length + n

/-- A value that announces `n` octets of content. -/
def announced (tag : Tag) (n : Nat) (content : Octets) : Octets :=
  tag :: (writeLength n ++ content)

/-- A sequence that announces `n` octets. -/
def announcedSequence (n : Nat) (content : Octets) : Octets :=
  announced (Tag.sequence ||| 0x20) n content

/-- A value with the given content. -/
def value (tag : Tag) (content : Octets) : Octets :=
  announced tag content.length content

/-- A value made of the given values. -/
def constructedValue (tag : Tag) (content : Octets) : Octets :=
  value (tag ||| 0x20) content

/-- A sequence of the given values. -/
def sequenceValue (content : Octets) : Octets :=
  constructedValue Tag.sequence content

/-- A value without content. -/
def nullValue : Octets :=
  value Tag.null []

/-- The truth value for something that holds. -/
def trueValue : Octets :=
  value Tag.boolean [0xff]

/-- The content of a whole number: its octets, with a zero in front if the first one would make the
number negative. -/
def unsignedContent (n : Nat) : Octets :=
  match Octets.shortest n with
  | [] => [0]
  | b :: rest => if b < 0x80 then b :: rest else 0 :: b :: rest

/-- A whole number. -/
def unsignedValue (n : Nat) : Octets :=
  value Tag.integer (unsignedContent n)

/-- Octets. -/
def octetStringValue (bs : Octets) : Octets :=
  value Tag.octetString bs

/-- Bits. -/
def bitStringValue (b : BitString) : Octets :=
  value Tag.bitString (UInt8.ofNat b.unused :: b.octets)

/-- An object identifier. -/
def objectIdValue (id : ObjectId) : Octets :=
  value Tag.objectId id.octets

end ResourcePki.Der

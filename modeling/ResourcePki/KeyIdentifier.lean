import ResourcePki.Text.Hex

/-!
Key identifiers: twenty octets, by which a certificate names a key.

The text is 40 upper-case hexadecimal digits; reading takes digits of either case. Identifiers are
ordered octet by octet, which is also the order of their texts.
-/

namespace ResourcePki

/-- Twenty octets that name a key. -/
structure KeyIdentifier where
  octets : Octets
  length_eq : octets.length = 20
  deriving DecidableEq

namespace KeyIdentifier

/-- The identifier with the given octets, of which there must be twenty. -/
def ofOctets? (bs : Octets) : Option KeyIdentifier :=
  if h : bs.length = 20 then some ⟨bs, h⟩ else none

/-- Reads 40 hexadecimal digits. -/
def ofText? (s : String) : Option KeyIdentifier :=
  (Hex.decode? s.toList).bind ofOctets?

/-- The digits of an identifier. -/
def text (k : KeyIdentifier) : String :=
  Hex.upper k.octets

/-- The text as it is shown for debugging. -/
def debugText (k : KeyIdentifier) : String :=
  "KeyIdentifier(" ++ k.text ++ ")"

instance : Ord KeyIdentifier where
  compare a b := compare a.octets b.octets

instance : Std.TransOrd KeyIdentifier :=
  inferInstanceAs (Std.TransCmp (compareOn KeyIdentifier.octets))

/-- The wording of a failure to read a key identifier or a key from its text. -/
def representationMessage : String :=
  "invalid key representation"

end KeyIdentifier

end ResourcePki

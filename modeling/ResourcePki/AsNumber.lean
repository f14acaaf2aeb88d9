import ResourcePki.Text.Decimal

/-!
Numbers of autonomous systems, their text, and ranges of them.

The text is the decimal number behind the letters AS. Reading accepts the letters in any case or
without them, and a plus sign in front of the digits.
-/

namespace ResourcePki

/-- The number of an autonomous system. -/
structure AsNumber where
  value : UInt32
  deriving DecidableEq, Repr

namespace AsNumber

/-- The number reserved by RFC 1930, never valid as an entry. -/
def reserved : AsNumber :=
  ⟨0⟩

/-- The number with the lowest 32 bits of a natural number. -/
def ofNat (n : Nat) : AsNumber :=
  ⟨UInt32.ofNat n⟩

/-- The number as a natural number. -/
def toNat (n : AsNumber) : Nat :=
  n.value.toNat

/-- The text without a leading AS, if it has one. -/
def dropLetters : List Char → List Char
  | a :: s :: rest => if (a = 'A' ∨ a = 'a') ∧ (s = 'S' ∨ s = 's') then rest else a :: s :: rest
  | cs => cs

/-- Reads the text of a number. -/
def ofText (s : String) : Except Decimal.Fault AsNumber :=
  (Decimal.read (0xffffffff) (dropLetters s.toList)).map ofNat

/-- The text of a number. -/
def text (n : AsNumber) : String :=
  "AS" ++ Decimal.text n.toNat

end AsNumber

end ResourcePki

import ResourcePki.Octets

/-!
Hexadecimal text: two digits an octet, the high half first. Writing uses one case throughout;
reading takes either.
-/

namespace ResourcePki.Hex

/-- The two cases in which digits above nine can be written. -/
inductive Case where
  | lower
  | upper

/-- The digit for a value below sixteen. -/
def digit (case : Case) (n : Nat) : Char :=
  if n < 10 then Char.ofNat ('0'.toNat + n)
  else match case with
    | .lower => Char.ofNat ('a'.toNat + (n - 10))
    | .upper => Char.ofNat ('A'.toNat + (n - 10))

/-- The value of a digit of either case. -/
def value? (c : Char) : Option Nat :=
  if '0' ≤ c ∧ c ≤ '9' then some (c.toNat - '0'.toNat)
  else if 'a' ≤ c ∧ c ≤ 'f' then some (c.toNat - 'a'.toNat + 10)
  else if 'A' ≤ c ∧ c ≤ 'F' then some (c.toNat - 'A'.toNat + 10)
  else none

/-- The digits of an octet string. -/
def encode (case : Case) (bs : Octets) : List Char :=
  bs.flatMap fun b => [digit case (b.toNat / 16), digit case (b.toNat % 16)]

/-- The octets that the digits spell, if all of them are digits and they come in pairs. -/
def decode? : List Char → Option Octets
  | [] => some []
  | [_] => none
  | hi :: lo :: rest => do
    let h ← value? hi
    let l ← value? lo
    let bs ← decode? rest
    return UInt8.ofNat (h * 16 + l) :: bs

/-- Lower-case text. -/
def lower (bs : Octets) : String :=
  String.ofList (encode .lower bs)

/-- Upper-case text. -/
def upper (bs : Octets) : String :=
  String.ofList (encode .upper bs)

end ResourcePki.Hex

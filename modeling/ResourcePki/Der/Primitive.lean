import ResourcePki.Der.Reader
import ResourcePki.BitString
import ResourcePki.ObjectId

/-!
Values that are not made of other values, by what their content means.
-/

namespace ResourcePki.Der

namespace Element

/-- A value without content. -/
def null (e : Element) : Except DecodeError Unit := do
  if (← e.primitive) = [] then return else throw .malformed

/-- A truth value: one octet, all zeros or all ones. -/
def boolean (e : Element) : Except DecodeError Bool := do
  match ← e.primitive with
  | [0x00] => return false
  | [0xff] => return true
  | _ => throw .malformed

/-- The content of a whole number that is not negative, in the fewest octets. -/
def unsigned (e : Element) : Except DecodeError Octets := do
  match ← e.primitive with
  | [] => throw .malformed
  | [b] => if b < 0x80 then return [b] else throw .malformed
  | b :: c :: rest =>
    if b ≥ 0x80 ∨ (b = 0 ∧ c < 0x80) then throw .malformed else return b :: c :: rest

/-- A whole number of 32 bits. -/
def unsigned32 (e : Element) : Except DecodeError Nat := do
  let n := Octets.toNat (← e.unsigned)
  if n < 0x100000000 then return n else throw .malformed

/-- Octets. -/
def octetString (e : Element) : Except DecodeError Octets :=
  e.primitive

/-- Bits. Their count is kept as the number of bits that the last octet has to spare, which must be
zero. -/
def bitString (e : Element) : Except DecodeError BitString := do
  match ← e.primitive with
  | [] => throw .malformed
  | unused :: octets =>
    if unused > 7 then throw .malformed
    else
      match octets.getLast? with
      | none => if unused = 0 then return ⟨0, []⟩ else throw .malformed
      | some last =>
        if last.toNat % Nat.pow 2 unused.toNat = 0 then return ⟨unused.toNat, octets⟩
        else throw .malformed

/-- ASCII text. -/
def ia5String (e : Element) : Except DecodeError Octets := do
  let bs ← e.primitive
  if bs.all (· < 0x80) then return bs else throw .malformed

/-- An object identifier. -/
def objectId (e : Element) : Except DecodeError ObjectId := do
  match ObjectId.ofContent? (← e.primitive) with
  | some id => return id
  | none => throw .malformed

end Element

/-- The next value as an object identifier. -/
def objectId : Reader ObjectId := do
  (← elementOf Tag.objectId).objectId

/-- The next value as an object identifier, if it is one. -/
def objectId? : Reader (Option ObjectId) := do
  match ← elementOf? Tag.objectId with
  | some e => return some (← e.objectId)
  | none => return none

/-- The next value as a truth value, if it is one. -/
def boolean? : Reader (Option Bool) := do
  match ← elementOf? Tag.boolean with
  | some e => return some (← e.boolean)
  | none => return none

/-- The next value as octets. -/
def octetString : Reader Octets := do
  (← elementOf Tag.octetString).octetString

/-- The next value as bits. -/
def bitString : Reader BitString := do
  (← elementOf Tag.bitString).bitString

/-- The next value as the content of a whole number. -/
def unsigned : Reader Octets := do
  (← elementOf Tag.integer).unsigned

/-- The next value as a whole number of 32 bits. -/
def unsigned32 : Reader Nat := do
  (← elementOf Tag.integer).unsigned32

end ResourcePki.Der

import ResourcePki.Time
import ResourcePki.Der.Primitive
import ResourcePki.Der.Writer

/-!
The encoded form of moments in whole seconds.

There are two: one with two digits of the year, which stand for 1950 to 2049, and one with four.
Writing uses the first for the years that it can show. The other one announces fifteen octets
whatever the year is; years outside of 0 to 9999 are written with their sign or a fifth digit all
the same, so that what is written for them cannot be read.
-/

namespace ResourcePki.Time

open Der

/-- Reads a decimal number of a given count of digits. -/
def number : (count : Nat) → (start : Nat) → Reader Nat
  | 0, n => return n
  | count + 1, n => do
    let b ← octet
    if 0x30 ≤ b ∧ b ≤ 0x39 then number count (n * 10 + (b.toNat - 0x30)) else throw .time

/-- Reads the year in the form that the tag stands for. -/
def readYear (tag : Tag) : Reader Nat := do
  if tag = Tag.utcTime then
    let year ← number 2 0
    return if 50 ≤ year then 1900 + year else 2000 + year
  else if tag = Tag.generalizedTime then number 4 0
  else throw .time

/-- Reads the content of an encoded moment. -/
def readContent (tag : Tag) : Reader Time := do
  let year ← readYear tag
  let month ← number 2 0
  let day ← number 2 0
  let hour ← number 2 0
  let minute ← number 2 0
  let second ← number 2 0
  if (← octet) ≠ 0x5a then throw .time
  match ofClock? ⟨year, month, day, hour, minute, second⟩ with
  | some t => return t
  | none => throw .time

/-- Reads an encoded moment. -/
def read : Reader Time := do
  let e ← element
  if e.constructed then throw .malformed
  e.content.readAll (readContent e.tag)

/-- A year in at least four characters, of which a minus sign is one. -/
def longYear (year : Int) : List Char :=
  if year < 0 then '-' :: Decimal.padded 3 year.natAbs else Decimal.padded 4 year.toNat

/-- The digits behind the year. -/
def digitsBelowYear (c : Clock) : List Char :=
  [c.month, c.day, c.hour, c.minute, c.second].flatMap (Decimal.padded 2)

/-- Whether a year is written with two digits. -/
def isShortYear (year : Int) : Bool :=
  1950 ≤ year && year ≤ 2049

/-- How many octets of content the encoding of a moment announces. -/
def announced (t : Time) : Nat :=
  if isShortYear t.clock.year then 13 else 15

/-- The content of the encoding of a moment. -/
def content (t : Time) : Octets :=
  let c := t.clock
  let year := if isShortYear c.year then Decimal.padded 2 (c.year % 100).toNat else longYear c.year
  (year ++ digitsBelowYear c ++ ['Z']).map Char.toUInt8

/-- Writes a moment. -/
def encode (t : Time) : Octets :=
  (if isShortYear t.clock.year then Tag.utcTime else Tag.generalizedTime)
    :: (writeLength t.announced ++ t.content)

end ResourcePki.Time

import ResourcePki.Octets
import ResourcePki.Record.Transfer.Error

/-!
The pieces that the transfer form of a record is made of: numbers of fixed width, texts behind
their length, and items of fixed length. A length of zero stands for a text that is absent, so no
text that is there may be empty.
-/

namespace ResourcePki.Transfer

/-- Reads something from the beginning of octets. -/
abbrev Reader (α : Type) := StateT Octets (Except TransferError) α

/-- The next `n` octets. -/
def take (n : Nat) : Reader Octets := fun bs =>
  match Octets.split? n bs with
  | some parts => .ok parts
  | none => .error .shortInput

/-- The number that the next `n` octets spell. -/
def number (n : Nat) : Reader Nat :=
  return Octets.toNat (← take n)

/-- A fault in octets that are there. -/
def orFault {α : Type} : Except RecordFault α → Reader α
  | .ok a => return a
  | .error fault => throw (.malformed fault)

/-- A whole number as 64 bits in two's complement. -/
def signed (n : Int) : Octets :=
  Octets.ofNat 8 (n % 0x10000000000000000).toNat

/-- The whole number whose lowest 64 bits are given. -/
def ofSigned (n : Nat) : Int :=
  if n < 0x8000000000000000 then n else (n : Int) - 0x10000000000000000

/-- Writes a text behind its length. -/
def writeText : Option Octets → Octets
  | none => Octets.ofNat 4 0
  | some text => Octets.ofNat 4 text.length ++ text

/-- Reads a text behind its length. -/
def readText : Reader (Option Octets) := do
  let n ← number 4
  if n = 0 then return none else return some (← take n)

/-- Reads a number of items. -/
def readTimes {α : Type} (item : Reader α) : (count : Nat) → Reader (List α)
  | 0 => return []
  | count + 1 => do
    let a ← item
    return a :: (← readTimes item count)

/-- Reads a number of items of one length, for all of which there have to be octets. -/
def readEntries {α : Type} (length : Nat) (item : Reader α) (count : Nat) : Reader (List α) := do
  if (← get).length < count * length then throw .shortInput
  readTimes item count

end ResourcePki.Transfer

/-!
Decimal numbers in text. Writing uses the fewest digits or pads to a width with zeros. Reading goes
digit by digit and stops at the first problem: a character that is no digit, or a value above the
given largest one.
-/

namespace ResourcePki.Decimal

/-- Why a text is not a number in range. -/
inductive Fault where
  /-- There are no characters. -/
  | empty
  /-- A character is not a digit where one has to stand. -/
  | invalidDigit
  /-- The value is above the largest one allowed. -/
  | overflow
  deriving DecidableEq, Repr

/-- The wording of a fault. -/
def Fault.message : Fault → String
  | .empty => "cannot parse integer from empty string"
  | .invalidDigit => "invalid digit found in string"
  | .overflow => "number too large to fit in target type"

/-- The value of a decimal digit. -/
def digit? (c : Char) : Option Nat :=
  if '0' ≤ c ∧ c ≤ '9' then some (c.toNat - '0'.toNat) else none

/-- Whether a character is a decimal digit. -/
def isDigit (c : Char) : Bool :=
  (digit? c).isSome

/-- The fewest digits of a number. -/
def digits (n : Nat) : List Char :=
  Nat.toDigits 10 n

/-- The digits of a number with zeros in front up to the given count. -/
def padded (width n : Nat) : List Char :=
  let ds := digits n
  List.replicate (width - ds.length) '0' ++ ds

/-- Reads further digits of a number of which `n` has been read. -/
def readOn (largest : Nat) (n : Nat) : List Char → Except Fault Nat
  | [] => .ok n
  | c :: cs =>
    match digit? c with
    | none => .error .invalidDigit
    | some d =>
      let m := n * 10 + d
      if m ≤ largest then readOn largest m cs else .error .overflow

/-- Reads an optional plus sign and at least one digit. -/
def read (largest : Nat) : List Char → Except Fault Nat
  | [] => .error .empty
  | ['+'] => .error .invalidDigit
  | '+' :: cs => readOn largest 0 cs
  | cs => readOn largest 0 cs

/-- The text of a number. -/
def text (n : Nat) : String :=
  String.ofList (digits n)

end ResourcePki.Decimal

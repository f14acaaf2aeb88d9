import ResourcePki.JsonValue
import ResourcePki.Text.Decimal
import ResourcePki.Text.Hex

/-!
Reading JSON text.

The grammar is that of RFC 8259. Nothing but blanks may follow the value. Escaped characters are
first read one by one into numbers, in which pairs of surrogates are then put together, so a half of
such a pair that stands alone is found without looking ahead.

The recursion is on a number that bounds the depth and the count of values together; every value has
at least one character, so the length of the text is enough of it.
-/

namespace ResourcePki.JsonValue

/-- Whether a character may stand between tokens. -/
def isBlank (c : Char) : Bool :=
  c == ' ' || c == '\n' || c == '\t' || c == '\r'

/-- The text behind leading blanks. -/
def skipBlanks (cs : List Char) : List Char :=
  cs.dropWhile isBlank

/-- Reads a fixed text. -/
def literal? (expected : List Char) (cs : List Char) : Option (List Char) :=
  if cs.take expected.length = expected then some (cs.drop expected.length) else none

/-- Reads all digits that follow, of which there has to be one. -/
def digits? (cs : List Char) : Option (List Char × List Char) :=
  let ds := cs.takeWhile Decimal.isDigit
  if ds = [] then none else some (ds, cs.drop ds.length)

/-- Reads the whole part of a number, which has no zero in front of other digits. -/
def wholePart? : List Char → Option (List Char × List Char)
  | '0' :: rest => some (['0'], rest)
  | cs => digits? cs

/-- Reads the part of a number behind the point, if there is a point. -/
def fractionPart? : List Char → Option (List Char × List Char)
  | '.' :: rest => (digits? rest).map fun (ds, rest) => ('.' :: ds, rest)
  | cs => some ([], cs)

/-- Reads the digits of an exponent behind an optional sign. -/
def signedDigits? : List Char → Option (List Char × List Char)
  | '+' :: rest => (digits? rest).map fun (ds, rest) => ('+' :: ds, rest)
  | '-' :: rest => (digits? rest).map fun (ds, rest) => ('-' :: ds, rest)
  | cs => digits? cs

/-- Reads the exponent of a number, if there is one. -/
def exponentPart? : List Char → Option (List Char × List Char)
  | 'e' :: rest => (signedDigits? rest).map fun (ds, rest) => ('e' :: ds, rest)
  | 'E' :: rest => (signedDigits? rest).map fun (ds, rest) => ('E' :: ds, rest)
  | cs => some ([], cs)

/-- Reads a number without its sign. -/
def magnitude? (cs : List Char) : Option (List Char × List Char) := do
  let (whole, cs) ← wholePart? cs
  let (fraction, cs) ← fractionPart? cs
  let (exponent, cs) ← exponentPart? cs
  return (whole ++ fraction ++ exponent, cs)

/-- Reads a number. -/
def number? : List Char → Option (List Char × List Char)
  | '-' :: rest => (magnitude? rest).map fun (text, rest) => ('-' :: text, rest)
  | cs => magnitude? cs

/-- The character that an escape of one letter stands for. -/
def escape? : Char → Option Char
  | '"' => some '"'
  | '\\' => some '\\'
  | '/' => some '/'
  | 'b' => some '\x08'
  | 'f' => some '\x0c'
  | 'n' => some '\n'
  | 'r' => some '\r'
  | 't' => some '\t'
  | _ => none

/-- The number that four hexadecimal digits spell. -/
def hex4? (a b c d : Char) : Option Nat := do
  return (((← Hex.value? a) * 16 + (← Hex.value? b)) * 16 + (← Hex.value? c)) * 16
    + (← Hex.value? d)

/-- Reads the numbers of the characters of a text up to its closing quote, an escape of four digits
as the number that they spell. -/
def units? : List Char → Option (List Nat × List Char)
  | [] => none
  | '"' :: rest => some ([], rest)
  | '\\' :: 'u' :: a :: b :: c :: d :: rest => do
    let n ← hex4? a b c d
    let (us, rest) ← units? rest
    return (n :: us, rest)
  | '\\' :: c :: rest => do
    let c ← escape? c
    let (us, rest) ← units? rest
    return (c.toNat :: us, rest)
  | c :: rest => do
    if c.toNat < 0x20 ∨ c = '\\' then none
    else
      let (us, rest) ← units? rest
      return (c.toNat :: us, rest)

/-- Whether a number is the first half of a surrogate pair. -/
def isHighSurrogate (n : Nat) : Bool :=
  0xd800 ≤ n && n < 0xdc00

/-- Whether a number is the second half of a surrogate pair. -/
def isLowSurrogate (n : Nat) : Bool :=
  0xdc00 ≤ n && n < 0xe000

/-- The characters with the given numbers, where both halves of a surrogate pair make one; there are
none if a half stands alone. -/
def ofUnits? : List Nat → Option (List Char)
  | [] => some []
  | [u] => if isHighSurrogate u || isLowSurrogate u then none else some [Char.ofNat u]
  | u :: v :: us =>
    if isHighSurrogate u then
      if isLowSurrogate v then
        (ofUnits? us).map (Char.ofNat (0x10000 + (u - 0xd800) * 0x400 + (v - 0xdc00)) :: ·)
      else none
    else if isLowSurrogate u then none
    else (ofUnits? (v :: us)).map (Char.ofNat u :: ·)

/-- Reads a text behind its opening quote. -/
def quoted? (cs : List Char) : Option (Option String × List Char) := do
  let (us, rest) ← units? cs
  return ((ofUnits? us).map String.ofList, rest)

mutual

/-- Reads a value behind blanks. -/
def value? : (fuel : Nat) → List Char → Option (JsonValue × List Char)
  | 0, _ => none
  | fuel + 1, cs =>
    match skipBlanks cs with
    | 'n' :: rest => (literal? ['u', 'l', 'l'] rest).map (.null, ·)
    | 't' :: rest => (literal? ['r', 'u', 'e'] rest).map (.bool true, ·)
    | 'f' :: rest => (literal? ['a', 'l', 's', 'e'] rest).map (.bool false, ·)
    | '"' :: rest => (quoted? rest).map fun (s, rest) => (.string s, rest)
    | '[' :: rest =>
      match skipBlanks rest with
      | ']' :: rest => some (.array [], rest)
      | rest => (items? fuel rest).map fun (vs, rest) => (.array vs, rest)
    | '{' :: rest =>
      match skipBlanks rest with
      | '}' :: rest => some (.object [], rest)
      | rest => (members? fuel rest).map fun (ms, rest) => (.object ms, rest)
    | cs => (number? cs).map fun (text, rest) => (.number text, rest)

/-- Reads at least one item and the end of an array. -/
def items? : (fuel : Nat) → List Char → Option (List JsonValue × List Char)
  | 0, _ => none
  | fuel + 1, cs =>
    match value? fuel cs with
    | none => none
    | some (v, rest) =>
      match skipBlanks rest with
      | ']' :: rest => some ([v], rest)
      | ',' :: rest => (items? fuel rest).map fun (vs, rest) => (v :: vs, rest)
      | _ => none

/-- Reads at least one member and the end of an object. -/
def members? : (fuel : Nat) → List Char → Option (List (Option String × JsonValue) × List Char)
  | 0, _ => none
  | fuel + 1, cs =>
    match skipBlanks cs with
    | '"' :: rest =>
      match quoted? rest with
      | none => none
      | some (key, rest) =>
        match skipBlanks rest with
        | ':' :: rest =>
          match value? fuel rest with
          | none => none
          | some (v, rest) =>
            match skipBlanks rest with
            | '}' :: rest => some ([(key, v)], rest)
            | ',' :: rest => (members? fuel rest).map fun (ms, rest) => ((key, v) :: ms, rest)
            | _ => none
        | _ => none
    | _ => none

end

/-- The value that characters spell. -/
def read? (cs : List Char) : Option JsonValue :=
  match value? (2 * cs.length + 2) cs with
  | some (v, rest) => if skipBlanks rest = [] then some v else none
  | none => none

/-- The value with a text. -/
def parse? (s : String) : Option JsonValue :=
  read? s.toList

end ResourcePki.JsonValue

import ResourcePki.Time

/-!
Moments in the text form of RFC 3339.

Writing shows parts of a second with three, six or nine digits if there are any, and the letter Z
for universal time. Reading is lenient. Blanks may stand around the parts, leading zeros may be
missing, a blank or a small letter may separate date and time of day, and a year may have a sign
and then any number of digits. Parts of a second have any number of digits, of which nine count.
The offset may be given as the letter Z, as UTC, or by hours and minutes after a sign. A sixtieth
second is kept as a leap second.
-/

namespace ResourcePki.Time.Rfc3339

/-- The characters that are blank by the Unicode property. -/
def isBlank (c : Char) : Bool :=
  let n := c.toNat
  (0x9 ≤ n && n ≤ 0xd) || n == 0x20 || n == 0x85 || n == 0xa0 || n == 0x1680
    || (0x2000 ≤ n && n ≤ 0x200a) || n == 0x2028 || n == 0x2029 || n == 0x202f || n == 0x205f
    || n == 0x3000

/-- The text behind leading blanks. -/
def trim (cs : List Char) : List Char :=
  cs.dropWhile isBlank

/-- The value of digits. -/
def valueOf (cs : List Char) : Nat :=
  cs.foldl (fun n c => n * 10 + (Decimal.digit? c).getD 0) 0

/-- Reads at least one and at most `most` digits, behind blanks. -/
def number (most : Nat) (cs : List Char) : Option (Nat × List Char) :=
  let cs := trim cs
  let ds := (cs.take most).takeWhile Decimal.isDigit
  if ds = [] then none else some (valueOf ds, cs.drop ds.length)

/-- Reads all digits that follow, of which there has to be one. -/
def allDigits (cs : List Char) : Option (Nat × List Char) :=
  let ds := cs.takeWhile Decimal.isDigit
  if ds = [] then none else some (valueOf ds, cs.drop ds.length)

/-- Reads a year. -/
def year (cs : List Char) : Option (Int × List Char) :=
  match trim cs with
  | '-' :: rest => (allDigits rest).map fun (n, rest) => (-(n : Int), rest)
  | '+' :: rest => (allDigits rest).map fun (n, rest) => ((n : Int), rest)
  | rest => (number 4 rest).map fun (n, rest) => ((n : Int), rest)

/-- Reads a mark behind blanks. -/
def mark (c : Char) (cs : List Char) : Option (List Char) :=
  match trim cs with
  | d :: rest => if d = c then some rest else none
  | [] => none

/-- Reads what separates a date from a time of day. -/
def separator : List Char → Option (List Char)
  | c :: rest => if c = 'T' ∨ c = 't' ∨ c = ' ' then some rest else none
  | [] => none

/-- Reads parts of a second in billionths; there may be none. -/
def fraction : List Char → Option (Nat × List Char)
  | '.' :: rest => do
    let (_, after) ← allDigits rest
    let ds := (rest.takeWhile Decimal.isDigit).take 9
    return (valueOf (ds ++ List.replicate (9 - ds.length) '0'), after)
  | rest => some (0, rest)

/-- Reads two digits. -/
def twoDigits : List Char → Option (Nat × List Char)
  | a :: b :: rest => do return ((← Decimal.digit? a) * 10 + (← Decimal.digit? b), rest)
  | _ => none

/-- Reads hours and minutes of an offset, in seconds. -/
def offsetSize (cs : List Char) : Option (Nat × List Char) := do
  let (hours, rest) ← twoDigits cs
  let (minutes, rest) ← twoDigits (rest.dropWhile fun c => c == ':' || isBlank c)
  if minutes < 60 then some (hours * 3600 + minutes * 60, rest) else none

/-- Whether a text begins with the letters UTC in any case. -/
def isUtc (cs : List Char) : Bool :=
  (cs.take 3).map Char.toUpper == ['U', 'T', 'C']

/-- Reads an offset in seconds. -/
def offset (cs : List Char) : Option (Int × List Char) :=
  if isUtc cs then some (0, cs.drop 3)
  else
    match cs with
    | [] => none
    | c :: rest =>
      if c = 'Z' ∨ c = 'z' then some (0, rest)
      else if c = '+' then (offsetSize rest).map fun (n, rest) => ((n : Int), rest)
      else if c = '-' ∨ c = '−' then (offsetSize rest).map fun (n, rest) => (-(n : Int), rest)
      else none

/-- Reads a moment. -/
def read? (s : String) : Option Time := do
  let (year, cs) ← year s.toList
  let (month, cs) ← number 2 (← mark '-' cs)
  let (day, cs) ← number 2 (← mark '-' cs)
  let (hour, cs) ← number 2 (← separator cs)
  let (minute, cs) ← number 2 (← mark ':' cs)
  let (second, cs) ← number 2 (← mark ':' cs)
  let (nanos, cs) ← fraction cs
  let (offset, cs) ← offset (trim cs)
  let c : Clock := ⟨year, month, day, hour, minute, min second 59⟩
  if trim cs = [] ∧ c.isValid ∧ second ≤ 60 ∧ offset.natAbs < 86400 then
    let _ ← ofSeconds? c.toSeconds
    ofSecondsAndNanos? (c.toSeconds - offset) (nanos + if second = 60 then 1000000000 else 0)
  else none

/-- The text of parts of a second in three, six or nine digits; none for a whole second. -/
def fractionText (nanos : Nat) : List Char :=
  if nanos = 0 then []
  else if nanos % 1000000 = 0 then '.' :: Decimal.padded 3 (nanos / 1000000)
  else if nanos % 1000 = 0 then '.' :: Decimal.padded 6 (nanos / 1000)
  else '.' :: Decimal.padded 9 nanos

/-- Writes a moment. -/
def write (t : Time) : String :=
  String.ofList (t.secondsText ++ fractionText (t.nanos % 1000000000) ++ ['Z'])

end ResourcePki.Time.Rfc3339

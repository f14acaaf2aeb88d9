import ResourcePki.JsonValue
import ResourcePki.Text.Hex

/-!
The text of JSON values without blanks. In texts the quote, the backslash and control characters are
escaped, the common ones by a letter; everything else stands for itself.
-/

namespace ResourcePki.JsonValue

/-- A character as it stands in a text. -/
def escaped (c : Char) : List Char :=
  match c with
  | '"' => ['\\', '"']
  | '\\' => ['\\', '\\']
  | '\x08' => ['\\', 'b']
  | '\x0c' => ['\\', 'f']
  | '\n' => ['\\', 'n']
  | '\r' => ['\\', 'r']
  | '\t' => ['\\', 't']
  | c =>
    if c.toNat < 0x20 then ['\\', 'u', '0', '0'] ++ Hex.encode .lower [c.toUInt8] else [c]

/-- A text in quotes. -/
def quoted (s : String) : List Char :=
  '"' :: s.toList.flatMap escaped ++ ['"']

mutual

/-- The characters of a value. -/
def print : JsonValue → List Char
  | .null => ['n', 'u', 'l', 'l']
  | .bool true => ['t', 'r', 'u', 'e']
  | .bool false => ['f', 'a', 'l', 's', 'e']
  | .number text => text
  | .string s => quoted (s.getD "")
  | .array items => '[' :: printItems items ++ [']']
  | .object members => '{' :: printMembers members ++ ['}']

/-- The characters of items with commas between them. -/
def printItems : List JsonValue → List Char
  | [] => []
  | [v] => print v
  | v :: vs => print v ++ ',' :: printItems vs

/-- The characters of members with commas between them. -/
def printMembers : List (Option String × JsonValue) → List Char
  | [] => []
  | [(key, v)] => quoted (key.getD "") ++ ':' :: print v
  | (key, v) :: members => quoted (key.getD "") ++ ':' :: print v ++ ',' :: printMembers members

end

/-- The text of a value. -/
def text (v : JsonValue) : String :=
  String.ofList v.print

end ResourcePki.JsonValue

import ResourcePki.Text.Decimal

/-!
JSON values.

A number is kept as its text, so that none is too large, and an object as its members in order, so
that one that occurs twice is noticed. A text that names half of a surrogate pair by an escape is no
string of characters; such a text is kept as `none`, since it does not matter in members that nobody
looks at.
-/

namespace ResourcePki

/-- A JSON value. -/
inductive JsonValue where
  | null
  | bool (b : Bool)
  /-- A number by its text. -/
  | number (text : List Char)
  | string (text : Option String)
  | array (items : List JsonValue)
  | object (members : List (Option String × JsonValue))

namespace JsonValue

/-- A text. -/
def ofText (s : String) : JsonValue :=
  .string (some s)

/-- An object from the names of its members and their values. -/
def ofMembers (members : List (String × JsonValue)) : JsonValue :=
  .object (members.map fun (name, v) => (some name, v))

/-- A whole number that is not negative. -/
def ofNat (n : Nat) : JsonValue :=
  .number (Decimal.digits n)

/-- A value, or null if there is none. -/
def ofOption {α : Type} (write : α → JsonValue) : Option α → JsonValue
  | none => .null
  | some a => write a

/-- A value that may be null. -/
def option? {α : Type} (read : JsonValue → Option α) : JsonValue → Option (Option α)
  | .null => some none
  | v => (read v).map some

/-- A text. -/
def text? : JsonValue → Option String
  | .string s => s
  | _ => none

/-- A truth value. -/
def bool? : JsonValue → Option Bool
  | .bool b => some b
  | _ => none

/-- A whole number that is not negative and at most `largest`. -/
def nat? (largest : Nat) : JsonValue → Option Nat
  | .number text => (Decimal.readOn largest 0 text).toOption
  | _ => none

/-- A list of values. -/
def list? {α : Type} (read : JsonValue → Option α) : JsonValue → Option (List α)
  | .array items => items.mapM read
  | _ => none

/-- The values of the members with a name. -/
def valuesOf (members : List (Option String × JsonValue)) (name : String) : List JsonValue :=
  members.filterMap fun (key, v) => if key = some name then some v else none

/-- The value of the only member with a name, or `none` if there is no such member. -/
def member? (members : List (Option String × JsonValue)) (name : String) :
    Option (Option JsonValue) :=
  match valuesOf members name with
  | [] => some none
  | [v] => some (some v)
  | _ => none

/-- The values of named fields, in the order of the names; `none` stands for a field that is
missing. An object may have other members, but none twice of those with a name. An array holds the
fields in order, of which at least a number have to be there. -/
def fieldsFrom? (least : Nat) (names : List String) :
    JsonValue → Option (List (Option JsonValue))
  | .object members =>
    if members.any (·.1.isNone) then none else names.mapM (member? members)
  | .array items =>
    if least ≤ items.length ∧ items.length ≤ names.length then
      some (items.map some ++ List.replicate (names.length - items.length) none)
    else none
  | _ => none

/-- The values of named fields. An array holds all of them. -/
def fields? (names : List String) : JsonValue → Option (List (Option JsonValue)) :=
  fieldsFrom? names.length names

/-- One of several cases by its name and what it holds. A case that holds nothing is its name alone,
any other one is an object with a single member. -/
def case? : JsonValue → Option (String × Option JsonValue)
  | .string s => s.map (·, none)
  | .object [(key, v)] => key.map (·, some v)
  | _ => none

/-- Whether a case holds nothing. -/
def isBare : Option JsonValue → Bool
  | none => true
  | some .null => true
  | some _ => false

end JsonValue

end ResourcePki

import ResourcePki.Der.Header

/-!
Values that are stepped over.

Such a value has to be well-formed, whatever it means: a value of octets has a definite length and
its content is not looked at, a value made of other values holds well-formed values and nothing
else. Only here a value made of others may have indefinite length; it then ends at two zero octets,
which may not stand anywhere else.

The recursion is on a number that bounds the depth and the count of values together; every value has
at least two octets, so the length of the string is enough of it.
-/

namespace ResourcePki.Der

mutual

/-- What follows the value at the beginning of a string. -/
def skipValue : (fuel : Nat) → Octets → Option Octets
  | 0, _ => none
  | fuel + 1, bs =>
    match readHeader bs with
    | none => none
    | some (⟨tag, false, .definite n⟩, rest) =>
      if tag = Tag.endOfContents then none else (Octets.split? n rest).map (·.2)
    | some (⟨_, false, .indefinite⟩, _) => none
    | some (⟨_, true, .definite n⟩, rest) =>
      match Octets.split? n rest with
      | none => none
      | some (content, after) => (skipValues fuel content).map fun _ => after
    | some (⟨_, true, .indefinite⟩, rest) => skipToEnd fuel rest

/-- Steps over values to the end of a string. -/
def skipValues : (fuel : Nat) → Octets → Option Unit
  | 0, _ => none
  | fuel + 1, bs =>
    if bs = [] then some ()
    else
      match skipValue fuel bs with
      | none => none
      | some rest => skipValues fuel rest

/-- What follows the two zero octets behind some values. -/
def skipToEnd : (fuel : Nat) → Octets → Option Octets
  | 0, _ => none
  | fuel + 1, bs =>
    if bs.take 2 = [0, 0] then some (bs.drop 2)
    else
      match skipValue fuel bs with
      | none => none
      | some rest => skipToEnd fuel rest

end

/-- The value at the beginning of a string and what follows it. -/
def firstValue? (bs : Octets) : Option (Octets × Octets) :=
  (skipValue (bs.length + 2) bs).map fun rest => (bs.take (bs.length - rest.length), rest)

/-- Whether a string consists of well-formed values. -/
def areValues (bs : Octets) : Bool :=
  (skipValues (bs.length + 2) bs).isSome

end ResourcePki.Der

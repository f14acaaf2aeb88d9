import ResourcePki.Der.Skip
import ResourcePki.Error.Decoding

/-!
Reading encoded values from front to back.

What is read is the content of a value, or the data as a whole. The length of a value may announce
more octets than the data holds, so an input keeps how many are missing: a fault in the octets that
are there is found before the end of the data is. The content of a value has to be used up when its
reader is done. The data as a whole has no announced length; what follows the value that is read
from it does not matter.

An optional value is absent if the input is at its end or the next tag is another one. A value with
the right tag in the wrong form is a fault.
-/

namespace ResourcePki.Der

/-- Octets still to be read. -/
structure Input where
  octets : Octets
  /-- How many octets have been announced beyond those that are there; the data as a whole has no
  announced length. -/
  missing : Option Nat
  deriving DecidableEq, Repr

namespace Input

/-- The data as a whole. -/
def whole (bs : Octets) : Input :=
  ⟨bs, none⟩

/-- Whether everything announced has been read. -/
def isDone (s : Input) : Bool :=
  s.octets.isEmpty && s.missing == some 0

/-- The next `n` octets as the content of a value, and the input behind them. The content has to fit
into what has been announced, but may go beyond the end of the data. -/
def split? (s : Input) (n : Nat) : Option (Input × Input) :=
  let content := s.octets.take n
  let short := n - content.length
  match s.missing with
  | none => some (⟨content, some short⟩, ⟨s.octets.drop n, none⟩)
  | some m =>
    if short ≤ m then some (⟨content, some short⟩, ⟨s.octets.drop n, some (m - short)⟩) else none

end Input

/-- Reads something from the beginning of an input. -/
abbrev Reader (α : Type) := StateT Input (Except DecodeError) α

/-- Reads all of an input. -/
def Input.readAll {α : Type} (s : Input) (r : Reader α) : Except DecodeError α :=
  match r s with
  | .error err => .error err
  | .ok (a, rest) => if rest.isDone then .ok a else .error .malformed

/-- The next octet. -/
def octet : Reader UInt8 := fun s =>
  match s.octets with
  | [] => .error .malformed
  | b :: bs => .ok (b, ⟨bs, s.missing⟩)

/-- A value whose header has been read. -/
structure Element where
  tag : Tag
  constructed : Bool
  content : Input
  deriving DecidableEq, Repr

namespace Element

/-- Reads the values that a value is made of, up to the last one. -/
def inside {α : Type} (e : Element) (r : Reader α) : Except DecodeError α :=
  if e.constructed then e.content.readAll r else .error .malformed

/-- The content of a value that is not made of other values. -/
def primitive (e : Element) : Except DecodeError Octets :=
  if !e.constructed && e.content.missing == some 0 then .ok e.content.octets
  else .error .malformed

end Element

/-- The next value, if there is one. -/
def element? : Reader (Option Element) := fun s =>
  if s.isDone then .ok (none, s)
  else
    match readHeader s.octets with
    | none => .error .malformed
    | some (⟨_, _, .indefinite⟩, _) => .error .malformed
    | some (⟨tag, constructed, .definite n⟩, rest) =>
      if tag = Tag.endOfContents then .error .malformed
      else
        match Input.split? ⟨rest, s.missing⟩ n with
        | none => .error .malformed
        | some (content, after) => .ok (some ⟨tag, constructed, content⟩, after)

/-- The next value, if it has the given tag. -/
def elementOf? (tag : Tag) : Reader (Option Element) := fun s =>
  if s.octets.isEmpty then .ok (none, s)
  else
    match readTag s.octets with
    | none => .error .malformed
    | some (found, _, _) => if found = tag then element? s else .ok (none, s)

/-- The next value. -/
def element : Reader Element := do
  match ← element? with
  | some e => return e
  | none => throw .malformed

/-- The next value, which has to have the given tag. -/
def elementOf (tag : Tag) : Reader Element := do
  match ← elementOf? tag with
  | some e => return e
  | none => throw .malformed

/-- Reads what the next value is made of, if it has the given tag. -/
def constructed? {α : Type} (tag : Tag) (r : Reader α) : Reader (Option α) := do
  match ← elementOf? tag with
  | some e => return some (← e.inside r)
  | none => return none

/-- Reads what the next value is made of. -/
def constructed {α : Type} (tag : Tag) (r : Reader α) : Reader α := do
  (← elementOf tag).inside r

/-- Reads what a sequence is made of. -/
def inSequence {α : Type} (r : Reader α) : Reader α :=
  constructed Tag.sequence r

/-- Reads what a sequence is made of, if the next value is one. -/
def inSequence? {α : Type} (r : Reader α) : Reader (Option α) :=
  constructed? Tag.sequence r

/-- Goes on with a state as long as there is something to read, at most `n` times. -/
def repeatUpTo {σ : Type} (step : σ → Reader (Option σ)) : (n : Nat) → σ → Reader σ
  | 0, s => pure s
  | n + 1, s => do
    match ← step s with
    | some s => repeatUpTo step n s
    | none => return s

/-- Goes on with a state as long as there is something to read. Every step takes at least one
octet, so their number bounds the steps. -/
def repeated {σ : Type} (step : σ → Reader (Option σ)) (s : σ) : Reader σ := do
  repeatUpTo step ((← get).octets.length + 1) s

/-- Reads items as long as there are any, at most `n`. -/
def manyUpTo {α : Type} (item : Reader (Option α)) : (n : Nat) → Reader (List α)
  | 0 => return []
  | n + 1 => do
    match ← item with
    | some a => return a :: (← manyUpTo item n)
    | none => return []

/-- Reads items as long as there are any. Every item takes at least one octet, so their number
bounds the items. -/
def many {α : Type} (item : Reader (Option α)) : Reader (List α) := do
  manyUpTo item ((← get).octets.length + 1)

/-- The encoding of the next value, which only has to be well-formed. -/
def captureOne : Reader Octets := fun s =>
  match firstValue? s.octets with
  | none => .error .malformed
  | some (value, rest) => .ok (value, ⟨rest, s.missing⟩)

/-- The encoding of all further values, which only have to be well-formed. -/
def captureAll : Reader Octets := fun s =>
  if s.missing = some 0 ∧ areValues s.octets then .ok (s.octets, ⟨[], s.missing⟩)
  else .error .malformed

/-- Reads from the beginning of data. What follows is ignored. -/
def decode {α : Type} (r : Reader α) (bs : Octets) : Except DecodeError α :=
  match r (Input.whole bs) with
  | .ok (a, _) => .ok a
  | .error e => .error e

end ResourcePki.Der

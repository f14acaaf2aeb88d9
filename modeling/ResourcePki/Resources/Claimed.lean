/-!
The numbers that the entries of one class of resources have claimed so far.

A class is either inherited as a whole or claims ranges of numbers that share none. The ranges are
kept in descending order, so a new range only has to be compared with those above its place and the
first one below it: everything further down ends before that one begins. Claims are changed in
place, so an answer comes with the claims as they are left.
-/

namespace ResourcePki

/-- The numbers from `first` to `last`, both included. -/
structure Span where
  first : Nat
  last : Nat
  deriving DecidableEq, Repr

/-- Why a claim collides with earlier ones. -/
inductive Conflict where
  /-- The class is inherited, or would be although it claims numbers. -/
  | inherit
  /-- A number has been claimed before. -/
  | overlap
  deriving DecidableEq, Repr

/-- The claims of one class. -/
structure Claimed where
  inherited : Bool
  /-- The claimed ranges in descending order. -/
  spans : List Span
  deriving DecidableEq, Repr

namespace Claimed

/-- A class that claims nothing. -/
def empty : Claimed :=
  ⟨false, []⟩

/-- Adds a range to ranges in descending order, unless it shares a number with one of them. -/
def insertSpan (s : Span) : List Span → Option (List Span)
  | [] => some [s]
  | t :: ts =>
    if t.first ≤ s.first then
      if s.first ≤ t.last then none else some (s :: t :: ts)
    else if t.first ≤ s.last then none
    else (insertSpan s ts).map (t :: ·)

/-- Claims a range. -/
def insert (c : Claimed) (s : Span) : Claimed × Except Conflict Unit :=
  if c.inherited then (c, .error .inherit)
  else
    match insertSpan s c.spans with
    | some spans => ({ c with spans }, .ok ())
    | none => (c, .error .overlap)

/-- Inherits the class as a whole, which is possible only once and if it claims nothing. -/
def inherit (c : Claimed) : Claimed × Except Conflict Unit :=
  if c.inherited || !c.spans.isEmpty then (c, .error .inherit)
  else ({ c with inherited := true }, .ok ())

end Claimed

end ResourcePki

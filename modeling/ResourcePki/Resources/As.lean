import ResourcePki.AsNumber
import ResourcePki.Error.Resource
import ResourcePki.Resources.Claimed

/-!
The AS resources of a certificate: entries in the order in which they are given.

An entry inherits the resources from the issuer, or holds a single number or a range of at least
two. The builder takes one entry after the other. It refuses an entry if the limit is reached, if
it or an entry that is held inherits, or if it shares a number with another entry; what it holds is
then as before.
-/

namespace ResourcePki

/-- The numbers from `first` to `last`, both included. -/
structure AsRange where
  first : AsNumber
  last : AsNumber
  deriving DecidableEq, Repr

namespace AsRange

/-- The range between two numbers, of which the first has to be the smaller one. -/
def make (first last : AsNumber) : Except AsResourceError AsRange :=
  if first = last then .error .singular
  else if first.toNat > last.toNat then .error .reversed
  else .ok ⟨first, last⟩

/-- The text of a range. -/
def text (r : AsRange) : String :=
  r.first.text ++ "-" ++ r.last.text

end AsRange

/-- An entry of AS resources. -/
inductive AsEntry where
  /-- The resources are those of the issuer. -/
  | inherit
  /-- A single number. -/
  | single (n : AsNumber)
  /-- A range of numbers. -/
  | range (r : AsRange)
  deriving DecidableEq, Repr

namespace AsEntry

/-- The smallest and the largest number of an entry, unless it inherits. -/
def bounds? : AsEntry → Option (AsNumber × AsNumber)
  | .inherit => none
  | .single n => some (n, n)
  | .range r => some (r.first, r.last)

/-- The text of an entry. -/
def text : AsEntry → String
  | .inherit => "inherit"
  | .single n => n.text
  | .range r => r.text

end AsEntry

/-- The AS resources of a certificate. -/
structure AsResources where
  entries : List AsEntry
  deriving DecidableEq, Repr

namespace AsResources

/-- No resources. -/
def empty : AsResources :=
  ⟨[]⟩

/-- Whether there are no entries. -/
def isEmpty (r : AsResources) : Bool :=
  r.entries.isEmpty

/-- Whether the resources are inherited. -/
def isInherited (r : AsResources) : Bool :=
  r.entries.any (· == .inherit)

/-- The text of the resources. -/
def text (r : AsResources) : String :=
  ", ".intercalate (r.entries.map (·.text))

end AsResources

/-- AS resources in the making. -/
structure AsBuilder where
  limit : Nat
  entries : Array AsEntry
  claimed : Claimed

namespace AsBuilder

/-- A builder without entries. -/
def new (limit : Nat) : AsBuilder :=
  ⟨limit, #[], .empty⟩

/-- Makes the claim of an entry. -/
def claim (c : Claimed) : AsEntry → Claimed × Except Conflict Unit
  | .inherit => c.inherit
  | .single n => c.insert ⟨n.toNat, n.toNat⟩
  | .range r => c.insert ⟨r.first.toNat, r.last.toNat⟩

/-- Adds an entry behind the others. The answer comes with the builder as it is left, with the
claims as that of the entry has left them. -/
def push (b : AsBuilder) (e : AsEntry) : AsBuilder × Except AsResourceError Unit :=
  if b.limit ≤ b.entries.size then (b, .error .tooMany)
  else
    match claim b.claimed e with
    | (c, .ok ()) => ({ b with claimed := c, entries := b.entries.push e }, .ok ())
    | (c, .error .inherit) => ({ b with claimed := c }, .error .inherit)
    | (c, .error .overlap) => ({ b with claimed := c }, .error .overlap)

/-- The resources with the entries of the builder. -/
def finish (b : AsBuilder) : AsResources :=
  ⟨b.entries.toList⟩

end AsBuilder

end ResourcePki

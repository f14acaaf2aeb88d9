import ResourcePki.Address.Block
import ResourcePki.Resources.Claimed

/-!
The IP resources of a certificate: entries for both families in the order in which they are given.

An entry inherits the resources of its family from the issuer or holds a block of addresses. The
builder takes one entry after the other. It refuses an entry if the limit is reached, if it or an
entry that is held inherits the family, or if it shares an address with an entry of the family; what
it holds is then as before.
-/

namespace ResourcePki

/-- An entry of IP resources. -/
inductive IpEntry where
  /-- The resources of the family are those of the issuer. -/
  | inherit (family : Family)
  /-- A block of addresses of the family. -/
  | block (family : Family) (block : AddressBlock)
  deriving DecidableEq, Repr

namespace IpEntry

/-- The family of an entry. -/
def family : IpEntry → Family
  | .inherit f => f
  | .block f _ => f

/-- Whether the entry inherits. -/
def isInherit : IpEntry → Bool
  | .inherit _ => true
  | .block _ _ => false

/-- The block of addresses, unless the entry inherits. -/
def block? : IpEntry → Option AddressBlock
  | .inherit _ => none
  | .block _ b => some b

/-- The text of an entry. -/
def text : IpEntry → String
  | .inherit f => "inherit (" ++ f.name ++ ")"
  | .block f b => b.text f

end IpEntry

/-- The IP resources of a certificate. -/
structure IpResources where
  entries : List IpEntry
  deriving DecidableEq, Repr

namespace IpResources

/-- No resources. -/
def empty : IpResources :=
  ⟨[]⟩

/-- Whether there are no entries. -/
def isEmpty (r : IpResources) : Bool :=
  r.entries.isEmpty

/-- Whether any family is inherited. -/
def hasInherit (r : IpResources) : Bool :=
  r.entries.any (·.isInherit)

/-- Whether a family is inherited. -/
def isInherited (r : IpResources) (family : Family) : Bool :=
  r.entries.any fun e => e.isInherit && e.family == family

/-- The text of the resources. -/
def text (r : IpResources) : String :=
  ", ".intercalate (r.entries.map (·.text))

end IpResources

/-- IP resources in the making. -/
structure IpBuilder where
  limit : Nat
  entries : Array IpEntry
  v4 : Claimed
  v6 : Claimed

namespace IpBuilder

/-- A builder without entries. -/
def new (limit : Nat) : IpBuilder :=
  ⟨limit, #[], .empty, .empty⟩

/-- What the entries of a family claim. -/
def claimed (b : IpBuilder) : Family → Claimed
  | .v4 => b.v4
  | .v6 => b.v6

/-- The builder with other claims of a family. -/
def setClaimed (b : IpBuilder) (family : Family) (c : Claimed) : IpBuilder :=
  match family with
  | .v4 => { b with v4 := c }
  | .v6 => { b with v6 := c }

/-- Makes the claim of an entry. -/
def claim (c : Claimed) : IpEntry → Claimed × Except Conflict Unit
  | .inherit _ => c.inherit
  | .block _ b => c.insert ⟨b.first.value, b.last.value⟩

/-- Adds an entry behind the others. The answer comes with the builder as it is left, with the
claims of the family as that of the entry has left them. -/
def push (b : IpBuilder) (e : IpEntry) : IpBuilder × Except IpResourceError Unit :=
  if b.limit ≤ b.entries.size then (b, .error .tooMany)
  else
    match claim (b.claimed e.family) e with
    | (c, .ok ()) => (setClaimed { b with entries := b.entries.push e } e.family c, .ok ())
    | (c, .error .inherit) => (b.setClaimed e.family c, .error .inherit)
    | (c, .error .overlap) => (b.setClaimed e.family c, .error .overlap)

/-- The resources with the entries of the builder. -/
def finish (b : IpBuilder) : IpResources :=
  ⟨b.entries.toList⟩

end IpBuilder

end ResourcePki

/-!
What a caller can choose when certificates are decoded.

In strict mode two rules are enforced that are often broken in practice: an address family has two
octets, and the subject key identifier of a router is that of its key. The limits bound the number
of resource entries.
-/

namespace ResourcePki

/-- Choices for decoding. -/
structure DecodeOptions where
  strict : Bool := false
  /-- The most entries of IP resources. -/
  maxIp : Nat := 200000
  /-- The most entries of AS resources. -/
  maxAs : Nat := 200000
  deriving DecidableEq, Repr

end ResourcePki

/-!
Why a resource entry cannot be held: it is no valid entry, it collides with another one, or there
are too many of them.
-/

namespace ResourcePki

/-- An entry of IP resources is refused. -/
inductive IpResourceError where
  /-- An address is longer than its family allows or its bit string is badly formed. -/
  | badAddress
  /-- The first address of a range is above the last one. -/
  | reversed
  /-- Inheritance is mixed with addresses of its family or given twice. -/
  | inherit
  /-- Two entries share an address. -/
  | overlap
  /-- There are more entries than allowed. -/
  | tooMany
  deriving DecidableEq, Repr

/-- The wording of the refusal. -/
def IpResourceError.message : IpResourceError → String
  | .badAddress => "RFC 3779 section 2.2.3.8: IPAddress: invalid IP address"
  | .reversed => "RFC 3779 section 2.2.3.9: IPAddressRange: IP address range reversed"
  | .inherit =>
    "RFC 3779 section 2.2.3.5: IPAddressChoice: cannot have multiple inheritance or inheritance "
      ++ "and addresses of the same class"
  | .overlap => "RFC 3779 section 2.2.3.6: IPAddressOrRange: overlapping IP address range"
  | .tooMany => "too many IP address entries"

/-- An entry of AS resources is refused. -/
inductive AsResourceError where
  /-- Both ends of a range are the same number. -/
  | singular
  /-- The first number of a range is above the last one. -/
  | reversed
  /-- Inheritance is mixed with numbers or given twice. -/
  | inherit
  /-- Two entries share a number. -/
  | overlap
  /-- There are more entries than allowed. -/
  | tooMany
  deriving DecidableEq, Repr

/-- The wording of the refusal. -/
def AsResourceError.message : AsResourceError → String
  | .singular => "RFC 3779 section 3.2.3.8: ASRange: range is singular"
  | .reversed => "RFC 3779 section 3.2.3.8: ASRange: range is out of order"
  | .inherit =>
    "RFC 3779 section 3.2.3.3: ASIdentifierChoice: cannot have inheritance and multiple ASnum or "
      ++ "multiple inheritance"
  | .overlap => "RFC 3779 section 3.2.3.4: ASIdOrRange: overlapping AS identifiers"
  | .tooMany => "too many AS identifier entries"

end ResourcePki

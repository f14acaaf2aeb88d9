import ResourcePki.Certificate.Purpose
import ResourcePki.Repository
import ResourcePki.Resources.As
import ResourcePki.Resources.Ip

/-!
What is kept of an accepted certificate.

A record stands for a certificate wherever its signature has been or will be checked by somebody
else. It holds what the certificate is for, its resources, the names of its own key and that of its
issuer, where the issuer publishes, when it expires, and the number of the trust anchor that it was
found under. The decoded certificate stays with the record only until it is dropped or the record is
sent elsewhere.
-/

namespace ResourcePki

/-- What a certificate is for and what it holds to that end. -/
inductive Role where
  /-- A CA publishes at a repository. -/
  | ca (repository : Repository)
  /-- A router signs with a key. -/
  | router (key : PublicKey)
  deriving DecidableEq

namespace Role

/-- What the certificate is for. -/
def purpose : Role → Purpose
  | .ca _ => .ca
  | .router _ => .router

/-- The repository of a CA. -/
def repository? : Role → Option Repository
  | .ca repository => some repository
  | .router _ => none

/-- The key of a router. -/
def routerKey? : Role → Option PublicKey
  | .ca _ => none
  | .router key => some key

end Role

/-- What is kept of an accepted certificate. -/
structure Record where
  role : Role
  ipResources : IpResources
  asResources : AsResources
  subjectKey : KeyIdentifier
  authorityKey : Option KeyIdentifier
  /-- Where the certificate of the issuer is. -/
  caIssuer : Option RsyncUri
  /-- Where the revocation list of the issuer is. -/
  crlUri : Option RsyncUri
  expires : Time
  /-- The number of the trust anchor that the certificate was found under. -/
  anchorNumber : UInt32
  /-- The decoded certificate, if it is still at hand. -/
  certificate : Option Certificate
  deriving DecidableEq

namespace Record

/-- The record under the trust anchor with a number. -/
def underAnchor (r : Record) (number : UInt32) : Record :=
  { r with anchorNumber := number }

/-- The record without the decoded certificate. -/
def withoutCertificate (r : Record) : Record :=
  { r with certificate := none }

end Record

end ResourcePki

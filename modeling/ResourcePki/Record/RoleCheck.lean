import ResourcePki.Record

/-!
The rules that depend on where a certificate stands in the tree.

A certificate that a CA has issued has to name the key of its issuer, which is not its own, and say
where the certificate and the revocation list of the issuer are. A trust anchor has the key that its
locator gives, is valid at the time, names no issuer but itself, and is a CA with resources of its
own. No record can pass both.
-/

namespace ResourcePki.Record

/-- Checks what an issued certificate says of its issuer. -/
def checkIssued (r : Record) : Except InspectionError Unit :=
  match r.authorityKey with
  | none => .error .issuedWithoutAki
  | some key =>
    if key = r.subjectKey then .error .issuedBySelf
    else if r.caIssuer.isNone then .error .issuedWithoutAia
    else if r.crlUri.isNone then .error .issuedWithoutCrl
    else .ok ()

/-- The record, if it is fit to have been issued by a CA. -/
def asIssued (r : Record) : Except ValidationError Record := do
  r.checkIssued
  return r

/-- Checks that the certificate has the encoded key of a trust anchor and is valid at a moment. -/
def verifyAnchor (r : Record) (key : Octets) (now : Time) : Except VerificationError Unit :=
  match PublicKey.ofDer key, r.certificate with
  | .error _, _ => .error .anchorKey
  | .ok _, none => .error .certificateMissing
  | .ok key, some c =>
    if !c.publicKey.isSameKey key then .error .keyMismatch
    else (c.validity.check now).mapError .period

/-- Checks what a trust anchor says of its issuer, its role and its resources. -/
def inspectAnchor (r : Record) : Except InspectionError Unit :=
  if r.authorityKey.any (· ≠ r.subjectKey) then .error .anchorAki
  else if r.caIssuer.isSome then .error .anchorAia
  else if r.crlUri.isSome then .error .anchorCrl
  else if r.role.purpose = .router then .error .anchorRouter
  else if r.ipResources.hasInherit || r.asResources.isInherited then .error .anchorInherit
  else .ok ()

/-- The record, if it is fit to be the trust anchor with an encoded key at a moment. -/
def asAnchor (r : Record) (key : Octets) (now : Time) : Except ValidationError Record := do
  (r.verifyAnchor key now).mapError .verification
  r.inspectAnchor
  return r

end ResourcePki.Record

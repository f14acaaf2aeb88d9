import ResourcePki.Certificate
import ResourcePki.Uri.Rsync

/-!
The standard extensions of a certificate that name keys and places. None of them may be critical,
and none needs to be there.

The key of the issuer is given by its identifier alone. The certificate of the issuer is one rsync
URI. The revocation list is at one distribution point, of which the first rsync URI counts and other
URIs are passed over.
-/

namespace ResourcePki.Certificate

open Der

/-- Reads a location that has to be an rsync URI. -/
def readRsyncName : Reader RsyncUri := do
  let e ← elementOf (Tag.context 6)
  match RsyncUri.ofOctets (← e.ia5String) with
  | .ok u => return u
  | .error _ => throw .rsyncUri

/-- Reads a location, if the next value is one. -/
def readName? : Reader (Option Octets) := do
  match ← elementOf? (Tag.context 6) with
  | some e => return some (← e.ia5String)
  | none => return none

/-- The first of some locations that is an rsync URI. -/
def firstRsync? (names : List Octets) : Option RsyncUri :=
  names.findSome? fun bs => (RsyncUri.ofOctets bs).toOption

/-- Reads the names of a distribution point. -/
def readCrlNames : Reader RsyncUri := do
  match firstRsync? (← many readName?) with
  | some u => return u
  | none => throw .crlUri

/-- Reads a list of one distribution point with names only. -/
def readCrlUri : Reader RsyncUri :=
  inSequence (inSequence (constructed (Tag.context 0) (constructed (Tag.context 0) readCrlNames)))

/-- Reads an identifier as the only part of a sequence. -/
def readAuthorityKey : Reader KeyIdentifier :=
  inSequence do KeyIdentifier.ofElement (← elementOf (Tag.context 0))

/-- Reads a list of one access description, which has to be that of the issuer. -/
def readCaIssuer : Reader RsyncUri :=
  inSequence (inSequence do
    if (← (← elementOf Tag.objectId).primitive) ≠ ObjectId.caIssuers.octets then throw .malformed
    readRsyncName)

/-- The value of an extension that may not be critical, if the certificate has it. -/
def optionalField {α : Type} (c : Certificate) (id : ObjectId) (err : InspectionError)
    (r : Reader α) : Except ValidationError (Option α) :=
  match c.extension? id with
  | none => return none
  | some e => do
    e.requireNonCritical err
    return some (← e.decodeValue r)

/-- The subject key identifier. -/
def subjectKeyIdentifier? (c : Certificate) : Except ValidationError (Option KeyIdentifier) :=
  c.optionalField ObjectId.subjectKeyIdentifier .skiCritical KeyIdentifier.read

/-- The authority key identifier. -/
def authorityKeyIdentifier? (c : Certificate) : Except ValidationError (Option KeyIdentifier) :=
  c.optionalField ObjectId.authorityKeyIdentifier .akiCritical readAuthorityKey

/-- Where the certificate of the issuer is. -/
def caIssuer? (c : Certificate) : Except ValidationError (Option RsyncUri) :=
  c.optionalField ObjectId.authorityInfoAccess .aiaCritical readCaIssuer

/-- Where the revocation list of the issuer is. -/
def crlUri? (c : Certificate) : Except ValidationError (Option RsyncUri) :=
  c.optionalField ObjectId.crlDistributionPoints .crlCritical readCrlUri

end ResourcePki.Certificate

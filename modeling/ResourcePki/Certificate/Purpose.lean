import ResourcePki.Certificate

/-!
What a certificate is for.

It is the certificate of a CA if it is marked as such and the use of its key, where one is given,
includes signing certificates. Otherwise it has to name exactly one purpose, that of a router.
-/

namespace ResourcePki

open Der

/-- What a certificate is for. -/
inductive Purpose where
  | ca
  | router
  deriving DecidableEq, Repr

/-- The name of a purpose. -/
def Purpose.name : Purpose → String
  | .ca => "CA"
  | .router => "BGPsec router"

namespace Certificate

/-- Reads the mark of a CA, which is missing if it does not hold. -/
def readCaMark : Reader Bool :=
  inSequence do
    let mark ← boolean?
    let _ ← captureAll
    return mark.getD false

/-- Whether the certificate is marked as that of a CA and its key may sign certificates. -/
def isCa (c : Certificate) : Except DecodeError Bool := do
  let marked ←
    match c.extension? ObjectId.basicConstraints with
    | some e => e.decodeValue readCaMark
    | none => pure false
  if !marked then return false
  match c.extension? ObjectId.keyUsage with
  | some e => return (← e.decodeValue bitString).bit 5
  | none => return true

/-- Reads a list of purposes. -/
def readPurposes : Reader (List ObjectId) :=
  inSequence (many objectId?)

/-- What the certificate is for. -/
def purpose (c : Certificate) : Except ValidationError Purpose := do
  if ← c.isCa then return .ca
  match c.extension? ObjectId.extendedKeyUsage with
  | none => throw (.inspection .purposeMissing)
  | some e =>
    e.requireNonCritical .purposeCritical
    match ← e.decodeValue readPurposes with
    | [id] =>
      if id = ObjectId.routerPurpose then return .router
      else throw (.inspection .purposeUnknown)
    | _ => throw (.inspection .purposeCount)

/-- The key of a router. -/
def routerKey (c : Certificate) : Except InspectionError PublicKey :=
  if c.publicKey.isRouterKey then .ok c.publicKey else .error .routerKey

end Certificate

end ResourcePki

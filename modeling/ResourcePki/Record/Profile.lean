import ResourcePki.Certificate.Fields
import ResourcePki.Policy
import ResourcePki.Record
import ResourcePki.Resources.Extension

/-!
The rules of the resource certificate profile that hold for every certificate, wherever it stands in
the tree.

The extensions are looked at in the order in which they stand, then the fields in a fixed order, and
the first broken rule decides. Extensions of other kinds do not matter. A CA has to publish and to
hold resources; a router has a key of one kind and neither publishes nor holds addresses. In strict
mode the key of a router is also what its subject key identifier names.
-/

namespace ResourcePki

/-- What the extensions with resources and places amount to. -/
structure Findings where
  ipResources : IpResources
  asResources : AsResources
  repository : Option Repository
  deriving DecidableEq

namespace Findings

/-- Nothing has been found. -/
def empty : Findings :=
  ⟨.empty, .empty, none⟩

/-- Adds what an extension holds. A policy only has to be the right one. -/
def add (options : DecodeOptions) (f : Findings) (e : Extension) :
    Except ValidationError Findings := do
  if e.id = ObjectId.ipAddressBlocks then
    return { f with ipResources := ← IpResources.ofExtension options e }
  else if e.id = ObjectId.autonomousSystemIds then
    return { f with asResources := ← AsResources.ofExtension options e }
  else if e.id = ObjectId.subjectInfoAccess then
    return { f with repository := some (← Repository.ofExtension e) }
  else if e.id = ObjectId.certificatePolicies then
    let _ ← Policy.ofExtension e
    return f
  else return f

/-- What a list of extensions holds. -/
def ofExtensions (options : DecodeOptions) (es : List Extension) :
    Except ValidationError Findings :=
  es.foldlM (add options) empty

/-- The role of a CA, which has to publish and to hold resources. -/
def caRole (f : Findings) : Except InspectionError Role :=
  match f.repository with
  | none => .error .siaMissing
  | some repository =>
    if f.ipResources.isEmpty && f.asResources.isEmpty then .error .noResources
    else .ok (.ca repository)

/-- The role of a router, which neither publishes nor holds addresses. -/
def routerRole (f : Findings) (key : PublicKey) : Except InspectionError Role :=
  if !f.ipResources.isEmpty then .error .routerIpResources
  else if f.repository.isSome then .error .routerSia
  else .ok (.router key)

end Findings

namespace Record

/-- The role that a certificate claims and is fit for. -/
def roleOf (c : Certificate) (f : Findings) : Except ValidationError Role := do
  match ← c.purpose with
  | .ca => f.caRole
  | .router => f.routerRole (← c.routerKey)

/-- Insists, in strict mode, that a router is named by its key. -/
def checkRouterName (options : DecodeOptions) (role : Role) (ski : KeyIdentifier) :
    Except InspectionError Unit :=
  match role with
  | .ca _ => .ok ()
  | .router key => if options.strict ∧ key.identifier ≠ ski then .error .routerSki else .ok ()

/-- The record of a decoded certificate that keeps the rules. -/
def ofCertificate (options : DecodeOptions) (c : Certificate) : Except ValidationError Record := do
  let found ← Findings.ofExtensions options c.extensions
  let authorityKey ← c.authorityKeyIdentifier?
  let subjectKey? ← c.subjectKeyIdentifier?
  let caIssuer ← c.caIssuer?
  let crlUri ← c.crlUri?
  let role ← roleOf c found
  match subjectKey? with
  | none => throw (.inspection .skiMissing)
  | some subjectKey =>
    checkRouterName options role subjectKey
    return { role, ipResources := found.ipResources, asResources := found.asResources, subjectKey,
             authorityKey, caIssuer, crlUri, expires := c.validity.notAfter, anchorNumber := 0,
             certificate := some c }

/-- The record of the certificate at the beginning of data. -/
def ofDer (options : DecodeOptions) (bs : Octets) : Except ValidationError Record := do
  ofCertificate options (← Certificate.ofDer bs)

end Record

end ResourcePki

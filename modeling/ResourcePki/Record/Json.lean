import ResourcePki.JsonValue.Parser
import ResourcePki.JsonValue.Printer
import ResourcePki.Record
import ResourcePki.Resources.Json
import ResourcePki.Time.Rfc3339

/-!
Records in JSON.

Identifiers, keys and URIs are texts that are read by their usual rules, and times are in the form
of RFC 3339. Nothing is checked of how the parts fit together. The decoded certificate is not
written.
-/

namespace ResourcePki

namespace KeyIdentifier

/-- The identifier as a value. -/
def toJson (k : KeyIdentifier) : JsonValue :=
  .ofText k.text

/-- The identifier that a value holds. -/
def ofJson? (v : JsonValue) : Option KeyIdentifier := do
  ofText? (← v.text?)

end KeyIdentifier

namespace PublicKey

/-- The key as a value. -/
def toJson (k : PublicKey) : JsonValue :=
  .ofText k.base64

/-- The key that a value holds. -/
def ofJson? (v : JsonValue) : Option PublicKey := do
  ofBase64? (← v.text?)

end PublicKey

namespace RsyncUri

/-- The URI as a value. -/
def toJson (u : RsyncUri) : JsonValue :=
  .ofText u.text

/-- The URI that a value holds. -/
def ofJson? (v : JsonValue) : Option RsyncUri := do
  (ofText (← v.text?)).toOption

end RsyncUri

namespace HttpsUri

/-- The URI as a value. -/
def toJson (u : HttpsUri) : JsonValue :=
  .ofText u.text

/-- The URI that a value holds. -/
def ofJson? (v : JsonValue) : Option HttpsUri := do
  (ofText (← v.text?)).toOption

end HttpsUri

namespace Time

/-- The moment as a value. -/
def toJson (t : Time) : JsonValue :=
  .ofText (Rfc3339.write t)

/-- The moment that a value holds. -/
def ofJson? (v : JsonValue) : Option Time := do
  Rfc3339.read? (← v.text?)

end Time

/-- The value of a field that may be null or missing. -/
def JsonValue.optionalField? {α : Type} (read : JsonValue → Option α) (field : Option JsonValue) :
    Option (Option α) :=
  (field.getD .null).option? read

namespace Repository

/-- The repository as a value. -/
def toJson (r : Repository) : JsonValue :=
  .ofMembers [("ca_repository", r.base.toJson), ("rpki_manifest", r.manifest.toJson),
    ("rpki_notify", .ofOption HttpsUri.toJson r.notification)]

/-- The repository that a value holds. -/
def ofJson? (v : JsonValue) : Option Repository := do
  let [some base, some manifest, notification] ←
    v.fields? ["ca_repository", "rpki_manifest", "rpki_notify"] | none
  return { base := ← RsyncUri.ofJson? base
           manifest := ← RsyncUri.ofJson? manifest
           notification := ← JsonValue.optionalField? HttpsUri.ofJson? notification }

end Repository

namespace Role

/-- The role as a value. -/
def toJson : Role → JsonValue
  | .ca repository => .ofMembers [("Ca", repository.toJson)]
  | .router key => .ofMembers [("BgpsecRouter", key.toJson)]

/-- The role that a value holds. -/
def ofJson? (v : JsonValue) : Option Role :=
  match v.case? with
  | some ("Ca", some repository) => (Repository.ofJson? repository).map .ca
  | some ("BgpsecRouter", some key) => (PublicKey.ofJson? key).map .router
  | _ => none

end Role

namespace Record

/-- The names of the fields of a record. -/
def fieldNames : List String :=
  ["kind", "ip_resources", "as_resources", "subject_key_identifier", "authority_key_identifier",
    "ca_issuer", "crl_uri", "expires", "tal_id"]

/-- The record as a value. -/
def toJson (r : Record) : JsonValue :=
  .ofMembers (fieldNames.zip
    [r.role.toJson, r.ipResources.toJson, r.asResources.toJson, r.subjectKey.toJson,
      .ofOption KeyIdentifier.toJson r.authorityKey, .ofOption RsyncUri.toJson r.caIssuer,
      .ofOption RsyncUri.toJson r.crlUri, r.expires.toJson, .ofNat r.anchorNumber.toNat])

/-- The record that a value holds. -/
def ofJson? (v : JsonValue) : Option Record := do
  let [some role, some ipResources, some asResources, some subjectKey, authorityKey, caIssuer,
    crlUri, some expires, some anchorNumber] ← v.fields? fieldNames | none
  return { role := ← Role.ofJson? role
           ipResources := ← IpResources.ofJson? ipResources
           asResources := ← AsResources.ofJson? asResources
           subjectKey := ← KeyIdentifier.ofJson? subjectKey
           authorityKey := ← JsonValue.optionalField? KeyIdentifier.ofJson? authorityKey
           caIssuer := ← JsonValue.optionalField? RsyncUri.ofJson? caIssuer
           crlUri := ← JsonValue.optionalField? RsyncUri.ofJson? crlUri
           expires := ← Time.ofJson? expires
           anchorNumber := UInt32.ofNat (← anchorNumber.nat? (0xffffffff))
           certificate := none }

/-- The text of a record in JSON. -/
def jsonText (r : Record) : String :=
  r.toJson.text

/-- The record that a text holds. -/
def ofJsonText? (s : String) : Option Record := do
  ofJson? (← JsonValue.parse? s)

end Record

end ResourcePki

import ResourcePki.Certificate.Extension
import ResourcePki.Uri.Https
import ResourcePki.Uri.Rsync

/-!
Where a CA publishes: its repository, its manifest there, and possibly a notification file.

The extension that names the places is a list of access methods, each with a location. Every
location with a known method has to be a URI of the right scheme, and the first one with a method
counts. Other methods are stepped over. The URI of the manifest has to begin with that of the
repository.
-/

namespace ResourcePki

open Der

/-- The places that the extension on subject information access names. -/
structure AccessLocations where
  repository : Option RsyncUri
  manifest : Option RsyncUri
  notification : Option HttpsUri
  deriving DecidableEq

namespace AccessLocations

/-- No places. -/
def empty : AccessLocations :=
  ⟨none, none, none⟩

/-- Reads a location that has to be a URI of a kind. -/
def readLocation {α : Type} (ofOctets : Octets → Except UriError α) (err : DecodeError) :
    Reader α := do
  let e ← element
  if e.tag ≠ Tag.context 6 then throw err
  match ofOctets (← e.ia5String) with
  | .ok u => return u
  | .error _ => throw err

/-- Reads an access description and adds it to those before it. -/
def readDescription (before : AccessLocations) : Reader AccessLocations := do
  let method ← objectId
  if method = ObjectId.caRepository then
    let u ← readLocation RsyncUri.ofOctets .repositoryUri
    return { before with repository := before.repository.or (some u) }
  else if method = ObjectId.manifest then
    let u ← readLocation RsyncUri.ofOctets .manifestUri
    return { before with manifest := before.manifest.or (some u) }
  else if method = ObjectId.notification then
    let u ← readLocation HttpsUri.ofOctets .notifyUri
    return { before with notification := before.notification.or (some u) }
  else
    let _ ← captureAll
    return before

/-- Reads a list of access descriptions. -/
def read : Reader AccessLocations :=
  inSequence (repeated (fun before => inSequence? (readDescription before)) empty)

end AccessLocations

/-- Where a CA publishes. -/
structure Repository where
  base : RsyncUri
  manifest : RsyncUri
  notification : Option HttpsUri
  deriving DecidableEq

namespace Repository

/-- The repository with the given places, if they belong together. -/
def make (base manifest : RsyncUri) (notification : Option HttpsUri) :
    Except InspectionError Repository :=
  if !manifest.startsWith base then .error .siaConflict
  else if manifest.fileType? ≠ some .mft then .error .siaNotManifest
  else .ok ⟨base, manifest, notification⟩

/-- The repository with the places of an extension, of which two are needed. -/
def ofLocations (l : AccessLocations) : Except InspectionError Repository :=
  match l.repository, l.manifest with
  | some base, some manifest => make base manifest l.notification
  | _, _ => .error .siaIncomplete

/-- The repository that an extension names. -/
def ofExtension (e : Extension) : Except ValidationError Repository := do
  e.requireNonCritical .siaCritical
  ofLocations (← e.decodeValue AccessLocations.read)

end Repository

end ResourcePki

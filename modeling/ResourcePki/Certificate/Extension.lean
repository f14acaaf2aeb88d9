import ResourcePki.Der.Primitive
import ResourcePki.Der.Writer
import ResourcePki.Error.Validation

/-!
Extensions of certificates: an identifier, whether the extension has to be understood, and a value
that is itself encoded. A list of extensions never holds two of the same kind.
-/

namespace ResourcePki

open Der

/-- An extension of a certificate. -/
structure Extension where
  id : ObjectId
  critical : Bool
  value : Octets
  deriving DecidableEq, Repr

namespace Extension

/-- Reads the parts of an extension. -/
def readParts : Reader Extension := do
  let id ← objectId
  let critical ← boolean?
  return ⟨id, critical.getD false, ← octetString⟩

/-- Reads an extension and adds it to those before it, if there is one. -/
def readNext (before : List Extension) : Reader (Option (List Extension)) := do
  match ← inSequence? readParts with
  | none => return none
  | some e => if before.any (·.id == e.id) then throw .duplicateExtension else return before ++ [e]

/-- Reads a list of extensions. -/
def readList : Reader (List Extension) :=
  inSequence (repeated readNext [])

/-- Reads what the value of the extension begins with. -/
def decodeValue {α : Type} (e : Extension) (r : Reader α) : Except DecodeError α :=
  decode r e.value

/-- Insists that the extension is critical. -/
def requireCritical (e : Extension) (err : InspectionError) : Except InspectionError Unit :=
  if e.critical then .ok () else .error err

/-- Insists that the extension is not critical. -/
def requireNonCritical (e : Extension) (err : InspectionError) : Except InspectionError Unit :=
  if e.critical then .error err else .ok ()

/-- Writes an extension. -/
def encode (e : Extension) : Octets :=
  sequenceValue (objectIdValue e.id ++ (if e.critical then trueValue else [])
    ++ octetStringValue e.value)

/-- Writes a list of extensions. -/
def encodeList (es : List Extension) : Octets :=
  sequenceValue (es.flatMap (·.encode))

end Extension

end ResourcePki

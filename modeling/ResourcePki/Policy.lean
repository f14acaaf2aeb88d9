import ResourcePki.Certificate.Extension

/-!
The policy of a certificate.

There has to be exactly one, that of resource certificates. It may be qualified once, by a pointer
to a practice statement. The list is read as a whole before it is judged.
-/

namespace ResourcePki

open Der

/-- A policy with its qualifiers, each with the encoding of its value. A list of qualifiers may be
missing. -/
structure PolicyInformation where
  id : ObjectId
  qualifiers : Option (List (ObjectId × Octets))
  deriving DecidableEq, Repr

namespace PolicyInformation

/-- Reads a qualifier. -/
def readQualifier : Reader (ObjectId × Octets) :=
  return (← objectId, ← captureAll)

/-- Reads the parts of a policy. -/
def readParts : Reader PolicyInformation := do
  let id ← objectId
  return ⟨id, ← inSequence? (many (inSequence? readQualifier))⟩

/-- Reads a list of policies. -/
def readList : Reader (List PolicyInformation) :=
  inSequence (many (inSequence? readParts))

end PolicyInformation

/-- The policy of a resource certificate, with the pointer to a practice statement if it has one. -/
structure Policy where
  practiceStatement : Option Octets
  deriving DecidableEq, Repr

namespace Policy

/-- Reads a text. -/
def readText : Reader Octets := do
  (← elementOf Tag.ia5String).ia5String

/-- The policy that a list amounts to. -/
def ofList : List PolicyInformation → Except InspectionError Policy
  | [policy] =>
    if policy.id ≠ ObjectId.resourcePolicy then .error .policyUnknown
    else
      match policy.qualifiers with
      | none => .ok ⟨none⟩
      | some [(id, qualifier)] =>
        if id ≠ ObjectId.practiceStatement then .error .qualifierUnknown
        else
          match decode readText qualifier with
          | .ok text => .ok ⟨some text⟩
          | .error _ => .error .qualifierText
      | some _ => .error .qualifierCount
  | _ => .error .policyCount

/-- The policy that an extension names. -/
def ofExtension (e : Extension) : Except ValidationError Policy := do
  e.requireCritical .policyNotCritical
  ofList (← e.decodeValue PolicyInformation.readList)

end Policy

end ResourcePki

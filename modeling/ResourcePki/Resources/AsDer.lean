import ResourcePki.Resources.As
import ResourcePki.DecodeOptions
import ResourcePki.Der.Primitive
import ResourcePki.Der.Writer

/-!
The encoded form of AS resources.

It is a sequence of two parts, both optional: the numbers, and identifiers of routing domains,
which are stepped over. The numbers are a null value if they are inherited or else a sequence of
entries, where a single number is a whole number and a range a sequence of two. Writing always
gives the first part and never the second one.
-/

namespace ResourcePki

open Der

namespace AsNumber

/-- Reads a number. -/
def read : Reader AsNumber :=
  return ofNat (← unsigned32)

/-- Writes a number. -/
def encode (n : AsNumber) : Octets :=
  unsignedValue n.toNat

end AsNumber

namespace AsRange

/-- Reads both ends of a range. -/
def readEnds : Reader AsRange := do
  let first ← AsNumber.read
  let last ← AsNumber.read
  match make first last with
  | .ok r => return r
  | .error cause => throw (.asResource cause)

/-- Writes a range. -/
def encode (r : AsRange) : Octets :=
  sequenceValue (r.first.encode ++ r.last.encode)

end AsRange

namespace AsEntry

/-- The entry that a value holds. -/
def ofElement (e : Element) : Except DecodeError AsEntry :=
  if e.tag = Tag.integer then do
    let n := AsNumber.ofNat (← e.unsigned32)
    if n = AsNumber.reserved then throw .asReserved else return .single n
  else if e.tag = Tag.sequence then (e.inside AsRange.readEnds).map .range
  else .error .asEntry

/-- Writes an entry. Inheritance has no form as an entry; it stands for all of them. -/
def encode : AsEntry → Octets
  | .inherit => []
  | .single n => n.encode
  | .range r => r.encode

/-- Writes an entry, if it has a form. -/
def encode? : AsEntry → Option Octets
  | .inherit => none
  | .single n => some n.encode
  | .range r => some r.encode

end AsEntry

/-- Adds an entry that has been read. -/
def AsBuilder.add (b : AsBuilder) (e : AsEntry) : Except DecodeError AsBuilder :=
  match b.push e with
  | (b, .ok ()) => .ok b
  | (_, .error cause) => .error (.asResource cause)

namespace AsResources

/-- Reads an entry and adds it, if there is one. -/
def readEntry (b : AsBuilder) : Reader (Option AsBuilder) := do
  match ← element? with
  | none => return none
  | some e => return some (← b.add (← AsEntry.ofElement e))

/-- Reads the part with the numbers. -/
def readNumbers (options : DecodeOptions) : Reader AsResources := do
  let b := AsBuilder.new options.maxAs
  let e ← element
  if e.tag = Tag.null then
    e.null
    return (← b.add .inherit).finish
  else if e.tag = Tag.sequence then return (← e.inside (repeated readEntry b)).finish
  else throw .asChoice

/-- Reads resources. -/
def read (options : DecodeOptions) : Reader AsResources :=
  inSequence do
    let numbers ← constructed? (Tag.context 0) (readNumbers options)
    let _ ← constructed? (Tag.context 1) captureAll
    if (← element?).isSome then throw .asPart
    return numbers.getD .empty

/-- Writes resources. -/
def encode (r : AsResources) : Octets :=
  sequenceValue (constructedValue (Tag.context 0)
    (if r.isInherited then nullValue else sequenceValue (r.entries.flatMap (·.encode))))

/-- Writes the part with the numbers, if every entry that has to be written has a form. -/
def encodeNumbers? (r : AsResources) : Option Octets :=
  if r.isInherited then some nullValue
  else (r.entries.mapM AsEntry.encode?).map fun parts => sequenceValue parts.flatten

/-- Writes resources, if every entry that has to be written has a form. -/
def encode? (r : AsResources) : Option Octets :=
  r.encodeNumbers?.map fun numbers => sequenceValue (constructedValue (Tag.context 0) numbers)

end AsResources

end ResourcePki

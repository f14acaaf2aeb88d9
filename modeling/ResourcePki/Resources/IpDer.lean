import ResourcePki.Resources.Ip
import ResourcePki.DecodeOptions
import ResourcePki.Der.Primitive
import ResourcePki.Der.Writer

/-!
The encoded form of IP resources.

It is a sequence of families, and a family may occur any number of times. Each has a null value if
it is inherited or else a sequence of blocks, where a prefix is a bit string and a range a sequence
of two. Writing puts all entries of a family together, version 4 first. Values announce their length
before they are written, so all lengths are computed from those of the blocks.
-/

namespace ResourcePki

open Der

/-- Reads an address family. A third octet is ignored, or refused in strict mode. -/
def Family.read (options : DecodeOptions) : Reader Family := do
  let bs ← octetString
  if bs.length = 3 ∧ options.strict then throw .safi
  if bs.length ≠ 2 ∧ bs.length ≠ 3 then throw .afiLength
  match bs.take 2 with
  | [0, 1] => return .v4
  | [0, 2] => return .v6
  | _ => throw .afi

/-- Writes an address family. -/
def Family.encode : Family → Octets
  | .v4 => octetStringValue [0, 1]
  | .v6 => octetStringValue [0, 2]

namespace AddressPrefix

/-- The block whose shared bits a value holds. -/
def ofElement (family : Family) (e : Element) : Except DecodeError AddressPrefix := do
  match ofBitString family (← e.bitString) with
  | .ok p => return p
  | .error cause => throw (.ipResource cause)

/-- Reads a block given by its shared bits. -/
def read (family : Family) : Reader AddressPrefix := do
  ofElement family (← elementOf Tag.bitString)

/-- How many octets the shared bits take, with the count of spare bits in front. -/
def contentLength (p : AddressPrefix) : Nat :=
  if p.length % 8 = 0 then p.length / 8 + 1 else p.length / 8 + 2

/-- How many octets the written block has. -/
def encodedLength (p : AddressPrefix) : Nat :=
  valueLength p.contentLength

/-- Writes a block given by its shared bits. -/
def encode (p : AddressPrefix) : Octets :=
  announced Tag.bitString p.contentLength (UInt8.ofNat p.bitString.unused :: p.bitString.octets)

/-- Writes a block given by its shared bits, of which an address has 128. -/
def encode? (p : AddressPrefix) : Option Octets :=
  if p.length ≤ 128 then some p.encode else none

end AddressPrefix

namespace AddressRange

/-- Reads both ends of a range. -/
def readEnds (family : Family) : Reader AddressRange := do
  let first ← AddressPrefix.read family
  let last ← AddressPrefix.read family
  match make first.first last.last with
  | .ok r => return r
  | .error cause => throw (.ipResource cause)

/-- How many octets both ends of the range take. -/
def contentLength (r : AddressRange) : Nat :=
  r.firstPrefix.encodedLength + r.lastPrefix.encodedLength

/-- Writes a range. -/
def encode (r : AddressRange) : Octets :=
  announcedSequence r.contentLength (r.firstPrefix.encode ++ r.lastPrefix.encode)

end AddressRange

namespace AddressBlock

/-- The block that a value holds. -/
def ofElement (family : Family) (e : Element) : Except DecodeError AddressBlock :=
  if e.tag = Tag.bitString then (AddressPrefix.ofElement family e).map .ofPrefix
  else if e.tag = Tag.sequence then (e.inside (AddressRange.readEnds family)).map .ofRange
  else .error .ipEntry

/-- How many octets the written block has. -/
def encodedLength : AddressBlock → Nat
  | .ofPrefix p => p.encodedLength
  | .ofRange r => valueLength r.contentLength

/-- Writes a block. -/
def encode : AddressBlock → Octets
  | .ofPrefix p => p.encode
  | .ofRange r => r.encode

/-- Whether a block can be written: its shared bits are not more than an address has. -/
def isEncodable : AddressBlock → Bool
  | .ofPrefix p => p.length ≤ 128
  | .ofRange _ => true

end AddressBlock

/-- Adds an entry that has been read. -/
def IpBuilder.add (b : IpBuilder) (e : IpEntry) : Except DecodeError IpBuilder :=
  match b.push e with
  | (b, .ok ()) => .ok b
  | (_, .error cause) => .error (.ipResource cause)

namespace IpResources

/-- Reads a block of a family and adds it, if there is one. -/
def readBlock (family : Family) (b : IpBuilder) : Reader (Option IpBuilder) := do
  match ← element? with
  | none => return none
  | some e => return some (← b.add (.block family (← AddressBlock.ofElement family e)))

/-- Reads the resources of a family and adds them. -/
def readFamily (options : DecodeOptions) (b : IpBuilder) : Reader IpBuilder := do
  let family ← Family.read options
  let e ← element
  if e.tag = Tag.null then
    e.null
    b.add (.inherit family)
  else if e.tag = Tag.sequence then e.inside (repeated (readBlock family) b)
  else throw .ipChoice

/-- Reads resources. -/
def read (options : DecodeOptions) : Reader IpResources :=
  inSequence do
    let b ← repeated (fun b => inSequence? (readFamily options b)) (IpBuilder.new options.maxIp)
    return b.finish

/-- The blocks of a family. -/
def blocksOf (r : IpResources) (family : Family) : List AddressBlock :=
  r.entries.filterMap fun e => if e.family = family then e.block? else none

/-- Whether there are entries of a family. -/
def hasFamily (r : IpResources) (family : Family) : Bool :=
  r.entries.any fun e => e.family == family

/-- How many octets all blocks of a family take. -/
def blocksLength (r : IpResources) (family : Family) : Nat :=
  (r.blocksOf family).foldr (fun b n => b.encodedLength + n) 0

/-- How many octets a family takes with what it has. -/
def familyContentLength (r : IpResources) (family : Family) : Nat :=
  family.encode.length +
    if r.isInherited family then nullValue.length else valueLength (r.blocksLength family)

/-- How many octets the entries of a family take, if there are any. -/
def familyLength (r : IpResources) (family : Family) : Nat :=
  if r.hasFamily family then valueLength (r.familyContentLength family) else 0

/-- Writes the entries of a family, if there are any. -/
def encodeFamily (r : IpResources) (family : Family) : Octets :=
  if r.hasFamily family then
    announcedSequence (r.familyContentLength family) (family.encode ++
      if r.isInherited family then nullValue
      else announcedSequence (r.blocksLength family) ((r.blocksOf family).flatMap (·.encode)))
  else []

/-- Writes resources. -/
def encode (r : IpResources) : Octets :=
  announcedSequence (r.familyLength .v4 + r.familyLength .v6)
    (r.encodeFamily .v4 ++ r.encodeFamily .v6)

/-- Whether every block that has to be written can be. -/
def isEncodable (r : IpResources) : Bool :=
  [Family.v4, Family.v6].all fun f => r.isInherited f || (r.blocksOf f).all (·.isEncodable)

/-- Writes resources, if every block can be written. -/
def encode? (r : IpResources) : Option Octets :=
  if r.isEncodable then some r.encode else none

end IpResources

end ResourcePki

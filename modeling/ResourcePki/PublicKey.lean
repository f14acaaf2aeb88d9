import ResourcePki.Der.Primitive
import ResourcePki.Der.Writer
import ResourcePki.Digest.Sha1
import ResourcePki.KeyIdentifier
import ResourcePki.Text.Base64

/-!
Public keys as they stand in certificates, and the encoded form of key identifiers.

A key keeps its complete encoding, which decides everything else about it. Keys are equal, ordered
and written in text by their encoding. The identifier of a key is the SHA-1 digest of its bits.
-/

namespace ResourcePki

open Der

namespace KeyIdentifier

/-- The identifier that a value of octets holds. -/
def ofElement (e : Element) : Except DecodeError KeyIdentifier := do
  match ofOctets? (← e.octetString) with
  | some k => return k
  | none => throw .keyIdentifierLength

/-- Reads an identifier. -/
def read : Reader KeyIdentifier := do
  ofElement (← elementOf Tag.octetString)

/-- Writes an identifier. -/
def encode (k : KeyIdentifier) : Octets :=
  octetStringValue k.octets

end KeyIdentifier

namespace PublicKey

/-- Reads the algorithm with its parameters and the bits. -/
def readParts : Reader (ObjectId × Octets × BitString) :=
  inSequence do
    let (algorithm, parameters) ← inSequence do return (← objectId, ← captureAll)
    return (algorithm, parameters, ← bitString)

end PublicKey

/-- A public key with its complete encoding. -/
structure PublicKey where
  algorithm : ObjectId
  /-- The encoding of the parameters of the algorithm; empty if there are none. -/
  parameters : Octets
  bits : BitString
  encoding : Octets
  decode_eq : decode PublicKey.readParts encoding = .ok (algorithm, parameters, bits)

namespace PublicKey

/-- The key with a complete encoding. -/
def ofEncoding (encoding : Octets) : Except DecodeError PublicKey :=
  match h : decode readParts encoding with
  | .ok (algorithm, parameters, bits) => .ok ⟨algorithm, parameters, bits, encoding, h⟩
  | .error err => .error err

/-- Keys are told apart by their encoding, since it decides everything else. -/
theorem ext_encoding {a b : PublicKey} (h : a.encoding = b.encoding) : a = b := by
  obtain ⟨_, _, _, enc, ha⟩ := a
  obtain ⟨_, _, _, _, hb⟩ := b
  obtain rfl : enc = _ := h
  rw [ha] at hb
  simp_all

instance : DecidableEq PublicKey := fun a b =>
  decidable_of_iff (a.encoding = b.encoding) ⟨ext_encoding, fun h => h ▸ rfl⟩

/-- Reads a key. -/
def read : Reader PublicKey := do
  ofEncoding (← captureOne)

/-- The key at the beginning of data. -/
def ofDer (bs : Octets) : Except DecodeError PublicKey :=
  decode read bs

/-- The key with a Base 64 text. -/
def ofBase64? (s : String) : Option PublicKey := do
  (ofDer (← Base64.decode? s.toList)).toOption

/-- The Base 64 text of a key. -/
def base64 (k : PublicKey) : String :=
  Base64.text k.encoding

/-- The identifier of a key. -/
def identifier (k : PublicKey) : KeyIdentifier :=
  ⟨Sha1.digest k.bits.octets, Sha1.length_digest _⟩

/-- Whether the first value of the parameters is the curve P-256. -/
def isOnP256 (k : PublicKey) : Bool :=
  match decode objectId k.parameters with
  | .ok curve => curve = ObjectId.p256
  | .error _ => false

/-- Whether the key can be that of a router: a point on the curve P-256 in the uncompressed form. -/
def isRouterKey (k : PublicKey) : Bool :=
  k.algorithm = ObjectId.ecPublicKey && k.isOnP256 && k.bits.unused = 0 &&
    k.bits.octets.length = 65 && k.bits.octets.head? = some 4

/-- The parameters, without a null value that stands for none. -/
def ownParameters (k : PublicKey) : Octets :=
  if k.parameters = nullValue then [] else k.parameters

/-- Whether two values hold the same key, where no parameters and a null value mean the same. -/
def isSameKey (a b : PublicKey) : Bool :=
  a.algorithm = b.algorithm && a.ownParameters = b.ownParameters && a.bits = b.bits

instance : Ord PublicKey where
  compare a b := compare a.encoding b.encoding

end PublicKey

end ResourcePki

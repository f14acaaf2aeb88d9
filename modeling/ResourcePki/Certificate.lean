import ResourcePki.Certificate.Extension
import ResourcePki.PublicKey
import ResourcePki.Validity

/-!
Decoded certificates.

Only certificates of the third version with extensions are accepted. Names and algorithms are kept
in their encoding. The part that is signed is cut out as a whole and then decoded on its own; what
is wrong with it comes before anything left over behind the signature.
-/

namespace ResourcePki

open Der

/-- A decoded certificate. -/
structure Certificate where
  /-- The encoding of the part that is signed. -/
  signedPart : Octets
  /-- The encoding of the algorithm named beside the signature. -/
  algorithm : Octets
  signature : BitString
  /-- The content of the serial number. -/
  serial : Octets
  /-- The encoding of the algorithm named in the signed part. -/
  innerAlgorithm : Octets
  issuer : Octets
  validity : Validity
  subject : Octets
  publicKey : PublicKey
  extensions : List Extension
  deriving DecidableEq

namespace Certificate

/-- Reads the version, which has to be the third one. -/
def readVersion : Reader Unit :=
  constructed (Tag.context 0) do
    if (← (← elementOf Tag.integer).primitive) ≠ [2] then throw .malformed

/-- Reads the signed part of a certificate with the given encodings around it. -/
def readSigned (signedPart algorithm : Octets) (signature : BitString) : Reader Certificate :=
  inSequence do
    readVersion
    let serial ← unsigned
    let innerAlgorithm ← captureOne
    let issuer ← captureOne
    let validity ← Validity.read
    let subject ← captureOne
    let publicKey ← PublicKey.read
    let extensions ← constructed (Tag.context 3) Extension.readList
    return { signedPart, algorithm, signature, serial, innerAlgorithm, issuer, validity, subject,
             publicKey, extensions }

/-- Reads a certificate. -/
def read : Reader Certificate :=
  inSequence do
    let signedPart ← captureOne
    let algorithm ← captureOne
    let signature ← bitString
    Der.decode (readSigned signedPart algorithm signature) signedPart

/-- The certificate at the beginning of data. -/
def ofDer (bs : Octets) : Except DecodeError Certificate :=
  Der.decode read bs

/-- The extension with an identifier. -/
def extension? (c : Certificate) (id : ObjectId) : Option Extension :=
  c.extensions.find? (·.id == id)

end Certificate

end ResourcePki

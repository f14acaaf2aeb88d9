import ResourcePki.Octets

/-!
Object identifiers, in the form of their encoded content. They are only ever compared, so the arcs
that the octets spell do not matter. An identifier has at least one octet, and the last one ends an
arc.
-/

namespace ResourcePki

/-- An object identifier. -/
structure ObjectId where
  octets : Octets
  deriving DecidableEq, Repr

namespace ObjectId

/-- The identifier with the given content. -/
def ofContent? (bs : Octets) : Option ObjectId :=
  match bs.getLast? with
  | none => none
  | some last => if last < 0x80 then some ⟨bs⟩ else none

/-- Keys of elliptic curves. -/
def ecPublicKey : ObjectId := ⟨[42, 134, 72, 206, 61, 2, 1]⟩

/-- The curve P-256. -/
def p256 : ObjectId := ⟨[42, 134, 72, 206, 61, 3, 1, 7]⟩

/-- Access to the certificate of an issuer. -/
def caIssuers : ObjectId := ⟨[43, 6, 1, 5, 5, 7, 48, 2]⟩

/-- Access to the repository of a CA. -/
def caRepository : ObjectId := ⟨[43, 6, 1, 5, 5, 7, 48, 5]⟩

/-- Access to the manifest of a CA. -/
def manifest : ObjectId := ⟨[43, 6, 1, 5, 5, 7, 48, 10]⟩

/-- Access to the notification file of a CA. -/
def notification : ObjectId := ⟨[43, 6, 1, 5, 5, 7, 48, 13]⟩

/-- The extension with the authority key identifier. -/
def authorityKeyIdentifier : ObjectId := ⟨[85, 29, 35]⟩

/-- The extension with the subject key identifier. -/
def subjectKeyIdentifier : ObjectId := ⟨[85, 29, 14]⟩

/-- The extension that marks a CA. -/
def basicConstraints : ObjectId := ⟨[85, 29, 19]⟩

/-- The extension on what a key may be used for. -/
def keyUsage : ObjectId := ⟨[85, 29, 15]⟩

/-- The extension on the purposes of a certificate. -/
def extendedKeyUsage : ObjectId := ⟨[85, 29, 37]⟩

/-- The extension with policies. -/
def certificatePolicies : ObjectId := ⟨[85, 29, 32]⟩

/-- The extension with the locations of revocation lists. -/
def crlDistributionPoints : ObjectId := ⟨[85, 29, 31]⟩

/-- The extension with the location of the certificate of the issuer. -/
def authorityInfoAccess : ObjectId := ⟨[43, 6, 1, 5, 5, 7, 1, 1]⟩

/-- The extension with the locations where the subject publishes. -/
def subjectInfoAccess : ObjectId := ⟨[43, 6, 1, 5, 5, 7, 1, 11]⟩

/-- The extension with IP resources. -/
def ipAddressBlocks : ObjectId := ⟨[43, 6, 1, 5, 5, 7, 1, 7]⟩

/-- The extension with AS resources. -/
def autonomousSystemIds : ObjectId := ⟨[43, 6, 1, 5, 5, 7, 1, 8]⟩

/-- The policy of resource certificates. -/
def resourcePolicy : ObjectId := ⟨[43, 6, 1, 5, 5, 7, 14, 2]⟩

/-- The qualifier of a policy that points to a practice statement. -/
def practiceStatement : ObjectId := ⟨[43, 6, 1, 5, 5, 7, 2, 1]⟩

/-- The purpose of a router certificate. -/
def routerPurpose : ObjectId := ⟨[43, 6, 1, 5, 5, 7, 3, 30]⟩

end ObjectId

end ResourcePki

import ResourcePki.Error.Decoding

/-!
Why a certificate is rejected: it cannot be decoded, it breaks a rule of the resource certificate
profile, or it is not the trust anchor that it is taken for.
-/

namespace ResourcePki

/-- A certificate breaks a rule of the profile. -/
inductive InspectionError where
  /-- The extension with IP resources is not critical. -/
  | ipNotCritical
  /-- The extension with AS resources is not critical. -/
  | asNotCritical
  /-- The extension on subject information access is critical. -/
  | siaCritical
  /-- A repository or a manifest is not named. -/
  | siaIncomplete
  /-- The manifest does not begin with the repository. -/
  | siaConflict
  /-- The manifest is not a file of that type. -/
  | siaNotManifest
  /-- The extension with policies is not critical. -/
  | policyNotCritical
  /-- There is not exactly one policy. -/
  | policyCount
  /-- The policy is not the one of resource certificates. -/
  | policyUnknown
  /-- There is not exactly one qualifier. -/
  | qualifierCount
  /-- The qualifier is not a pointer to a practice statement. -/
  | qualifierUnknown
  /-- The pointer to a practice statement is not text. -/
  | qualifierText
  /-- The extension with the subject key identifier is critical. -/
  | skiCritical
  /-- The extension with the authority key identifier is critical. -/
  | akiCritical
  /-- The extension with the location of the issuer is critical. -/
  | aiaCritical
  /-- The extension with the location of the revocation list is critical. -/
  | crlCritical
  /-- A certificate that is not for a CA does not say what it is for. -/
  | purposeMissing
  /-- The extension with purposes is critical. -/
  | purposeCritical
  /-- The only purpose is unknown. -/
  | purposeUnknown
  /-- There is not exactly one purpose. -/
  | purposeCount
  /-- The key of a router is not of the required kind. -/
  | routerKey
  /-- A CA does not say where it publishes. -/
  | siaMissing
  /-- A CA has neither IP nor AS resources. -/
  | noResources
  /-- A router has IP resources. -/
  | routerIpResources
  /-- A router says where it publishes. -/
  | routerSia
  /-- There is no subject key identifier. -/
  | skiMissing
  /-- The subject key identifier of a router is not that of its key. -/
  | routerSki
  /-- An issued certificate does not name the key of its issuer. -/
  | issuedWithoutAki
  /-- An issued certificate names its own key as that of its issuer. -/
  | issuedBySelf
  /-- An issued certificate does not say where the certificate of its issuer is. -/
  | issuedWithoutAia
  /-- An issued certificate does not say where the revocation list is. -/
  | issuedWithoutCrl
  /-- A trust anchor names another key as that of its issuer. -/
  | anchorAki
  /-- A trust anchor says where the certificate of its issuer is. -/
  | anchorAia
  /-- A trust anchor says where a revocation list is. -/
  | anchorCrl
  /-- A trust anchor is a router. -/
  | anchorRouter
  /-- A trust anchor inherits resources. -/
  | anchorInherit
  deriving DecidableEq, Repr

/-- The wording of the rejection. -/
def InspectionError.message : InspectionError → String
  | .ipNotCritical => "RFC 6487 section 4.8.10: sbgp-ipAddrBlock: extension not critical"
  | .asNotCritical => "RFC 6487 section 4.8.11: autonomousSysNum: extension not critical"
  | .siaCritical => "RFC 6487 section 4.8.8: SIA: extension not non-critical"
  | .siaIncomplete => "RFC 6487 section 4.8.8: SIA: missing caRepository or rpkiManifest"
  | .siaConflict =>
    "RFC 6487 section 4.8.8: SIA: conflicting URIs for caRepository and rpkiManifest"
  | .siaNotManifest => "RFC 6487 section 4.8.8: SIA: not an MFT file"
  | .policyNotCritical =>
    "RFC 6487 section 4.8.9: certificatePolicies: extension not critical"
  | .policyCount => "RFC 6487 section 4.8.9: certificatePolicies: want 1 policy"
  | .policyUnknown => "RFC 7318 section 2: certificatePolicies: unexpected OID"
  | .qualifierCount => "RFC 7318 section 2: certificatePolicies: want 1 policy qualifier"
  | .qualifierUnknown => "RFC 7318 section 2: certificatePolicies: want CPS"
  | .qualifierText =>
    "RFC 5280 section 4.2.1.4: certificatePolicies: CPS qualifier must be an IA5String"
  | .skiCritical => "RFC 6487 section 4.8.2: SKI: extension must not be critical"
  | .akiCritical => "RFC 6487 section 4.8.3: AKI: extension must not be critical"
  | .aiaCritical => "RFC 6487 section 4.8.7: AIA: extension must not be critical"
  | .crlCritical => "RFC 6487 section 4.8.6: CRL: extension must not be critical"
  | .purposeMissing => "EKU: extension missing in non-CA certificate"
  | .purposeCritical => "RFC 8209 section 3.1.3.2: EKU: extension must not be critical"
  | .purposeUnknown => "EKU: unknown certificate purpose"
  | .purposeCount => "EKU: expected exactly one purpose"
  | .routerKey => "RFC 8208 section 3.1: BGPsec router key must be a P-256 ECDSA key"
  | .siaMissing => "RFC 6487 section 4.8.8: missing SIA"
  | .noResources => "missing IP or AS resources"
  | .routerIpResources => "unexpected IP resources in BGPsec cert"
  | .routerSia => "unexpected SIA extension in BGPsec cert"
  | .skiMissing => "RFC 6487 section 8.4.2: missing SKI"
  | .routerSki => "RFC 8209 section 3.1.1: SKI does not match router key"
  | .issuedWithoutAki => "RFC 6487 section 8.4.2: non-trust anchor missing AKI"
  | .issuedBySelf => "RFC 6487 section 8.4.2: non-trust anchor AKI may not match SKI"
  | .issuedWithoutAia => "RFC 6487 section 8.4.7: AIA: extension missing"
  | .issuedWithoutCrl =>
    "RFC 6487 section 4.8.6: CRL: no CRL distribution point extension"
  | .anchorAki => "RFC 6487 section 8.4.2: trust anchor AKI, if specified, must match SKI"
  | .anchorAia => "RFC 6487 section 8.4.7: trust anchor must not have AIA"
  | .anchorCrl => "RFC 6487 section 8.4.2: trust anchor may not specify CRL resource"
  | .anchorRouter => "BGPsec cert cannot be a trust anchor"
  | .anchorInherit => "RFC 6487 section 7.1: trust anchor must not use inherit"

/-- A time lies outside a period of validity. -/
inductive PeriodError where
  /-- The period has not begun. -/
  | tooNew
  /-- The period is over. -/
  | tooOld
  deriving DecidableEq, Repr

/-- The wording of the failure. -/
def PeriodError.message : PeriodError → String
  | .tooNew => "certificate is not yet valid"
  | .tooOld => "certificate has expired"

/-- A certificate is not the trust anchor that it is taken for. -/
inductive VerificationError where
  /-- The key that the trust anchor should have cannot be decoded. -/
  | anchorKey
  /-- The decoded certificate is no longer at hand. -/
  | certificateMissing
  /-- The certificate has another key. -/
  | keyMismatch
  /-- The certificate is not valid at the time. -/
  | period (cause : PeriodError)
  deriving DecidableEq, Repr

/-- The wording of the rejection. -/
def VerificationError.message : VerificationError → String
  | .anchorKey => "RFC 6487 (trust anchor): bad TAL pubkey"
  | .certificateMissing => "RFC 6487 (trust anchor): missing pubkey"
  | .keyMismatch => "RFC 6487 (trust anchor): pubkey does not match TAL pubkey"
  | .period cause => cause.message

/-- A certificate is rejected. -/
inductive ValidationError where
  | decoding (cause : DecodeError)
  | inspection (cause : InspectionError)
  | verification (cause : VerificationError)
  deriving DecidableEq, Repr

/-- Failures to decode reject a certificate. -/
instance : MonadLift (Except DecodeError) (Except ValidationError) where
  monadLift x := x.mapError .decoding

/-- Broken rules reject a certificate. -/
instance : MonadLift (Except InspectionError) (Except ValidationError) where
  monadLift x := x.mapError .inspection

/-- The wording of the rejection; a fault of the encoding itself has none. -/
def ValidationError.message? : ValidationError → Option String
  | .decoding cause => cause.message?
  | .inspection cause => some cause.message
  | .verification cause => some cause.message

end ResourcePki

import ResourcePki.Error.Resource

/-!
Why octets cannot be decoded.

Most faults are of the encoding itself: a header that is cut short, a length in more octets than it
needs, a value of the wrong form, content that is left over. They share one cause without wording.
The other causes are rules on content that are checked while the octets are read.
-/

namespace ResourcePki

/-- Decoding fails. -/
inductive DecodeError where
  /-- The octets are not the encoding that is expected. -/
  | malformed
  /-- A key identifier does not have twenty octets. -/
  | keyIdentifierLength
  /-- A time is not in one of the two forms or names no moment. -/
  | time
  /-- A location is not an rsync URI. -/
  | rsyncUri
  /-- Two extensions have the same identifier. -/
  | duplicateExtension
  /-- An address family has a third octet although checking is strict. -/
  | safi
  /-- An address family is neither two nor three octets long. -/
  | afiLength
  /-- An address family is neither of the two. -/
  | afi
  /-- The resources of a family are neither inherited nor a list. -/
  | ipChoice
  /-- An entry of IP resources is neither a prefix nor a range. -/
  | ipEntry
  /-- An entry of IP resources is refused. -/
  | ipResource (cause : IpResourceError)
  /-- AS resources hold an unknown part. -/
  | asPart
  /-- AS resources are neither inherited nor a list. -/
  | asChoice
  /-- An entry of AS resources is neither a number nor a range. -/
  | asEntry
  /-- An entry of AS resources is the reserved number. -/
  | asReserved
  /-- An entry of AS resources is refused. -/
  | asResource (cause : AsResourceError)
  /-- The location of a repository is not an rsync URI. -/
  | repositoryUri
  /-- The location of a manifest is not an rsync URI. -/
  | manifestUri
  /-- The location of a notification file is not an https URI. -/
  | notifyUri
  /-- A distribution point names no rsync URI. -/
  | crlUri
  deriving DecidableEq, Repr

/-- The wording of the failure, if it is about content. -/
def DecodeError.message? : DecodeError → Option String
  | .malformed => none
  | .keyIdentifierLength => some "key identifier must be 20 octets"
  | .time => some "malformed time value"
  | .rsyncUri => some "invalid rsync URI"
  | .duplicateExtension => some "RFC 5280 section 4.2: duplicate extension"
  | .safi => some "RFC 6487 section 4.8.10: sbgp-ipAddrBlock: SAFI not allowed"
  | .afiLength => some "RFC 3779 section 2.2.3.2: addressFamily: invalid AFI length"
  | .afi => some "RFC 3779 section 2.2.3.2: addressFamily: invalid AFI"
  | .ipChoice =>
    some "RFC 3779 section 2.2.3.2: IPAddressChoice: want ASN.1 sequence or null"
  | .ipEntry =>
    some "RFC 3779 section 2.2.3.7: IPAddressOrRange: want ASN.1 sequence or bit string"
  | .ipResource cause => some cause.message
  | .asPart => some "RFC 3779 section 3.2.3.1: ASIdentifiers: unknown explicit tag"
  | .asChoice =>
    some "RFC 3779 section 3.2.3.2: ASIdentifierChoice: want ASN.1 sequence or null"
  | .asEntry => some "RFC 3779 section 3.2.3.5: ASIdOrRange: want ASN.1 sequence or integer"
  | .asReserved =>
    some "RFC 3779 section 3.2.3.10 (via RFC 1930): AS identifier zero is reserved"
  | .asResource cause => some cause.message
  | .repositoryUri => some "RFC 6487 section 4.8.8: SIA: caRepository: not an rsync URI"
  | .manifestUri => some "RFC 6487 section 4.8.8: SIA: rpkiManifest: not an rsync URI"
  | .notifyUri => some "RFC 8182 section 3.2: SIA: rpkiNotify: not an https URI"
  | .crlUri => some "RFC 6487 section 4.8.6: CRL: no rsync URI in distribution point"

end ResourcePki

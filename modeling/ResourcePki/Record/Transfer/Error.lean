/-!
Why octets that came from another process are no record: they end too early, or something in them is
not as a record would have been written.
-/

namespace ResourcePki

/-- What is wrong with octets that are no record. -/
inductive RecordFault where
  /-- The time of expiry is out of range. -/
  | expiry
  /-- The purpose is none of the two. -/
  | purpose
  /-- The family of an entry is none of the two. -/
  | family
  /-- A prefix is longer than an address of its family. -/
  | prefixLength
  /-- The ends of a range of addresses are out of order. -/
  | addressRange
  /-- The kind of an entry of IP resources is unknown. -/
  | ipKind
  /-- The ends of a range of AS numbers are out of order or the same. -/
  | asRange
  /-- The kind of an entry of AS resources is unknown. -/
  | asKind
  /-- There is no subject key identifier. -/
  | subjectKeyMissing
  /-- A key identifier does not have 40 hexadecimal digits. -/
  | keyIdentifier
  /-- The manifest or the repository of a CA is missing. -/
  | manifestMissing
  /-- A text is not an rsync URI. -/
  | rsyncUri
  /-- The text for the notification file is not an https URI. -/
  | httpsUri
  /-- The manifest and the repository of a CA do not belong together. -/
  | repository
  /-- The key of a router is missing. -/
  | routerKeyMissing
  /-- The text for the key of a router is not one. -/
  | routerKey
  deriving DecidableEq, Repr

/-- The wording of a fault. -/
def RecordFault.message : RecordFault → String
  | .expiry => "invalid expiry time"
  | .purpose => "invalid purpose"
  | .family => "invalid address family"
  | .prefixLength => "invalid prefix length"
  | .addressRange => "reversed address range"
  | .ipKind => "invalid IP resource type"
  | .asRange => "invalid AS range"
  | .asKind => "invalid AS resource type"
  | .subjectKeyMissing => "missing SKI"
  | .keyIdentifier => "invalid key identifier"
  | .manifestMissing => "missing manifest in CA record"
  | .rsyncUri => "invalid rsync URI"
  | .httpsUri => "invalid https URI"
  | .repository => "invalid repository"
  | .routerKeyMissing => "missing key in router record"
  | .routerKey => "invalid router key"

/-- Why no record can be read. -/
inductive TransferError where
  /-- The octets end before the record does. -/
  | shortInput
  /-- The octets are no record. -/
  | malformed (fault : RecordFault)
  deriving DecidableEq, Repr

/-- The wording of the failure. -/
def TransferError.message : TransferError → String
  | .shortInput => "unexpected end of data"
  | .malformed fault => "malformed certificate record: " ++ fault.message

end ResourcePki

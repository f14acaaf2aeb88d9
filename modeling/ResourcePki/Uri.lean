import ResourcePki.Octets

/-!
The two kinds of locations that certificates point to: rsync URIs for repositories, manifests,
certificates and revocation lists, and https URIs for notification files.

A URI is kept as it was given. It holds at most 2048 octets, all of them printable ASCII other than
the blank, it begins with its scheme in any case and more follows, and no slash is directly followed
by a dot, so that no segment of a path is hidden or points upwards. Behind the scheme an rsync URI
has an authority and a module, both non-empty, and possibly a path; an https URI has a non-empty
host that ends at a slash.
-/

namespace ResourcePki

/-- Why octets are no URI of a kind. -/
inductive UriError where
  /-- An octet is not printable ASCII. -/
  | notAscii
  /-- There are more than 2048 octets. -/
  | tooLong
  /-- What follows the scheme lacks a part. -/
  | badUri
  /-- The scheme is missing or not followed by anything. -/
  | badScheme
  /-- A slash is followed by a dot. -/
  | dotSegment
  deriving DecidableEq, Repr

/-- The wording of the refusal. -/
def UriError.message : UriError → String
  | .notAscii => "invalid characters"
  | .tooLong => "URI too long"
  | .badUri => "bad URI"
  | .badScheme => "bad URI scheme"
  | .dotSegment => "path segment starting with a dot"

namespace Uri

/-- The most octets a URI may have. -/
def maxLength : Nat := 2048

/-- The octet of a slash. -/
def slash : UInt8 := 0x2f

/-- The octet of a dot. -/
def dot : UInt8 := 0x2e

/-- Whether an octet is printable ASCII other than the blank. -/
def isGraphic (b : UInt8) : Bool :=
  0x21 ≤ b && b ≤ 0x7e

/-- Whether all octets may stand in a URI. -/
def isUriAscii (bs : Octets) : Bool :=
  bs.all isGraphic

/-- An ASCII letter in lower case; other octets stay as they are. -/
def lowered (b : UInt8) : UInt8 :=
  if 0x41 ≤ b ∧ b ≤ 0x5a then b + 0x20 else b

/-- Whether two strings differ at most in the case of ASCII letters. -/
def eqIgnoringCase (a b : Octets) : Bool :=
  a.map lowered == b.map lowered

/-- Whether a slash is directly followed by a dot. -/
def hasDotSegment : Octets → Bool
  | a :: b :: rest => (a == slash && b == dot) || hasDotSegment (b :: rest)
  | _ => false

/-- The octets before the first slash. -/
def segment (bs : Octets) : Octets :=
  bs.takeWhile (· != slash)

/-- The octets behind the first slash. -/
def afterSlash (bs : Octets) : Octets :=
  (bs.dropWhile (· != slash)).drop 1

end Uri

/-- The schemes in use. -/
inductive Scheme where
  | rsync
  | https
  deriving DecidableEq, Repr

namespace Scheme

/-- The scheme as it stands in front of a URI. -/
def octets : Scheme → Octets
  | .rsync => Octets.ofAscii "rsync://"
  | .https => Octets.ofAscii "https://"

/-- Whether octets begin with the scheme in any case and go on. -/
def starts (s : Scheme) (bs : Octets) : Bool :=
  s.octets.length < bs.length && Uri.eqIgnoringCase (bs.take s.octets.length) s.octets

/-- What follows the scheme of a URI that passes the checks common to all schemes. -/
def remainder (s : Scheme) (bs : Octets) : Except UriError Octets :=
  if bs.length > Uri.maxLength then .error .tooLong
  else if !Uri.isUriAscii bs then .error .notAscii
  else if !s.starts bs then .error .badScheme
  else if Uri.hasDotSegment bs then .error .dotSegment
  else .ok (bs.drop s.octets.length)

end Scheme

/-- What a file holds by the ending of its name. -/
inductive FileType where
  | cer
  | crl
  | mft
  | roa
  | gbr
  | asa
  | tal
  deriving DecidableEq, Repr

namespace FileType

/-- All types. -/
def all : List FileType :=
  [.cer, .crl, .mft, .roa, .gbr, .asa, .tal]

/-- The ending that marks a type. -/
def ending : FileType → String
  | .cer => "cer"
  | .crl => "crl"
  | .mft => "mft"
  | .roa => "roa"
  | .gbr => "gbr"
  | .asa => "asa"
  | .tal => "tal"

/-- The octets behind the last dot of a path; all of them if there is none. -/
def extension (path : Octets) : Octets :=
  (path.reverse.takeWhile (· != Uri.dot)).reverse

/-- The type of a file by what follows the last dot of its path, in any case. -/
def ofPath? (path : Octets) : Option FileType :=
  let ext := extension path
  if ext.length = path.length then none
  else all.find? fun t => Uri.eqIgnoringCase ext (Octets.ofAscii t.ending)

end FileType

end ResourcePki

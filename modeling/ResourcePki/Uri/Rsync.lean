import ResourcePki.Uri

/-!
Rsync URIs: `rsync://authority/module` and possibly a path behind a further slash.

The parts are cut from the text at its first two slashes behind the scheme, by the same cuts when a
URI is checked and when a part is asked for.
-/

namespace ResourcePki

namespace RsyncUri

/-- The authority at the beginning of what follows the scheme. -/
def authorityOf (rest : Octets) : Octets :=
  Uri.segment rest

/-- The module in what follows the scheme. -/
def moduleOf (rest : Octets) : Octets :=
  Uri.segment (Uri.afterSlash rest)

/-- The path in what follows the scheme. -/
def pathOf (rest : Octets) : Octets :=
  Uri.afterSlash (Uri.afterSlash rest)

/-- Checks that octets are an rsync URI. -/
def check (bs : Octets) : Except UriError Unit := do
  let rest ← Scheme.rsync.remainder bs
  if authorityOf rest = [] then .error .badUri
  else if moduleOf rest = [] then .error .badUri
  else .ok ()

end RsyncUri

/-- An rsync URI, in the form in which it was given. -/
structure RsyncUri where
  octets : Octets
  check_eq : RsyncUri.check octets = .ok ()

namespace RsyncUri

instance : DecidableEq RsyncUri := fun a b =>
  if h : a.octets = b.octets then .isTrue (by cases a; cases b; simp_all)
  else .isFalse (fun hab => h (hab ▸ rfl))

/-- The URI with the given octets. -/
def ofOctets (bs : Octets) : Except UriError RsyncUri :=
  match h : check bs with
  | .ok () => .ok ⟨bs, h⟩
  | .error e => .error e

/-- The URI with the given text. -/
def ofText (s : String) : Except UriError RsyncUri :=
  ofOctets (Octets.ofText s)

/-- What follows the scheme. -/
def remainder (u : RsyncUri) : Octets :=
  u.octets.drop Scheme.rsync.octets.length

/-- The host. -/
def authority (u : RsyncUri) : Octets :=
  authorityOf u.remainder

/-- The name of the module. -/
def moduleName (u : RsyncUri) : Octets :=
  moduleOf u.remainder

/-- The path inside the module. -/
def path (u : RsyncUri) : Octets :=
  pathOf u.remainder

/-- Whether the URI begins with all of another one, octet for octet. -/
def startsWith (u base : RsyncUri) : Bool :=
  base.octets.isPrefixOf u.octets

/-- Whether the URI ends in a text, octet for octet. -/
def endsWith (u : RsyncUri) (ending : String) : Bool :=
  (Octets.ofText ending).isSuffixOf u.octets

/-- The type of the file that the URI names. -/
def fileType? (u : RsyncUri) : Option FileType :=
  FileType.ofPath? u.octets

/-- The text of the URI. -/
def text (u : RsyncUri) : String :=
  Octets.toText u.octets

/-- The text as it is shown for debugging. -/
def debugText (u : RsyncUri) : String :=
  "Rsync(" ++ u.text ++ ")"

instance : Ord RsyncUri where
  compare a b := compare a.octets b.octets

end RsyncUri

end ResourcePki

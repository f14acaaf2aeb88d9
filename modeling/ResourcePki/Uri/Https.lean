import ResourcePki.Uri

/-!
Https URIs: `https://host/` and anything behind that slash. Plain `http` is not accepted.
-/

namespace ResourcePki

namespace HttpsUri

/-- Checks that octets are an https URI. -/
def check (bs : Octets) : Except UriError Unit := do
  let rest ← Scheme.https.remainder bs
  let host := Uri.segment rest
  if host = [] ∨ host.length = rest.length then .error .badUri else .ok ()

end HttpsUri

/-- An https URI, in the form in which it was given. -/
structure HttpsUri where
  octets : Octets
  check_eq : HttpsUri.check octets = .ok ()

namespace HttpsUri

instance : DecidableEq HttpsUri := fun a b =>
  if h : a.octets = b.octets then .isTrue (by cases a; cases b; simp_all)
  else .isFalse (fun hab => h (hab ▸ rfl))

/-- The URI with the given octets. -/
def ofOctets (bs : Octets) : Except UriError HttpsUri :=
  match h : check bs with
  | .ok () => .ok ⟨bs, h⟩
  | .error e => .error e

/-- The URI with the given text. -/
def ofText (s : String) : Except UriError HttpsUri :=
  ofOctets (Octets.ofText s)

/-- The host. -/
def host (u : HttpsUri) : Octets :=
  Uri.segment (u.octets.drop Scheme.https.octets.length)

/-- The text of the URI. -/
def text (u : HttpsUri) : String :=
  Octets.toText u.octets

/-- The text as it is shown for debugging. -/
def debugText (u : HttpsUri) : String :=
  "Https(" ++ u.text ++ ")"

end HttpsUri

end ResourcePki

import ResourcePki.RouterKeyTable

/-!
What is printed of records and router keys: one fact a line, those that are missing left out.
-/

namespace ResourcePki

namespace Role

/-- The lines on what a certificate holds to its end. -/
def report : Role → List String
  | .ca repository =>
    ["  repository: " ++ repository.base.text, "  manifest: " ++ repository.manifest.text]
      ++ (repository.notification.map fun u => "  notify: " ++ u.text).toList
  | .router key => ["  router key: " ++ key.base64]

end Role

namespace Record

/-- The lines on the record of the certificate in a file. -/
def report (path : String) (r : Record) : List String :=
  [path ++ ":", "  purpose: " ++ r.role.purpose.name,
    "  subject key identifier: " ++ r.subjectKey.text]
    ++ (r.authorityKey.map fun k => "  authority key identifier: " ++ k.text).toList
    ++ (r.caIssuer.map fun u => "  issuer: " ++ u.text).toList
    ++ (r.crlUri.map fun u => "  CRL: " ++ u.text).toList
    ++ ["  expires: " ++ r.expires.text]
    ++ r.role.report
    ++ (if r.ipResources.isEmpty then [] else ["  IP resources: " ++ r.ipResources.text])
    ++ (if r.asResources.isEmpty then [] else ["  AS resources: " ++ r.asResources.text])

end Record

namespace RouterKeyTable

/-- The line on a router key. -/
def reportKey (k : RouterKey) (info : RouterKeyStatus) : String :=
  "router key " ++ k.asNumber.text ++ " " ++ k.identifier.text ++ " expires " ++ info.expires.text

/-- The lines on all router keys. -/
def report (t : RouterKeyTable) : List String :=
  t.toList.map fun (k, info) => reportKey k info

end RouterKeyTable

end ResourcePki

import ResourcePki.Proofs.RouterKeyTable.Runs
import ResourcePki.Report

/-!
What the lines on records and router keys say.

A record is printed as the path of its file and the facts that are known of it, each on a line
behind its label. A table of router keys is printed as one line for each key, in the order of the
keys. Such a line says nothing of the information on the key but the time of expiry, so tables that
agree on the times of all keys are printed in the same way.
-/

namespace ResourcePki

/-! ### Records -/

namespace Record

/-- What there is to be said of a record, in order and behind its labels. -/
def facts (r : Record) : List (String × Option String) := [
  ("  purpose: ", some (match r.role with
    | .ca _ => "CA"
    | .router _ => "BGPsec router")),
  ("  subject key identifier: ", some r.subjectKey.text),
  ("  authority key identifier: ", r.authorityKey.map (·.text)),
  ("  issuer: ", r.caIssuer.map (·.text)),
  ("  CRL: ", r.crlUri.map (·.text)),
  ("  expires: ", some r.expires.text),
  ("  repository: ", r.role.repository?.map (·.base.text)),
  ("  manifest: ", r.role.repository?.map (·.manifest.text)),
  ("  notify: ", (r.role.repository?.bind (·.notification)).map (·.text)),
  ("  router key: ", r.role.routerKey?.map (·.base64)),
  ("  IP resources: ", if r.ipResources.entries = [] then none else some r.ipResources.text),
  ("  AS resources: ", if r.asResources.entries = [] then none else some r.asResources.text)]

/-- The path of a file and what is known of the record of the certificate in it, a line each. -/
def lines (path : String) (r : Record) : List String :=
  (path ++ ":") :: r.facts.filterMap fun (label, text?) => text?.map (label ++ ·)

theorem filterMap_cons_fact (label : String) (text? : Option String)
    (facts : List (String × Option String)) :
    ((label, text?) :: facts).filterMap (fun (label, text?) => text?.map (label ++ ·)) =
      (text?.map (label ++ ·)).toList ++
        facts.filterMap fun (label, text?) => text?.map (label ++ ·) := by
  cases text? <;> rfl

theorem toList_map_ite (p : Prop) [Decidable p] (label text : String) :
    ((if p then none else some text).map (label ++ ·)).toList =
      if p then [] else [label ++ text] := by
  split <;> rfl

/-- What is printed of a record. -/
theorem report_eq_lines (path : String) (r : Record) : r.report path = r.lines path := by
  simp only [lines, facts, filterMap_cons_fact, List.filterMap_nil, toList_map_ite]
  simp only [report, IpResources.isEmpty, AsResources.isEmpty, List.isEmpty_iff]
  cases r.role with
  | ca repository =>
    simp [Role.report, Role.purpose, Purpose.name, Role.repository?, Role.routerKey?,
      Function.comp_def]
  | router key =>
    simp [Role.report, Role.purpose, Purpose.name, Role.repository?, Role.routerKey?,
      Function.comp_def]

end Record

/-! ### Router keys -/

namespace RouterKeyTable

variable {t t' : RouterKeyTable}

/-- The line on a router key that expires at a time. -/
def keyLine (k : RouterKey) (expires : Time) : String :=
  "router key " ++ k.asNumber.text ++ " " ++ k.identifier.text ++ " expires " ++ expires.text

/-- The lines on the keys of a table, one for each of them in their order. -/
def keyLines (t : RouterKeyTable) : List String :=
  t.toList.map fun (k, info) => keyLine k info.expires

/-- What is printed of a table. -/
theorem report_eq_keyLines (t : RouterKeyTable) : t.report = t.keyLines :=
  rfl

/-- What the lines say: the keys of a table in order, each with its time of expiry. -/
def expiries (t : RouterKeyTable) : List (RouterKey × Time) :=
  t.toList.map fun (k, info) => (k, info.expires)

theorem mem_expiries {k : RouterKey} {e : Time} :
    (k, e) ∈ t.expiries ↔ (t.get? k).map (·.expires) = some e := by
  simp only [expiries, List.mem_map, Prod.exists, Prod.mk.injEq, Option.map_eq_some_iff,
    ← t.mem_toList_iff]
  constructor
  · rintro ⟨_, info, hmem, rfl, rfl⟩
    exact ⟨info, hmem, rfl⟩
  · rintro ⟨info, hmem, rfl⟩
    exact ⟨k, info, hmem, rfl, rfl⟩

theorem ascending_expiries (t : RouterKeyTable) :
    t.expiries.Pairwise fun a b => a.1.Precedes b.1 :=
  List.pairwise_map.mpr (List.pairwise_map.mp t.ascending_toList)

theorem nodup_expiries (t : RouterKeyTable) : t.expiries.Nodup := by
  refine List.Nodup.of_map Prod.fst ?_
  rw [expiries, List.map_map]
  exact t.nodup_toList

theorem keyLines_eq_expiries (t : RouterKeyTable) :
    t.keyLines = t.expiries.map fun (k, e) => keyLine k e := by
  rw [expiries, List.map_map]
  rfl

/-- Tables with the same keys and times of expiry have the same lines. -/
theorem keyLines_eq (h : ∀ k, (t.get? k).map (·.expires) = (t'.get? k).map (·.expires)) :
    t.keyLines = t'.keyLines := by
  have hperm : t.expiries.Perm t'.expiries :=
    (List.perm_ext_iff_of_nodup t.nodup_expiries t'.nodup_expiries).mpr fun (k, e) => by
      rw [mem_expiries, mem_expiries, h]
  have heq : t.expiries = t'.expiries :=
    hperm.eq_of_pairwise (fun _ _ _ _ hab hba => absurd hba hab.asymm)
      t.ascending_expiries t'.ascending_expiries
  rw [keyLines_eq_expiries, keyLines_eq_expiries, heq]

end RouterKeyTable

end ResourcePki

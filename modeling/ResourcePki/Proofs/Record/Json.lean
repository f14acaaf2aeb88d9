import ResourcePki.Proofs.Record.Transfer
import ResourcePki.Proofs.Resources.Json
import ResourcePki.Proofs.Time.Rfc3339
import ResourcePki.Proofs.Uri.Scheme

/-!
Records in JSON.

Every part of a record is read as it has been written. What an accepted certificate holds can be
written, and it expires at a moment that its text shows in full, so its record is restored whatever
trust anchor it is under.

Nothing is checked of how the parts fit together. So of the records that there could be, those are
restored from some text whose numbers and texts can be read at all: prefixes with any bits, ranges
with their ends in any order, and CAs whose manifest has nothing to do with their repository. What
the types of these parts promise is not kept.
-/

namespace ResourcePki

open JsonValue (IsWritten)

/-! ### Names, keys and places -/

theorem KeyIdentifier.ofJson?_toJson (k : KeyIdentifier) : ofJson? k.toJson = some k := by
  have htext := k.ofText?_text
  rwa [k.toText_ofAscii_text] at htext

theorem PublicKey.IsWhole.ofJson?_toJson {k : PublicKey} (h : k.IsWhole) :
    ofJson? k.toJson = some k := by
  have htext := h.ofBase64?_base64
  rwa [k.toText_ofAscii_base64] at htext

theorem RsyncUri.ofJson?_toJson (u : RsyncUri) : ofJson? u.toJson = some u := by
  rw [ofJson?, toJson, JsonValue.text?_ofText_bind]
  exact toOption_eq_some.mpr u.ofText_text

theorem HttpsUri.ofJson?_toJson (u : HttpsUri) : ofJson? u.toJson = some u := by
  rw [ofJson?, toJson, JsonValue.text?_ofText_bind]
  exact toOption_eq_some.mpr u.ofText_text

theorem JsonValue.ofText_ne_null (s : String) : ofText s ≠ .null := by
  simp [ofText]

theorem Repository.ofJson?_toJson (p : Repository) : ofJson? p.toJson = some p := by
  have hfields : p.toJson.fields? ["ca_repository", "rpki_manifest", "rpki_notify"]
      = some [some p.base.toJson, some p.manifest.toJson,
        some (.ofOption HttpsUri.toJson p.notification)] :=
    @JsonValue.fields?_zip ["ca_repository", "rpki_manifest", "rpki_notify"]
      [p.base.toJson, p.manifest.toJson, .ofOption HttpsUri.toJson p.notification] (by decide) rfl
  have hnotification := JsonValue.optionalField?_ofOption (o := p.notification)
    (fun u _ => u.ofJson?_toJson) fun u _ => JsonValue.ofText_ne_null _
  rw [ofJson?, hfields]
  simp [RsyncUri.ofJson?_toJson, hnotification]

/-- The role can be written in JSON: the key of a router is all of its encoding. -/
def Role.FitsJson : Role → Prop
  | .ca _ => True
  | .router key => key.IsWhole

theorem Role.ofJson?_toJson {role : Role} (h : role.FitsJson) : ofJson? role.toJson = some role := by
  cases role with
  | ca p =>
    show (Repository.ofJson? p.toJson).map Role.ca = _
    rw [p.ofJson?_toJson]
    rfl
  | router key =>
    show (PublicKey.ofJson? key.toJson).map Role.router = _
    rw [PublicKey.IsWhole.ofJson?_toJson h]
    rfl

theorem Role.fitsJson_of_ofJson? {v : JsonValue} {role : Role} (h : ofJson? v = some role) :
    role.FitsJson := by
  unfold ofJson? at h
  split at h
  · obtain ⟨p, -, rfl⟩ := Option.map_eq_some_iff.mp h
    trivial
  · obtain ⟨key, hkey, rfl⟩ := Option.map_eq_some_iff.mp h
    obtain ⟨s, -, hs⟩ := Option.bind_eq_some_iff.mp hkey
    exact PublicKey.isWhole_of_ofBase64? hs
  · simp at h

theorem Repository.isWritten_toJson (p : Repository) : IsWritten p.toJson := by
  refine @IsWritten.zip ["ca_repository", "rpki_manifest", "rpki_notify"]
    [p.base.toJson, p.manifest.toJson, .ofOption HttpsUri.toJson p.notification] ?_
  simp only [List.forall_mem_cons, List.not_mem_nil, false_implies, implies_true, and_true]
  exact ⟨.string _, .string _, .ofOption (fun _ => .string _) _⟩

theorem Role.isWritten_toJson (role : Role) : IsWritten role.toJson := by
  cases role with
  | ca p => exact .case p.isWritten_toJson
  | router key => exact .case (.string _)

/-! ### Records -/

namespace Record

/-- The record as a value with some value for the time of expiry. -/
def toJsonWith (r : Record) (expires : JsonValue) : JsonValue :=
  .ofMembers (fieldNames.zip
    [r.role.toJson, r.ipResources.toJson, r.asResources.toJson, r.subjectKey.toJson,
      .ofOption KeyIdentifier.toJson r.authorityKey, .ofOption RsyncUri.toJson r.caIssuer,
      .ofOption RsyncUri.toJson r.crlUri, expires, .ofNat r.anchorNumber.toNat])

theorem toJson_eq_toJsonWith (r : Record) : r.toJson = r.toJsonWith r.expires.toJson := rfl

/-- The record can be written in JSON. -/
structure FitsJson (r : Record) : Prop where
  ip : ∀ e ∈ r.ipResources.entries, e.FitsJson
  role : r.role.FitsJson

theorem ofJson?_toJsonWith {r : Record} {v : JsonValue} (h : r.FitsJson)
    (hv : Time.ofJson? v = some r.expires) :
    ofJson? (r.toJsonWith v) = some r.withoutCertificate := by
  have hfields : (r.toJsonWith v).fields? fieldNames = some ([_, _, _, _, _, _, _, _, _].map some) :=
    JsonValue.fields?_zip (by decide) rfl
  have hauthority := JsonValue.optionalField?_ofOption (o := r.authorityKey)
    (fun k _ => k.ofJson?_toJson) fun k _ => JsonValue.ofText_ne_null _
  have hissuer := JsonValue.optionalField?_ofOption (o := r.caIssuer)
    (fun k _ => k.ofJson?_toJson) fun k _ => JsonValue.ofText_ne_null _
  have hcrl := JsonValue.optionalField?_ofOption (o := r.crlUri)
    (fun k _ => k.ofJson?_toJson) fun k _ => JsonValue.ofText_ne_null _
  have hlt := r.anchorNumber.toNat_lt
  have hnumber : (JsonValue.ofNat r.anchorNumber.toNat).nat? 0xffffffff = some _ :=
    JsonValue.nat?_ofNat (by omega)
  rw [ofJson?, hfields]
  simp [Role.ofJson?_toJson h.role, IpResources.ofJson?_toJson h.ip, AsResources.ofJson?_toJson,
    KeyIdentifier.ofJson?_toJson, hauthority, hissuer, hcrl, hv, hnumber, withoutCertificate]

/-- Whatever is restored could have been written. -/
theorem of_ofJson? {v : JsonValue} {r : Record} (h : ofJson? v = some r) :
    r.FitsJson ∧ r.certificate = none ∧ ∃ t, Time.Rfc3339.read? t = some r.expires := by
  obtain ⟨fields, -, h⟩ := Option.bind_eq_some_iff.mp h
  split at h
  · obtain ⟨role, hrole, h⟩ := Option.bind_eq_some_iff.mp h
    obtain ⟨ip, hip, h⟩ := Option.bind_eq_some_iff.mp h
    obtain ⟨as, -, h⟩ := Option.bind_eq_some_iff.mp h
    obtain ⟨subjectKey, -, h⟩ := Option.bind_eq_some_iff.mp h
    obtain ⟨authorityKey, -, h⟩ := Option.bind_eq_some_iff.mp h
    obtain ⟨caIssuer, -, h⟩ := Option.bind_eq_some_iff.mp h
    obtain ⟨crlUri, -, h⟩ := Option.bind_eq_some_iff.mp h
    obtain ⟨expires, hexpires, h⟩ := Option.bind_eq_some_iff.mp h
    obtain ⟨anchorNumber, -, h⟩ := Option.bind_eq_some_iff.mp h
    obtain ⟨t, -, ht⟩ := Option.bind_eq_some_iff.mp hexpires
    obtain rfl := Option.some.inj h
    exact ⟨⟨IpResources.fitsJson_of_ofJson? hip, Role.fitsJson_of_ofJson? hrole⟩, rfl, t, ht⟩
  · simp at h

theorem isWritten_toJsonWith (r : Record) {v : JsonValue} (h : IsWritten v) :
    IsWritten (r.toJsonWith v) := by
  refine IsWritten.zip ?_
  simp only [List.forall_mem_cons, List.not_mem_nil, false_implies, implies_true, and_true]
  exact ⟨r.role.isWritten_toJson, r.ipResources.isWritten_toJson, r.asResources.isWritten_toJson,
    .string _, .ofOption (fun _ => .string _) _, .ofOption (fun _ => .string _) _,
    .ofOption (fun _ => .string _) _, h, .number _⟩

/-- The record is restored from its text with any text for the time of expiry. -/
theorem ofJsonText?_toJsonWith {r : Record} {t : String} (h : r.FitsJson)
    (ht : Time.Rfc3339.read? t = some r.expires) :
    ofJsonText? (r.toJsonWith (.ofText t)).text = some r.withoutCertificate := by
  have htime : Time.ofJson? (.ofText t) = some r.expires := by
    rw [Time.ofJson?, JsonValue.text?_ofText_bind, ht]
  rw [ofJsonText?, (r.isWritten_toJsonWith (.string t)).parse?_text, Option.bind_eq_bind,
    Option.bind_some]
  exact ofJson?_toJsonWith h htime

/-- The records that are restored from some text: the decoded certificate is gone, the length of
    every prefix fits into an octet, the key of a router is all of its encoding, and the time of
    expiry has a text. Nothing else is asked of a record. -/
theorem restorable_iff {r : Record} :
    (∃ s, ofJsonText? s = some r) ↔ r.certificate = none ∧
      (∀ family p, .block family (.ofPrefix p) ∈ r.ipResources.entries → p.length ≤ 255) ∧
      (∀ key, r.role = .router key → key.IsWhole) ∧
      ∃ t, Time.Rfc3339.read? t = some r.expires := by
  constructor
  · rintro ⟨s, hs⟩
    obtain ⟨v, -, hv⟩ := Option.bind_eq_some_iff.mp hs
    obtain ⟨⟨hip, hrole⟩, hcertificate, hexpires⟩ := of_ofJson? hv
    refine ⟨hcertificate, fun family p hp => hip _ hp, fun key hkey => ?_, hexpires⟩
    rwa [hkey] at hrole
  · rintro ⟨hcertificate, hlengths, hkey, t, ht⟩
    have hfits : r.FitsJson := by
      refine ⟨fun e he => ?_, ?_⟩
      · cases e with
        | inherit family => trivial
        | block family b =>
          cases b with
          | ofPrefix p => exact hlengths family p he
          | ofRange q => trivial
      · cases hrole : r.role with
        | ca p => trivial
        | router key => exact hkey key hrole
    have hgone : r.withoutCertificate = r := by rw [withoutCertificate, ← hcertificate]
    exact ⟨_, (ofJsonText?_toJsonWith hfits ht).trans (congrArg some hgone)⟩

/-! ### Accepted certificates -/

/-- What can be sent can be written in JSON: no prefix is longer than an address. -/
theorem HasMeaning.fitsJson {r : Record} (h : r.HasMeaning) : r.FitsJson := by
  refine ⟨fun e he => ?_, ?_⟩
  · cases e with
    | inherit family => trivial
    | block family b =>
      cases b with
      | ofPrefix p =>
        have hlength : p.length ≤ family.octets * 8 := (h.ip _ he).length_le
        have hoctets : family.octets * 8 ≤ 128 := by cases family <;> decide
        show p.length ≤ 255
        omega
      | ofRange q => trivial
  · cases hrole : r.role with
    | ca p => trivial
    | router key => exact h.role.isWhole key (by rw [hrole]; rfl)

/-- The record is restored from its own text if this shows the time of expiry in full. -/
theorem ofJsonText?_jsonText {r : Record} (h : r.FitsJson) (hexpires : r.expires.IsPlain) :
    ofJsonText? r.jsonText = some r.withoutCertificate := by
  rw [jsonText, toJson_eq_toJsonWith]
  exact ofJsonText?_toJsonWith h (Time.Rfc3339.read?_write hexpires)

/-- The record of an accepted certificate, under whatever trust anchor, is restored from its own
    text without the decoded certificate. -/
theorem ofJsonText?_of_ofDer {options : DecodeOptions} {bs : Octets} {r : Record}
    (h : ofDer options bs = .ok r) (number : UInt32) :
    ofJsonText? (r.underAnchor number).jsonText
      = some (r.underAnchor number).withoutCertificate := by
  obtain ⟨c, f, -, hc, hr⟩ := of_ofDer h
  have hfits : (r.underAnchor number).FitsJson :=
    ⟨(hasMeaning_of_ofDer h).fitsJson.ip, (hasMeaning_of_ofDer h).fitsJson.role⟩
  have hexpires : (r.underAnchor number).expires.IsPlain := by
    show r.expires.IsPlain
    rw [hr.expires]
    exact hc.notAfter
  exact ofJsonText?_jsonText hfits hexpires

theorem ofJsonText?_of_ofDer_sample : ∃ r, ofDer {} sample = .ok r ∧
    ofJsonText? (r.underAnchor 7).jsonText = some (r.underAnchor 7).withoutCertificate := by
  obtain ⟨r, hr⟩ := exists_ofDer_sample
  exact ⟨r, hr, ofJsonText?_of_ofDer hr 7⟩

end Record

/-! ### Broken promises -/

/-- What the types of an entry promise: a prefix has at most 128 bits and none set beyond them, and
    the ends of a range are in order. -/
def IpEntry.KeepsPromise : IpEntry → Prop
  | .inherit _ => True
  | .block _ (.ofPrefix p) => p.length ≤ 128 ∧
    ∀ i < 128 - p.length, p.address.value.testBit i = false
  | .block _ (.ofRange q) => q.first.value ≤ q.last.value

namespace Record

/-- A record of a CA that breaks what its parts promise: a prefix with a bit beyond its length, two
    ranges with their ends out of order or the same, and a manifest of somebody else. -/
def broken : Record where
  role := .ca ⟨⟨Octets.ofAscii "rsync://example.net/repo/", rfl⟩,
    ⟨Octets.ofAscii "rsync://example.com/other/a.cer", rfl⟩, none⟩
  ipResources := ⟨[.block .v4 (.ofPrefix ⟨.ofNat 1, 0⟩), .block .v6 (.ofRange ⟨.ofNat 2, .ofNat 1⟩)]⟩
  asResources := ⟨[.range ⟨.ofNat 7, .ofNat 7⟩]⟩
  subjectKey := ⟨List.replicate 20 0, rfl⟩
  authorityKey := none
  caIssuer := none
  crlUri := none
  expires := ⟨2208988800, 0, by decide⟩
  anchorNumber := 0
  certificate := none

/-- The record is restored from its own text although no part of it keeps its promise. -/
theorem broken_restored : ofJsonText? broken.jsonText = some broken ∧
    (∀ e ∈ broken.ipResources.entries, ¬e.KeepsPromise) ∧
    (∀ q, .range q ∈ broken.asResources.entries → ¬q.first.toNat < q.last.toNat) ∧
    ∀ p, broken.role = .ca p → Repository.make p.base p.manifest p.notification ≠ .ok p := by
  refine ⟨?_, fun e he => ?_, fun q hq => ?_, fun p hp => ?_⟩
  · have hexpires : Time.Rfc3339.read? (Time.Rfc3339.write broken.expires) = some broken.expires := by
      decide +kernel
    have hlengths : ∀ e ∈ broken.ipResources.entries, e.FitsJson := by
      simp [broken, IpEntry.FitsJson]
    rw [jsonText, toJson_eq_toJsonWith]
    exact ofJsonText?_toJsonWith ⟨hlengths, trivial⟩ hexpires
  · simp only [broken, List.mem_cons, List.not_mem_nil, or_false] at he
    rcases he with rfl | rfl
    · exact fun h => absurd (h.2 0 (by decide)) (by decide)
    · show ¬(Address.ofNat 2).value ≤ (Address.ofNat 1).value
      decide
  · simp only [broken, List.mem_singleton, AsEntry.range.injEq] at hq
    subst hq
    decide
  · rw [broken, Role.ca.injEq] at hp
    subst hp
    decide +kernel

end Record

end ResourcePki

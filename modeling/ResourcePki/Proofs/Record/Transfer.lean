import ResourcePki.Proofs.Record.Accepted
import ResourcePki.Proofs.Record.Transfer.Form
import ResourcePki.Proofs.Text
import ResourcePki.Proofs.Uri

/-!
Records survive being sent.

A record that has been accepted or restored has a meaning in the transfer form: it expires at a
whole second, its entries pass the checks of reading, and what belongs to its role can be put
together again. None of its texts is empty, so none of them is taken for one that is absent. For
such a record reading undoes writing, whatever follows, and gives the record without its decoded
certificate.
-/

namespace ResourcePki

open Transfer

/-! ### Texts -/

theorem PublicKey.toText_ofAscii_base64 (k : PublicKey) :
    Octets.toText (Octets.ofAscii k.base64) = k.base64 :=
  Octets.toText_ofAscii fun _ => Base64.toNat_lt_of_mem_encode

theorem PublicKey.IsWhole.ofBase64?_base64 {k : PublicKey} (h : k.IsWhole) :
    ofBase64? (Octets.toText (Octets.ofAscii k.base64)) = some k := by
  rw [k.toText_ofAscii_base64, base64, Base64.text, ofBase64?, String.toList_ofList, Base64.decode?_encode]
  simp [h.ofDer_encoding, Except.toOption]

theorem PublicKey.isWhole_of_ofBase64? {s : String} {k : PublicKey} (h : ofBase64? s = some k) :
    k.IsWhole := by
  obtain ⟨bs, -, h⟩ := Option.bind_eq_some_iff.mp h
  exact isWhole_of_ofDer (toOption_eq_some.mp h)

/-- The text of a key is not empty, since there is no key with an empty text. -/
theorem PublicKey.IsWhole.base64_ne_nil {k : PublicKey} (h : k.IsWhole) :
    Octets.ofAscii k.base64 ≠ [] := by
  intro hnil
  have hempty : ofBase64? (Octets.toText []) = none := rfl
  rw [← hnil, h.ofBase64?_base64] at hempty
  simp at hempty

namespace Transfer.Form

theorem keyText_ne_nil (k : KeyIdentifier) : keyText k ≠ [] := by
  intro hnil
  have hempty : KeyIdentifier.ofText? (Octets.toText []) = none := rfl
  rw [← hnil, keyText, k.ofText?_text] at hempty
  simp at hempty

theorem rsyncOf_octets (u : RsyncUri) : rsyncOf u.octets = .ok u := by
  rw [rsyncOf, u.ofOctets_octets]
  rfl

theorem httpsOf_octets (u : HttpsUri) : httpsOf u.octets = .ok u := by
  rw [httpsOf, u.ofOctets_octets]
  rfl

theorem keyOf_keyText (k : KeyIdentifier) : keyOf (keyText k) = .ok k := by
  rw [keyOf, keyText, k.ofText?_text]

theorem map_ne_nil {α : Type} {write : α → Octets} {o : Option α} (h : ∀ a ∈ o, write a ≠ []) :
    ∀ bs ∈ o.map write, bs ≠ [] := by
  intro bs hbs
  obtain ⟨a, ha, rfl⟩ := Option.map_eq_some_iff.mp hbs
  exact h a ha

theorem mapM_map {α : Type} {write : α → Octets} {read : Octets → Except RecordFault α}
    (h : ∀ a, read (write a) = .ok a) (o : Option α) : (o.map write).mapM read = .ok o := by
  cases o with
  | none => rfl
  | some a =>
    rw [Option.map_some, Option.mapM_some, h]
    rfl

end Transfer.Form

/-! ### Records -/

/-- What belongs to a role can be put together again: the places of a CA belong together, and the
    key of a router is all of its encoding. -/
def Role.HasMeaning : Role → Prop
  | .ca p => Repository.make p.base p.manifest p.notification = .ok p
  | .router key => key.IsWhole

theorem Role.HasMeaning.isWhole {role : Role} (h : role.HasMeaning) :
    ∀ key ∈ role.routerKey?, key.IsWhole := by
  intro key hkey
  cases role with
  | ca p => simp [routerKey?] at hkey
  | router k => exact Option.some.inj hkey ▸ h

namespace Record

/-- The record has a meaning in the transfer form. -/
structure HasMeaning (r : Record) : Prop where
  expires : r.expires.nanos = 0
  ip : ∀ e ∈ r.ipResources.entries, e.HasForm
  as : ∀ e ∈ r.asResources.entries, e.HasForm
  role : r.role.HasMeaning

variable {r : Record}

/-- No text that is sent is empty, since nothing that it is read as has an empty text. -/
theorem HasMeaning.ofRecord (h : r.HasMeaning) : (Form.ofRecord r).HasMeaning := by
  refine ⟨h.expires, h.ip, h.as, ?_⟩
  simp only [Form.texts, List.forall_mem_cons, List.not_mem_nil, false_implies, implies_true,
    and_true]
  exact ⟨Form.map_ne_nil fun p _ => p.manifest.octets_ne_nil,
    Form.map_ne_nil fun u _ => u.octets_ne_nil,
    Form.map_ne_nil fun p _ => p.base.octets_ne_nil,
    Form.map_ne_nil fun u _ => u.octets_ne_nil,
    Form.map_ne_nil fun u _ => u.octets_ne_nil,
    Form.map_ne_nil fun k _ => Form.keyText_ne_nil k,
    Form.map_ne_nil (o := some r.subjectKey) fun k _ => Form.keyText_ne_nil k,
    Form.map_ne_nil fun key hkey => (h.role.isWhole key hkey).base64_ne_nil⟩

/-- The places of a CA are put together again. -/
theorem caRole_ofRecord {p : Repository} (h : r.HasMeaning) (hrole : r.role = .ca p) :
    (Form.ofRecord r).caRole = .ok r.role := by
  have hmake : Repository.make p.base p.manifest p.notification = .ok p := by
    have := h.role
    rwa [hrole] at this
  simp only [Form.caRole, Form.ofRecord, hrole, Role.repository?, Option.map_some,
    Option.bind_some, Form.rsyncOf_octets, Form.mapM_map Form.httpsOf_octets]
  refine bind_eq_ok.mpr ⟨_, rfl, bind_eq_ok.mpr ⟨_, rfl, bind_eq_ok.mpr ⟨_, rfl, ?_⟩⟩⟩
  rw [hmake]
  rfl

theorem routerRole_ofRecord {key : PublicKey} (h : r.HasMeaning) (hrole : r.role = .router key) :
    (Form.ofRecord r).routerRole = .ok r.role := by
  have hkey := h.role.isWhole key (by rw [hrole]; rfl)
  simp only [Form.routerRole, Form.ofRecord, hrole, Role.routerKey?, Option.map_some,
    hkey.ofBase64?_base64]

/-- What is sent of a record is understood as the record without its decoded certificate. -/
theorem record_ofRecord (h : r.HasMeaning) :
    (Form.ofRecord r).record = .ok r.withoutCertificate := by
  have hpurpose : (Form.ofRecord r).purpose = r.role.purpose := rfl
  have hsubject : (Form.ofRecord r).subjectKey = some (Form.keyText r.subjectKey) := rfl
  have hauthority := Form.mapM_map Form.keyOf_keyText r.authorityKey
  have hissuer := Form.mapM_map Form.rsyncOf_octets r.caIssuer
  have hcrl := Form.mapM_map Form.rsyncOf_octets r.crlUri
  unfold Form.record
  rw [hsubject, hpurpose]
  dsimp only
  rw [Form.keyOf_keyText]
  refine bind_eq_ok.mpr ⟨_, rfl, ?_⟩
  cases hrole : r.role with
  | ca p =>
    refine bind_eq_ok.mpr ⟨_, caRole_ofRecord h hrole, bind_eq_ok.mpr ⟨_, hauthority, ?_⟩⟩
    exact bind_eq_ok.mpr ⟨_, hissuer, bind_eq_ok.mpr ⟨_, hcrl, rfl⟩⟩
  | router key =>
    refine bind_eq_ok.mpr ⟨_, routerRole_ofRecord h hrole, bind_eq_ok.mpr ⟨_, hauthority, ?_⟩⟩
    exact bind_eq_ok.mpr ⟨_, hissuer, bind_eq_ok.mpr ⟨_, hcrl, rfl⟩⟩

/-- For a record with a meaning, whose counts and lengths fit, reading undoes writing. -/
theorem takes_toTransfer (h : r.HasMeaning) (hfits : (Form.ofRecord r).Fits) :
    Takes readTransfer r.toTransfer r.withoutCertificate := by
  intro rest
  rw [readTransfer, toTransfer, (Form.takes_read hfits h.ofRecord).run_bind, record_ofRecord h]
  rfl

/-! ### Where records come from -/

theorem hasMeaning_of_ofDer {options : DecodeOptions} {bs : Octets} {r : Record}
    (h : ofDer options bs = .ok r) : r.HasMeaning := by
  obtain ⟨c, f, -, hc, hr⟩ := of_ofDer h
  have hsum := Findings.sum_of_ofExtensions hr.found
  have hprofile := hr.keepsProfile hc
  refine ⟨by rw [hr.expires]; exact hc.notAfter.whole, fun e he => ?_, fun e he => ?_, ?_⟩
  · rw [hr.ipResources] at he
    cases e with
    | inherit family => trivial
    | block family b => exact IpEntry.IsProper.hasForm (hsum.ip.blocks family b he)
  · rw [hr.asResources] at he
    exact (hsum.as.entries e he).hasForm
  · cases hrole : r.role with
    | ca p =>
      obtain ⟨-, ⟨e, -, -, he⟩, -⟩ := hprofile.ca p hrole
      exact Repository.make_of_ofExtension he
    | router key =>
      obtain ⟨-, rfl, -⟩ := hprofile.router key hrole
      exact hc.key

end Record

namespace Transfer.Form

theorem hasMeaning_of_caRole {f : Form} {role : Role} (h : f.caRole = .ok role) :
    role.HasMeaning := by
  unfold caRole at h
  split at h
  · obtain ⟨base, -, h⟩ := bind_eq_ok.mp h
    obtain ⟨manifest, -, h⟩ := bind_eq_ok.mp h
    obtain ⟨notification, -, h⟩ := bind_eq_ok.mp h
    split at h
    · rename_i p hp
      obtain ⟨-, -, rfl⟩ := Repository.make_eq_ok.mp hp
      exact pure_eq_ok.mp h ▸ hp
    · exact absurd h throw_ne_ok
  · simp at h

theorem hasMeaning_of_routerRole {f : Form} {role : Role} (h : f.routerRole = .ok role) :
    role.HasMeaning := by
  unfold routerRole at h
  split at h
  · simp at h
  · split at h
    · rename_i key hkey
      rw [Except.ok.injEq] at h
      exact h ▸ PublicKey.isWhole_of_ofBase64? hkey
    · simp at h

/-- Whatever a form is understood as has the role and the resources that the form has, and no
    decoded certificate. -/
theorem of_record {f : Form} {r : Record} (h : f.record = .ok r) :
    r.expires = f.expires ∧ r.ipResources = f.ipResources ∧ r.asResources = f.asResources ∧
      r.role.HasMeaning ∧ r.certificate = none := by
  unfold record at h
  split at h
  · exact absurd h throw_ne_ok
  · obtain ⟨subjectKey, -, h⟩ := bind_eq_ok.mp h
    dsimp only at h
    split at h
    all_goals
      obtain ⟨role, hrole, h⟩ := bind_eq_ok.mp h
      obtain ⟨authorityKey, -, h⟩ := bind_eq_ok.mp h
      obtain ⟨caIssuer, -, h⟩ := bind_eq_ok.mp h
      obtain ⟨crlUri, -, h⟩ := bind_eq_ok.mp h
    · exact pure_eq_ok.mp h ▸ ⟨rfl, rfl, rfl, hasMeaning_of_caRole hrole, rfl⟩
    · exact pure_eq_ok.mp h ▸ ⟨rfl, rfl, rfl, hasMeaning_of_routerRole hrole, rfl⟩

end Transfer.Form

namespace Record

theorem hasMeaning_of_ofTransfer {bs rest : Octets} {r : Record}
    (h : ofTransfer bs = .ok (r, rest)) : r.HasMeaning := by
  have hr : Ensures readTransfer HasMeaning := by
    refine Form.ensures_read.bind fun f ⟨hexpires, hip, has⟩ => ensures_orFault fun r hr => ?_
    obtain ⟨he, hi, ha, hrole, -⟩ := Form.of_record hr
    exact ⟨he ▸ hexpires, hi ▸ hip, ha ▸ has, hrole⟩
  exact hr _ _ _ h

/-- A certificate is not sent along. -/
theorem certificate_of_ofTransfer {bs rest : Octets} {r : Record}
    (h : ofTransfer bs = .ok (r, rest)) : r.certificate = none := by
  have hr : Ensures readTransfer fun r => r.certificate = none := by
    refine Ensures.bind_any fun f => ensures_orFault fun r hr => ?_
    obtain ⟨-, -, -, -, hnone⟩ := Form.of_record hr
    exact hnone
  exact hr _ _ _ h

/-- The records there are: those of accepted certificates, those that have been restored, and any
    of them under another trust anchor. -/
inductive IsObtained : Record → Prop where
  | decoded {options : DecodeOptions} {bs : Octets} {r : Record} (h : ofDer options bs = .ok r) :
    IsObtained r
  | restored {bs rest : Octets} {r : Record} (h : ofTransfer bs = .ok (r, rest)) : IsObtained r
  | underAnchor {r : Record} (h : IsObtained r) (number : UInt32) :
    IsObtained (r.underAnchor number)

theorem IsObtained.hasMeaning {r : Record} (h : r.IsObtained) : r.HasMeaning := by
  induction h with
  | decoded h => exact hasMeaning_of_ofDer h
  | restored h => exact hasMeaning_of_ofTransfer h
  | underAnchor _ number ih => exact ⟨ih.expires, ih.ip, ih.as, ih.role⟩

/-- Whatever follows it, a record that has been sent is restored without its decoded certificate,
    and is sent as the same octets again. -/
theorem ofTransfer_toTransfer {r : Record} (h : r.IsObtained) (hfits : (Form.ofRecord r).Fits)
    (rest : Octets) :
    ofTransfer (r.toTransfer ++ rest) = .ok (r.withoutCertificate, rest) ∧
      r.withoutCertificate.toTransfer = r.toTransfer :=
  ⟨takes_toTransfer h.hasMeaning hfits rest, rfl⟩

theorem ofTransfer_toTransfer_sample : ∃ r, ofDer {} sample = .ok r ∧
    ofTransfer (r.toTransfer ++ [1, 2]) = .ok (r.withoutCertificate, [1, 2]) ∧
      r.withoutCertificate.toTransfer = r.toTransfer := by
  have hfits : (ofDer {} sample).toOption.any (fun r => (Form.ofRecord r).Fits) = true := by
    decide +kernel
  obtain ⟨r, hr⟩ := exists_ofDer_sample
  rw [hr] at hfits
  exact ⟨r, hr, ofTransfer_toTransfer (.decoded hr) (of_decide_eq_true hfits) [1, 2]⟩

end Record

end ResourcePki

import ResourcePki.Proofs.Record.Findings

/-!
What holds of every accepted certificate.

What a certificate is for is known only after its extensions have been gone through, so the rules on
a role follow from the findings together with the role that was chosen. `Record.of_ofDer` sums up
all of it: an accepted certificate has been decoded, and its record is made of its extensions, its
fields and its role. From this it has kept the rules of the profile and has proper resources.
-/

namespace ResourcePki

open Der

/-! ### Roles -/

namespace Record

/-- What a role asks of the findings: a CA has what it publishes and what it holds, a router has a
    key of the right kind and neither publishes nor holds addresses. -/
def FitsRole (c : Certificate) (f : Findings) : Role → Prop
  | .ca repository => c.purpose = .ok .ca ∧ f.repository = some repository ∧
      (f.ipResources.entries ≠ [] ∨ f.asResources.entries ≠ [])
  | .router key => c.purpose = .ok .router ∧ key = c.publicKey ∧ key.isRouterKey = true ∧
      f.repository = none ∧ f.ipResources.entries = []

theorem fitsRole_of_caRole {c : Certificate} {f : Findings} {role : Role}
    (hpurpose : c.purpose = .ok .ca) (h : f.caRole = .ok role) : FitsRole c f role := by
  unfold Findings.caRole at h
  split at h
  · simp at h
  · rename_i repository hrepository
    split at h
    · simp at h
    · rename_i hsome
      rw [Except.ok.injEq] at h
      subst h
      refine ⟨hpurpose, hrepository, ?_⟩
      simpa [IpResources.isEmpty, AsResources.isEmpty, Decidable.imp_iff_not_or] using hsome

theorem fitsRole_of_routerRole {c : Certificate} {f : Findings} {role : Role}
    (hpurpose : c.purpose = .ok .router) (hkey : c.publicKey.isRouterKey = true)
    (h : f.routerRole c.publicKey = .ok role) : FitsRole c f role := by
  unfold Findings.routerRole at h
  split at h
  · simp at h
  · rename_i hip
    split at h
    · simp at h
    · rename_i hsia
      rw [Except.ok.injEq] at h
      subst h
      refine ⟨hpurpose, rfl, hkey, by simpa using hsia, ?_⟩
      simpa [IpResources.isEmpty] using hip

/-- Whatever role is given fits. -/
theorem fitsRole_of_roleOf {c : Certificate} {f : Findings} {role : Role}
    (h : roleOf c f = .ok role) : FitsRole c f role := by
  obtain ⟨purpose, hpurpose, h⟩ := bind_eq_ok.mp h
  cases purpose with
  | ca => exact fitsRole_of_caRole hpurpose (lift_inspection_eq_ok.mp h)
  | router =>
    obtain ⟨key, hkey, h⟩ := bind_eq_ok.mp h
    rw [lift_inspection_eq_ok] at hkey h
    unfold Certificate.routerKey at hkey
    split at hkey
    · rename_i hrouter
      rw [Except.ok.injEq] at hkey
      exact fitsRole_of_routerRole hpurpose hrouter (hkey ▸ h)
    · simp at hkey

/-- In strict mode a router is named by its key. -/
theorem identifier_of_checkRouterName {options : DecodeOptions} {key : PublicKey}
    {ski : KeyIdentifier} (h : checkRouterName options (.router key) ski = .ok ())
    (hstrict : options.strict = true) : ski = key.identifier := by
  unfold checkRouterName at h
  dsimp only at h
  split at h
  · simp at h
  · rename_i hname
    simp only [hstrict, true_and, Decidable.not_not] at hname
    exact hname.symm

/-! ### Records -/

/-- What the record of a certificate is made of, with what has been found in the extensions. -/
structure IsMadeOf (options : DecodeOptions) (c : Certificate) (f : Findings) (r : Record) :
    Prop where
  found : Findings.ofExtensions options c.extensions = .ok f
  role : roleOf c f = .ok r.role
  name : checkRouterName options r.role r.subjectKey = .ok ()
  ipResources : r.ipResources = f.ipResources
  asResources : r.asResources = f.asResources
  subjectKey : c.subjectKeyIdentifier? = .ok (some r.subjectKey)
  authorityKey : c.authorityKeyIdentifier? = .ok r.authorityKey
  caIssuer : c.caIssuer? = .ok r.caIssuer
  crlUri : c.crlUri? = .ok r.crlUri
  expires : r.expires = c.validity.notAfter
  certificate : r.certificate = some c

/-- A certificate is accepted iff all parts of the record are there. -/
theorem ofCertificate_eq_ok {options : DecodeOptions} {c : Certificate} {r : Record} :
    ofCertificate options c = .ok r ↔ r.anchorNumber = 0 ∧ ∃ f, IsMadeOf options c f r := by
  constructor
  · intro h
    obtain ⟨f, hf, h⟩ := bind_eq_ok.mp h
    obtain ⟨authorityKey, hauthority, h⟩ := bind_eq_ok.mp h
    obtain ⟨subjectKey?, hsubject, h⟩ := bind_eq_ok.mp h
    obtain ⟨caIssuer, hissuer, h⟩ := bind_eq_ok.mp h
    obtain ⟨crlUri, hcrl, h⟩ := bind_eq_ok.mp h
    obtain ⟨role, hrole, h⟩ := bind_eq_ok.mp h
    cases subjectKey? with
    | none => exact absurd h throw_ne_ok
    | some subjectKey =>
      obtain ⟨u, hname, h⟩ := bind_eq_ok.mp h
      rw [lift_inspection_eq_ok] at hname
      rw [pure_eq_ok] at h
      subst h
      exact ⟨rfl, f, hf, hrole, hname, rfl, rfl, hsubject, hauthority, hissuer, hcrl, rfl, rfl⟩
  · rintro ⟨hnumber, f, h⟩
    refine bind_eq_ok.mpr ⟨f, h.found, bind_eq_ok.mpr ⟨_, h.authorityKey, bind_eq_ok.mpr
      ⟨_, h.subjectKey, bind_eq_ok.mpr ⟨_, h.caIssuer, bind_eq_ok.mpr ⟨_, h.crlUri,
      bind_eq_ok.mpr ⟨_, h.role, bind_eq_ok.mpr ⟨(), lift_inspection_eq_ok.mpr h.name, ?_⟩⟩⟩⟩⟩⟩⟩
    rw [pure_eq_ok, ← h.ipResources, ← h.asResources, ← h.expires, ← h.certificate, ← hnumber]

/-- What has been kept of a certificate follows the rules of the profile. -/
structure KeepsProfile (options : DecodeOptions) (c : Certificate) (r : Record) : Prop where
  ca : ∀ repository, r.role = .ca repository → c.purpose = .ok .ca ∧
    (∃ e, c.extension? ObjectId.subjectInfoAccess = some e ∧ e.critical = false ∧
      Repository.ofExtension e = .ok repository) ∧
    repository.base.octets <+: repository.manifest.octets ∧
    repository.manifest.fileType? = some .mft ∧
    (r.ipResources.entries ≠ [] ∨ r.asResources.entries ≠ [])
  router : ∀ key, r.role = .router key → c.purpose = .ok .router ∧ key = c.publicKey ∧
    key.isRouterKey = true ∧ c.extension? ObjectId.subjectInfoAccess = none ∧
    r.ipResources.entries = [] ∧
    (options.strict = true → r.subjectKey.octets = Sha1.digest key.bits.octets)
  /-- Extensions with resources or policies are critical. -/
  critical : ∀ e ∈ c.extensions, e.id ∈ [ObjectId.ipAddressBlocks, ObjectId.autonomousSystemIds,
    ObjectId.certificatePolicies] → e.critical = true
  /-- Extensions that name keys and places are not. -/
  nonCritical : ∀ e ∈ c.extensions, e.id ∈ [ObjectId.subjectKeyIdentifier,
    ObjectId.authorityKeyIdentifier, ObjectId.authorityInfoAccess, ObjectId.crlDistributionPoints,
    ObjectId.subjectInfoAccess] → e.critical = false
  subjectKey : Extension.Carry c.extensions ObjectId.subjectKeyIdentifier
    (fun k e => k.encode <+: e.value) (some r.subjectKey)
  authorityKey : Extension.Carry c.extensions ObjectId.authorityKeyIdentifier
    (fun k e => k.authorityValue <+: e.value) r.authorityKey
  caIssuer : Extension.Carry c.extensions ObjectId.authorityInfoAccess
    (fun u e => u.issuerValue <+: e.value) r.caIssuer
  crlUri : Extension.Carry c.extensions ObjectId.crlDistributionPoints
    (fun u e => u.IsCrlIn e.value) r.crlUri
  expires : r.expires = c.validity.notAfter

/-- Where a certificate has no other extension of a kind, what its findings carry of it is found
    there. -/
theorem extension?_of_carry {α : Type} {c : Certificate} (hc : c.IsDecoded) {id : ObjectId}
    {P : α → Extension → Prop} {a : α} (h : Extension.Carry c.extensions id P (some a)) :
    ∃ e, c.extension? id = some e ∧ e.critical = false ∧ P a e := by
  obtain ⟨e, he, rfl, hopen, hP⟩ := h
  exact ⟨e, hc.extension?_eq he, hopen, hP⟩

theorem IsMadeOf.keepsProfile {options : DecodeOptions} {c : Certificate} {f : Findings}
    {r : Record} (hc : c.IsDecoded) (hr : IsMadeOf options c f r) : KeepsProfile options c r := by
  have hsum := Findings.sum_of_ofExtensions hr.found
  have hrole := fitsRole_of_roleOf hr.role
  have hsubject := Certificate.carries_subjectKey hr.subjectKey
  have hauthority := Certificate.carries_authorityKey hr.authorityKey
  have hissuer := Certificate.carries_caIssuer hr.caIssuer
  have hcrl := Certificate.carries_crlUri hr.crlUri
  refine ⟨fun repository hca => ?_, fun key hrouter => ?_, hsum.critical, ?_, hsubject,
    hauthority, hissuer, hcrl, hr.expires⟩
  · rw [hca] at hrole
    obtain ⟨hpurpose, hrepository, hresources⟩ := hrole
    have hsia := hsum.repository
    rw [hrepository] at hsia
    obtain ⟨e, he, hopen, hread⟩ := extension?_of_carry hc hsia
    obtain ⟨hbase, hmanifest, -⟩ := Repository.make_eq_ok.mp (Repository.make_of_ofExtension hread)
    rw [← hr.ipResources, ← hr.asResources] at hresources
    exact ⟨hpurpose, ⟨e, he, hopen, hread⟩, hbase, hmanifest, hresources⟩
  · rw [hrouter] at hrole
    obtain ⟨hpurpose, hkey, hkind, hrepository, hip⟩ := hrole
    have hsia := hsum.repository
    rw [hrepository] at hsia
    refine ⟨hpurpose, hkey, hkind, ?_, hr.ipResources ▸ hip, fun hstrict => ?_⟩
    · exact List.find?_eq_none.mpr fun e he => by simpa using hsia e he
    · have hname : checkRouterName options (.router key) r.subjectKey = .ok () := hrouter ▸ hr.name
      exact congrArg KeyIdentifier.octets (identifier_of_checkRouterName hname hstrict)
  · -- each of the kinds is one of those that the record is made of
    intro e he hid
    simp only [List.mem_cons, List.not_mem_nil, or_false] at hid
    obtain hid | hid | hid | hid | hid := hid
    · exact hsubject.critical_eq_false hc.distinct e he hid
    · exact hauthority.critical_eq_false hc.distinct e he hid
    · exact hissuer.critical_eq_false hc.distinct e he hid
    · exact hcrl.critical_eq_false hc.distinct e he hid
    · exact hsum.repository.critical_eq_false hc.distinct e he hid

/-- An accepted certificate has been decoded, and its record is made of it. -/
theorem of_ofDer {options : DecodeOptions} {bs : Octets} {r : Record}
    (h : ofDer options bs = .ok r) :
    ∃ c f, Certificate.ofDer bs = .ok c ∧ c.IsDecoded ∧ IsMadeOf options c f r := by
  obtain ⟨c, hc, hr⟩ := bind_eq_ok.mp h
  rw [lift_decoding_eq_ok] at hc
  obtain ⟨-, f, hf⟩ := ofCertificate_eq_ok.mp hr
  exact ⟨c, f, hc, Certificate.isDecoded_of_ofDer hc, hf⟩

/-- The resources of an accepted certificate are proper, within the limits that were chosen. -/
theorem resources_proper_of_ofDer {options : DecodeOptions} {bs : Octets} {r : Record}
    (h : ofDer options bs = .ok r) :
    r.ipResources.IsProper options.maxIp ∧ r.asResources.IsProper options.maxAs := by
  obtain ⟨c, f, -, -, hr⟩ := of_ofDer h
  have hsum := Findings.sum_of_ofExtensions hr.found
  rw [hr.ipResources, hr.asResources]
  exact ⟨hsum.ip, hsum.as⟩

/-- The encoding of a certificate of a CA. It holds two blocks of addresses, in two parts of one
    family, and one AS number. -/
def sample : Octets :=
  let algorithm := sequenceValue (objectIdValue ObjectId.ecPublicKey)
  let time := value Tag.utcTime (Octets.ofAscii "250101000000Z")
  let location (method : ObjectId) (uri : String) :=
    sequenceValue (objectIdValue method ++ value (Tag.context 6) (Octets.ofAscii uri))
  let block (b : UInt8) :=
    sequenceValue (Family.v4.encode ++ sequenceValue (bitStringValue ⟨0, [b]⟩))
  let extensions : List Extension := [
    ⟨ObjectId.basicConstraints, true, sequenceValue trueValue⟩,
    ⟨ObjectId.subjectKeyIdentifier, false, octetStringValue (List.replicate 20 7)⟩,
    ⟨ObjectId.subjectInfoAccess, false, sequenceValue (
      location ObjectId.caRepository "rsync://host/module/" ++
      location ObjectId.manifest "rsync://host/module/ca.mft")⟩,
    ⟨ObjectId.ipAddressBlocks, true, sequenceValue (block 10 ++ block 11)⟩,
    ⟨ObjectId.autonomousSystemIds, true, sequenceValue (constructedValue (Tag.context 0)
      (sequenceValue (unsignedValue 64496)))⟩]
  let signedPart := sequenceValue (
    constructedValue (Tag.context 0) (unsignedValue 2) ++ unsignedValue 1 ++ algorithm ++
    sequenceValue [] ++ sequenceValue (time ++ time) ++ sequenceValue [] ++
    sequenceValue (algorithm ++ bitStringValue ⟨0, [4]⟩) ++
    constructedValue (Tag.context 3) (Extension.encodeList extensions))
  sequenceValue (signedPart ++ algorithm ++ bitStringValue ⟨0, []⟩)

theorem exists_ofDer_sample : ∃ r, ofDer {} sample = .ok r := by
  have h : (ofDer {} sample).isOk = true := by decide +kernel
  cases hr : ofDer {} sample with
  | ok r => exact ⟨r, rfl⟩
  | error e => simp [hr, Except.isOk, Except.toBool] at h

theorem sample_resources_proper : ∃ r, ofDer {} sample = .ok r ∧
    r.ipResources.IsProper 200000 ∧ r.asResources.IsProper 200000 := by
  obtain ⟨r, hr⟩ := exists_ofDer_sample
  exact ⟨r, hr, resources_proper_of_ofDer hr⟩

/-- The encoding of a certificate of a router that has been issued by somebody else. Its key is
    named by the digest of its bits. It holds three AS numbers in two entries, the last two of all
    numbers among them. -/
def sampleRouter : Octets :=
  let algorithm := sequenceValue (objectIdValue ObjectId.ecPublicKey)
  let time := value Tag.utcTime (Octets.ofAscii "250101000000Z")
  let place := value (Tag.context 6) (Octets.ofAscii "rsync://host/module/ca")
  let bits : Octets := 4 :: List.replicate 64 1
  let digest : Octets := [0x00, 0x94, 0x85, 0x1e, 0x91, 0x88, 0x8e, 0x95, 0x11, 0x59, 0x29,
    0x9c, 0x12, 0x8a, 0xd4, 0x70, 0x8f, 0x0b, 0xa8, 0x40]
  let named (content : Octets) := constructedValue (Tag.context 0) content
  let extensions : List Extension := [
    ⟨ObjectId.subjectKeyIdentifier, false, octetStringValue digest⟩,
    ⟨ObjectId.authorityKeyIdentifier, false,
      sequenceValue (value (Tag.context 0) (List.replicate 20 8))⟩,
    ⟨ObjectId.extendedKeyUsage, false, sequenceValue (objectIdValue ObjectId.routerPurpose)⟩,
    ⟨ObjectId.authorityInfoAccess, false,
      sequenceValue (sequenceValue (objectIdValue ObjectId.caIssuers ++ place))⟩,
    ⟨ObjectId.crlDistributionPoints, false, sequenceValue (sequenceValue (named (named place)))⟩,
    ⟨ObjectId.autonomousSystemIds, true, sequenceValue (named (sequenceValue (
      unsignedValue 64496 ++
      sequenceValue (unsignedValue 4294967294 ++ unsignedValue 4294967295))))⟩]
  let signedPart := sequenceValue (
    named (unsignedValue 2) ++ unsignedValue 1 ++ algorithm ++
    sequenceValue [] ++ sequenceValue (time ++ time) ++ sequenceValue [] ++
    sequenceValue (sequenceValue (objectIdValue ObjectId.ecPublicKey ++ objectIdValue ObjectId.p256)
      ++ bitStringValue ⟨0, bits⟩) ++
    constructedValue (Tag.context 3) (Extension.encodeList extensions))
  sequenceValue (signedPart ++ algorithm ++ bitStringValue ⟨0, []⟩)

/-- The sample is accepted as that of a router, in strict mode with the same record. -/
theorem exists_ofDer_sampleRouter : ∃ r key, ofDer {} sampleRouter = .ok r ∧
    ofDer { strict := true } sampleRouter = .ok r ∧ r.role = .router key ∧
    r.asResources.entries = [.single ⟨64496⟩, .range ⟨⟨4294967294⟩, ⟨4294967295⟩⟩] := by
  have hsame : (ofDer { strict := true } sampleRouter).toOption =
      (ofDer {} sampleRouter).toOption := by
    decide +kernel
  have hsample : (ofDer {} sampleRouter).toOption.any (fun r => r.role.routerKey?.isSome ∧
      r.asResources.entries = [.single ⟨64496⟩, .range ⟨⟨4294967294⟩, ⟨4294967295⟩⟩]) = true := by
    decide +kernel
  cases hr : ofDer {} sampleRouter with
  | error e => simp [hr, Except.toOption] at hsample
  | ok r =>
    rw [hr] at hsame hsample
    obtain ⟨hkey, hentries⟩ := of_decide_eq_true hsample
    cases hstrict : ofDer { strict := true } sampleRouter with
    | error e => simp [hstrict, Except.toOption] at hsame
    | ok r' =>
      rw [hstrict] at hsame
      obtain rfl := Option.some.inj hsame
      cases hrole : r'.role with
      | ca p => simp [hrole, Role.routerKey?] at hkey
      | router key => exact ⟨r', key, rfl, rfl, hrole, hentries⟩

end Record

end ResourcePki

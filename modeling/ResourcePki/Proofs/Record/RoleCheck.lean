import ResourcePki.Proofs.Record.Transfer
import ResourcePki.Record.RoleCheck

/-!
Where in the tree a certificate can stand.

Each of the two checks goes through its conditions one after the other and gives the record as it is
if all of them hold. What the record says of the key of its issuer decides between the two: an
issued certificate has to name another key than its own, and a trust anchor must not. So no record
passes both, whatever the key and the time. The decoded certificate is needed for its key and its
period, so a record that has been sent is never taken for a trust anchor.
-/

namespace ResourcePki

/-! ### Pieces -/

/-- Both ends of a period belong to it. -/
theorem Validity.check_eq_ok {v : Validity} {now : Time} :
    v.check now = .ok () ↔ v.notBefore ≤ now ∧ now ≤ v.notAfter := by
  rw [← Time.not_before_iff, ← Time.not_before_iff, check]
  cases now.before v.notBefore <;> cases v.notAfter.before now <;> simp

theorem Role.purpose_ne_router {role : Role} :
    role.purpose ≠ .router ↔ ∃ repository, role = .ca repository := by
  cases role <;> simp [purpose]

namespace Record

variable {r : Record} {key : Octets} {now : Time}

/-! ### Issued certificates -/

/-- The record says of its issuer what an issued certificate has to say. -/
structure IsIssued (r : Record) : Prop where
  authorityKey : ∃ k, r.authorityKey = some k ∧ k ≠ r.subjectKey
  caIssuer : ∃ u, r.caIssuer = some u
  crlUri : ∃ u, r.crlUri = some u

theorem checkIssued_eq_ok : r.checkIssued = .ok () ↔ r.IsIssued := by
  unfold checkIssued
  cases hkey : r.authorityKey with
  | none =>
    refine ⟨fun h => by simp at h, fun h => ?_⟩
    obtain ⟨k, hk, -⟩ := h.authorityKey
    simp [hkey] at hk
  | some k =>
    simp only [ite_error_eq_ok, Option.isNone_iff_eq_none, and_true]
    constructor
    · rintro ⟨hother, hissuer, hcrl⟩
      exact ⟨⟨k, hkey, hother⟩, Option.ne_none_iff_exists'.mp hissuer,
        Option.ne_none_iff_exists'.mp hcrl⟩
    · rintro ⟨⟨k', hk', hother⟩, hissuer, hcrl⟩
      obtain rfl := Option.some.inj (hkey.symm.trans hk')
      exact ⟨hother, Option.ne_none_iff_exists'.mpr hissuer, Option.ne_none_iff_exists'.mpr hcrl⟩

theorem asIssued_eq_ok {r' : Record} : r.asIssued = .ok r' ↔ r' = r ∧ r.IsIssued := by
  rw [← checkIssued_eq_ok, asIssued, bind_eq_ok]
  simp only [lift_inspection_eq_ok, pure_eq_ok]
  constructor
  · rintro ⟨u, hu, rfl⟩
    exact ⟨rfl, hu⟩
  · rintro ⟨rfl, h⟩
    exact ⟨(), h, rfl⟩

/-! ### Trust anchors -/

/-- The certificate of the record is still there. It has the key with an encoding and is valid at a
    moment. -/
def HasKeyAt (r : Record) (key : Octets) (now : Time) : Prop :=
  ∃ k c, PublicKey.ofDer key = .ok k ∧ r.certificate = some c ∧ c.publicKey.isSameKey k = true ∧
    c.validity.notBefore ≤ now ∧ now ≤ c.validity.notAfter

/-- The record names no issuer but itself, and it is that of a CA with resources of its own. -/
structure IsSelfContained (r : Record) : Prop where
  authorityKey : ∀ k, r.authorityKey = some k → k = r.subjectKey
  caIssuer : r.caIssuer = none
  crlUri : r.crlUri = none
  role : ∃ repository, r.role = .ca repository
  ip : ∀ family, .inherit family ∉ r.ipResources.entries
  as : .inherit ∉ r.asResources.entries

theorem verifyAnchor_eq_ok : r.verifyAnchor key now = .ok () ↔ r.HasKeyAt key now := by
  unfold verifyAnchor HasKeyAt
  cases PublicKey.ofDer key with
  | error e => simp
  | ok k =>
    cases r.certificate with
    | none => simp
    | some c => simp [ite_error_eq_ok, mapError_eq_ok, Validity.check_eq_ok]

theorem inspectAnchor_eq_ok : r.inspectAnchor = .ok () ↔ r.IsSelfContained := by
  have hauthority : ¬r.authorityKey.any (· ≠ r.subjectKey) = true ↔
      ∀ k, r.authorityKey = some k → k = r.subjectKey := by
    cases r.authorityKey <;> simp
  simp only [inspectAnchor, ite_error_eq_ok, hauthority, Bool.or_eq_true, not_or,
    IpResources.hasInherit_iff, AsResources.isInherited_iff, not_exists, Role.purpose_ne_router,
    Bool.not_eq_true, Option.isSome_eq_false_iff, Option.isNone_iff_eq_none, and_true]
  constructor
  · rintro ⟨hkey, hissuer, hcrl, hrole, hip, has⟩
    exact ⟨hkey, hissuer, hcrl, hrole, hip, has⟩
  · rintro ⟨hkey, hissuer, hcrl, hrole, hip, has⟩
    exact ⟨hkey, hissuer, hcrl, hrole, hip, has⟩

theorem asAnchor_eq_ok {r' : Record} :
    r.asAnchor key now = .ok r' ↔ r' = r ∧ r.HasKeyAt key now ∧ r.IsSelfContained := by
  rw [← verifyAnchor_eq_ok, ← inspectAnchor_eq_ok, asAnchor, bind_eq_ok]
  simp only [bind_eq_ok, lift_inspection_eq_ok, pure_eq_ok]
  constructor
  · rintro ⟨u, hverify, v, hinspect, rfl⟩
    exact ⟨rfl, mapError_eq_ok.mp hverify, hinspect⟩
  · rintro ⟨rfl, hverify, hinspect⟩
    exact ⟨(), mapError_eq_ok.mpr hverify, (), hinspect, rfl⟩

/-! ### The place in the tree -/

/-- The two checks are exact, change nothing and exclude each other, and a record that has been sent
    does not pass the second. -/
theorem roleChecks_exact (r : Record) (key : Octets) (now : Time) :
    (∀ r', r.asIssued = .ok r' ↔ r' = r ∧ r.IsIssued) ∧
    (∀ r', r.asAnchor key now = .ok r' ↔ r' = r ∧ r.HasKeyAt key now ∧ r.IsSelfContained) ∧
    ¬((∃ r', r.asIssued = .ok r') ∧ ∃ r', r.asAnchor key now = .ok r') ∧
    ∀ bs rest, ofTransfer bs = .ok (r, rest) → ∀ r', r.asAnchor key now ≠ .ok r' := by
  refine ⟨fun r' => asIssued_eq_ok, fun r' => asAnchor_eq_ok, ?_, ?_⟩
  · rintro ⟨⟨r₁, hissued⟩, r₂, hanchor⟩
    obtain ⟨-, ⟨k, hk, hother⟩, -, -⟩ := asIssued_eq_ok.mp hissued
    obtain ⟨-, -, hself⟩ := asAnchor_eq_ok.mp hanchor
    exact hother (hself.authorityKey k hk)
  · intro bs rest hsent r' hanchor
    obtain ⟨-, ⟨k, c, -, hc, -⟩, -⟩ := asAnchor_eq_ok.mp hanchor
    rw [certificate_of_ofTransfer hsent] at hc
    exact Option.some_ne_none c hc.symm

/-- The router of the sample is fit to have been issued by a CA. -/
theorem asIssued_of_ofDer_sampleRouter {r : Record} (hr : ofDer {} sampleRouter = .ok r) :
    r.asIssued = .ok r := by
  have hsample : (ofDer {} sampleRouter).toOption.all (fun r => r.asIssued.isOk) = true := by
    decide +kernel
  simp only [hr, Except.toOption, Option.all_some] at hsample
  cases hresult : r.asIssued with
  | ok r' => rw [(asIssued_eq_ok.mp hresult).1]
  | error e => simp [hresult, Except.isOk, Except.toBool] at hsample

/-- The encoded key in the certificate of the sample. -/
def sampleKey : Octets :=
  Der.sequenceValue (Der.sequenceValue (Der.objectIdValue ObjectId.ecPublicKey) ++
    Der.bitStringValue ⟨0, [4]⟩)

/-- The only moment at which the certificate of the sample is valid. -/
def sampleTime : Time :=
  ⟨1735689600, 0, by decide⟩

/-- The sample is fit to be a trust anchor but not to have been issued, and is no longer fit to be
    one after it has been sent. -/
theorem roleChecks_exact_sample : ∃ r, ofDer {} sample = .ok r ∧
    r.asAnchor sampleKey sampleTime = .ok r ∧ (∀ r', r.asIssued ≠ .ok r') ∧
    ∀ r', r.withoutCertificate.asAnchor sampleKey sampleTime ≠ .ok r' := by
  have hsample : (ofDer {} sample).toOption.any (fun r =>
      (r.asAnchor sampleKey sampleTime).isOk && decide (Transfer.Form.ofRecord r).Fits) = true := by
    decide +kernel
  obtain ⟨r, hr⟩ := exists_ofDer_sample
  rw [hr] at hsample
  obtain ⟨hpassed, hfits⟩ := Bool.and_eq_true_iff.mp hsample
  obtain ⟨-, hexact, hexclusive, -⟩ := roleChecks_exact r sampleKey sampleTime
  have hanchor : r.asAnchor sampleKey sampleTime = .ok r := by
    cases hresult : r.asAnchor sampleKey sampleTime with
    | ok r' => rw [((hexact r').mp hresult).1]
    | error e => simp [hresult, Except.isOk, Except.toBool] at hpassed
  have hsent := takes_toTransfer (hasMeaning_of_ofDer hr) (of_decide_eq_true hfits) []
  obtain ⟨-, -, -, hrestored⟩ := roleChecks_exact r.withoutCertificate sampleKey sampleTime
  exact ⟨r, hr, hanchor, fun r' h => hexclusive ⟨⟨r', h⟩, r, hanchor⟩, hrestored _ _ hsent⟩

end Record

end ResourcePki

import ResourcePki.Proofs.Certificate.Fields
import ResourcePki.Proofs.Resources.As
import ResourcePki.Proofs.Resources.Ip
import ResourcePki.Record.Profile

/-!
What the extensions of an accepted certificate amount to.

The extensions are gone through once. What the findings say of the extensions seen so far is an
invariant of that pass: the resources are proper, the extensions that have to be critical are so,
and the repository is the one that an extension carries. Whatever an accepted extension is, adding
it keeps the invariant.
-/

namespace ResourcePki

open Der

/-! ### Repositories -/

namespace Repository

/-- Places belong together if the manifest begins with the repository and is a manifest. -/
theorem make_eq_ok {base manifest : RsyncUri} {notification : Option HttpsUri} {r : Repository} :
    make base manifest notification = .ok r ↔ base.octets <+: manifest.octets ∧
      manifest.fileType? = some .mft ∧ r = ⟨base, manifest, notification⟩ := by
  rw [← List.isPrefixOf_iff_prefix]
  unfold make RsyncUri.startsWith
  by_cases hbase : base.octets.isPrefixOf manifest.octets = true
  · by_cases hmanifest : manifest.fileType? = some .mft
    · simp [hbase, hmanifest, eq_comm]
    · simp [hbase, hmanifest]
  · simp [hbase]

/-- What is read of an extension passes the check again. -/
theorem make_of_ofExtension {e : Extension} {r : Repository} (h : ofExtension e = .ok r) :
    make r.base r.manifest r.notification = .ok r := by
  obtain ⟨-, h⟩ := Extension.requireNonCritical_bind_eq_ok.mp h
  obtain ⟨l, -, h⟩ := bind_eq_ok.mp h
  rw [lift_inspection_eq_ok] at h
  unfold ofLocations at h
  split at h
  · obtain ⟨-, -, rfl⟩ := make_eq_ok.mp h
    exact h
  · simp at h

end Repository

/-! ### Findings -/

namespace Extension

variable {α : Type} {es : List Extension} {id : ObjectId} {P : α → Extension → Prop}

/-- An extension of another kind does not matter. -/
theorem Carry.append_of_ne {e : Extension} (he : e.id ≠ id) :
    ∀ {o : Option α}, Carry es id P o → Carry (es ++ [e]) id P o
  | none, h => by
    intro f hf
    rcases List.mem_append.mp hf with hf | hf
    · exact h f hf
    · exact List.mem_singleton.mp hf ▸ he
  | some _, ⟨f, hf, hP⟩ => ⟨f, List.mem_append_left _ hf, hP⟩

end Extension

/-- The kinds of extensions that have to be critical. -/
def criticalKinds : List ObjectId :=
  [ObjectId.ipAddressBlocks, ObjectId.autonomousSystemIds, ObjectId.certificatePolicies]

namespace Findings

/-- What the findings say of the extensions that have been seen. -/
structure Sum (options : DecodeOptions) (seen : List Extension) (f : Findings) : Prop where
  ip : f.ipResources.IsProper options.maxIp
  as : f.asResources.IsProper options.maxAs
  critical : ∀ e ∈ seen, e.id ∈ criticalKinds → e.critical = true
  repository : Extension.Carry seen ObjectId.subjectInfoAccess
    (fun repository e => Repository.ofExtension e = .ok repository) f.repository

/-- What an extension that is accepted has to be, and what it adds. -/
theorem add_eq_ok {options : DecodeOptions} {f f' : Findings} {e : Extension}
    (h : f.add options e = .ok f') :
    (e.id = ObjectId.ipAddressBlocks ∧ e.critical = true ∧ ∃ r,
      e.decodeValue (IpResources.read options) = .ok r ∧ f' = { f with ipResources := r }) ∨
    (e.id = ObjectId.autonomousSystemIds ∧ e.critical = true ∧ ∃ r,
      e.decodeValue (AsResources.read options) = .ok r ∧ f' = { f with asResources := r }) ∨
    (e.id = ObjectId.subjectInfoAccess ∧ e.critical = false ∧ ∃ r,
      Repository.ofExtension e = .ok r ∧ f' = { f with repository := some r }) ∨
    (e.id = ObjectId.certificatePolicies ∧ e.critical = true ∧ f' = f) ∨
    (e.id ∉ criticalKinds ∧ e.id ≠ ObjectId.subjectInfoAccess ∧ f' = f) := by
  unfold add at h
  split at h
  · rename_i hid
    obtain ⟨r, hr, h⟩ := bind_eq_ok.mp h
    obtain ⟨hcritical, hvalue⟩ := Extension.requireCritical_bind_eq_ok.mp hr
    rw [lift_decoding_eq_ok] at hvalue
    exact Or.inl ⟨hid, hcritical, r, hvalue, (pure_eq_ok.mp h).symm⟩
  split at h
  · rename_i hid
    obtain ⟨r, hr, h⟩ := bind_eq_ok.mp h
    obtain ⟨hcritical, hvalue⟩ := Extension.requireCritical_bind_eq_ok.mp hr
    rw [lift_decoding_eq_ok] at hvalue
    exact Or.inr (Or.inl ⟨hid, hcritical, r, hvalue, (pure_eq_ok.mp h).symm⟩)
  split at h
  · rename_i hid
    obtain ⟨r, hr, h⟩ := bind_eq_ok.mp h
    obtain ⟨hopen, -⟩ := Extension.requireNonCritical_bind_eq_ok.mp hr
    exact Or.inr (Or.inr (Or.inl ⟨hid, hopen, r, hr, (pure_eq_ok.mp h).symm⟩))
  split at h
  · rename_i hid
    obtain ⟨p, hp, h⟩ := bind_eq_ok.mp h
    obtain ⟨hcritical, -⟩ := Extension.requireCritical_bind_eq_ok.mp hp
    exact Or.inr (Or.inr (Or.inr (Or.inl ⟨hid, hcritical, (pure_eq_ok.mp h).symm⟩)))
  · rename_i hip has hsia hpolicy
    refine Or.inr (Or.inr (Or.inr (Or.inr ⟨?_, hsia, (pure_eq_ok.mp h).symm⟩)))
    simp [criticalKinds, hip, has, hpolicy]

theorem sum_empty (options : DecodeOptions) : Sum options [] empty where
  ip := IpResources.isProper_empty _
  as := AsResources.isProper_empty _
  critical := by simp
  repository := by simp [empty, Extension.Carry]

/-- An extension that has to be critical, and is so, keeps the rule. -/
theorem critical_append {seen : List Extension} {e : Extension}
    (hseen : ∀ e ∈ seen, e.id ∈ criticalKinds → e.critical = true)
    (he : e.id ∈ criticalKinds → e.critical = true) :
    ∀ x ∈ seen ++ [e], x.id ∈ criticalKinds → x.critical = true := by
  intro x hx
  rcases List.mem_append.mp hx with hx | hx
  · exact hseen x hx
  · exact List.mem_singleton.mp hx ▸ he

/-- One more extension keeps the invariant. -/
theorem Sum.add {options : DecodeOptions} {seen : List Extension} {f f' : Findings} {e : Extension}
    (hf : f.Sum options seen) (h : f.add options e = .ok f') : f'.Sum options (seen ++ [e]) := by
  obtain ⟨hid, hcritical, r, hr, rfl⟩ | ⟨hid, hcritical, r, hr, rfl⟩ | ⟨hid, hopen, r, hr, rfl⟩ |
    ⟨hid, hcritical, rfl⟩ | ⟨hkind, hid, rfl⟩ := add_eq_ok h
  · have hr := property_of_decode (IpResources.ensures_read options) hr
    exact ⟨hr, hf.as, critical_append hf.critical fun _ => hcritical,
      hf.repository.append_of_ne (by rw [hid]; decide)⟩
  · have hr := property_of_decode (AsResources.ensures_read options) hr
    exact ⟨hf.ip, hr, critical_append hf.critical fun _ => hcritical,
      hf.repository.append_of_ne (by rw [hid]; decide)⟩
  · -- the repository is now that of the last extension
    refine ⟨hf.ip, hf.as, critical_append hf.critical fun hkind => ?_, e, by simp, hid, hopen, hr⟩
    rw [hid] at hkind
    exact absurd hkind (by decide)
  · exact ⟨hf.ip, hf.as, critical_append hf.critical fun _ => hcritical,
      hf.repository.append_of_ne (by rw [hid]; decide)⟩
  · exact ⟨hf.ip, hf.as, critical_append hf.critical fun h => absurd h hkind,
      hf.repository.append_of_ne hid⟩

theorem sum_of_ofExtensions {options : DecodeOptions} {es : List Extension} {f : Findings}
    (h : ofExtensions options es = .ok f) : f.Sum options es := by
  have hseen := foldlM_invariant (fun _ _ _ _ hf h => Sum.add hf h) (sum_empty options) h
  rwa [List.nil_append] at hseen

end Findings

end ResourcePki

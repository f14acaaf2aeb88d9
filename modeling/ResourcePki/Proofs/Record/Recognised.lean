import ResourcePki.Proofs.Record.Accepted

/-!
A record depends on the recognised extensions as a set.

Extensions with resources and places are gone through in the order in which they stand, but each of
them sets only what its kind stands for, so those of different kinds may be exchanged, and those of
other kinds may be left out. All other fields are looked up by their kind, and among extensions of
different kinds none stands in front of another one. So two certificates with the same recognised
extensions in any order, among any others, are refused or accepted together, and the same is kept of
both.
-/

namespace ResourcePki

/-- The kinds of extensions that a record is made of. -/
def recognisedKinds : List ObjectId :=
  [ObjectId.ipAddressBlocks, ObjectId.autonomousSystemIds, ObjectId.subjectInfoAccess,
    ObjectId.certificatePolicies, ObjectId.authorityKeyIdentifier, ObjectId.subjectKeyIdentifier,
    ObjectId.authorityInfoAccess, ObjectId.crlDistributionPoints, ObjectId.basicConstraints,
    ObjectId.keyUsage, ObjectId.extendedKeyUsage]

/-! ### Extensions by their kind -/

namespace Extension

variable {es fs : List Extension} {e : Extension} {id : ObjectId}

/-- The extensions of the recognised kinds. -/
def recognised (es : List Extension) : List Extension :=
  es.filter fun e => e.id ∈ recognisedKinds

theorem mem_recognised : e ∈ recognised es ↔ e ∈ es ∧ e.id ∈ recognisedKinds := by
  rw [recognised, List.mem_filter, decide_eq_true_eq]

theorem Distinct.recognised (h : Distinct es) : Distinct (recognised es) :=
  List.Pairwise.filter _ h

theorem Distinct.find?_eq_some (h : Distinct es) :
    es.find? (·.id == id) = some e ↔ e ∈ es ∧ e.id = id := by
  constructor
  · intro he
    exact ⟨List.mem_of_find?_eq_some he, by simpa using List.find?_some he⟩
  · rintro ⟨he, rfl⟩
    exact h.find?_eq he

/-- Where the recognised extensions are the same, the same one is found of each kind. -/
theorem Distinct.find?_congr (hes : Distinct es) (hfs : Distinct fs)
    (h : (Extension.recognised es).Perm (Extension.recognised fs)) (hid : id ∈ recognisedKinds) :
    es.find? (·.id == id) = fs.find? (·.id == id) := by
  refine Option.ext fun e => ?_
  rw [hes.find?_eq_some, hfs.find?_eq_some]
  refine and_congr_left fun he => ?_
  have hmem := h.mem_iff (a := e)
  rwa [mem_recognised, mem_recognised, and_iff_left (he ▸ hid), and_iff_left (he ▸ hid)] at hmem

end Extension

/-! ### Findings -/

namespace Findings

variable {options : DecodeOptions} {f g : Findings} {e : Extension} {es fs : List Extension}

/-- What an extension of a kind does to the findings: it sets what its kind stands for, or nothing. -/
inductive Update : ObjectId → (Findings → Findings) → Prop
  | ip (r : IpResources) : Update ObjectId.ipAddressBlocks fun f => { f with ipResources := r }
  | as (r : AsResources) : Update ObjectId.autonomousSystemIds fun f => { f with asResources := r }
  | repository (r : Repository) :
    Update ObjectId.subjectInfoAccess fun f => { f with repository := some r }
  | nothing (id : ObjectId) : Update id fun f => f

theorem Update.comm {k l : ObjectId} {u v : Findings → Findings} (hu : Update k u) (hv : Update l v)
    (hne : k ≠ l) (f : Findings) : u (v f) = v (u f) := by
  cases hu with
  | nothing => rfl
  | ip | as | repository =>
    cases hv with
    | ip | as | repository =>
      first
      | rfl
      | exact absurd rfl hne
    | nothing => rfl

/-- An extension that is accepted once does the same to all findings. -/
theorem exists_update_of_add (h : g.add options e = .ok f) :
    ∃ u, Update e.id u ∧ f = u g ∧ ∀ g' : Findings, g'.add options e = .ok (u g') := by
  unfold add at h ⊢
  split at h
  · rename_i hid
    obtain ⟨r, hr, h⟩ := bind_eq_ok.mp h
    refine ⟨fun f => { f with ipResources := r }, ?_, (pure_eq_ok.mp h).symm, fun _ => ?_⟩
    · rw [hid]
      exact Update.ip r
    · rw [if_pos hid, hr]
      rfl
  rename_i hip
  split at h
  · rename_i hid
    obtain ⟨r, hr, h⟩ := bind_eq_ok.mp h
    refine ⟨fun f => { f with asResources := r }, ?_, (pure_eq_ok.mp h).symm, fun _ => ?_⟩
    · rw [hid]
      exact Update.as r
    · rw [if_neg hip, if_pos hid, hr]
      rfl
  rename_i has
  split at h
  · rename_i hid
    obtain ⟨r, hr, h⟩ := bind_eq_ok.mp h
    refine ⟨fun f => { f with repository := some r }, ?_, (pure_eq_ok.mp h).symm, fun _ => ?_⟩
    · rw [hid]
      exact Update.repository r
    · rw [if_neg hip, if_neg has, if_pos hid, hr]
      rfl
  rename_i hsia
  split at h
  · rename_i hid
    obtain ⟨p, hp, h⟩ := bind_eq_ok.mp h
    refine ⟨_, .nothing _, (pure_eq_ok.mp h).symm, fun _ => ?_⟩
    rw [if_neg hip, if_neg has, if_neg hsia, if_pos hid, hp]
    rfl
  · rename_i hpolicy
    refine ⟨_, .nothing _, (pure_eq_ok.mp h).symm, fun _ => ?_⟩
    rw [if_neg hip, if_neg has, if_neg hsia, if_neg hpolicy]
    rfl

/-- Extensions of different kinds may be exchanged. -/
theorem add_comm {e' : Extension} {f' : Findings} (hne : e.id ≠ e'.id)
    (h : f.add options e = .ok g) (h' : g.add options e' = .ok f') :
    ∃ g', f.add options e' = .ok g' ∧ g'.add options e = .ok f' := by
  obtain ⟨u, hu, rfl, hadd⟩ := exists_update_of_add h
  obtain ⟨v, hv, rfl, hadd'⟩ := exists_update_of_add h'
  exact ⟨v f, hadd' f, by rw [hadd, hu.comm hv hne]⟩

/-- Only recognised extensions are looked at. -/
theorem add_of_not_recognised (h : e.id ∉ recognisedKinds) : f.add options e = .ok f := by
  have hne : ∀ id ∈ recognisedKinds, e.id ≠ id := fun id hid heq => h (heq ▸ hid)
  unfold add
  rw [if_neg (hne _ (by decide)), if_neg (hne _ (by decide)), if_neg (hne _ (by decide)),
    if_neg (hne _ (by decide))]
  rfl

/-- Extensions that are not recognised may be left out. -/
theorem ofExtensions_recognised (options : DecodeOptions) (es : List Extension) :
    ofExtensions options (Extension.recognised es) = ofExtensions options es := by
  unfold ofExtensions Extension.recognised
  rw [List.foldlM_filter]
  refine congrArg (fun step => es.foldlM step empty) (funext fun f => funext fun e => ?_)
  split
  · rfl
  · rename_i h
    rw [decide_eq_true_eq] at h
    exact (add_of_not_recognised h).symm

/-- What the extensions hold does not depend on their order, nor on others among them. -/
theorem ofExtensions_of_perm (hd : Extension.Distinct es)
    (h : (Extension.recognised es).Perm (Extension.recognised fs))
    (hf : ofExtensions options es = .ok f) : ofExtensions options fs = .ok f := by
  rw [← ofExtensions_recognised] at hf ⊢
  exact foldlM_of_perm (R := fun e e' : Extension => e.id ≠ e'.id) Ne.symm add_comm hd.recognised h hf

end Findings

/-! ### Certificates -/

namespace Certificate

variable {c d : Certificate}

/-- Two certificates differ at most in the order of their recognised extensions and in the ones that
    are not recognised. -/
structure SameRecognised (c d : Certificate) : Prop where
  others : { c with extensions := d.extensions } = d
  recognised : (Extension.recognised c.extensions).Perm (Extension.recognised d.extensions)
  distinct : Extension.Distinct c.extensions
  distinct' : Extension.Distinct d.extensions

namespace SameRecognised

theorem symm (h : c.SameRecognised d) : d.SameRecognised c where
  others := by rw [← h.others]
  recognised := h.recognised.symm
  distinct := h.distinct'
  distinct' := h.distinct

theorem extension?_eq (h : c.SameRecognised d) {id : ObjectId} (hid : id ∈ recognisedKinds) :
    d.extension? id = c.extension? id :=
  h.distinct'.find?_congr h.distinct h.recognised.symm hid

theorem publicKey_eq (h : c.SameRecognised d) : d.publicKey = c.publicKey := by
  rw [← h.others]

theorem validity_eq (h : c.SameRecognised d) : d.validity = c.validity := by
  rw [← h.others]

theorem optionalField_eq {α : Type} (h : c.SameRecognised d) {id : ObjectId}
    (hid : id ∈ recognisedKinds) (err : InspectionError) (r : Der.Reader α) :
    d.optionalField id err r = c.optionalField id err r := by
  unfold optionalField
  rw [h.extension?_eq hid]

theorem purpose_eq (h : c.SameRecognised d) : d.purpose = c.purpose := by
  unfold purpose isCa
  rw [h.extension?_eq (by decide), h.extension?_eq (by decide), h.extension?_eq (by decide)]

theorem roleOf_eq (h : c.SameRecognised d) (f : Findings) : Record.roleOf d f = Record.roleOf c f := by
  unfold Record.roleOf routerKey
  rw [h.purpose_eq, h.publicKey_eq]

end SameRecognised

end Certificate

/-! ### Records -/

namespace Record

variable {options : DecodeOptions} {c d : Certificate}

theorem IsMadeOf.of_sameRecognised (h : c.SameRecognised d) {f : Findings} {r : Record}
    (hr : IsMadeOf options c f r) : IsMadeOf options d f { r with certificate := some d } where
  found := Findings.ofExtensions_of_perm h.distinct h.recognised hr.found
  role := (h.roleOf_eq f).trans hr.role
  name := hr.name
  ipResources := hr.ipResources
  asResources := hr.asResources
  subjectKey := (h.optionalField_eq (by decide) _ _).trans hr.subjectKey
  authorityKey := (h.optionalField_eq (by decide) _ _).trans hr.authorityKey
  caIssuer := (h.optionalField_eq (by decide) _ _).trans hr.caIssuer
  crlUri := (h.optionalField_eq (by decide) _ _).trans hr.crlUri
  expires := h.validity_eq ▸ hr.expires
  certificate := rfl

theorem ofCertificate_of_sameRecognised (h : c.SameRecognised d) {r : Record}
    (hr : ofCertificate options c = .ok r) :
    ofCertificate options d = .ok { r with certificate := some d } := by
  obtain ⟨hnumber, f, hf⟩ := ofCertificate_eq_ok.mp hr
  exact ofCertificate_eq_ok.mpr ⟨hnumber, f, hf.of_sameRecognised h⟩

/-- Certificates with the same recognised extensions are refused or accepted together, and the same
    is kept of both, up to the certificates themselves. -/
theorem ofCertificate_eq_of_sameRecognised (h : c.SameRecognised d) (options : DecodeOptions) :
    (ofCertificate options d).toOption.map withoutCertificate
      = (ofCertificate options c).toOption.map withoutCertificate := by
  cases hc : ofCertificate options c with
  | ok r =>
    rw [ofCertificate_of_sameRecognised h hc]
    rfl
  | error err =>
    cases hd : ofCertificate options d with
    | ok r =>
      rw [ofCertificate_of_sameRecognised h.symm hd] at hc
      exact absurd hc (by simp)
    | error err' => rfl

/-- Turning the extensions of an accepted certificate around, and putting one of another kind before
    them, changes nothing, although it is critical. -/
theorem sample_reordered : ∃ c, Certificate.ofDer sample = .ok c ∧
    (ofCertificate {} c).isOk = true ∧
    let d := { c with extensions := ⟨⟨[42, 3]⟩, true, [0xff]⟩ :: c.extensions.reverse }
    c.SameRecognised d ∧ (ofCertificate {} d).toOption.map withoutCertificate
      = (ofCertificate {} c).toOption.map withoutCertificate := by
  have hnew : ((Certificate.ofDer sample).toOption.all fun c =>
    c.extensions.all fun e => e.id ≠ ⟨[42, 3]⟩) = true := by decide +kernel
  obtain ⟨r, hr⟩ := exists_ofDer_sample
  obtain ⟨c, hc, hr⟩ := bind_eq_ok.mp hr
  rw [lift_decoding_eq_ok] at hc
  have hdistinct := (Certificate.isDecoded_of_ofDer hc).distinct
  have hsame : c.SameRecognised
      { c with extensions := ⟨⟨[42, 3]⟩, true, [0xff]⟩ :: c.extensions.reverse } := by
    refine ⟨rfl, (c.extensions.reverse_perm.filter _).symm, hdistinct, ?_⟩
    refine List.pairwise_cons.mpr ⟨fun e he => ?_, ?_⟩
    · rw [hc] at hnew
      have hne := List.all_eq_true.mp hnew e (List.mem_reverse.mp he)
      exact (of_decide_eq_true hne).symm
    · exact List.pairwise_reverse.mpr (hdistinct.imp Ne.symm)
  exact ⟨c, hc, by rw [hr]; rfl, hsame, ofCertificate_eq_of_sameRecognised hsame {}⟩

end Record

end ResourcePki

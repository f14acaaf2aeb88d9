import ResourcePki.Certificate.Fields
import ResourcePki.Proofs.Certificate.Decoded
import ResourcePki.Proofs.Der.Primitive
import ResourcePki.Proofs.Uri

/-!
What the fields of a certificate that name keys and places come from.

For each of the four extensions the written form of a field is given, independently of how it is
read. Extensions carry a field if the one of its kind is not critical and its value begins with the
written form; they carry none if there is no extension of the kind. The accessor of a field gives
only what the extensions carry.
-/

namespace ResourcePki

open Der

/-! ### Rejections -/

@[simp] theorem lift_decoding_eq_ok {α : Type} {x : Except DecodeError α} {a : α} :
    (liftM x : Except ValidationError α) = .ok a ↔ x = .ok a :=
  mapError_eq_ok

@[simp] theorem lift_inspection_eq_ok {α : Type} {x : Except InspectionError α} {a : α} :
    (liftM x : Except ValidationError α) = .ok a ↔ x = .ok a :=
  mapError_eq_ok

namespace Extension

variable {α : Type} {e : Extension} {err : InspectionError} {x : Except ValidationError α} {a : α}

/-- What insists on an extension that is critical gives something only for one that is. -/
theorem requireCritical_bind_eq_ok :
    (liftM (e.requireCritical err) >>= fun _ => x) = .ok a ↔ e.critical = true ∧ x = .ok a := by
  rw [bind_eq_ok]
  unfold requireCritical
  split
  · simp [*]
  · simp [*]

theorem requireNonCritical_bind_eq_ok :
    (liftM (e.requireNonCritical err) >>= fun _ => x) = .ok a ↔
      e.critical = false ∧ x = .ok a := by
  rw [bind_eq_ok]
  unfold requireNonCritical
  split
  · simp [*]
  · simp [*]

end Extension

/-! ### Written forms -/

theorem Der.opens_location : Opens (Tag.context 6) (Tag.context 6) false :=
  ⟨by decide, rfl, rfl, by decide⟩

/-- The value of the extension that names the key of the issuer. -/
def KeyIdentifier.authorityValue (k : KeyIdentifier) : Octets :=
  sequenceValue (value (Tag.context 0) k.octets)

/-- The value of the extension that names the certificate of the issuer. -/
def RsyncUri.issuerValue (u : RsyncUri) : Octets :=
  sequenceValue (sequenceValue
    (objectIdValue ObjectId.caIssuers ++ value (Tag.context 6) u.octets))

/-- The value of the extension that names one distribution point by some locations. -/
def crlValue (names : List Octets) : Octets :=
  sequenceValue (sequenceValue (constructedValue (Tag.context 0) (constructedValue (Tag.context 0)
    (names.flatMap (value (Tag.context 6))))))

/-- The value of an extension names one distribution point, and of its locations the URI is the
    first that is an rsync URI. -/
def RsyncUri.IsCrlIn (u : RsyncUri) (v : Octets) : Prop :=
  ∃ names, crlValue names <+: v ∧
    names.findSome? (fun name => (ofOctets name).toOption) = some u

/-! ### Carried fields -/

namespace Extension

variable {α : Type} {es : List Extension} {id : ObjectId} {P Q : α → Extension → Prop}

/-- What some extensions carry of a kind: nothing if none of them is of the kind, otherwise
    something that one of them holds, which is then not critical. -/
def Carry (es : List Extension) (id : ObjectId) (P : α → Extension → Prop) : Option α → Prop
  | none => ∀ e ∈ es, e.id ≠ id
  | some a => ∃ e ∈ es, e.id = id ∧ e.critical = false ∧ P a e

theorem Carry.weaken (hPQ : ∀ a e, P a e → Q a e) :
    ∀ {o : Option α}, Carry es id P o → Carry es id Q o
  | none, h => h
  | some _, ⟨e, he, hid, hopen, hP⟩ => ⟨e, he, hid, hopen, hPQ _ e hP⟩

/-- Among extensions of different kinds the one that carries something is the only one of its kind,
    so no extension of the kind is critical. -/
theorem Carry.critical_eq_false (hd : Distinct es) :
    ∀ {o : Option α}, Carry es id P o → ∀ e ∈ es, e.id = id → e.critical = false
  | none, h, e, he, hid => absurd hid (h e he)
  | some _, ⟨f, hf, hfid, hopen, _⟩, e, he, hid => by
    have hfe := hd.find?_eq hf
    rw [hfid, ← hid, hd.find?_eq he, Option.some.injEq] at hfe
    exact hfe ▸ hopen

end Extension

/-! ### What is read -/

theorem KeyIdentifier.primitive_of_ofElement {e : Element} {k : KeyIdentifier}
    (h : ofElement e = .ok k) : e.primitive = .ok k.octets := by
  obtain ⟨content, hc, h⟩ := bind_eq_ok.mp h
  split at h
  · rename_i k' hk
    unfold ofOctets? at hk
    split at hk
    · obtain rfl := pure_eq_ok.mp h
      exact hc.trans (congrArg Except.ok (Option.some.inj hk ▸ rfl))
    · simp at hk
  · exact absurd h throw_ne_ok

theorem KeyIdentifier.reads_read : Reads read fun k bs => bs = k.encode := by
  refine (reads_elementOf (S := fun content k ys => content = k.octets ∧ ys = []) (by decide)
    fun e => Reads.lift fun k hk => ⟨_, primitive_of_ofElement hk, rfl, rfl⟩).weaken ?_
  rintro k bs ⟨content, ys, rfl, rfl, rfl⟩
  exact List.append_nil _

namespace Certificate

theorem reads_authorityKey : Reads readAuthorityKey fun k bs => bs = k.authorityValue := by
  have hshort : Tag.context 0 &&& 0x1f ≠ 0x1f := by decide
  have hinner := reads_elementOf (g := fun e => liftM (KeyIdentifier.ofElement e))
    (S := fun content k ys => content = k.octets ∧ ys = []) hshort fun e => Reads.lift fun k hk =>
      ⟨_, KeyIdentifier.primitive_of_ofElement hk, rfl, rfl⟩
  refine (reads_inSequence hinner).weaken ?_
  rintro k bs ⟨content, rfl, content', ys, rfl, rfl, rfl⟩
  rw [List.append_nil, KeyIdentifier.authorityValue]

theorem reads_rsyncName :
    Reads readRsyncName fun u bs => bs = value (Tag.context 6) u.octets := by
  refine (reads_elementOf (S := fun content u ys => content = u.octets ∧ ys = []) (by decide)
    fun e => Reads.lift_bind fun bs hbs => ?_).weaken ?_
  · split
    · rename_i u hu
      exact Reads.pure ⟨_, (Element.ia5String_eq_ok.mp hbs).1,
        (RsyncUri.octets_of_ofOctets hu).symm, rfl⟩
    · exact Reads.throw
  · rintro u bs ⟨content, ys, rfl, rfl, rfl⟩
    exact List.append_nil _

theorem reads_caIssuer : Reads readCaIssuer fun u bs => bs = u.issuerValue := by
  have hshort : Tag.objectId &&& 0x1f ≠ 0x1f := by decide
  have hinner := reads_elementOf (g := fun e => do
      if (← e.primitive) ≠ ObjectId.caIssuers.octets then throw .malformed
      readRsyncName)
    (S := fun content u ys => content = ObjectId.caIssuers.octets ∧
      ys = value (Tag.context 6) u.octets) hshort fun e => Reads.lift_bind fun bs hbs => ?_
  · refine (reads_inSequence (reads_inSequence hinner)).weaken ?_
    rintro u bs ⟨outer, rfl, inner, rfl, content, ys, rfl, rfl, rfl⟩
    rw [RsyncUri.issuerValue, objectIdValue]
  · dsimp only
    split
    · exact Reads.throw_bind
    · rename_i heq
      rw [Decidable.not_not] at heq
      exact reads_rsyncName.weaken fun u ys hys => ⟨bs, hbs, heq, hys⟩

theorem reads_crlUri : Reads readCrlUri fun u bs => ∃ names, bs = crlValue names ∧
    (∀ name ∈ names, ∀ b ∈ name, b < 0x80) ∧
    names.findSome? (fun name => (RsyncUri.ofOctets name).toOption) = some u := by
  have hname : Reads readName? fun o bs => bs = o.elim [] (value (Tag.context 6) ∘ id) :=
    reads_primitive? (by decide) fun e bs h => (Element.ia5String_eq_ok.mp h).1
  have hascii : Ensures readName? fun o => ∀ name ∈ o, ∀ b ∈ name, b < 0x80 := by
    refine Ensures.bind_any fun o => ?_
    cases o with
    | none => exact Ensures.pure (by simp)
    | some e =>
      refine (Ensures.lift fun name h => (Element.ia5String_eq_ok.mp h).2).bind fun name h => ?_
      exact Ensures.pure fun name' hname' => Option.some.inj hname' ▸ h
  have hnames : Reads readCrlNames fun u bs => ∃ names,
      bs = names.flatMap (value (Tag.context 6)) ∧ (∀ name ∈ names, ∀ b ∈ name, b < 0x80) ∧
        firstRsync? names = some u := by
    refine (((reads_many hname).ensuring (ensures_many hascii)).bind
      (S := fun names u ys => ys = [] ∧ firstRsync? names = some u) fun names => ?_).weaken ?_
    · split
      · rename_i u hu
        exact Reads.pure ⟨rfl, hu⟩
      · exact Reads.throw
    · rintro u bs ⟨names, xs, ys, rfl, ⟨rfl, hascii⟩, rfl, hfirst⟩
      exact ⟨names, by simp, hascii, hfirst⟩
  have hshort : Tag.context 0 &&& 0x1f ≠ 0x1f := by decide
  refine (reads_inSequence (reads_inSequence (reads_constructed hshort
    (reads_constructed hshort hnames)))).weaken ?_
  rintro u bs ⟨c₁, rfl, c₂, rfl, c₃, rfl, c₄, rfl, names, rfl, hascii, hfirst⟩
  exact ⟨names, rfl, hascii, hfirst⟩

/-- What is given of a field is what the extension of its kind says. -/
theorem carries_of_optionalField {α : Type} {c : Certificate} {id : ObjectId}
    {err : InspectionError} {r : Reader α} {R : α → Octets → Prop} {o : Option α}
    (hr : Reads r R) (h : c.optionalField id err r = .ok o) :
    Extension.Carry c.extensions id (fun a e => ∃ bs, bs <+: e.value ∧ R a bs) o := by
  unfold optionalField at h
  split at h
  · rename_i hnone
    rw [pure_eq_ok] at h
    exact h ▸ ne_of_extension?_eq_none hnone
  · rename_i e he
    obtain ⟨hmem, hid⟩ := mem_of_extension? he
    obtain ⟨hopen, h⟩ := Extension.requireNonCritical_bind_eq_ok.mp h
    obtain ⟨a, ha, h⟩ := bind_eq_ok.mp h
    rw [lift_decoding_eq_ok] at ha
    rw [pure_eq_ok] at h
    exact h ▸ ⟨e, hmem, hid, hopen, hr.of_decode ha⟩

theorem carries_subjectKey {c : Certificate} {o : Option KeyIdentifier}
    (h : c.subjectKeyIdentifier? = .ok o) :
    Extension.Carry c.extensions ObjectId.subjectKeyIdentifier
      (fun k e => k.encode <+: e.value) o :=
  (carries_of_optionalField KeyIdentifier.reads_read h).weaken
    fun _ _ ⟨_, hbs, hk⟩ => hk ▸ hbs

theorem carries_authorityKey {c : Certificate} {o : Option KeyIdentifier}
    (h : c.authorityKeyIdentifier? = .ok o) :
    Extension.Carry c.extensions ObjectId.authorityKeyIdentifier
      (fun k e => k.authorityValue <+: e.value) o :=
  (carries_of_optionalField reads_authorityKey h).weaken fun _ _ ⟨_, hbs, hk⟩ => hk ▸ hbs

theorem carries_caIssuer {c : Certificate} {o : Option RsyncUri} (h : c.caIssuer? = .ok o) :
    Extension.Carry c.extensions ObjectId.authorityInfoAccess
      (fun u e => u.issuerValue <+: e.value) o :=
  (carries_of_optionalField reads_caIssuer h).weaken fun _ _ ⟨_, hbs, hu⟩ => hu ▸ hbs

theorem carries_crlUri {c : Certificate} {o : Option RsyncUri} (h : c.crlUri? = .ok o) :
    Extension.Carry c.extensions ObjectId.crlDistributionPoints (fun u e => u.IsCrlIn e.value) o :=
  (carries_of_optionalField reads_crlUri h).weaken
    fun _ _ ⟨_, hbs, names, hnames, _, hfirst⟩ => ⟨names, hnames ▸ hbs, hfirst⟩

end Certificate

end ResourcePki

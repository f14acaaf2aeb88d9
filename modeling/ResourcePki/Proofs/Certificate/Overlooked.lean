import ResourcePki.Certificate.Purpose
import ResourcePki.Policy
import ResourcePki.Proofs.Certificate.Fields
import ResourcePki.Proofs.Der.Whole
import ResourcePki.Proofs.Resources.IpRoundTrip
import ResourcePki.Repository
import ResourcePki.Resources.Extension

/-!
What stands behind the encoding in the value of an extension.

The value is decoded as data as a whole, and nobody asks whether all of it has been used up. Every
reader of a value only takes what is there, so the octets behind a value that is accepted can be
anything: the extension is accepted with them, and it means the same.
-/

namespace ResourcePki

open Der

/-! ### Readers of values -/

namespace KeyIdentifier

theorem overlooks_read : Overlooks read :=
  overlooks_elementOf fun _ _ h => Element.isThere_of_primitive (primitive_of_ofElement h)

end KeyIdentifier

theorem Der.overlooks_bitString : Overlooks bitString :=
  overlooks_elementOf fun _ _ h => Element.isThere_of_primitive_bind h

theorem IpResources.overlooks_read (options : DecodeOptions) : Overlooks (read options) :=
  overlooks_inSequence ((reads_entries options).weaken fun _ _ _ => trivial)

theorem Der.Element.isThere_of_unsigned32 {e : Element} {n : Nat} (h : e.unsigned32 = .ok n) :
    e.IsThere := by
  obtain ⟨bs, hbs, -⟩ := bind_eq_ok.mp h
  exact isThere_of_primitive_bind hbs

theorem AsNumber.whole_read : Whole read :=
  (Whole.elementOf_lift fun _ _ h => Element.isThere_of_unsigned32 h).bind fun _ =>
    Reads.pure trivial

theorem AsRange.whole_readEnds : Whole readEnds := by
  refine AsNumber.whole_read.bind fun first => AsNumber.whole_read.bind fun last => ?_
  split
  · exact Reads.pure trivial
  · exact Reads.throw

theorem AsEntry.isThere_of_ofElement {e : Element} {entry : AsEntry}
    (h : ofElement e = .ok entry) : e.IsThere := by
  unfold ofElement at h
  split at h
  · obtain ⟨n, hn, -⟩ := bind_eq_ok.mp h
    exact Element.isThere_of_unsigned32 hn
  · split at h
    · obtain ⟨r, hr, -⟩ := map_eq_ok.mp h
      exact (Element.isThere_of_inside AsRange.whole_readEnds hr).1
    · simp at h

namespace AsResources

theorem whole_readEntry (b : AsBuilder) : Whole (readEntry b) := by
  refine reads_element?_bind (Reads.pure trivial) fun e => ?_
  refine Reads.lift_bind fun entry hentry => Reads.lift_bind fun b' _ => Reads.pure ?_
  exact ⟨AsEntry.isThere_of_ofElement hentry, fun _ _ => trivial⟩

theorem whole_readNumbers (options : DecodeOptions) : Whole (readNumbers options) := by
  refine reads_element_bind fun e => Reads.ite (fun _ => ?_) fun _ => Reads.ite (fun _ => ?_)
    fun _ => Reads.throw
  · refine Reads.lift_bind fun _ hnull => Reads.lift_bind fun b _ => Reads.pure ?_
    exact ⟨Element.isThere_of_primitive_bind hnull, fun _ _ => trivial⟩
  · refine Reads.lift_bind fun b hb => Reads.pure ?_
    exact ⟨(Element.isThere_of_inside (Whole.repeated whole_readEntry _) hb).1, fun _ _ => trivial⟩

theorem overlooks_read (options : DecodeOptions) : Overlooks (read options) := by
  refine overlooks_inSequence ((whole_readNumbers options).constructed?.bind fun numbers =>
    whole_captureAll.constructed?.bind fun _ => ?_)
  -- a third part is never accepted, so none is taken
  refine reads_element?_bind (Reads.ite (fun h => absurd h (by simp)) fun _ => Reads.pure trivial)
    fun e => Reads.ite (fun _ => Reads.throw_bind) fun h => absurd rfl h

end AsResources

namespace AccessLocations

variable {α : Type}

theorem whole_readLocation (ofOctets : Octets → Except UriError α) (err : DecodeError) :
    Whole (readLocation ofOctets err) := by
  refine reads_element_bind fun e => Reads.ite (fun _ => Reads.throw_bind) fun _ => ?_
  refine Reads.lift_bind fun bs hbs => ?_
  have hthere := Element.isThere_of_primitive_bind hbs
  split
  · exact Reads.pure ⟨hthere, fun _ _ => trivial⟩
  · exact Reads.throw

theorem whole_readDescription (before : AccessLocations) : Whole (readDescription before) := by
  refine whole_objectId.bind fun method => Reads.ite (fun _ => ?_) fun _ => Reads.ite (fun _ => ?_)
    fun _ => Reads.ite (fun _ => ?_) fun _ => ?_
  · exact (whole_readLocation _ _).bind fun _ => Reads.pure trivial
  · exact (whole_readLocation _ _).bind fun _ => Reads.pure trivial
  · exact (whole_readLocation _ _).bind fun _ => Reads.pure trivial
  · exact whole_captureAll.bind fun _ => Reads.pure trivial

theorem overlooks_read : Overlooks read :=
  overlooks_inSequence (Whole.repeated (fun before => (whole_readDescription before).inSequence?) _)

end AccessLocations

namespace PolicyInformation

theorem whole_readQualifier : Whole readQualifier :=
  whole_objectId.bind fun _ => whole_captureAll.bind fun _ => Reads.pure trivial

theorem whole_readParts : Whole readParts :=
  whole_objectId.bind fun _ => whole_readQualifier.inSequence?.many.inSequence?.bind fun _ =>
    Reads.pure trivial

theorem overlooks_readList : Overlooks readList :=
  overlooks_inSequence whole_readParts.inSequence?.many

end PolicyInformation

namespace Certificate

theorem overlooks_readAuthorityKey : Overlooks readAuthorityKey :=
  overlooks_inSequence (Whole.elementOf_lift fun _ _ h =>
    Element.isThere_of_primitive (KeyIdentifier.primitive_of_ofElement h))

theorem overlooks_readCaIssuer : Overlooks readCaIssuer := by
  refine overlooks_inSequence (Whole.inSequence (reads_elementOf_bind fun e _ =>
    Reads.lift_bind fun bs hbs => Reads.ite (fun _ => Reads.throw_bind) fun _ => ?_))
  exact reads_rsyncName.weaken fun _ _ _ =>
    ⟨Element.isThere_of_primitive hbs, fun _ _ => trivial⟩

theorem whole_readCrlNames : Whole readCrlNames := by
  have hname : Whole readName? :=
    Whole.elementOf?_lift fun _ _ h => Element.isThere_of_primitive_bind h
  refine hname.many.bind fun names => ?_
  split
  · exact Reads.pure trivial
  · exact Reads.throw

theorem overlooks_readCrlUri : Overlooks readCrlUri :=
  overlooks_inSequence whole_readCrlNames.constructed.constructed.inSequence

theorem overlooks_readCaMark : Overlooks readCaMark :=
  overlooks_inSequence (whole_boolean?.bind fun _ => whole_captureAll.bind fun _ =>
    Reads.pure trivial)

theorem overlooks_readPurposes : Overlooks readPurposes :=
  overlooks_inSequence whole_objectId?.many

end Certificate

/-! ### Decoders of extensions -/

namespace Extension

variable {α : Type}

/-- The extension with further octets behind its value. -/
def followedBy (e : Extension) (rest : Octets) : Extension :=
  { e with value := e.value ++ rest }

/-- What is decoded from an extension is decoded with the octets behind its value as well. -/
def Overlooked (rest : Octets) (f : Extension → Except ValidationError α) : Prop :=
  ∀ e a, f e = .ok a → f (e.followedBy rest) = .ok a

variable {err : InspectionError} {r : Reader α} {β : Type} {g : α → Except ValidationError β}
  (rest : Octets)

theorem decodeValue_followedBy (hr : Overlooks r) {e : Extension} {a : α}
    (h : e.decodeValue r = .ok a) : (e.followedBy rest).decodeValue r = .ok a :=
  hr e.value a rest h

theorem overlooked_decodeValue (hr : Overlooks r) :
    Overlooked rest fun e => (liftM (e.decodeValue r) : Except ValidationError α) := by
  intro e a h
  rw [lift_decoding_eq_ok] at h ⊢
  exact decodeValue_followedBy rest hr h

variable {rest} {f : Extension → Except ValidationError α}

theorem Overlooked.bind (hf : Overlooked rest f) : Overlooked rest fun e => f e >>= g := by
  intro e b h
  obtain ⟨a, ha, hb⟩ := bind_eq_ok.mp h
  exact bind_eq_ok.mpr ⟨a, hf e a ha, hb⟩

/-- Whether an extension is critical does not depend on its value. -/
theorem Overlooked.critical (hf : Overlooked rest f) :
    Overlooked rest fun e => liftM (e.requireCritical err) >>= fun _ => f e := by
  intro e a h
  obtain ⟨hcritical, ha⟩ := requireCritical_bind_eq_ok.mp h
  exact requireCritical_bind_eq_ok.mpr ⟨hcritical, hf e a ha⟩

theorem Overlooked.nonCritical (hf : Overlooked rest f) :
    Overlooked rest fun e => liftM (e.requireNonCritical err) >>= fun _ => f e := by
  intro e a h
  obtain ⟨hopen, ha⟩ := requireNonCritical_bind_eq_ok.mp h
  exact requireNonCritical_bind_eq_ok.mpr ⟨hopen, hf e a ha⟩

end Extension

namespace Certificate

variable {α ε : Type} {c : Certificate} {id : ObjectId} (rest : Octets)

/-- The certificate with further octets behind the values of the extensions of a kind. -/
def followedBy (c : Certificate) (id : ObjectId) (rest : Octets) : Certificate :=
  { c with extensions := c.extensions.map fun e => if e.id = id then e.followedBy rest else e }

/-- What is decoded from a certificate is decoded with the octets behind the value of an extension
    of a kind as well. -/
def Overlooked (id : ObjectId) (rest : Octets) (f : Certificate → Except ε α) : Prop :=
  ∀ c a, f c = .ok a → f (c.followedBy id rest) = .ok a

theorem extension?_followedBy (c : Certificate) (id other : ObjectId) (rest : Octets) :
    (c.followedBy id rest).extension? other
      = (c.extension? other).map fun e => if other = id then e.followedBy rest else e := by
  have hkind : ((fun e : Extension => e.id == other) ∘
      fun e : Extension => if e.id = id then e.followedBy rest else e)
      = fun e => e.id == other := by
    funext e
    show ((if e.id = id then e.followedBy rest else e).id == other) = (e.id == other)
    split
    · rfl
    · rfl
  show (c.extensions.map _).find? _ = _
  rw [List.find?_map, hkind]
  refine Option.map_congr fun e he => ?_
  rw [(mem_of_extension? he).2]

theorem extension?_followedBy_self (c : Certificate) (id : ObjectId) (rest : Octets) :
    (c.followedBy id rest).extension? id = (c.extension? id).map (·.followedBy rest) := by
  rw [extension?_followedBy]
  simp

theorem extension?_followedBy_of_ne {other : ObjectId} (h : other ≠ id) :
    (c.followedBy id rest).extension? other = c.extension? other := by
  rw [extension?_followedBy]
  simp [h]

theorem overlooked_optionalField {err : InspectionError} {r : Reader α} (hr : Overlooks r) :
    Overlooked id rest fun c => c.optionalField id err r := by
  intro c o h
  change c.optionalField id err r = .ok o at h
  show (c.followedBy id rest).optionalField id err r = .ok o
  unfold optionalField at h ⊢
  rw [extension?_followedBy_self]
  cases he : c.extension? id with
  | none =>
    rw [he] at h
    exact h
  | some e =>
    rw [he] at h
    exact (Extension.overlooked_decodeValue rest hr).bind.nonCritical e o h

/-- Whether the certificate is marked as that of a CA. -/
def caMark (c : Certificate) : Except DecodeError Bool :=
  match c.extension? ObjectId.basicConstraints with
  | some e => e.decodeValue readCaMark
  | none => .ok false

/-- Whether the key may sign certificates. -/
def maySign (c : Certificate) : Except DecodeError Bool :=
  match c.extension? ObjectId.keyUsage with
  | some e => e.decodeValue bitString >>= fun bits => pure (bits.bit 5)
  | none => .ok true

theorem isCa_eq (c : Certificate) :
    c.isCa = c.caMark >>= fun marked => if marked then c.maySign else .ok false := by
  unfold isCa caMark
  cases c.extension? ObjectId.basicConstraints with
  | none => rfl
  | some e =>
    refine congrArg (e.decodeValue readCaMark >>= ·) (funext fun marked => ?_)
    cases marked <;> rfl

theorem caMark_followedBy_of_ne (h : ObjectId.basicConstraints ≠ id) :
    (c.followedBy id rest).caMark = c.caMark := by
  unfold caMark
  rw [extension?_followedBy_of_ne rest h]

theorem maySign_followedBy_of_ne (h : ObjectId.keyUsage ≠ id) :
    (c.followedBy id rest).maySign = c.maySign := by
  unfold maySign
  rw [extension?_followedBy_of_ne rest h]

theorem overlooked_caMark : Overlooked ObjectId.basicConstraints rest isCa := by
  intro c b h
  rw [isCa_eq] at h ⊢
  obtain ⟨marked, hmarked, h⟩ := bind_eq_ok.mp h
  rw [maySign_followedBy_of_ne rest (by decide)]
  refine bind_eq_ok.mpr ⟨marked, ?_, h⟩
  unfold caMark at hmarked ⊢
  rw [extension?_followedBy_self]
  cases he : c.extension? ObjectId.basicConstraints with
  | none =>
    rw [he] at hmarked
    exact hmarked
  | some e =>
    rw [he] at hmarked
    exact Extension.decodeValue_followedBy rest overlooks_readCaMark hmarked

theorem overlooked_maySign : Overlooked ObjectId.keyUsage rest maySign := by
  intro c b h
  unfold maySign at h ⊢
  rw [extension?_followedBy_self]
  cases he : c.extension? ObjectId.keyUsage with
  | none =>
    rw [he] at h
    exact h
  | some e =>
    rw [he] at h
    obtain ⟨bits, hbits, h⟩ := bind_eq_ok.mp h
    exact bind_eq_ok.mpr ⟨bits, Extension.decodeValue_followedBy rest overlooks_bitString hbits, h⟩

theorem overlooked_keyUsage : Overlooked ObjectId.keyUsage rest isCa := by
  intro c b h
  rw [isCa_eq] at h ⊢
  rw [caMark_followedBy_of_ne rest (by decide)]
  obtain ⟨marked, hmarked, h⟩ := bind_eq_ok.mp h
  refine bind_eq_ok.mpr ⟨marked, hmarked, ?_⟩
  cases marked with
  | false => exact h
  | true => exact overlooked_maySign rest c b h

theorem isCa_followedBy_purposes (c : Certificate) :
    (c.followedBy ObjectId.extendedKeyUsage rest).isCa = c.isCa := by
  rw [isCa_eq, isCa_eq, caMark_followedBy_of_ne rest (by decide),
    maySign_followedBy_of_ne rest (by decide)]

theorem overlooked_purpose : Overlooked ObjectId.extendedKeyUsage rest purpose := by
  intro c p h
  unfold purpose at h ⊢
  rw [isCa_followedBy_purposes]
  obtain ⟨ca, hca, h⟩ := bind_eq_ok.mp h
  refine bind_eq_ok.mpr ⟨ca, hca, ?_⟩
  cases ca with
  | true => exact h
  | false =>
    rw [extension?_followedBy_self]
    cases he : c.extension? ObjectId.extendedKeyUsage with
    | none =>
      rw [he] at h
      exact h
    | some e =>
      rw [he] at h
      exact (Extension.overlooked_decodeValue rest overlooks_readPurposes).bind.nonCritical e p h

/-- Whatever stands behind the value of an extension, none of its decoders looks at it. -/
structure OverlooksRest (options : DecodeOptions) (rest : Octets) : Prop where
  ipResources : Extension.Overlooked rest (IpResources.ofExtension options)
  asResources : Extension.Overlooked rest (AsResources.ofExtension options)
  repository : Extension.Overlooked rest Repository.ofExtension
  policy : Extension.Overlooked rest Policy.ofExtension
  subjectKey : Overlooked ObjectId.subjectKeyIdentifier rest subjectKeyIdentifier?
  authorityKey : Overlooked ObjectId.authorityKeyIdentifier rest authorityKeyIdentifier?
  caIssuer : Overlooked ObjectId.authorityInfoAccess rest caIssuer?
  crl : Overlooked ObjectId.crlDistributionPoints rest crlUri?
  purpose : Overlooked ObjectId.extendedKeyUsage rest purpose
  caMark : Overlooked ObjectId.basicConstraints rest isCa
  keyUsage : Overlooked ObjectId.keyUsage rest isCa

theorem overlooksRest (options : DecodeOptions) (rest : Octets) : OverlooksRest options rest where
  ipResources :=
    (Extension.overlooked_decodeValue rest (IpResources.overlooks_read options)).critical
  asResources :=
    (Extension.overlooked_decodeValue rest (AsResources.overlooks_read options)).critical
  repository :=
    (Extension.overlooked_decodeValue rest AccessLocations.overlooks_read).bind.nonCritical
  policy := (Extension.overlooked_decodeValue rest PolicyInformation.overlooks_readList).bind.critical
  subjectKey := overlooked_optionalField rest KeyIdentifier.overlooks_read
  authorityKey := overlooked_optionalField rest overlooks_readAuthorityKey
  caIssuer := overlooked_optionalField rest overlooks_readCaIssuer
  crl := overlooked_optionalField rest overlooks_readCrlUri
  purpose := overlooked_purpose rest
  caMark := overlooked_caMark rest
  keyUsage := overlooked_keyUsage rest

/-- The octets behind a value do not have to be a value themselves. -/
theorem sample_overlooksRest :
    let e : Extension := ⟨ObjectId.autonomousSystemIds, true, [0x30, 0x04, 0xa0, 0x02, 0x05, 0x00]⟩
    AsResources.ofExtension {} e = .ok ⟨[.inherit]⟩ ∧
      AsResources.ofExtension {} (e.followedBy [0xff]) = .ok ⟨[.inherit]⟩ := by
  intro e
  have h : AsResources.ofExtension {} e = .ok ⟨[.inherit]⟩ := by rfl
  exact ⟨h, (overlooksRest {} [0xff]).asResources e _ h⟩

/-- An extension is accepted although there is an octet behind its value. -/
theorem ipResources_followed :
    let e : Extension := ⟨ObjectId.ipAddressBlocks, true, [0x30, 0x00]⟩
    IpResources.ofExtension {} e = .ok .empty ∧
      IpResources.ofExtension {} (e.followedBy [0x00]) = .ok .empty := by
  intro e
  exact ⟨rfl, rfl⟩

end Certificate

end ResourcePki

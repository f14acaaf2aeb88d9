import ResourcePki.Proofs.Certificate.Overlooked
import ResourcePki.Proofs.Der.Primitive
import ResourcePki.Proofs.Uri.Grammar

/-!
The places that a list of access descriptions names.

The list is gone through once. A description with a known method has to give one location, a URI of
the right scheme, and it is looked at even where an earlier one has already settled the place; a
description with any other method is only stepped over. So a list is accepted iff each description
with a known method is in order, whatever stands between them, and the first of each counts.
-/

namespace ResourcePki

open Der

/-- A method of access and the values behind it. -/
structure AccessDescription where
  method : ObjectId
  locations : List Octets
  isProper : method.IsProper
  areWellFormed : ∀ v ∈ locations, IsWellFormed v

namespace AccessDescription

variable {α : Type}

/-- What the description is made of. -/
def content (d : AccessDescription) : Octets :=
  objectIdValue d.method ++ d.locations.flatten

/-- The description as it is written. -/
def encode (d : AccessDescription) : Octets :=
  sequenceValue d.content

/-- A list of descriptions as it is written. -/
def encodeList (ds : List AccessDescription) : Octets :=
  sequenceValue (ds.flatMap encode)

/-- The method is one of the three that lead to a place. -/
def isKnown (d : AccessDescription) : Bool :=
  [ObjectId.caRepository, ObjectId.manifest, ObjectId.notification].contains d.method

theorem isKnown_eq_false {d : AccessDescription} : d.isKnown = false ↔
    d.method ≠ ObjectId.caRepository ∧ d.method ≠ ObjectId.manifest ∧
      d.method ≠ ObjectId.notification := by
  simp [isKnown]

/-- The only location is text with the tag of a URI, and this is what it is understood as. -/
def IsAt (ofOctets : Octets → Except UriError α) (d : AccessDescription) (u : α) : Prop :=
  ∃ bs : Octets, (∀ b ∈ bs, b < 0x80) ∧ d.locations = [value (Tag.context 6) bs] ∧
    ofOctets bs = .ok u

/-- Where the method leads to a place, the description gives it. -/
structure IsAccepted (d : AccessDescription) : Prop where
  repository : d.method = ObjectId.caRepository → ∃ u, d.IsAt RsyncUri.ofOctets u
  manifest : d.method = ObjectId.manifest → ∃ u, d.IsAt RsyncUri.ofOctets u
  notification : d.method = ObjectId.notification → ∃ u, d.IsAt HttpsUri.ofOctets u

theorem isAccepted_of_repository {d : AccessDescription} {u : RsyncUri}
    (hmethod : d.method = ObjectId.caRepository) (hat : d.IsAt RsyncUri.ofOctets u) :
    d.IsAccepted :=
  ⟨fun _ => ⟨u, hat⟩, fun h => absurd (hmethod.symm.trans h) (by decide),
    fun h => absurd (hmethod.symm.trans h) (by decide)⟩

theorem isAccepted_of_foreign {d : AccessDescription} (h : d.isKnown = false) : d.IsAccepted :=
  have ⟨hrepository, hmanifest, hnotification⟩ := isKnown_eq_false.mp h
  ⟨fun hm => absurd hm hrepository, fun hm => absurd hm hmanifest,
    fun hm => absurd hm hnotification⟩

/-- What the first description with a method gives. -/
def FirstAt (method : ObjectId) (ofOctets : Octets → Except UriError α)
    (ds : List AccessDescription) : Option α → Prop
  | none => ∀ d ∈ ds, d.method ≠ method
  | some u => ∃ d, ds.find? (·.method == method) = some d ∧ d.IsAt ofOctets u

end AccessDescription

namespace AccessLocations

open AccessDescription

variable {α : Type} {before after : AccessLocations} {d : AccessDescription}
  {ds : List AccessDescription}

/-! ### One location -/

section

variable {ofOctets : Octets → Except UriError α} {err : DecodeError} {u : α}

theorem reads_readLocation : Reads (readLocation ofOctets err) fun u bs => ∃ content : Octets,
    bs = value (Tag.context 6) content ∧ (∀ b ∈ content, b < 0x80) ∧ ofOctets content = .ok u := by
  refine reads_element_bind fun e => Reads.ite (fun _ => Reads.throw_bind) fun htag => ?_
  refine Reads.lift_bind fun content hcontent => ?_
  obtain ⟨hprimitive, hascii⟩ := Element.ia5String_eq_ok.mp hcontent
  have htag : e.tag = Tag.context 6 := Decidable.not_not.mp htag
  split
  · rename_i u hu
    refine Reads.pure ⟨Element.isThere_of_primitive hprimitive, fun xs hxs => ?_⟩
    refine ⟨content, ?_, hascii, hu⟩
    rw [List.append_nil, hxs.eq_value (htag ▸ by decide) hprimitive, htag]
  · exact Reads.throw

theorem takes_readLocation {bs : Octets} (hlen : bs.length < lengthBound)
    (hascii : ∀ b ∈ bs, b < 0x80) (hu : ofOctets bs = .ok u) :
    Takes (readLocation ofOctets err) (value (Tag.context 6) bs) u := by
  refine (takes_element opens_location hlen).bind_nil ?_
  rw [if_neg (by simp [Element.ofContent])]
  refine Takes.lift_bind (Element.ia5String_eq_ok.mpr ⟨Element.primitive_ofContent, hascii⟩) ?_
  rw [hu]
  exact Takes.pure

/-- The values behind a method are read as a location iff there is one that gives it. -/
theorem readAll_readLocation (hlen : d.content.length < lengthBound) :
    (⟨d.locations.flatten, some 0⟩ : Input).readAll (readLocation ofOctets err) = .ok u ↔
      d.IsAt ofOctets u := by
  constructor
  · intro h
    obtain ⟨-, bs, hvalue, hascii, hu⟩ := reads_readLocation.of_readAll h
    change d.locations.flatten = value (Tag.context 6) bs at hvalue
    have hbs := length_le_length_value (Tag.context 6) bs
    rw [content, hvalue, List.length_append] at hlen
    have hwell : ∀ v ∈ [value (Tag.context 6) bs], IsWellFormed v :=
      List.forall_mem_singleton.mpr (isWellFormed_value opens_location (by omega))
    have hflat : d.locations.flatten = [value (Tag.context 6) bs].flatten := by
      rw [hvalue, List.flatten_singleton]
    exact ⟨bs, hascii, flatten_injective d.areWellFormed hwell hflat, hu⟩
  · rintro ⟨bs, hascii, hlocations, hu⟩
    have hbs := length_le_length_value (Tag.context 6) bs
    rw [content, hlocations, List.flatten_singleton, List.length_append] at hlen
    have htakes : TakesAll (readLocation ofOctets err) (value (Tag.context 6) bs) u :=
      (takes_readLocation (by omega) hascii hu).all
    rw [hlocations, List.flatten_singleton, Input.readAll, htakes]
    rfl

theorem readAll_readLocation_bind (hlen : d.content.length < lengthBound)
    {g : α → AccessLocations} :
    (⟨d.locations.flatten, some 0⟩ : Input).readAll
        (readLocation ofOctets err >>= fun u => pure (g u)) = .ok after ↔
      ∃ u, d.IsAt ofOctets u ∧ g u = after := by
  rw [readAll_bind_pure, map_eq_ok]
  exact exists_congr fun u => and_congr_left fun _ => readAll_readLocation hlen

end

/-! ### One description -/

/-- What a description does to the places that are known before it. -/
def add (before : AccessLocations) (d : AccessDescription) : Except DecodeError AccessLocations :=
  (⟨d.content, some 0⟩ : Input).readAll (readDescription before)

/-- All that a description can do to the places that are known before it. -/
inductive Adds (before : AccessLocations) (d : AccessDescription) : AccessLocations → Prop
  | repository {u : RsyncUri} (hmethod : d.method = ObjectId.caRepository)
      (hat : d.IsAt RsyncUri.ofOctets u) :
      Adds before d { before with repository := before.repository.or (some u) }
  | manifest {u : RsyncUri} (hmethod : d.method = ObjectId.manifest)
      (hat : d.IsAt RsyncUri.ofOctets u) :
      Adds before d { before with manifest := before.manifest.or (some u) }
  | notification {u : HttpsUri} (hmethod : d.method = ObjectId.notification)
      (hat : d.IsAt HttpsUri.ofOctets u) :
      Adds before d { before with notification := before.notification.or (some u) }
  | foreign (hmethod : d.isKnown = false) : Adds before d before

section

variable (hlen : d.content.length < lengthBound)

include hlen

theorem add_eq : add before d = (⟨d.locations.flatten, some 0⟩ : Input).readAll (
    if d.method = ObjectId.caRepository then
      readLocation RsyncUri.ofOctets .repositoryUri >>= fun u =>
        pure { before with repository := before.repository.or (some u) }
    else if d.method = ObjectId.manifest then
      readLocation RsyncUri.ofOctets .manifestUri >>= fun u =>
        pure { before with manifest := before.manifest.or (some u) }
    else if d.method = ObjectId.notification then
      readLocation HttpsUri.ofOctets .notifyUri >>= fun u =>
        pure { before with notification := before.notification.or (some u) }
    else captureAll >>= fun _ => pure before) := by
  have hmethod := length_le_length_value Tag.objectId d.method.octets
  rw [content, objectIdValue, List.length_append] at hlen
  exact (takes_objectId d.isProper (by omega)).readAll_bind _

/-- A description with another method changes nothing. -/
theorem add_of_foreign (h : d.isKnown = false) : add before d = .ok before := by
  obtain ⟨hrepository, hmanifest, hnotification⟩ := isKnown_eq_false.mp h
  rw [add_eq hlen, if_neg hrepository, if_neg hmanifest, if_neg hnotification, readAll_bind_pure]
  have htakes : captureAll ⟨d.locations.flatten, some 0⟩ = _ := takesAll_captureAll d.areWellFormed
  rw [Input.readAll, htakes]
  rfl

theorem add_eq_ok : add before d = .ok after ↔ Adds before d after := by
  constructor
  · intro h
    rw [add_eq hlen] at h
    split at h
    · rename_i hmethod
      obtain ⟨u, hat, rfl⟩ := (readAll_readLocation_bind hlen).mp h
      exact .repository hmethod hat
    split at h
    · rename_i hmethod
      obtain ⟨u, hat, rfl⟩ := (readAll_readLocation_bind hlen).mp h
      exact .manifest hmethod hat
    split at h
    · rename_i hmethod
      obtain ⟨u, hat, rfl⟩ := (readAll_readLocation_bind hlen).mp h
      exact .notification hmethod hat
    · rename_i hrepository hmanifest hnotification
      rw [readAll_bind_pure, map_eq_ok] at h
      obtain ⟨-, -, rfl⟩ := h
      exact .foreign (isKnown_eq_false.mpr ⟨hrepository, hmanifest, hnotification⟩)
  · intro h
    cases h with
    | repository hmethod hat =>
      rw [add_eq hlen, if_pos hmethod]
      exact (readAll_readLocation_bind hlen).mpr ⟨_, hat, rfl⟩
    | manifest hmethod hat =>
      rw [add_eq hlen, hmethod, if_neg (by decide), if_pos rfl]
      exact (readAll_readLocation_bind hlen).mpr ⟨_, hat, rfl⟩
    | notification hmethod hat =>
      rw [add_eq hlen, hmethod, if_neg (by decide), if_neg (by decide), if_pos rfl]
      exact (readAll_readLocation_bind hlen).mpr ⟨_, hat, rfl⟩
    | foreign hmethod => exact add_of_foreign hlen hmethod

/-- Whether a description is accepted does not depend on what stands before it. -/
theorem exists_add_iff (before : AccessLocations) :
    (∃ after, add before d = .ok after) ↔ d.IsAccepted := by
  simp only [add_eq_ok hlen]
  constructor
  · rintro ⟨after, h⟩
    cases h with
    | repository hmethod hat => exact isAccepted_of_repository hmethod hat
    | manifest hmethod hat =>
      exact ⟨fun h => absurd (hmethod.symm.trans h) (by decide), fun _ => ⟨_, hat⟩,
        fun h => absurd (hmethod.symm.trans h) (by decide)⟩
    | notification hmethod hat =>
      exact ⟨fun h => absurd (hmethod.symm.trans h) (by decide),
        fun h => absurd (hmethod.symm.trans h) (by decide), fun _ => ⟨_, hat⟩⟩
    | foreign hmethod => exact isAccepted_of_foreign hmethod
  · intro h
    by_cases hrepository : d.method = ObjectId.caRepository
    · obtain ⟨u, hat⟩ := h.repository hrepository
      exact ⟨_, .repository hrepository hat⟩
    by_cases hmanifest : d.method = ObjectId.manifest
    · obtain ⟨u, hat⟩ := h.manifest hmanifest
      exact ⟨_, .manifest hmanifest hat⟩
    by_cases hnotification : d.method = ObjectId.notification
    · obtain ⟨u, hat⟩ := h.notification hnotification
      exact ⟨_, .notification hnotification hat⟩
    exact ⟨before, .foreign (isKnown_eq_false.mpr ⟨hrepository, hmanifest, hnotification⟩)⟩

end

/-! ### A list of descriptions -/

/-- The list is short enough for the length in front of it, which has four octets at most. -/
def Fits (ds : List AccessDescription) : Prop :=
  (ds.flatMap encode).length < lengthBound

theorem Fits.content_lt (h : Fits ds) (hd : d ∈ ds) : d.content.length < lengthBound := by
  have hcontent : d.content.length ≤ d.encode.length := length_le_length_value _ _
  exact Nat.lt_of_le_of_lt hcontent (Nat.lt_of_le_of_lt (length_le_flatMap_of_mem hd) h)

/-- A list is read as its descriptions are added one after the other. -/
theorem decode_encodeList (h : Fits ds) : decode read (encodeList ds) = ds.foldlM add empty := by
  have hlist := decode_inSequence
    (r := repeated (fun before => inSequence? (readDescription before)) empty) h []
  rw [List.append_nil] at hlist
  have hend : ∀ before, TakesAll (inSequence? (readDescription before)) [] none := fun _ => rfl
  refine hlist.trans (readAll_repeated hend
    (fun d hd => ⟨?_, fun before after missing => ?_⟩) empty)
  · simp [encode, sequenceValue, constructedValue, value, announced]
  · exact inSequence?_sequenceValue (h.content_lt hd) after missing

theorem exists_foldlM_add_iff : ∀ {ds : List AccessDescription} (before : AccessLocations),
    (∀ d ∈ ds, d.content.length < lengthBound) →
      ((∃ after, ds.foldlM add before = .ok after) ↔ ∀ d ∈ ds, d.IsAccepted)
  | [], before, _ => by simp
  | d :: ds, before, hlen => by
    rw [List.forall_mem_cons] at hlen
    rw [List.forall_mem_cons, ← exists_add_iff hlen.1 before, List.foldlM_cons]
    constructor
    · rintro ⟨after, h⟩
      obtain ⟨next, hnext, h⟩ := bind_eq_ok.mp h
      exact ⟨⟨next, hnext⟩, (exists_foldlM_add_iff next hlen.2).mp ⟨after, h⟩⟩
    · rintro ⟨⟨next, hnext⟩, hds⟩
      obtain ⟨after, h⟩ := (exists_foldlM_add_iff next hlen.2).mpr hds
      exact ⟨after, bind_eq_ok.mpr ⟨next, hnext, h⟩⟩

/-- Only descriptions with known methods matter to what is read, be it places or a fault. -/
theorem foldlM_add_filter : ∀ {ds : List AccessDescription} {before : AccessLocations},
    (∀ d ∈ ds, d.content.length < lengthBound) →
      (ds.filter isKnown).foldlM add before = ds.foldlM add before
  | [], _, _ => rfl
  | d :: ds, before, hlen => by
    rw [List.forall_mem_cons] at hlen
    rw [List.filter_cons]
    split
    · rw [List.foldlM_cons, List.foldlM_cons]
      exact congrArg _ (funext fun _ => foldlM_add_filter hlen.2)
    · rename_i hforeign
      rw [List.foldlM_cons, add_of_foreign hlen.1 (Bool.not_eq_true _ ▸ hforeign)]
      exact foldlM_add_filter hlen.2

section

variable {field : AccessLocations → Option α} {method : ObjectId}
  {ofOctets : Octets → Except UriError α}

/-- A description with the method of a place settles it unless it is settled; no other one has to do
    with it. -/
def Settles (field : AccessLocations → Option α) (method : ObjectId)
    (ofOctets : Octets → Except UriError α) : Prop :=
  ∀ before d after, Adds before d after →
    (d.method = method ∧ ∃ u, d.IsAt ofOctets u ∧ field after = (field before).or (some u)) ∨
    (d.method ≠ method ∧ field after = field before)

theorem settles_repository : Settles repository ObjectId.caRepository RsyncUri.ofOctets := by
  intro before d after h
  cases h with
  | repository hmethod hat => exact .inl ⟨hmethod, _, hat, rfl⟩
  | manifest hmethod hat => exact .inr ⟨hmethod ▸ by decide, rfl⟩
  | notification hmethod hat => exact .inr ⟨hmethod ▸ by decide, rfl⟩
  | foreign hmethod => exact .inr ⟨(isKnown_eq_false.mp hmethod).1, rfl⟩

theorem settles_manifest : Settles manifest ObjectId.manifest RsyncUri.ofOctets := by
  intro before d after h
  cases h with
  | repository hmethod hat => exact .inr ⟨hmethod ▸ by decide, rfl⟩
  | manifest hmethod hat => exact .inl ⟨hmethod, _, hat, rfl⟩
  | notification hmethod hat => exact .inr ⟨hmethod ▸ by decide, rfl⟩
  | foreign hmethod => exact .inr ⟨(isKnown_eq_false.mp hmethod).2.1, rfl⟩

theorem settles_notification :
    Settles notification ObjectId.notification HttpsUri.ofOctets := by
  intro before d after h
  cases h with
  | repository hmethod hat => exact .inr ⟨hmethod ▸ by decide, rfl⟩
  | manifest hmethod hat => exact .inr ⟨hmethod ▸ by decide, rfl⟩
  | notification hmethod hat => exact .inl ⟨hmethod, _, hat, rfl⟩
  | foreign hmethod => exact .inr ⟨(isKnown_eq_false.mp hmethod).2.2, rfl⟩

/-- What has been settled before a list stays; otherwise the first description with the method
    settles it. -/
theorem Settles.foldlM_add (hfield : Settles field method ofOctets) :
    ∀ {ds : List AccessDescription} {before after : AccessLocations},
      (∀ d ∈ ds, d.content.length < lengthBound) → ds.foldlM add before = .ok after →
        ∃ o, FirstAt method ofOctets ds o ∧ field after = (field before).or o
  | [], before, after, _, h => by
    obtain rfl := pure_eq_ok.mp h
    exact ⟨none, by simp [FirstAt], by simp⟩
  | d :: ds, before, after, hlen, h => by
    rw [List.forall_mem_cons] at hlen
    rw [List.foldlM_cons] at h
    obtain ⟨next, hnext, h⟩ := bind_eq_ok.mp h
    obtain ⟨o, ho, hafter⟩ := hfield.foldlM_add hlen.2 h
    rcases hfield _ _ _ ((add_eq_ok hlen.1).mp hnext) with
      ⟨hmethod, u, hat, hset⟩ | ⟨hmethod, hkept⟩
    · refine ⟨some u, ⟨d, by simp [hmethod], hat⟩, ?_⟩
      rw [hafter, hset, Option.or_assoc, Option.some_or]
    · refine ⟨o, ?_, by rw [hafter, hkept]⟩
      cases o with
      | none => exact List.forall_mem_cons.mpr ⟨hmethod, ho⟩
      | some u =>
        obtain ⟨first, hfirst, hat⟩ := ho
        exact ⟨first, by rw [List.find?_cons_of_neg (by simpa using hmethod), hfirst], hat⟩

/-- A place is where the first description with its method says. -/
theorem Settles.firstAt (hfield : Settles field method ofOctets) (hempty : field empty = none)
    (hlen : ∀ d ∈ ds, d.content.length < lengthBound) (h : ds.foldlM add empty = .ok after) :
    FirstAt method ofOctets ds (field after) := by
  obtain ⟨o, ho, hafter⟩ := hfield.foldlM_add hlen h
  rw [hempty, Option.none_or] at hafter
  exact hafter ▸ ho

end

/-- A list of access descriptions is accepted iff each description with a known method gives its
    place, each place is then where the first description with its method says, and descriptions
    with other methods never matter. -/
theorem read_exact (hfits : Fits ds) :
    ((∃ l, decode read (encodeList ds) = .ok l) ↔ ∀ d ∈ ds, d.IsAccepted) ∧
    (∀ l, decode read (encodeList ds) = .ok l →
      FirstAt ObjectId.caRepository RsyncUri.ofOctets ds l.repository ∧
      FirstAt ObjectId.manifest RsyncUri.ofOctets ds l.manifest ∧
      FirstAt ObjectId.notification HttpsUri.ofOctets ds l.notification) ∧
    ∀ es : List AccessDescription, Fits es → es.filter isKnown = ds.filter isKnown →
      decode read (encodeList es) = decode read (encodeList ds) := by
  have hlen : ∀ d ∈ ds, d.content.length < lengthBound := fun d hd => hfits.content_lt hd
  rw [decode_encodeList hfits]
  refine ⟨exists_foldlM_add_iff empty hlen, fun l hl => ?_, fun es hes hknown => ?_⟩
  · exact ⟨settles_repository.firstAt rfl hlen hl, settles_manifest.firstAt rfl hlen hl,
      settles_notification.firstAt rfl hlen hl⟩
  · rw [decode_encodeList hes, ← foldlM_add_filter hlen, ← hknown,
      foldlM_add_filter fun d hd => hes.content_lt hd]

/-- A description of a repository. -/
def sampleAt (text : String) (h : (Octets.ofAscii text).length < lengthBound) :
    AccessDescription where
  method := ObjectId.caRepository
  locations := [value (Tag.context 6) (Octets.ofAscii text)]
  isProper := by decide
  areWellFormed := List.forall_mem_singleton.mpr (isWellFormed_value opens_location h)

/-- Two repositories, and in front of them a description with another method and no location. -/
def sampleList : List AccessDescription := [
  ⟨ObjectId.caIssuers, [nullValue, nullValue], by decide, by decide⟩,
  sampleAt "rsync://host/module/a" (by decide), sampleAt "rsync://host/module/b" (by decide)]

/-- The first of the two repositories counts. -/
theorem read_exact_sample : ∃ l u, decode read (encodeList sampleList) = .ok l ∧
    l.repository = some u ∧ u.octets = Octets.ofAscii "rsync://host/module/a" ∧
    l.manifest = none := by
  have hfits : Fits sampleList := by
    unfold Fits
    decide
  have hat : ∀ text h, (RsyncUri.ofOctets (Octets.ofAscii text)).isOk = true →
      (∀ b ∈ Octets.ofAscii text, b < 0x80) → (sampleAt text h).IsAccepted := by
    intro text h hok hascii
    cases hu : RsyncUri.ofOctets (Octets.ofAscii text) with
    | error err => simp [hu, Except.isOk, Except.toBool] at hok
    | ok u => exact isAccepted_of_repository rfl ⟨_, hascii, rfl, hu⟩
  have haccepted : ∀ d ∈ sampleList, d.IsAccepted := by
    refine List.forall_mem_cons.mpr ⟨isAccepted_of_foreign (by decide), ?_⟩
    refine List.forall_mem_cons.mpr ⟨hat _ _ (by decide +kernel) (by decide +kernel), ?_⟩
    exact List.forall_mem_singleton.mpr (hat _ _ (by decide +kernel) (by decide +kernel))
  obtain ⟨hiff, hplaces, -⟩ := read_exact hfits
  obtain ⟨l, hl⟩ := hiff.mpr haccepted
  obtain ⟨hrepository, hmanifest, -⟩ := hplaces l hl
  cases hu : l.repository with
  | none =>
    rw [hu] at hrepository
    exact absurd rfl (hrepository _ (List.mem_cons_of_mem _ List.mem_cons_self))
  | some u =>
    rw [hu] at hrepository
    obtain ⟨d, hd, bs, -, hlocation, hbs⟩ := hrepository
    obtain rfl : sampleAt "rsync://host/module/a" (by decide) = d := Option.some.inj hd
    have hvalue := (value_inj (List.cons.inj hlocation).1).2
    refine ⟨l, u, hl, hu, (RsyncUri.octets_of_ofOctets hbs).trans hvalue.symm, ?_⟩
    cases hm : l.manifest with
    | none => rfl
    | some v =>
      rw [hm] at hmanifest
      obtain ⟨e, he, -⟩ := hmanifest
      have hnone : sampleList.find? (·.method == ObjectId.manifest) = none := rfl
      exact absurd (hnone.symm.trans he) (by simp)

end AccessLocations

end ResourcePki

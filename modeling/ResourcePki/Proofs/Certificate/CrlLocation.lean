import ResourcePki.Proofs.Certificate.Purpose

/-!
Where a certificate says that its revocation list is.

Of all that distribution points may hold, only one form is understood: a single point that is named
in full, by locations alone. Its locations are read up to the last one before any of them is chosen,
so whatever is not an rsync URI is passed over wherever it stands, and the first one that is counts.
Anything else that a list of points can say is refused.
-/

namespace ResourcePki

open Der

/-! ### Distribution points -/

/-- The name of a distribution point: general names, or a part of a name that goes on from that of
    the issuer. -/
inductive PointName where
  | full (names : List Octets) (areWellFormed : ∀ v ∈ names, IsWellFormed v)
  | relative (content : Octets)

/-- A distribution point, with the contents of its parts. -/
structure DistributionPoint where
  name : Option PointName
  reasons : Option Octets
  issuer : Option Octets

/-- The name as it is written. -/
def PointName.encode : PointName → Octets
  | full names _ => constructedValue (Tag.context 0) names.flatten
  | relative content => constructedValue (Tag.context 1) content

namespace DistributionPoint

variable {p : DistributionPoint} {ps : List DistributionPoint} {names : List Octets}

/-- What the point is made of. -/
def content (p : DistributionPoint) : Octets :=
  p.name.elim [] (fun name => constructedValue (Tag.context 0) name.encode) ++
    (p.reasons.elim [] (value (Tag.context 1)) ++
      p.issuer.elim [] (constructedValue (Tag.context 2)))

/-- A list of points as it is written. -/
def encodeList (ps : List DistributionPoint) : Octets :=
  sequenceValue (ps.flatMap fun p => sequenceValue p.content)

/-- A general name is a location with the given text. -/
def IsLocation (v name : Octets) : Prop :=
  v = value (Tag.context 6) name ∧ ∀ b ∈ name, b < 0x80

/-- The point has a full name only, and this consists of locations. -/
structure IsNamedBy (p : DistributionPoint) (names : List Octets) : Prop where
  name : ∃ h, p.name = some (.full (names.map (value (Tag.context 6))) h)
  ascii : ∀ name ∈ names, ∀ b ∈ name, b < 0x80
  reasons : p.reasons = none
  issuer : p.issuer = none

/-- The point has reasons or an issuer, or a general name that is no location. -/
def Strays (p : DistributionPoint) : Prop :=
  p.reasons ≠ none ∨ p.issuer ≠ none ∨
    ∃ values h, p.name = some (.full values h) ∧ ∃ v ∈ values, ∀ name, ¬IsLocation v name

theorem IsNamedBy.not_strays (h : p.IsNamedBy names) : ¬p.Strays := by
  obtain ⟨⟨hwell, hname⟩, hascii, hreasons, hissuer⟩ := h
  rintro (hgiven | hgiven | ⟨values, hwell', hvalues, v, hv, hforeign⟩)
  · exact hgiven hreasons
  · exact hgiven hissuer
  · rw [hname, Option.some.injEq, PointName.full.injEq] at hvalues
    obtain ⟨name, hmem, rfl⟩ := List.mem_map.mp (hvalues ▸ hv)
    exact hforeign name ⟨rfl, hascii name hmem⟩

theorem opens_part : Opens (Tag.context 0 ||| 0x20) (Tag.context 0) true :=
  ⟨by decide, rfl, rfl, by decide⟩

theorem encodeList_of_isNamedBy (h : p.IsNamedBy names) : encodeList [p] = crlValue names := by
  obtain ⟨⟨hwell, hname⟩, -, hreasons, hissuer⟩ := h
  simp [encodeList, content, hname, hreasons, hissuer, PointName.encode, crlValue, List.flatMap]

/-- A single sequence is the content of a list of a single point. -/
theorem eq_singleton {content : Octets} (hlen : (sequenceValue content).length < lengthBound)
    (h : sequenceValue content = ps.flatMap fun p => sequenceValue p.content) :
    ∃ p, ps = [p] ∧ p.content = content := by
  cases ps with
  | nil => exact absurd h (sequenceValue_ne_nil content)
  | cons p ps =>
    rw [← List.append_nil (sequenceValue content)] at h hlen
    obtain ⟨-, hcontent, hrest⟩ := value_append_inj hlen h
    cases ps with
    | nil => exact ⟨p, rfl, hcontent.symm⟩
    | cons q ps => exact absurd (List.append_eq_nil_iff.mp hrest.symm).1 (sequenceValue_ne_nil _)

/-- If a name is all that a point is made of, the point has this name only. -/
theorem name_of_content {bs : Octets} (hlen : p.content.length < lengthBound)
    (h : p.content = constructedValue (Tag.context 0) bs) :
    (∃ name, p.name = some name ∧ name.encode = bs) ∧ p.reasons = none ∧ p.issuer = none := by
  obtain ⟨name, reasons, issuer⟩ := p
  rw [← List.append_nil (constructedValue _ _)] at h
  cases name with
  | some name =>
    obtain ⟨-, hname, hrest⟩ := value_append_inj hlen h
    obtain ⟨hreasons, hissuer⟩ := List.append_eq_nil_iff.mp hrest
    refine ⟨⟨name, rfl, hname⟩, ?_, ?_⟩
    · cases reasons with
      | none => rfl
      | some bs => exact absurd hreasons (value_ne_nil _ _)
    · cases issuer with
      | none => rfl
      | some bs => exact absurd hissuer (value_ne_nil _ _)
  | none =>
    -- whatever comes first begins with another tag
    cases reasons with
    | some bs => exact absurd (value_append_inj hlen h).1 (by decide)
    | none =>
      cases issuer with
      | none => exact absurd (List.append_eq_nil_iff.mp h.symm).1 (value_ne_nil _ _)
      | some bs =>
        rw [List.append_nil] at h
        exact absurd (value_inj h).1 (by decide)

/-- If a name is a list of locations, it is a full one that consists of these. -/
theorem names_of_encode {name : PointName} (hlen : name.encode.length < lengthBound)
    (h : name.encode =
      constructedValue (Tag.context 0) (names.flatMap (value (Tag.context 6)))) :
    ∃ hwell, name = .full (names.map (value (Tag.context 6))) hwell := by
  cases name with
  | relative content => exact absurd (value_inj h).1 (by decide)
  | full values hvalues =>
    have hflat : values.flatten = (names.map (value (Tag.context 6))).flatten := (value_inj h).2
    have hcontent : values.flatten.length ≤ (PointName.full values hvalues).encode.length :=
      length_le_length_value _ _
    have hwell : ∀ v ∈ names.map (value (Tag.context 6)), IsWellFormed v := by
      rw [List.forall_mem_map]
      intro name hname
      have hvalue := (List.sublist_flatten_of_mem
        (List.mem_map_of_mem (f := value (Tag.context 6)) hname)).length_le
      have hoctets := length_le_length_value (Tag.context 6) name
      rw [← hflat] at hvalue
      exact isWellFormed_value opens_location (by omega)
    obtain rfl := flatten_injective hvalues hwell hflat
    exact ⟨hwell, rfl⟩

/-- What begins with a point that is named by locations is a list of that point alone. -/
theorem exists_isNamedBy (hlen : (encodeList ps).length < lengthBound)
    (hascii : ∀ name ∈ names, ∀ b ∈ name, b < 0x80) (h : crlValue names <+: encodeList ps) :
    ∃ p, ps = [p] ∧ p.IsNamedBy names := by
  obtain ⟨rest, hrest⟩ := h
  have hlist : (ps.flatMap fun p => sequenceValue p.content).length ≤ (encodeList ps).length :=
    length_le_length_value _ _
  rw [← List.append_nil (encodeList ps)] at hrest
  obtain ⟨-, hpoints, -⟩ :=
    value_append_inj (by rw [← List.append_nil (encodeList ps), ← hrest] at hlen; exact hlen) hrest
  obtain ⟨p, rfl, hcontent⟩ := eq_singleton (by rw [hpoints]; omega) hpoints
  rw [List.flatMap_singleton] at hlist
  have hpoint : p.content.length ≤ (sequenceValue p.content).length := length_le_length_value _ _
  obtain ⟨⟨name, hname, hencode⟩, hreasons, hissuer⟩ := name_of_content (by omega) hcontent
  have hpart : name.encode.length ≤ p.content.length := by
    rw [hcontent, ← hencode]
    exact length_le_length_value _ _
  obtain ⟨hwell, rfl⟩ := names_of_encode (by omega) hencode
  exact ⟨p, rfl, ⟨hwell, hname⟩, hascii, hreasons, hissuer⟩

end DistributionPoint

/-! ### Choosing a location -/

/-- The URI is the first one among some locations; those before it are no rsync URIs. -/
def RsyncUri.IsFirstIn (u : RsyncUri) (names : List Octets) : Prop :=
  ∃ before name after, names = before ++ name :: after ∧ ofOctets name = .ok u ∧
    ∀ other ∈ before, ∀ v, ofOctets other ≠ .ok v

namespace Certificate

variable {u : RsyncUri} {names : List Octets} {name : Octets}

theorem firstRsync?_eq_some : firstRsync? names = some u ↔ u.IsFirstIn names := by
  simp only [firstRsync?, List.findSome?_eq_some_iff, RsyncUri.IsFirstIn, toOption_eq_some,
    toOption_eq_none]

theorem firstRsync?_eq_none :
    firstRsync? names = none ↔ ∀ name ∈ names, ∀ v, RsyncUri.ofOctets name ≠ .ok v := by
  simp only [firstRsync?, List.findSome?_eq_none_iff, toOption_eq_none]

/-! ### Reading -/

theorem takes_readName? (hlen : name.length < lengthBound) (hascii : ∀ b ∈ name, b < 0x80) :
    Takes readName? (value (Tag.context 6) name) (some name) :=
  (takes_elementOf? opens_location hlen).bind_nil
    (Takes.lift_bind (Element.ia5String_eq_ok.mpr ⟨Element.primitive_ofContent, hascii⟩) Takes.pure)

theorem readAll_readCrlNames (hascii : ∀ name ∈ names, ∀ b ∈ name, b < 0x80)
    (hlen : (names.flatMap (value (Tag.context 6))).length < lengthBound) :
    (⟨names.flatMap (value (Tag.context 6)), some 0⟩ : Input).readAll readCrlNames
      = match firstRsync? names with
        | some u => .ok u
        | none => .error .crlUri := by
  have hend : TakesAll readName? [] none := rfl
  have hnames : many readName? ⟨names.flatMap (value (Tag.context 6)), some 0⟩ = _ :=
    takesAll_many hend (fun name _ => value_ne_nil _ name) fun name hname => by
      have hvalue : (value (Tag.context 6) name).length
          ≤ (names.flatMap (value (Tag.context 6))).length := length_le_flatMap_of_mem hname
      have hoctets := length_le_length_value (Tag.context 6) name
      exact takes_readName? (by omega) (hascii name hname)
  have hrun : readCrlNames ⟨names.flatMap (value (Tag.context 6)), some 0⟩
      = (match firstRsync? names with
        | some u => (pure u : Reader RsyncUri)
        | none => throw DecodeError.crlUri) ⟨[], some 0⟩ := by
    show (many readName? ⟨names.flatMap (value (Tag.context 6)), some 0⟩ >>= _) = _
    rw [hnames]
    rfl
  rw [Input.readAll, hrun]
  cases firstRsync? names with
  | some u => rfl
  | none => rfl

/-- A single point that is named by locations is read as the first of them that is an rsync URI. -/
theorem decode_crlValue (hascii : ∀ name ∈ names, ∀ b ∈ name, b < 0x80)
    (hlen : (crlValue names).length < lengthBound) :
    decode readCrlUri (crlValue names) = match firstRsync? names with
      | some u => .ok u
      | none => .error .crlUri := by
  let locations := names.flatMap (value (Tag.context 6))
  let named := constructedValue (Tag.context 0) locations
  let part := constructedValue (Tag.context 0) named
  have hlist : (sequenceValue part).length ≤ (crlValue names).length := length_le_length_value _ _
  have hpoint : part.length ≤ (sequenceValue part).length := length_le_length_value _ _
  have hpart : named.length ≤ part.length := length_le_length_value _ _
  have hnamed : locations.length ≤ named.length := length_le_length_value _ _
  have hlocations : locations.length < lengthBound := by omega
  have hdata : crlValue names = sequenceValue (sequenceValue part) ++ [] :=
    (List.append_nil _).symm
  calc decode readCrlUri (crlValue names)
    _ = (⟨sequenceValue part, some 0⟩ : Input).readAll
          (inSequence (constructed (Tag.context 0)
            (constructed (Tag.context 0) readCrlNames))) := by
      rw [hdata]
      exact decode_inSequence (by omega) []
    _ = (⟨part, some 0⟩ : Input).readAll
          (constructed (Tag.context 0) (constructed (Tag.context 0) readCrlNames)) :=
      readAll_constructedValue opens_sequence (by omega)
    _ = (⟨named, some 0⟩ : Input).readAll (constructed (Tag.context 0) readCrlNames) :=
      readAll_constructedValue DistributionPoint.opens_part (by omega)
    _ = (⟨locations, some 0⟩ : Input).readAll readCrlNames :=
      readAll_constructedValue DistributionPoint.opens_part hlocations
    _ = _ := readAll_readCrlNames hascii hlocations

variable {c : Certificate} {e : Extension} {bs : Octets} {points : List DistributionPoint}

/-- A field that may not be critical is what the value of its extension is read as. -/
theorem optionalField_eq {α : Type} {id : ObjectId} {err : InspectionError} {r : Reader α}
    (he : c.extension? id = some e) (hopen : e.critical = false) :
    c.optionalField id err r = match e.decodeValue r with
      | .ok a => .ok (some a)
      | .error fault => .error (.decoding fault) := by
  simp only [optionalField, Extension.requireNonCritical, he, hopen]
  cases e.decodeValue r with
  | ok a => rfl
  | error fault => rfl

/-- The location of the revocation list is the first rsync URI among the locations of a single
    distribution point that has nothing but a full name of locations. If there is no such URI among
    them, or the points are of any other form, there is no location but a fault. -/
theorem crlUri_exact (h : ofDer bs = .ok c)
    (he : c.extension? ObjectId.crlDistributionPoints = some e) (hopen : e.critical = false)
    (hvalue : e.value = DistributionPoint.encodeList points) :
    (∀ p names, points = [p] → p.IsNamedBy names →
      (∀ u, c.crlUri? = .ok (some u) ↔ u.IsFirstIn names) ∧
      ((∃ err, c.crlUri? = .error err) ↔
        ∀ name ∈ names, ∀ v, RsyncUri.ofOctets name ≠ .ok v)) ∧
    (points.length ≠ 1 ∨ (∃ p ∈ points, p.Strays) → ∃ err, c.crlUri? = .error err) ∧
    ((∀ p names, points = [p] → ¬p.IsNamedBy names) → ∃ err, c.crlUri? = .error err) := by
  have hlen : e.value.length < lengthBound := length_value_lt (bounded_of_ofDer h) he
  have hfield : c.crlUri? = _ := optionalField_eq he hopen
  have hother : (∀ p names, points = [p] → ¬p.IsNamedBy names) → ∃ err, c.crlUri? = .error err := by
    intro hnone
    rw [hfield]
    cases hread : e.decodeValue readCrlUri with
    | error fault => exact ⟨_, rfl⟩
    | ok u =>
      obtain ⟨_, hprefix, names, rfl, hascii, -⟩ := reads_crlUri.of_decode hread
      obtain ⟨p, hp, hnamed⟩ :=
        DistributionPoint.exists_isNamedBy (hvalue ▸ hlen) hascii (hvalue ▸ hprefix)
      exact absurd hnamed (hnone p names hp)
  refine ⟨fun p names hp hnamed => ?_, fun hstray => hother fun p names hp hnamed => ?_, hother⟩
  · have hcrl : e.value = crlValue names := by
      rw [hvalue, hp, DistributionPoint.encodeList_of_isNamedBy hnamed]
    rw [hfield, Extension.decodeValue, hcrl, decode_crlValue hnamed.ascii (hcrl ▸ hlen),
      ← firstRsync?_eq_none]
    simp only [← firstRsync?_eq_some]
    cases firstRsync? names with
    | some u => simp
    | none => simp
  · subst hp
    rcases hstray with hcount | ⟨q, hq, hstrays⟩
    · exact hcount rfl
    · obtain rfl := List.mem_singleton.mp hq
      exact hnamed.not_strays hstrays

/-- Locations of two schemes. -/
def sampleNames : List Octets :=
  ["https://host/ca.crl", "rsync://host/module/a.crl", "rsync://host/module/b.crl"].map
    Octets.ofAscii

theorem areWellFormed_sampleNames :
    ∀ v ∈ sampleNames.map (value (Tag.context 6)), IsWellFormed v := by
  decide +kernel

/-- A point that is named by them. -/
def samplePoint : DistributionPoint :=
  ⟨some (.full (sampleNames.map (value (Tag.context 6))) areWellFormed_sampleNames), none, none⟩

/-- The extension with this point. -/
def samplePointed : List Extension :=
  [⟨ObjectId.crlDistributionPoints, false, DistributionPoint.encodeList [samplePoint]⟩]

/-- The location of the other scheme is passed over, and the first one behind it counts. -/
theorem crlUri_exact_sample : ∃ c u, ofDer (sampleWith samplePointed) = .ok c ∧
    c.crlUri? = .ok (some u) ∧ u.octets = Octets.ofAscii "rsync://host/module/a.crl" := by
  obtain ⟨c, hc, hextension⟩ :=
    @exists_ofDer (sampleWith samplePointed) samplePointed (by decide +kernel)
  have he : c.extension? ObjectId.crlDistributionPoints = samplePointed[0]? := hextension _
  have hnamed : samplePoint.IsNamedBy sampleNames :=
    ⟨⟨areWellFormed_sampleNames, rfl⟩, by decide +kernel, rfl, rfl⟩
  have hnone : (RsyncUri.ofOctets (Octets.ofAscii "https://host/ca.crl")).toOption.isNone := by
    decide +kernel
  have hsome :
      (RsyncUri.ofOctets (Octets.ofAscii "rsync://host/module/a.crl")).toOption.isSome := by
    decide +kernel
  obtain ⟨u, hu⟩ := Option.isSome_iff_exists.mp hsome
  rw [Option.isNone_iff_eq_none, toOption_eq_none] at hnone
  rw [toOption_eq_some] at hu
  have hfirst : u.IsFirstIn sampleNames :=
    ⟨[_], _, [_], rfl, hu, List.forall_mem_singleton.mpr hnone⟩
  exact ⟨c, u, hc, (((crlUri_exact hc he rfl rfl).1 _ _ rfl hnamed).1 u).mpr hfirst,
    RsyncUri.octets_of_ofOctets hu⟩

end Certificate

end ResourcePki

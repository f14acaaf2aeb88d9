import ResourcePki.Proofs.Der.Framing

/-!
Written values that are not made of others.

For object identifiers, bits, truth values and values that are only kept, each reader takes exactly
what the writer gives for something proper: an identifier that ends its last arc, bits with nothing
in the part to spare. An optional value is passed over if a well-formed value of another kind comes
next.
-/

namespace ResourcePki

/-- The identifier has an octet, and the last one ends an arc. -/
def ObjectId.IsProper (id : ObjectId) : Prop :=
  ∃ last, id.octets.getLast? = some last ∧ last < 0x80

theorem ObjectId.ofContent?_eq_some {bs : Octets} {id : ObjectId} :
    ofContent? bs = some id ↔ id.octets = bs ∧ id.IsProper := by
  unfold ofContent?
  constructor
  · intro h
    split at h
    · simp at h
    · rename_i last hlast
      split at h
      · rename_i hlow
        obtain rfl := Option.some.inj h
        exact ⟨rfl, last, hlast, hlow⟩
      · simp at h
  · rintro ⟨rfl, last, hlast, hlow⟩
    simp [hlast, hlow]

instance (id : ObjectId) : Decidable id.IsProper :=
  decidable_of_iff (ObjectId.ofContent? id.octets = some id) (by simp [ObjectId.ofContent?_eq_some])

namespace Der

/-! ### Object identifiers -/

theorem opens_objectId : Opens Tag.objectId Tag.objectId false :=
  ⟨by decide, rfl, rfl, by decide⟩

theorem Element.objectId_eq_ok {e : Element} {id : ObjectId} :
    e.objectId = .ok id ↔ e.primitive = .ok id.octets ∧ id.IsProper := by
  unfold objectId
  rw [bind_eq_ok]
  constructor
  · rintro ⟨bs, hbs, h⟩
    split at h
    · rename_i id' hid
      obtain rfl := pure_eq_ok.mp h
      obtain ⟨rfl, hproper⟩ := ObjectId.ofContent?_eq_some.mp hid
      exact ⟨hbs, hproper⟩
    · exact absurd h throw_ne_ok
  · rintro ⟨hbs, hproper⟩
    exact ⟨_, hbs, by rw [ObjectId.ofContent?_eq_some.mpr ⟨rfl, hproper⟩]; rfl⟩

theorem reads_objectId : Reads objectId fun id bs => bs = objectIdValue id ∧ id.IsProper := by
  refine (reads_elementOf (S := fun content id ys => content = id.octets ∧ ys = [] ∧ id.IsProper)
    (by decide) fun e => Reads.lift fun id hid => ?_).weaken ?_
  · obtain ⟨hcontent, hproper⟩ := Element.objectId_eq_ok.mp hid
    exact ⟨_, hcontent, rfl, rfl, hproper⟩
  · rintro id bs ⟨content, ys, rfl, rfl, rfl, hproper⟩
    exact ⟨List.append_nil _, hproper⟩

variable {id : ObjectId}

theorem takes_objectId (h : id.IsProper) (hlen : id.octets.length < lengthBound) :
    Takes objectId (objectIdValue id) id :=
  (takes_elementOf opens_objectId hlen).bind_nil
    (Takes.lift (Element.objectId_eq_ok.mpr ⟨Element.primitive_ofContent, h⟩))

theorem takes_objectId? (h : id.IsProper) (hlen : id.octets.length < lengthBound) :
    Takes objectId? (objectIdValue id) (some id) :=
  (takes_elementOf? opens_objectId hlen).bind_nil
    (Takes.lift_bind (Element.objectId_eq_ok.mpr ⟨Element.primitive_ofContent, h⟩) Takes.pure)

theorem isWellFormed_objectIdValue (hlen : id.octets.length < lengthBound) :
    IsWellFormed (objectIdValue id) :=
  isWellFormed_value opens_objectId hlen

/-! ### Bits -/

theorem reads_bitString :
    Reads bitString fun bits bs => bs = bitStringValue bits ∧ bits.IsTrimmed := by
  refine (reads_elementOf (S := fun content (bits : BitString) ys =>
    content = UInt8.ofNat bits.unused :: bits.octets ∧ ys = [] ∧ bits.IsTrimmed) (by decide)
    fun e => Reads.lift fun bits hbits => ?_).weaken ?_
  · obtain ⟨htrimmed, hcontent⟩ := Element.of_bitString hbits
    exact ⟨_, hcontent, rfl, rfl, htrimmed⟩
  · rintro bits bs ⟨content, ys, rfl, rfl, rfl, htrimmed⟩
    exact ⟨List.append_nil _, htrimmed⟩

theorem takes_bitString {bits : BitString} (h : bits.IsTrimmed)
    (hlen : bits.octets.length + 1 < lengthBound) :
    Takes bitString (bitStringValue bits) bits := by
  have hcontent : (UInt8.ofNat bits.unused :: bits.octets).length < lengthBound := hlen
  exact (takes_elementOf opens_bitString hcontent).bind_nil
    (Takes.lift (Element.bitString_ofContent h _))

theorem isWellFormed_bitStringValue {bits : BitString}
    (hlen : bits.octets.length + 1 < lengthBound) : IsWellFormed (bitStringValue bits) :=
  isWellFormed_value opens_bitString hlen

/-- The octets of trimmed bits are told from their value. -/
theorem eq_of_bitString_content {a b : BitString} (ha : a.unused < 8) (hb : b.unused < 8)
    (h : UInt8.ofNat a.unused :: a.octets = UInt8.ofNat b.unused :: b.octets) : a = b := by
  obtain ⟨hunused, hoctets⟩ := List.cons.inj h
  have hvalue := congrArg UInt8.toNat hunused
  rw [toNat_unused ha, toNat_unused hb] at hvalue
  obtain ⟨u, bs⟩ := a
  obtain ⟨v, cs⟩ := b
  obtain rfl : u = v := hvalue
  obtain rfl : bs = cs := hoctets
  rfl

/-! ### Octets -/

theorem reads_octetString : Reads octetString fun content bs => bs = octetStringValue content := by
  refine (reads_elementOf (S := fun content content' ys => content = content' ∧ ys = []) (by decide)
    fun e => Reads.lift fun content hcontent => ⟨_, hcontent, rfl, rfl⟩).weaken ?_
  rintro content bs ⟨content', ys, rfl, rfl, rfl⟩
  exact List.append_nil _

/-! ### ASCII text -/

theorem Element.ia5String_eq_ok {e : Element} {bs : Octets} :
    e.ia5String = .ok bs ↔ e.primitive = .ok bs ∧ ∀ b ∈ bs, b < 0x80 := by
  unfold Element.ia5String
  rw [bind_eq_ok]
  constructor
  · rintro ⟨content, hcontent, h⟩
    split at h
    · rename_i hascii
      obtain rfl := pure_eq_ok.mp h
      exact ⟨hcontent, by simpa using hascii⟩
    · exact absurd h throw_ne_ok
  · rintro ⟨hcontent, hascii⟩
    exact ⟨bs, hcontent, if_pos (by simpa using hascii)⟩

/-! ### Truth values -/

/-- A truth value: one octet, all zeros or all ones. -/
def booleanValue (b : Bool) : Octets :=
  value Tag.boolean [if b then 0xff else 0x00]

theorem opens_boolean : Opens Tag.boolean Tag.boolean false :=
  ⟨by decide, rfl, rfl, by decide⟩

theorem takes_boolean? (b : Bool) : Takes boolean? (booleanValue b) (some b) := by
  have hlen : [if b then (0xff : UInt8) else 0x00].length < lengthBound := by
    rw [List.length_singleton]
    decide
  refine (takes_elementOf? opens_boolean hlen).bind_nil (Takes.lift_bind (a := b) ?_ Takes.pure)
  cases b with
  | true => rfl
  | false => rfl

theorem Element.of_boolean {e : Element} {b : Bool} (h : e.boolean = .ok b) :
    e.primitive = .ok [if b then 0xff else 0x00] := by
  obtain ⟨content, hcontent, h⟩ := bind_eq_ok.mp h
  split at h
  · obtain rfl := pure_eq_ok.mp h
    exact hcontent
  · obtain rfl := pure_eq_ok.mp h
    exact hcontent
  · exact absurd h throw_ne_ok

theorem reads_boolean? : Reads boolean? fun o bs => bs = o.elim [] booleanValue :=
  reads_primitive? (by decide) fun _ _ h => Element.of_boolean h

/-! ### Values that are kept or passed over -/

/-- Well-formed values are kept as they are. -/
theorem takesAll_captureAll {values : List Octets} (h : ∀ v ∈ values, IsWellFormed v) :
    TakesAll captureAll values.flatten values.flatten := by
  have hvalues : areValues values.flatten = true := areValues_iff.mpr ⟨values, rfl, h⟩
  show captureAll ⟨values.flatten, some 0⟩ = _
  rw [captureAll, if_pos ⟨rfl, hvalues⟩]

theorem reads_captureAll : Reads captureAll fun bs octets =>
    octets = bs ∧ ∃ values : List Octets, bs = values.flatten ∧ ∀ v ∈ values, IsWellFormed v := by
  intro s bs t h
  unfold captureAll at h
  split at h
  · rename_i hvalues
    simp only [Except.ok.injEq, Prod.mk.injEq] at h
    obtain ⟨rfl, rfl⟩ := h
    exact ⟨s.octets, (List.append_nil _).symm, rfl, rfl, areValues_iff.mp hvalues.2⟩
  · simp at h

theorem IsWellFormed.exists_readTag {v : Octets} (h : IsWellFormed v) (after : Octets) :
    ∃ tag c rest, readTag (v ++ after) = some (tag, c, rest) := by
  cases h with
  | primitive hid =>
    obtain ⟨tag, -, htag⟩ := hid.readTag_eq
    exact ⟨tag, _, _, by rw [List.append_assoc, htag]⟩
  | constructed hid =>
    obtain ⟨tag, -, htag⟩ := hid.readTag_eq
    exact ⟨tag, _, _, by rw [List.append_assoc, htag]⟩
  | indefinite hid =>
    obtain ⟨tag, -, htag⟩ := hid.readTag_eq
    exact ⟨tag, _, _, by rw [List.append_assoc, htag]⟩

/-- A value that is asked for is passed over if a value of another tag comes next. -/
theorem elementOf?_of_ne {b : UInt8} {tag found : Tag} {c : Bool} (h : Opens b found c)
    (hne : found ≠ tag) (content after : Octets) (missing : Option Nat) :
    elementOf? tag ⟨value b content ++ after, missing⟩
      = .ok (none, ⟨value b content ++ after, missing⟩) := by
  have hsome : ¬(value b content ++ after).isEmpty = true := by simp [value, announced]
  have htag : readTag (value b content ++ after)
      = some (found, c, writeLength content.length ++ content ++ after) := by
    rw [value, announced, List.cons_append]
    exact h.readTag _
  unfold elementOf?
  simp only [if_neg hsome, htag, if_neg hne]

/-- A value that is asked for is passed over if the next one does not begin with its tag. -/
theorem elementOf?_eq_none {tag : Tag} {values : List Octets} (h : ∀ v ∈ values, IsWellFormed v)
    (hhead : ∀ b ∈ values.flatten.head?, b &&& 0xdf ≠ tag) (missing : Option Nat) :
    elementOf? tag ⟨values.flatten, missing⟩ = .ok (none, ⟨values.flatten, missing⟩) := by
  unfold elementOf?
  split
  · rfl
  · cases values with
    | nil => exact absurd rfl ‹_›
    | cons v values =>
      obtain ⟨found, c, rest, htag⟩ :=
        (h v List.mem_cons_self).exists_readTag values.flatten
      rw [← List.flatten_cons] at htag
      obtain ⟨b, bs, hbs, rfl, -⟩ := readTag_cases htag
      have hne : b &&& 0xdf ≠ tag := hhead b (by rw [hbs]; rfl)
      simp only [htag, if_neg hne]

end Der

end ResourcePki

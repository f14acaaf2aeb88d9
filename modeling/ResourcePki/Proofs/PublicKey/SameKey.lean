import ResourcePki.Proofs.PublicKey.Encoding

/-!
When two encodings are those of the same key.

Some write a null value where an algorithm has no parameters, others leave it out. Taking that null
value out of an encoding shortens the lengths in front of it and leaves everything else alone. Two
keys are the same iff their encodings are equal once this has been done to both: one side compares
parts, the other octets, and since an encoding is spelled in one way from its parts they agree.
-/

namespace ResourcePki.PublicKey

open Der

/-- The second octets are the first ones without parameters that are a null value. -/
inductive DropsNull : Octets → Octets → Prop
  | null (algorithm : ObjectId) (bits : BitString) :
      DropsNull (encodingOf algorithm nullValue bits) (encodingOf algorithm [] bits)
  | other {encoding : Octets} :
      (∀ algorithm bits, encoding ≠ encodingOf algorithm nullValue bits) →
      DropsNull encoding encoding

variable {a b k : PublicKey} {bs : Octets}

theorem isSameKey_iff : a.isSameKey b = true ↔
    a.algorithm = b.algorithm ∧ a.ownParameters = b.ownParameters ∧ a.bits = b.bits := by
  simp [isSameKey, and_assoc]

/-- What is left of the encoding of a key is the encoding with its own parameters only. -/
theorem IsWhole.dropsNull_iff (h : k.IsWhole) :
    DropsNull k.encoding bs ↔ bs = encodingOf k.algorithm k.ownParameters k.bits := by
  have hencoding := h.arePartsOf.encoding_eq
  constructor
  · intro hdrops
    generalize hk : k.encoding = encoding at hdrops
    cases hdrops with
    | null algorithm bits =>
      obtain ⟨rfl, hnull, hbits⟩ := h.parts_eq hk
      rw [ownParameters, if_pos hnull, encodingOf, contentOf, ← hbits]
      rfl
    | other hother =>
      have hown : k.parameters ≠ nullValue := fun hnull =>
        hother k.algorithm k.bits (by rw [← hk, hencoding, hnull])
      rw [ownParameters, if_neg hown, ← hencoding, hk]
  · rintro rfl
    by_cases hnull : k.parameters = nullValue
    · rw [hencoding, ownParameters, if_pos hnull, hnull]
      exact .null _ _
    · rw [ownParameters, if_neg hnull, ← hencoding]
      exact .other fun algorithm bits heq => hnull (h.parts_eq heq).2.1

/-- Without a null value the encoding is not longer than before. -/
theorem IsWhole.length_own_lt (h : k.IsWhole) :
    (contentOf k.algorithm k.ownParameters k.bits).length < lengthBound := by
  have hlen := h.arePartsOf.length_lt
  unfold ownParameters
  split
  · exact Nat.lt_of_le_of_lt length_contentOf_nil_le hlen
  · exact hlen

/-- Keys are the same iff the same is left of their encodings. -/
theorem isSameKey_iff_encodingOf (ha : a.IsWhole) (hb : b.IsWhole) : a.isSameKey b = true ↔
    encodingOf a.algorithm a.ownParameters a.bits
      = encodingOf b.algorithm b.ownParameters b.bits := by
  rw [isSameKey_iff]
  constructor
  · rintro ⟨halgorithm, hparameters, hbits⟩
    rw [halgorithm, hparameters, hbits]
  · intro heq
    obtain ⟨halgorithm, hparameters, hbits⟩ :=
      contentOf_inj ha.length_own_lt (sequenceValue_inj heq)
    exact ⟨halgorithm, hparameters, eq_of_bitString_content ha.arePartsOf.trimmed.unused_lt
      hb.arePartsOf.trimmed.unused_lt (value_inj hbits).2⟩

/-- Where both or none have null parameters, keys are the same only if they are equal. -/
theorem eq_of_isSameKey (ha : a.IsWhole) (hb : b.IsWhole)
    (hnull : a.parameters = nullValue ↔ b.parameters = nullValue) (h : a.isSameKey b = true) :
    a = b := by
  obtain ⟨halgorithm, hown, hbits⟩ := isSameKey_iff.mp h
  have hparameters : a.parameters = b.parameters := by
    by_cases hb' : b.parameters = nullValue
    · rw [hnull.mpr hb', hb']
    · rwa [ownParameters, ownParameters, if_neg hb', if_neg fun ha' => hb' (hnull.mp ha')] at hown
  apply ext_encoding
  rw [ha.arePartsOf.encoding_eq, hb.arePartsOf.encoding_eq, halgorithm, hparameters, hbits]

theorem equivalence_isSameKey :
    Equivalence fun a b : { k : PublicKey // k.IsRead } => a.1.isSameKey b.1 = true where
  refl _ := isSameKey_iff.mpr ⟨rfl, rfl, rfl⟩
  symm h := by
    obtain ⟨halgorithm, hparameters, hbits⟩ := isSameKey_iff.mp h
    exact isSameKey_iff.mpr ⟨halgorithm.symm, hparameters.symm, hbits.symm⟩
  trans h h' := by
    obtain ⟨halgorithm, hparameters, hbits⟩ := isSameKey_iff.mp h
    obtain ⟨halgorithm', hparameters', hbits'⟩ := isSameKey_iff.mp h'
    exact isSameKey_iff.mpr
      ⟨halgorithm.trans halgorithm', hparameters.trans hparameters', hbits.trans hbits'⟩

/-- Keys that have been read are the same iff their encodings are equal without null parameters,
    which is an equivalence: equal keys are the same, and only there can the same keys differ. -/
theorem isSameKey_exact :
    (∀ a b : PublicKey, a.IsRead → b.IsRead →
      (∃! bs, DropsNull a.encoding bs) ∧
      (a.isSameKey b = true ↔ ∃ bs, DropsNull a.encoding bs ∧ DropsNull b.encoding bs) ∧
      (a = b → a.isSameKey b = true) ∧
      ((a.parameters = nullValue ↔ b.parameters = nullValue) →
        (a.isSameKey b = true ↔ a = b))) ∧
    Equivalence fun a b : { k : PublicKey // k.IsRead } => a.1.isSameKey b.1 = true := by
  refine ⟨fun a b hreada hreadb => ?_, equivalence_isSameKey⟩
  have ha := hreada.isWhole
  have hb := hreadb.isWhole
  have hrefl : a = b → a.isSameKey b = true := by
    rintro rfl
    exact isSameKey_iff.mpr ⟨rfl, rfl, rfl⟩
  refine ⟨⟨_, ha.dropsNull_iff.mpr rfl, fun bs hbs => ha.dropsNull_iff.mp hbs⟩, ?_, hrefl,
    fun hnull => ⟨eq_of_isSameKey ha hb hnull, hrefl⟩⟩
  rw [isSameKey_iff_encodingOf ha hb]
  constructor
  · intro heq
    exact ⟨_, ha.dropsNull_iff.mpr rfl, hb.dropsNull_iff.mpr heq⟩
  · rintro ⟨bs, hbsa, hbsb⟩
    exact (ha.dropsNull_iff.mp hbsa).symm.trans (hb.dropsNull_iff.mp hbsb)

/-- A key written with a null value is the same as the one written without, and not equal to it. -/
theorem isSameKey_exact_sample : ∃ a b : PublicKey, a.IsRead ∧ b.IsRead ∧
    a.encoding =
      [0x30, 0x0c, 0x30, 0x06, 0x06, 0x02, 0x2a, 0x03, 0x05, 0x00, 0x03, 0x02, 0x00, 0x07] ∧
    b.encoding = [0x30, 0x0a, 0x30, 0x04, 0x06, 0x02, 0x2a, 0x03, 0x03, 0x02, 0x00, 0x07] ∧
    a.isSameKey b = true ∧ a ≠ b := by
  have hproper : ObjectId.IsProper ⟨[42, 3]⟩ := by decide
  have htrimmed : BitString.IsTrimmed ⟨0, [7]⟩ := ⟨by decide, by simp, by simp [Nat.mod_one]⟩
  have hnull : ∀ v ∈ [nullValue], IsWellFormed v :=
    List.forall_mem_singleton.mpr (isWellFormed_value opens_null (by decide))
  have hparts : ArePartsOf _ ⟨[42, 3]⟩ nullValue ⟨0, [7]⟩ :=
    ⟨rfl, hproper, ⟨[nullValue], by simp, hnull⟩, htrimmed, by decide⟩
  have hshort : ArePartsOf _ ⟨[42, 3]⟩ [] ⟨0, [7]⟩ :=
    ⟨rfl, hproper, ⟨[], rfl, by simp⟩, htrimmed, by decide⟩
  obtain ⟨a, ha, henca, -⟩ := hparts.exists_isRead
  obtain ⟨b, hb, hencb, -, hparb, -⟩ := hshort.exists_isRead
  obtain ⟨-, hsame, -⟩ := isSameKey_exact.1 a b ha hb
  refine ⟨a, b, ha, hb, henca.trans (by decide), hencb.trans (by decide),
    hsame.mpr ⟨encodingOf ⟨[42, 3]⟩ [] ⟨0, [7]⟩, ?_, ?_⟩, ?_⟩
  · rw [henca]
    exact .null _ _
  · rw [hencb]
    refine .other fun algorithm bits heq => ?_
    have hparameters := (hb.isWhole.parts_eq (hencb.trans heq)).2.1
    rw [hparb] at hparameters
    exact absurd hparameters (by decide)
  · rintro rfl
    rw [henca] at hencb
    exact absurd hencb (by decide)

end ResourcePki.PublicKey

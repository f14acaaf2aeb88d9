import ResourcePki.Proofs.PublicKey.Encoding
import ResourcePki.Proofs.RouterKeyTable.Expansion

/-!
Which encodings are those of router keys.

The algorithm, the curve and the form of the point are fixed, so one would expect a single encoding
for each point. But the parameters are decoded as data of their own, and nobody looks at what stands
behind the curve: with any further values there the key counts as one of a router as well. So a
point has one encoding of 91 octets, and longer ones that differ from it in the parameters alone.
Since keys are told apart by their encoding, a table can list all of them.
-/

namespace ResourcePki.PublicKey

open Der

/-- An encoding of a point on the curve P-256, with further values behind the name of the curve. -/
structure IsRouterEncoding (further : List Octets) (point encoding : Octets) : Prop where
  wellFormed : ∀ v ∈ further, IsWellFormed v
  length_point : point.length = 64
  encoding_eq : encoding = encodingOf ObjectId.ecPublicKey
    (objectIdValue ObjectId.p256 ++ further.flatten) ⟨0, 4 :: point⟩

variable {k a b : PublicKey} {further : List Octets} {point encoding : Octets}

theorem isRouterKey_eq_true : k.isRouterKey = true ↔ k.algorithm = ObjectId.ecPublicKey ∧
    k.isOnP256 = true ∧ ∃ point : Octets, point.length = 64 ∧ k.bits = ⟨0, 4 :: point⟩ := by
  have hbits : (k.bits.unused = 0 ∧ k.bits.octets.length = 65 ∧ k.bits.octets.head? = some 4) ↔
      ∃ point : Octets, point.length = 64 ∧ k.bits = ⟨0, 4 :: point⟩ := by
    obtain ⟨unused, octets⟩ := k.bits
    cases octets with
    | nil => simp
    | cons b point =>
      simp only [List.length_cons, List.head?_cons, Option.some.injEq, BitString.mk.injEq,
        List.cons.injEq]
      constructor
      · rintro ⟨hunused, hlength, hb⟩
        exact ⟨point, by omega, hunused, hb, rfl⟩
      · rintro ⟨point', hlength, hunused, hb, rfl⟩
        exact ⟨hunused, by omega, hb⟩
  rw [← hbits]
  simp [isRouterKey, and_assoc]

/-- Only the first value of the parameters has to be the name of the curve. -/
theorem IsWhole.isOnP256_iff (h : k.IsWhole) : k.isOnP256 = true ↔ ∃ further : List Octets,
    k.parameters = objectIdValue ObjectId.p256 ++ further.flatten ∧
      ∀ v ∈ further, IsWellFormed v := by
  have hname : IsWellFormed (objectIdValue ObjectId.p256) := isWellFormed_objectIdValue (by decide)
  unfold isOnP256
  constructor
  · intro hcurve
    split at hcurve
    · rename_i curve hdecode
      obtain rfl : curve = ObjectId.p256 := of_decide_eq_true hcurve
      obtain ⟨bs, ⟨rest, hrest⟩, rfl, -⟩ := reads_objectId.of_decode hdecode
      obtain ⟨values, hvalues, hwell⟩ := h.arePartsOf.areValues
      -- the parameters begin with the name, so it is the first of their values
      cases values with
      | nil =>
        rw [hvalues, List.flatten_nil] at hrest
        exact absurd (congrArg List.length hrest)
          (by simp [objectIdValue, length_value, valueLength])
      | cons v further =>
        rw [List.forall_mem_cons] at hwell
        have hfirst := hname.firstValue? rest
        rw [hrest, hvalues, List.flatten_cons, hwell.1.firstValue?, Option.some.injEq,
          Prod.mk.injEq] at hfirst
        exact ⟨further, by rw [hvalues, List.flatten_cons, hfirst.1], hwell.2⟩
    · simp at hcurve
  · rintro ⟨further, hparameters, -⟩
    have hproper : ObjectId.p256.IsProper := by decide
    have htakes := takes_objectId hproper (by decide) further.flatten none
    have hdecode : decode objectId k.parameters = .ok ObjectId.p256 := by
      rw [decode, Input.whole, hparameters, htakes]
    rw [hdecode]
    simp

/-- A key is one of a router iff its encoding is of this form, for some further values. -/
theorem IsWhole.isRouterKey_iff (h : k.IsWhole) :
    k.isRouterKey = true ↔ ∃ further point, IsRouterEncoding further point k.encoding := by
  rw [isRouterKey_eq_true, h.isOnP256_iff]
  have hencoding := h.arePartsOf.encoding_eq
  constructor
  · rintro ⟨halgorithm, ⟨further, hparameters, hwell⟩, point, hlength, hbits⟩
    exact ⟨further, point, hwell, hlength, by rw [hencoding, halgorithm, hparameters, hbits]⟩
  · rintro ⟨further, point, hwell, hlength, heq⟩
    obtain ⟨halgorithm, hparameters, hbits⟩ := h.parts_eq heq
    refine ⟨halgorithm, ⟨further, hparameters, hwell⟩, point, hlength, ?_⟩
    exact eq_of_bitString_content h.arePartsOf.trimmed.unused_lt (Nat.succ_pos 7)
      (value_inj hbits).2

/-- The encoding has 91 octets iff nothing follows the name of the curve. -/
theorem IsRouterEncoding.length_eq_iff (h : IsRouterEncoding further point encoding) :
    encoding.length = 91 ↔ further.flatten = [] := by
  have hlength : encoding.length
      = valueLength (valueLength (19 + further.flatten.length) + 68) := by
    rw [h.encoding_eq, encodingOf, length_sequenceValue, contentOf, List.length_append,
      length_sequenceValue, bitStringValue, length_value, List.length_cons, List.length_cons,
      h.length_point, ← List.append_assoc, List.length_append]
    rfl
  have hshortest : 91 = valueLength (valueLength (19 + 0) + 68) := by decide
  rw [hlength, ← List.length_eq_zero_iff]
  constructor
  · intro heq
    have hinner := valueLength_inj (heq.trans hshortest)
    have hcontent := valueLength_inj (Nat.add_right_cancel hinner)
    omega
  · intro hzero
    rw [hzero, ← hshortest]

/-- Each such encoding is that of a router key, however many values follow the name of the curve. -/
theorem IsRouterEncoding.exists_key (h : IsRouterEncoding further point encoding)
    (hlen : encoding.length < lengthBound) : ∃ k : PublicKey, k.IsRead ∧ k.isRouterKey = true ∧
      k.encoding = encoding ∧ k.bits = ⟨0, 4 :: point⟩ := by
  obtain ⟨hwell, hlength, rfl⟩ := h
  have hcurve : IsWellFormed (objectIdValue ObjectId.p256) := isWellFormed_objectIdValue (by decide)
  have htrimmed : BitString.IsTrimmed ⟨0, 4 :: point⟩ :=
    ⟨Nat.succ_pos 7, by simp, by simp [Nat.mod_one]⟩
  have hparts : ArePartsOf _ ObjectId.ecPublicKey
      (objectIdValue ObjectId.p256 ++ further.flatten) ⟨0, 4 :: point⟩ :=
    ⟨rfl, by decide, ⟨objectIdValue ObjectId.p256 :: further, rfl,
      List.forall_mem_cons.mpr ⟨hcurve, hwell⟩⟩, htrimmed,
      length_lt_of_value hlen⟩
  obtain ⟨k, hread, hencoding, -, -, hbits⟩ := hparts.exists_isRead
  refine ⟨k, hread, ?_, hencoding, hbits⟩
  exact hread.isWhole.isRouterKey_iff.mpr ⟨further, point, hwell, hlength, hencoding⟩

/-- Router keys with the same point differ in what follows the name of the curve, if at all. -/
theorem eq_iff_of_isRouterKey (ha : a.IsWhole) (hb : b.IsWhole) (hroutera : a.isRouterKey = true)
    (hrouterb : b.isRouterKey = true) (hbits : a.bits = b.bits) :
    a = b ↔ a.parameters = b.parameters := by
  constructor
  · rintro rfl
    rfl
  · intro hparameters
    apply ext_encoding
    rw [ha.arePartsOf.encoding_eq, hb.arePartsOf.encoding_eq, hparameters, hbits,
      (isRouterKey_eq_true.mp hroutera).1, (isRouterKey_eq_true.mp hrouterb).1]

/-- Router keys are those with an encoding of the one form, in which any values may follow the name
    of the curve. They are told by the form with nothing behind the curve as far as their encoding
    has 91 octets. With each router key come those that differ from it in what follows the curve. -/
theorem isRouterKey_exact (h : k.IsRead) :
    (k.isRouterKey = true ↔ ∃ further point, IsRouterEncoding further point k.encoding) ∧
    ((k.isRouterKey = true ↔ ∃ point, IsRouterEncoding [] point k.encoding) ↔
      (k.isRouterKey = true → k.encoding.length = 91)) ∧
    (k.isRouterKey = true →
      (∀ b : PublicKey, b.IsRead → b.isRouterKey = true → k.bits = b.bits →
        (k = b ↔ k.parameters = b.parameters)) ∧
      ∀ further : List Octets, (∀ v ∈ further, IsWellFormed v) →
        let encoding := encodingOf ObjectId.ecPublicKey
          (objectIdValue ObjectId.p256 ++ further.flatten) k.bits
        encoding.length < lengthBound →
          ∃ b : PublicKey, b.IsRead ∧ b.isRouterKey = true ∧ k.bits = b.bits ∧
            b.encoding = encoding) := by
  refine ⟨h.isWhole.isRouterKey_iff, ?_, fun hrouter => ⟨fun b hread hrouterb =>
    eq_iff_of_isRouterKey h.isWhole hread.isWhole hrouter hrouterb, ?_⟩⟩
  · constructor
    · intro hiff hrouter
      obtain ⟨point, hencoding⟩ := hiff.mp hrouter
      exact hencoding.length_eq_iff.mpr rfl
    · intro hlength
      rw [h.isWhole.isRouterKey_iff] at hlength ⊢
      constructor
      · rintro ⟨further, point, hencoding⟩
        have hnil := hencoding.length_eq_iff.mp (hlength ⟨further, point, hencoding⟩)
        exact ⟨point, by simp, hencoding.length_point, by rw [hencoding.encoding_eq, hnil]; rfl⟩
      · rintro ⟨point, hencoding⟩
        exact ⟨[], point, hencoding⟩
  · intro further hwell encoding hlen
    obtain ⟨-, -, point, hlength, hbits⟩ := isRouterKey_eq_true.mp hrouter
    have hencoding : IsRouterEncoding further point encoding :=
      ⟨hwell, hlength, congrArg (encodingOf _ _) hbits⟩
    obtain ⟨b, hread, hrouterb, hb, hbitsb⟩ := hencoding.exists_key hlen
    exact ⟨b, hread, hrouterb, hbits.trans hbitsb.symm, hb⟩

theorem isRouterEncoding_sample :
    IsRouterEncoding [nullValue] (List.replicate 64 7) (encodingOf ObjectId.ecPublicKey
      (objectIdValue ObjectId.p256 ++ nullValue) ⟨0, 4 :: List.replicate 64 7⟩) where
  wellFormed := List.forall_mem_singleton.mpr (isWellFormed_value opens_null (by decide))
  length_point := List.length_replicate
  encoding_eq := by rw [List.flatten_singleton]

/-- A null value behind the curve, as elsewhere for parameters without a meaning. -/
theorem isRouterKey_exact_sample : ∃ k : PublicKey, k.IsRead ∧ k.isRouterKey = true ∧
    k.encoding.length = 93 ∧ ¬∃ point, IsRouterEncoding [] point k.encoding := by
  obtain ⟨k, hread, hrouter, hencoding, -⟩ := isRouterEncoding_sample.exists_key (by decide)
  have hlength : k.encoding.length = 93 := by
    rw [hencoding]
    decide
  obtain ⟨-, hshort, -⟩ := isRouterKey_exact hread
  refine ⟨k, hread, hrouter, hlength, fun hform => ?_⟩
  have h91 := hshort.mp ⟨fun _ => hform, fun _ => hrouter⟩ hrouter
  omega

/-- The point of this key has a second encoding, and a table lists both under the same number. -/
theorem second_encoding_isRouterKey : ∃ a b : PublicKey, a.IsRead ∧ b.IsRead ∧
    a.isRouterKey = true ∧ b.isRouterKey = true ∧ a.bits = b.bits ∧ a ≠ b ∧
    b.encoding.length = 93 ∧
    ∀ (table : RouterKeyTable) (asNumber : AsNumber) (identifier : KeyIdentifier)
      (x y : RouterKeyStatus),
      let filled := (table.insert ⟨asNumber, identifier, a⟩ x).insert ⟨asNumber, identifier, b⟩ y
      (filled.get? ⟨asNumber, identifier, a⟩).isSome ∧
        (filled.get? ⟨asNumber, identifier, b⟩).isSome := by
  have hshort : IsRouterEncoding [] (List.replicate 64 7) (encodingOf ObjectId.ecPublicKey
      (objectIdValue ObjectId.p256) ⟨0, 4 :: List.replicate 64 7⟩) :=
    ⟨by simp, List.length_replicate, by simp⟩
  obtain ⟨a, hreada, hroutera, ha, hbitsa⟩ := hshort.exists_key (by decide)
  obtain ⟨b, hreadb, hrouterb, hb, hbitsb⟩ := isRouterEncoding_sample.exists_key (by decide)
  refine ⟨a, b, hreada, hreadb, hroutera, hrouterb, hbitsa.trans hbitsb.symm, ?_,
    by rw [hb]; decide, fun table asNumber identifier x y => ?_⟩
  · rintro rfl
    exact absurd (congrArg List.length (ha.symm.trans hb)) (by decide)
  · simp [RouterKeyTable.isSome_get?_insert]

end ResourcePki.PublicKey

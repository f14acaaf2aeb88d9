import ResourcePki.Proofs.Certificate.Overlooked
import ResourcePki.Proofs.Der.Primitive

/-!
What a certificate is for, by what its three extensions say.

Basic constraints mark a CA, the use of the key may take that back, and what is not a CA may still
be a router by its purposes. A mark that is missing is one that does not hold, and a bit behind the
last one that is in use does not count, whatever stands in its place.
-/

namespace ResourcePki

open Der

/-! ### The bit for signing certificates -/

namespace BitString

/-- The sixth bit is in use and set. -/
def AllowsSigning (bits : BitString) : Prop :=
  6 ≤ bits.length ∧ ∃ b, bits.octets.head? = some b ∧ b &&& 0x04 ≠ 0

theorem testBit_two (b : UInt8) : b.toNat.testBit 2 = true ↔ b &&& 0x04 ≠ 0 := by
  have hall : ∀ i : Fin 256,
      (UInt8.ofFin i).toNat.testBit 2 = true ↔ UInt8.ofFin i &&& 0x04 ≠ 0 := by
    decide +kernel
  simpa using hall b.toFin

theorem bit_five_eq_true {bits : BitString} : bits.bit 5 = true ↔ bits.AllowsSigning := by
  obtain ⟨unused, octets⟩ := bits
  cases octets with
  | nil => simp [bit, AllowsSigning]
  | cons b octets =>
    rw [bit, AllowsSigning, Bool.and_eq_true, decide_eq_true_iff]
    refine and_congr Iff.rfl ?_
    show b.toNat.testBit 2 = true ↔ _
    simp [testBit_two]

end BitString

/-! ### Values of extensions -/

namespace Certificate

variable {c : Certificate} {bs : Octets} {e : Extension} {id : ObjectId}

/-- The value of basic constraints with a mark. Behind the mark there may be any values; if there is
    no mark, the first of them does not look like one. -/
inductive IsCaMark : Bool → Octets → Prop
  | given {mark : Bool} {values : List Octets} (hvalues : ∀ v ∈ values, IsWellFormed v) :
      IsCaMark mark (sequenceValue (booleanValue mark ++ values.flatten))
  | missing {values : List Octets} (hvalues : ∀ v ∈ values, IsWellFormed v)
      (hhead : ∀ b ∈ values.flatten.head?, b &&& 0xdf ≠ Tag.boolean) :
      IsCaMark false (sequenceValue values.flatten)

theorem boolean?_eq_none {values : List Octets} (hvalues : ∀ v ∈ values, IsWellFormed v)
    (hhead : ∀ b ∈ values.flatten.head?, b &&& 0xdf ≠ Tag.boolean) (missing : Option Nat) :
    boolean? ⟨values.flatten, missing⟩ = .ok (none, ⟨values.flatten, missing⟩) :=
  run_bind_eq_ok.mpr ⟨none, _, elementOf?_eq_none hvalues hhead missing, rfl⟩

theorem IsCaMark.decode_eq {mark : Bool} {value : Octets} (h : IsCaMark mark value)
    (hlen : value.length < lengthBound) : decode readCaMark value = .ok mark := by
  cases h with
  | @given mark values hvalues =>
    have hcontent := length_lt_of_value hlen
    refine (takes_inSequence ?_ hcontent).decode
    exact (takes_boolean? mark).bind_all ((takesAll_captureAll hvalues).bind rfl)
  | @missing values hvalues hhead =>
    have hcontent := length_lt_of_value hlen
    refine (takes_inSequence ?_ hcontent).decode
    exact run_bind_eq_ok.mpr ⟨none, _, boolean?_eq_none hvalues hhead _,
      (takesAll_captureAll hvalues).bind rfl⟩

theorem decode_readPurposes {ids : List ObjectId} (hproper : ∀ id ∈ ids, id.IsProper)
    (hlen : (sequenceValue (ids.flatMap objectIdValue)).length < lengthBound) :
    decode readPurposes (sequenceValue (ids.flatMap objectIdValue)) = .ok ids := by
  have hcontent := length_lt_of_value hlen
  have hend : TakesAll objectId? [] none := rfl
  refine (takes_inSequence (takesAll_many hend ?_ fun id hid => ?_) hcontent).decode
  · simp [objectIdValue, value, announced]
  · have hoctets : id.octets.length ≤ (objectIdValue id).length := length_le_length_value _ _
    have hvalue := Nat.lt_of_le_of_lt (length_le_flatMap_of_mem hid) hcontent
    exact takes_objectId? (hproper id hid) (Nat.lt_of_le_of_lt hoctets hvalue)

/-! ### What the extensions say -/

/-- The values of the three extensions that tell what a certificate is for are well-formed, as far
    as it has them. -/
structure HasWellFormedUses (c : Certificate) : Prop where
  basicConstraints : ∀ e ∈ c.extension? ObjectId.basicConstraints, ∃ mark, IsCaMark mark e.value
  keyUsage : ∀ e ∈ c.extension? ObjectId.keyUsage, ∃ bits : BitString,
    bits.IsTrimmed ∧ e.value = bitStringValue bits
  purposes : ∀ e ∈ c.extension? ObjectId.extendedKeyUsage, ∃ ids : List ObjectId,
    (∀ id ∈ ids, id.IsProper) ∧ e.value = sequenceValue (ids.flatMap objectIdValue)

/-- There are basic constraints, with the mark of a CA. -/
def IsMarked (c : Certificate) : Prop :=
  ∃ e ∈ c.extension? ObjectId.basicConstraints, IsCaMark true e.value

/-- If there is a key usage, it allows to sign certificates. -/
def AllowsSigning (c : Certificate) : Prop :=
  ∀ e ∈ c.extension? ObjectId.keyUsage, ∃ bits : BitString,
    bits.IsTrimmed ∧ e.value = bitStringValue bits ∧ bits.AllowsSigning

/-- There are purposes that need not be understood, and the only one is that of a router. -/
def IsForRouter (c : Certificate) : Prop :=
  ∃ e ∈ c.extension? ObjectId.extendedKeyUsage, e.critical = false ∧
    e.value = sequenceValue (objectIdValue ObjectId.routerPurpose)

namespace HasWellFormedUses

variable (h : c.HasWellFormedUses) (hlen : Extension.Bounded c.extensions)

include h hlen

theorem exists_caMark : ∃ mark, c.caMark = .ok mark ∧ (mark = true ↔ c.IsMarked) := by
  unfold caMark IsMarked
  cases he : c.extension? ObjectId.basicConstraints with
  | none => exact ⟨false, rfl, by simp⟩
  | some e =>
    obtain ⟨mark, hmark⟩ := h.basicConstraints e he
    have hdecode := hmark.decode_eq (length_value_lt hlen he)
    refine ⟨mark, hdecode, ?_⟩
    constructor
    · rintro rfl
      exact ⟨e, rfl, hmark⟩
    · rintro ⟨e', he', hmarked⟩
      obtain rfl := Option.some.inj he'
      have hdecode' := hmarked.decode_eq (length_value_lt hlen he)
      exact Except.ok.inj (hdecode.symm.trans hdecode')

theorem exists_maySign : ∃ may, c.maySign = .ok may ∧ (may = true ↔ c.AllowsSigning) := by
  unfold maySign AllowsSigning
  cases he : c.extension? ObjectId.keyUsage with
  | none => exact ⟨true, rfl, by simp⟩
  | some e =>
    obtain ⟨bits, htrimmed, hvalue⟩ := h.keyUsage e he
    have hbound := length_value_lt hlen he
    have hcontent := length_le_length_value Tag.bitString (UInt8.ofNat bits.unused :: bits.octets)
    have hdecode : e.decodeValue bitString = .ok bits := by
      rw [hvalue] at hbound
      rw [Extension.decodeValue, hvalue]
      exact (takes_bitString htrimmed (Nat.lt_of_le_of_lt hcontent hbound)).decode
    refine ⟨bits.bit 5, bind_eq_ok.mpr ⟨bits, hdecode, rfl⟩, ?_⟩
    rw [BitString.bit_five_eq_true]
    constructor
    · intro hallows e' he'
      obtain rfl := Option.some.inj he'
      exact ⟨bits, htrimmed, hvalue, hallows⟩
    · intro hallows
      obtain ⟨bits', htrimmed', hvalue', hallows'⟩ := hallows e rfl
      have hcontents := (value_inj (hvalue.symm.trans hvalue')).2
      obtain rfl := eq_of_bitString_content htrimmed.unused_lt htrimmed'.unused_lt hcontents
      exact hallows'

theorem exists_isCa : ∃ ca, c.isCa = .ok ca ∧ (ca = true ↔ c.IsMarked ∧ c.AllowsSigning) := by
  obtain ⟨mark, hmark, hmarked⟩ := h.exists_caMark hlen
  obtain ⟨may, hmay, hallows⟩ := h.exists_maySign hlen
  rw [isCa_eq, hmark, ← hmarked, ← hallows]
  cases mark with
  | false => exact ⟨false, rfl, by simp⟩
  | true => exact ⟨may, hmay, by simp⟩

theorem decode_purposes_iff (he : c.extension? ObjectId.extendedKeyUsage = some e) :
    e.decodeValue readPurposes = .ok [ObjectId.routerPurpose] ↔
      e.value = sequenceValue (objectIdValue ObjectId.routerPurpose) := by
  obtain ⟨ids, hproper, hvalue⟩ := h.purposes e he
  have hbound := length_value_lt hlen he
  constructor
  · intro hdecode
    rw [Extension.decodeValue, hvalue, decode_readPurposes hproper (hvalue ▸ hbound)] at hdecode
    rw [hvalue, Except.ok.inj hdecode, List.flatMap_singleton]
  · intro hrouter
    rw [← List.flatMap_singleton objectIdValue] at hrouter
    rw [Extension.decodeValue, hrouter]
    exact decode_readPurposes (List.forall_mem_singleton.mpr (by decide)) (hrouter ▸ hbound)

end HasWellFormedUses

/-! ### Purposes -/

/-- What is not a CA is a router or nothing. -/
theorem purpose_eq_ok_iff {p : Purpose} (hca : c.isCa = .ok false) : c.purpose = .ok p ↔
    p = .router ∧ ∃ e ∈ c.extension? ObjectId.extendedKeyUsage, e.critical = false ∧
      e.decodeValue readPurposes = .ok [ObjectId.routerPurpose] := by
  have hbind : ∀ f : Bool → Except ValidationError Purpose,
      (liftM (Except.ok false : Except DecodeError Bool) >>= f) = f false := fun _ => rfl
  unfold purpose
  rw [hca, hbind]
  simp only [Bool.false_eq_true, if_false]
  cases he : c.extension? ObjectId.extendedKeyUsage with
  | none => simp
  | some e =>
    dsimp only
    rw [Extension.requireNonCritical_bind_eq_ok, bind_eq_ok]
    simp only [lift_decoding_eq_ok, Option.mem_def, Option.some.injEq, exists_eq_left']
    constructor
    · rintro ⟨hopen, ids, hids, h⟩
      split at h
      · split at h
        · rename_i id hid
          obtain rfl := pure_eq_ok.mp h
          exact ⟨rfl, hopen, hid ▸ hids⟩
        · exact absurd h throw_ne_ok
      · exact absurd h throw_ne_ok
    · rintro ⟨rfl, hopen, hids⟩
      exact ⟨hopen, _, hids, rfl⟩

theorem purpose_eq_ca_iff : c.purpose = .ok .ca ↔ c.isCa = .ok true := by
  cases hca : c.isCa with
  | error err =>
    have herror : c.purpose = .error (.decoding err) := by
      unfold purpose
      rw [hca]
      rfl
    simp [herror]
  | ok ca =>
    cases ca with
    | false => simp [purpose_eq_ok_iff hca]
    | true =>
      have hpurpose : c.purpose = .ok .ca := by
        unfold purpose
        rw [hca]
        rfl
      simp [hpurpose]

/-- A key usage without a sixth bit in use makes no CA, whatever its bits to spare are. -/
theorem purpose_ne_ca_of_short {unused : UInt8} {octets : Octets}
    (hlen : Extension.Bounded c.extensions) (he : c.extension? ObjectId.keyUsage = some e)
    (hvalue : value Tag.bitString (unused :: octets) <+: e.value)
    (hshort : octets.length * 8 ≤ unused.toNat + 5) : c.purpose ≠ .ok .ca := by
  intro hpurpose
  rw [purpose_eq_ca_iff, isCa_eq] at hpurpose
  obtain ⟨mark, -, hmay⟩ := bind_eq_ok.mp hpurpose
  cases mark with
  | false => exact absurd (Except.ok.inj hmay) (by decide)
  | true =>
    rw [if_pos rfl, maySign, he] at hmay
    obtain ⟨bits, hbits, hbit⟩ := bind_eq_ok.mp hmay
    have hallows := BitString.bit_five_eq_true.mp (pure_eq_ok.mp hbit)
    -- what has been read stands at the beginning of the value, as do the given bits
    obtain ⟨xs, ⟨rest, hrest⟩, rfl, htrimmed⟩ := reads_bitString.of_decode hbits
    obtain ⟨rest', hrest'⟩ := hvalue
    obtain ⟨-, hcontent, -⟩ := value_append_inj (hrest' ▸ length_value_lt hlen he)
      (hrest'.trans hrest.symm)
    obtain ⟨rfl, rfl⟩ := List.cons.inj hcontent
    rw [toNat_unused htrimmed.unused_lt] at hshort
    have hsix : 6 ≤ bits.octets.length * 8 - bits.unused := hallows.1
    omega

/-- A certificate is that of a CA iff it is marked as such and its key may sign certificates, that
    of a router iff it is not and its only purpose is that of a router, and nothing otherwise. A bit
    that is not in use never makes a CA. -/
theorem purpose_exact (h : ofDer bs = .ok c) :
    (c.HasWellFormedUses →
      (c.purpose = .ok .ca ↔ c.IsMarked ∧ c.AllowsSigning) ∧
      (c.purpose = .ok .router ↔ ¬(c.IsMarked ∧ c.AllowsSigning) ∧ c.IsForRouter) ∧
      ((∃ err, c.purpose = .error err) ↔ ¬(c.IsMarked ∧ c.AllowsSigning) ∧ ¬c.IsForRouter)) ∧
    ∀ e ∈ c.extension? ObjectId.keyUsage, ∀ (unused : UInt8) (octets : Octets),
      value Tag.bitString (unused :: octets) <+: e.value →
        octets.length * 8 ≤ unused.toNat + 5 → c.purpose ≠ .ok .ca := by
  have hlen := bounded_of_ofDer h
  refine ⟨fun huses => ?_, fun e he unused octets => purpose_ne_ca_of_short hlen he⟩
  obtain ⟨ca, hca, hiff⟩ := huses.exists_isCa hlen
  rw [← hiff]
  cases ca with
  | true =>
    have hpurpose := purpose_eq_ca_iff.mpr hca
    simp [hpurpose]
  | false =>
    have hrouter : c.purpose = .ok .router ↔ c.IsForRouter := by
      rw [purpose_eq_ok_iff hca, and_iff_right rfl]
      refine exists_congr fun e => and_congr_right fun he => and_congr_right fun _ => ?_
      exact huses.decode_purposes_iff hlen he
    have hnot : c.purpose ≠ .ok .ca := by simp [purpose_eq_ca_iff, hca]
    refine ⟨by simp [hnot], by simp [hrouter], ?_⟩
    rw [← hrouter]
    cases hresult : c.purpose with
    | error err => simp
    | ok p =>
      cases p with
      | ca => exact absurd hresult hnot
      | router => simp

/-- The encoding of a certificate with some extensions. -/
def sampleWith (extensions : List Extension) : Octets :=
  let algorithm := sequenceValue (objectIdValue ObjectId.ecPublicKey)
  let time := value Tag.utcTime (Octets.ofAscii "250101000000Z")
  let signedPart := sequenceValue (
    constructedValue (Tag.context 0) (unsignedValue 2) ++ unsignedValue 1 ++ algorithm ++
    sequenceValue [] ++ sequenceValue (time ++ time) ++ sequenceValue [] ++
    sequenceValue (algorithm ++ bitStringValue ⟨0, []⟩) ++
    constructedValue (Tag.context 3) (Extension.encodeList extensions))
  sequenceValue (signedPart ++ algorithm ++ bitStringValue ⟨0, []⟩)

/-- If the extensions of an encoding are decoded as these, those of the certificate are found among
    them. -/
theorem exists_ofDer {es : List Extension} (h : (ofDer bs).toOption.map (·.extensions) = some es) :
    ∃ c, ofDer bs = .ok c ∧ ∀ id, c.extension? id = es.find? (·.id == id) := by
  obtain ⟨c, hc, rfl⟩ := Option.map_eq_some_iff.mp h
  exact ⟨c, toOption_eq_some.mp hc, fun _ => rfl⟩

/-- The mark of a CA, a key usage that ends one bit before the one for signing certificates, and the
    purpose of a router. -/
def sampleUses : List Extension := [
  ⟨ObjectId.basicConstraints, true, sequenceValue (booleanValue true)⟩,
  ⟨ObjectId.keyUsage, true, bitStringValue ⟨3, [0xf8]⟩⟩,
  ⟨ObjectId.extendedKeyUsage, false, sequenceValue (objectIdValue ObjectId.routerPurpose)⟩]

theorem purpose_exact_sample : ∃ c, ofDer (sampleWith sampleUses) = .ok c ∧ c.IsMarked ∧
    c.HasWellFormedUses ∧ c.purpose ≠ .ok .ca ∧ c.purpose = .ok .router := by
  obtain ⟨c, hc, hextension⟩ := @exists_ofDer (sampleWith sampleUses) sampleUses (by decide +kernel)
  have hbasic : c.extension? ObjectId.basicConstraints = sampleUses[0]? := hextension _
  have husage : c.extension? ObjectId.keyUsage = sampleUses[1]? := hextension _
  have hpurposes : c.extension? ObjectId.extendedKeyUsage = sampleUses[2]? := hextension _
  have hmark : IsCaMark true (sequenceValue (booleanValue true)) := by
    simpa using @IsCaMark.given true [] (by simp)
  have huses : c.HasWellFormedUses := by
    refine ⟨fun e he => ?_, fun e he => ?_, fun e he => ?_⟩
    · rw [hbasic] at he
      obtain rfl := Option.some.inj he
      exact ⟨true, hmark⟩
    · rw [husage] at he
      obtain rfl := Option.some.inj he
      exact ⟨⟨3, [0xf8]⟩, ⟨by decide, by simp, by simp⟩, rfl⟩
    · rw [hpurposes] at he
      obtain rfl := Option.some.inj he
      exact ⟨[ObjectId.routerPurpose], by decide, rfl⟩
  have hnot : c.purpose ≠ .ok .ca :=
    (purpose_exact hc).2 _ husage 3 [0xf8] (List.prefix_refl _) (by decide)
  obtain ⟨hca, hrouter, -⟩ := (purpose_exact hc).1 huses
  exact ⟨c, hc, ⟨_, hbasic, hmark⟩, huses, hnot,
    hrouter.mpr ⟨fun h => hnot (hca.mpr h), _, hpurposes, rfl, rfl⟩⟩

end Certificate

end ResourcePki

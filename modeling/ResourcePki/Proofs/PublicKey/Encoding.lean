import ResourcePki.Proofs.Certificate.Decoded
import ResourcePki.Proofs.Der.Primitive

/-!
The encoding of a key and its parts.

A key that has been read keeps an encoding that is one value and nothing else. That value can only
be spelled in one way from the algorithm, its parameters and the bits, of which the parameters are
kept as they stand. So the encoding is known from the parts, and the parts are known from the
encoding.
-/

namespace ResourcePki.PublicKey

open Der

/-- What the encoding of a key is made of. -/
def contentOf (algorithm : ObjectId) (parameters : Octets) (bits : BitString) : Octets :=
  sequenceValue (objectIdValue algorithm ++ parameters) ++ bitStringValue bits

/-- The encoding of a key with the given parts. -/
def encodingOf (algorithm : ObjectId) (parameters : Octets) (bits : BitString) : Octets :=
  sequenceValue (contentOf algorithm parameters bits)

/-- The parts are those of an encoding that can be read. -/
structure ArePartsOf (encoding : Octets) (algorithm : ObjectId) (parameters : Octets)
    (bits : BitString) : Prop where
  encoding_eq : encoding = encodingOf algorithm parameters bits
  proper : algorithm.IsProper
  areValues : ∃ values : List Octets, parameters = values.flatten ∧ ∀ v ∈ values, IsWellFormed v
  trimmed : bits.IsTrimmed
  length_lt : (contentOf algorithm parameters bits).length < lengthBound

section

variable {algorithm algorithm' : ObjectId} {parameters parameters' : Octets}
  {bits bits' : BitString}

theorem length_parts (algorithm : ObjectId) (parameters : Octets) (bits : BitString) :
    (objectIdValue algorithm ++ parameters).length + (bits.octets.length + 1)
      ≤ (contentOf algorithm parameters bits).length := by
  have hfirst := length_le_length_value (Tag.sequence ||| 0x20)
    (objectIdValue algorithm ++ parameters)
  have hsecond := length_le_length_value Tag.bitString (UInt8.ofNat bits.unused :: bits.octets)
  exact Nat.le_trans (Nat.add_le_add hfirst hsecond) (Nat.le_of_eq List.length_append.symm)

/-- The parts of an encoding are known from it, up to bits that are no bits of the last octet. -/
theorem contentOf_inj (hlen : (contentOf algorithm parameters bits).length < lengthBound)
    (h : contentOf algorithm parameters bits = contentOf algorithm' parameters' bits') :
    algorithm = algorithm' ∧ parameters = parameters' ∧
      bitStringValue bits = bitStringValue bits' := by
  have hparts := length_parts algorithm parameters bits
  obtain ⟨-, hinner, hbits⟩ := value_append_inj hlen h
  obtain ⟨-, hid, hparameters⟩ := value_append_inj (by rw [← objectIdValue]; omega) hinner
  have hequal : algorithm = algorithm' := by
    cases algorithm
    cases algorithm'
    exact congrArg ObjectId.mk hid
  exact ⟨hequal, hparameters, hbits⟩

/-- No parameters take no more octets than some. -/
theorem length_contentOf_nil_le :
    (contentOf algorithm [] bits).length ≤ (contentOf algorithm parameters bits).length := by
  have hshort : (objectIdValue algorithm ++ []).length
      ≤ (objectIdValue algorithm ++ parameters).length := by
    rw [List.append_nil, List.length_append]
    exact Nat.le_add_right _ _
  have hvalue := valueLength_mono hshort
  simp only [contentOf, @List.length_append _ _ (bitStringValue bits), length_sequenceValue]
  omega

theorem ArePartsOf.isWellFormed {encoding : Octets}
    (h : ArePartsOf encoding algorithm parameters bits) : IsWellFormed encoding := by
  obtain ⟨rfl, -, ⟨values, rfl, hvalues⟩, -, hlen⟩ := h
  have hparts := length_parts algorithm values.flatten bits
  rw [List.length_append] at hparts
  have hid : IsWellFormed (objectIdValue algorithm) := by
    refine isWellFormed_objectIdValue ?_
    have := length_le_length_value Tag.objectId algorithm.octets
    rw [objectIdValue] at hparts
    omega
  have halgorithm : IsWellFormed (sequenceValue (objectIdValue algorithm ++ values.flatten)) := by
    rw [← List.flatten_cons]
    refine isWellFormed_sequenceValue (List.forall_mem_cons.mpr ⟨hid, hvalues⟩) ?_
    rw [List.flatten_cons, List.length_append]
    omega
  have hbits : IsWellFormed (bitStringValue bits) := isWellFormed_bitStringValue (by omega)
  have hflatten : contentOf algorithm values.flatten bits
      = [sequenceValue (objectIdValue algorithm ++ values.flatten),
          bitStringValue bits].flatten := by
    simp [contentOf]
  rw [encodingOf, hflatten]
  exact isWellFormed_sequenceValue (by simp [halgorithm, hbits]) (hflatten ▸ hlen)

end

/-! ### Keys that have been read -/

/-- Reads what the encoding of a key is made of. -/
def readContent : Reader (ObjectId × Octets × BitString) := do
  let (algorithm, parameters) ← inSequence do return (← objectId, ← captureAll)
  return (algorithm, parameters, ← bitString)

theorem readParts_eq : readParts = inSequence readContent := rfl

theorem reads_readContent : Reads readContent fun parts content =>
    content = contentOf parts.1 parts.2.1 parts.2.2 ∧ parts.1.IsProper ∧
      (∃ values : List Octets, parts.2.1 = values.flatten ∧ ∀ v ∈ values, IsWellFormed v) ∧
      parts.2.2.IsTrimmed := by
  have halgorithm : Reads (do return (← objectId, ← captureAll) : Reader (ObjectId × Octets))
      fun x octets => octets = objectIdValue x.1 ++ x.2 ∧ x.1.IsProper ∧
        ∃ values : List Octets, x.2 = values.flatten ∧ ∀ v ∈ values, IsWellFormed v := by
    refine (reads_objectId.bind fun id => reads_captureAll.bind fun parameters =>
      Reads.pure (R := fun x octets => x = (id, parameters) ∧ octets = []) ⟨rfl, rfl⟩).weaken ?_
    rintro x octets ⟨id, xs, ys, rfl, ⟨rfl, hid⟩, parameters, zs, ws, rfl, ⟨rfl, hvalues⟩, rfl, rfl⟩
    exact ⟨by rw [List.append_nil], hid, hvalues⟩
  refine ((reads_inSequence halgorithm).bind fun x => reads_bitString.bind fun bits =>
    Reads.pure (R := fun parts octets => parts = (x.1, x.2, bits) ∧ octets = [])
      ⟨rfl, rfl⟩).weaken ?_
  rintro parts octets ⟨x, xs, ys, rfl, ⟨inner, rfl, rfl, hid, hvalues⟩, bits, zs, ws, rfl,
    ⟨rfl, htrimmed⟩, rfl, rfl⟩
  exact ⟨by rw [List.append_nil, contentOf], hid, hvalues, htrimmed⟩

/-- A key that has been read is the value that its parts spell. -/
theorem IsWhole.arePartsOf {k : PublicKey} (h : k.IsWhole) :
    ArePartsOf k.encoding k.algorithm k.parameters k.bits := by
  obtain ⟨t, ht⟩ := of_decode k.decode_eq
  rw [readParts_eq] at ht
  obtain ⟨octets, hoctets, -, content, rfl, rfl, hproper, hvalues, htrimmed⟩ :=
    reads_inSequence reads_readContent _ _ _ ht
  obtain ⟨content, hlen, rfl, -⟩ := of_inSequence reads_readContent ht
  have hparts : ArePartsOf (encodingOf k.algorithm k.parameters k.bits) k.algorithm k.parameters
      k.bits := ⟨rfl, hproper, hvalues, htrimmed, hlen⟩
  -- what is kept is one value, and the encoding of the parts is one at its beginning
  have hfirst := hparts.isWellFormed.firstValue? t.octets
  change k.encoding = encodingOf k.algorithm k.parameters k.bits ++ t.octets at hoctets
  rw [← hoctets, h, Option.some.injEq, Prod.mk.injEq] at hfirst
  exact hfirst.1 ▸ hparts

/-- The parts that an encoding spells are those that are read from it. -/
theorem IsWhole.parts_eq {k : PublicKey} (h : k.IsWhole) {algorithm : ObjectId}
    {parameters : Octets} {bits : BitString}
    (heq : k.encoding = encodingOf algorithm parameters bits) :
    k.algorithm = algorithm ∧ k.parameters = parameters ∧
      bitStringValue k.bits = bitStringValue bits := by
  have hparts := h.arePartsOf
  exact contentOf_inj hparts.length_lt (sequenceValue_inj (hparts.encoding_eq.symm.trans heq))

/-- The key has been read from some input. -/
def IsRead (k : PublicKey) : Prop :=
  ∃ s t, read s = .ok (k, t)

theorem IsRead.isWhole {k : PublicKey} : k.IsRead → k.IsWhole
  | ⟨s, t, h⟩ => ensures_read s k t h

/-- Every encoding of proper parts is that of a key. -/
theorem ArePartsOf.exists_isRead {encoding : Octets} {algorithm : ObjectId} {parameters : Octets}
    {bits : BitString} (h : ArePartsOf encoding algorithm parameters bits) :
    ∃ k : PublicKey, k.IsRead ∧ k.encoding = encoding ∧ k.algorithm = algorithm ∧
      k.parameters = parameters ∧ k.bits = bits := by
  have hwell := h.isWellFormed
  obtain ⟨rfl, hproper, ⟨values, rfl, hvalues⟩, htrimmed, hlen⟩ := h
  have hparts := length_parts algorithm values.flatten bits
  rw [List.length_append] at hparts
  have hid := length_le_length_value Tag.objectId algorithm.octets
  rw [← objectIdValue] at hid
  have halgorithm : TakesAll (do return (← objectId, ← captureAll) : Reader (ObjectId × Octets))
      (objectIdValue algorithm ++ values.flatten) (algorithm, values.flatten) :=
    (takes_objectId hproper (by omega)).bind_all ((takesAll_captureAll hvalues).bind rfl)
  have hinner : (objectIdValue algorithm ++ values.flatten).length < lengthBound := by
    rw [List.length_append]
    omega
  have hcontent : Takes readContent (contentOf algorithm values.flatten bits)
      (algorithm, values.flatten, bits) :=
    (takes_inSequence halgorithm hinner).bind
      ((takes_bitString htrimmed (by omega)).bind_nil Takes.pure)
  have hdecode := (takes_inSequence hcontent.all hlen).decode
  rw [← readParts_eq] at hdecode
  let k : PublicKey := ⟨algorithm, values.flatten, bits, _, hdecode⟩
  have hwhole : k.IsWhole := isWellFormed_iff.mp hwell
  obtain ⟨t, ht⟩ := of_decode hwhole.ofDer_encoding
  exact ⟨k, ⟨_, t, ht⟩, rfl, rfl, rfl, rfl⟩

end ResourcePki.PublicKey

import ResourcePki.Proofs.Address.Bits
import ResourcePki.Proofs.Der.Written
import ResourcePki.Proofs.Resources.Ip

/-!
How IP resources are written.

The length of each value is announced before the value is written, from a computation of its own.
That it is the length of what is then written is shown from the inside out, and it leaves the
written form: values that contain what they announce. A proper block is read again from its written
form, whatever stands behind it.
-/

namespace ResourcePki

open Der

/-! ### Announced lengths -/

namespace AddressPrefix

/-- The written form of a block given by its shared bits. -/
def written (p : AddressPrefix) : Octets :=
  bitStringValue p.bitString

theorem contentLength_eq (p : AddressPrefix) : p.contentLength = p.octetCount + 1 := by
  unfold contentLength octetCount
  split
  · omega
  · omega

theorem encode_eq_written {p : AddressPrefix} (h : p.length ≤ 128) : p.encode = p.written := by
  rw [encode, written, bitStringValue, value, List.length_cons, length_octets_bitString h,
    contentLength_eq]

theorem length_written {p : AddressPrefix} (h : p.length ≤ 128) :
    p.written.length = p.encodedLength := by
  rw [written, bitStringValue, length_value, List.length_cons, length_octets_bitString h,
    encodedLength, contentLength_eq]

end AddressPrefix

namespace AddressRange

/-- The written form of a range. -/
def written (r : AddressRange) : Octets :=
  sequenceValue (r.firstPrefix.written ++ r.lastPrefix.written)

theorem contentLength_eq (r : AddressRange) :
    r.contentLength = (r.firstPrefix.written ++ r.lastPrefix.written).length := by
  rw [contentLength, List.length_append, AddressPrefix.length_written r.length_firstPrefix_le,
    AddressPrefix.length_written r.length_lastPrefix_le]

theorem encode_eq_written (r : AddressRange) : r.encode = r.written := by
  rw [encode, contentLength_eq, AddressPrefix.encode_eq_written r.length_firstPrefix_le,
    AddressPrefix.encode_eq_written r.length_lastPrefix_le]
  rfl

end AddressRange

namespace AddressBlock

/-- The written form of a block. -/
def written : AddressBlock → Octets
  | .ofPrefix p => p.written
  | .ofRange r => r.written

theorem encode_eq_written {b : AddressBlock} (h : b.isEncodable = true) :
    b.encode = b.written := by
  cases b with
  | ofPrefix p => exact AddressPrefix.encode_eq_written (of_decide_eq_true h)
  | ofRange r => exact r.encode_eq_written

theorem length_written {b : AddressBlock} (h : b.isEncodable = true) :
    b.written.length = b.encodedLength := by
  cases b with
  | ofPrefix p => exact AddressPrefix.length_written (of_decide_eq_true h)
  | ofRange r =>
    rw [encodedLength, r.contentLength_eq]
    exact length_value _ _

theorem written_ne_nil (b : AddressBlock) : b.written ≠ [] := by
  cases b with
  | ofPrefix p => exact List.cons_ne_nil _ _
  | ofRange r => exact List.cons_ne_nil _ _

end AddressBlock

namespace IpResources

variable {r : IpResources} {family : Family}

/-- The written form of what a family has. -/
def choiceWritten (r : IpResources) (family : Family) : Octets :=
  if r.isInherited family then nullValue
  else sequenceValue ((r.blocksOf family).flatMap (·.written))

/-- The written form of the entries of a family, if there are any. -/
def familyWritten (r : IpResources) (family : Family) : Octets :=
  if r.hasFamily family then sequenceValue (family.encode ++ r.choiceWritten family) else []

/-- The written forms of both families. -/
def contentWritten (r : IpResources) : Octets :=
  r.familyWritten .v4 ++ r.familyWritten .v6

/-- The written form of resources. -/
def written (r : IpResources) : Octets :=
  sequenceValue r.contentWritten

/-- The blocks that have to be written can be. -/
def CanWrite (r : IpResources) (family : Family) : Prop :=
  r.isInherited family = true ∨ ∀ b ∈ r.blocksOf family, b.isEncodable = true

theorem isEncodable_iff : r.isEncodable = true ↔ r.CanWrite .v4 ∧ r.CanWrite .v6 := by
  simp only [isEncodable, CanWrite, List.all_cons, List.all_nil, Bool.and_true, Bool.and_eq_true,
    Bool.or_eq_true, List.all_eq_true]

theorem blocksLength_eq (h : ∀ b ∈ r.blocksOf family, b.isEncodable = true) :
    r.blocksLength family = ((r.blocksOf family).flatMap (·.written)).length := by
  unfold blocksLength
  generalize r.blocksOf family = blocks at h
  induction blocks with
  | nil => rfl
  | cons b bs ih =>
    rw [List.foldr_cons, List.flatMap_cons, List.length_append,
      AddressBlock.length_written (h b List.mem_cons_self),
      ih fun c hc => h c (List.mem_cons_of_mem _ hc)]

/-- What a family has is announced as it is written. -/
theorem choice_eq (h : r.CanWrite family) :
    (if r.isInherited family then nullValue else
      announcedSequence (r.blocksLength family) ((r.blocksOf family).flatMap (·.encode)))
      = r.choiceWritten family ∧
    (if r.isInherited family then nullValue.length else valueLength (r.blocksLength family))
      = (r.choiceWritten family).length := by
  unfold choiceWritten
  split
  · exact ⟨rfl, rfl⟩
  · rename_i hblocks
    have hall := h.resolve_left hblocks
    have hflat : (r.blocksOf family).flatMap (·.encode) = (r.blocksOf family).flatMap (·.written) := by
      rw [List.flatMap_def, List.flatMap_def]
      exact congrArg List.flatten
        (List.map_congr_left fun b hb => AddressBlock.encode_eq_written (hall b hb))
    rw [blocksLength_eq hall, hflat]
    exact ⟨rfl, (length_value _ _).symm⟩

theorem encodeFamily_eq (h : r.CanWrite family) : r.encodeFamily family = r.familyWritten family := by
  obtain ⟨hchoice, hlength⟩ := choice_eq h
  rw [encodeFamily, familyWritten, familyContentLength, hchoice, hlength, ← List.length_append]
  rfl

theorem familyLength_eq (h : r.CanWrite family) :
    r.familyLength family = (r.familyWritten family).length := by
  obtain ⟨-, hlength⟩ := choice_eq h
  rw [familyLength, familyWritten, familyContentLength, hlength, ← List.length_append]
  split
  · exact (length_value _ _).symm
  · rfl

/-- Every announced length is that of what is written. -/
theorem encode_eq_written (h : r.isEncodable = true) : r.encode = r.written := by
  obtain ⟨h4, h6⟩ := isEncodable_iff.mp h
  rw [encode, encodeFamily_eq h4, encodeFamily_eq h6, familyLength_eq h4, familyLength_eq h6,
    ← List.length_append]
  rfl

end IpResources

/-! ### Written blocks -/

namespace AddressPrefix

variable {family : Family} {p : AddressPrefix}

theorem IsProper.clear_dvd (h : p.IsProper family) :
    Address.blockSize p.length ∣ p.address.value := by
  have hdvd := Address.blockSize_dvd_floor p.address p.length
  rwa [h.floor_eq] at hdvd

theorem IsProper.length_le_128 (h : p.IsProper family) : p.length ≤ 128 :=
  family.length_le_128 h.length_le

theorem isTrimmed_bitString (h : p.IsProper family) : p.bitString.IsTrimmed where
  unused_lt := by
    rw [unused_bitString]
    unfold octetCount
    omega
  nonempty hnil := by
    have hcount := length_octets_bitString h.length_le_128
    rw [hnil, List.length_nil] at hcount
    rw [unused_bitString, ← hcount, Nat.zero_mul, Nat.zero_sub]
  clear _ := last_bitString h.length_le_128 h.clear_dvd

/-- What a written block begins with has only a few octets. -/
theorem length_content_lt (h : p.IsProper family) :
    (UInt8.ofNat p.bitString.unused :: p.bitString.octets).length < 32 := by
  have hlen := h.length_le_128
  rw [List.length_cons, length_octets_bitString hlen]
  unfold octetCount
  omega

theorem ofElement_ofContent (h : p.IsProper family) :
    ofElement family (.ofContent Tag.bitString false
      (UInt8.ofNat p.bitString.unused :: p.bitString.octets)) = .ok p := by
  refine bind_eq_ok.mpr ⟨_, Element.bitString_ofContent (isTrimmed_bitString h) _, ?_⟩
  rw [ofBitString_bitString h.length_le h.clear_dvd]
  rfl

theorem length_content_lt_bound (h : p.IsProper family) :
    (UInt8.ofNat p.bitString.unused :: p.bitString.octets).length < lengthBound :=
  Nat.lt_trans (length_content_lt h) (by decide)

theorem takes_read (h : p.IsProper family) : Takes (read family) p.written p :=
  (takes_elementOf opens_bitString (length_content_lt_bound h)).bind_nil
    (Takes.lift (ofElement_ofContent h))

theorem length_written_lt (h : p.IsProper family) : p.written.length < 40 := by
  have hlen := length_content_lt h
  rw [written, bitStringValue, length_value, valueLength, writeLength, if_pos (by omega),
    List.length_singleton]
  omega

end AddressPrefix

namespace AddressRange

variable {family : Family} {r : AddressRange}

/-- The ends of a proper range stand on whole addresses of the family, and these have few bits. -/
theorem isProper_ends (h : (AddressBlock.ofRange r).IsProper family) :
    r.firstPrefix.IsProper family ∧ r.lastPrefix.IsProper family := by
  have hends : r.firstPrefix.length ≤ family.octets * 8 ∧
      r.lastPrefix.length ≤ family.octets * 8 := by
    cases family with
    | v4 =>
      obtain ⟨hfirst, hlast⟩ := h.whole rfl
      have hbits : Family.v4.octets * 8 ≤ 128 := by decide
      have hsucc : (r.last.value + 1) % Address.v4Size = 0 := by
        have hlast' : r.last.value % Address.v4Size = Address.v4Size - 1 := hlast
        rw [Nat.add_mod, hlast']
        rfl
      exact ⟨(r.length_firstPrefix_le_iff hbits).mpr (Nat.dvd_of_mod_eq_zero hfirst),
        (r.length_lastPrefix_le_iff hbits).mpr (Nat.dvd_of_mod_eq_zero hsucc)⟩
    | v6 => exact ⟨r.length_firstPrefix_le, r.length_lastPrefix_le⟩
  exact ⟨AddressPrefix.isProper_of_dvd hends.1 (Address.blockSize_dvd_floor _ _),
    AddressPrefix.isProper_of_dvd hends.2 (Address.blockSize_dvd_floor _ _)⟩

theorem length_ends_lt (h : (AddressBlock.ofRange r).IsProper family) :
    (r.firstPrefix.written ++ r.lastPrefix.written).length < lengthBound := by
  obtain ⟨hfirst, hlast⟩ := isProper_ends h
  have h₁ := AddressPrefix.length_written_lt hfirst
  have h₂ := AddressPrefix.length_written_lt hlast
  rw [List.length_append]
  exact Nat.lt_trans (Nat.add_lt_add h₁ h₂) (by decide)

theorem takes_readEnds (h : (AddressBlock.ofRange r).IsProper family) :
    Takes (readEnds family) (r.firstPrefix.written ++ r.lastPrefix.written) r := by
  obtain ⟨hfirst, hlast⟩ := isProper_ends h
  have hmake : make r.firstPrefix.first r.lastPrefix.last = .ok r := by
    have hle : r.first.value ≤ r.last.value := h.first_le_last
    rw [r.first_firstPrefix, r.last_lastPrefix, make, if_neg (Nat.not_lt.mpr hle)]
  refine (AddressPrefix.takes_read hfirst).bind ((AddressPrefix.takes_read hlast).bind_nil ?_)
  rw [hmake]
  exact Takes.pure

end AddressRange

namespace AddressBlock

variable {family : Family} {b : AddressBlock}

theorem IsProper.isEncodable (h : b.IsProper family) : b.isEncodable = true := by
  cases b with
  | ofPrefix p => exact decide_eq_true (h.shared p rfl).length_le_128
  | ofRange r => rfl

/-- A proper block is found again in what has been written. -/
theorem exists_element (h : b.IsProper family) :
    ∃ e, Takes element? b.written (some e) ∧ ofElement family e = .ok b := by
  cases b with
  | ofPrefix p =>
    have hp := h.shared p rfl
    refine ⟨_, takes_element? opens_bitString (AddressPrefix.length_content_lt_bound hp), ?_⟩
    exact map_eq_ok.mpr ⟨p, AddressPrefix.ofElement_ofContent hp, rfl⟩
  | ofRange r =>
    refine ⟨_, takes_element? opens_sequence (AddressRange.length_ends_lt h), ?_⟩
    exact map_eq_ok.mpr ⟨r, Element.inside_ofContent (AddressRange.takes_readEnds h).all, rfl⟩

end AddressBlock

/-! ### Written families -/

theorem Family.takes_read (options : DecodeOptions) (family : Family) :
    Takes (read options) family.encode family := by
  cases family with
  | v4 =>
    have hoctets : Takes octetString (octetStringValue [0, 1]) [0, 1] :=
      takes_octetString (by decide)
    exact hoctets.bind_nil fun _ _ => rfl
  | v6 =>
    have hoctets : Takes octetString (octetStringValue [0, 2]) [0, 2] :=
      takes_octetString (by decide)
    exact hoctets.bind_nil fun _ _ => rfl

namespace IpResources

variable {options : DecodeOptions} {family : Family} {b b' : IpBuilder}

theorem takesAll_readBlock_nil (b : IpBuilder) : TakesAll (readBlock family b) [] none :=
  rfl

theorem carries_readBlock {block : AddressBlock} (h : block.IsProper family) :
    Carries (readBlock family) (fun b block => b.add (.block family block)) AddressBlock.written
      block := by
  refine ⟨block.written_ne_nil, fun b b' hadd => ?_⟩
  obtain ⟨e, he, hblock⟩ := AddressBlock.exists_element h
  exact he.bind_nil (Takes.lift_bind hblock (Takes.lift_bind hadd Takes.pure))

theorem takesAll_readFamily_inherit (hadd : b.add (.inherit family) = .ok b') :
    TakesAll (readFamily options b) (family.encode ++ nullValue) b' :=
  (Family.takes_read options family).bind_all <| Takes.all <|
    (takes_element opens_null (by decide)).bind_nil (Takes.lift_bind rfl (Takes.lift hadd))

theorem takesAll_readFamily_blocks {blocks : List AddressBlock}
    (hproper : ∀ block ∈ blocks, block.IsProper family)
    (hlen : (blocks.flatMap (·.written)).length < lengthBound)
    (hadd : (blocks.map (.block family)).foldlM IpBuilder.add b = .ok b') :
    TakesAll (readFamily options b)
      (family.encode ++ sequenceValue (blocks.flatMap (·.written))) b' := by
  rw [List.foldlM_map] at hadd
  have hblocks : TakesAll (repeated (readBlock family) b) (blocks.flatMap (·.written)) b' :=
    takesAll_repeated takesAll_readBlock_nil
      (fun block hblock => carries_readBlock (hproper block hblock)) hadd
  exact (Family.takes_read options family).bind_all <| Takes.all <|
    (takes_element opens_sequence hlen).bind_nil (Takes.lift (Element.inside_ofContent hblocks))

end IpResources

end ResourcePki

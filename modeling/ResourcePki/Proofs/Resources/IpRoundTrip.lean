import ResourcePki.Proofs.Der.Whole
import ResourcePki.Proofs.Resources.IpGrouped

/-!
IP resources that have been read are written and read again.

A length cannot have more than four octets. The lengths that have been read fit, and nothing is
longer when it is written: blocks have the fewest bits, and the entries of a family that have been
spread over several places share what stands around them. So the written form is read again, as the
entries by family.
-/

namespace ResourcePki

open Der

namespace IpResources

variable {r : IpResources} {family : Family}

/-! ### Adding entries of a family -/

section

variable (r) {es : List IpEntry}

theorem isInherited_append (es : List IpEntry) (family : Family) :
    (⟨r.entries ++ es⟩ : IpResources).isInherited family
      = (r.isInherited family || (⟨es⟩ : IpResources).isInherited family) :=
  List.any_append

theorem hasFamily_append (es : List IpEntry) (family : Family) :
    (⟨r.entries ++ es⟩ : IpResources).hasFamily family
      = (r.hasFamily family || (⟨es⟩ : IpResources).hasFamily family) :=
  List.any_append

theorem blocksOf_append (es : List IpEntry) (family : Family) :
    (⟨r.entries ++ es⟩ : IpResources).blocksOf family
      = r.blocksOf family ++ (⟨es⟩ : IpResources).blocksOf family :=
  List.filterMap_append

/-- A family without entries is not inherited and has no blocks. -/
theorem of_hasFamily_eq_false {s : IpResources} (h : s.hasFamily family = false) :
    s.isInherited family = false ∧ s.blocksOf family = [] := by
  have hnil := entriesOf_eq_nil h
  constructor
  · rw [← Bool.not_eq_true, isInherited_iff, hnil]
    exact List.not_mem_nil
  · rw [blocksOf_eq, hnil, List.filterMap_nil]

/-- Nothing changes for the other family. -/
theorem familyWritten_append_of_ne (hes : ∀ e ∈ es, e.family = family) {f : Family}
    (hf : f ≠ family) : (⟨r.entries ++ es⟩ : IpResources).familyWritten f = r.familyWritten f := by
  have hhas : (⟨es⟩ : IpResources).hasFamily f = false :=
    List.any_eq_false.mpr fun e he => by simpa [hes e he] using hf.symm
  obtain ⟨hinherited, hblocks⟩ := of_hasFamily_eq_false hhas
  rw [familyWritten, familyWritten, choiceWritten, choiceWritten, hasFamily_append,
    isInherited_append, blocksOf_append, hhas, hinherited, hblocks, Bool.or_false, Bool.or_false,
    List.append_nil]

/-- What a family has got is all that it has, or it takes no more octets than both parts. -/
theorem choiceWritten_append (es : List IpEntry) (family : Family) :
    (⟨r.entries ++ es⟩ : IpResources).choiceWritten family
        = (⟨es⟩ : IpResources).choiceWritten family ∨
      r.hasFamily family = true ∧ ((⟨r.entries ++ es⟩ : IpResources).choiceWritten family).length
        ≤ (r.choiceWritten family).length + ((⟨es⟩ : IpResources).choiceWritten family).length := by
  unfold choiceWritten
  rw [isInherited_append, blocksOf_append, List.flatMap_append]
  cases hhas : r.hasFamily family with
  | false =>
    obtain ⟨hinherited, hblocks⟩ := of_hasFamily_eq_false hhas
    rw [hinherited, hblocks, Bool.false_or]
    exact Or.inl rfl
  | true =>
    refine Or.inr ⟨rfl, ?_⟩
    cases r.isInherited family with
    | true => exact Nat.le_add_right _ _
    | false =>
      cases (⟨es⟩ : IpResources).isInherited family with
      | true => exact Nat.le_add_left _ _
      | false =>
        show (sequenceValue _).length ≤ (sequenceValue _).length + (sequenceValue _).length
        rw [length_sequenceValue, length_sequenceValue, length_sequenceValue, List.length_append]
        exact valueLength_add_le _ _

/-- The entries of a family do not take more octets than in two places. -/
theorem length_familyWritten_append_le (es : List IpEntry) (family : Family) :
    ((⟨r.entries ++ es⟩ : IpResources).familyWritten family).length
      ≤ (r.familyWritten family).length
        + (sequenceValue (family.encode ++ (⟨es⟩ : IpResources).choiceWritten family)).length := by
  by_cases hsum : (⟨r.entries ++ es⟩ : IpResources).hasFamily family = true
  · rw [familyWritten, if_pos hsum]
    obtain heq | ⟨hhas, hle⟩ := r.choiceWritten_append es family
    · rw [heq]
      exact Nat.le_add_left _ _
    · rw [familyWritten, if_pos hhas]
      simp only [length_sequenceValue, List.length_append]
      refine Nat.le_trans (valueLength_mono ?_) (valueLength_add_le _ _)
      omega
  · rw [familyWritten, if_neg hsum]
    exact Nat.zero_le _

theorem length_contentWritten_append_le (hes : ∀ e ∈ es, e.family = family) :
    (⟨r.entries ++ es⟩ : IpResources).contentWritten.length ≤ r.contentWritten.length
      + (sequenceValue (family.encode ++ (⟨es⟩ : IpResources).choiceWritten family)).length := by
  have hfamily := r.length_familyWritten_append_le es family
  simp only [contentWritten, List.length_append]
  cases family with
  | v4 =>
    rw [r.familyWritten_append_of_ne hes (f := .v6) (by decide)]
    omega
  | v6 =>
    rw [r.familyWritten_append_of_ne hes (f := .v4) (by decide)]
    omega

end

end IpResources

/-! ### Nothing is longer when it is written -/

namespace AddressPrefix

variable {family : Family} {p q : AddressPrefix}

theorem length_written_mono (h : p.length ≤ q.length) (hq : q.length ≤ 128) :
    p.written.length ≤ q.written.length := by
  rw [length_written (Nat.le_trans h hq), length_written hq, encodedLength, encodedLength,
    contentLength_eq, contentLength_eq]
  refine valueLength_mono ?_
  unfold octetCount
  omega

theorem isProper_of_ofElement {e : Element} (h : ofElement family e = .ok p) : p.IsProper family :=
  isProper_of_dvd (of_ofElement h).1 (of_ofElement h).2

/-- A block given by its shared bits is read from as many octets as it is written in. -/
theorem content_of_ofElement {e : Element} (h : ofElement family e = .ok p) :
    ∃ content, e.primitive = .ok content ∧
      (value Tag.bitString content).length = p.written.length := by
  have hproper := isProper_of_ofElement h
  obtain ⟨bits, hbits, h⟩ := bind_eq_ok.mp h
  obtain ⟨htrimmed, hprimitive⟩ := Element.of_bitString hbits
  refine ⟨_, hprimitive, ?_⟩
  have hlength : p.length = bits.octets.length * 8 - bits.unused := by
    unfold ofBitString at h
    split at h
    · rename_i q hq
      obtain rfl := pure_eq_ok.mp h
      split at hq
      · simp at hq
      · split at hq
        · simp at hq
        · exact (congrArg AddressPrefix.length (Except.ok.inj hq)).symm
    · exact absurd h throw_ne_ok
  have hcount : p.octetCount = bits.octets.length := by
    have hunused := htrimmed.unused_lt
    have hpos : bits.unused ≤ bits.octets.length * 8 := by
      by_cases hnil : bits.octets = []
      · rw [htrimmed.nonempty hnil]
        exact Nat.zero_le _
      · have := List.length_pos_iff.mpr hnil
        omega
    unfold octetCount
    omega
  rw [length_written hproper.length_le_128, length_value, List.length_cons, encodedLength,
    contentLength_eq, hcount]

theorem reads_read : Reads (read family) fun p bs =>
    p.IsProper family ∧ bs.length = p.written.length := by
  refine (reads_elementOf (S := fun content p ys => ys = [] ∧ p.IsProper family ∧
    (value Tag.bitString content).length = p.written.length) (by decide)
    fun e => Reads.lift fun p hp => ?_).weaken ?_
  · obtain ⟨content, hcontent, hlength⟩ := content_of_ofElement hp
    exact ⟨content, hcontent, rfl, isProper_of_ofElement hp, hlength⟩
  · rintro p bs ⟨content, ys, rfl, rfl, hproper, hlength⟩
    exact ⟨hproper, by rw [List.append_nil, hlength]⟩

end AddressPrefix

/-- The ends of a range are written with the fewest bits. -/
theorem AddressRange.length_ends_le {family : Family} {p q : AddressPrefix}
    (hp : p.IsProper family) (hq : q.IsProper family) {r : AddressRange}
    (h : make p.first q.last = .ok r) :
    r.firstPrefix.written.length ≤ p.written.length ∧
      r.lastPrefix.written.length ≤ q.written.length := by
  obtain ⟨rfl, -⟩ := of_make h
  have hfirst := (length_firstPrefix_le_iff ⟨p.first, q.last⟩ hp.length_le_128).mpr hp.clear_dvd
  have hlast := (length_lastPrefix_le_iff ⟨p.first, q.last⟩ hq.length_le_128).mpr
    (Address.blockSize_dvd_ceil _ _)
  exact ⟨AddressPrefix.length_written_mono hfirst hp.length_le_128,
    AddressPrefix.length_written_mono hlast hq.length_le_128⟩

theorem AddressRange.reads_readEnds (family : Family) : Reads (readEnds family) fun r bs =>
    (r.firstPrefix.written ++ r.lastPrefix.written).length ≤ bs.length := by
  refine (AddressPrefix.reads_read.bind fun p => AddressPrefix.reads_read.bind
    (S := fun q r bs => bs = [] ∧ make p.first q.last = .ok r) fun q => ?_).weaken ?_
  · split
    · rename_i r hr
      exact Reads.pure ⟨rfl, hr⟩
    · exact Reads.throw
  · rintro r bs ⟨p, xs, -, rfl, ⟨hp, hxs⟩, q, ys, zs, rfl, ⟨hq, hys⟩, rfl, hmake⟩
    obtain ⟨hfirst, hlast⟩ := length_ends_le hp hq hmake
    simp only [List.length_append]
    omega

/-- The blocks of a value are not longer when they are written. -/
theorem AddressBlock.of_ofElement_spelled {family : Family} {e : Element} {b : AddressBlock}
    (h : ofElement family e = .ok b) :
    e.IsThere ∧ ∀ xs, e.IsSpelled xs → b.written.length ≤ xs.length := by
  unfold ofElement at h
  split at h
  · rename_i htag
    obtain ⟨p, hp, rfl⟩ := map_eq_ok.mp h
    obtain ⟨content, hcontent, hlength⟩ := AddressPrefix.content_of_ofElement hp
    refine ⟨Element.isThere_of_primitive hcontent, fun xs hxs => ?_⟩
    rw [hxs.eq_value (htag ▸ by decide) hcontent, htag, hlength]
    exact Nat.le_refl _
  · split at h
    · rename_i htag
      obtain ⟨r, hr, rfl⟩ := map_eq_ok.mp h
      obtain ⟨hthere, hc, hends⟩ := Element.isThere_of_inside (AddressRange.reads_readEnds family) hr
      refine ⟨hthere, fun xs hxs => ?_⟩
      rw [hxs.eq_constructedValue (htag ▸ by decide) hc, htag]
      show (sequenceValue _).length ≤ (sequenceValue _).length
      rw [length_sequenceValue, length_sequenceValue]
      exact valueLength_mono hends
    · simp at h

theorem Family.reads_read (options : DecodeOptions) :
    Reads (read options) fun family bs => family.encode.length ≤ bs.length := by
  have hlength : ∀ family : Family, family.encode.length = 4 := fun family => by
    cases family <;> rfl
  refine (Reads.bind (R := fun bs xs => xs = octetStringValue bs)
    (S := fun bs _ ys => ys = [] ∧ 2 ≤ bs.length) ?_ fun bs => ?_).weaken ?_
  · refine (reads_elementOf (S := fun content bs ys => ys = [] ∧ content = bs) (by decide)
      fun e => Reads.lift fun bs hbs => ⟨bs, hbs, rfl, rfl⟩).weaken ?_
    rintro bs xs ⟨content, ys, rfl, rfl, rfl⟩
    exact List.append_nil _
  · refine Reads.ite (fun _ => Reads.throw_bind) fun _ => ?_
    refine Reads.ite (fun _ => Reads.throw_bind) fun hcount => ?_
    have htwo : 2 ≤ bs.length := by omega
    dsimp only
    split
    · exact Reads.pure ⟨rfl, htwo⟩
    · exact Reads.pure ⟨rfl, htwo⟩
    · exact Reads.throw
  · rintro family _ ⟨bs, xs, _, rfl, rfl, rfl, hbs⟩
    rw [hlength, List.append_nil, octetStringValue, length_value, valueLength]
    have := length_writeLength_pos bs.length
    omega

namespace IpBuilder

theorem of_add {b b' : IpBuilder} {e : IpEntry} (h : b.add e = .ok b') :
    b'.entries.toList = b.entries.toList ++ [e] := by
  unfold add at h
  split at h
  · rename_i c hc
    obtain ⟨-, claimed, -, rfl⟩ := of_push hc
    rw [← Except.ok.inj h, entries_setClaimed]
    exact Array.toList_push
  · simp at h

end IpBuilder

namespace IpResources

/-- From some octets blocks have been added that do not take more when they are written. -/
def AddsBlocks (family : Family) (b b' : IpBuilder) (bs : Octets) : Prop :=
  ∃ blocks : List AddressBlock,
    b'.entries.toList = b.entries.toList ++ blocks.map (.block family) ∧
      (blocks.flatMap (·.written)).length ≤ bs.length

theorem reads_readBlock (family : Family) (b : IpBuilder) :
    Reads (readBlock family b) fun o bs => AddsBlocks family b (o.getD b) bs := by
  refine reads_element?_bind (Reads.pure ⟨[], by simp, Nat.zero_le _⟩) fun e => ?_
  refine Reads.lift_bind fun block hblock => Reads.lift_bind fun b' hadd => ?_
  obtain ⟨hthere, hlength⟩ := AddressBlock.of_ofElement_spelled hblock
  refine Reads.pure ⟨hthere, fun xs hxs => ⟨[block], IpBuilder.of_add hadd, ?_⟩⟩
  simpa using hlength xs hxs

theorem reads_blocks (family : Family) (b : IpBuilder) :
    Reads (repeated (readBlock family) b) (AddsBlocks family b) := by
  refine reads_repeated (fun b => ⟨[], by simp, Nat.zero_le _⟩) ?_ (reads_readBlock family) b
  rintro b c d xs ys ⟨blocks, hc, hxs⟩ ⟨more, hd, hys⟩
  refine ⟨blocks ++ more, ?_, ?_⟩
  · rw [hd, hc, List.map_append, List.append_assoc]
  · rw [List.flatMap_append, List.length_append, List.length_append]
    exact Nat.add_le_add hxs hys

/-- From some octets entries of a family have been added that do not take more when they are
    written. -/
def AddsFamily (b b' : IpBuilder) (bs : Octets) : Prop :=
  ∃ family es, (∀ e ∈ es, e.family = family) ∧ b'.entries.toList = b.entries.toList ++ es ∧
    (family.encode ++ (⟨es⟩ : IpResources).choiceWritten family).length ≤ bs.length

theorem choiceWritten_inherit (family : Family) :
    (⟨[.inherit family]⟩ : IpResources).choiceWritten family = nullValue := by
  cases family <;> rfl

theorem blocksOf_blocks (family : Family) (blocks : List AddressBlock) :
    (⟨blocks.map (.block family)⟩ : IpResources).blocksOf family = blocks := by
  induction blocks with
  | nil => rfl
  | cons b bs ih =>
    have hfamily : (IpEntry.block family b).family = family := rfl
    rw [blocksOf, List.map_cons, List.filterMap_cons, if_pos hfamily]
    exact congrArg (b :: ·) ih

theorem choiceWritten_blocks (family : Family) (blocks : List AddressBlock) :
    (⟨blocks.map (.block family)⟩ : IpResources).choiceWritten family
      = sequenceValue (blocks.flatMap (·.written)) := by
  have hinherited : ¬(⟨blocks.map (.block family)⟩ : IpResources).isInherited family = true := by
    simp [isInherited, IpEntry.isInherit]
  rw [choiceWritten, if_neg hinherited, blocksOf_blocks]

theorem reads_readFamily (options : DecodeOptions) (b : IpBuilder) :
    Reads (readFamily options b) (AddsFamily b) := by
  refine ((Family.reads_read options).bind (S := fun family b' bs => ∃ es,
    (∀ e ∈ es, e.family = family) ∧ b'.entries.toList = b.entries.toList ++ es ∧
      ((⟨es⟩ : IpResources).choiceWritten family).length ≤ bs.length) fun family => ?_).weaken ?_
  · refine reads_element_bind fun e => Reads.ite (fun htag => ?_) fun _ => Reads.ite (fun htag => ?_)
      fun _ => Reads.throw
    · -- the family is inherited
      refine Reads.lift_bind fun _ hnull => Reads.lift fun b' hadd => ?_
      refine ⟨Element.isThere_of_primitive_bind hnull, fun xs hxs => ?_⟩
      refine ⟨[.inherit family], by simp [IpEntry.family], IpBuilder.of_add hadd, ?_⟩
      obtain ⟨content, hcontent, -⟩ := bind_eq_ok.mp hnull
      rw [choiceWritten_inherit, List.append_nil, hxs.eq_value (htag ▸ by decide) hcontent,
        length_value]
      exact valueLength_mono (Nat.zero_le _)
    · -- the family has blocks
      refine Reads.lift fun b' hblocks => ?_
      obtain ⟨hthere, hc, blocks, hentries, hlength⟩ :=
        Element.isThere_of_inside (reads_blocks family b) hblocks
      refine ⟨hthere, fun xs hxs => ⟨blocks.map (.block family), by simp [IpEntry.family],
        hentries, ?_⟩⟩
      rw [choiceWritten_blocks, List.append_nil, hxs.eq_constructedValue (htag ▸ by decide) hc,
        length_sequenceValue, constructedValue, length_value]
      exact valueLength_mono hlength
  · rintro b' bs ⟨family, xs, ys, rfl, hxs, es, hes, hentries, hys⟩
    refine ⟨family, es, hes, hentries, ?_⟩
    rw [List.length_append, List.length_append]
    exact Nat.add_le_add hxs hys

/-- What has been added does not take more octets than it has been read from. -/
def Grows (b b' : IpBuilder) (bs : Octets) : Prop :=
  b'.finish.contentWritten.length ≤ b.finish.contentWritten.length + bs.length

theorem AddsFamily.grows {b b' : IpBuilder} {bs : Octets} (h : AddsFamily b b' bs) :
    Grows b b' (sequenceValue bs) := by
  obtain ⟨family, es, hes, hentries, hlength⟩ := h
  have hfinish : b'.finish = ⟨b.finish.entries ++ es⟩ := congrArg IpResources.mk hentries
  have hadded := b.finish.length_contentWritten_append_le hes
  have hspelled := valueLength_mono hlength
  rw [length_sequenceValue] at hadded
  rw [Grows, hfinish, length_sequenceValue]
  omega

theorem reads_families (options : DecodeOptions) (b : IpBuilder) :
    Reads (repeated (fun b => inSequence? (readFamily options b)) b) (Grows b) := by
  refine reads_repeated (fun b => Nat.le_add_right _ _) (fun h₁ h₂ => ?_) (fun b => ?_) b
  · simp only [Grows, List.length_append] at *
    omega
  · refine (reads_inSequence? (reads_readFamily options b)).weaken ?_
    rintro (_ | b') bs h
    · exact Nat.le_add_right _ _
    · obtain ⟨content, rfl, hadds⟩ := h
      exact hadds.grows

/-- What resources are read from is not shorter than what they are written as. -/
theorem reads_entries (options : DecodeOptions) :
    Reads (do
      let b ← repeated (fun b => inSequence? (readFamily options b)) (IpBuilder.new options.maxIp)
      return b.finish) fun r bs => r.contentWritten.length ≤ bs.length := by
  refine ((reads_families options (.new options.maxIp)).bind
    (S := fun b r ys => ys = [] ∧ r = b.finish) fun b => Reads.pure ⟨rfl, rfl⟩).weaken ?_
  rintro r bs ⟨b, xs, ys, rfl, hgrows, rfl, rfl⟩
  have hnew : (IpBuilder.new options.maxIp).finish.contentWritten = [] := rfl
  rw [Grows, hnew, List.length_nil, Nat.zero_add] at hgrows
  rwa [List.append_nil]

/-- What has been read fits into the lengths that it is written with. -/
theorem length_contentWritten_lt {options : DecodeOptions} {s t : Input} {r : IpResources}
    (h : read options s = .ok (r, t)) : r.contentWritten.length < lengthBound := by
  obtain ⟨content, hcontent, hlength⟩ := of_inSequence (reads_entries options) h
  exact Nat.lt_of_le_of_lt hlength hcontent

/-! ### The round trip -/

/-- Resources can be written, each length as it has been announced, and what has been written is
    read as the same entries by family and nothing else. Writing these gives the same octets. -/
structure IsRestored (options : DecodeOptions) (r : IpResources) (bs : Octets) : Prop where
  encode : r.encode? = some bs
  announced : bs = r.written
  decode : Der.decode (read options) bs = .ok r.byFamily
  whole : read options (.whole bs) = .ok (r.byFamily, .whole [])
  again : r.byFamily.encode? = some bs

theorem IsProper.isEncodable {r : IpResources} {limit : Nat} (h : r.IsProper limit) : r.isEncodable = true := by
  have hcan : ∀ family, r.CanWrite family := fun family => Or.inr fun b hb =>
    (h.blocks family b (mem_blocksOf.mp hb)).isEncodable
  exact isEncodable_iff.mpr ⟨hcan .v4, hcan .v6⟩

/-- All IP resources that are read are restored from what is written of them. -/
theorem exists_isRestored {options : DecodeOptions} {data : Octets} {r : IpResources}
    (h : Der.decode (read options) data = .ok r) : ∃ bs, r.IsRestored options bs := by
  obtain ⟨t, ht⟩ := of_decode h
  obtain ⟨b, hsound, hfinish⟩ := ensures_read_finish options _ _ _ ht
  have hproper : r.IsProper options.maxIp := hfinish ▸ isProper_finish hsound
  have hclaims : ∀ f, (IpBuilder.claimsOf f r.entries).Pairwise Claimed.Compatible :=
    fun f => hfinish ▸ (hsound.holds f).compatible
  have htakes := takes_read hproper hclaims (length_contentWritten_lt ht) [] none
  rw [List.append_nil] at htakes
  have hencode : r.encode? = some r.written := by
    rw [encode?, if_pos hproper.isEncodable, encode_eq_written hproper.isEncodable]
  refine ⟨r.written, hencode, rfl, ?_, htakes, ?_⟩
  · rw [Der.decode, Input.whole, htakes]
  · rw [encode?_congr r.entriesOf_byFamily]
    exact hencode

/-- An inherited family in front of a block and of a range that has been read from more bits than
    it needs. -/
theorem sample_isRestored :
    let data : Octets := [0x30, 0x27, 0x30, 0x06, 0x04, 0x02, 0x00, 0x02, 0x05, 0x00, 0x30, 0x1d,
      0x04, 0x03, 0x00, 0x01, 0x01, 0x30, 0x16, 0x03, 0x04, 0x00, 0x0a, 0x00, 0x00, 0x30, 0x0e,
      0x03, 0x05, 0x00, 0xc0, 0x00, 0x02, 0x00, 0x03, 0x05, 0x00, 0xc0, 0x00, 0x02, 0xff]
    let block : IpEntry := .block .v4 (.ofPrefix ⟨.ofV4 0x0a000000, 24⟩)
    let range : IpEntry := .block .v4
      (.ofRange ⟨.ofV4 0xc0000200, (Address.ofV4 0xc00002ff).ceil 32⟩)
    let r : IpResources := ⟨[.inherit .v6, block, range]⟩
    Der.decode (read {}) data = .ok r ∧ r.byFamily = ⟨[block, range, .inherit .v6]⟩ ∧
      ∃ bs, r.IsRestored {} bs := by
  intro data block range r
  have h : Der.decode (read {}) data = .ok r := by rfl
  exact ⟨h, rfl, exists_isRestored h⟩

end IpResources

end ResourcePki

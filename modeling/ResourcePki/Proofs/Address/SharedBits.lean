import ResourcePki.Proofs.Address.Words
import ResourcePki.Proofs.Resources.IpWritten

/-!
Blocks and the bit strings of their shared bits.

A bit string can be read in a family if its last octet has less than eight bits to spare, none if
there are no octets, and if it has no more octets than an address of the family. The first address
of the block then has the bits of the string followed by zeros, and the last one has them followed
by ones. The bits to spare are cleared whatever they are, so they make no difference.

In the other direction a block is written as its length in bits asks for, which is as long as it has
been announced, and reading gives the block again with the bits beyond its length cleared. There are
no such bits in a block that has been made or read.
-/

namespace ResourcePki

/-! ### Bits of octets -/

/-- Counted from the front, the bits of a number are those of its octets one after the other. -/
theorem Octets.testBit_toNat : ∀ (bs : Octets) {i : Nat}, i < 8 * bs.length →
    (toNat bs).testBit (8 * bs.length - 1 - i) = (bs[i / 8]?.getD 0).toNat.testBit (7 - i % 8)
  | [], i, h => absurd h (Nat.not_lt_zero i)
  | b :: bs, i, h => by
    rw [List.length_cons] at h
    have hlow : toNat bs < 2 ^ (8 * bs.length) := by
      rw [Nat.pow_mul]
      exact toNat_lt bs
    have hsplit : toNat (b :: bs) = 2 ^ (8 * bs.length) * b.toNat + toNat bs := by
      rw [toNat_cons, Nat.mul_comm, Nat.pow_mul]
    rw [hsplit, Nat.testBit_two_pow_mul_add _ hlow, List.length_cons]
    by_cases hfirst : i < 8
    · have hindex : 8 * (bs.length + 1) - 1 - i - 8 * bs.length = 7 - i % 8 := by omega
      rw [if_neg (by omega), hindex, Nat.div_eq_of_lt hfirst]
      rfl
    · have hindex : 8 * (bs.length + 1) - 1 - i = 8 * bs.length - 1 - (i - 8) := by omega
      have hquot : i / 8 = (i - 8) / 8 + 1 := by omega
      have hmod : i % 8 = (i - 8) % 8 := by omega
      rw [if_pos (by omega), hindex, testBit_toNat bs (by omega), hquot, hmod, List.getElem?_cons_succ]

/-- An address that is filled up with zeros has the bits of the octets that it begins with. -/
theorem Address.testBit_ofOctets {bs : Octets} (h : bs.length ≤ 16) {i : Nat} (hi : i < 128) :
    (ofOctets (bs ++ List.replicate (16 - bs.length) 0)).value.testBit (127 - i)
      = (bs[i / 8]?.getD 0).toNat.testBit (7 - i % 8) := by
  have hlength : (bs ++ List.replicate (16 - bs.length) (0 : UInt8)).length = 16 := by
    rw [List.length_append, List.length_replicate]
    omega
  have hlt := Octets.toNat_lt (bs ++ List.replicate (16 - bs.length) 0)
  have hbit := Octets.testBit_toNat (bs ++ List.replicate (16 - bs.length) 0) (i := i) (by omega)
  rw [hlength] at hlt hbit
  have hfill : (bs ++ List.replicate (16 - bs.length) (0 : UInt8))[i / 8]?.getD 0
      = bs[i / 8]?.getD 0 := by
    by_cases hin : i / 8 < bs.length
    · rw [List.getElem?_append_left hin]
    · rw [List.getElem?_append_right (Nat.not_lt.mp hin), List.getElem?_replicate,
        List.getElem?_eq_none (Nat.not_lt.mp hin)]
      split <;> rfl
  rw [hfill] at hbit
  show (Octets.toNat _ % 256 ^ 16).testBit (127 - i) = _
  rw [Nat.mod_eq_of_lt hlt]
  exact hbit

theorem Address.floor_floor (a : Address) {len more : Nat} (h : len ≤ more) :
    (a.floor more).floor len = a.floor len := by
  refine eq_of_testBit fun i _ => ?_
  rw [testBit_floor, testBit_floor, testBit_floor, ← Bool.and_assoc, ← Bool.decide_and]
  have hmore : 128 - len ≤ i ∧ 128 - more ≤ i ↔ 128 - len ≤ i := by omega
  rw [decide_eq_decide.mpr hmore]

namespace AddressPrefix

/-! ### Reading -/

/-- The shared bits of a block in a family can be these. -/
structure Fits (family : Family) (b : BitString) : Prop where
  unused_lt : b.unused < 8
  nonempty : b.octets = [] → b.unused = 0
  room : b.octets.length ≤ family.octets

/-- The block has the bits of the string: its first address goes on with zeros and its last one with
    ones. -/
structure HasBits (p : AddressPrefix) (b : BitString) : Prop where
  length_add : p.length + b.unused = 8 * b.octets.length
  first : ∀ i < 128, p.first.value.testBit (127 - i) = if i < p.length then b.bit i else false
  last : ∀ i < 128, p.last.value.testBit (127 - i) = if i < p.length then b.bit i else true

variable {family : Family} {b : BitString} {p : AddressPrefix}

theorem Fits.length_octets_le (h : Fits family b) : b.octets.length ≤ 16 :=
  Nat.le_trans h.room family.octets_le

theorem Fits.length_add (h : Fits family b) : b.length + b.unused = 8 * b.octets.length := by
  have hunused := h.unused_lt
  have hpos : b.unused ≤ 8 * b.octets.length := by
    by_cases hnil : b.octets = []
    · rw [h.nonempty hnil]
      exact Nat.zero_le _
    · have := List.length_pos_iff.mpr hnil
      omega
  unfold BitString.length
  omega

/-- The block that begins with the octets of a string, with as many bits as the string. -/
def ofBits (b : BitString) : AddressPrefix :=
  ⟨(Address.ofOctets (b.octets ++ List.replicate (16 - b.octets.length) 0)).floor b.length, b.length⟩

theorem ofBitString_of_fits (h : Fits family b) : ofBitString family b = .ok (ofBits b) := by
  have hspare : ¬(b.unused > 7 ∨ b.octets = [] ∧ b.unused > 0) := by
    have hunused := h.unused_lt
    rintro (hmany | ⟨hnil, hsome⟩)
    · omega
    · have := h.nonempty hnil
      omega
  rw [ofBitString, if_neg hspare, if_neg (Nat.not_lt.mpr h.room)]
  rfl

theorem ofBitString_of_not_fits (h : ¬Fits family b) :
    ofBitString family b = .error .badAddress := by
  unfold ofBitString
  split
  · rfl
  · rename_i hspare
    split
    · rfl
    · rename_i hroom
      rw [not_or, not_and] at hspare
      exact absurd ⟨by omega, fun hnil => Nat.eq_zero_of_not_pos (hspare.2 hnil),
        Nat.not_lt.mp hroom⟩ h

theorem ofBitString_eq_ok : ofBitString family b = .ok p ↔ Fits family b ∧ ofBits b = p := by
  by_cases h : Fits family b
  · rw [ofBitString_of_fits h, Except.ok.injEq, and_iff_right h]
  · rw [ofBitString_of_not_fits h]
    simp [h]

/-- Within the length of a string, its bits are those of its octets. -/
theorem bit_of_lt {i : Nat} (h : i < b.length) :
    b.bit i = (b.octets[i / 8]?.getD 0).toNat.testBit (7 - i % 8) := by
  rw [BitString.bit, decide_eq_true h, Bool.true_and]

theorem bit_of_le {i : Nat} (h : b.length ≤ i) : b.bit i = false := by
  rw [BitString.bit, decide_eq_false (Nat.not_lt.mpr h), Bool.false_and]

theorem hasBits_ofBits (h : Fits family b) : (ofBits b).HasBits b := by
  have hbits : ∀ i < 128, (ofBits b).first.value.testBit (127 - i)
      = if i < b.length then b.bit i else false := by
    intro i hi
    show (Address.floor _ b.length).value.testBit (127 - i) = _
    rw [Address.testBit_floor, Address.testBit_ofOctets h.length_octets_le hi]
    split
    · rename_i hlen
      rw [bit_of_lt hlen, decide_eq_true (by omega), Bool.true_and]
    · rw [decide_eq_false (by omega), Bool.false_and]
  refine ⟨h.length_add, hbits, fun i hi => ?_⟩
  show ((ofBits b).first.ceil b.length).value.testBit (127 - i) = if i < b.length then _ else _
  rw [Address.testBit_ceil, hbits i hi]
  split
  · rw [decide_eq_false (by omega), Bool.false_or]
  · rw [decide_eq_true (by omega), Bool.true_or]

theorem eq_of_fields : ∀ {p q : AddressPrefix}, p.address = q.address → p.length = q.length → p = q
  | ⟨_, _⟩, ⟨_, _⟩, rfl, rfl => rfl

/-- The bits of a string determine the block. -/
theorem HasBits.unique {q : AddressPrefix} (hp : p.HasBits b) (hq : q.HasBits b) : p = q := by
  have hlength : p.length = q.length := by
    have hp' := hp.length_add
    have hq' := hq.length_add
    omega
  have haddress : p.address = q.address := by
    refine Address.eq_of_testBit fun i hi => ?_
    have hindex : i = 127 - (127 - i) := by omega
    rw [hindex]
    exact (hp.first _ (by omega)).trans (hlength ▸ (hq.first _ (by omega)).symm)
  exact eq_of_fields haddress hlength

theorem Fits.congr {c : BitString} (h : Fits family b) (hunused : c.unused = b.unused)
    (hlength : c.octets.length = b.octets.length) : Fits family c where
  unused_lt := hunused ▸ h.unused_lt
  nonempty hnil := by
    have hempty : b.octets = [] := by
      rw [← List.length_eq_zero_iff, ← hlength, hnil]
      rfl
    exact hunused ▸ h.nonempty hempty
  room := hlength ▸ h.room

/-- The bits that the last octet has to spare make no difference. -/
theorem ofBitString_congr {c : BitString} (hunused : c.unused = b.unused)
    (hlength : c.octets.length = b.octets.length) (hbits : ∀ i, c.bit i = b.bit i) :
    ofBitString family c = ofBitString family b := by
  by_cases h : Fits family b
  · have hc := h.congr hunused hlength
    have hsame : (ofBits c).HasBits b :=
      have hcbits := hasBits_ofBits hc
      { length_add := hunused ▸ hlength ▸ hcbits.length_add
        first := fun i hi => hbits i ▸ hcbits.first i hi
        last := fun i hi => hbits i ▸ hcbits.last i hi }
    rw [ofBitString_of_fits h, ofBitString_of_fits hc, hsame.unique (hasBits_ofBits h)]
  · have hc : ¬Fits family c := fun hc => h (hc.congr hunused.symm hlength.symm)
    rw [ofBitString_of_not_fits h, ofBitString_of_not_fits hc]

/-! ### Writing -/

/-- Blocks are made from an address and a length, and bits beyond the length are cleared. -/
def IsMade (p : AddressPrefix) : Prop :=
  ∃ a len, make? a len = some p

theorem isMade_iff : p.IsMade ↔ p.length ≤ 128 ∧ p.address.floor p.length = p.address := by
  constructor
  · rintro ⟨a, len, hmake⟩
    unfold make? at hmake
    split at hmake
    · rename_i hlen
      obtain rfl := Option.some.inj hmake
      exact ⟨hlen, a.floor_floor (Nat.le_refl len)⟩
    · simp at hmake
  · rintro ⟨hlen, hclear⟩
    refine ⟨p.address, p.length, ?_⟩
    rw [make?, if_pos hlen, hclear]

/-- What is read has been made. -/
theorem isMade_of_ofBitString (h : ofBitString family b = .ok p) : p.IsMade := by
  obtain ⟨hfits, rfl⟩ := ofBitString_eq_ok.mp h
  have hlength := hfits.length_add
  have hoctets := hfits.length_octets_le
  refine isMade_iff.mpr ⟨?_, Address.floor_floor _ (Nat.le_refl _)⟩
  show b.length ≤ 128
  omega

/-- The written bits are those of the address. -/
theorem bit_bitString (h : p.length ≤ 128) (i : Nat) :
    p.bitString.bit i = (decide (i < p.length) && p.address.value.testBit (127 - i)) := by
  rw [BitString.bit, length_bitString h]
  by_cases hi : i < p.length
  · have hoctet : i / 8 < p.octetCount := by
      unfold octetCount
      omega
    have hsixteen : p.address.octets.length = 16 := Octets.length_ofNat _ _
    have hbit := Octets.testBit_toNat p.address.octets (i := i) (by omega)
    rw [hsixteen, Address.octets, Octets.toNat_ofNat_of_lt p.address.isLt] at hbit
    rw [octets_bitString, List.getElem?_take_of_lt hoctet]
    exact congrArg _ hbit.symm
  · rw [decide_eq_false hi, Bool.false_and, Bool.false_and]

/-- The shared bits of a block are read as the block, with all other bits cleared. -/
theorem ofBitString_bitString_cleared (h : p.length ≤ family.octets * 8) :
    ofBitString family p.bitString = .ok ⟨p.address.floor p.length, p.length⟩ := by
  have hlen := family.length_le_128 h
  let q : AddressPrefix := ⟨p.address.floor p.length, p.length⟩
  have hread : ofBitString family q.bitString = .ok q :=
    ofBitString_bitString h (Address.blockSize_dvd_floor _ _)
  refine (ofBitString_congr ?_ ?_ fun i => ?_).trans hread
  · rw [unused_bitString, unused_bitString]
    rfl
  · rw [length_octets_bitString hlen, length_octets_bitString (p := q) hlen]
    rfl
  · rw [bit_bitString hlen, bit_bitString (p := q) hlen]
    show _ = (decide (i < p.length) && (p.address.floor p.length).value.testBit (127 - i))
    rw [Address.testBit_floor]
    by_cases hi : i < p.length
    · rw [decide_eq_true (show 128 - p.length ≤ 127 - i by omega), Bool.true_and]
    · rw [decide_eq_false hi, Bool.false_and, Bool.false_and]

theorem fits_bitString (h : p.length ≤ family.octets * 8) : Fits family p.bitString :=
  (ofBitString_eq_ok.mp (ofBitString_bitString_cleared h)).1

/-- How a block is written in a family, and as what it is read again. -/
structure IsWritten (family : Family) (p : AddressPrefix) : Prop where
  unused_lt : p.bitString.unused < 8
  length_add : p.length + p.bitString.unused = 8 * p.bitString.octets.length
  contentLength_eq : p.contentLength = p.bitString.octets.length + 1
  /-- The length that is announced is that of the content behind it. -/
  encode?_eq : p.encode? = some (Der.value Der.Tag.bitString
    (UInt8.ofNat p.bitString.unused :: p.bitString.octets))
  cleared : ofBitString family p.bitString = .ok ⟨p.address.floor p.length, p.length⟩
  restored : p.IsMade → ofBitString family p.bitString = .ok p ∧
    Der.Takes (read family) p.encode p

theorem isWritten (h : p.length ≤ family.octets * 8) : p.IsWritten family := by
  have hlen := family.length_le_128 h
  have hcleared := ofBitString_bitString_cleared h
  have hfits := fits_bitString h
  refine ⟨hfits.unused_lt, ?_, ?_, ?_, hcleared, fun hmade => ⟨?_, ?_⟩⟩
  · have hadd := hfits.length_add
    rwa [length_bitString hlen] at hadd
  · rw [AddressPrefix.contentLength_eq, length_octets_bitString hlen]
  · rw [encode?, if_pos hlen, encode_eq_written hlen]
    rfl
  · rw [hcleared, (isMade_iff.mp hmade).2]
  · have hclear : Address.blockSize p.length ∣ p.address.value := by
      have hdvd := Address.blockSize_dvd_floor p.address p.length
      rwa [(isMade_iff.mp hmade).2] at hdvd
    rw [encode_eq_written hlen]
    exact takes_read (isProper_of_dvd h hclear)

/-- Blocks and bit strings of a family: which strings are read and as what, in words of a machine as
    in numbers, and how blocks are written. -/
theorem sharedBits_exact (family : Family) :
    (∀ b, ((∃ p, ofBitString family b = .ok p) ↔ Fits family b) ∧
      (Address.Words.ofBitString? family b).map (·.map Address.Words.Block.value)
        = some (ofBitString family b) ∧
      (∀ p, ofBitString family b = .ok p → p.IsMade ∧ p.HasBits b) ∧
      ∀ c : BitString, c.unused = b.unused → c.octets.length = b.octets.length →
        (∀ i, c.bit i = b.bit i) → ofBitString family c = ofBitString family b) ∧
    ∀ p : AddressPrefix, p.length ≤ family.octets * 8 → p.IsWritten family := by
  refine ⟨fun b => ⟨?_, Address.Words.map_ofBitString? family b, fun p hp => ?_, ?_⟩,
    fun p => isWritten⟩
  · exact ⟨fun ⟨p, hp⟩ => (ofBitString_eq_ok.mp hp).1, fun h => ⟨_, ofBitString_of_fits h⟩⟩
  · obtain ⟨hfits, rfl⟩ := ofBitString_eq_ok.mp hp
    exact ⟨isMade_of_ofBitString hp, hasBits_ofBits hfits⟩
  · exact fun c hunused hlength hbits => ofBitString_congr hunused hlength hbits

/-- Twelve bits in two octets. What the last four bits are makes no difference, and they are written
    as zeros. -/
theorem sharedBits_exact_sample :
    Fits .v4 ⟨4, [0x0a, 0x2f]⟩ ∧ ∃ p, ofBitString .v4 ⟨4, [0x0a, 0x2f]⟩ = .ok p ∧
      ofBitString .v4 ⟨4, [0x0a, 0x25]⟩ = .ok p ∧ p.length ≤ Family.v4.octets * 8 ∧
      p.bitString = ⟨4, [0x0a, 0x20]⟩ ∧ Der.Takes (read .v4) p.encode p := by
  obtain ⟨hread, hwritten⟩ := sharedBits_exact .v4
  obtain ⟨hfits, -, hmade, hsame⟩ := hread ⟨4, [0x0a, 0x2f]⟩
  have h : Fits .v4 ⟨4, [0x0a, 0x2f]⟩ := ⟨by decide, by decide, by decide⟩
  obtain ⟨p, hp⟩ := hfits.mpr h
  have hused : ∀ i < 12, BitString.bit ⟨4, [0x0a, 0x25]⟩ i = BitString.bit ⟨4, [0x0a, 0x2f]⟩ i := by
    decide
  have hbits : ∀ i, BitString.bit ⟨4, [0x0a, 0x25]⟩ i = BitString.bit ⟨4, [0x0a, 0x2f]⟩ i := by
    intro i
    by_cases hi : i < 12
    · exact hused i hi
    · rw [bit_of_le (Nat.not_lt.mp hi), bit_of_le (Nat.not_lt.mp hi)]
  refine ⟨h, p, hp, (hsame ⟨4, [0x0a, 0x25]⟩ rfl rfl hbits).trans hp, ?_⟩
  obtain rfl := Except.ok.inj (hp.symm.trans (ofBitString_of_fits h))
  exact ⟨by decide, by decide, ((hwritten _ (by decide)).restored (hmade _ hp).1).2⟩

end AddressPrefix

end ResourcePki

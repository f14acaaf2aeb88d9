import ResourcePki.Proofs.Address.SharedBits

/-!
The ends of a range as bit strings.

The first address is written without its trailing zeros and the last one without its trailing ones,
so the first string ends in a one and the second one in a zero if they have any bits. A shorter
string would leave one of these bits out, and what is filled in for it is the other one: no strings
that are read as the ends of the range have fewer bits than these.
-/

namespace ResourcePki

/-- A bit string has no bits, or this is the last one. -/
def BitString.EndsIn (b : BitString) (last : Bool) : Prop :=
  b.octets = [] ∨ b.bit (b.length - 1) = last

namespace Address

variable {len n : Nat}

theorem blockSize_dvd_iff : blockSize len ∣ n ↔ ∀ i < 128 - len, n.testBit i = false := by
  have hsize : blockSize len = 2 ^ (128 - len) := rfl
  rw [hsize, Nat.dvd_iff_mod_eq_zero]
  constructor
  · intro h i hi
    have hbit := Nat.testBit_mod_two_pow n (128 - len) i
    rwa [h, Nat.zero_testBit, decide_eq_true hi, Bool.true_and, eq_comm] at hbit
  · intro h
    refine Nat.eq_of_testBit_eq fun i => ?_
    rw [Nat.testBit_mod_two_pow, Nat.zero_testBit]
    by_cases hi : i < 128 - len
    · rw [h i hi, Bool.and_false]
    · rw [decide_eq_false hi, Bool.false_and]

theorem blockSize_dvd_succ_iff : blockSize len ∣ n + 1 ↔ ∀ i < 128 - len, n.testBit i = true := by
  have hsize : blockSize len = 2 ^ (128 - len) - 1 + 1 :=
    (Nat.sub_add_cancel (Nat.two_pow_pos _)).symm
  have hones : n % (2 ^ (128 - len) - 1 + 1) = n % 2 ^ (128 - len) := by
    rw [← hsize]
    rfl
  rw [hsize, Nat.dvd_iff_mod_eq_zero, Nat.succ_mod_succ_eq_zero_iff, hones]
  constructor
  · intro h i hi
    have hbit := Nat.testBit_mod_two_pow n (128 - len) i
    rwa [h, Nat.testBit_two_pow_sub_one, decide_eq_true hi, Bool.true_and, eq_comm] at hbit
  · intro h
    refine Nat.eq_of_testBit_eq fun i => ?_
    rw [Nat.testBit_mod_two_pow, Nat.testBit_two_pow_sub_one]
    by_cases hi : i < 128 - len
    · rw [h i hi, Bool.and_true]
    · rw [decide_eq_false hi, Bool.false_and]

end Address

namespace AddressPrefix

variable {family : Family} {p : AddressPrefix}

theorem octets_bitString_eq_nil (h : p.length = 0) : p.bitString.octets = [] := by
  have hcount : p.octetCount = 0 := by
    unfold octetCount
    omega
  rw [octets_bitString, hcount, List.take_zero]

/-- The last one of the shared bits stands right in front of those that are not shared. -/
theorem endsIn_bitString {last : Bool} (h : p.length ≤ 128)
    (hlast : p.length ≠ 0 → p.address.value.testBit (128 - p.length) = last) :
    p.bitString.EndsIn last := by
  by_cases hzero : p.length = 0
  · exact Or.inl (octets_bitString_eq_nil hzero)
  · have hindex : 127 - (p.length - 1) = 128 - p.length := by omega
    right
    rw [length_bitString h, bit_bitString h, decide_eq_true (by omega), Bool.true_and, hindex]
    exact hlast hzero

/-- A block is read from the next bit string. -/
theorem of_read {s t : Der.Input} (h : read family s = .ok (p, t)) :
    ∃ b, Der.bitString s = .ok (b, t) ∧ ofBitString family b = .ok p := by
  obtain ⟨e, u, he, h⟩ := run_bind_eq_ok.mp h
  obtain ⟨q, hq, ht⟩ := run_lift_eq_ok.mp h
  rw [Prod.mk.injEq] at ht
  obtain ⟨rfl, rfl⟩ := ht
  obtain ⟨b, hb, hread⟩ := bind_eq_ok.mp hq
  refine ⟨b, run_bind_eq_ok.mpr ⟨e, _, he, run_lift_eq_ok.mpr ⟨b, hb, rfl⟩⟩, ?_⟩
  split at hread
  · rename_i q hbits
    obtain rfl := pure_eq_ok.mp hread
    exact hbits
  · exact absurd hread throw_ne_ok

end AddressPrefix

namespace AddressRange

variable {family : Family} {r : AddressRange}

/-- Where all bits behind the first ones are alike, but not if these are one less, the last one of
    the first ones is different. -/
theorem bit_of_shortest {bit : Nat → Bool} {filler : Bool} {len : Nat} (hlen : len ≤ 128)
    (halike : ∀ i < 128 - len, bit i = filler)
    (hfewer : ¬∀ i < 128 - (len - 1), bit i = filler) : bit (128 - len) = !filler := by
  by_contra hbit
  refine hfewer fun i hi => ?_
  rcases Nat.lt_or_ge i (128 - len) with hlt | hge
  · exact halike i hlt
  · obtain rfl : i = 128 - len := by omega
    exact Bool.not_eq_not.mp hbit

/-- The bits of the first address end in a one: without it, they would have been fewer. -/
theorem endsIn_firstPrefix (r : AddressRange) : r.firstPrefix.bitString.EndsIn true := by
  have hlen := r.length_firstPrefix_le
  refine AddressPrefix.endsIn_bitString hlen fun hzero => ?_
  have haddress : r.firstPrefix.address = r.first := r.first_firstPrefix
  have hclear := Address.blockSize_dvd_iff.mp
    ((r.length_firstPrefix_le_iff hlen).mp (Nat.le_refl _))
  rw [haddress]
  refine bit_of_shortest hlen hclear fun hall => ?_
  have hle := (r.length_firstPrefix_le_iff (by omega)).mpr (Address.blockSize_dvd_iff.mpr hall)
  omega

/-- The bits of the last address end in a zero. -/
theorem endsIn_lastPrefix (r : AddressRange) : r.lastPrefix.bitString.EndsIn false := by
  have hlen := r.length_lastPrefix_le
  refine AddressPrefix.endsIn_bitString hlen fun hzero => ?_
  have hset := Address.blockSize_dvd_succ_iff.mp
    ((r.length_lastPrefix_le_iff hlen).mp (Nat.le_refl _))
  show (r.last.floor r.lastPrefix.length).value.testBit (128 - r.lastPrefix.length) = false
  rw [Address.testBit_floor, decide_eq_true (Nat.le_refl _), Bool.true_and]
  refine bit_of_shortest hlen hset fun hall => ?_
  have hle := (r.length_lastPrefix_le_iff (by omega)).mpr (Address.blockSize_dvd_succ_iff.mpr hall)
  omega

/-- Whatever strings a range is read from, those that it is written as are not longer. -/
theorem exists_bitStrings {s t : Der.Input} (h : readEnds family s = .ok (r, t)) :
    ∃ b u c, Der.bitString s = .ok (b, u) ∧ Der.bitString u = .ok (c, t) ∧
      r.firstPrefix.bitString.length ≤ b.length ∧ r.lastPrefix.bitString.length ≤ c.length := by
  obtain ⟨p, u, hp, h⟩ := run_bind_eq_ok.mp h
  obtain ⟨q, v, hq, h⟩ := run_bind_eq_ok.mp h
  obtain ⟨b, hb, hpb⟩ := AddressPrefix.of_read hp
  obtain ⟨c, hc, hqc⟩ := AddressPrefix.of_read hq
  cases hmake : make p.first q.last with
  | error e =>
    rw [hmake] at h
    exact absurd h run_throw_ne_ok
  | ok r' =>
    rw [hmake, run_pure_eq_ok, Prod.mk.injEq] at h
    obtain ⟨rfl, rfl⟩ := h
    obtain ⟨rfl, -⟩ := of_make hmake
    have hplen : p.length = b.length := by rw [← (AddressPrefix.ofBitString_eq_ok.mp hpb).2]; rfl
    have hqlen : q.length = c.length := by rw [← (AddressPrefix.ofBitString_eq_ok.mp hqc).2]; rfl
    have hpmade := AddressPrefix.isMade_iff.mp (AddressPrefix.isMade_of_ofBitString hpb)
    have hqmade := AddressPrefix.isMade_iff.mp (AddressPrefix.isMade_of_ofBitString hqc)
    refine ⟨b, u, c, hb, hc, ?_, ?_⟩
    · rw [AddressPrefix.length_bitString (length_firstPrefix_le _), ← hplen,
        length_firstPrefix_le_iff _ hpmade.1]
      exact (AddressPrefix.ofBitString_spec hpb).2
    · rw [AddressPrefix.length_bitString (length_lastPrefix_le _), ← hqlen,
        length_lastPrefix_le_iff _ hqmade.1]
      exact Address.blockSize_dvd_ceil _ _

/-- How a range of a family is written. -/
structure IsShortestForm (family : Family) (r : AddressRange) : Prop where
  /-- No length becomes negative in words of eight bits, and none is above 128. -/
  first_words : (Address.Words.firstPrefix? r.first.word).map Address.Words.Block.value
    = some r.firstPrefix
  last_words : (Address.Words.lastPrefix? r.last.word).map Address.Words.Block.value
    = some r.lastPrefix
  first_fits : AddressPrefix.Fits family r.firstPrefix.bitString
  last_fits : AddressPrefix.Fits family r.lastPrefix.bitString
  restored : Der.Takes (Der.inSequence (readEnds family)) r.encode r
  first_ends : r.firstPrefix.bitString.EndsIn true
  last_ends : r.lastPrefix.bitString.EndsIn false
  shortest : ∀ s t, readEnds family s = .ok (r, t) →
    ∃ b u c, Der.bitString s = .ok (b, u) ∧ Der.bitString u = .ok (c, t) ∧
      r.firstPrefix.bitString.length ≤ b.length ∧ r.lastPrefix.bitString.length ≤ c.length

theorem takes_inSequence_readEnds (h : (AddressBlock.ofRange r).IsProper family) :
    Der.Takes (Der.inSequence (readEnds family)) r.encode r := by
  rw [r.encode_eq_written]
  exact Der.takes_inSequence (takes_readEnds h).all (length_ends_lt h)

/-- A range that begins and ends on whole addresses of a family is written in the way that the format
    asks for: it is read again, and in no fewer bits. -/
theorem encode_isShortestForm (hle : r.first.value ≤ r.last.value)
    (hwhole : family = .v4 → r.first.value % Address.v4Size = 0 ∧
      r.last.value % Address.v4Size = Address.v4Size - 1) : r.IsShortestForm family := by
  have hproper : (AddressBlock.ofRange r).IsProper family := ⟨hle, hwhole, fun _ h => by cases h⟩
  obtain ⟨hfirst, hlast⟩ := isProper_ends hproper
  exact {
    first_words := Address.Words.map_firstPrefix? r
    last_words := Address.Words.map_lastPrefix? r
    first_fits := AddressPrefix.fits_bitString hfirst.length_le
    last_fits := AddressPrefix.fits_bitString hlast.length_le
    restored := takes_inSequence_readEnds hproper
    first_ends := r.endsIn_firstPrefix
    last_ends := r.endsIn_lastPrefix
    shortest := fun _ _ => exists_bitStrings }

/-- The addresses from 10.0.0.0 to 10.2.255.255 are written in seven and in sixteen bits. -/
theorem encode_isShortestForm_sample :
    let r : AddressRange := ⟨.ofV4 0x0a000000, .ofNat 0x0a02ffffffffffffffffffffffffffff⟩
    r.first.value ≤ r.last.value ∧ r.first.value % Address.v4Size = 0 ∧
      r.last.value % Address.v4Size = Address.v4Size - 1 ∧
      r.firstPrefix.bitString = ⟨1, [0x0a]⟩ ∧ r.lastPrefix.bitString = ⟨0, [0x0a, 0x02]⟩ ∧
      r.IsShortestForm .v4 := by
  intro r
  have hwhole : r.first.value % Address.v4Size = 0 ∧
      r.last.value % Address.v4Size = Address.v4Size - 1 := by decide
  exact ⟨by decide, hwhole.1, hwhole.2, by decide +kernel, by decide +kernel,
    encode_isShortestForm (by decide) fun _ => hwhole⟩

end AddressRange

end ResourcePki

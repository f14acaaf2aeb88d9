import ResourcePki.Address.Block

/-!
Blocks of addresses as sets of numbers.

The rounding of an address to its first bits is a division by the size of the block, so all that is
said here about it is arithmetic on multiples of that size. A block is proper for a family if it is
not empty, has no more shared bits than an address of the family, none set beyond them, and begins
and ends on whole addresses of the family. Every block that is read is proper, and for proper blocks
of one family it makes no difference whether they are compared by 128 bits or as sets of addresses.
-/

namespace ResourcePki

namespace Address

/-- How many numbers of 128 bits stand for one version 4 address. -/
def v4Size : Nat := 0x1000000000000000000000000

theorem v4Size_dvd_blockSize {len : Nat} (h : len ≤ 32) : v4Size ∣ blockSize len :=
  Nat.pow_dvd_pow 2 (show 96 ≤ 128 - len by omega)

theorem le_ceil_value (a : Address) (len : Nat) : a.value ≤ (a.ceil len).value := by
  have hmod := Nat.mod_lt a.value (blockSize_pos len)
  have hdiv := Nat.div_add_mod' a.value (blockSize len)
  show a.value ≤ a.value / blockSize len * blockSize len + (blockSize len - 1)
  omega

theorem blockSize_dvd_floor (a : Address) (len : Nat) : blockSize len ∣ (a.floor len).value :=
  Nat.dvd_mul_left _ _

theorem eq_of_value_eq : ∀ {a b : Address}, a.value = b.value → a = b
  | ⟨_, _⟩, ⟨_, _⟩, rfl => rfl

theorem floor_eq_self {a : Address} {len : Nat} (h : blockSize len ∣ a.value) :
    a.floor len = a :=
  eq_of_value_eq (Nat.div_mul_cancel h)

/-- The last number of a block is one before a multiple of the size. -/
theorem blockSize_dvd_ceil (a : Address) (len : Nat) :
    blockSize len ∣ (a.ceil len).value + 1 := by
  have hpos := blockSize_pos len
  have hsucc : (a.ceil len).value + 1 = (a.value / blockSize len + 1) * blockSize len := by
    show a.value / blockSize len * blockSize len + (blockSize len - 1) + 1 = _
    rw [Nat.succ_mul]
    omega
  rw [hsucc]
  exact Nat.dvd_mul_left _ _

/-- No bit is set beyond the first ones. -/
theorem testBit_eq_false_of_dvd {a : Address} {len i : Nat} (h : blockSize len ∣ a.value)
    (hi : i < 128 - len) : a.value.testBit i = false := by
  obtain ⟨q, hq⟩ := h
  have hsize : blockSize len = 2 ^ (128 - len) := rfl
  rw [hq, hsize, Nat.testBit_two_pow_mul]
  simp [Nat.not_le.mpr hi]

/-- An address as a number of its family. -/
def number (a : Address) : Family → Nat
  | .v4 => a.v4
  | .v6 => a.value

end Address

/-- What holds of every block with shared bits in a family. -/
structure AddressPrefix.IsProper (family : Family) (p : AddressPrefix) : Prop where
  length_le : p.length ≤ family.octets * 8
  clear : ∀ i < 128 - p.length, p.address.value.testBit i = false

namespace AddressBlock

/-- What holds of every block in a family. -/
structure IsProper (family : Family) (b : AddressBlock) : Prop where
  first_le_last : b.first.value ≤ b.last.value
  /-- A version 4 block begins and ends on a whole address. -/
  whole : family = .v4 → b.first.value % Address.v4Size = 0 ∧
    b.last.value % Address.v4Size = Address.v4Size - 1
  shared : ∀ p, b = .ofPrefix p → p.IsProper family

/-- Whether a block holds the address of a family with a number. -/
def Contains (family : Family) (b : AddressBlock) (n : Nat) : Prop :=
  b.first.number family ≤ n ∧ n ≤ b.last.number family

/-- Proper blocks that are apart as ranges of 128 bits have no address of their family in common. -/
theorem not_contains_both {family : Family} {b c : AddressBlock} (hb : b.IsProper family)
    (hc : c.IsProper family) (h : b.last.value < c.first.value ∨ c.last.value < b.first.value)
    (n : Nat) : ¬(b.Contains family n ∧ c.Contains family n) := by
  rintro ⟨⟨hbn, hnb⟩, ⟨hcn, hnc⟩⟩
  cases family with
  | v4 =>
    have hb4 := hb.whole rfl
    have hc4 := hc.whole rfl
    simp only [Address.number, Address.v4, Address.v4Size] at *
    omega
  | v6 =>
    simp only [Address.number] at *
    omega

end AddressBlock

/-! ### Blocks that are read -/

theorem AddressPrefix.isProper_of_dvd {family : Family} {p : AddressPrefix}
    (hlen : p.length ≤ family.octets * 8) (h : Address.blockSize p.length ∣ p.address.value) :
    p.IsProper family :=
  ⟨hlen, fun _ hi => Address.testBit_eq_false_of_dvd h hi⟩

/-- The bits beyond the length of a block are clear already. -/
theorem AddressPrefix.IsProper.floor_eq {family : Family} {p : AddressPrefix}
    (h : p.IsProper family) : p.address.floor p.length = p.address := by
  refine Address.floor_eq_self (Nat.dvd_of_mod_eq_zero (Nat.eq_of_testBit_eq fun i => ?_))
  show (p.address.value % 2 ^ (128 - p.length)).testBit i = Nat.testBit 0 i
  rw [Nat.testBit_mod_two_pow, Nat.zero_testBit]
  by_cases hi : i < 128 - p.length
  · rw [h.clear i hi, Bool.and_false]
  · simp [hi]

/-- What the shared bits of a block are read from has no more of them than an address. -/
theorem AddressPrefix.ofBitString_spec {family : Family} {b : BitString} {p : AddressPrefix}
    (h : ofBitString family b = .ok p) :
    p.length ≤ family.octets * 8 ∧ Address.blockSize p.length ∣ p.address.value := by
  unfold ofBitString at h
  split at h
  · simp at h
  · split at h
    · simp at h
    · rename_i hlen
      rw [Except.ok.injEq] at h
      subst h
      refine ⟨?_, Address.blockSize_dvd_floor _ _⟩
      show b.octets.length * 8 - b.unused ≤ family.octets * 8
      omega

theorem Address.v4Size_dvd_of_dvd {family : Family} {len : Nat} {n : Nat}
    (hlen : len ≤ family.octets * 8) (hfamily : family = .v4) (h : blockSize len ∣ n) :
    v4Size ∣ n := by
  subst hfamily
  exact Nat.dvd_trans (v4Size_dvd_blockSize hlen) h

/-- One before a multiple of the size leaves the largest remainder. -/
theorem Address.mod_v4Size_of_dvd_succ {n : Nat} (h : v4Size ∣ n + 1) :
    n % v4Size = v4Size - 1 := by
  obtain ⟨k, hk⟩ := h
  simp only [v4Size] at *
  omega

theorem AddressBlock.isProper_ofPrefix {family : Family} {p : AddressPrefix}
    (hlen : p.length ≤ family.octets * 8) (h : Address.blockSize p.length ∣ p.address.value) :
    (AddressBlock.ofPrefix p).IsProper family where
  first_le_last := Address.le_ceil_value _ _
  whole hfamily := ⟨Nat.mod_eq_zero_of_dvd (Address.v4Size_dvd_of_dvd hlen hfamily h),
    Address.mod_v4Size_of_dvd_succ
      (Address.v4Size_dvd_of_dvd hlen hfamily (Address.blockSize_dvd_ceil _ _))⟩
  shared q hq := by
    cases hq
    exact AddressPrefix.isProper_of_dvd hlen h

theorem AddressRange.of_make {a b : Address} {r : AddressRange} (h : make a b = .ok r) :
    r = ⟨a, b⟩ ∧ a.value ≤ b.value := by
  unfold make at h
  split at h
  · simp at h
  · rename_i hle
    rw [Except.ok.injEq] at h
    exact ⟨h.symm, Nat.not_lt.mp hle⟩

/-- A range between the ends of two blocks of shared bits. -/
theorem AddressBlock.isProper_ofRange {family : Family} {p q : AddressPrefix} {r : AddressRange}
    (hp : p.length ≤ family.octets * 8) (hpd : Address.blockSize p.length ∣ p.address.value)
    (hq : q.length ≤ family.octets * 8) (h : AddressRange.make p.first q.last = .ok r) :
    (AddressBlock.ofRange r).IsProper family := by
  obtain ⟨rfl, hle⟩ := AddressRange.of_make h
  refine ⟨hle, fun hfamily => ⟨?_, ?_⟩, fun _ hp => by cases hp⟩
  · exact Nat.mod_eq_zero_of_dvd (Address.v4Size_dvd_of_dvd hp hfamily hpd)
  · exact Address.mod_v4Size_of_dvd_succ
      (Address.v4Size_dvd_of_dvd hq hfamily (Address.blockSize_dvd_ceil _ _))

end ResourcePki

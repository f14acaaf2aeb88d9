import ResourcePki.Proofs.Address.Block
import ResourcePki.Proofs.Octets

/-!
The shared bits of a block in the form in which they are written.

They fill as many octets as they need, and the last octet has less than eight bits to spare, all of
them zero. What the octets leave out of the address is zero as well, so the address is read again.
The ends of a range are written with as few bits as possible: fewer bits than an end has left can
never be filled up to it, whoever wrote them. That is why a range that has been read is not longer
when it is written again.
-/

namespace ResourcePki

theorem Family.octets_le (family : Family) : family.octets ≤ 16 := by
  cases family <;> decide

theorem Family.length_le_128 (family : Family) {len : Nat} (h : len ≤ family.octets * 8) :
    len ≤ 128 := by
  have hoctets := family.octets_le
  omega

namespace Octets

theorem toNat_append (as bs : Octets) : toNat (as ++ bs) = toNat as * 256 ^ bs.length + toNat bs := by
  induction bs using List.reverseRecOn with
  | nil => simp [toNat]
  | append_singleton bs b ih =>
    rw [← List.append_assoc, toNat_concat, ih, toNat_concat, List.length_append,
      List.length_singleton, Nat.pow_succ, Nat.add_mul, Nat.mul_assoc, Nat.add_assoc]

theorem toNat_replicate_zero : ∀ k : Nat, toNat (List.replicate k 0) = 0
  | 0 => rfl
  | k + 1 => by
    rw [List.replicate_succ, toNat_cons, toNat_replicate_zero k]
    simp

/-- The first octets of a number are its quotient. -/
theorem toNat_take_ofNat {w k n : Nat} (hn : n < 256 ^ w) :
    toNat ((ofNat w n).take k) = n / 256 ^ (w - k) := by
  have hrest : ((ofNat w n).drop k).length = w - k := by rw [List.length_drop, length_ofNat]
  have hlt := toNat_lt ((ofNat w n).drop k)
  have hsum := toNat_append ((ofNat w n).take k) ((ofNat w n).drop k)
  rw [List.take_append_drop, toNat_ofNat_of_lt hn] at hsum
  rw [hrest] at hsum hlt
  have hpos : 0 < 256 ^ (w - k) := Nat.pow_pos (by decide)
  generalize toNat ((ofNat w n).take k) = q at hsum ⊢
  generalize toNat ((ofNat w n).drop k) = r at hsum hlt
  rw [hsum, Nat.mul_comm, Nat.mul_add_div hpos, Nat.div_eq_of_lt hlt, Nat.add_zero]

end Octets

/-! ### The fewest bits -/

/-- As many bits are zero as a power of two divides the number. -/
theorem le_trailingZeros_iff : ∀ {w k n : Nat}, k ≤ trailingZeros w n ↔ k ≤ w ∧ 2 ^ k ∣ n
  | 0, k, n => by
    constructor
    · intro h
      obtain rfl : k = 0 := Nat.le_zero.mp h
      exact ⟨h, Nat.one_dvd n⟩
    · exact fun h => h.1
  | w + 1, 0, n => by simp
  | w + 1, k + 1, n => by
    rw [trailingZeros]
    split
    · rename_i heven
      have hdvd : 2 ^ (k + 1) ∣ n ↔ 2 ^ k ∣ n / 2 := by
        rw [Nat.pow_succ, Nat.mul_comm]
        exact (Nat.dvd_div_iff_mul_dvd (Nat.dvd_of_mod_eq_zero heven)).symm
      rw [hdvd, Nat.add_comm 1, Nat.add_le_add_iff_right, Nat.add_le_add_iff_right]
      exact le_trailingZeros_iff
    · rename_i hodd
      constructor
      · exact fun h => absurd h (Nat.not_succ_le_zero k)
      · rintro ⟨-, h⟩
        have htwo : 2 ^ 1 ∣ n := Nat.dvd_trans (Nat.pow_dvd_pow 2 (Nat.le_add_left 1 k)) h
        exact absurd (Nat.mod_eq_zero_of_dvd htwo) hodd

/-- A number has fewer bits than these if it is a multiple of the size of a block. -/
theorem sub_trailingZeros_le_iff {len n : Nat} (hlen : len ≤ 128) :
    128 - trailingZeros 128 n ≤ len ↔ Address.blockSize len ∣ n := by
  have hswap : 128 - trailingZeros 128 n ≤ len ↔ 128 - len ≤ trailingZeros 128 n := by omega
  rw [hswap, le_trailingZeros_iff]
  exact and_iff_right (Nat.sub_le 128 len)

namespace AddressRange

variable (r : AddressRange) {len : Nat}

theorem length_firstPrefix_le_iff (hlen : len ≤ 128) :
    r.firstPrefix.length ≤ len ↔ Address.blockSize len ∣ r.first.value :=
  sub_trailingZeros_le_iff hlen

theorem length_lastPrefix_le_iff (hlen : len ≤ 128) :
    r.lastPrefix.length ≤ len ↔ Address.blockSize len ∣ r.last.value + 1 := by
  -- the ones that are dropped are the zeros of what is left to the largest address
  have hsum : 0xffffffffffffffffffffffffffffffff - r.last.value + (r.last.value + 1)
      = 0x100000000000000000000000000000000 := by
    have hlt := r.last.isLt
    omega
  have hall := Address.blockSize_dvd len
  rw [← hsum] at hall
  refine (sub_trailingZeros_le_iff hlen).trans ⟨fun h => ?_, fun h => ?_⟩
  · exact (Nat.dvd_add_right h).mp hall
  · exact (Nat.dvd_add_left h).mp hall

theorem length_firstPrefix_le : r.firstPrefix.length ≤ 128 :=
  Nat.sub_le _ _

theorem length_lastPrefix_le : r.lastPrefix.length ≤ 128 :=
  Nat.sub_le _ _

/-- Filling up the dropped zeros gives the first address. -/
theorem first_firstPrefix : r.firstPrefix.first = r.first :=
  Address.floor_eq_self ((r.length_firstPrefix_le_iff r.length_firstPrefix_le).mp (Nat.le_refl _))

/-- Filling up the dropped ones gives the last address. -/
theorem last_lastPrefix : r.lastPrefix.last = r.last := by
  have hdvd := (r.length_lastPrefix_le_iff r.length_lastPrefix_le).mp (Nat.le_refl _)
  have hsize := Address.blockSize_pos r.lastPrefix.length
  refine Address.eq_of_value_eq ?_
  show (r.last.value / Address.blockSize r.lastPrefix.length * Address.blockSize r.lastPrefix.length)
      / Address.blockSize r.lastPrefix.length * Address.blockSize r.lastPrefix.length
      + (Address.blockSize r.lastPrefix.length - 1) = r.last.value
  generalize Address.blockSize r.lastPrefix.length = size at hdvd hsize
  rw [Nat.mul_div_cancel _ hsize]
  obtain ⟨q, hq⟩ := hdvd
  have hlast : r.last.value = size * (q - 1) + (size - 1) := by
    cases q with
    | zero => simp at hq
    | succ q =>
      rw [Nat.mul_succ] at hq
      rw [Nat.add_sub_cancel]
      omega
  rw [hlast, Nat.mul_add_div hsize, Nat.div_eq_of_lt (Nat.sub_lt hsize Nat.one_pos), Nat.add_zero,
    Nat.mul_comm]

end AddressRange

/-! ### Octets of shared bits -/

namespace AddressPrefix

/-- How many octets the shared bits fill. -/
def octetCount (p : AddressPrefix) : Nat :=
  (p.length + 7) / 8

variable {family : Family} {p : AddressPrefix}

theorem octets_bitString (p : AddressPrefix) :
    p.bitString.octets = p.address.octets.take p.octetCount := by
  have hcount : p.octetCount = if p.length % 8 = 0 then p.length / 8 else p.length / 8 + 1 := by
    unfold octetCount
    split
    · omega
    · omega
  rw [hcount, bitString]
  by_cases h : p.length % 8 = 0
  · rw [if_pos h, if_pos h]
  · rw [if_neg h, if_neg h]

theorem unused_bitString (p : AddressPrefix) : p.bitString.unused = p.octetCount * 8 - p.length := by
  unfold bitString octetCount
  split
  · show 0 = _
    omega
  · show 8 - p.length % 8 = _
    omega

theorem octetCount_le (h : p.length ≤ family.octets * 8) : p.octetCount ≤ family.octets := by
  unfold octetCount
  omega

theorem length_octets_bitString (h : p.length ≤ 128) :
    p.bitString.octets.length = p.octetCount := by
  rw [octets_bitString, List.length_take, Address.octets, Octets.length_ofNat]
  unfold octetCount
  omega

theorem length_bitString (h : p.length ≤ 128) : p.bitString.length = p.length := by
  rw [BitString.length, length_octets_bitString h, unused_bitString]
  unfold octetCount
  omega

/-- The octets that are left out of an address and the bits to spare of the last one are zero. -/
theorem blockSize_eq (h : p.length ≤ 128) :
    Address.blockSize p.length = 256 ^ (16 - p.octetCount) * 2 ^ p.bitString.unused := by
  have hbits : 128 - p.length = 8 * (16 - p.octetCount) + p.bitString.unused := by
    rw [unused_bitString]
    unfold octetCount
    omega
  show 2 ^ (128 - p.length) = _
  rw [hbits, Nat.pow_add, Nat.pow_mul]

theorem toNat_octets_bitString (p : AddressPrefix) :
    Octets.toNat p.bitString.octets = p.address.value / 256 ^ (16 - p.octetCount) := by
  rw [octets_bitString]
  exact Octets.toNat_take_ofNat p.address.isLt

/-- The bits that the last octet has to spare are zero. -/
theorem last_bitString (h : p.length ≤ 128)
    (hclear : Address.blockSize p.length ∣ p.address.value) {last : UInt8}
    (hlast : p.bitString.octets.getLast? = some last) :
    last.toNat % 2 ^ p.bitString.unused = 0 := by
  obtain ⟨init, hinit⟩ := List.getLast?_eq_some_iff.mp hlast
  have hvalue := toNat_octets_bitString p
  rw [hinit, Octets.toNat_concat] at hvalue
  rw [blockSize_eq h] at hclear
  have hdvd := Nat.dvd_div_of_mul_dvd hclear
  rw [← hvalue] at hdvd
  have hunused : p.bitString.unused ≤ 8 := by
    rw [unused_bitString]
    unfold octetCount
    omega
  have h256 : 2 ^ p.bitString.unused ∣ Octets.toNat init * 256 :=
    Nat.dvd_trans (Nat.pow_dvd_pow 2 hunused) (Nat.dvd_mul_left 256 _)
  exact Nat.mod_eq_zero_of_dvd ((Nat.dvd_add_right h256).mp hdvd)

/-- The octets give the address again. -/
theorem ofOctets_bitString (h : p.length ≤ 128)
    (hclear : Address.blockSize p.length ∣ p.address.value) :
    Address.ofOctets (p.bitString.octets ++ List.replicate (16 - p.bitString.octets.length) 0)
      = p.address := by
  have hdvd : 256 ^ (16 - p.octetCount) ∣ p.address.value := by
    rw [blockSize_eq h] at hclear
    exact Nat.dvd_trans (Nat.dvd_mul_right _ _) hclear
  refine Address.eq_of_value_eq ?_
  show Octets.toNat _ % 0x100000000000000000000000000000000 = p.address.value
  rw [Octets.toNat_append, Octets.toNat_replicate_zero, List.length_replicate,
    length_octets_bitString h, toNat_octets_bitString p, Nat.div_mul_cancel hdvd, Nat.add_zero,
    Nat.mod_eq_of_lt p.address.isLt]

/-- The shared bits of a block are read as the block. -/
theorem ofBitString_bitString (h : p.length ≤ family.octets * 8)
    (hclear : Address.blockSize p.length ∣ p.address.value) :
    ofBitString family p.bitString = .ok p := by
  have h128 := family.length_le_128 h
  have hlen := length_octets_bitString h128
  have hspare : ¬(p.bitString.unused > 7 ∨ (p.bitString.octets = [] ∧ p.bitString.unused > 0)) := by
    rw [← List.length_eq_zero_iff, hlen, unused_bitString]
    unfold octetCount
    omega
  have hroom : ¬p.bitString.octets.length > family.octets := by
    rw [hlen]
    exact Nat.not_lt.mpr (octetCount_le h)
  unfold ofBitString
  rw [if_neg hspare, if_neg hroom, ofOctets_bitString h128 hclear, length_bitString h128]
  show Except.ok ⟨p.address.floor p.length, p.length⟩ = Except.ok p
  rw [Address.floor_eq_self hclear]

end AddressPrefix

end ResourcePki

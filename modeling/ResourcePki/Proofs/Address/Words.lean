import ResourcePki.Proofs.Address.Bits

/-!
Addresses in machine words.

An address is a word of 128 bits, and the length of a block is one of eight. The bits behind the
first ones are cleared or set by a mask, which is all ones shifted by the length; a length of the
whole width or more leaves the address as it is. A length above 128 is no length of a block, and a
difference of lengths must not be negative: steps that are not possible give nothing here.

Bit by bit the masks do what the division by the size of a block does, and a word that octets are
shifted into one after the other is the number that they spell. So whatever is computed in words
stands for the block that the numbers give, no length is cut off, and every step is possible.
-/

namespace ResourcePki

namespace Address

/-! ### Bits -/

variable (a : Address) (len : Nat) (i : Nat)

theorem testBit_floor :
    (a.floor len).value.testBit i = (decide (128 - len ≤ i) && a.value.testBit i) := by
  show (a.value / 2 ^ (128 - len) * 2 ^ (128 - len)).testBit i = _
  rw [Nat.testBit_mul_two_pow, Nat.testBit_div_two_pow]
  by_cases h : 128 - len ≤ i
  · rw [Nat.sub_add_cancel h]
  · rw [decide_eq_false h, Bool.false_and, Bool.false_and]

theorem testBit_ceil :
    (a.ceil len).value.testBit i = (decide (i < 128 - len) || a.value.testBit i) := by
  have hones : 2 ^ (128 - len) - 1 < 2 ^ (128 - len) :=
    Nat.sub_one_lt (Nat.ne_of_gt (Nat.two_pow_pos _))
  show (a.value / 2 ^ (128 - len) * 2 ^ (128 - len) + (2 ^ (128 - len) - 1)).testBit i = _
  rw [Nat.mul_comm, Nat.testBit_two_pow_mul_add _ hones, Nat.testBit_two_pow_sub_one,
    Nat.testBit_div_two_pow]
  split
  · rename_i h
    rw [decide_eq_true h, Bool.true_or]
  · rename_i h
    rw [decide_eq_false h, Bool.false_or, Nat.sub_add_cancel (Nat.not_lt.mp h)]

theorem eq_of_testBit {a b : Address} (h : ∀ i < 128, a.value.testBit i = b.value.testBit i) :
    a = b := by
  refine eq_of_value_eq (Nat.eq_of_testBit_eq fun i => ?_)
  by_cases hi : i < 128
  · exact h i hi
  · have hbound : 2 ^ 128 ≤ 2 ^ i := Nat.pow_le_pow_right (by decide) (Nat.not_lt.mp hi)
    rw [Nat.testBit_lt_two_pow (Nat.lt_of_lt_of_le a.isLt hbound),
      Nat.testBit_lt_two_pow (Nat.lt_of_lt_of_le b.isLt hbound)]

/-! ### Words -/

/-- The address that a word stands for. -/
def ofWord (w : BitVec 128) : Address :=
  ⟨w.toNat, w.isLt⟩

/-- The word of an address. -/
def word (a : Address) : BitVec 128 :=
  BitVec.ofNatLT a.value a.isLt

theorem testBit_ofWord (w : BitVec 128) : (ofWord w).value.testBit i = w.getLsbD i :=
  BitVec.testBit_toNat w

namespace Words

/-- The bits behind the first ones. -/
def mask (len : UInt8) : BitVec 128 :=
  BitVec.allOnes 128 >>> len.toNat

/-- An address with the bits behind the first ones cleared. -/
def floor (w : BitVec 128) (len : UInt8) : BitVec 128 :=
  if 128 ≤ len then w else w &&& ~~~mask len

/-- An address with the bits behind the first ones set. -/
def ceil (w : BitVec 128) (len : UInt8) : BitVec 128 :=
  if 128 ≤ len then w else w ||| mask len

variable (w : BitVec 128) (len : UInt8)

theorem getLsbD_mask {i : Nat} (hi : i < 128) :
    (mask len).getLsbD i = decide (i < 128 - len.toNat) := by
  rw [mask, BitVec.getLsbD_ushiftRight, BitVec.getLsbD_allOnes, decide_eq_decide]
  omega

theorem ofWord_floor : ofWord (floor w len) = (ofWord w).floor len.toNat := by
  refine eq_of_testBit fun i hi => ?_
  rw [testBit_floor, testBit_ofWord, testBit_ofWord, floor]
  split
  · rename_i hall
    have hlen : 128 ≤ len.toNat := hall
    rw [decide_eq_true (by omega), Bool.true_and]
  · rw [BitVec.getLsbD_and, BitVec.getLsbD_not, getLsbD_mask len hi, decide_eq_true hi,
      Bool.true_and, ← decide_not, Bool.and_comm]
    exact congrArg (· && _) (decide_eq_decide.mpr Nat.not_lt)

theorem ofWord_ceil : ofWord (ceil w len) = (ofWord w).ceil len.toNat := by
  refine eq_of_testBit fun i hi => ?_
  rw [testBit_ceil, testBit_ofWord, testBit_ofWord, ceil]
  split
  · rename_i hall
    have hlen : 128 ≤ len.toNat := hall
    rw [decide_eq_false (by omega), Bool.false_or]
  · rw [BitVec.getLsbD_or, getLsbD_mask len hi, Bool.or_comm]

/-! ### Blocks -/

/-- A block given by its first bits, in words. -/
structure Block where
  address : BitVec 128
  length : UInt8

/-- The block that words stand for. -/
def Block.value (b : Block) : AddressPrefix :=
  ⟨ofWord b.address, b.length.toNat⟩

/-- The block with the first bits of an address; there is none beyond 128 bits. -/
def make? (w : BitVec 128) (len : UInt8) : Option Block :=
  if len ≤ 128 then some ⟨floor w len, len⟩ else none

theorem map_make? : (make? w len).map Block.value = AddressPrefix.make? (ofWord w) len.toNat := by
  by_cases h : len ≤ 128
  · have hlen : len.toNat ≤ 128 := h
    rw [make?, if_pos h, AddressPrefix.make?, if_pos hlen, ← ofWord_floor]
    rfl
  · have hlen : ¬len.toNat ≤ 128 := h
    rw [make?, if_neg h, AddressPrefix.make?, if_neg hlen]
    rfl

/-! ### Octets -/

/-- A word with room for an octet. -/
def shift (w : BitVec 128) : BitVec 128 :=
  w <<< 8

/-- A word with an octet shifted in. -/
def push (w : BitVec 128) (b : UInt8) : BitVec 128 :=
  shift w ||| b.toBitVec.setWidth 128

/-- The address that octets begin with, filled up with zeros. -/
def ofOctets (bs : Octets) : BitVec 128 :=
  Nat.repeat shift (16 - bs.length) (bs.foldl push 0)

variable {w}

theorem toNat_shift {k : Nat} (h : w.toNat < 256 ^ k) (hk : k < 16) :
    (shift w).toNat = w.toNat * 256 := by
  have hroom : 256 ^ k ≤ 256 ^ 15 := Nat.pow_le_pow_right (by decide) (by omega)
  rw [shift, BitVec.toNat_shiftLeft, Nat.shiftLeft_eq]
  exact Nat.mod_eq_of_lt (by omega)

theorem toNat_push {k : Nat} (h : w.toNat < 256 ^ k) (hk : k < 16) (b : UInt8) :
    (push w b).toNat = w.toNat * 256 + b.toNat := by
  have hb : b.toNat < 2 ^ 8 := b.toNat_lt
  have hwide : (b.toBitVec.setWidth 128).toNat = b.toNat := by
    rw [BitVec.toNat_setWidth]
    exact Nat.mod_eq_of_lt (Nat.lt_trans hb (by decide))
  rw [push, BitVec.toNat_or, hwide, toNat_shift h hk]
  exact (Nat.shiftLeft_eq _ 8 ▸ Nat.shiftLeft_add_eq_or_of_lt hb w.toNat).symm

/-- As long as they fit, octets are shifted in without loss. -/
theorem toNat_foldl_push {bs : Octets} (h : bs.length ≤ 16) :
    (bs.foldl push 0).toNat = Octets.toNat bs := by
  induction bs using List.reverseRecOn with
  | nil => rfl
  | append_singleton bs b ih =>
    rw [List.length_append, List.length_singleton] at h
    have ih := ih (by omega)
    have hlt : (bs.foldl push 0).toNat < 256 ^ bs.length := ih ▸ Octets.toNat_lt bs
    rw [List.foldl_append, List.foldl_cons, List.foldl_nil, toNat_push hlt (by omega), ih,
      Octets.toNat_concat]

theorem toNat_repeat_shift {k n : Nat} (h : w.toNat < 256 ^ k) (hk : k + n ≤ 16) :
    (Nat.repeat shift n w).toNat = w.toNat * 256 ^ n := by
  induction n with
  | zero => rw [Nat.pow_zero, Nat.mul_one]; rfl
  | succ n ih =>
    have ih := ih (by omega)
    have hlt : (Nat.repeat shift n w).toNat < 256 ^ (k + n) := by
      rw [ih, Nat.pow_add]
      exact Nat.mul_lt_mul_of_pos_right h (Nat.pow_pos (by decide))
    show (shift (Nat.repeat shift n w)).toNat = _
    rw [toNat_shift hlt (by omega), ih, Nat.pow_succ, Nat.mul_assoc]

theorem ofWord_ofOctets {bs : Octets} (h : bs.length ≤ 16) :
    ofWord (ofOctets bs) = Address.ofOctets (bs ++ List.replicate (16 - bs.length) 0) := by
  have hlt : (bs.foldl push 0).toNat < 256 ^ bs.length :=
    toNat_foldl_push h ▸ Octets.toNat_lt bs
  have hfill : bs.length + (16 - bs.length) ≤ 16 := by omega
  have hvalue : (ofOctets bs).toNat = Octets.toNat (bs ++ List.replicate (16 - bs.length) 0) := by
    rw [ofOctets, toNat_repeat_shift hlt hfill, toNat_foldl_push h, Octets.toNat_append,
      Octets.toNat_replicate_zero, List.length_replicate, Nat.add_zero]
  refine eq_of_value_eq ?_
  show (ofOctets bs).toNat = Octets.toNat _ % 2 ^ 128
  rw [← hvalue, Nat.mod_eq_of_lt (ofOctets bs).isLt]

/-- Reads the shared bits of a block. Nothing is given if they make a length that no block has. -/
def ofBitString? (family : Family) (b : BitString) : Option (Except IpResourceError Block) :=
  if b.unused > 7 ∨ (b.octets = [] ∧ b.unused > 0) then some (.error .badAddress)
  else if b.octets.length > family.octets then some (.error .badAddress)
  else (make? (ofOctets b.octets) (UInt8.ofNat b.length)).map .ok

/-- Reading in words does what reading in numbers does: no length is too large, and none is cut
    off. -/
theorem map_ofBitString? (family : Family) (b : BitString) :
    (ofBitString? family b).map (·.map Block.value)
      = some (AddressPrefix.ofBitString family b) := by
  unfold ofBitString? AddressPrefix.ofBitString
  split
  · rfl
  · split
    · rfl
    · rename_i hroom
      have hoctets : b.octets.length ≤ 16 :=
        Nat.le_trans (Nat.not_lt.mp hroom) family.octets_le
      have hlength : b.length ≤ 128 := by
        unfold BitString.length
        omega
      have hword : (UInt8.ofNat b.length).toNat = b.length := by
        rw [UInt8.toNat_ofNat']
        exact Nat.mod_eq_of_lt (by omega)
      have hmake := map_make? (ofOctets b.octets) (UInt8.ofNat b.length)
      rw [hword, ofWord_ofOctets hoctets, AddressPrefix.make?, if_pos hlength] at hmake
      obtain ⟨q, hq, hvalue⟩ := Option.map_eq_some_iff.mp hmake
      dsimp only
      rw [hq, ← hvalue]
      rfl

/-! ### Ends of ranges -/

/-- The difference of two lengths, if it is not negative. -/
def sub? (a b : UInt8) : Option UInt8 :=
  if b ≤ a then some (a - b) else none

/-- The first address of a range without its trailing zeros. -/
def firstPrefix? (first : BitVec 128) : Option Block := do
  make? first (← sub? 128 (UInt8.ofNat (trailingZeros 128 first.toNat)))

/-- The last address of a range without its trailing ones. -/
def lastPrefix? (last : BitVec 128) : Option Block := do
  make? last (← sub? 128 (UInt8.ofNat (trailingZeros 128 (~~~last).toNat)))

/-- No word has more trailing zeros than bits, so a length is left. -/
theorem exists_sub? (n : Nat) : ∃ len, sub? 128 (UInt8.ofNat (trailingZeros 128 n)) = some len ∧
    len.toNat = 128 - trailingZeros 128 n := by
  have hzeros : trailingZeros 128 n ≤ 128 := (le_trailingZeros_iff.mp (Nat.le_refl _)).1
  have hword : (UInt8.ofNat (trailingZeros 128 n)).toNat = trailingZeros 128 n := by
    rw [UInt8.toNat_ofNat']
    exact Nat.mod_eq_of_lt (by omega)
  have hle : UInt8.ofNat (trailingZeros 128 n) ≤ 128 := by
    rw [UInt8.le_iff_toNat_le, hword]
    exact hzeros
  refine ⟨_, if_pos hle, ?_⟩
  rw [UInt8.toNat_sub_of_le _ _ hle, hword]
  rfl

theorem map_firstPrefix? (r : AddressRange) :
    (firstPrefix? r.first.word).map Block.value = some r.firstPrefix := by
  obtain ⟨len, hlen, hvalue⟩ := exists_sub? r.first.word.toNat
  have hmake := map_make? r.first.word len
  rw [hvalue, AddressPrefix.make?, if_pos (Nat.sub_le _ _)] at hmake
  rw [firstPrefix?, hlen]
  exact hmake

theorem map_lastPrefix? (r : AddressRange) :
    (lastPrefix? r.last.word).map Block.value = some r.lastPrefix := by
  obtain ⟨len, hlen, hvalue⟩ := exists_sub? (~~~r.last.word).toNat
  have hones : (~~~r.last.word).toNat = 0xffffffffffffffffffffffffffffffff - r.last.value :=
    BitVec.toNat_not
  have hmake := map_make? r.last.word len
  rw [hvalue, AddressPrefix.make?, if_pos (Nat.sub_le _ _), hones] at hmake
  rw [lastPrefix?, hlen]
  exact hmake

end Words

end Address

end ResourcePki

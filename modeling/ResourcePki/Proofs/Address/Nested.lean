import Mathlib.Data.Set.Basic
import ResourcePki.Proofs.Address.SharedBits

/-!
Blocks of addresses that share their first bits are aligned, and of two of them that meet one lies
in the other.

The addresses between the ends of the block around an address are those for which the division by
the size of the block gives the same quotient, and these are the ones that have the same first bits.
So it makes no difference around which of its addresses a block is built: it has the same ends,
which are addresses of the block themselves. Addresses that share some bits share any fewer ones. If
two blocks have an address in common, the one with more shared bits therefore lies in the other one.
-/

namespace ResourcePki

namespace Address

/-- Two addresses have the same first bits, of which there are no more than 128. -/
def Agree (len : Nat) (a b : Address) : Prop :=
  ∀ i < min len 128, a.value.testBit (127 - i) = b.value.testBit (127 - i)

/-- The addresses between the ends of the block around one of them. -/
def block (a : Address) (len : Nat) : Set Address :=
  {b | (a.floor len).value ≤ b.value ∧ b.value ≤ (a.ceil len).value}

/-- Two sets of addresses have none in common, or one of them lies in the other. -/
def AreNested (s t : Set Address) : Prop :=
  s ∩ t = ∅ ∨ s ⊆ t ∨ t ⊆ s

variable {a b c : Address} {len more : Nat}

/-! ### Shared bits -/

theorem Agree.symm (h : Agree len a b) : Agree len b a :=
  fun i hi => (h i hi).symm

theorem Agree.trans (h : Agree len a b) (h' : Agree len b c) : Agree len a c :=
  fun i hi => (h i hi).trans (h' i hi)

theorem Agree.of_le (h : Agree more a b) (hle : len ≤ more) : Agree len a b :=
  fun i hi => h i (by omega)

/-- The first address of a block keeps nothing but the first bits. -/
theorem floor_eq_iff : b.floor len = a.floor len ↔ Agree len a b := by
  constructor
  · intro h i hi
    have hbit := congrArg (fun c : Address => c.value.testBit (127 - i)) h
    have hkept : decide (128 - len ≤ 127 - i) = true := decide_eq_true (by omega)
    simp only [testBit_floor, hkept, Bool.true_and] at hbit
    exact hbit.symm
  · intro h
    refine eq_of_testBit fun i hi => ?_
    rw [testBit_floor, testBit_floor]
    by_cases hkept : 128 - len ≤ i
    · have hbit := h (127 - i) (by omega)
      have hindex : 127 - (127 - i) = i := by omega
      rw [hindex] at hbit
      rw [hbit]
    · rw [decide_eq_false hkept, Bool.false_and, Bool.false_and]

/-! ### Ends of blocks -/

theorem floor_value_le (a : Address) (len : Nat) : (a.floor len).value ≤ a.value :=
  Nat.div_mul_le_self _ _

theorem ceil_value (a : Address) (len : Nat) :
    (a.ceil len).value = (a.floor len).value + (blockSize len - 1) :=
  rfl

/-- The addresses of a block are those around which it begins at the same address. -/
theorem mem_block_iff_floor_eq : b ∈ a.block len ↔ b.floor len = a.floor len := by
  have hsize := blockSize_pos len
  have hquot := Nat.div_eq_iff hsize (x := b.value) (y := a.value / blockSize len)
  rw [Nat.add_sub_assoc hsize] at hquot
  constructor
  · intro h
    exact eq_of_value_eq (congrArg (· * blockSize len) (hquot.mpr h))
  · intro h
    exact hquot.mp (Nat.eq_of_mul_eq_mul_right hsize (congrArg value h))

/-- A block consists of the addresses that have its first bits. -/
theorem mem_block_iff : b ∈ a.block len ↔ Agree len a b :=
  mem_block_iff_floor_eq.trans floor_eq_iff

theorem floor_mem_block (a : Address) (len : Nat) : a.floor len ∈ a.block len :=
  ⟨Nat.le_refl _, Nat.le_trans (a.floor_value_le len) (a.le_ceil_value len)⟩

theorem ceil_mem_block (a : Address) (len : Nat) : a.ceil len ∈ a.block len :=
  ⟨Nat.le_trans (a.floor_value_le len) (a.le_ceil_value len), Nat.le_refl _⟩

/-- A block has the same ends around each of its addresses. -/
theorem ends_eq (h : b ∈ a.block len) : b.floor len = a.floor len ∧ b.ceil len = a.ceil len := by
  have hfloor := mem_block_iff_floor_eq.mp h
  refine ⟨hfloor, eq_of_value_eq ?_⟩
  rw [ceil_value, ceil_value, hfloor]

/-- The ends of the block around an address, and of the blocks around these. -/
structure IsAligned (a : Address) (len : Nat) : Prop where
  floor_le : (a.floor len).value ≤ a.value
  le_ceil : a.value ≤ (a.ceil len).value
  floor_floor : (a.floor len).floor len = a.floor len
  ceil_ceil : (a.ceil len).ceil len = a.ceil len
  ceil_floor : (a.floor len).ceil len = a.ceil len
  floor_ceil : (a.ceil len).floor len = a.floor len

theorem isAligned (a : Address) (len : Nat) : a.IsAligned len where
  floor_le := a.floor_value_le len
  le_ceil := a.le_ceil_value len
  floor_floor := (ends_eq (a.floor_mem_block len)).1
  ceil_ceil := (ends_eq (a.ceil_mem_block len)).2
  ceil_floor := (ends_eq (a.floor_mem_block len)).2
  floor_ceil := (ends_eq (a.ceil_mem_block len)).1

/-! ### Two blocks -/

/-- A block holds all of another one with no fewer shared bits if it holds one address of it. -/
theorem block_subset (hle : len ≤ more) (ha : c ∈ a.block len) (hb : c ∈ b.block more) :
    b.block more ⊆ a.block len := by
  intro d hd
  rw [mem_block_iff] at ha hb hd ⊢
  have hshared : Agree more c d := hb.symm.trans hd
  exact ha.trans (hshared.of_le hle)

theorem areNested_block (a b : Address) (len more : Nat) :
    AreNested (a.block len) (b.block more) := by
  rcases Set.eq_empty_or_nonempty (a.block len ∩ b.block more) with hnone | ⟨c, ha, hb⟩
  · exact .inl hnone
  · rcases Nat.le_total len more with hle | hle
    · exact .inr (.inr (block_subset hle ha hb))
    · exact .inr (.inl (block_subset hle hb ha))

end Address

namespace AddressPrefix

/-- The addresses of a block. -/
def addresses (p : AddressPrefix) : Set Address :=
  {a | p.first.value ≤ a.value ∧ a.value ≤ p.last.value}

variable {p q : AddressPrefix}

/-- A block that has been made begins where its first bits end. -/
theorem IsMade.addresses_eq (h : p.IsMade) : p.addresses = p.address.block p.length := by
  rw [Address.block, (isMade_iff.mp h).2]
  rfl

theorem IsMade.areNested (hp : p.IsMade) (hq : q.IsMade) :
    Address.AreNested p.addresses q.addresses := by
  rw [hp.addresses_eq, hq.addresses_eq]
  exact Address.areNested_block _ _ _ _

/-- The blocks around addresses, in words of a machine as in numbers: their ends are those of all
    their addresses, and they hold exactly the addresses with their first bits. Two of them are
    apart, or one lies in the other, and so it is with any two blocks that have been made. -/
theorem blocks_exact :
    (∀ (a : Address) (len : Nat), a.IsAligned len) ∧
    (∀ (a b : Address) (len : Nat), b ∈ a.block len ↔ Address.Agree len a b) ∧
    (∀ (w : BitVec 128) (len : UInt8),
      Address.ofWord (Address.Words.floor w len) = (Address.ofWord w).floor len.toNat ∧
        Address.ofWord (Address.Words.ceil w len) = (Address.ofWord w).ceil len.toNat) ∧
    (∀ (a b : Address) (len more : Nat), Address.AreNested (a.block len) (b.block more)) ∧
    ∀ p q : AddressPrefix, p.IsMade → q.IsMade → Address.AreNested p.addresses q.addresses := by
  refine ⟨Address.isAligned, fun a b len => Address.mem_block_iff, fun w len => ⟨?_, ?_⟩,
    Address.areNested_block, fun p q => IsMade.areNested⟩
  · exact Address.Words.ofWord_floor w len
  · exact Address.Words.ofWord_ceil w len

/-- A block of 8 bits and one of 12 bits that lies in it. -/
theorem blocks_exact_sample :
    let p : AddressPrefix := ⟨.ofV4 0x0a000000, 8⟩
    let q : AddressPrefix := ⟨.ofV4 0x0a200000, 12⟩
    p.IsMade ∧ q.IsMade ∧ Address.AreNested p.addresses q.addresses ∧
      (p.addresses ∩ q.addresses).Nonempty ∧ ¬p.addresses ⊆ q.addresses := by
  intro p q
  have hp : p.IsMade := isMade_iff.mpr ⟨by decide, by decide⟩
  have hq : q.IsMade := isMade_iff.mpr ⟨by decide, by decide⟩
  refine ⟨hp, hq, blocks_exact.2.2.2.2 p q hp hq, ?_, fun hsubset => ?_⟩
  · exact ⟨q.address, ⟨by decide, by decide⟩, by decide, by decide⟩
  · have hfirst : p.address ∈ p.addresses := ⟨by decide, by decide⟩
    have hout : ¬q.first.value ≤ p.address.value := by decide
    exact hout (hsubset hfirst).1

end AddressPrefix

end ResourcePki

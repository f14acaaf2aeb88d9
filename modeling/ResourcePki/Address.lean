import ResourcePki.Octets

/-!
Internet addresses of both families in one form.

An address is a number of 128 bits. A version 6 address fills it; a version 4 address stands in the
upper 32 bits and is followed by zeros. A block given by its first `len` bits is then the same set
of numbers whatever the family: all numbers with the same quotient by the size of the block.
`floor` and `ceil` are the smallest and the largest of them, so they are computed by that quotient.
-/

namespace ResourcePki

/-- The two address families. -/
inductive Family where
  | v4
  | v6
  deriving DecidableEq, Repr

namespace Family

/-- The length of an address in octets. -/
def octets : Family → Nat
  | .v4 => 4
  | .v6 => 16

/-- The name of the family. -/
def name : Family → String
  | .v4 => "IPv4"
  | .v6 => "IPv6"

end Family

/-- An address as a number of 128 bits. -/
structure Address where
  value : Nat
  isLt : value < 0x100000000000000000000000000000000
  deriving DecidableEq, Repr

namespace Address

/-- The address with the lowest 128 bits of a number. -/
def ofNat (n : Nat) : Address :=
  ⟨n % 0x100000000000000000000000000000000, Nat.mod_lt _ (by decide)⟩

/-- The address that octets spell; short strings give small numbers. -/
def ofOctets (bs : Octets) : Address :=
  ofNat (Octets.toNat bs)

/-- The sixteen octets of an address. -/
def octets (a : Address) : Octets :=
  Octets.ofNat 16 a.value

/-- The address of a version 4 number. -/
def ofV4 (n : Nat) : Address :=
  ofNat (n * 0x1000000000000000000000000)

/-- The version 4 number of an address. -/
def v4 (a : Address) : Nat :=
  a.value / 0x1000000000000000000000000

/-- How many addresses share their first `len` bits. -/
def blockSize (len : Nat) : Nat :=
  Nat.pow 2 (128 - len)

theorem blockSize_pos (len : Nat) : 0 < blockSize len :=
  Nat.two_pow_pos _

theorem blockSize_dvd (len : Nat) : blockSize len ∣ 0x100000000000000000000000000000000 :=
  Nat.pow_dvd_pow 2 (Nat.sub_le 128 len)

/-- The smallest address with the same first `len` bits. -/
def floor (a : Address) (len : Nat) : Address :=
  ⟨a.value / blockSize len * blockSize len, Nat.lt_of_le_of_lt (Nat.div_mul_le_self _ _) a.isLt⟩

/-- The largest address with the same first `len` bits. -/
def ceil (a : Address) (len : Nat) : Address :=
  ⟨a.value / blockSize len * blockSize len + (blockSize len - 1), by
    have hpos := blockSize_pos len
    have hblocks := Nat.div_mul_cancel (blockSize_dvd len)
    have hquot : a.value / blockSize len < 0x100000000000000000000000000000000 / blockSize len :=
      Nat.div_lt_of_lt_mul (by rw [Nat.mul_comm, hblocks]; exact a.isLt)
    have hmul := Nat.mul_le_mul_right (blockSize len) hquot
    rw [hblocks, Nat.succ_mul] at hmul
    omega⟩

end Address

end ResourcePki

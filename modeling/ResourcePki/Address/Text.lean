import ResourcePki.Address
import ResourcePki.Text.Decimal

/-!
The text of addresses. Version 4 addresses are four decimal octets. Version 6 addresses are eight
groups of hexadecimal digits without leading zeros, in which the first of the longest runs of at
least two zero groups is left out, except that addresses which embed a version 4 address show it in
its own form.
-/

namespace ResourcePki.Address

/-- Four decimal octets. -/
def dotted (n : Nat) : String :=
  ".".intercalate ((Octets.ofNat 4 n).map fun b => Decimal.text b.toNat)

/-- The eight groups of sixteen bits. -/
def groups (a : Address) : List Nat :=
  (List.range 8).map fun i => a.value >>> (16 * (7 - i)) % 0x10000

/-- How many zeros a list starts with. -/
def leadingZeros (gs : List Nat) : Nat :=
  (gs.takeWhile (· = 0)).length

/-- Start and length of the first of the longest runs of zeros. -/
def longestZeroRun : List Nat → Nat × Nat
  | [] => (0, 0)
  | g :: gs =>
    let (start, len) := longestZeroRun gs
    let here := leadingZeros (g :: gs)
    if len ≤ here then (0, here) else (start + 1, len)

/-- Groups in hexadecimal with colons between them. -/
def colonGroups (gs : List Nat) : String :=
  ":".intercalate (gs.map fun g => String.ofList (Nat.toDigits 16 g))

/-- The version 4 form of an address. -/
def textV4 (a : Address) : String :=
  dotted a.v4

/-- The version 6 form of an address. -/
def textV6 (a : Address) : String :=
  if a.value / 0x100000000 = 0xffff then "::ffff:" ++ dotted (a.value % 0x100000000)
  else
    let gs := a.groups
    let (start, len) := longestZeroRun gs
    if len > 1 then colonGroups (gs.take start) ++ "::" ++ colonGroups (gs.drop (start + len))
    else colonGroups gs

/-- The form of an address in a family. -/
def text (family : Family) (a : Address) : String :=
  match family with
  | .v4 => a.textV4
  | .v6 => a.textV6

end ResourcePki.Address

/-!
Octet strings and the numbers they spell.

Numbers stand in network byte order, the most significant octet first. A number can be written with
a given width, which cuts off what does not fit, or in the fewest octets. Cutting a string at a
position succeeds only if the string is long enough, so a reader built on it never looks past the
end.
-/

namespace ResourcePki

/-- A string of octets. -/
abbrev Octets := List UInt8

namespace Octets

/-- The number that the octets spell. -/
def toNat (bs : Octets) : Nat :=
  bs.foldl (fun n b => n * 256 + b.toNat) 0

/-- The lowest `width` octets of a number. -/
def ofNat : (width : Nat) → Nat → Octets
  | 0, _ => []
  | width + 1, n => ofNat width (n / 256) ++ [UInt8.ofNat (n % 256)]

/-- How many octets a number needs; none for zero. -/
def width (n : Nat) : Nat :=
  if n = 0 then 0 else n.log2 / 8 + 1

/-- A number in the fewest octets; empty for zero. -/
def shortest (n : Nat) : Octets :=
  ofNat (width n) n

/-- The first `n` octets and the rest, if there are that many. -/
def split? (n : Nat) (bs : Octets) : Option (Octets × Octets) :=
  let head := bs.take n
  if head.length = n then some (head, bs.drop n) else none

/-- The octets of a text in UTF-8. -/
def ofText (s : String) : Octets :=
  s.toList.flatMap String.utf8EncodeChar

/-- The octets of a text that consists of ASCII characters. -/
def ofAscii (s : String) : Octets :=
  s.toList.map Char.toUInt8

/-- The text whose characters have the octets as their code points. -/
def toText (bs : Octets) : String :=
  String.ofList (bs.map fun b => Char.ofNat b.toNat)

@[simp] theorem length_ofNat (w n : Nat) : (ofNat w n).length = w := by
  induction w generalizing n with
  | zero => rfl
  | succ w ih => simp [ofNat, ih]

theorem split?_append (a b : Octets) : split? a.length (a ++ b) = some (a, b) := by
  simp [split?]

theorem eq_append_of_split? {n : Nat} {bs a b : Octets} (h : split? n bs = some (a, b)) :
    bs = a ++ b ∧ a.length = n := by
  simp only [split?] at h
  split at h
  · next hn =>
    simp only [Option.some.injEq, Prod.mk.injEq] at h
    obtain ⟨rfl, rfl⟩ := h
    exact ⟨(List.take_append_drop n bs).symm, hn⟩
  · simp at h

end Octets

end ResourcePki

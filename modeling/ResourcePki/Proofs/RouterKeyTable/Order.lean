import ResourcePki.Proofs.KeyIdentifier
import ResourcePki.RouterKeyTable

/-!
The order of the keys in a table.

Keys that compare as equal are the same: a number, an identifier and an encoding determine a key,
since the encoding determines everything else about it.
-/

namespace ResourcePki

theorem AsNumber.eq_iff_value {m n : AsNumber} : m = n ↔ m.value = n.value := by
  obtain ⟨_⟩ := m
  obtain ⟨_⟩ := n
  simp

namespace RouterKey

/-- A key comes before another one: by its number, then its identifier, then its encoding. -/
def Precedes (a b : RouterKey) : Prop :=
  a.asNumber.toNat < b.asNumber.toNat ∨ a.asNumber = b.asNumber ∧
    (a.identifier.octets < b.identifier.octets ∨ a.identifier = b.identifier ∧
      a.key.encoding < b.key.encoding)

theorem order_eq_lt {a b : RouterKey} : order a b = .lt ↔ a.Precedes b := by
  rw [Precedes, AsNumber.eq_iff_value, KeyIdentifier.eq_iff_octets]
  simp only [order, compareLex, compareOn, Ordering.then_eq_lt, Std.compare_eq_lt,
    Std.LawfulEqOrd.compare_eq_iff_eq, Octets.compare_eq_lt]
  rfl

theorem Precedes.asymm {a b : RouterKey} (h : a.Precedes b) : ¬b.Precedes a := by
  have hlt : compare a b = .lt := order_eq_lt.mpr h
  exact fun hgt => Std.OrientedCmp.not_lt_of_lt hlt (order_eq_lt.mpr hgt)

/-- Keys that compare as equal are the same. -/
theorem eq_of_order {a b : RouterKey} (h : order a b = .eq) : a = b := by
  simp only [order, compareLex_eq_eq, compareOn, Std.LawfulEqOrd.compare_eq_iff_eq] at h
  obtain ⟨hnumber, hidentifier, hkey⟩ := h
  have hnumber := AsNumber.eq_iff_value.mpr hnumber
  have hidentifier := KeyIdentifier.eq_iff_octets.mpr hidentifier
  have hkey := PublicKey.ext_encoding hkey
  obtain ⟨_, _, _⟩ := a
  obtain ⟨_, _, _⟩ := b
  simp_all

instance : Std.LawfulEqOrd RouterKey where
  eq_of_compare h := eq_of_order h

end RouterKey

end ResourcePki

import ResourcePki.KeyIdentifier

/-!
The order of key identifiers.

Octets are ordered as words of a dictionary, and key identifiers by their octets, which determine
them.
-/

namespace ResourcePki

theorem Octets.compare_eq_lt : ∀ {a b : Octets}, compare a b = .lt ↔ a < b
  | [], [] => by simp
  | [], _ :: _ => by simp
  | _ :: _, [] => by simp
  | a :: as, b :: bs => by
    rw [List.compare_cons_cons, Ordering.then_eq_lt, List.cons_lt_cons_iff, Std.compare_eq_lt,
      Std.LawfulEqOrd.compare_eq_iff_eq, Octets.compare_eq_lt]

namespace KeyIdentifier

theorem eq_iff_octets {k l : KeyIdentifier} : k = l ↔ k.octets = l.octets := by
  obtain ⟨_, _⟩ := k
  obtain ⟨_, _⟩ := l
  simp

theorem compare_eq_lt {k l : KeyIdentifier} : compare k l = .lt ↔ k.octets < l.octets :=
  Octets.compare_eq_lt

instance : Std.LawfulEqOrd KeyIdentifier where
  eq_of_compare h := eq_iff_octets.mpr (Std.LawfulEqOrd.eq_of_compare h)

end KeyIdentifier

end ResourcePki

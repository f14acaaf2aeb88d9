import Mathlib.Algebra.Group.Nat.Defs
import Mathlib.Data.List.Induction
import ResourcePki.Octets

/-!
Numbers and the octets that spell them.

Both directions are recursions that peel the last octet, so all proofs go by induction from the end
of the string. Writing with a width and reading back cuts a number to its lowest octets; reading and
writing back with the length of the string gives the string. In the fewest octets a number has no
zero in front, and a string without one is the shortest form of its number.
-/

namespace ResourcePki.Octets

theorem toNat_concat (bs : Octets) (b : UInt8) : toNat (bs ++ [b]) = toNat bs * 256 + b.toNat := by
  rw [toNat, List.foldl_append]
  rfl

theorem toNat_lt (bs : Octets) : toNat bs < 256 ^ bs.length := by
  induction bs using List.reverseRecOn with
  | nil => simp [toNat]
  | append_singleton bs b ih =>
    have hb := b.toNat_lt
    rw [toNat_concat, List.length_append, List.length_singleton, Nat.pow_succ]
    omega

theorem toNat_ofNat (w n : Nat) : toNat (ofNat w n) = n % 256 ^ w := by
  induction w generalizing n with
  | zero => simp [ofNat, toNat, Nat.mod_one]
  | succ w ih =>
    rw [ofNat, toNat_concat, ih, UInt8.toNat_ofNat', Nat.mod_mod, Nat.pow_succ,
      Nat.mul_comm (256 ^ w), Nat.mod_mul]
    omega

theorem toNat_ofNat_of_lt {w n : Nat} (h : n < 256 ^ w) : toNat (ofNat w n) = n := by
  rw [toNat_ofNat, Nat.mod_eq_of_lt h]

theorem ofNat_toNat (bs : Octets) : ofNat bs.length (toNat bs) = bs := by
  induction bs using List.reverseRecOn with
  | nil => rfl
  | append_singleton bs b ih =>
    have hb := b.toNat_lt
    have hdiv : (toNat bs * 256 + b.toNat) / 256 = toNat bs := by omega
    have hmod : (toNat bs * 256 + b.toNat) % 256 = b.toNat := by omega
    rw [toNat_concat, List.length_append, List.length_singleton, ofNat, hdiv, hmod, ih,
      UInt8.ofNat_toNat]

/-! ### The shortest form -/

/-- A number fits into its width and not into one octet less. -/
theorem width_spec {n : Nat} (h : n ≠ 0) : 256 ^ (width n - 1) ≤ n ∧ n < 256 ^ width n := by
  have hpow : ∀ k, 256 ^ k = 2 ^ (8 * k) := fun k => by rw [Nat.pow_mul]
  rw [width, if_neg h, Nat.add_sub_cancel, hpow, hpow]
  constructor
  · exact (Nat.le_log2 h).mp (by omega)
  · exact (Nat.log2_lt h).mp (by omega)

theorem width_eq {n k : Nat} (hlow : 256 ^ k ≤ n) (hhigh : n < 256 ^ (k + 1)) :
    width n = k + 1 := by
  have hpos : 0 < 256 ^ k := Nat.pow_pos (by decide)
  obtain ⟨hle, hlt⟩ := width_spec (n := n) (by omega)
  have h₁ : k < width n := (Nat.pow_lt_pow_iff_right (by decide)).mp (Nat.lt_of_le_of_lt hlow hlt)
  have h₂ : width n - 1 < k + 1 :=
    (Nat.pow_lt_pow_iff_right (by decide)).mp (Nat.lt_of_le_of_lt hle hhigh)
  omega

theorem width_le {n k : Nat} (h : n < 256 ^ k) : width n ≤ k := by
  by_cases hn : n = 0
  · subst hn
    exact Nat.zero_le k
  · have hlow := Nat.lt_of_le_of_lt (width_spec hn).1 h
    have hlt := (Nat.pow_lt_pow_iff_right (by decide)).mp hlow
    omega

theorem lt_pow_width (n : Nat) : n < 256 ^ width n := by
  by_cases hn : n = 0
  · subst hn
    exact Nat.one_pos
  · exact (width_spec hn).2

theorem toNat_cons (b : UInt8) (bs : Octets) :
    toNat (b :: bs) = b.toNat * 256 ^ bs.length + toNat bs := by
  induction bs using List.reverseRecOn with
  | nil => simp [toNat]
  | append_singleton bs c ih =>
    rw [← List.cons_append, toNat_concat, ih, toNat_concat, List.length_append,
      List.length_singleton, Nat.pow_succ, Nat.add_mul, Nat.mul_assoc, Nat.add_assoc]

theorem toNat_shortest (n : Nat) : toNat (shortest n) = n := by
  by_cases h : n = 0
  · subst h
    rfl
  · exact toNat_ofNat_of_lt (width_spec h).2

/-- Octets without a zero in front are the shortest form of their number. -/
theorem shortest_toNat {bs : Octets} (h : bs.head? ≠ some 0) : shortest (toNat bs) = bs := by
  cases bs with
  | nil => rfl
  | cons b bs =>
    have hb : 1 ≤ b.toNat := by
      rcases Nat.eq_zero_or_pos b.toNat with h0 | hpos
      · exact absurd (congrArg some (UInt8.toNat_inj.mp h0)) h
      · exact hpos
    have hlow : 256 ^ bs.length ≤ toNat (b :: bs) := by
      rw [toNat_cons]
      exact Nat.le_trans (Nat.le_mul_of_pos_left _ hb) (Nat.le_add_right _ _)
    rw [shortest, width_eq hlow (toNat_lt (b :: bs))]
    exact ofNat_toNat (b :: bs)

end ResourcePki.Octets

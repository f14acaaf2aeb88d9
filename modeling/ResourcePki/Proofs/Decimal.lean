import Mathlib.Data.Nat.Digits.Defs
import ResourcePki.Text.Decimal

/-!
Numbers written in decimal digits are read back, and the texts that are read are those of numbers in
range.

The digits of a number are those of its tenth with one more behind them, and reading goes on from
what has been read, so both recursions meet at the last digit. A number other than zero does not
begin with a zero.
-/

namespace ResourcePki.Decimal

theorem digit?_digitChar : ∀ d < 10, digit? d.digitChar = some d := by
  decide

theorem digits_of_lt {n : Nat} (h : n < 10) : digits n = [n.digitChar] :=
  Nat.toDigits_of_lt_base h

theorem digits_of_le {n : Nat} (h : 10 ≤ n) : digits n = digits (n / 10) ++ [(n % 10).digitChar] :=
  Nat.toDigits_of_base_le (by decide) h

/-- Reading can stop anywhere and go on from there. -/
theorem readOn_append {largest : Nat} (cs ds : List Char) :
    ∀ n, readOn largest n (cs ++ ds) = readOn largest n cs >>= fun m => readOn largest m ds := by
  induction cs with
  | nil => exact fun n => rfl
  | cons c cs ih =>
    intro n
    rw [List.cons_append, readOn, readOn]
    cases digit? c with
    | none => rfl
    | some d =>
      dsimp only
      split
      · exact ih _
      · rfl

/-- The digits of a number in range spell it. -/
theorem readOn_digits {largest : Nat} (n : Nat) (h : n ≤ largest) :
    readOn largest 0 (digits n) = .ok n := by
  induction n using Nat.strongRecOn with
  | ind n ih =>
    by_cases hn : n < 10
    · rw [digits_of_lt hn, readOn, digit?_digitChar n hn]
      dsimp only
      rw [Nat.zero_mul, Nat.zero_add, if_pos h]
      rfl
    · rw [digits_of_le (Nat.not_lt.mp hn), readOn_append, ih (n / 10) (by omega) (by omega)]
      show readOn largest (n / 10) [(n % 10).digitChar] = .ok n
      have hjoin : n / 10 * 10 + n % 10 = n := by omega
      rw [readOn, digit?_digitChar _ (Nat.mod_lt n (by decide))]
      dsimp only
      rw [hjoin, if_pos h]
      rfl

/-! ### The characters of a number -/

theorem isDigit_digitChar {d : Nat} (h : d < 10) : isDigit d.digitChar = true := by
  rw [isDigit, digit?_digitChar d h]
  rfl

theorem toNat_of_isDigit {c : Char} (h : isDigit c = true) : 0x30 ≤ c.toNat ∧ c.toNat ≤ 0x39 := by
  by_contra hno
  have hrange : ¬('0' ≤ c ∧ c ≤ '9') := hno
  rw [isDigit, digit?, if_neg hrange] at h
  simp at h

theorem isDigit_of_mem_digits {n : Nat} : ∀ c ∈ digits n, isDigit c = true := by
  induction n using Nat.strongRecOn with
  | ind n ih =>
    intro c hc
    by_cases hn : n < 10
    · rw [digits_of_lt hn, List.mem_singleton] at hc
      exact hc ▸ isDigit_digitChar hn
    · rw [digits_of_le (Nat.not_lt.mp hn), List.mem_append, List.mem_singleton] at hc
      rcases hc with hc | rfl
      · exact ih (n / 10) (by omega) c hc
      · exact isDigit_digitChar (Nat.mod_lt n (by decide))

/-- A number other than zero begins with a digit other than zero. -/
theorem exists_digits_eq_cons {n : Nat} (h : n ≠ 0) :
    ∃ d cs, digits n = Nat.digitChar d :: cs ∧ 0 < d ∧ d < 10 := by
  induction n using Nat.strongRecOn with
  | ind n ih =>
    by_cases hn : n < 10
    · exact ⟨n, [], digits_of_lt hn, Nat.pos_of_ne_zero h, hn⟩
    · obtain ⟨d, cs, hcs, hd⟩ := ih (n / 10) (by omega) (by omega)
      refine ⟨d, cs ++ [(n % 10).digitChar], ?_, hd⟩
      rw [digits_of_le (Nat.not_lt.mp hn), hcs, List.cons_append]

/-! ### Padded numbers -/

theorem isDigit_of_mem_padded {width n : Nat} : ∀ c ∈ padded width n, isDigit c = true := by
  intro c hc
  rcases List.mem_append.mp hc with hc | hc
  · rw [List.eq_of_mem_replicate hc]
    rfl
  · exact isDigit_of_mem_digits c hc

/-- A number with few enough digits is padded to the width. -/
theorem length_padded {width n : Nat} (hwidth : 0 < width) (h : n < 10 ^ width) :
    (padded width n).length = width := by
  have hle : (digits n).length ≤ width := Nat.toDigits_length 10 n width hwidth h
  rw [padded, List.length_append, List.length_replicate]
  omega

theorem le_length_padded (width n : Nat) : width ≤ (padded width n).length := by
  rw [padded, List.length_append, List.length_replicate]
  omega

/-- A number is less than the next power of ten that its digits leave room for. -/
theorem lt_pow_length_digits (n : Nat) : n < 10 ^ (digits n).length := by
  induction n using Nat.strongRecOn with
  | ind n ih =>
    by_cases hn : n < 10
    · rw [digits_of_lt hn]
      exact hn
    · have htenth := ih (n / 10) (by omega)
      rw [digits_of_le (Nat.not_lt.mp hn), List.length_append, List.length_singleton, Nat.pow_succ]
      omega

/-- A number with too many digits is not cut off. -/
theorem lt_length_padded {width n : Nat} (h : 10 ^ width ≤ n) :
    width < (padded width n).length := by
  have hlt : width < (digits n).length :=
    (Nat.pow_lt_pow_iff_right (by decide)).mp (Nat.lt_of_le_of_lt h (lt_pow_length_digits n))
  rw [padded, List.length_append]
  omega

/-! ### The texts that are read -/

/-- The number that digits spell in base ten. -/
def valueOfDigits (ds : List Char) : Nat :=
  Nat.ofDigits 10 (ds.reverse.map fun c => c.toNat - '0'.toNat)

/-- Digits spell a number. There is at least one, and zeros in front make no difference. -/
structure Spells (ds : List Char) (n : Nat) : Prop where
  nonempty : ds ≠ []
  digits : ∀ c ∈ ds, '0' ≤ c ∧ c ≤ '9'
  value_eq : valueOfDigits ds = n

/-- A text spells a number with digits, which may have a plus sign in front. -/
def IsNumeral (cs : List Char) (n : Nat) : Prop :=
  ∃ ds, (cs = ds ∨ cs = '+' :: ds) ∧ Spells ds n

theorem valueOfDigits_cons (c : Char) (cs : List Char) :
    valueOfDigits (c :: cs) = (c.toNat - '0'.toNat) * 10 ^ cs.length + valueOfDigits cs := by
  rw [valueOfDigits, valueOfDigits, List.reverse_cons, List.map_append, Nat.ofDigits_append,
    List.length_map, List.length_reverse]
  simp only [List.map_cons, List.map_nil, Nat.ofDigits_singleton]
  rw [Nat.add_comm, Nat.mul_comm]

theorem digit?_eq_some {c : Char} {d : Nat} :
    digit? c = some d ↔ ('0' ≤ c ∧ c ≤ '9') ∧ c.toNat - '0'.toNat = d := by
  unfold digit?
  split
  · rename_i h
    simp [h]
  · rename_i h
    simp [h]

/-- Reading goes on with digits as long as the number stays in range. -/
theorem readOn_eq_ok {largest : Nat} : ∀ {cs : List Char} {m n : Nat}, m ≤ largest →
    (readOn largest m cs = .ok n ↔ (∀ c ∈ cs, '0' ≤ c ∧ c ≤ '9') ∧
      m * 10 ^ cs.length + valueOfDigits cs = n ∧ n ≤ largest)
  | [], m, n, hm => by
    have hvalue : valueOfDigits [] = 0 := rfl
    rw [readOn, Except.ok.injEq, List.length_nil, hvalue]
    constructor
    · rintro rfl
      exact ⟨by simp, by omega, hm⟩
    · rintro ⟨-, rfl, -⟩
      omega
  | c :: cs, m, n, hm => by
    have hjoin : m * 10 ^ (c :: cs).length + valueOfDigits (c :: cs)
        = (m * 10 + (c.toNat - '0'.toNat)) * 10 ^ cs.length + valueOfDigits cs := by
      rw [valueOfDigits_cons, List.length_cons, Nat.pow_succ, Nat.add_mul]
      ring
    rw [readOn, List.forall_mem_cons, hjoin]
    cases hd : digit? c with
    | none =>
      have hno : ¬('0' ≤ c ∧ c ≤ '9') := fun h => by
        rw [digit?_eq_some.mpr ⟨h, rfl⟩] at hd
        simp at hd
      simp [hno]
    | some d =>
      obtain ⟨hdigit, rfl⟩ := digit?_eq_some.mp hd
      dsimp only
      by_cases hnext : m * 10 + (c.toNat - '0'.toNat) ≤ largest
      · rw [if_pos hnext, readOn_eq_ok hnext, and_iff_right hdigit]
      · -- what has been read never gets smaller again
        have hgrows : m * 10 + (c.toNat - '0'.toNat)
            ≤ (m * 10 + (c.toNat - '0'.toNat)) * 10 ^ cs.length :=
          Nat.le_mul_of_pos_right _ (Nat.pow_pos (by decide))
        rw [if_neg hnext]
        constructor
        · intro h
          simp at h
        · rintro ⟨-, hn, hle⟩
          omega

/-- What is read is in range. -/
theorem le_of_readOn {largest n m : Nat} {cs : List Char} (hn : n ≤ largest)
    (h : readOn largest n cs = .ok m) : m ≤ largest :=
  ((readOn_eq_ok hn).mp h).2.2

theorem readOn_zero_eq_ok {largest n : Nat} {cs : List Char} (hne : cs ≠ []) :
    readOn largest 0 cs = .ok n ↔ Spells cs n ∧ n ≤ largest := by
  rw [readOn_eq_ok (Nat.zero_le _), Nat.zero_mul, Nat.zero_add]
  constructor
  · rintro ⟨hdigits, hvalue, hle⟩
    exact ⟨⟨hne, hdigits, hvalue⟩, hle⟩
  · rintro ⟨⟨-, hdigits, hvalue⟩, hle⟩
    exact ⟨hdigits, hvalue, hle⟩

theorem not_isDigit_plus : ¬('0' ≤ '+' ∧ '+' ≤ '9') := by
  decide

theorem isNumeral_plus {cs : List Char} {n : Nat} : IsNumeral ('+' :: cs) n ↔ Spells cs n := by
  constructor
  · rintro ⟨ds, rfl | h, hds⟩
    · exact absurd (hds.digits '+' List.mem_cons_self) not_isDigit_plus
    · exact (List.cons.inj h).2 ▸ hds
  · exact fun h => ⟨cs, .inr rfl, h⟩

theorem isNumeral_of_ne {c : Char} {cs : List Char} {n : Nat} (h : c ≠ '+') :
    IsNumeral (c :: cs) n ↔ Spells (c :: cs) n := by
  constructor
  · rintro ⟨ds, rfl | heq, hds⟩
    · exact hds
    · exact absurd (List.cons.inj heq).1 h
  · exact fun hds => ⟨c :: cs, .inl rfl, hds⟩

theorem spells_digits (n : Nat) : Spells (digits n) n := by
  have hne : digits n ≠ [] := Nat.toDigits_ne_nil
  exact ((readOn_zero_eq_ok hne).mp (readOn_digits n (Nat.le_refl n))).1

/-- What is read are the numerals in range. -/
theorem read_eq_ok {largest n : Nat} {cs : List Char} :
    read largest cs = .ok n ↔ IsNumeral cs n ∧ n ≤ largest := by
  have hempty : ∀ n, ¬Spells [] n := fun n h => h.nonempty rfl
  unfold read
  split
  · have hno : ¬IsNumeral [] n := by
      rintro ⟨ds, rfl | h, hds⟩
      · exact hempty n hds
      · simp at h
    simp [hno]
  · simp [isNumeral_plus, hempty]
  · rename_i cs hne
    rw [isNumeral_plus, readOn_zero_eq_ok fun h => hne (h ▸ rfl)]
  · rename_i hne hplus hsign
    obtain ⟨c, cs, rfl⟩ := List.exists_cons_of_ne_nil hne
    rw [isNumeral_of_ne fun h => hsign cs (h ▸ rfl), readOn_zero_eq_ok hne]

end ResourcePki.Decimal

import ResourcePki.Proofs.KeyIdentifier
import ResourcePki.Proofs.Text

/-!
The text of key identifiers.

The digits that are read are those of two cases, and writing what has been read gives them in upper
case. Upper-case digits are ordered as their values, and all octets have two of them, so texts come
in the order of the octets that they spell.
-/

namespace ResourcePki

namespace Hex

/-! ### Digits -/

/-- A hexadecimal digit of either case. -/
def IsDigit (c : Char) : Prop :=
  ('0' ≤ c ∧ c ≤ '9') ∨ ('a' ≤ c ∧ c ≤ 'f') ∨ ('A' ≤ c ∧ c ≤ 'F')

instance (c : Char) : Decidable (IsDigit c) :=
  inferInstanceAs (Decidable (_ ∨ _ ∨ _))

theorem isSome_value?_iff {c : Char} : (value? c).isSome ↔ IsDigit c := by
  unfold value? IsDigit
  split
  · simp [*]
  split
  · simp [*]
  split
  · simp [*]
  · simp [*]

/-- The value of a digit is below sixteen, and it is written as the digit in upper case. -/
theorem value?_spec {c : Char} {n : Nat} (h : value? c = some n) :
    n < 16 ∧ digit .upper n = c.toUpper := by
  have hall : ∀ m < 128, ∀ v ∈ value? (Char.ofNat m),
      v < 16 ∧ digit .upper v = (Char.ofNat m).toUpper := by
    decide +kernel
  have hdigit : IsDigit c := isSome_value?_iff.mp (by rw [h]; rfl)
  have hascii : c.toNat < 128 := by
    rcases hdigit with ⟨-, hle⟩ | ⟨-, hle⟩ | ⟨-, hle⟩
    · exact Nat.lt_of_le_of_lt (Char.le_def.mp hle) (by decide)
    · exact Nat.lt_of_le_of_lt (Char.le_def.mp hle) (by decide)
    · exact Nat.lt_of_le_of_lt (Char.le_def.mp hle) (by decide)
  have hchar := hall c.toNat hascii n
  rw [Char.ofNat_toNat] at hchar
  exact hchar h

/-- Digits in upper case are ordered as their values. -/
theorem digit_lt_digit_iff : ∀ m < 16, ∀ n < 16, digit .upper m < digit .upper n ↔ m < n := by
  decide +kernel

theorem digit_inj : ∀ m < 16, ∀ n < 16, digit .upper m = digit .upper n ↔ m = n := by
  decide +kernel

/-! ### Octets -/

theorem decode?_cons_eq_some {hi lo : Char} {rest : List Char} {bs : Octets} :
    decode? (hi :: lo :: rest) = some bs ↔ ∃ high low tail,
      value? hi = some high ∧ value? lo = some low ∧ decode? rest = some tail ∧
        bs = UInt8.ofNat (high * 16 + low) :: tail := by
  simp only [decode?, Option.bind_eq_bind, Option.bind_eq_some_iff, pure, Option.some.injEq]
  constructor
  · rintro ⟨high, hhigh, low, hlow, tail, htail, rfl⟩
    exact ⟨high, low, tail, hhigh, hlow, htail, rfl⟩
  · rintro ⟨high, low, tail, hhigh, hlow, htail, rfl⟩
    exact ⟨high, hhigh, low, hlow, tail, htail, rfl⟩

/-- Digits are read as octets iff they are digits and come in pairs. -/
theorem exists_decode?_iff : ∀ {cs : List Char},
    (∃ bs, decode? cs = some bs) ↔ 2 ∣ cs.length ∧ ∀ c ∈ cs, IsDigit c
  | [] => by simp [decode?]
  | [c] => by simp [decode?]
  | hi :: lo :: rest => by
    have hrest : (∃ bs, decode? rest = some bs) ↔ 2 ∣ rest.length ∧ ∀ c ∈ rest, IsDigit c :=
      exists_decode?_iff
    have hlength : 2 ∣ (hi :: lo :: rest).length ↔ 2 ∣ rest.length := by
      rw [List.length_cons, List.length_cons]
      omega
    simp only [decode?_cons_eq_some, hlength, List.forall_mem_cons, ← isSome_value?_iff,
      Option.isSome_iff_exists]
    constructor
    · rintro ⟨bs, high, low, tail, hhigh, hlow, htail, -⟩
      obtain ⟨heven, hdigits⟩ := hrest.mp ⟨tail, htail⟩
      exact ⟨heven, ⟨high, hhigh⟩, ⟨low, hlow⟩,
        fun c hc => Option.isSome_iff_exists.mp (isSome_value?_iff.mpr (hdigits c hc))⟩
    · rintro ⟨heven, ⟨high, hhigh⟩, ⟨low, hlow⟩, hdigits⟩
      obtain ⟨tail, htail⟩ := hrest.mpr ⟨heven, fun c hc =>
        isSome_value?_iff.mp (Option.isSome_iff_exists.mpr (hdigits c hc))⟩
      exact ⟨_, high, low, tail, hhigh, hlow, htail, rfl⟩

/-- The octets that digits are read as are written as the digits in upper case. -/
theorem encode_of_decode? : ∀ {cs : List Char} {bs : Octets}, decode? cs = some bs →
    encode .upper bs = cs.map Char.toUpper
  | [], bs, h => by
    obtain rfl := Option.some.inj h
    rfl
  | [c], bs, h => by simp [decode?] at h
  | hi :: lo :: rest, bs, h => by
    obtain ⟨high, low, tail, hhigh, hlow, htail, rfl⟩ := decode?_cons_eq_some.mp h
    obtain ⟨hhigh, hupper⟩ := value?_spec hhigh
    obtain ⟨hlow, hlower⟩ := value?_spec hlow
    have hoctet : (UInt8.ofNat (high * 16 + low)).toNat = high * 16 + low := by
      rw [UInt8.toNat_ofNat']
      omega
    have hdiv : (high * 16 + low) / 16 = high := by omega
    have hmod : (high * 16 + low) % 16 = low := by omega
    rw [encode, List.flatMap_cons, ← encode, encode_of_decode? htail, hoctet, hdiv, hmod, hupper,
      hlower]
    rfl

theorem length_encode (case : Case) (bs : Octets) : (encode case bs).length = 2 * bs.length := by
  induction bs with
  | nil => rfl
  | cons b bs ih =>
    rw [encode, List.flatMap_cons, ← encode, List.length_append, ih, List.length_cons]
    simp only [List.length_cons, List.length_nil]
    omega

/-- Pairs of digits come in the order of the octets that they stand for. -/
theorem pair_lt_pair_iff {a b : UInt8} {s t : List Char} :
    digit .upper (a.toNat / 16) :: digit .upper (a.toNat % 16) :: s
        < digit .upper (b.toNat / 16) :: digit .upper (b.toNat % 16) :: t ↔
      a < b ∨ a = b ∧ s < t := by
  have ha : a.toNat / 16 < 16 := Nat.div_lt_of_lt_mul a.toNat_lt
  have hb : b.toNat / 16 < 16 := Nat.div_lt_of_lt_mul b.toNat_lt
  have ha' : a.toNat % 16 < 16 := Nat.mod_lt _ (by decide)
  have hb' : b.toNat % 16 < 16 := Nat.mod_lt _ (by decide)
  rw [List.cons_lt_cons_iff, List.cons_lt_cons_iff, digit_lt_digit_iff _ ha _ hb,
    digit_inj _ ha _ hb, digit_lt_digit_iff _ ha' _ hb', digit_inj _ ha' _ hb',
    UInt8.lt_iff_toNat_lt, ← UInt8.toNat_inj]
  by_cases h : s < t
  · simp only [h, and_true]
    omega
  · simp only [h, and_false, or_false]
    omega

/-- Octets are ordered as what is written of them in upper case. -/
theorem encode_lt_encode_iff : ∀ {a b : Octets}, encode .upper a < encode .upper b ↔ a < b
  | [], [] => by simp [encode]
  | [], b :: bs => by simp [encode]
  | a :: as, [] => by simp [encode]
  | a :: as, b :: bs => by
    have hpair := pair_lt_pair_iff (a := a) (b := b) (s := encode .upper as) (t := encode .upper bs)
    rw [encode_lt_encode_iff] at hpair
    rw [List.cons_lt_cons_iff]
    exact hpair

end Hex

namespace KeyIdentifier

theorem ofText?_eq_some {s : String} {k : KeyIdentifier} :
    ofText? s = some k ↔ Hex.decode? s.toList = some k.octets := by
  rw [ofText?, Option.bind_eq_some_iff]
  constructor
  · rintro ⟨bs, hbs, h⟩
    unfold ofOctets? at h
    split at h
    · exact Option.some.inj h ▸ hbs
    · simp at h
  · intro h
    exact ⟨_, h, dif_pos k.length_eq⟩

theorem toList_text (k : KeyIdentifier) : k.text.toList = Hex.encode .upper k.octets :=
  String.toList_ofList

theorem text_lt_text_iff {k l : KeyIdentifier} : k.text < l.text ↔ k.octets < l.octets := by
  rw [String.lt_iff, toList_text, toList_text, Hex.encode_lt_encode_iff]

/-- Identifiers come in the order of their texts. -/
theorem compare_text (k l : KeyIdentifier) : compare k.text l.text = compare k l := by
  have hlt : ∀ k l : KeyIdentifier, compare k.text l.text = .lt ↔ compare k l = .lt :=
    fun k l => compareOfLessAndEq_eq_lt.trans (text_lt_text_iff.trans compare_eq_lt.symm)
  cases h : compare k l with
  | lt => exact (hlt k l).mpr h
  | eq =>
    obtain rfl := Std.LawfulEqOrd.eq_of_compare h
    exact Std.ReflCmp.compare_self
  | gt =>
    rw [Std.OrientedCmp.gt_iff_lt] at h ⊢
    exact (hlt l k).mpr h

/-- What is read are 40 digits of either case, and the text of what has been read has them in upper
    case. -/
theorem exists_ofText?_iff {s : String} :
    (∃ k, ofText? s = some k) ↔ s.length = 40 ∧ ∀ c ∈ s.toList, Hex.IsDigit c := by
  simp only [ofText?_eq_some, ← String.length_toList]
  constructor
  · rintro ⟨k, hk⟩
    have hlength := congrArg List.length (Hex.encode_of_decode? hk)
    rw [Hex.length_encode, k.length_eq, List.length_map] at hlength
    exact ⟨hlength.symm, (Hex.exists_decode?_iff.mp ⟨_, hk⟩).2⟩
  · rintro ⟨hforty, hdigits⟩
    obtain ⟨bs, hbs⟩ := Hex.exists_decode?_iff.mpr ⟨⟨20, hforty⟩, hdigits⟩
    have hlength := congrArg List.length (Hex.encode_of_decode? hbs)
    rw [Hex.length_encode, List.length_map, hforty] at hlength
    exact ⟨⟨bs, by omega⟩, hbs⟩

theorem text_of_ofText? {s : String} {k : KeyIdentifier} (h : ofText? s = some k) :
    k.text = s.toUpper := by
  rw [text, Hex.upper, Hex.encode_of_decode? (ofText?_eq_some.mp h), String.toUpper,
    ← String.toList_map, String.ofList_toList]

/-- Exactly 40 digits of either case are read as an identifier, whose text has them in upper case;
    every identifier is read from its text, and identifiers come in the order of their texts. -/
theorem text_exact :
    (∀ s : String, ((∃ k, ofText? s = some k) ↔ s.length = 40 ∧ ∀ c ∈ s.toList, Hex.IsDigit c) ∧
      ∀ k, ofText? s = some k → k.text = s.toUpper) ∧
    (∀ k : KeyIdentifier, ofText? k.text = some k) ∧
    ∀ k l : KeyIdentifier, compare k l = compare k.text l.text := by
  refine ⟨fun s => ⟨exists_ofText?_iff, fun k => text_of_ofText?⟩, fun k => ?_, fun k l => ?_⟩
  · rw [ofText?_eq_some, toList_text, Hex.decode?_encode]
  · exact (compare_text k l).symm

/-- Digits of both cases, and the same ones in upper case. -/
theorem text_exact_sample : ∃ k, ofText? "0123456789abcdef0123456789ABCDEF01234567" = some k ∧
    k.text = "0123456789ABCDEF0123456789ABCDEF01234567" := by
  obtain ⟨hread, hupper⟩ := text_exact.1 "0123456789abcdef0123456789ABCDEF01234567"
  have hdigits : "0123456789abcdef0123456789ABCDEF01234567".toList.all (Hex.IsDigit ·) := by
    decide +kernel
  simp only [List.all_eq_true, decide_eq_true_eq] at hdigits
  obtain ⟨k, hk⟩ := hread.mpr ⟨by decide +kernel, hdigits⟩
  exact ⟨k, hk, (hupper k hk).trans (by decide +kernel)⟩

end KeyIdentifier

end ResourcePki
